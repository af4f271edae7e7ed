import PhyEngine.Verilog.ArithExact
import PhyEngine.Verilog.Instance

/-!
# The conditional operator

`make_conditional` builds a multiplexer of gates for each bit. Gates read `Z` as `X`, so the
chosen operand comes through with its `Z` bits unknown. A driver `en ? d : 1'bz` that is not
enabled drives `X`, and the net is lost for the others.
-/

namespace PhyEngine.Verilog

open LogicT List

theorem muxVal_known (s : Bool) (t f : LogicT) : muxVal (ofBool s) t f = (if s then t else f).normalizeZToX := by
  cases s <;> cases t <;> cases f <;> rfl

variable {vs : List LogicT}

section Spec

variable {N : List ExprNode} (values : List LogicT) {m : ExprBuilder}

variable {bs : List Bool}

theorem spec_orBits {rs : List Nat} {r : Nat} {b : Bool} (hrs : HasAll N values (bs.map ofBool) rs m)
    (hr : Has N values (ofBool b) r m) :
    Spec N m (rs.foldlM makeOr r) (Has N values (ofBool (b || bs.any id))) := by
  induction rs generalizing r b bs m with
  | nil =>
    obtain rfl : bs = [] := map_eq_nil_iff.mp hrs.2.symm
    rw [foldlM_nil, any_nil, Bool.or_false]
    exact Spec.pure hr
  | cons r' rs ih =>
    obtain ⟨hlt, hvals⟩ := hrs
    rw [forall_mem_cons] at hlt
    obtain ⟨b', bs, rfl⟩ : ∃ b' bs', bs = b' :: bs' := by
      cases bs with
      | nil => cases hvals
      | cons b' bs => exact ⟨b', bs, rfl⟩
    rw [map_cons, map_cons, List.cons.injEq] at hvals
    rw [foldlM_cons]
    apply (spec_makeOr values hr.1 hlt.1).bind
    rintro o m₁ h₁ ⟨ho, hov⟩
    rw [hr.2, hvals.1, logicOr_ofBool] at hov
    rw [any_cons, id, ← Bool.or_assoc]
    exact ih ⟨fun q hq => lt_of_lt_of_le (hlt.2 q hq) h₁, hvals.2⟩ ⟨ho, hov⟩

instance (v : ExprValue) : Grows (toBoolRoot v) := by
  unfold toBoolRoot
  split
  · infer_instance
  · split <;> infer_instance

theorem spec_toBoolRoot {c : ExprValue} (hc : ValidIn m c) (hbs : valuesOf N values c = bs.map ofBool) :
    Spec N m (toBoolRoot c) (Has N values (ofBool (bs.any id))) := by
  have hlt := hc.lt
  have hne := hc.ne_nil
  rw [valuesOf] at hbs
  rw [toBoolRoot]
  cases hvec : c.isVector with
  | false =>
    rw [ExprValue.roots, hvec, if_neg Bool.false_ne_true] at hbs hlt
    obtain ⟨b, rfl⟩ : ∃ b, bs = [b] := by
      have hlen := congrArg List.length hbs
      rw [length_map, length_map] at hlen
      exact length_eq_one_iff.mp hlen.symm
    rw [any_cons, any_nil, Bool.or_false, id]
    exact Spec.pure ⟨hlt _ (mem_singleton.mpr rfl), singleton_inj.mp hbs⟩
  | true =>
    rw [ExprValue.roots, hvec, if_pos rfl] at hbs hlt hne
    obtain ⟨r, rs, hroots⟩ := exists_cons_of_ne_nil hne
    rw [hroots] at hbs hlt ⊢
    rw [forall_mem_cons] at hlt
    obtain ⟨b, bs, rfl⟩ : ∃ b bs', bs = b :: bs' := by
      cases bs with
      | nil => cases hbs
      | cons b bs => exact ⟨b, bs, rfl⟩
    rw [map_cons, map_cons, List.cons.injEq] at hbs
    rw [any_cons, id]
    exact spec_orBits values ⟨hlt.2, hbs.2⟩ ⟨hlt.1, hbs.1⟩

theorem spec_muxBits {sel : Nat} {s : Bool} {ts fs : List Nat} {tv fv : List LogicT}
    (hs : Has N values (ofBool s) sel m)
    (ht : HasAll N values tv ts m) (hf : HasAll N values fv fs m) (hlen : tv.length = fv.length) :
    Spec N m ((ts.zip fs).mapM fun p => makeMux sel p.1 p.2)
      (HasAll N values ((if s then tv else fv).map normalizeZToX)) := by
  have hvals : (ts.zip fs).map (fun p => (if s then rootVal N values p.1 else rootVal N values p.2).normalizeZToX) =
      (if s then tv else fv).map normalizeZToX := by
    have hts := ht.length values
    have hfs := hf.length values
    cases s with
    | true =>
      have hfst : (ts.zip fs).map Prod.fst = ts := List.map_fst_zip (by omega)
      rw [if_pos rfl, ← ht.2, ← hfst, List.map_map, List.map_map, hfst]
      rfl
    | false =>
      have hsnd : (ts.zip fs).map Prod.snd = fs := map_snd_zip (by omega)
      rw [if_neg Bool.false_ne_true, ← hf.2, ← hsnd, List.map_map, List.map_map, hsnd]
      rfl
  rw [← hvals]
  refine spec_mapM values _ fun p hp m' hle => ?_
  obtain ⟨hp1, hp2⟩ := of_mem_zip hp
  have h1 := ht.1 p.1 hp1
  have h2 := hf.1 p.2 hp2
  have h3 := hs.1
  apply (spec_makeMux values (lt_of_lt_of_le h3 hle) (lt_of_lt_of_le h1 hle) (lt_of_lt_of_le h2 hle)).imp
  rintro o m₁ ⟨ho, hov⟩
  exact ⟨ho, by rw [hov, hs.2, muxVal_known]⟩

theorem spec_pairBits {k : Nat → Nat → Build Nat} [∀ r s, Grows (k r s)] {w : Nat} (hw : 0 < w)
    {p : List Nat × List Nat} (hp : p.1.length = w) (hq : p.2.length = w) (hvs : vs.length = w)
    (hall : Spec N m ((p.1.zip p.2).mapM fun q => k q.1 q.2) (HasAll N values vs)) (sgn : Bool) :
    Spec N m (if w ≤ 1 then do
        let r ← k (p.1.headD sizeMax) (p.2.headD sizeMax)
        pure (makeScalar r 0 0 sgn)
      else do
        let rs ← (p.1.zip p.2).mapM fun q => k q.1 q.2
        makeVector rs sgn) (HasValue N values sgn vs) := by
  by_cases hone : w ≤ 1
  · -- One bit is left of both operands.
    rw [if_pos hone]
    obtain rfl : w = 1 := by omega
    obtain ⟨a, ha⟩ : ∃ a, p.1 = [a] := length_eq_one_iff.mp hp
    obtain ⟨b, hb⟩ : ∃ b, p.2 = [b] := length_eq_one_iff.mp hq
    rw [ha, hb, zip_cons_cons, zip_nil_left, mapM_cons, mapM_nil] at hall
    rw [ha, hb, headD_cons, headD_cons]
    have hbit : Spec N m (k a b) fun r m' => HasAll N values vs [r] m' := hall
    apply hbit.bind
    intro r m₁ h₁ hr
    exact Spec.pure ⟨hr, rfl, by rw [hvs]; rfl⟩
  · rw [if_neg hone]
    apply hall.bind
    intro rs m₁ h₁ hrs
    exact spec_finish values _ hrs (by omega)

theorem makeConditional_eq (c t f : ExprValue) :
    makeConditional c t f = (do
      let sel ← toBoolRoot c
      let p ← resizeOperands t f (max t.width f.width) (signedOp t f)
      if max t.width f.width ≤ 1 then do
        let r ← makeMux sel (p.1.headD sizeMax) (p.2.headD sizeMax)
        pure (makeScalar r 0 0 (signedOp t f))
      else do
        let rs ← (p.1.zip p.2).mapM fun q => makeMux sel q.1 q.2
        makeVector rs (signedOp t f)) := rfl

instance (c t f : ExprValue) : Grows (makeConditional c t f) := by
  rw [makeConditional_eq]
  infer_instance

theorem spec_makeConditional {c t f : ExprValue} (hc : ValidIn m c) (ht : ValidIn m t) (hf : ValidIn m f)
    (hbs : valuesOf N values c = bs.map ofBool) :
    Spec N m (makeConditional c t f) (HasValue N values (signedOp t f)
      ((resizeVals (signedOp t f) (max t.width f.width)
        (valuesOf N values (if bs.any id then t else f))).map normalizeZToX)) := by
  have htpos := ht.width_pos
  rw [makeConditional_eq]
  apply (spec_toBoolRoot values hc hbs).bind
  rintro sel m₁ h₁ hsel
  apply (spec_resizeOperands values (signedOp t f) (ht.mono h₁).lt (hf.mono h₁).lt ht.ne_nil hf.ne_nil
    (w := max t.width f.width) (by omega)).bind
  rintro p m₂ h₂ ⟨hp, hq⟩
  rw [← valuesOf] at hp hq
  have hsel₂ : Has N values (ofBool (bs.any id)) sel m₂ := ⟨lt_of_lt_of_le hsel.1 h₂, hsel.2⟩
  have hmux := spec_muxBits values hsel₂ hp hq (by rw [length_resizeVals, length_resizeVals])
  have hchosen : (if bs.any id = true then resizeVals (signedOp t f) (max t.width f.width) (valuesOf N values t)
      else resizeVals (signedOp t f) (max t.width f.width) (valuesOf N values f)) =
      resizeVals (signedOp t f) (max t.width f.width) (valuesOf N values (if bs.any id then t else f)) := by
    split_ifs <;> rfl
  rw [hchosen] at hmux
  exact spec_pairBits values (by omega) (by rw [hp.length values, length_resizeVals])
    (by rw [hq.length values, length_resizeVals])
    (by rw [length_map, length_resizeVals]) hmux _

end Spec

/-- The bits that the operator should have: those of the chosen operand at the common width. -/
def chosenBits (m : ExprBuilder) (t f : ExprValue) (values : List LogicT) (chosen : Bool) : List LogicT :=
  resizeVals (signedOp t f) (max t.width f.width) (m.denote (if chosen then t else f) values)

section Exact

variable {m : ExprBuilder} {c t f : ExprValue} {values : List LogicT} {bs : List Bool}
  (hord : OperandsFirst m.exprNodes) (hc : ValidIn m c) (ht : ValidIn m t) (hf : ValidIn m f)
  (hbs : m.denote c values = bs.map ofBool)

include hord hc ht hf hbs

theorem resultBits_makeConditional (hq : NoError (makeConditional c t f) m) :
    resultBits (makeConditional c t f) m values = (chosenBits m t f values (bs.any id)).map normalizeZToX := by
  have hpre : m.exprNodes <+: (makeConditional c t f m).2.exprNodes := (Grows.grew (x := makeConditional c t f) m).nodes
  rw [← hc.valuesOf_eq hord hpre] at hbs
  obtain ⟨-, hv⟩ := spec_makeConditional values hc ht hf hbs hord (prefix_refl _) hq
  have hchosen : ValidIn m (if bs.any id then t else f) := by
    split_ifs
    · exact ht
    · exact hf
  rw [chosenBits, ← hchosen.valuesOf_eq hord hpre]
  exact hv.hasAll.2

end Exact

theorem map_normalizeZToX_eq_self : vs.map normalizeZToX = vs ↔ .Z ∉ vs := by
  constructor
  · intro h hz
    rw [← h] at hz
    obtain ⟨v, -, hv⟩ := mem_map.mp hz
    cases v <;> cases hv
  · intro h
    rw [map_congr_left (g := id), map_id]
    intro v hv
    cases v with
    | Z => exact absurd hv h
    | L | H | X => rfl

theorem mem_resizeVals_Z {sgn : Bool} {w : Nat} (hw : vs.length ≤ w) :
    .Z ∈ resizeVals sgn w vs ↔ .Z ∈ vs := by
  rw [resizeVals, if_neg (Nat.not_lt.mpr hw), mem_append]
  constructor
  · rintro (h | h)
    · obtain ⟨-, h⟩ := mem_replicate.mp h
      cases sgn with
      | false => cases h
      | true =>
        cases vs with
        | nil => cases h
        | cons v vs =>
          rw [if_pos rfl, headD_cons] at h
          exact h ▸ mem_cons_self
    · exact h
  · exact .inr

/-- The bit that `en ? d : 1'bz` drives, with a root `z` for the literal. -/
def triStateBit (m : ExprBuilder) (values : List LogicT) (z : ExprValue) (p : ExprValue × ExprValue) : LogicT :=
  (resultBits (makeConditional p.1 p.2 z) m values).headD .X

def triStateNet (m : ExprBuilder) (values : List LogicT) (z : ExprValue) (ps : List (ExprValue × ExprValue)) : LogicT :=
  joined (ps.map (triStateBit m values z))

theorem foldl_resolve_X (n : Nat) : (List.replicate n LogicT.X).foldl resolveNetDrivers .X = .X := by
  induction n with
  | zero => rfl
  | succ n ih => exact ih

theorem joined_unknown (v : LogicT) (k n : Nat) :
    joined (List.replicate k LogicT.X ++ v :: List.replicate n LogicT.X) = if k = 0 ∧ n = 0 then v else .X := by
  rw [joined, foldl_append, foldl_cons]
  have hX : resolveNetDrivers .X v = .X := by cases v <;> rfl
  have hvX : resolveNetDrivers v .X = .X := by cases v <;> rfl
  cases k with
  | zero =>
    have hZ : resolveNetDrivers .Z v = v := by cases v <;> rfl
    rw [replicate_zero, foldl_nil, hZ]
    cases n with
    | zero => rfl
    | succ n =>
      rw [replicate_succ, foldl_cons, hvX, foldl_resolve_X, if_neg (by omega)]
  | succ k =>
    rw [replicate_succ, foldl_cons]
    show List.foldl resolveNetDrivers (resolveNetDrivers ((replicate k LogicT.X).foldl resolveNetDrivers .X) v) _ = _
    rw [foldl_resolve_X, hX, foldl_resolve_X, if_neg (by omega)]

structure TriState (m : ExprBuilder) (values : List LogicT) (z : ExprValue) (enabled : Bool) (d : LogicT)
    (p : ExprValue × ExprValue) : Prop where
  condition : ValidIn m p.1
  data : ValidIn m p.2
  value : m.denote p.2 values = [d]
  known : ∃ bs : List Bool, m.denote p.1 values = bs.map ofBool ∧ bs.any id = enabled
  quiet : NoError (makeConditional p.1 p.2 z) m

section Net

variable {m : ExprBuilder} {values : List LogicT} {z : ExprValue} (hord : OperandsFirst m.exprNodes) (hz : ValidIn m z)
  (hzv : m.denote z values = [.Z])

include hord hz hzv

variable {d : LogicT} {p : ExprValue × ExprValue}

theorem TriState.bit_eq {enabled : Bool} (h : TriState m values z enabled d p) :
    triStateBit m values z p = if enabled then d.normalizeZToX else .X := by
  obtain ⟨bs, hbs, rfl⟩ := h.known
  have hwd : p.2.width = 1 := by rw [← length_denote, h.value]; rfl
  have hwz : z.width = 1 := by rw [← length_denote, hzv]; rfl
  have hbits : chosenBits m p.2 z values (bs.any id) = [if bs.any id then d else .Z] := by
    rw [chosenBits, hwd, hwz]
    split_ifs
    · rw [h.value]
      rfl
    · rw [hzv]
      rfl
  rw [triStateBit, resultBits_makeConditional hord h.condition h.data hz hbs h.quiet, hbits, map_singleton,
    headD_cons]
  split_ifs <;> rfl

theorem triStateNet_eq_iff {before after : List (ExprValue × ExprValue)}
    (hp : TriState m values z true d p) (hbefore : ∀ q ∈ before, ∃ e, TriState m values z false e q)
    (hafter : ∀ q ∈ after, ∃ e, TriState m values z false e q) :
    triStateNet m values z (before ++ p :: after) = d ↔ d = .X ∨ (before = [] ∧ after = [] ∧ d ≠ .Z) := by
  have hX {qs : List (ExprValue × ExprValue)} (hqs : ∀ q ∈ qs, ∃ e, TriState m values z false e q) :
      qs.map (triStateBit m values z) = replicate qs.length .X := by
    rw [map_eq_replicate_iff]
    intro q hq
    obtain ⟨e, he⟩ := hqs q hq
    exact he.bit_eq hord hz hzv
  rw [triStateNet, map_append, map_cons, hX hbefore, hX hafter, hp.bit_eq hord hz hzv, if_pos rfl,
    joined_unknown]
  split_ifs with halone
  all_goals rw [length_eq_zero_iff, length_eq_zero_iff] at halone
  · obtain ⟨rfl, rfl⟩ := halone
    cases d <;> simp [normalizeZToX]
  · constructor
    · exact fun h => .inl h.symm
    · rintro (rfl | ⟨hb, ha, -⟩)
      · rfl
      · exact absurd ⟨hb, ha⟩ halone

end Net

/-- The conditional operator passes the chosen operand exactly when that has no `Z`, and a net
keeps the value of its enabled driver exactly when there is no other driver of this form, unless
that value is unknown. -/
theorem conditional_passes_iff {m : ExprBuilder} {c t f : ExprValue} {values : List LogicT} {bs : List Bool}
    (hord : OperandsFirst m.exprNodes) (hc : ValidIn m c) (ht : ValidIn m t) (hf : ValidIn m f)
    (hbs : m.denote c values = bs.map ofBool) (hq : NoError (makeConditional c t f) m) :
    (resultBits (makeConditional c t f) m values = chosenBits m t f values (bs.any id) ↔
      .Z ∉ m.denote (if bs.any id then t else f) values) ∧
    ∀ z, ValidIn m z → m.denote z values = [.Z] → ∀ before p after d, TriState m values z true d p →
      (∀ q ∈ before, ∃ e, TriState m values z false e q) → (∀ q ∈ after, ∃ e, TriState m values z false e q) →
        (triStateNet m values z (before ++ p :: after) = d ↔ d = .X ∨ (before = [] ∧ after = [] ∧ d ≠ .Z)) := by
  constructor
  · have hwidth : (m.denote (if bs.any id then t else f) values).length ≤ max t.width f.width := by
      rw [length_denote]
      split_ifs
      · exact le_max_left _ _
      · exact le_max_right _ _
    rw [resultBits_makeConditional hord hc ht hf hbs hq, map_normalizeZToX_eq_self, chosenBits, mem_resizeVals_Z hwidth]
  · intro z hz hzv before p after d hp hbefore hafter
    exact triStateNet_eq_iff hord hz hzv hp hbefore hafter

/-- Two enables, two data bits and `1'bz`. -/
def driverArena : ExprBuilder := { exprNodes := (List.range 4).map .signal ++ [.literal .Z] }

theorem operandsFirst_driverArena : OperandsFirst driverArena.exprNodes := by
  intro i n hi c hc
  rcases mem_append.mp (List.mem_of_getElem? hi) with h | h
  · obtain ⟨s, -, rfl⟩ := mem_map.mp h
    cases hc
  · rw [mem_singleton.mp h] at hc
    cases hc

theorem validIn_driverArena {r : Nat} (hr : r < 5) : ValidIn driverArena (makeBit r) := by
  refine ⟨fun q hq => ?_, cons_ne_nil _ _⟩
  rw [mem_singleton.mp hq]
  exact hr

/-- An enabled driver of a high bit. -/
theorem conditional_passes_iff_enabled :
    resultBits (makeConditional (makeBit 0) (makeBit 2) (makeBit 4)) driverArena [.H, .L, .H, .L] = [.H] ∧
      triStateNet driverArena [.H, .L, .H, .L] (makeBit 4) [(makeBit 0, makeBit 2)] = .H := by
  have hquiet : NoError (makeConditional (makeBit 0) (makeBit 2) (makeBit 4)) driverArena := by decide +kernel
  have hcond : driverArena.denote (makeBit 0) [.H, .L, .H, .L] = [true].map ofBool := rfl
  obtain ⟨hbits, hnet⟩ := conditional_passes_iff operandsFirst_driverArena (validIn_driverArena (by omega))
    (validIn_driverArena (by omega)) (validIn_driverArena (by omega)) hcond hquiet
  refine ⟨hbits.mpr (by decide), ?_⟩
  have hdriver : TriState driverArena [.H, .L, .H, .L] (makeBit 4) true .H (makeBit 0, makeBit 2) :=
    ⟨validIn_driverArena (by omega), validIn_driverArena (by omega), rfl, ⟨[true], rfl, rfl⟩, hquiet⟩
  exact (hnet (makeBit 4) (validIn_driverArena (by omega)) rfl [] _ [] .H hdriver (fun q hq => by cases hq)
    (fun q hq => by cases hq)).mpr (.inr ⟨rfl, rfl, by decide⟩)

/-- A disabled driver gives `X` instead of `Z`, and takes the net of the enabled one with it. -/
theorem conditional_loses_Z :
    driverArena.denote (makeBit 1) [.H, .L, .H, .L] = [.L] ∧ driverArena.denote (makeBit 4) [.H, .L, .H, .L] = [.Z] ∧
      resultBits (makeConditional (makeBit 1) (makeBit 3) (makeBit 4)) driverArena [.H, .L, .H, .L] = [.X] ∧
      triStateNet driverArena [.H, .L, .H, .L] (makeBit 4) [(makeBit 0, makeBit 2), (makeBit 1, makeBit 3)] = .X := by
  refine ⟨rfl, rfl, ?_, ?_⟩
  · decide +kernel
  · decide +kernel

end PhyEngine.Verilog
