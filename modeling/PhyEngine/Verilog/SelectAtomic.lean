import PhyEngine.Verilog.SelectAssign

/-!
# Assignments to variable and constant selects

The block for a variable index evaluates the index and the right-hand side again after each
write. It makes the writes of a constant index as long as what is still to be read does not
change, and the select lies inside the range or misses it altogether.
-/

namespace PhyEngine.Verilog

open LogicT BitNumbers List

def IndexIs (vs : List LogicT) (s : Int) : Prop := ∃ ks, vs = bitVals ks ∧ (value ks : Int) = s

variable {vs : List LogicT} {s start : Int} {w : Nat} {plus : Bool}

theorem IndexIs.unique {t : Int} (hs : IndexIs vs s) (ht : IndexIs vs t) : s = t := by
  obtain ⟨ks, rfl, rfl⟩ := hs
  obtain ⟨ks', hks, rfl⟩ := ht
  rw [bitVals_injective hks]

theorem logicEq_eq_H_iff {a b : LogicT} : logicEq a b = .H ↔ a = b ∧ a.isUnknown = false := by
  cases a <;> cases b <;> decide

theorem logicAnd_eq_H_iff {a b : LogicT} : logicAnd a b = .H ↔ a = .H ∧ b = .H := by
  cases a <;> cases b <;> decide

theorem foldl_logicAnd_eq_H_iff (ps : List (LogicT × LogicT)) (r : LogicT) :
    ps.foldl (fun r q => logicAnd r (logicEq q.1 q.2)) r = .H ↔ r = .H ∧ ∀ p ∈ ps, logicEq p.1 p.2 = .H := by
  induction ps generalizing r with
  | nil => exact ⟨fun h => ⟨h, fun p hp => (not_mem_nil hp).elim⟩, fun h => h.1⟩
  | cons p ps ih => rw [foldl_cons, ih, logicAnd_eq_H_iff, forall_mem_cons, and_assoc]

theorem eqVals_eq_H_iff {ps : List (LogicT × LogicT)} (hne : ps ≠ []) :
    eqVals ps = .H ↔ ∀ p ∈ ps, logicEq p.1 p.2 = .H := by
  obtain ⟨p, ps, rfl⟩ := exists_cons_of_ne_nil hne
  rw [eqVals, foldl_logicAnd_eq_H_iff, forall_mem_cons]

theorem forall_zip_logicEq_iff {xs ys : List LogicT} (hlen : xs.length = ys.length)
    (hknown : ∀ y ∈ ys, y.isUnknown = false) : (∀ p ∈ xs.zip ys, logicEq p.1 p.2 = .H) ↔ xs = ys := by
  induction xs generalizing ys with
  | nil =>
    rw [length_eq_zero_iff.mp hlen.symm]
    exact ⟨fun _ => rfl, fun _ p hp => (not_mem_nil hp).elim⟩
  | cons x xs ih =>
    cases ys with
    | nil => cases hlen
    | cons y ys =>
      rw [forall_mem_cons] at hknown
      rw [zip_cons_cons, forall_mem_cons, ih (Nat.succ.inj hlen) hknown.2, List.cons.injEq, logicEq_eq_H_iff]
      constructor
      · exact fun h => ⟨h.1.1, h.2⟩
      · rintro ⟨rfl, htail⟩
        exact ⟨⟨rfl, hknown.1⟩, htail⟩

theorem resizeVals_eq_bitVals_iff {bs : List Bool} (hle : vs.length ≤ w) (hbs : bs.length = w) :
    resizeVals false w vs = bitVals bs ↔ ∃ ks, vs = bitVals ks ∧ value ks = value bs := by
  constructor
  · intro h
    obtain ⟨ks, rfl⟩ : ∃ ks, vs = bitVals ks := by
      rw [resizeVals, if_neg (by omega), bitVals] at h
      have hrev := congrArg reverse h
      rw [reverse_append, reverse_reverse] at hrev
      obtain ⟨ks, rest, -, hks, -⟩ := map_eq_append_iff.mp hrev.symm
      exact ⟨ks, by rw [bitVals, hks, reverse_reverse]⟩
    rw [length_bitVals] at hle
    rw [resizeVals_bitVals false hle] at h
    exact ⟨ks, rfl, by rw [← bitVals_injective h, value_extend_false]⟩
  · rintro ⟨ks, rfl, hval⟩
    rw [length_bitVals] at hle
    rw [resizeVals_bitVals false hle]
    congr 1
    exact eq_of_value_eq (by rw [length_extend false hle, hbs]) (by rw [value_extend_false, hval])

section Spec

variable {N : List ExprNode} {m : ExprBuilder}

theorem Spec.forall_values {α : Type} {x : Build α} {Q : List LogicT → α → ExprBuilder → Prop}
    (h : ∀ values, Spec N m x (Q values)) : Spec N m x fun a m' => ∀ values, Q values a m' := by
  intro hord hpre herr
  exact ⟨(h [] hord hpre herr).1, fun values => (h values hord hpre herr).2⟩

theorem resizeVals_self (sgn : Bool) (vs : List LogicT) : resizeVals sgn vs.length vs = vs := by
  rw [resizeVals, if_neg (Nat.lt_irrefl _), Nat.sub_self, replicate_zero, nil_append]

theorem spec_matchIndex_iff {idx idxNorm : ExprValue} {sgn : Bool} (hpos : 0 < w) (hle : idx.width ≤ w)
    (h : ∀ values, HasValue N values sgn (resizeVals false w (valuesOf N values idx)) idxNorm m) (hs : 0 ≤ s)
    (hsw : s < 2 ^ w) (hs64 : s < 2 ^ 64) :
    Spec N m (matchIndex idxNorm w s) fun r _ => ∀ values, rootVal N values r = .H ↔
      IndexIs (valuesOf N values idx) s := by
  have hmod : (s % 2 ^ 64).toNat = s.toNat := by rw [Int.emod_eq_of_lt hs hs64]
  have hnat : s.toNat < 2 ^ w := by
    rw [Int.toNat_lt hs]
    exact_mod_cast hsw
  apply Spec.forall_values
  intro values
  rw [matchIndex, hmod]
  apply (spec_makeUintLiteral values (by omega) hpos).bind
  intro lit m₁ h₁ hlit
  have hnorm := (h values).mono values h₁
  have hvalid : ValidIn m₁ idxNorm := hnorm.validIn values (by rw [length_resizeVals]; exact hpos)
  have hlitv : ValidIn m₁ lit := hlit.validIn values (by rw [length_bitVals, length_map, length_range]; exact hpos)
  apply (spec_compareEq values hvalid hlitv).imp
  rintro r m₂ ⟨-, hrv⟩
  have hvn : valuesOf N values idxNorm = resizeVals false w (valuesOf N values idx) := hnorm.hasAll.2
  have hvl : valuesOf N values lit = bitVals ((List.range w).map s.toNat.testBit) := hlit.hasAll.2
  have hwn : idxNorm.width = w := by rw [← @length_valuesOf N values, hvn, length_resizeVals]
  have hwl : lit.width = w := by rw [← @length_valuesOf N values, hvl, length_bitVals, length_map, length_range]
  have hbits : ((List.range w).map s.toNat.testBit).length = w := by rw [length_map, length_range]
  have hsame (vs : List LogicT) (hvs : vs.length = w) (sgn : Bool) : resizeVals sgn w vs = vs := by
    rw [← hvs]
    exact resizeVals_self sgn vs
  rw [hrv, hwn, hwl, max_self, hvn, hvl, hsame _ (length_resizeVals _ _ _),
    hsame (bitVals _) (by rw [length_bitVals, hbits]), eqVals_eq_H_iff, forall_zip_logicEq_iff,
    resizeVals_eq_bitVals_iff (by rw [length_valuesOf]; exact hle) hbits, value_testBits, Nat.mod_eq_of_lt hnat]
  · refine exists_congr fun ks => and_congr_right fun _ => ?_
    omega
  · rw [length_resizeVals, length_bitVals, hbits]
  · intro y hy
    have hany := any_isUnknown_bitVals ((List.range w).map s.toNat.testBit)
    rw [any_eq_false] at hany
    exact Bool.eq_false_iff.mpr (hany y hy)
  · apply length_pos_iff.mp
    rw [length_zip, length_resizeVals, length_bitVals, hbits]
    omega

theorem spec_mapM_forall₂ {α β : Type} {f : α → Build β} [∀ a, Grows (f a)] {R : α → β → Prop} (as : List α)
    (h : ∀ a ∈ as, ∀ m', m.size ≤ m'.size → Spec N m' (f a) fun b _ => R a b) :
    Spec N m (as.mapM f) fun bs _ => List.Forall₂ R as bs := by
  induction as generalizing m with
  | nil =>
    rw [mapM_nil]
    exact Spec.pure List.Forall₂.nil
  | cons a as ih =>
    rw [mapM_cons]
    apply (h a mem_cons_self m (Nat.le_refl _)).bind
    intro b m₁ h₁ hb
    apply (ih fun a ha m' hm' => h a (mem_cons_of_mem _ ha) m' (h₁.trans hm')).bind
    intro bs m₂ h₂ hbs
    exact Spec.pure (List.Forall₂.cons hb hbs)

instance (s : Nat) : Grows (makeSignalRoot s) := by
  unfold makeSignalRoot
  infer_instance

theorem spec_makeSignalRoot (s : Nat) : Spec N m (makeSignalRoot s) fun _ _ => True := by
  intro hord _ herr
  have hrun : makeSignalRoot s m = internNode (m.foldNode (.signal s)) m := rfl
  have hleaf : (m.foldNode (.signal s)).children = [] := by
    simp only [ExprBuilder.foldNode]
    split_ifs <;> rfl
  rw [hrun] at herr ⊢
  refine ⟨?_, trivial⟩
  obtain ⟨i, -, h⟩ | h | ⟨-, h⟩ := internNode_cases (m.foldNode (.signal s)) m
  · rw [h]
    exact hord
  · rw [h] at herr
    exact absurd herr (by simp)
  · rw [h]
    refine hord.concat fun c hc => ?_
    rw [hleaf] at hc
    cases hc

end Spec

/-- A vector with as many signals as its range says, between two numbers of type `int`. -/
structure SelectLvalue.Ranged (lhs : SelectLvalue) : Prop where
  length : lhs.vectorSignals.length = (lhs.msb - lhs.lsb).natAbs + 1
  msb : -2 ^ 31 ≤ lhs.msb ∧ lhs.msb < 2 ^ 31
  lsb : -2 ^ 31 ≤ lhs.lsb ∧ lhs.lsb < 2 ^ 31

theorem mem_indicesBetween {a b idx : Int} : idx ∈ indicesBetween a b ↔ min a b ≤ idx ∧ idx ≤ max a b := by
  rw [indicesBetween]
  split_ifs with hle
  · rw [mem_map]
    constructor
    · rintro ⟨i, hi, rfl⟩
      have hlt := mem_range.mp hi
      omega
    · intro h
      exact ⟨(a - idx).toNat, mem_range.mpr (by omega), by omega⟩
  · rw [mem_map]
    constructor
    · rintro ⟨i, hi, rfl⟩
      have hlt := mem_range.mp hi
      omega
    · intro h
      exact ⟨(idx - a).toNat, mem_range.mpr (by omega), by omega⟩

theorem mem_sliceIndices {msb lsb : Int} (hw : 0 < w) {idx : Int} :
    idx ∈ sliceIndices msb lsb w plus start ↔
      if plus then start ≤ idx ∧ idx ≤ start + (w - 1) else start - (w - 1) ≤ idx ∧ idx ≤ start := by
  rw [sliceIndices, mem_indicesBetween, computeBounds]
  split_ifs
  all_goals
    dsimp only
    omega

namespace SelectLvalue

variable {lhs : SelectLvalue}

theorem mem_starts :
    s ∈ lhs.starts w plus ↔ 0 ≤ s ∧ lhs.startMin w plus ≤ s ∧ s ≤ lhs.startMax w plus := by
  rw [starts, mem_filter, mem_map]
  constructor
  · rintro ⟨⟨i, hi, rfl⟩, hs⟩
    have hlt := mem_range.mp hi
    have hpos := of_decide_eq_true hs
    omega
  · rintro ⟨hpos, hmin, hmax⟩
    exact ⟨⟨(s - lhs.startMin w plus).toNat, mem_range.mpr (by omega), by omega⟩, decide_eq_true hpos⟩

theorem pairwise_starts (w : Nat) (plus : Bool) : (lhs.starts w plus).Pairwise (· < ·) := by
  apply List.Pairwise.filter
  rw [pairwise_map]
  refine pairwise_lt_range.imp fun h => ?_
  omega

theorem pairwise_positions : lhs.positions.Pairwise (· < ·) := pairwise_lt_range.filter _

variable {idx : Int}

theorem signalAt_eq_none_iff (hr : lhs.Ranged) :
    lhs.signalAt idx = none ↔ ¬ (min lhs.msb lhs.lsb ≤ idx ∧ idx ≤ max lhs.msb lhs.lsb) := by
  have hlen := hr.length
  rw [signalAt, vectorPos]
  by_cases hin : min lhs.msb lhs.lsb ≤ idx ∧ idx ≤ max lhs.msb lhs.lsb
  · rw [if_pos hin, Option.bind_some, List.getElem?_eq_none_iff]
    have hpos : (if lhs.lsb ≤ lhs.msb then (lhs.msb - idx).toNat else (idx - lhs.msb).toNat) <
      lhs.vectorSignals.length := by
      split_ifs <;> omega
    exact ⟨fun h => absurd hpos (by omega), fun h => absurd hin h⟩
  · rw [if_neg hin]
    exact ⟨fun _ => hin, fun _ => rfl⟩

theorem mem_vectorSignals_of_signalAt {sig : Nat} (h : lhs.signalAt idx = some sig) : sig ∈ lhs.vectorSignals := by
  obtain ⟨pos, -, hpos⟩ := Option.bind_eq_some_iff.mp h
  exact List.mem_of_getElem? hpos

theorem exists_signalAt_of_mem_starts (hr : lhs.Ranged) (hw : 0 < w) (hs : s ∈ lhs.starts w plus)
    (hidx : idx ∈ sliceIndices lhs.msb lhs.lsb w plus s) : ∃ sig, lhs.signalAt idx = some sig := by
  rw [mem_starts, startMin, startMax] at hs
  rw [mem_sliceIndices hw] at hidx
  rw [← Option.ne_none_iff_exists', Ne, signalAt_eq_none_iff hr, not_not]
  split_ifs at hs hidx <;> omega

variable {β : Type}

theorem selected_eq_zip
    (hin : ∀ idx ∈ sliceIndices lhs.msb lhs.lsb w plus start, ∃ sig, lhs.signalAt idx = some sig) (bits : List β) :
    lhs.selected w plus start bits =
      ((sliceIndices lhs.msb lhs.lsb w plus start).map fun idx => (lhs.signalAt idx).getD sizeMax).zip bits := by
  rw [selected]
  generalize sliceIndices lhs.msb lhs.lsb w plus start = idxs at hin
  induction idxs generalizing bits with
  | nil => rfl
  | cons idx idxs ih =>
    rw [forall_mem_cons] at hin
    obtain ⟨sig, hsig⟩ := hin.1
    cases bits with
    | nil => rfl
    | cons b bits =>
      rw [zip_cons_cons, filterMap_cons, hsig, map_cons, zip_cons_cons, hsig]
      exact congrArg _ (ih bits hin.2)

theorem selected_of_mem_starts (hr : lhs.Ranged) (hw : 0 < w) (hs : s ∈ lhs.starts w plus) :
    ∃ sigs : List Nat, sigs.length = w ∧
      ∀ (β : Type) (bits : List β), lhs.selected w plus s bits = sigs.zip bits := by
  refine ⟨(sliceIndices lhs.msb lhs.lsb w plus s).map fun idx => (lhs.signalAt idx).getD sizeMax, ?_, fun β bits => ?_⟩
  · rw [length_map, length_sliceIndices _ _ hw]
  · exact selected_eq_zip (fun idx hidx => exists_signalAt_of_mem_starts hr hw hs hidx) bits

theorem selected_eq_nil_iff (hw : 0 < w) {bits : List β} (hbits : bits.length = w) :
    lhs.selected w plus start bits = [] ↔ ∀ idx ∈ sliceIndices lhs.msb lhs.lsb w plus start, lhs.signalAt idx =
      none := by
  have hlen : (sliceIndices lhs.msb lhs.lsb w plus start).length = bits.length := by
    rw [length_sliceIndices _ _ hw, hbits]
  rw [selected]
  generalize sliceIndices lhs.msb lhs.lsb w plus start = idxs at hlen
  clear hbits
  induction idxs generalizing bits with
  | nil => exact ⟨fun _ idx hidx => (not_mem_nil hidx).elim, fun _ => rfl⟩
  | cons idx idxs ih =>
    cases bits with
    | nil => cases hlen
    | cons b bits =>
      rw [zip_cons_cons, filterMap_cons, forall_mem_cons]
      cases hsig : lhs.signalAt idx with
      | none =>
        have htail := ih (Nat.succ.inj hlen)
        exact ⟨fun h => ⟨rfl, htail.mp h⟩, fun h => htail.mpr h.2⟩
      | some sig =>
        constructor
        · intro h
          cases h
        · intro h
          cases h.1

/-- Of the signals that an assignment with a constant index writes, those of the vector are the
selected ones. -/
theorem filter_zip_hidden {hidden : Int → Nat} (hhidden : ∀ idx, hidden idx ∉ lhs.vectorSignals) (w : Nat)
    (plus : Bool) (start : Int) (bits : List β) :
    ((((sliceIndices lhs.msb lhs.lsb w plus start).map fun idx => (lhs.signalAt idx).getD (hidden idx)).zip bits).filter
      fun p => p.1 ∈ lhs.vectorSignals) = lhs.selected w plus start bits := by
  rw [selected]
  generalize sliceIndices lhs.msb lhs.lsb w plus start = idxs
  induction idxs generalizing bits with
  | nil => rfl
  | cons idx idxs ih =>
    cases bits with
    | nil => rfl
    | cons b bits =>
      rw [map_cons, zip_cons_cons, filter_cons, zip_cons_cons, filterMap_cons, ih]
      cases hsig : lhs.signalAt idx with
      | none => rw [Option.getD_none, if_neg (by simpa using hhidden idx), Option.map_none]
      | some sig =>
        rw [Option.getD_some, if_pos (by simpa using mem_vectorSignals_of_signalAt hsig), Option.map_some]

theorem lt_of_le_max (hr : lhs.Ranged) (hs : 0 ≤ s) (hmax : s ≤ max lhs.msb lhs.lsb) :
    s < 2 ^ lhs.compareWidth ∧ s < 2 ^ 64 := by
  have hmsb := hr.msb
  have hlsb := hr.lsb
  have hneed : (max lhs.msb lhs.lsb).toNat < 2 ^ needBits (max lhs.msb lhs.lsb).toNat := lt_two_pow_needBits (by omega)
  have hpow : 2 ^ needBits (max lhs.msb lhs.lsb).toNat ≤ 2 ^ lhs.compareWidth :=
    Nat.pow_le_pow_right (by omega) (le_max_right _ _)
  refine ⟨?_, by omega⟩
  have hnat : s.toNat < 2 ^ lhs.compareWidth := by omega
  rw [Int.toNat_lt hs] at hnat
  exact_mod_cast hnat

theorem compareWidth_pos : 0 < lhs.compareWidth := lt_of_lt_of_le (needBits_pos _) (le_max_right _ _)

end SelectLvalue

/-- A statement of the block: its condition finds the index `s`, and it makes the assignments
`ps`. -/
structure IsGuard (N : List ExprNode) (idx : ExprValue) (s : Int) (ps : List (Nat × Nat))
    (g : GuardedAssigns) : Prop where
  cond : ∀ values, rootVal N values g.cond = .H ↔ IndexIs (valuesOf N values idx) s
  assigns : g.assigns = ps

section Lowering

variable {N : List ExprNode} {m : ExprBuilder} {lhs : SelectLvalue}

theorem resize_scalar {v : ExprValue} (h : v.isVector = false) (sgn : Bool) :
    resize v 1 sgn = pure (makeScalar v.scalarRoot 0 0 v.isSigned) := by
  have hroots : v.roots = [v.scalarRoot] := by rw [ExprValue.roots, h, if_neg Bool.false_ne_true]
  rw [resize, if_pos (Nat.le_refl 1), resizeToVector, hroots]
  rfl

variable {rhs : ExprValue}

theorem spec_lowerBitSelect (hr : lhs.Ranged) (hidx : ValidIn m lhs.indexExpr) (hrhs : ValidIn m rhs) :
    Spec N m (lowerBitSelect lhs rhs) fun gs _ => ∃ r,
      (∀ values, [rootVal N values r] = resizeVals false 1 (valuesOf N values rhs)) ∧
      List.Forall₂ (fun pos => IsGuard N lhs.indexExpr (vectorIndexAt lhs.msb lhs.lsb pos)
        [(lhs.vectorSignals.getD pos sizeMax, r)]) lhs.positions gs := by
  rw [lowerBitSelect]
  apply (Spec.forall_values fun values => spec_resize values hrhs Nat.one_pos false).bind
  intro arg1 m₁ h₁ harg
  have hscalar : arg1.isVector = false := by
    have h := (harg []).isVector
    rw [length_resizeVals] at h
    exact h
  have hroots : arg1.roots = [arg1.scalarRoot] := by rw [ExprValue.roots, hscalar, if_neg Bool.false_ne_true]
  apply (Spec.forall_values fun values => spec_resize values (hidx.mono h₁) SelectLvalue.compareWidth_pos false).bind
  intro idxNorm m₂ h₂ hnorm
  apply (spec_mapM_forall₂ (R := fun pos => IsGuard N lhs.indexExpr (vectorIndexAt lhs.msb lhs.lsb pos)
    [(lhs.vectorSignals.getD pos sizeMax, arg1.scalarRoot)]) lhs.positions ?_).imp
  · intro gs m₃ hgs
    refine ⟨arg1.scalarRoot, fun values => ?_, hgs⟩
    have h := (harg values).hasAll.2
    rw [hroots] at h
    exact h
  · intro pos hpos m₃ h₃
    rw [SelectLvalue.positions, mem_filter] at hpos
    have hlt := mem_range.mp hpos.1
    have hnonneg := of_decide_eq_true hpos.2
    have hmax : vectorIndexAt lhs.msb lhs.lsb pos ≤ max lhs.msb lhs.lsb := by
      have hlen := hr.length
      rw [vectorIndexAt]
      split_ifs <;> omega
    obtain ⟨hw, h64⟩ := SelectLvalue.lt_of_le_max hr hnonneg hmax
    apply (spec_matchIndex_iff SelectLvalue.compareWidth_pos (le_max_left _ _)
      (fun values => (hnorm values).mono values h₃) hnonneg hw h64).bind
    intro cond m₄ h₄ hcond
    apply (spec_makeSignalRoot _).bind
    intro cur m₅ h₅ _
    rw [resize_scalar hscalar]
    exact Spec.pure ⟨hcond, rfl⟩

theorem spec_lowerIndexedPartSelect (hr : lhs.Ranged) (hidx : ValidIn m lhs.indexExpr)
    (hrhs : ValidIn m rhs) (w : Nat) (plus : Bool) :
    Spec N m (lowerIndexedPartSelect lhs w plus rhs) fun gs _ => 0 < w ∧ ∃ rhsBits,
      (∀ values, rhsBits.map (rootVal N values) = resizeVals rhs.isSigned w (valuesOf N values rhs)) ∧
      List.Forall₂ (fun s => IsGuard N lhs.indexExpr s (lhs.selected w plus s rhsBits)) (lhs.starts w plus) gs := by
  rw [lowerIndexedPartSelect]
  split_ifs with hzero hrange
  · exact spec_reportError _
  · apply (spec_resizeToVector [] rhs rhs.isSigned hrhs.lt hrhs.ne_nil (Nat.pos_of_ne_zero hzero)).bind
    intro rhsBits m₁ h₁ _
    exact spec_reportError _
  have hw := Nat.pos_of_ne_zero hzero
  apply (Spec.forall_values fun values => spec_resizeToVector values rhs rhs.isSigned hrhs.lt hrhs.ne_nil hw).bind
  intro rhsBits m₁ h₁ hbits
  apply (Spec.forall_values fun values => spec_resize values (hidx.mono h₁) SelectLvalue.compareWidth_pos false).bind
  intro idxNorm m₂ h₂ hnorm
  apply (spec_mapM_forall₂ (R := fun s => IsGuard N lhs.indexExpr s (lhs.selected w plus s rhsBits))
    (lhs.starts w plus) ?_).imp
  · exact fun gs m₃ hgs => ⟨hw, rhsBits, fun values => (hbits values).2, hgs⟩
  · intro s hs m₃ h₃
    rw [SelectLvalue.mem_starts, SelectLvalue.startMin, SelectLvalue.startMax] at hs
    have hmax : s ≤ max lhs.msb lhs.lsb := by
      split_ifs at hs <;> omega
    obtain ⟨hsw, h64⟩ := SelectLvalue.lt_of_le_max hr hs.1 hmax
    apply (spec_matchIndex_iff SelectLvalue.compareWidth_pos (le_max_left _ _)
      (fun values => (hnorm values).mono values h₃) hs.1 hsw h64).bind
    intro cond m₄ h₄ hcond
    exact Spec.pure ⟨hcond, rfl⟩

end Lowering

section Writes

variable {C : CompiledModule} {nonblocking : Bool} {idx : ExprValue}

theorem IsGuard.holds_iff {ps : List (Nat × Nat)} {g : GuardedAssigns} (h : IsGuard C.exprNodes idx s ps g)
    (st : ModuleState) : holds C g.cond st = true ↔ IndexIs (valuesOf C.exprNodes st.values idx) s := by
  have hH (v : LogicT) : v.normalizeZToX = .H ↔ v = .H := by
    cases v <;> decide
  rw [← h.cond, holds, decide_eq_true_iff, hH]
  exact Iff.rfl

variable {α : Type} {key : α → Int} {ps : α → List (Nat × Nat)} {as : List α} {gs : List GuardedAssigns}
  (hgs : List.Forall₂ (fun a => IsGuard C.exprNodes idx (key a) (ps a)) as gs)

include hgs

theorem forall_holds_eq_false_iff (st : ModuleState) :
    (∀ g ∈ gs, holds C g.cond st = false) ↔ ∀ a ∈ as, ¬ IndexIs (valuesOf C.exprNodes st.values idx) (key a) := by
  induction hgs with
  | nil => exact ⟨fun _ a ha => (not_mem_nil ha).elim, fun _ g hg => (not_mem_nil hg).elim⟩
  | cons hg _ ih => rw [forall_mem_cons, forall_mem_cons, ih, ← hg.holds_iff, Bool.not_eq_true]

variable (hps : ∀ a ∈ as, ps a ≠ [])

include hps

theorem guards_assigns_ne_nil : ∀ g ∈ gs, g.assigns ≠ [] := by
  induction hgs with
  | nil => exact fun g hg => (not_mem_nil hg).elim
  | cons hg _ ih =>
    rw [forall_mem_cons] at hps ⊢
    exact ⟨by rw [hg.assigns]; exact hps.1, ih hps.2⟩

variable {st : ModuleState}

theorem guardLog_of_no_index
    (h : ∀ a ∈ as, ¬ IndexIs (valuesOf C.exprNodes st.values idx) (key a)) : guardLog C nonblocking gs st = [] :=
  (guardLog_eq_nil_iff (guards_assigns_ne_nil hgs hps) st).mpr ((forall_holds_eq_false_iff hgs st).mpr h)

/-- One condition holds: its assignments are executed, and nothing else unless the index is a
later one afterwards. -/
theorem guardLog_of_index [LinearOrder α] (hsorted : as.Pairwise (· < ·))
    (hkey : ∀ a ∈ as, ∀ b ∈ as, key a = key b → a = b)
    {a : α} (ha : a ∈ as) (hidx : IndexIs (valuesOf C.exprNodes st.values idx) (key a)) {ws : List (Nat × LogicT)}
    (hlen : ws.length = (ps a).length) :
    guardLog C nonblocking gs st = ws ↔ assignLog C nonblocking (ps a) st = ws ∧
      ∀ b ∈ as, a < b → ¬ IndexIs (valuesOf C.exprNodes (afterWrites nonblocking st ws).values idx) (key b) := by
  induction hgs with
  | nil => cases ha
  | @cons c g as gs hg htail ih =>
    rw [pairwise_cons] at hsorted
    by_cases hac : a = c
    · subst hac
      have hholds := (hg.holds_iff st).mpr hidx
      rw [guardLog_eq_iff (guards_assigns_ne_nil htail fun b hb => hps b (mem_cons_of_mem _ hb)) hholds
        (by rw [hg.assigns, hlen]), hg.assigns, forall_holds_eq_false_iff htail, forall_mem_cons]
      refine and_congr_right fun _ => ⟨fun h => ⟨fun hlt => absurd hlt (lt_irrefl a), fun b hb _ => h b hb⟩,
        fun h b hb => ?_⟩
      exact h.2 b hb (hsorted.1 b hb)
    · have hmem : a ∈ as := (mem_cons.mp ha).resolve_left hac
      have hlt := hsorted.1 a hmem
      have hnot : ¬ holds C g.cond st = true := by
        rw [hg.holds_iff]
        intro h
        exact hac (hkey a ha c mem_cons_self (hidx.unique h))
      rw [guardLog, if_neg hnot, ih (fun b hb => hps b (mem_cons_of_mem _ hb)) hsorted.2
        (fun b hb b' hb' => hkey b (mem_cons_of_mem _ hb) b' (mem_cons_of_mem _ hb')) hmem, forall_mem_cons]
      exact and_congr_right fun _ => ⟨fun h => ⟨fun hca => absurd hca (lt_asymm hlt), h⟩, fun h => h.2⟩

end Writes

def CompiledInto {α : Type} (x : Build α) (m : ExprBuilder) (C : CompiledModule) : Prop :=
  NoError x m ∧ (x m).2.exprNodes <+: C.exprNodes

/-- A block makes the writes of an assignment to the signals of the vector, with the values that
the right-hand sides have at the start. -/
def WritesAlike (C C' : CompiledModule) (lhs : SelectLvalue) (gs : List GuardedAssigns) (a : Assign)
    (st : ModuleState) :
    Prop :=
  guardLog C a.nonblocking gs st = (sampleWrites C' st a.lhs a.rhs).filter fun w => w.1 ∈ lhs.vectorSignals

/-- The bits of a right-hand side at the width of the select. -/
def rhsVals (m : ExprBuilder) (sgn : Bool) (rhs : ExprValue) (w : Nat) (values : List LogicT) : List LogicT :=
  resizeVals sgn w (m.denote rhs values)

section Conditions

variable (m : ExprBuilder) (lhs : SelectLvalue) (rhs : ExprValue) (nonblocking : Bool) (st : ModuleState) (k : Int)

def BitAssignAgrees : Prop :=
  ∀ pos, vectorPos lhs.msb lhs.lsb k = some pos → ∀ later ∈ lhs.positions, pos < later →
    ¬ IndexIs (m.denote lhs.indexExpr (afterWrites nonblocking st
        [(lhs.vectorSignals.getD pos sizeMax, (rhsVals m false rhs 1 st.values).headD .X)]).values)
      (vectorIndexAt lhs.msb lhs.lsb later)

/-- The select lies inside the range, each bit of the right-hand side still has its value when the
bits before it have been written, and the index is no later start afterwards; or the select is
outside the range. -/
def PartAssignAgrees (w : Nat) (plus : Bool) : Prop :=
  if k ∈ lhs.starts w plus then
    (∀ j < w, (rhsVals m rhs.isSigned rhs w
        (afterWrites nonblocking st ((lhs.selected w plus k (rhsVals m rhs.isSigned rhs w st.values)).take
          j)).values).getD j .X =
      (rhsVals m rhs.isSigned rhs w st.values).getD j .X) ∧
    ∀ s ∈ lhs.starts w plus, k < s → ¬ IndexIs (m.denote lhs.indexExpr
      (afterWrites nonblocking st (lhs.selected w plus k (rhsVals m rhs.isSigned rhs w st.values))).values) s
  else ∀ idx ∈ sliceIndices lhs.msb lhs.lsb w plus k, lhs.signalAt idx = none

end Conditions

instance (lhs : SelectLvalue) (rhs : ExprValue) : Grows (lowerBitSelect lhs rhs) := by
  unfold lowerBitSelect
  infer_instance

instance (lhs : SelectLvalue) (w : Nat) (plus : Bool) (rhs : ExprValue) :
    Grows (lowerIndexedPartSelect lhs w plus rhs) := by
  unfold lowerIndexedPartSelect
  infer_instance

instance (lhs : SelectLvalue) (hidden : Int → Nat) (k : Int) (nonblocking : Bool) (rhs : ExprValue) :
    Grows (lowerConstBitSelect lhs hidden k nonblocking rhs) := by
  unfold lowerConstBitSelect
  infer_instance

instance (lhs : SelectLvalue) (hidden : Int → Nat) (w : Nat) (plus : Bool) (k : Int) (nonblocking : Bool)
    (rhs : ExprValue) :
    Grows (lowerConstPartSelect lhs hidden w plus k nonblocking rhs) := by
  unfold lowerConstPartSelect
  infer_instance

section ConstSpec

variable {N : List ExprNode} {m : ExprBuilder} {lhs : SelectLvalue} {rhs : ExprValue} (hrhs : ValidIn m rhs)

include hrhs

theorem spec_lowerConstBitSelect (hidden : Int → Nat) (k : Int) (nonblocking : Bool) :
    Spec N m (lowerConstBitSelect lhs hidden k nonblocking rhs) fun a _ => a.nonblocking = nonblocking ∧
      a.delayTicks = 0 ∧
      a.lhs = [(lhs.signalAt k).getD (hidden k)] ∧
      ∀ values, a.rhs.map (rootVal N values) = resizeVals false 1 (valuesOf N values rhs) := by
  rw [lowerConstBitSelect]
  apply (spec_makeSignalRoot _).bind
  intro cur m₁ h₁ _
  apply (Spec.forall_values fun values => spec_resize values (hrhs.mono h₁) Nat.one_pos false).bind
  intro rhs1 m₂ h₂ hbit
  have hscalar : rhs1.isVector = false := by
    have h := (hbit []).isVector
    rw [length_resizeVals] at h
    exact h
  refine Spec.pure ⟨rfl, rfl, rfl, fun values => ?_⟩
  have h := (hbit values).hasAll.2
  rw [ExprValue.roots, hscalar, if_neg Bool.false_ne_true] at h
  exact h

omit hrhs in
theorem spec_makeVectorWithRange_true (roots : List Nat) (msb lsb : Int) (sgn : Bool) :
    Spec N m (makeVectorWithRange roots msb lsb sgn) fun _ _ => True := by
  match roots with
  | [] =>
    apply (spec_makeLiteral [] .X).bind
    exact fun r m₁ h₁ _ => Spec.pure trivial
  | [r] => exact Spec.pure trivial
  | r :: r' :: rs => exact Spec.pure trivial

theorem spec_lowerConstPartSelect (hidden : Int → Nat) (hw : 0 < w) (plus : Bool) (k : Int) (nonblocking : Bool) :
    Spec N m (lowerConstPartSelect lhs hidden w plus k nonblocking rhs) fun a _ => a.nonblocking = nonblocking ∧
      a.delayTicks = 0 ∧
      a.lhs = ((sliceIndices lhs.msb lhs.lsb w plus k).map fun idx => (lhs.signalAt idx).getD (hidden idx)) ∧
      ∀ values, a.rhs.map (rootVal N values) = resizeVals rhs.isSigned w (valuesOf N values rhs) := by
  rw [lowerConstPartSelect, length_map, length_sliceIndices _ _ hw]
  apply (spec_mapM_forall₂ (R := fun _ _ => True) _ fun s _ m' _ => spec_makeSignalRoot s).bind
  intro roots m₁ h₁ _
  apply (spec_makeVectorWithRange_true _ _ _ _).bind
  intro cur m₂ h₂ _
  have hlt : ∀ r ∈ rhs.roots, r < m₂.size := (hrhs.mono (h₁.trans h₂)).lt
  apply (Spec.forall_values fun values => spec_resizeToVector values rhs rhs.isSigned hlt hrhs.ne_nil hw).bind
  intro bits m₃ h₃ hbits
  exact Spec.pure ⟨rfl, rfl, rfl, fun values => (hbits values).2⟩

end ConstSpec

section Exact

variable {m : ExprBuilder} {lhs : SelectLvalue} {rhs : ExprValue} {st : ModuleState} {k : Int} {hidden : Int → Nat}

variable {C : CompiledModule} {nonblocking : Bool}

theorem sampleWrites_eq {a : Assign} (h : a.rhs.map (rootVal C.exprNodes st.values) = vs) :
    sampleWrites C st a.lhs a.rhs = a.lhs.zip vs := by
  rw [← h]
  rfl

theorem length_one_resizeVals (vs : List LogicT) : resizeVals false 1 vs = [(resizeVals false 1 vs).headD .X] := by
  obtain ⟨v, hv⟩ := length_eq_one_iff.mp (length_resizeVals false 1 vs)
  rw [hv]
  rfl

theorem assignLog_selected_iff {sigs rhsBits : List Nat} {vals : List LogicT} (hsigs : sigs.length = w)
    (hlen : rhsBits.length = w) (hvals : vals.length = w) {f : List LogicT → List LogicT}
    (hf : ∀ values, rhsBits.map (rootVal C.exprNodes values) = f values) :
    assignLog C nonblocking (sigs.zip rhsBits) st = sigs.zip vals ↔ ∀ j < w,
      (f (afterWrites nonblocking st ((sigs.zip vals).take j)).values).getD j .X = vals.getD j .X := by
  have hfst : (sigs.zip vals).map Prod.fst = (sigs.zip rhsBits).map Prod.fst := by
    rw [List.map_fst_zip (by omega), List.map_fst_zip (by omega)]
  have hroot (j : Nat) (hj : j < w) (values : List LogicT) :
      evalExpr C (rhsBits.getD j sizeMax) values = (f values).getD j .X := by
    rw [← hf, getD_eq_getElem _ _ (by omega), getD_eq_getElem _ _ (by rw [length_map]; omega), getElem_map]
    rfl
  rw [assignLog_eq_iff hfst, length_zip, hsigs, hlen, min_self, map_snd_zip (by omega), map_snd_zip (by omega)]
  refine forall₂_congr fun j hj => ?_
  rw [hroot j hj]

variable (hord : OperandsFirst m.exprNodes) (hr : lhs.Ranged) (hidx : ValidIn m lhs.indexExpr) (hrhs : ValidIn m rhs)
  (hk : IndexIs (m.denote lhs.indexExpr st.values) k) (hhidden : ∀ idx, hidden idx ∉ lhs.vectorSignals)

include hord hr hidx hrhs hk hhidden

variable {C' : CompiledModule}

theorem bitAssign_iff (hC : CompiledInto (lowerBitSelect lhs rhs) m C)
    (hC' : CompiledInto (lowerConstBitSelect lhs hidden k nonblocking rhs) m C') :
    WritesAlike C C' lhs (lowerBitSelect lhs rhs m).1 (lowerConstBitSelect lhs hidden k nonblocking rhs m).1 st ↔
      BitAssignAgrees m lhs rhs nonblocking st k := by
  have hlen := hr.length
  have hk0 : 0 ≤ k := by
    obtain ⟨ks, -, rfl⟩ := hk
    exact Int.natCast_nonneg _
  have hpre : m.exprNodes <+: C.exprNodes := (Grows.grew (x := lowerBitSelect lhs rhs) m).nodes.trans hC.2
  have hpre' : m.exprNodes <+: C'.exprNodes :=
    (Grows.grew (x := lowerConstBitSelect lhs hidden k nonblocking rhs) m).nodes.trans hC'.2
  obtain ⟨-, r, hroot, hgs⟩ := spec_lowerBitSelect hr hidx hrhs hord hC.2 hC.1
  obtain ⟨-, hnb, -, hlhs, hbit⟩ := @spec_lowerConstBitSelect _ _ lhs _ hrhs hidden k nonblocking hord hC'.2 hC'.1
  have hval : rootVal C.exprNodes st.values r = (rhsVals m false rhs 1 st.values).headD .X := by
    have h := hroot st.values
    rw [hrhs.valuesOf_eq hord hpre, length_one_resizeVals] at h
    exact singleton_inj.mp h
  have hwrites := sampleWrites_eq (hbit st.values)
  rw [hrhs.valuesOf_eq hord hpre', length_one_resizeVals, hlhs] at hwrites
  have hne : ∀ pos ∈ lhs.positions, [(lhs.vectorSignals.getD pos sizeMax, r)] ≠ [] := fun _ _ => cons_ne_nil _ _
  have hindex (values : List LogicT) (s : Int) : IndexIs (valuesOf C.exprNodes values lhs.indexExpr) s ↔
      IndexIs (m.denote lhs.indexExpr values) s := by rw [hidx.valuesOf_eq hord hpre]
  rw [WritesAlike, hnb, hlhs, hwrites, BitAssignAgrees]
  cases hpos : vectorPos lhs.msb lhs.lsb k with
  | none =>
    -- Outside the range neither of them writes a bit of the vector.
    have hsig : lhs.signalAt k = none := by rw [SelectLvalue.signalAt, hpos, Option.bind_none]
    have hlog : guardLog C nonblocking (lowerBitSelect lhs rhs m).1 st = [] := by
      refine guardLog_of_no_index hgs hne fun pos hmem h => ?_
      have heq := ((hindex _ _).mp h).unique hk
      rw [SelectLvalue.positions, mem_filter, mem_range, hlen] at hmem
      rw [vectorPos_eq_some_iff.mpr ⟨hmem.1, heq⟩] at hpos
      cases hpos
    have hfilter : ([(lhs.signalAt k).getD (hidden k)].zip [(rhsVals m false rhs 1 st.values).headD .X]).filter
        (fun w => w.1 ∈ lhs.vectorSignals) = [] := by
      rw [hsig]
      exact filter_cons_of_neg (by rw [decide_eq_true_iff]; exact hhidden k)
    rw [hlog, ← rhsVals, hfilter]
    constructor
    · intro _ pos h
      cases h
    · exact fun _ => rfl
  | some pos =>
    obtain ⟨hlt, hat⟩ := vectorPos_eq_some_iff.mp hpos
    have hget : lhs.vectorSignals[pos]? = some (lhs.vectorSignals.getD pos sizeMax) := by
      rw [getD_eq_getElem _ _ (by omega), getElem?_eq_getElem (by omega)]
    have hsig : lhs.signalAt k = some (lhs.vectorSignals.getD pos sizeMax) := by
      rw [SelectLvalue.signalAt, hpos, Option.bind_some, hget]
    have hmem : pos ∈ lhs.positions := by
      rw [SelectLvalue.positions, mem_filter, mem_range]
      exact ⟨by omega, decide_eq_true (by omega)⟩
    have hinj : ∀ a ∈ lhs.positions, ∀ b ∈ lhs.positions,
        vectorIndexAt lhs.msb lhs.lsb a = vectorIndexAt lhs.msb lhs.lsb b → a = b := by
      intro a _ b _ h
      rw [vectorIndexAt, vectorIndexAt] at h
      split_ifs at h <;> omega
    have hfound : IndexIs (valuesOf C.exprNodes st.values lhs.indexExpr) (vectorIndexAt lhs.msb lhs.lsb pos) := by
      rw [hindex, hat]
      exact hk
    have hfilter : ([(lhs.signalAt k).getD (hidden k)].zip [(rhsVals m false rhs 1 st.values).headD .X]).filter
        (fun w => w.1 ∈ lhs.vectorSignals) =
          [(lhs.vectorSignals.getD pos sizeMax, (rhsVals m false rhs 1 st.values).headD .X)] := by
      rw [hsig]
      exact filter_cons_of_pos (decide_eq_true (SelectLvalue.mem_vectorSignals_of_signalAt hsig))
    have hlog : assignLog C nonblocking [(lhs.vectorSignals.getD pos sizeMax, r)] st =
        [(lhs.vectorSignals.getD pos sizeMax, (rhsVals m false rhs 1 st.values).headD .X)] := by
      rw [assignLog, assignLog, ← hval]
      rfl
    rw [← rhsVals, hfilter, guardLog_of_index hgs hne SelectLvalue.pairwise_positions hinj hmem hfound rfl,
      and_iff_right hlog]
    constructor
    · intro h pos' hpos' later hlater hlt'
      cases hpos'
      rw [← hindex]
      exact h later hlater hlt'
    · intro h later hlater hlt'
      rw [hindex]
      exact h pos rfl later hlater hlt'

theorem partAssign_iff (hC : CompiledInto (lowerIndexedPartSelect lhs w plus rhs) m C)
    (hC' : CompiledInto (lowerConstPartSelect lhs hidden w plus k nonblocking rhs) m C') :
    WritesAlike C C' lhs (lowerIndexedPartSelect lhs w plus rhs m).1
        (lowerConstPartSelect lhs hidden w plus k nonblocking rhs m).1 st ↔
      PartAssignAgrees m lhs rhs nonblocking st k w plus := by
  have hpre : m.exprNodes <+: C.exprNodes :=
    (Grows.grew (x := lowerIndexedPartSelect lhs w plus rhs) m).nodes.trans hC.2
  have hpre' : m.exprNodes <+: C'.exprNodes :=
    (Grows.grew (x := lowerConstPartSelect lhs hidden w plus k nonblocking rhs) m).nodes.trans hC'.2
  obtain ⟨-, hw, rhsBits, hbits, hgs⟩ := spec_lowerIndexedPartSelect hr hidx hrhs w plus hord hC.2 hC.1
  obtain ⟨-, hnb, -, hlhs, hconst⟩ := spec_lowerConstPartSelect hrhs hidden hw plus k nonblocking hord hC'.2 hC'.1
  have hvals (values : List LogicT) : rhsBits.map (rootVal C.exprNodes values) =
    rhsVals m rhs.isSigned rhs w values := by
    rw [hbits, hrhs.valuesOf_eq hord hpre, rhsVals]
  have hlen : rhsBits.length = w := by
    have h := congrArg List.length (hvals [])
    rwa [length_map, rhsVals, length_resizeVals] at h
  have hlenv : (rhsVals m rhs.isSigned rhs w st.values).length = w := length_resizeVals _ _ _
  have hindex (values : List LogicT) (s : Int) : IndexIs (valuesOf C.exprNodes values lhs.indexExpr) s ↔
      IndexIs (m.denote lhs.indexExpr values) s := by rw [hidx.valuesOf_eq hord hpre]
  have hne : ∀ s ∈ lhs.starts w plus, lhs.selected w plus s rhsBits ≠ [] := by
    intro s hs
    obtain ⟨sigs, hsigs, hsel⟩ := SelectLvalue.selected_of_mem_starts hr hw hs
    rw [hsel]
    apply length_pos_iff.mp
    rw [length_zip]
    omega
  have hwrites := sampleWrites_eq (hconst st.values)
  rw [hrhs.valuesOf_eq hord hpre', hlhs] at hwrites
  rw [WritesAlike, hnb, hlhs, hwrites, SelectLvalue.filter_zip_hidden hhidden, ← rhsVals, PartAssignAgrees]
  split_ifs with hstart
  · obtain ⟨sigs, hsigs, hsel⟩ := SelectLvalue.selected_of_mem_starts hr hw hstart
    have hfound : IndexIs (valuesOf C.exprNodes st.values lhs.indexExpr) k := (hindex _ _).mpr hk
    have hlength : (lhs.selected w plus k (rhsVals m rhs.isSigned rhs w st.values)).length =
        (lhs.selected w plus k rhsBits).length := by
      rw [hsel, hsel, length_zip, length_zip]
      omega
    rw [guardLog_of_index hgs hne (SelectLvalue.pairwise_starts w plus) (fun a _ b _ h => h) hstart hfound hlength]
    refine and_congr ?_ (forall₃_congr fun s _ _ => not_congr (hindex _ _))
    rw [hsel, hsel]
    exact assignLog_selected_iff hsigs hlen hlenv hvals
  · -- No condition finds a start from which the select leaves the range.
    have hlog : guardLog C nonblocking (lowerIndexedPartSelect lhs w plus rhs m).1 st = [] := by
      refine guardLog_of_no_index hgs hne fun s hs h => hstart ?_
      rw [← ((hindex _ _).mp h).unique hk]
      exact hs
    rw [hlog, eq_comm, SelectLvalue.selected_eq_nil_iff hw hlenv]

omit hr hidx hrhs hord hhidden in
theorem bitAssignAgrees_nonblocking : BitAssignAgrees m lhs rhs true st k := by
  intro pos hpos later _ hlt h
  rw [values_afterWrites_nonblocking] at h
  have heq := (vectorPos_eq_some_iff.mp hpos).2.trans (hk.unique h)
  rw [vectorIndexAt, vectorIndexAt] at heq
  split_ifs at heq <;> omega

omit hr hidx hrhs hord hhidden in
theorem partAssignAgrees_nonblocking (w : Nat) (plus : Bool) : PartAssignAgrees m lhs rhs true st k w plus ↔
    k ∈ lhs.starts w plus ∨ ∀ idx ∈ sliceIndices lhs.msb lhs.lsb w plus k, lhs.signalAt idx = none := by
  rw [PartAssignAgrees]
  split_ifs with hstart
  · refine ⟨fun _ => Or.inl hstart, fun _ => ⟨fun j _ => rfl, fun s _ hlt h => ?_⟩⟩
    rw [values_afterWrites_nonblocking] at h
    exact absurd (hk.unique h) (ne_of_lt hlt)
  · exact ⟨Or.inr, fun h => h.resolve_left hstart⟩

/-- The blocks make exactly the writes of the assignments with a constant index as long as a write
does not change what is still to be read and a part select is inside the range or outside it. -/
theorem selectAssign_iff :
    (∀ C C' nonblocking, CompiledInto (lowerBitSelect lhs rhs) m C →
      CompiledInto (lowerConstBitSelect lhs hidden k nonblocking rhs) m C' →
      (WritesAlike C C' lhs (lowerBitSelect lhs rhs m).1 (lowerConstBitSelect lhs hidden k nonblocking rhs m).1 st ↔
        BitAssignAgrees m lhs rhs nonblocking st k)) ∧
    (∀ C C' nonblocking w plus, CompiledInto (lowerIndexedPartSelect lhs w plus rhs) m C →
      CompiledInto (lowerConstPartSelect lhs hidden w plus k nonblocking rhs) m C' →
      (WritesAlike C C' lhs (lowerIndexedPartSelect lhs w plus rhs m).1
          (lowerConstPartSelect lhs hidden w plus k nonblocking rhs m).1 st ↔
        PartAssignAgrees m lhs rhs nonblocking st k w plus)) ∧
    (BitAssignAgrees m lhs rhs true st k ∧ ∀ w plus, PartAssignAgrees m lhs rhs true st k w plus ↔
      k ∈ lhs.starts w plus ∨ ∀ idx ∈ sliceIndices lhs.msb lhs.lsb w plus k, lhs.signalAt idx = none) ∧
    (∀ C tick nonblocking gs x, x.flow = .none → execStmt C tick (guardedBlock nonblocking gs) x =
      perform nonblocking x (guardLog C nonblocking gs x.st)) ∧
    ∀ C tick a x, a.lhs.length = a.rhs.length → a.lhs ≠ [] → a.delayTicks = 0 →
      execStmt C tick (.assign a) x = perform a.nonblocking x (sampleWrites C x.st a.lhs a.rhs) := by
  refine ⟨?_, ?_, ⟨bitAssignAgrees_nonblocking hk, partAssignAgrees_nonblocking hk⟩, ?_, ?_⟩
  · exact fun C C' nonblocking hC hC' => bitAssign_iff hord hr hidx hrhs hk hhidden hC hC'
  · exact fun C C' nonblocking w plus hC hC' => partAssign_iff hord hr hidx hrhs hk hhidden hC hC'
  · exact fun C tick nonblocking gs x hflow => execStmt_guardedBlock gs x hflow
  · intro C tick a x hlen hne hdelay
    rw [execStmt]
    exact execAssign_eq_perform hlen hne hdelay x

end Exact

def fourBitLvalue : SelectLvalue := { vectorSignals := [0, 1, 2, 3], msb := 3, lsb := 0, indexExpr := indexBits }

def twoOnes : ExprValue := { isVector := true, vectorRoots := [8, 8], msb := 1 }

/-- The right-hand side that swaps the two low bits of the vector. -/
def swappedBits : ExprValue := { isVector := true, vectorRoots := [3, 2], msb := 1 }

def moduleOf {α : Type} (x : Build α) (m : ExprBuilder)
    (h : ∀ p ∈ (x m).2.exprNodes.zipIdx, ∀ c ∈ p.1.children, c < p.2) :
    CompiledModule :=
  { exprNodes := (x m).2.exprNodes, operands_first := h }

theorem compiledInto_moduleOf {α : Type} {x : Build α} {m : ExprBuilder}
    (h : ∀ p ∈ (x m).2.exprNodes.zipIdx, ∀ c ∈ p.1.children, c < p.2) (hq : NoError x m) :
    CompiledInto x m (moduleOf x m h) := ⟨hq, prefix_refl _⟩

/-- `a[i +: 2] <= 2'b11` with `i = 1`. -/
theorem selectAssign_iff_one : WritesAlike
    (moduleOf (lowerIndexedPartSelect fourBitLvalue 2 true twoOnes) selectArena (by decide +kernel))
    (moduleOf (lowerConstPartSelect fourBitLvalue (fun _ => 9) 2 true 1 true twoOnes) selectArena (by decide +kernel))
    fourBitLvalue (lowerIndexedPartSelect fourBitLvalue 2 true twoOnes selectArena).1
    (lowerConstPartSelect fourBitLvalue (fun _ => 9) 2 true 1 true twoOnes selectArena).1
    { values := [.L, .L, .L, .L, .L, .L, .H] } := by
  have hr : fourBitLvalue.Ranged := ⟨rfl, by decide, by decide⟩
  have hidx : ValidIn selectArena fourBitLvalue.indexExpr := ⟨by decide, by decide⟩
  have hrhs : ValidIn selectArena twoOnes := ⟨by decide, by decide⟩
  have hk : IndexIs (selectArena.denote fourBitLvalue.indexExpr [.L, .L, .L, .L, .L, .L, .H]) 1 :=
    ⟨[true, false, false], rfl, rfl⟩
  have hall := @selectAssign_iff selectArena fourBitLvalue twoOnes { values :=
    [.L, .L, .L, .L, .L, .L, .H] } 1 (fun _ => 9)
    operandsFirst_selectArena hr hidx hrhs hk (fun _ => by decide)
  apply (hall.2.1 _ _ true 2 true (compiledInto_moduleOf _ (by decide +kernel))
    (compiledInto_moduleOf _ (by decide +kernel))).mpr
  exact (hall.2.2.1.2 2 true).mpr (Or.inl (by decide))

/-- `a[i +: 2] = 2'b11` with `i = 3` writes nothing, where a constant index 3 sets `a[3]`; and
`a[i +: 2] = {a[0], a[1]}` with `i = 0` copies `a[0]` into both bits, where a constant index 0
swaps them. -/
theorem selectAssign_not_atomic :
    (execStmt (moduleOf (lowerIndexedPartSelect fourBitLvalue 2 true twoOnes) selectArena (by decide +kernel)) 0
        (guardedBlock false (lowerIndexedPartSelect fourBitLvalue 2 true twoOnes selectArena).1)
        { st := { values := [.L, .L, .L, .L, .L, .H, .H] } }).st.values = [.L, .L, .L, .L, .L, .H, .H] ∧
    (execStmt (moduleOf (lowerConstPartSelect fourBitLvalue (fun _ => 9) 2 true 3 false twoOnes) selectArena
        (by decide +kernel)) 0
        (.assign (lowerConstPartSelect fourBitLvalue (fun _ => 9) 2 true 3 false twoOnes selectArena).1)
        { st := { values := [.L, .L, .L, .L, .L, .H, .H] } }).st.values = [.H, .L, .L, .L, .L, .H, .H] ∧
    (execStmt (moduleOf (lowerIndexedPartSelect fourBitLvalue 2 true swappedBits) selectArena (by decide +kernel)) 0
        (guardedBlock false (lowerIndexedPartSelect fourBitLvalue 2 true swappedBits selectArena).1)
        { st := { values := [.L, .L, .L, .H, .L, .L, .L] } }).st.values = [.L, .L, .H, .H, .L, .L, .L] ∧
    (execStmt (moduleOf (lowerConstPartSelect fourBitLvalue (fun _ => 9) 2 true 0 false swappedBits) selectArena
        (by decide +kernel)) 0
        (.assign (lowerConstPartSelect fourBitLvalue (fun _ => 9) 2 true 0 false swappedBits selectArena).1)
        { st := { values := [.L, .L, .L, .H, .L, .L, .L] } }).st.values = [.L, .L, .H, .L, .L, .L, .L] := by
  refine ⟨?_, ?_, ?_, ?_⟩
  · decide +kernel
  · decide +kernel
  · decide +kernel
  · decide +kernel

end PhyEngine.Verilog
