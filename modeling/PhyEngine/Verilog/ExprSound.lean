import PhyEngine.Verilog.ExprBuild

/-!
# What the builder of expressions computes

A run of the builder only appends nodes and messages; all roots are evaluated in the arena `N` at
its end. `Spec N m x Q`: a run of `x` from `m` without an error gives a result with `Q`.
-/

namespace PhyEngine.Verilog

open LogicT List

theorem logicNot_ofBool (a : Bool) : logicNot (ofBool a) = ofBool (!a) := by
  cases a <;> rfl

variable (a b : Bool)

theorem logicAnd_ofBool : logicAnd (ofBool a) (ofBool b) = ofBool (a && b) := by
  cases a <;> cases b <;> rfl

theorem logicOr_ofBool : logicOr (ofBool a) (ofBool b) = ofBool (a || b) := by
  cases a <;> cases b <;> rfl

theorem logicXor_ofBool : logicXor (ofBool a) (ofBool b) = ofBool (a ^^ b) := by
  cases a <;> cases b <;> rfl

theorem logicEq_ofBool : logicEq (ofBool a) (ofBool b) = ofBool (a == b) := by
  cases a <;> cases b <;> rfl

def Grew (m m' : ExprBuilder) : Prop :=
  ∃ ns es, m' = { m with exprNodes := m.exprNodes ++ ns, errors := m.errors ++ es }

theorem Grew.refl (m : ExprBuilder) : Grew m m := ⟨[], [], by simp⟩

theorem Grew.trans {a b c : ExprBuilder} (h : Grew a b) (h' : Grew b c) : Grew a c := by
  obtain ⟨ns, es, rfl⟩ := h
  obtain ⟨ns', es', rfl⟩ := h'
  exact ⟨ns ++ ns', es ++ es', by simp⟩

variable {m' : ExprBuilder}

theorem Grew.nodes {m : ExprBuilder} (h : Grew m m') : m.exprNodes <+: m'.exprNodes := by
  obtain ⟨ns, es, rfl⟩ := h
  exact prefix_append _ _

theorem Grew.errors {m : ExprBuilder} (h : Grew m m') : m.errors <+: m'.errors := by
  obtain ⟨ns, es, rfl⟩ := h
  exact prefix_append _ _

theorem get_bind_apply {α : Type} (f : ExprBuilder → Build α) (m : ExprBuilder) : (get >>= f) m = f m m := rfl

theorem internNode_cases (n : ExprNode) (m : ExprBuilder) :
    (∃ i, m.exprNodes[i]? = some n ∧ internNode n m = (i, m)) ∨
      internNode n m = (sizeMax, { m with errors := m.errors ++ ["expression too large (node limit exceeded)"] }) ∨
      (n ∉ m.exprNodes ∧ internNode n m = (m.exprNodes.length, { m with exprNodes := m.exprNodes ++ [n] })) := by
  unfold internNode
  rw [get_bind_apply]
  cases hi : m.exprNodes.findIdx? (· = n) with
  | some i =>
    obtain ⟨hlt, heq, -⟩ := findIdx?_eq_some_iff_getElem.mp hi
    left
    refine ⟨i, ?_, rfl⟩
    rw [getElem?_eq_getElem hlt, of_decide_eq_true heq]
  | none =>
    have hnew : n ∉ m.exprNodes := fun hmem => by simpa using findIdx?_eq_none_iff.mp hi n hmem
    right
    dsimp only
    split_ifs
    · exact Or.inl rfl
    · exact Or.inr ⟨hnew, rfl⟩

/-- Every run of the computation only appends. -/
class Grows {α : Type} (x : Build α) : Prop where
  grew : ∀ m, Grew m (x m).2

namespace Grows

variable {α β : Type}

instance (a : α) : Grows (pure a : Build α) := ⟨fun m => Grew.refl m⟩

instance bind (x : Build α) (f : α → Build β) [hx : Grows x] [hf : ∀ a, Grows (f a)] : Grows (x >>= f) :=
  ⟨fun m => (hx.grew m).trans ((hf (x m).1).grew (x m).2)⟩

instance (c : Prop) [Decidable c] (x y : Build α) [hx : Grows x] [hy : Grows y] : Grows (if c then x else y) := by
  split
  · exact hx
  · exact hy

instance (f : α → Build β) [hf : ∀ a, Grows (f a)] (as : List α) : Grows (as.mapM f) := by
  induction as with
  | nil =>
    rw [List.mapM_nil]
    infer_instance
  | cons a as ih =>
    rw [List.mapM_cons]
    infer_instance

instance (f : β → α → Build β) [hf : ∀ b a, Grows (f b a)] (as : List α) (b : β) : Grows (as.foldlM f b) := by
  induction as generalizing b with
  | nil =>
    rw [List.foldlM_nil]
    infer_instance
  | cons a as ih =>
    rw [List.foldlM_cons]
    infer_instance

instance : Grows (get : Build ExprBuilder) := ⟨fun m => Grew.refl m⟩

instance (msg : String) : Grows (reportError msg) := ⟨fun m => ⟨[], [msg], by simp [reportError]; rfl⟩⟩

instance (n : ExprNode) : Grows (internNode n) := by
  constructor
  intro m
  obtain ⟨i, -, h⟩ | h | ⟨-, h⟩ := internNode_cases n m
  · rw [h]
    exact Grew.refl m
  · rw [h]
    exact ⟨[], ["expression too large (node limit exceeded)"], by simp⟩
  · rw [h]
    exact ⟨[n], [], by simp⟩

instance (n : ExprNode) : Grows (addNode n) := by
  unfold addNode
  infer_instance

instance (v : LogicT) : Grows (makeLiteral v) := by
  unfold makeLiteral
  infer_instance

instance (a : Nat) : Grows (makeIsUnknown a) := by
  unfold makeIsUnknown
  infer_instance

instance (a : Nat) : Grows (makeNot a) := by
  unfold makeNot
  infer_instance

instance (a b : Nat) : Grows (makeAnd a b) := by
  unfold makeAnd
  infer_instance

instance (a b : Nat) : Grows (makeOr a b) := by
  unfold makeOr
  infer_instance

instance (a b : Nat) : Grows (makeXor a b) := by
  unfold makeXor
  infer_instance

instance (sel t f : Nat) : Grows (makeMux sel t f) := by
  unfold makeMux
  infer_instance

instance (roots : List Nat) (msb lsb : Int) (sgn : Bool) : Grows (makeVectorWithRange roots msb lsb sgn) := by
  unfold makeVectorWithRange
  split <;> infer_instance

instance (roots : List Nat) (sgn : Bool) : Grows (makeVector roots sgn) := by
  unfold makeVector
  infer_instance

instance (v : ExprValue) (w : Nat) (sgn : Bool) : Grows (resizeToVector v w sgn) := by
  unfold resizeToVector
  infer_instance

instance (a b : ExprValue) (w : Nat) (sgn : Bool) : Grows (resizeOperands a b w sgn) := by
  unfold resizeOperands
  infer_instance

instance (v : ExprValue) (w : Nat) (sgn : Bool) : Grows (resize v w sgn) := by
  unfold resize
  infer_instance

instance (v : ExprValue) : Grows (anyUnknownRoot v) := by
  unfold anyUnknownRoot
  infer_instance

instance (a b : ExprValue) : Grows (unknownSel a b) := by
  unfold unknownSel
  infer_instance

instance (sel : Nat) (roots : List Nat) : Grows (muxUnknown sel roots) := by
  unfold muxUnknown
  infer_instance

instance (w : Nat) (msg : String) : Grows (limitWidth w msg) := by
  unfold limitWidth
  infer_instance

end Grows

abbrev ExprBuilder.size (m : ExprBuilder) : Nat := m.exprNodes.length

theorem Grew.size_le {m : ExprBuilder} (h : Grew m m') : m.size ≤ m'.size := h.nodes.length_le

section Spec

variable (N : List ExprNode) (values : List LogicT)

def rootVal (r : Nat) : LogicT := evalNode N values (r + 1) r

/-- If the run of `x` reports no error, operands still come first, and `Q` holds. -/
def Spec {α : Type} (m : ExprBuilder) (x : Build α) (Q : α → ExprBuilder → Prop) : Prop :=
  OperandsFirst m.exprNodes → (x m).2.exprNodes <+: N → (x m).2.errors = m.errors →
    OperandsFirst (x m).2.exprNodes ∧ Q (x m).1 (x m).2

variable {N} {m : ExprBuilder} {α β : Type}

variable {Q : α → ExprBuilder → Prop}

theorem Spec.pure {a : α} (h : Q a m) : Spec N m (pure a) Q :=
  fun hord _ _ => ⟨hord, h⟩

variable {x : Build α} {f : α → Build β} {R : α → ExprBuilder → Prop}

theorem Spec.bind_grew {Q : β → ExprBuilder → Prop}
    [hgx : Grows x] [hgf : ∀ a, Grows (f a)] (hx : Spec N m x R)
    (hf : ∀ a m', Grew m m' → R a m' → Spec N m' (f a) Q) : Spec N m (x >>= f) Q := by
  intro hord hpre herr
  have hg : Grew m (x m).2 := hgx.grew m
  have hg' : Grew (x m).2 (f (x m).1 (x m).2).2 := (hgf (x m).1).grew (x m).2
  have herr' : (f (x m).1 (x m).2).2.errors = m.errors := herr
  have hmid : (x m).2.errors = m.errors := by
    apply (hg.errors.eq_of_length_le ?_).symm
    rw [← herr']
    exact hg'.errors.length_le
  obtain ⟨hord', hr⟩ := hx hord (hg'.nodes.trans hpre) hmid
  exact hf _ _ hg hr hord' hpre (herr'.trans hmid.symm)

theorem Spec.bind {Q : β → ExprBuilder → Prop}
    [Grows x] [∀ a, Grows (f a)] (hx : Spec N m x R)
    (hf : ∀ a m', m.size ≤ m'.size → R a m' → Spec N m' (f a) Q) : Spec N m (x >>= f) Q :=
  hx.bind_grew fun a m' hg hr => hf a m' hg.size_le hr

theorem Spec.imp (hx : Spec N m x R) (h : ∀ a m', R a m' → Q a m') :
    Spec N m x Q := by
  intro hord hpre herr
  obtain ⟨hord', hr⟩ := hx hord hpre herr
  exact ⟨hord', h _ _ hr⟩

theorem spec_reportError (msg : String) {f : Unit → Build α} [hf : ∀ u, Grows (f u)] :
    Spec N m (reportError msg >>= f) Q := by
  intro _ _ herr
  have hle := ((hf ()).grew (reportError msg m).2).errors.length_le
  have herr' : (f () (reportError msg m).2).2.errors = m.errors := herr
  have hmsg : (reportError msg m).2.errors = m.errors ++ [msg] := rfl
  rw [herr', hmsg, length_append] at hle
  exact absurd hle (by simp)

theorem spec_foldlM {f : β → α → Build β} [∀ b a, Grows (f b a)] (I : List α → β → ExprBuilder → Prop)
    (hstep : ∀ a as b m, I (a :: as) b m → Spec N m (f b a) fun b' m' => m.size ≤ m'.size → I as b' m')
    {as : List α} {b : β} (h : I as b m) : Spec N m (as.foldlM f b) (I []) := by
  induction as generalizing b m with
  | nil =>
    rw [foldlM_nil]
    exact Spec.pure h
  | cons a as ih =>
    rw [foldlM_cons]
    apply (hstep a as b m h).bind
    intro b' m' hle hI
    exact ih (hI hle)

variable {n : ExprNode} {vs : List LogicT} {rs roots : List Nat} {w : Nat}

theorem rootVal_of_getElem {nodes : List ExprNode} (hord : OperandsFirst nodes) (hpre : nodes <+: N) {i : Nat}
    (hn : nodes[i]? = some n) : rootVal N values i = n.combine values (rootVal N values) := by
  have hi : i < nodes.length := List.getElem?_eq_some_iff.mp hn |>.1
  have hN : N[i]? = some n := by
    obtain ⟨t, rfl⟩ := hpre
    rw [getElem?_append_left hi, hn]
  rw [rootVal, evalNode_succ hN]
  refine ExprNode.combine_congr fun c hc => ?_
  have hlt := hord i n hn c hc
  have hc' : c < nodes.length := by omega
  rw [hord.evalNode_eq hpre values hc' hlt (Nat.lt_succ_self c), rootVal,
    hord.evalNode_eq hpre values hc' (Nat.lt_succ_self c) (Nat.lt_succ_self c)]

theorem rootVal_of_tryGetLiteral (hpre : m.exprNodes <+: N) {a : Nat} {v : LogicT}
    (h : m.tryGetLiteral a = some v) : rootVal N values a = v := by
  have hn : m.exprNodes[a]? = some (.literal v) := by
    unfold ExprBuilder.tryGetLiteral at h
    split at h
    · next hlit => rw [hlit, Option.some.inj h]
    · cases h
  have hN : N[a]? = some (.literal v) := by
    obtain ⟨t, rfl⟩ := hpre
    rw [getElem?_append_left (List.getElem?_eq_some_iff.mp hn).1, hn]
  rw [rootVal, evalNode_succ hN]
  rfl

def IsGate (n : ExprNode) : Prop := ∀ s, n ≠ .signal s

theorem foldNode_spec (hpre : m.exprNodes <+: N) (hn : IsGate n) :
    (m.foldNode n).combine values (rootVal N values) = n.combine values (rootVal N values) ∧
      ∀ c ∈ (m.foldNode n).children, c ∈ n.children := by
  cases n with
  | literal v => exact ⟨rfl, fun _ hc => hc⟩
  | signal s => exact absurd rfl (hn s)
  | isUnknown a | unaryNot a =>
    dsimp only [ExprBuilder.foldNode]
    cases ha : m.tryGetLiteral a with
    | none => exact ⟨rfl, fun _ hc => hc⟩
    | some v =>
      have hv := rootVal_of_tryGetLiteral values hpre ha
      refine ⟨?_, fun c hc => by cases hc⟩
      dsimp only [ExprNode.combine]
      rw [hv]
  | binaryAnd a b | binaryOr a b | binaryXor a b | binaryEq a b | binaryNeq a b | binaryCaseEq a b =>
    dsimp only [ExprBuilder.foldNode]
    cases ha : m.tryGetLiteral a with
    | none => exact ⟨rfl, fun _ hc => hc⟩
    | some v =>
      cases hb : m.tryGetLiteral b with
      | none => exact ⟨rfl, fun _ hc => hc⟩
      | some w =>
        have hv := rootVal_of_tryGetLiteral values hpre ha
        have hw := rootVal_of_tryGetLiteral values hpre hb
        refine ⟨?_, fun c hc => by cases hc⟩
        dsimp only [ExprNode.combine]
        rw [hv, hw]

def Has (N : List ExprNode) (values : List LogicT) (v : LogicT) (r : Nat) (m : ExprBuilder) : Prop :=
  r < m.size ∧ rootVal N values r = v

theorem OperandsFirst.concat {nodes : List ExprNode} (hord : OperandsFirst nodes)
    (hn : ∀ c ∈ n.children, c < nodes.length) : OperandsFirst (nodes ++ [n]) := by
  intro i n' hi c hc
  rcases Nat.lt_or_ge i nodes.length with hlt | hge
  · rw [getElem?_append_left hlt] at hi
    exact hord i n' hi c hc
  · rw [getElem?_append_right hge, getElem?_singleton] at hi
    split_ifs at hi with hzero
    cases hi
    have := hn c hc
    omega

theorem spec_addNode (hn : IsGate n) (hc : ∀ c ∈ n.children, c < m.size) :
    Spec N m (addNode n) (Has N values (n.combine values (rootVal N values))) := by
  intro hord hpre herr
  have hrun : addNode n m = internNode (m.foldNode n) m := rfl
  rw [hrun] at hpre herr ⊢
  have hmpre : m.exprNodes <+: N := (Grows.grew (x := internNode (m.foldNode n)) m).nodes.trans hpre
  obtain ⟨hval, hchildren⟩ := foldNode_spec values hmpre hn
  obtain ⟨i, hi, h⟩ | h | ⟨-, h⟩ := internNode_cases (m.foldNode n) m
  · rw [h]
    refine ⟨hord, (List.getElem?_eq_some_iff.mp hi).1, ?_⟩
    exact (rootVal_of_getElem values hord hmpre hi).trans hval
  · rw [h] at herr
    exact absurd herr (by simp)
  · rw [h] at hpre ⊢
    have hord' := hord.concat (n := m.foldNode n) fun c hc' => hc c (hchildren c hc')
    refine ⟨hord', by simp [ExprBuilder.size], ?_⟩
    exact (rootVal_of_getElem values hord' hpre (by simp)).trans hval

theorem spec_makeLiteral (v : LogicT) : Spec N m (makeLiteral v) (Has N values v) :=
  spec_addNode values (n := .literal v) (fun _ => by simp) (by simp [ExprNode.children])

theorem spec_makeIsUnknown {a : Nat} (ha : a < m.size) :
    Spec N m (makeIsUnknown a) (Has N values (ofBool (rootVal N values a).isUnknown)) :=
  spec_addNode values (n := .isUnknown a) (fun _ => by simp) (by simpa [ExprNode.children] using ha)

theorem spec_makeNot {a : Nat} (ha : a < m.size) :
    Spec N m (makeNot a) (Has N values (logicNot (rootVal N values a))) :=
  spec_addNode values (n := .unaryNot a) (fun _ => by simp) (by simpa [ExprNode.children] using ha)

section Binary

variable {a b : Nat} (ha : a < m.size) (hb : b < m.size)

include ha hb

theorem spec_makeAnd : Spec N m (makeAnd a b) (Has N values (logicAnd (rootVal N values a) (rootVal N values b))) :=
  spec_addNode values (n := .binaryAnd a b) (fun _ => by simp) (by simpa [ExprNode.children] using ⟨ha, hb⟩)

theorem spec_makeOr : Spec N m (makeOr a b) (Has N values (logicOr (rootVal N values a) (rootVal N values b))) :=
  spec_addNode values (n := .binaryOr a b) (fun _ => by simp) (by simpa [ExprNode.children] using ⟨ha, hb⟩)

theorem spec_makeXor : Spec N m (makeXor a b) (Has N values (logicXor (rootVal N values a) (rootVal N values b))) :=
  spec_addNode values (n := .binaryXor a b) (fun _ => by simp) (by simpa [ExprNode.children] using ⟨ha, hb⟩)

theorem spec_makeEq :
    Spec N m (addNode (.binaryEq a b)) (Has N values (logicEq (rootVal N values a) (rootVal N values b))) :=
  spec_addNode values (n := .binaryEq a b) (fun _ => by simp) (by simpa [ExprNode.children] using ⟨ha, hb⟩)

end Binary

def muxVal (sel t f : LogicT) : LogicT := logicOr (logicAnd sel t) (logicAnd (logicNot sel) f)

theorem muxVal_ofBool (s t f : Bool) : muxVal (ofBool s) (ofBool t) (ofBool f) = ofBool (if s then t else f) := by
  cases s <;> cases t <;> cases f <;> rfl

theorem spec_makeMux {sel t f : Nat} (hs : sel < m.size) (ht : t < m.size) (hf : f < m.size) :
    Spec N m (makeMux sel t f)
      (Has N values (muxVal (rootVal N values sel) (rootVal N values t) (rootVal N values f))) := by
  apply (spec_makeNot values hs).bind
  rintro nsel m₁ h₁ ⟨hn, hnv⟩
  apply (spec_makeAnd values (by omega) (by omega)).bind
  rintro a m₂ h₂ ⟨ha, hav⟩
  apply (spec_makeAnd values (by omega) (by omega)).bind
  rintro b m₃ h₃ ⟨hb, hbv⟩
  apply (spec_makeOr values (by omega) hb).imp
  rintro r m₄ ⟨hr, hrv⟩
  exact ⟨hr, by rw [hrv, hav, hbv, hnv, muxVal]⟩

def HasAll (N : List ExprNode) (values : List LogicT) (vs : List LogicT) (rs : List Nat) (m : ExprBuilder) : Prop :=
  (∀ r ∈ rs, r < m.size) ∧ rs.map (rootVal N values) = vs

theorem HasAll.mono (h : HasAll N values vs rs m) (hle : m.size ≤ m'.size) : HasAll N values vs rs m' :=
  ⟨fun r hr => lt_of_lt_of_le (h.1 r hr) hle, h.2⟩

theorem HasAll.length (h : HasAll N values vs rs m) : rs.length = vs.length := by
  rw [← h.2, length_map]

theorem spec_mapM {f : α → Build Nat} {g : α → LogicT} [∀ a, Grows (f a)] (as : List α)
    (h : ∀ a ∈ as, ∀ m', m.size ≤ m'.size → Spec N m' (f a) (Has N values (g a))) :
    Spec N m (as.mapM f) (HasAll N values (as.map g)) := by
  induction as generalizing m with
  | nil =>
    rw [mapM_nil]
    exact Spec.pure ⟨by simp, rfl⟩
  | cons a as ih =>
    rw [mapM_cons]
    apply (h a mem_cons_self m (Nat.le_refl _)).bind
    rintro r m₁ h₁ ⟨hr, hrv⟩
    apply (ih fun b hb m' hm' => h b (mem_cons_of_mem a hb) m' (h₁.trans hm')).bind
    rintro rs m₂ h₂ ⟨hrs, hrsv⟩
    refine Spec.pure ⟨forall_mem_cons.mpr ⟨by omega, hrs⟩, ?_⟩
    rw [map_cons, map_cons, hrv, hrsv]

variable (sgn : Bool)

/-- The values of the bits that `resize_to_vector` gives. -/
def resizeVals (w : Nat) (vs : List LogicT) : List LogicT :=
  if w < vs.length then vs.drop (vs.length - w)
  else List.replicate (w - vs.length) (if sgn then vs.headD .L else .L) ++ vs

theorem resizeToVector_eq (v : ExprValue) (sgn : Bool) (hne : v.roots ≠ []) (hw : 0 < w) :
    resizeToVector v w sgn =
      if v.roots.length < w then do
        let z ← makeLiteral .L
        pure (List.replicate (w - v.roots.length) (if sgn then v.roots.headD z else z) ++ v.roots)
      else pure (v.roots.drop (v.roots.length - w)) := by
  have hpos : 0 < v.roots.length := length_pos_iff.mpr hne
  unfold resizeToVector
  dsimp only
  by_cases h1 : w ≤ 1
  · -- One bit is left, the last root.
    obtain rfl : w = 1 := by omega
    rw [if_pos h1, if_neg (by omega), drop_length_sub_one hne, getLastD_eq_getLast?,
      getLast?_eq_some_getLast hne]
    rfl
  · rw [if_neg h1]
    rcases Nat.lt_trichotomy v.roots.length w with hlt | heq | hgt
    · rw [if_neg (by omega), if_neg (by omega), if_pos hlt]
    · rw [if_pos heq, if_neg (by omega), heq, Nat.sub_self]
      rfl
    · rw [if_neg (by omega), if_pos hgt, if_neg (by omega)]

theorem resizeVals_of_le (h : w ≤ vs.length) :
    resizeVals sgn w vs = vs.drop (vs.length - w) := by
  rw [resizeVals]
  rcases Nat.lt_or_eq_of_le h with hlt | rfl
  · rw [if_pos hlt]
  · rw [if_neg (Nat.lt_irrefl _), Nat.sub_self]
    rfl

theorem map_fill {z : Nat} (hne : rs ≠ []) (h : rs.length < w) (hz : rootVal N values z = .L) :
    (List.replicate (w - rs.length) (if sgn then rs.headD z else z) ++ rs).map (rootVal N values) =
      resizeVals sgn w (rs.map (rootVal N values)) := by
  have hlt : ¬ w < (rs.map (rootVal N values)).length := by
    rw [length_map]
    omega
  rw [resizeVals, if_neg hlt, map_append, map_replicate, length_map]
  congr 2
  cases sgn with
  | false => exact hz
  | true =>
    obtain ⟨r, rs, rfl⟩ := exists_cons_of_ne_nil hne
    rfl

theorem spec_resizeToVector (v : ExprValue) (sgn : Bool) (hv : ∀ r ∈ v.roots, r < m.size) (hne : v.roots ≠ [])
    (hw : 0 < w) :
    Spec N m (resizeToVector v w sgn) (HasAll N values (resizeVals sgn w (v.roots.map (rootVal N values)))) := by
  rw [resizeToVector_eq v sgn hne hw]
  by_cases hlt : v.roots.length < w
  · rw [if_pos hlt]
    apply (spec_makeLiteral values .L).bind
    rintro z m₁ h₁ ⟨hz, hzv⟩
    refine Spec.pure ⟨?_, map_fill values sgn hne hlt hzv⟩
    intro r hr
    rcases mem_append.mp hr with hr | hr
    · obtain ⟨-, rfl⟩ := mem_replicate.mp hr
      cases sgn with
      | false => exact hz
      | true =>
        obtain ⟨r₀, rs, hroots⟩ := exists_cons_of_ne_nil hne
        have := hv r₀ (by rw [hroots]; exact mem_cons_self)
        rw [hroots]
        show r₀ < m₁.size
        omega
    · have := hv r hr
      omega
  · rw [if_neg hlt, resizeVals_of_le sgn (by rw [length_map]; omega), length_map, ← map_drop]
    exact Spec.pure ⟨fun r hr => hv r (mem_of_mem_drop hr), rfl⟩

theorem length_resizeVals (w : Nat) (vs : List LogicT) : (resizeVals sgn w vs).length = w := by
  unfold resizeVals
  by_cases hlt : w < vs.length
  · rw [if_pos hlt, length_drop]
    omega
  · rw [if_neg hlt, length_append, length_replicate]
    omega

theorem spec_resizeOperands {a b : ExprValue} (ha : ∀ r ∈ a.roots, r < m.size)
    (hb : ∀ r ∈ b.roots, r < m.size) (hane : a.roots ≠ []) (hbne : b.roots ≠ []) (hw : 0 < w) :
    Spec N m (resizeOperands a b w sgn) fun p m' =>
      HasAll N values (resizeVals sgn w (a.roots.map (rootVal N values))) p.1 m' ∧
        HasAll N values (resizeVals sgn w (b.roots.map (rootVal N values))) p.2 m' := by
  apply (spec_resizeToVector values a sgn ha hane hw).bind
  intro av m₁ h₁ hav
  apply (spec_resizeToVector values b sgn (fun r hr => lt_of_lt_of_le (hb r hr) h₁) hbne hw).bind
  intro bv m₂ h₂ hbv
  exact Spec.pure ⟨hav.mono values h₂, hbv⟩

/-- What the scan for unknown bits knows while `rs` are left of bits that are unknown as `total`
says. -/
theorem spec_scanUnknown (vs : List LogicT) {acc : Nat}
    (h : (∀ r ∈ rs, r < m.size) ∧ ∃ known, Has N values (ofBool known) acc m ∧
    (known || (rs.map (rootVal N values)).any isUnknown) = vs.any isUnknown)
    :
    Spec N m (rs.foldlM (fun r bit => do makeOr r (← makeIsUnknown bit)) acc) fun r m' =>
      (∀ r ∈ [], r < m'.size) ∧ ∃ known, Has N values (ofBool known) r m' ∧
        (known || (List.map (rootVal N values) []).any isUnknown) = vs.any isUnknown := by
  apply spec_foldlM (I := fun rs acc m => (∀ r ∈ rs, r < m.size) ∧ ∃ known, Has N values (ofBool known) acc m ∧
    (known || (rs.map (rootVal N values)).any isUnknown) = vs.any isUnknown) _ h
  rintro r rs acc m ⟨hrs, known, ⟨hacc, haccv⟩, htotal⟩
  rw [forall_mem_cons] at hrs
  apply (spec_makeIsUnknown values hrs.1).bind
  rintro u m₁ h₁ ⟨hu, huv⟩
  apply (spec_makeOr values (by omega) hu).imp
  rintro o m₂ ⟨ho, hov⟩ hle
  refine ⟨fun r' hr' => lt_of_lt_of_le (hrs.2 r' hr') hle, known || (rootVal N values r).isUnknown, ⟨ho, ?_⟩, ?_⟩
  · rw [hov, haccv, huv, logicOr_ofBool]
  · rw [← htotal, map_cons, any_cons, Bool.or_assoc]

theorem spec_anyUnknownRoot {v : ExprValue} (hv : ∀ r ∈ v.roots, r < m.size) (hne : v.roots ≠ []) :
    Spec N m (anyUnknownRoot v)
      (Has N values (ofBool ((v.roots.map (rootVal N values)).any isUnknown))) := by
  unfold anyUnknownRoot
  unfold ExprValue.roots at hv hne ⊢
  cases hvec : v.isVector with
  | false =>
    rw [hvec] at hv
    apply (spec_makeIsUnknown values (hv v.scalarRoot (by simp))).imp
    rintro r m₁ ⟨hr, hrv⟩
    exact ⟨hr, by rw [hrv]; simp⟩
  | true =>
    rw [hvec] at hv hne
    rw [if_pos rfl] at hv hne
    rw [if_neg (by simp), if_neg hne, if_pos rfl]
    apply (spec_makeLiteral values .L).bind
    rintro z m₁ h₁ ⟨hz, hzv⟩
    apply (spec_scanUnknown values (v.vectorRoots.map (rootVal N values)) ⟨fun r hr => lt_of_lt_of_le (hv r hr) h₁,
      false, ⟨hz, hzv⟩, by simp⟩).imp
    rintro r m₂ ⟨-, known, hr, htotal⟩
    rw [← htotal]
    simpa using hr

theorem spec_unknownSel {a b : ExprValue} (ha : ∀ r ∈ a.roots, r < m.size) (hb : ∀ r ∈ b.roots, r < m.size)
    (hane : a.roots ≠ []) (hbne : b.roots ≠ []) :
    Spec N m (unknownSel a b) (Has N values (ofBool ((a.roots.map (rootVal N values)).any isUnknown ||
      (b.roots.map (rootVal N values)).any isUnknown))) := by
  apply (spec_anyUnknownRoot values ha hane).bind
  rintro ua m₁ h₁ ⟨hua, huav⟩
  apply (spec_anyUnknownRoot values (fun r hr => lt_of_lt_of_le (hb r hr) h₁) hbne).bind
  rintro ub m₂ h₂ ⟨hub, hubv⟩
  apply (spec_makeOr values (by omega) hub).imp
  rintro r m₃ ⟨hr, hrv⟩
  exact ⟨hr, by rw [hrv, huav, hubv, logicOr_ofBool]⟩

theorem spec_muxUnknown {sel : Nat} (hs : sel < m.size) (h : HasAll N values vs roots m) :
    Spec N m (muxUnknown sel roots) (HasAll N values (vs.map (muxVal (rootVal N values sel) .X))) := by
  apply (spec_makeLiteral values .X).bind
  rintro x m₁ h₁ ⟨hx, hxv⟩
  rw [← h.2, List.map_map]
  apply spec_mapM
  intro r hr m₂ h₂
  have := h.1 r hr
  apply (spec_makeMux values (by omega) (by omega) (by omega)).imp
  rintro o m₃ ⟨ho, hov⟩
  exact ⟨ho, by rw [hov, hxv]; rfl⟩

theorem ExprValue.length_roots (v : ExprValue) : v.roots.length = v.width := by
  unfold roots width
  cases v.isVector <;> rfl

structure IsVectorOf (roots : List Nat) (sgn : Bool) (v : ExprValue) : Prop where
  roots_eq : v.roots = roots
  isSigned : v.isSigned = sgn
  isVector : v.isVector = decide (2 ≤ roots.length)

theorem makeVector_eq (hne : roots ≠ []) (hlen : roots.length ≤ maxConcatBits) :
    ∃ v, makeVector roots sgn = pure v ∧ IsVectorOf roots sgn v := by
  have hrun : makeVector roots sgn = makeVectorWithRange roots (roots.length - 1) 0 sgn := by
    unfold makeVector
    rw [if_neg (by omega)]
    dsimp only
    rw [take_of_length_le hlen]
  rw [hrun]
  match roots, hne with
  | [r], _ => exact ⟨_, rfl, ⟨rfl, rfl, rfl⟩⟩
  | r :: r' :: rs, _ => exact ⟨_, rfl, ⟨rfl, rfl, by simp⟩⟩

theorem spec_makeVector (hne : roots ≠ []) :
    Spec N m (makeVector roots sgn) fun v m' => IsVectorOf roots sgn v ∧ m' = m := by
  by_cases hlen : roots.length ≤ maxConcatBits
  · obtain ⟨v, hrun, hv⟩ := makeVector_eq sgn hne hlen
    rw [hrun]
    exact Spec.pure ⟨hv, rfl⟩
  · unfold makeVector
    rw [if_pos (by omega)]
    exact spec_reportError _

theorem limitWidth_eq (msg : String) (h : w ≤ maxConcatBits) : limitWidth w msg = pure w := by
  unfold limitWidth
  rw [if_neg (by omega), Nat.min_eq_left h]

end Spec

end PhyEngine.Verilog
