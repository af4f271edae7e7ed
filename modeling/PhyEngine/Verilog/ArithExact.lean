import PhyEngine.Verilog.CompareSound
import PhyEngine.Verilog.MulSound

/-!
# Vector arithmetic is exact

Additions, differences, products and comparisons of vectors of any width, as the values of
the bits say once the nodes have been built.
-/

namespace PhyEngine.Verilog

open LogicT BitNumbers

/-- Two operands in the arena of `m` whose product is not too wide. -/
structure Operands (m : ExprBuilder) (a b : ExprValue) : Prop where
  operandsFirst : OperandsFirst m.exprNodes
  left : ValidIn m a
  right : ValidIn m b
  width_le : a.width + b.width ≤ maxConcatBits

/-- The run reports no error. It never meets the node limit then. -/
def NoError {α : Type} (x : Build α) (m : ExprBuilder) : Prop := (x m).2.errors = m.errors

instance {α : Type} (x : Build α) (m : ExprBuilder) : Decidable (NoError x m) :=
  inferInstanceAs (Decidable ((x m).2.errors = m.errors))

def resultBits (x : Build ExprValue) (m : ExprBuilder) (values : List LogicT) : List LogicT :=
  (x m).2.denote (x m).1 values

def resultBit (x : Build Nat) (m : ExprBuilder) (values : List LogicT) : LogicT :=
  evalNode (x m).2.exprNodes values ((x m).1 + 1) (x m).1

variable {m : ExprBuilder} {a b : ExprValue}

theorem ValidIn.valuesOf_eq {v : ExprValue} (hv : ValidIn m v) (hord : OperandsFirst m.exprNodes)
    {N : List ExprNode} (hpre : m.exprNodes <+: N) (values : List LogicT) :
    valuesOf N values v = m.denote v values := by
  refine List.map_congr_left fun r hr => ?_
  exact hord.evalNode_eq hpre values (hv.lt r hr) (Nat.lt_succ_self r) (Nat.lt_succ_self r)

theorem length_denote (v : ExprValue) (values : List LogicT) : (m.denote v values).length = v.width := by
  rw [ExprBuilder.denote, List.length_map, v.length_roots]

section Results

variable (h : Operands m a b) (values : List LogicT)

include h

theorem Operands.resultBits_eq {x : Build ExprValue} [hg : Grows x] {sgn : Bool}
    {f : List LogicT → List LogicT → List LogicT}
    (hx : ∀ N, Spec N m x (HasValue N values sgn (f (valuesOf N values a) (valuesOf N values b)))) (hq : NoError x m) :
    resultBits x m values = f (m.denote a values) (m.denote b values) := by
  have hpre : m.exprNodes <+: (x m).2.exprNodes := (hg.grew m).nodes
  obtain ⟨-, hv⟩ := hx (x m).2.exprNodes h.operandsFirst (List.prefix_refl _) hq
  rw [← h.left.valuesOf_eq h.operandsFirst hpre, ← h.right.valuesOf_eq h.operandsFirst hpre]
  exact hv.hasAll.2

theorem Operands.resultBit_eq {x : Build Nat} [hg : Grows x] {f : List LogicT → List LogicT → LogicT}
    (hx : ∀ N, Spec N m x (Has N values (f (valuesOf N values a) (valuesOf N values b)))) (hq : NoError x m) :
    resultBit x m values = f (m.denote a values) (m.denote b values) := by
  have hpre : m.exprNodes <+: (x m).2.exprNodes := (hg.grew m).nodes
  obtain ⟨-, hv⟩ := hx (x m).2.exprNodes h.operandsFirst (List.prefix_refl _) hq
  rw [← h.left.valuesOf_eq h.operandsFirst hpre, ← h.right.valuesOf_eq h.operandsFirst hpre]
  exact hv.2

theorem Operands.resultBits_arithAdd (hq : NoError (arithAdd a b) m) :
    resultBits (arithAdd a b) m values =
      sumVals id .L (signedOp a b) (m.denote a values) (m.denote b values) := by
  have hw := h.width_le
  exact h.resultBits_eq values (fun N => spec_arithAdd values h.left h.right (by omega)) hq

theorem Operands.resultBits_arithSub (hq : NoError (arithSub a b) m) :
    resultBits (arithSub a b) m values =
      sumVals logicNot .H (signedOp a b) (m.denote a values) (m.denote b values) := by
  have hw := h.width_le
  exact h.resultBits_eq values (fun N => spec_arithSub values h.left h.right (by omega)) hq

theorem Operands.resultBits_arithMul (hq : NoError (arithMul a b) m) :
    resultBits (arithMul a b) m values = mulVals (signedOp a b) (m.denote a values) (m.denote b values) := by
  exact h.resultBits_eq values (fun N => spec_arithMul values h.left h.right h.width_le) hq

end Results

/-- What `compare_lt` finds for operands with the values `as` and `bs`. -/
def lessVals (sgn : Bool) (as bs : List LogicT) : LogicT :=
  ltSignedVals sgn (resizeVals sgn (max as.length bs.length) as) (resizeVals sgn (max as.length bs.length) bs)

def equalVals (sgn : Bool) (as bs : List LogicT) : LogicT :=
  eqVals ((resizeVals sgn (max as.length bs.length) as).zip (resizeVals sgn (max as.length bs.length) bs))

theorem signedOp_comm (a b : ExprValue) : signedOp a b = signedOp b a := Bool.and_comm _ _

instance (a b : ExprValue) : Grows (compareLe a b) := by
  unfold compareLe
  infer_instance

instance (a b : ExprValue) : Grows (compareGt a b) := by
  unfold compareGt
  infer_instance

instance (a b : ExprValue) : Grows (compareGe a b) := by
  unfold compareGe
  infer_instance

section Compare

variable {N : List ExprNode} (values : List LogicT) (ha : ValidIn m a) (hb : ValidIn m b)

include ha hb

theorem spec_less :
    Spec N m (compareLt a b)
      (Has N values (lessVals (signedOp a b) (valuesOf N values a) (valuesOf N values b))) := by
  rw [lessVals, length_valuesOf, length_valuesOf]
  exact spec_compareLt values ha hb

theorem spec_equal :
    Spec N m (compareEq a b)
      (Has N values (equalVals (signedOp a b) (valuesOf N values a) (valuesOf N values b))) := by
  rw [equalVals, length_valuesOf, length_valuesOf]
  exact spec_compareEq values ha hb

theorem spec_greater :
    Spec N m (compareGt a b)
      (Has N values (lessVals (signedOp a b) (valuesOf N values b) (valuesOf N values a))) := by
  rw [signedOp_comm]
  exact spec_less values hb ha

theorem spec_orEqual {x : Build Nat} [Grows x] {v : LogicT} (hx : Spec N m x (Has N values v)) :
    Spec N m (do makeOr (← x) (← compareEq a b)) (Has N values
      (logicOr v (equalVals (signedOp a b) (valuesOf N values a) (valuesOf N values b)))) := by
  apply hx.bind
  rintro r m₁ h₁ ⟨hr, hrv⟩
  apply (spec_equal values (ha.mono h₁) (hb.mono h₁)).bind
  rintro e m₂ h₂ ⟨he, hev⟩
  apply (spec_makeOr values (by omega) he).imp
  rintro o m₃ ⟨ho, hov⟩
  exact ⟨ho, by rw [hov, hrv, hev]⟩

theorem spec_lessEqual :
    Spec N m (compareLe a b) (Has N values
      (logicOr (lessVals (signedOp a b) (valuesOf N values a) (valuesOf N values b))
        (equalVals (signedOp a b) (valuesOf N values a) (valuesOf N values b)))) :=
  spec_orEqual values ha hb (spec_less values ha hb)

theorem spec_greaterEqual :
    Spec N m (compareGe a b) (Has N values
      (logicOr (lessVals (signedOp a b) (valuesOf N values b) (valuesOf N values a))
        (equalVals (signedOp a b) (valuesOf N values a) (valuesOf N values b)))) :=
  spec_orEqual values ha hb (spec_greater values ha hb)

end Compare

section Known

variable (sgn : Bool) {as bs : List Bool} (ha : as ≠ [])

include ha

theorem lessVals_bitVals :
    lessVals sgn (bitVals as) (bitVals bs) = ofBool (decide (intValue sgn as < intValue sgn bs)) := by
  rw [lessVals, length_bitVals, length_bitVals]
  exact ltSignedVals_resize sgn ha

theorem equalVals_bitVals :
    equalVals sgn (bitVals as) (bitVals bs) = ofBool (decide (intValue sgn as = intValue sgn bs)) := by
  rw [equalVals, length_bitVals, length_bitVals]
  exact eqVals_resize sgn ha

theorem lessEqualVals_bitVals :
    logicOr (lessVals sgn (bitVals as) (bitVals bs)) (equalVals sgn (bitVals as) (bitVals bs)) =
      ofBool (decide (intValue sgn as ≤ intValue sgn bs)) := by
  rw [lessVals_bitVals sgn ha, equalVals_bitVals sgn ha, logicOr_ofBool, ← Bool.decide_or]
  congr 2
  exact propext le_iff_lt_or_eq.symm

end Known

/-- On the numbers `x` and `y` the operators give the numbers and comparisons they stand for. -/
structure ExactOn (m : ExprBuilder) (a b : ExprValue) (values : List LogicT) (x y : Int) : Prop where
  add : NoError (arithAdd a b) m → IsNumber (max a.width b.width) (x + y) (resultBits (arithAdd a b) m values)
  sub : NoError (arithSub a b) m → IsNumber (max a.width b.width) (x - y) (resultBits (arithSub a b) m values)
  mul : NoError (arithMul a b) m → IsNumber (a.width + b.width) (x * y) (resultBits (arithMul a b) m values)
  lt : NoError (compareLt a b) m → resultBit (compareLt a b) m values = ofBool (decide (x < y))
  le : NoError (compareLe a b) m → resultBit (compareLe a b) m values = ofBool (decide (x ≤ y))
  gt : NoError (compareGt a b) m → resultBit (compareGt a b) m values = ofBool (decide (x > y))
  ge : NoError (compareGe a b) m → resultBit (compareGe a b) m values = ofBool (decide (x ≥ y))
  eq : NoError (compareEq a b) m → resultBit (compareEq a b) m values = ofBool (decide (x = y))

structure UnknownOn (m : ExprBuilder) (a b : ExprValue) (values : List LogicT) : Prop where
  add : NoError (arithAdd a b) m → ∀ v ∈ resultBits (arithAdd a b) m values, v = .X
  sub : NoError (arithSub a b) m → ∀ v ∈ resultBits (arithSub a b) m values, v = .X
  mul : NoError (arithMul a b) m → ∀ v ∈ resultBits (arithMul a b) m values, v = .X

theorem Operands.exactOn (h : Operands m a b) {values : List LogicT} {as bs : List Bool}
    (ha : m.denote a values = bitVals as) (hb : m.denote b values = bitVals bs) :
    ExactOn m a b values (intValue (signedOp a b) as) (intValue (signedOp a b) bs) := by
  have hla : a.width = as.length := by rw [← length_denote, ha, length_bitVals]
  have hlb : b.width = bs.length := by rw [← length_denote, hb, length_bitVals]
  have hane : as ≠ [] := List.length_pos_iff.mp (hla ▸ h.left.width_pos)
  have hbne : bs ≠ [] := List.length_pos_iff.mp (hlb ▸ h.right.width_pos)
  refine ⟨fun hq => ?_, fun hq => ?_, fun hq => ?_, fun hq => ?_, fun hq => ?_, fun hq => ?_, fun hq => ?_,
    fun hq => ?_⟩
  · rw [h.resultBits_arithAdd values hq, ha, hb, hla, hlb]
    exact isNumber_add _ as bs
  · rw [h.resultBits_arithSub values hq, ha, hb, hla, hlb]
    exact isNumber_sub _ as bs
  · rw [h.resultBits_arithMul values hq, ha, hb, hla, hlb]
    exact isNumber_mul _ as bs
  · rw [h.resultBit_eq values (fun N => spec_less values h.left h.right) hq, ha, hb]
    exact lessVals_bitVals _ hane
  · rw [h.resultBit_eq values (f := fun u v => logicOr (lessVals (signedOp a b) u v) (equalVals (signedOp a b) u v))
      (fun N => spec_lessEqual values h.left h.right) hq, ha, hb]
    exact lessEqualVals_bitVals _ hane
  · rw [h.resultBit_eq values (f := fun u v => lessVals (signedOp a b) v u)
      (fun N => spec_greater values h.left h.right) hq, ha, hb]
    exact lessVals_bitVals _ hbne
  · rw [h.resultBit_eq values (f := fun u v => logicOr (lessVals (signedOp a b) v u) (equalVals (signedOp a b) u v))
      (fun N => spec_greaterEqual values h.left h.right) hq, ha, hb, lessVals_bitVals _ hbne, equalVals_bitVals _ hane,
      logicOr_ofBool, ← Bool.decide_or]
    congr 2
    rw [ge_iff_le, le_iff_lt_or_eq, @eq_comm _ (intValue _ bs)]
  · rw [h.resultBit_eq values (fun N => spec_equal values h.left h.right) hq, ha, hb]
    exact equalVals_bitVals _ hane

theorem Operands.unknownOn (h : Operands m a b) {values : List LogicT}
    (hu : ∃ v ∈ m.denote a values ++ m.denote b values, v.isUnknown = true) : UnknownOn m a b values := by
  refine ⟨fun hq => ?_, fun hq => ?_, fun hq => ?_⟩
  · rw [h.resultBits_arithAdd values hq]
    exact sumVals_of_unknown hu
  · rw [h.resultBits_arithSub values hq]
    exact sumVals_of_unknown hu
  · rw [h.resultBits_arithMul values hq]
    exact mulVals_of_unknown hu

/-- Vector arithmetic is exact for all known operands, both extended by their sign if both are
signed, and unknown bits of an operand make all bits of a sum, a difference and a product
unknown. -/
theorem arith_exact (h : Operands m a b) (values : List LogicT) :
    (∀ as bs : List Bool, m.denote a values = bitVals as → m.denote b values = bitVals bs →
      ExactOn m a b values (intValue (signedOp a b) as) (intValue (signedOp a b) bs)) ∧
    ((∃ v ∈ m.denote a values ++ m.denote b values, v.isUnknown = true) → UnknownOn m a b values) :=
  ⟨fun _ _ ha hb => h.exactOn ha hb, fun hu => h.unknownOn hu⟩

/-- The bits of two signed numbers of two and three bits. -/
def operandArena : ExprBuilder := { exprNodes := (List.range 5).map .signal }

def twoBits : ExprValue := { isVector := true, isSigned := true, vectorRoots := [0, 1], msb := 1 }

def threeBits : ExprValue := { isVector := true, isSigned := true, vectorRoots := [2, 3, 4], msb := 2 }

/-- The difference of -1 and 3, and one unknown bit. -/
theorem arith_exact_operandArena :
    IsNumber 3 (-4) (resultBits (arithSub twoBits threeBits) operandArena [.H, .H, .L, .H, .H]) ∧
      resultBit (compareLt twoBits threeBits) operandArena [.H, .H, .L, .H, .H] = .H ∧
      ∀ v ∈ resultBits (arithAdd twoBits threeBits) operandArena [.H, .Z, .L, .H, .H], v = .X := by
  have h : Operands operandArena twoBits threeBits := by
    refine ⟨?_, ⟨by decide, by decide⟩, ⟨by decide, by decide⟩, by decide⟩
    intro i n hi c hc
    obtain ⟨s, -, rfl⟩ := List.mem_map.mp (List.mem_of_getElem? hi)
    cases hc
  have hknown := (arith_exact h [.H, .H, .L, .H, .H]).1 [true, true] [true, true, false] (by decide) (by decide)
  have hunknown := (arith_exact h [.H, .Z, .L, .H, .H]).2 ⟨.Z, by decide, rfl⟩
  exact ⟨hknown.sub (by decide +kernel), hknown.lt (by decide +kernel), hunknown.add (by decide +kernel)⟩

end PhyEngine.Verilog
