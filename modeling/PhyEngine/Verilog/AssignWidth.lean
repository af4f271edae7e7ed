import PhyEngine.Verilog.Conditional

/-!
# The widths of an assignment

Every operator is built at a width of its own, so a carry is lost where the operands are not
wider than the sum that is needed (`value`). `valueAt w` computes modulo `2 ^ w`; they agree
where every sum, difference and complement is as wide as the left side (`value_mod_eq`).
-/

namespace PhyEngine.Verilog

open LogicT BitNumbers List

/-- Expressions over operands that have been read. -/
inductive WidthExpr where
  | operand (v : ExprValue)
  | add (a b : WidthExpr)
  | sub (a b : WidthExpr)
  | mul (a b : WidthExpr)
  | and (a b : WidthExpr)
  | or (a b : WidthExpr)
  | xor (a b : WidthExpr)
  | not (a : WidthExpr)
  | cond (c t f : WidthExpr)

variable {e : WidthExpr} {n k : Nat}

namespace WidthExpr

def build : WidthExpr → Build ExprValue
  | operand v => pure v
  | add a b => do arithAdd (← a.build) (← b.build)
  | sub a b => do arithSub (← a.build) (← b.build)
  | mul a b => do arithMul (← a.build) (← b.build)
  | and a b => do bitwiseBinary (← a.build) (← b.build) .binaryAnd
  | or a b => do bitwiseBinary (← a.build) (← b.build) .binaryOr
  | xor a b => do bitwiseBinary (← a.build) (← b.build) .binaryXor
  | not a => do bitwiseUnary (← a.build) .unaryNot
  | cond c t f => do makeConditional (← c.build) (← t.build) (← f.build)

def operands : WidthExpr → List ExprValue
  | operand v => [v]
  | add a b | sub a b | mul a b | and a b | or a b | xor a b => a.operands ++ b.operands
  | not a => a.operands
  | cond c t f => c.operands ++ t.operands ++ f.operands

def width : WidthExpr → Nat
  | operand v => v.width
  | add a b | sub a b | and a b | or a b | xor a b => max a.width b.width
  | mul a b => a.width + b.width
  | not a => a.width
  | cond _ t f => max t.width f.width

section Values

variable (ov : ExprValue → Nat)

def value : WidthExpr → Nat
  | operand v => ov v
  | add a b => (a.value + b.value) % 2 ^ max a.width b.width
  | sub a b => (a.value + (2 ^ max a.width b.width - b.value)) % 2 ^ max a.width b.width
  | mul a b => a.value * b.value
  | and a b => a.value &&& b.value
  | or a b => a.value ||| b.value
  | xor a b => a.value ^^^ b.value
  | not a => 2 ^ a.width - 1 - a.value
  | cond c t f => if c.value ≠ 0 then t.value else f.value

def valueAt (w : Nat) : WidthExpr → Nat
  | operand v => ov v
  | add a b => (a.valueAt w + b.valueAt w) % 2 ^ w
  | sub a b => (a.valueAt w + (2 ^ w - b.valueAt w)) % 2 ^ w
  | mul a b => a.valueAt w * b.valueAt w % 2 ^ w
  | and a b => a.valueAt w &&& b.valueAt w
  | or a b => a.valueAt w ||| b.valueAt w
  | xor a b => a.valueAt w ^^^ b.valueAt w
  | not a => 2 ^ w - 1 - a.valueAt w
  | cond c t f => if c.valueAt w ≠ 0 then t.valueAt w else f.valueAt w

end Values

def Plain : WidthExpr → Prop
  | operand _ => True
  | and a b | or a b | xor a b => a.Plain ∧ b.Plain
  | cond c t f => c.Plain ∧ t.Plain ∧ f.Plain
  | _ => False

/-- Every sum, difference and complement has `n` bits, and conditions are plain. -/
def WideFor (n : Nat) : WidthExpr → Prop
  | operand _ => True
  | add a b | sub a b => n ≤ max a.width b.width ∧ a.WideFor n ∧ b.WideFor n
  | mul a b | and a b | or a b | xor a b => a.WideFor n ∧ b.WideFor n
  | not a => n ≤ a.width ∧ a.WideFor n
  | cond c t f => c.Plain ∧ t.WideFor n ∧ f.WideFor n

section Agree

variable {ov : ExprValue → Nat}

theorem value_lt (h : ∀ v ∈ e.operands, ov v < 2 ^ v.width) : e.value ov < 2 ^ e.width := by
  have hpos (w : Nat) : 0 < 2 ^ w := Nat.pow_pos (by omega)
  have hmono {x w w' : Nat} (hx : x < 2 ^ w) (hw : w ≤ w') : x < 2 ^ w' :=
    lt_of_lt_of_le hx (Nat.pow_le_pow_right (by omega) hw)
  induction e with
  | operand v => exact h v (mem_singleton.mpr rfl)
  | add a b | sub a b => exact Nat.mod_lt _ (hpos _)
  | mul a b iha ihb =>
    simp only [operands, forall_mem_append] at h
    rw [value, width, Nat.pow_add]
    exact Nat.mul_lt_mul'' (iha h.1) (ihb h.2)
  | and a b iha ihb =>
    simp only [operands, forall_mem_append] at h
    exact Nat.and_lt_two_pow _ (hmono (ihb h.2) (le_max_right _ _))
  | or a b iha ihb =>
    simp only [operands, forall_mem_append] at h
    exact Nat.or_lt_two_pow (hmono (iha h.1) (le_max_left _ _)) (hmono (ihb h.2) (le_max_right _ _))
  | xor a b iha ihb =>
    simp only [operands, forall_mem_append] at h
    exact Nat.xor_lt_two_pow (hmono (iha h.1) (le_max_left _ _)) (hmono (ihb h.2) (le_max_right _ _))
  | not a ih =>
    have := hpos a.width
    rw [value, width]
    omega
  | cond c t f _ iht ihf =>
    simp only [operands, forall_mem_append] at h
    rw [value, width]
    split_ifs
    · exact hmono (iht h.1.2) (le_max_left _ _)
    · exact hmono (ihf h.2) (le_max_right _ _)

theorem Plain.valueAt_eq (h : e.Plain) (w : Nat) : e.valueAt ov w = e.value ov := by
  induction e with
  | operand v => rfl
  | add | sub | mul | not => exact h.elim
  | and a b iha ihb | or a b iha ihb | xor a b iha ihb => rw [valueAt, value, iha h.1, ihb h.2]
  | cond c t f ihc iht ihf => rw [valueAt, value, ihc h.1, iht h.2.1, ihf h.2.2]

theorem valueAt_lt {w : Nat} (h : ∀ v ∈ e.operands, ov v < 2 ^ w) : e.valueAt ov w < 2 ^ w := by
  have hpos : 0 < 2 ^ w := Nat.pow_pos (by omega)
  induction e with
  | operand v => exact h v (mem_singleton.mpr rfl)
  | add a b | sub a b | mul a b => exact Nat.mod_lt _ hpos
  | and a b iha ihb =>
    simp only [operands, forall_mem_append] at h
    exact Nat.and_lt_two_pow _ (ihb h.2)
  | or a b iha ihb =>
    simp only [operands, forall_mem_append] at h
    exact Nat.or_lt_two_pow (iha h.1) (ihb h.2)
  | xor a b iha ihb =>
    simp only [operands, forall_mem_append] at h
    exact Nat.xor_lt_two_pow (iha h.1) (ihb h.2)
  | not a ih =>
    rw [valueAt]
    omega
  | cond c t f _ iht ihf =>
    simp only [operands, forall_mem_append] at h
    rw [valueAt]
    split_ifs
    · exact iht h.1.2
    · exact ihf h.2

variable {x y : Nat}

theorem complement_mod (hn : n ≤ k) (hy : y ≤ 2 ^ k) :
    (((x + (2 ^ k - y)) % 2 ^ n : Nat) : Int) = ((x : Int) - y) % 2 ^ n := by
  have hsplit : (2 : Int) ^ k = 2 ^ n * 2 ^ (k - n) := by rw [← pow_add, Nat.add_sub_cancel' hn]
  push_cast [hy]
  rw [show (x : Int) + (2 ^ k - y) = x - y + 2 ^ k by ring, hsplit, Int.add_mul_emod_self_left]

theorem complement_congr {k' x' y' : Nat} (hn : n ≤ k) (hn' : n ≤ k') (hy : y ≤ 2 ^ k) (hy' : y' ≤ 2 ^ k')
    (hx : x % 2 ^ n = x' % 2 ^ n) (h : y % 2 ^ n = y' % 2 ^ n) :
    (x + (2 ^ k - y)) % 2 ^ n = (x' + (2 ^ k' - y')) % 2 ^ n := by
  have hcast {u v : Nat} (huv : u % 2 ^ n = v % 2 ^ n) : (u : Int) % 2 ^ n = (v : Int) % 2 ^ n := by
    exact_mod_cast huv
  have hint : (((x + (2 ^ k - y)) % 2 ^ n : Nat) : Int) = ((x' + (2 ^ k' - y')) % 2 ^ n : Nat) := by
    rw [complement_mod hn hy, complement_mod hn' hy', Int.sub_emod, hcast hx, hcast h, ← Int.sub_emod]
  exact_mod_cast hint

/-- Where every sum, difference and complement has `n` bits, the meanings agree modulo `2 ^ n`. -/
theorem value_mod_eq {w : Nat} (he : e.WideFor n) (hn : n ≤ w)
    (h : ∀ v ∈ e.operands, ov v < 2 ^ v.width ∧ v.width ≤ w) :
    e.value ov % 2 ^ n = e.valueAt ov w % 2 ^ n := by
  have hlt {e : WidthExpr} (h : ∀ v ∈ e.operands, ov v < 2 ^ v.width ∧ v.width ≤ w) :
      e.value ov < 2 ^ e.width ∧ e.valueAt ov w < 2 ^ w :=
    ⟨value_lt fun v hv => (h v hv).1,
      valueAt_lt fun v hv => lt_of_lt_of_le (h v hv).1 (Nat.pow_le_pow_right (by omega) (h v hv).2)⟩
  have hmod (x : Nat) {k : Nat} (hk : n ≤ k) : x % 2 ^ k % 2 ^ n = x % 2 ^ n :=
    Nat.mod_mod_of_dvd x (Nat.pow_dvd_pow 2 hk)
  induction e with
  | operand v => rfl
  | add a b iha ihb =>
    simp only [operands, forall_mem_append] at h
    rw [value, valueAt, hmod _ he.1, hmod _ hn, Nat.add_mod, iha he.2.1 h.1, ihb he.2.2 h.2, ← Nat.add_mod]
  | sub a b iha ihb =>
    simp only [operands, forall_mem_append] at h
    have hb := hlt h.2
    have hle : b.value ov ≤ 2 ^ max a.width b.width :=
      (hb.1.le).trans (Nat.pow_le_pow_right (by omega) (le_max_right _ _))
    rw [value, valueAt, hmod _ he.1, hmod _ hn]
    exact complement_congr he.1 hn hle hb.2.le (iha he.2.1 h.1) (ihb he.2.2 h.2)
  | mul a b iha ihb =>
    simp only [operands, forall_mem_append] at h
    rw [value, valueAt, hmod _ hn, Nat.mul_mod, iha he.1 h.1, ihb he.2 h.2, ← Nat.mul_mod]
  | and a b iha ihb =>
    simp only [operands, forall_mem_append] at h
    rw [value, valueAt, Nat.and_mod_two_pow, Nat.and_mod_two_pow, iha he.1 h.1, ihb he.2 h.2]
  | or a b iha ihb =>
    simp only [operands, forall_mem_append] at h
    rw [value, valueAt, Nat.or_mod_two_pow, Nat.or_mod_two_pow, iha he.1 h.1, ihb he.2 h.2]
  | xor a b iha ihb =>
    simp only [operands, forall_mem_append] at h
    rw [value, valueAt, Nat.xor_mod_two_pow, Nat.xor_mod_two_pow, iha he.1 h.1, ihb he.2 h.2]
  | not a ih =>
    have ha := hlt (e := a) h
    have hcompl (k x : Nat) : 2 ^ k - 1 - x = 0 + (2 ^ k - (x + 1)) := by omega
    have hsucc : (a.value ov + 1) % 2 ^ n = (a.valueAt ov w + 1) % 2 ^ n := by
      rw [Nat.add_mod, ih he.2 h, ← Nat.add_mod]
    rw [value, valueAt, hcompl, hcompl]
    exact complement_congr he.1 hn ha.1 ha.2 rfl hsucc
  | cond c t f _ iht ihf =>
    simp only [operands, forall_mem_append] at h
    rw [value, valueAt, he.1.valueAt_eq]
    split_ifs
    · exact iht he.2.1 h.1.2
    · exact ihf he.2.2 h.2

end Agree

end WidthExpr

section Spec

variable {N : List ExprNode} (values : List LogicT) {m : ExprBuilder}

/-- The value has `w` known bits, those of the number `x`, and no sign. -/
structure Carries (N : List ExprNode) (values : List LogicT) (w x : Nat) (v : ExprValue) (m : ExprBuilder) : Prop where
  validIn : ValidIn m v
  isSigned : v.isSigned = false
  bits : ∃ bits, valuesOf N values v = bitVals bits ∧ bits.length = w ∧ value bits = x

variable {v : ExprValue}

theorem Carries.mono {w x : Nat} {m' : ExprBuilder} (h : Carries N values w x v m) (hle : m.size ≤ m'.size) :
    Carries N values w x v m' :=
  ⟨h.validIn.mono hle, h.isSigned, h.bits⟩

theorem Carries.width {w x : Nat} (h : Carries N values w x v m) : v.width = w := by
  obtain ⟨bits, hv, hlen, -⟩ := h.bits
  rw [← length_valuesOf (N := N) values, hv, length_bitVals, hlen]

variable {vs : List LogicT}

theorem HasValue.carries {w x : Nat} (h : HasValue N values false vs v m) (hw : 0 < w)
    (hvs : ∃ bits, vs = bitVals bits ∧ bits.length = w ∧ value bits = x) : Carries N values w x v m := by
  obtain ⟨bits, rfl, hlen, hval⟩ := hvs
  exact ⟨h.validIn values (by rw [length_bitVals]; omega), h.isSigned, bits, h.hasAll.2, hlen, hval⟩

theorem IsNumber.bits {w x : Nat} {z : Int} (h : IsNumber w z vs) (hz : z % 2 ^ w = x) :
    ∃ bits, vs = bitVals bits ∧ bits.length = w ∧ value bits = x := by
  obtain ⟨bits, hvs, hlen, hval⟩ := h
  exact ⟨bits, hvs, hlen, by exact_mod_cast hval.trans hz⟩

theorem spec_limitWidth_over {α : Type} {w : Nat} (msg : String) (h : maxConcatBits < w) {f : Nat → Build α}
    [∀ w, Grows (f w)] {Q : α → ExprBuilder → Prop} : Spec N m (limitWidth w msg >>= f) Q := by
  have hrun : limitWidth w msg >>= f = reportError msg >>= fun _ => f (min w maxConcatBits) := by
    unfold limitWidth
    rw [if_pos h]
    rfl
  rw [hrun]
  exact spec_reportError msg

section Operators

variable {a b : ExprValue} {w w' x y : Nat} (ha : Carries N values w x a m) (hb : Carries N values w' y b m)

include ha in
theorem Carries.width_pos : 0 < w := ha.width values ▸ ha.validIn.width_pos

include ha hb

theorem Carries.binary {f : Bool → List LogicT → List LogicT → List LogicT} {op : Build ExprValue} {k r : Nat}
    (hk : 0 < k)
    (hop : Spec N m op (HasValue N values (signedOp a b)
    (f (signedOp a b) (valuesOf N values a) (valuesOf N values b))))
    (hf : ∀ as bs, as.length = w → bs.length = w' → value as = x → value bs = y →
      ∃ bits, f false (bitVals as) (bitVals bs) = bitVals bits ∧ bits.length = k ∧ value bits = r) :
    Spec N m op (Carries N values k r) := by
  apply hop.imp
  intro v m₁ hv
  obtain ⟨as, hav, hla, hxa⟩ := ha.bits
  obtain ⟨bs, hbv, hlb, hyb⟩ := hb.bits
  rw [signedOp, ha.isSigned, Bool.false_and, hav, hbv] at hv
  exact hv.carries values hk (hf as bs hla hlb hxa hyb)

theorem spec_add : Spec N m (arithAdd a b) (Carries N values (max w w') ((x + y) % 2 ^ max w w')) := by
  have hwa := ha.width
  have hwb := hb.width
  have hpos := ha.width_pos
  by_cases hlim : max a.width b.width ≤ maxConcatBits
  · refine ha.binary values hb (by omega) (f := sumVals id .L) (spec_arithAdd values ha.validIn hb.validIn hlim) ?_
    rintro as bs rfl rfl rfl rfl
    apply (isNumber_add false as bs).bits
    push_cast
    rfl
  · exact spec_limitWidth_over (f := sumBody pure .L a b) _ (by omega)

theorem spec_sub (hy : y < 2 ^ w') :
    Spec N m (arithSub a b) (Carries N values (max w w') ((x + (2 ^ max w w' - y)) % 2 ^ max w w')) := by
  have hwa := ha.width
  have hwb := hb.width
  have hpos := ha.width_pos
  by_cases hlim : max a.width b.width ≤ maxConcatBits
  · refine ha.binary values hb (by omega) (f := sumVals logicNot .H) (spec_arithSub values ha.validIn hb.validIn hlim)
      ?_
    rintro as bs rfl rfl rfl rfl
    apply (isNumber_sub false as bs).bits
    rw [WidthExpr.complement_mod (Nat.le_refl _) (hy.le.trans (Nat.pow_le_pow_right (by omega) (le_max_right _ _)))]
    rfl
  · exact spec_limitWidth_over (f := sumBody makeNot .H a b) _ (by omega)

theorem spec_mul (hx : x < 2 ^ w) (hy : y < 2 ^ w') : Spec N m (arithMul a b) (Carries N values (w + w') (x * y)) := by
  have hwa := ha.width
  have hwb := hb.width
  have hpos := ha.width_pos
  by_cases hlim : a.width + b.width ≤ maxConcatBits
  · refine ha.binary values hb (by omega) (f := mulVals) (spec_arithMul values ha.validIn hb.validIn hlim) ?_
    rintro as bs rfl rfl rfl rfl
    apply (isNumber_mul false as bs).bits
    have hlt : value as * value bs < 2 ^ (as.length + bs.length) := by
      rw [Nat.pow_add]
      exact Nat.mul_lt_mul'' hx hy
    have hmod : ((value as * value bs % 2 ^ (as.length + bs.length) : Nat) : Int) = (value as * value bs : Nat) := by
      rw [Nat.mod_eq_of_lt hlt]
    push_cast at hmod ⊢
    exact hmod
  · rw [arithMul_limited]
    exact spec_limitWidth_over _ (by omega)

variable {g : LogicT → LogicT → LogicT} {f : Bool → Bool → Bool}

omit ha hb in
theorem bitVals_zipWith
    (hg : ∀ s t, g (ofBool s) (ofBool t) = ofBool (f s t)) {as bs : List Bool} (hlen : as.length = bs.length) :
    List.zipWith g (bitVals as) (bitVals bs) = bitVals (List.zipWith f as bs) := by
  rw [bitVals, bitVals, bitVals, ← reverse_zipWith (by simpa using hlen), zipWith_map, map_zipWith]
  congr 2
  funext s t
  exact hg s t

omit ha hb in
instance (k : Nat → Nat → ExprNode) (a b : ExprValue) : Grows (bitwiseBinary a b k) := by
  show Grows (resizeOperands a b _ _ >>= fun p => _)
  infer_instance

omit ha hb in
instance (k : Nat → ExprNode) (a : ExprValue) : Grows (bitwiseUnary a k) := by
  unfold bitwiseUnary
  infer_instance

omit ha hb in
theorem bitwiseBinary_eq {k : Nat → Nat → ExprNode} (a b : ExprValue) (hpos : 0 < max a.width b.width) :
    bitwiseBinary a b k = (do
      let p ← resizeOperands a b (max a.width b.width) (signedOp a b)
      if max a.width b.width ≤ 1 then do
        let r ← addNode (k (p.1.headD sizeMax) (p.2.headD sizeMax))
        pure (makeScalar r 0 0 (signedOp a b))
      else do
        let rs ← (p.1.zip p.2).mapM fun q => addNode (k q.1 q.2)
        makeVector rs (signedOp a b)) := by
  unfold bitwiseBinary
  have hone : (max a.width b.width = 1) = (max a.width b.width ≤ 1) := propext ⟨fun h => h.le, fun h => by omega⟩
  refine bind_congr fun p => ?_
  dsimp only
  congr 1

theorem spec_bitwise {k : Nat → Nat → ExprNode}
    {op : Nat → Nat → Nat}
    (hk : ∀ (r s : Nat) (m' : ExprBuilder), r < m'.size → s < m'.size →
      Spec N m' (addNode (k r s)) (Has N values (g (rootVal N values r) (rootVal N values s))))
    (hg : ∀ s t, g (ofBool s) (ofBool t) = ofBool (f s t))
    (hop : ∀ s n t n', op (Nat.bit s n) (Nat.bit t n') = Nat.bit (f s t) (op n n')) (hzero : op 0 0 = 0) :
    Spec N m (bitwiseBinary a b k) (Carries N values (max w w') (op x y)) := by
  have hwa := ha.width
  have hwb := hb.width
  have hpos := ha.width_pos
  refine ha.binary values hb (by omega) (f := fun sgn as bs => zipWith g (resizeVals sgn (max as.length bs.length) as)
    (resizeVals sgn (max as.length bs.length) bs)) ?_ ?_
  · rw [bitwiseBinary_eq a b (by omega)]
    apply (spec_resizeOperands values (signedOp a b) ha.validIn.lt hb.validIn.lt ha.validIn.ne_nil hb.validIn.ne_nil
      (w := max a.width b.width) (by omega)).bind
    rintro p m₁ h₁ ⟨hp, hq⟩
    rw [← valuesOf] at hp hq
    have hlp := (hp.length values).trans (length_resizeVals _ _ _)
    have hlq := (hq.length values).trans (length_resizeVals _ _ _)
    rw [length_valuesOf, length_valuesOf]
    refine spec_pairBits values (k := fun r s => addNode (k r s)) (by omega) hlp hlq
      (by rw [length_zipWith, length_resizeVals, length_resizeVals, Nat.min_self]) ?_ _
    rw [← hp.2, ← hq.2, zipWith_map, ← map_uncurry_zip_eq_zipWith]
    refine spec_mapM values _ fun q hqz m' hle => ?_
    obtain ⟨hq1, hq2⟩ := of_mem_zip hqz
    exact hk _ _ m' (lt_of_lt_of_le (hp.1 _ hq1) hle) (lt_of_lt_of_le (hq.1 _ hq2) hle)
  · rintro as bs rfl rfl rfl rfl
    have hla := length_extend false (le_max_left as.length bs.length)
    have hlb := length_extend false (le_max_right as.length bs.length)
    rw [length_bitVals, length_bitVals, resizeVals_bitVals false (le_max_left _ _),
      resizeVals_bitVals false (le_max_right _ _),
      bitVals_zipWith hg (hla.trans hlb.symm)]
    refine ⟨_, rfl, ?_, ?_⟩
    · rw [length_zipWith, hla, hlb, Nat.min_self]
    · rw [value_zipWith hop hzero (hla.trans hlb.symm), value_extend_false, value_extend_false]

end Operators

theorem spec_complement {a : ExprValue} {w x : Nat} (ha : Carries N values w x a m) :
    Spec N m (bitwiseUnary a .unaryNot) (Carries N values w (2 ^ w - 1 - x)) := by
  have hpos := ha.width_pos
  obtain ⟨as, hav, rfl, rfl⟩ := ha.bits
  have hnot : (valuesOf N values a).map logicNot = bitVals (as.map not) := by
    rw [hav, bitVals, bitVals, map_reverse, List.map_map, List.map_map]
    congr 1
    exact map_congr_left fun b _ => logicNot_ofBool b
  have hbits : ∃ bits, bitVals (as.map not) = bitVals bits ∧ bits.length = as.length ∧
      value bits = 2 ^ as.length - 1 - value as := by
    have hsum := value_map_not as
    exact ⟨_, rfl, length_map _, by omega⟩
  have hroots : Spec N m (a.roots.mapM fun r => addNode (.unaryNot r)) (HasAll N values (bitVals (as.map not))) := by
    rw [← hnot, valuesOf, List.map_map]
    exact spec_mapM values _ fun r hr m' hle => spec_makeNot values (lt_of_lt_of_le (ha.validIn.lt r hr) hle)
  have hlen : 0 < (bitVals (as.map not)).length := by
    rw [length_bitVals, length_map]
    exact hpos
  have hdone : Spec N m (a.roots.mapM (fun r => addNode (.unaryNot r)) >>= fun rs => makeVector rs false)
      (Carries N values as.length (2 ^ as.length - 1 - value as)) := by
    apply hroots.bind
    intro rs m₁ h₁ hrs
    apply (spec_finish values false hrs hlen).imp
    intro v m₂ hv
    exact hv.carries values hpos hbits
  rw [bitwiseUnary, ha.isSigned]
  cases hvec : a.isVector with
  | true =>
    rw [ExprValue.roots, hvec, if_pos rfl] at hdone
    exact hdone
  | false =>
    rw [ExprValue.roots, hvec, if_neg Bool.false_ne_true, mapM_cons, mapM_nil] at hdone
    exact hdone

theorem any_id_iff (bits : List Bool) : bits.any id = true ↔ value bits ≠ 0 := by
  induction bits with
  | nil => simp
  | cons b bits ih =>
    rw [any_cons, Bool.or_eq_true, ih, value_cons]
    cases b with
    | true => simp
    | false => simp

theorem map_normalizeZToX_bitVals (bits : List Bool) : (bitVals bits).map normalizeZToX = bitVals bits := by
  rw [map_normalizeZToX_eq_self]
  intro hz
  obtain ⟨b, -, hb⟩ := mem_map.mp (mem_reverse.mp hz)
  cases b <;> cases hb

theorem spec_conditional {c t f : ExprValue} {wc wt wf x y z : Nat} (hc : Carries N values wc x c m)
    (ht : Carries N values wt y t m) (hf : Carries N values wf z f m) :
    Spec N m (makeConditional c t f) (Carries N values (max wt wf) (if x ≠ 0 then y else z)) := by
  have hwt := ht.width
  have hwf := hf.width
  have hpos := ht.width_pos
  obtain ⟨cs, hcv, -, hx⟩ := hc.bits
  rw [bitVals, ← map_reverse] at hcv
  apply (spec_makeConditional values hc.validIn ht.validIn hf.validIn hcv).imp
  intro v m₁ hv
  have hchosen {u : ExprValue} {w r : Nat} (hu : Carries N values w r u m) (hle : w ≤ max wt wf) :
      ∃ bits, (resizeVals false (max wt wf) (valuesOf N values u)).map normalizeZToX = bitVals bits ∧
        bits.length = max wt wf ∧ value bits = r := by
    obtain ⟨us, huv, rfl, rfl⟩ := hu.bits
    rw [huv, resizeVals_bitVals false hle, map_normalizeZToX_bitVals]
    exact ⟨_, rfl, length_extend false hle, value_extend_false _ _⟩
  have hany : cs.reverse.any id = true ↔ x ≠ 0 := by
    rw [any_reverse, any_id_iff, hx]
  rw [signedOp, ht.isSigned, Bool.false_and, hwt, hwf] at hv
  by_cases hne : x ≠ 0
  · rw [hany.mpr hne, if_pos rfl] at hv
    rw [if_pos hne]
    exact hv.carries values (by omega) (hchosen ht (le_max_left _ _))
  · rw [Bool.eq_false_iff.mpr fun h => hne (hany.mp h), if_neg Bool.false_ne_true] at hv
    rw [if_neg hne]
    exact hv.carries values (by omega) (hchosen hf (le_max_right _ _))

instance (e : WidthExpr) : Grows e.build := by
  induction e with
  | operand v =>
    rw [WidthExpr.build]
    infer_instance
  | not a ih =>
    rw [WidthExpr.build]
    infer_instance
  | add a b iha ihb | sub a b iha ihb | mul a b iha ihb | and a b iha ihb | or a b iha ihb | xor a b iha ihb =>
    rw [WidthExpr.build]
    infer_instance
  | cond c t f ihc iht ihf =>
    rw [WidthExpr.build]
    infer_instance

theorem Carries.lt {w x : Nat} (h : Carries N values w x v m) : x < 2 ^ w := by
  obtain ⟨bits, -, rfl, rfl⟩ := h.bits
  exact BitNumbers.value_lt bits

theorem spec_operands {a b : WidthExpr} {op : ExprValue → ExprValue → Build ExprValue} [∀ u v, Grows (op u v)]
    {wa wb x y : Nat} {Q : ExprValue → ExprBuilder → Prop} (ha : Spec N m a.build (Carries N values wa x))
    (hb : ∀ m', m.size ≤ m'.size → Spec N m' b.build (Carries N values wb y))
    (hop : ∀ u v m', Carries N values wa x u m' → Carries N values wb y v m' → Spec N m' (op u v) Q) :
    Spec N m (do op (← a.build) (← b.build)) Q := by
  apply ha.bind
  intro u m₁ h₁ hu
  apply (hb m₁ h₁).bind
  intro v m₂ h₂ hv
  exact hop u v m₂ (hu.mono values h₂) hv

variable {ov : ExprValue → Nat}

theorem spec_build (h : ∀ v ∈ e.operands, Carries N values v.width (ov v) v m) :
    Spec N m e.build (Carries N values e.width (e.value ov)) := by
  have hlater {vs : List ExprValue} {m m' : ExprBuilder} (h : ∀ v ∈ vs, Carries N values v.width (ov v) v m)
      (hle : m.size ≤ m'.size) : ∀ v ∈ vs, Carries N values v.width (ov v) v m' := fun v hv => (h v hv).mono values hle
  induction e generalizing m with
  | operand v => exact Spec.pure (h v (mem_singleton.mpr rfl))
  | add a b iha ihb =>
    rw [WidthExpr.operands, forall_mem_append] at h
    exact spec_operands values (iha h.1) (fun m' hle => ihb (hlater h.2 hle)) fun u v m' hu hv => spec_add values hu hv
  | sub a b iha ihb =>
    rw [WidthExpr.operands, forall_mem_append] at h
    exact spec_operands values (iha h.1) (fun m' hle => ihb (hlater h.2 hle)) fun u v m' hu hv =>
      spec_sub values hu hv (hv.lt values)
  | mul a b iha ihb =>
    rw [WidthExpr.operands, forall_mem_append] at h
    exact spec_operands values (iha h.1) (fun m' hle => ihb (hlater h.2 hle)) fun u v m' hu hv =>
      spec_mul values hu hv (hu.lt values) (hv.lt values)
  | and a b iha ihb =>
    rw [WidthExpr.operands, forall_mem_append] at h
    exact spec_operands values (iha h.1) (fun m' hle => ihb (hlater h.2 hle)) fun u v m' hu hv =>
      spec_bitwise values hu hv (fun r s m' hr hs => spec_makeAnd values hr hs) logicAnd_ofBool Nat.land_bit rfl
  | or a b iha ihb =>
    rw [WidthExpr.operands, forall_mem_append] at h
    exact spec_operands values (iha h.1) (fun m' hle => ihb (hlater h.2 hle)) fun u v m' hu hv =>
      spec_bitwise values hu hv (fun r s m' hr hs => spec_makeOr values hr hs) logicOr_ofBool Nat.lor_bit rfl
  | xor a b iha ihb =>
    rw [WidthExpr.operands, forall_mem_append] at h
    exact spec_operands values (iha h.1) (fun m' hle => ihb (hlater h.2 hle)) fun u v m' hu hv =>
      spec_bitwise values hu hv (fun r s m' hr hs => spec_makeXor values hr hs) logicXor_ofBool Nat.xor_bit rfl
  | not a ih =>
    apply (ih h).bind
    intro u m₁ h₁ hu
    exact spec_complement values hu
  | cond c t f ihc iht ihf =>
    rw [WidthExpr.operands, forall_mem_append, forall_mem_append] at h
    apply (ihc h.1.1).bind
    intro u m₁ h₁ hu
    apply (iht (hlater h.1.2 h₁)).bind
    intro v m₂ h₂ hv
    apply (ihf (hlater h.2 (h₁.trans h₂))).bind
    intro v' m₃ h₃ hv'
    exact spec_conditional values (hu.mono values (h₂.trans h₃)) (hv.mono values h₃) hv'

theorem resizeVals_false_bitVals (n : Nat) (bits : List Bool) :
    resizeVals false n (bitVals bits) = bitVals ((List.range n).map (value bits).testBit) := by
  have hlen : ((List.range n).map (value bits).testBit).length = n := by rw [length_map, length_range]
  rcases Nat.lt_or_ge n bits.length with hlt | hge
  · have hdrop : resizeVals false n (bitVals bits) = bitVals (bits.take n) := by
      rw [resizeVals_of_le false (by rw [length_bitVals]; omega), length_bitVals, bitVals, bitVals, drop_reverse,
        length_map, Nat.sub_sub_self hlt.le, map_take]
    rw [hdrop]
    congr 1
    apply eq_of_value_eq
    · rw [hlen, length_take, Nat.min_eq_left hlt.le]
    · rw [value_take, value_testBits]
  · rw [resizeVals_bitVals false hge]
    congr 1
    apply eq_of_value_eq
    · rw [hlen, length_extend false hge]
    · rw [value_extend_false, value_testBits,
        Nat.mod_eq_of_lt (lt_of_lt_of_le (BitNumbers.value_lt bits) (Nat.pow_le_pow_right (by omega) hge))]

/-- The roots of the right side for a left side of `n` bits, in `parse_proc_stmt` and in
`parse_assign_stmt`. -/
def assignRoots (n : Nat) (e : WidthExpr) : Build (List Nat) := do
  let res ← e.build
  resizeToVector res n res.isSigned

instance (n : Nat) (e : WidthExpr) : Grows (assignRoots n e) := by
  unfold assignRoots
  infer_instance

/-- The low bits of a number, from the most significant one on. -/
def lowBitVals (n x : Nat) : List LogicT := bitVals ((List.range n).map x.testBit)

theorem spec_assignRoots (hn : 0 < n) (h : ∀ v ∈ e.operands, Carries N values v.width (ov v) v m) :
    Spec N m (assignRoots n e) (HasAll N values (lowBitVals n (e.value ov))) := by
  apply (spec_build values h).bind
  intro v m₁ h₁ hv
  obtain ⟨bits, hbits, -, hval⟩ := hv.bits
  rw [lowBitVals, ← hval, ← resizeVals_false_bitVals, ← hbits, hv.isSigned]
  exact spec_resizeToVector values v false hv.validIn.lt hv.validIn.ne_nil hn

end Spec

def numberOf (vs : List LogicT) : Nat := value (vs.reverse.map fun v => decide (v = .H))

theorem numberOf_bitVals (bits : List Bool) : numberOf (bitVals bits) = value bits := by
  rw [numberOf, bitVals, reverse_reverse, List.map_map]
  congr 1
  refine (map_congr_left fun b _ => ?_).trans (map_id _)
  cases b <;> rfl

structure KnownOperand (m : ExprBuilder) (values : List LogicT) (v : ExprValue) : Prop where
  validIn : ValidIn m v
  isSigned : v.isSigned = false
  bits : ∃ bits, m.denote v values = bitVals bits

/-- The width of an assignment to `n` bits: the widest of the left side and the operands. -/
def WidthExpr.assignWidth (n : Nat) (e : WidthExpr) : Nat := (e.operands.map ExprValue.width).foldr max n

theorem WidthExpr.le_assignWidth (n : Nat) (e : WidthExpr) :
    n ≤ e.assignWidth n ∧ ∀ v ∈ e.operands, v.width ≤ e.assignWidth n := by
  rw [assignWidth]
  generalize e.operands = vs
  induction vs with
  | nil => exact ⟨Nat.le_refl n, fun v hv => by cases hv⟩
  | cons v vs ih =>
    rw [map_cons, foldr_cons, forall_mem_cons]
    exact ⟨ih.1.trans (le_max_right _ _), le_max_left _ _, fun u hu => (ih.2 u hu).trans (le_max_right _ _)⟩

def continuousAssigns (lhs roots : List Nat) : List ContinuousAssign :=
  (lhs.zip roots).map fun p => { lhsSignal := p.1, exprRoot := p.2 }

/-- The state after a procedural assignment of `writes` without delay: they are done or queued. -/
def ModuleState.receive (st : ModuleState) (nonblocking : Bool) (writes : List (Nat × LogicT)) : ModuleState :=
  if nonblocking then { st with nbaQueue := st.nbaQueue ++ writes } else (st.assignAll writes).1

variable {cm : CompiledModule}

theorem execAssign_receive {a : Assign} {x : Exec} {bits : List LogicT} (hdelay : a.delayTicks = 0)
    (hne : a.lhs ≠ []) (hlhs : ∀ s ∈ a.lhs, s < x.st.values.length)
    (hbits : a.rhs.map (evalExpr cm · x.st.values) = bits)
    (hlen : bits.length = a.lhs.length) (tick : UInt64) :
    (execAssign cm tick a x).st = x.st.receive a.nonblocking (a.lhs.zip bits) := by
  have hwrites : sampleWrites cm x.st a.lhs a.rhs = a.lhs.zip bits := by rw [← hbits, sampleWrites]
  have hall : existing x.st (a.lhs.zip bits) = a.lhs.zip bits := by
    rw [existing, filter_eq_self]
    exact fun w hw => decide_eq_true (hlhs _ (of_mem_zip hw).1)
  have hrhs : a.lhs.length = a.rhs.length := by rw [← hlen, ← hbits, length_map]
  have hhead : ¬ (a.isVector = false ∧ x.st.values.length ≤ a.lhs.headD 0) := by
    obtain ⟨s, ss, hs⟩ := exists_cons_of_ne_nil hne
    have := hlhs s (hs ▸ mem_cons_self)
    rw [hs, headD_cons]
    omega
  unfold execAssign ModuleState.receive
  rw [if_neg (by simp [hrhs, hne]), if_neg hhead, if_neg (by simp [hdelay]), hwrites, hall]
  split_ifs
  · rfl
  · rfl

/-- The left side receives the low bits of the value that the expression has with every operator
at its own width. Where every sum, difference and complement is as wide as the left side, they
are the bits of the value modulo the width of the assignment. -/
theorem assign_own_widths {e : WidthExpr} {m : ExprBuilder} (hord : OperandsFirst m.exprNodes) {values : List LogicT}
    (hops : ∀ v ∈ e.operands, KnownOperand m values v) {lhs : List Nat} (hlhs : lhs ≠ [])
    (hquiet : NoError (assignRoots lhs.length e) m)
    (hnodes : (assignRoots lhs.length e m).2.exprNodes <+: cm.exprNodes) {roots : List Nat}
    (hroots : roots = (assignRoots lhs.length e m).1) {ov : ExprValue → Nat}
    (hov : ov = fun v => numberOf (m.denote v values)) :
    (∀ (a : Assign) (tick : UInt64) (x : Exec), a.lhs = lhs → a.rhs = roots → a.delayTicks = 0 → x.st.values = values →
      (∀ s ∈ lhs, s < values.length) →
        (execAssign cm tick a x).st = x.st.receive a.nonblocking (lhs.zip (lowBitVals lhs.length (e.value ov)))) ∧
    (continuousAssigns lhs roots).map (fun a => (a.lhsSignal, evalExpr cm a.exprRoot values)) =
      lhs.zip (lowBitVals lhs.length (e.value ov)) ∧
    (e.WideFor lhs.length →
      lowBitVals lhs.length (e.value ov) = lowBitVals lhs.length (e.valueAt ov (e.assignWidth lhs.length))) := by
  have hpre : m.exprNodes <+: cm.exprNodes :=
    (Grows.grew (x := assignRoots lhs.length e) m).nodes.trans hnodes
  have hcarries : ∀ v ∈ e.operands, Carries cm.exprNodes values v.width (ov v) v m := by
    intro v hv
    obtain ⟨hvalid, hsigned, bits, hbits⟩ := hops v hv
    refine ⟨hvalid, hsigned, bits, ?_, ?_, ?_⟩
    · rw [hvalid.valuesOf_eq hord hpre, hbits]
    · rw [← length_denote (m := m) v values, hbits, length_bitVals]
    · rw [hov]
      dsimp only
      rw [hbits, numberOf_bitVals]
  obtain ⟨-, -, hvals⟩ := spec_assignRoots values (List.length_pos_iff.mpr hlhs) hcarries hord hnodes hquiet
  rw [← hroots] at hvals
  refine ⟨?_, ?_, ?_⟩
  · rintro a tick x rfl rfl hdelay rfl hexist
    exact execAssign_receive hdelay hlhs hexist hvals
      (by rw [lowBitVals, length_bitVals, List.length_map, List.length_range]) tick
  · rw [continuousAssigns, List.map_map, ← hvals, List.zip_map_right]
    rfl
  · intro hwide
    obtain ⟨hle, hwidths⟩ := e.le_assignWidth lhs.length
    have hmod : e.value ov % 2 ^ lhs.length = e.valueAt ov (e.assignWidth lhs.length) % 2 ^ lhs.length :=
      WidthExpr.value_mod_eq hwide hle fun v hv => ⟨(hcarries v hv).lt values, hwidths v hv⟩
    rw [lowBitVals, lowBitVals]
    congr 1
    apply eq_of_value_eq
    · rw [List.length_map, List.length_map]
    · rw [value_testBits, value_testBits, hmod]

def assignPair (lhs roots : List Nat) : Assign where
  nonblocking := false
  isVector := true
  lhs := lhs
  rhs := roots
  scalar := nofun

def bitPair (r : Nat) : ExprValue := { isVector := true, vectorRoots := [r, r + 1], msb := 1 }

def pairAnd : WidthExpr := .and (.operand (bitPair 0)) (.operand (bitPair 2))

def pairModule : CompiledModule where
  exprNodes := operandArena.exprNodes ++ [.binaryAnd 0 2, .binaryAnd 1 3]
  operands_first := by decide +kernel

/-- Two bits receive the conjunction of two pairs. -/
theorem assign_own_widths_pairAnd :
    (execAssign pairModule 0 (assignPair [4, 5] [5, 6]) { st := { values := [.L, .H, .H, .H, .L, .L] } }).st.values =
      [.L, .H, .H, .H, .L, .H] := by
  have hord : OperandsFirst operandArena.exprNodes := by
    intro i n hi c hc
    obtain ⟨s, -, rfl⟩ := List.mem_map.mp (List.mem_of_getElem? hi)
    cases hc
  have hpair (r : Nat) (hr : r + 1 < 5) {bits : List Bool}
      (h : operandArena.denote (bitPair r) [.L, .H, .H, .H, .L, .L] = bitVals bits) :
      KnownOperand operandArena [.L, .H, .H, .H, .L, .L] (bitPair r) := by
    refine ⟨⟨fun q hq => ?_, List.cons_ne_nil _ _⟩, rfl, bits, h⟩
    have hroots : (bitPair r).roots = [r, r + 1] := rfl
    rw [hroots, List.mem_cons, List.mem_singleton] at hq
    show q < 5
    omega
  have hops : ∀ v ∈ pairAnd.operands, KnownOperand operandArena [.L, .H, .H, .H, .L, .L] v := by
    have hoperands : pairAnd.operands = [bitPair 0, bitPair 2] := rfl
    have hfst : operandArena.denote (bitPair 0) [.L, .H, .H, .H, .L, .L] = bitVals [true, false] := by decide +kernel
    have hsnd : operandArena.denote (bitPair 2) [.L, .H, .H, .H, .L, .L] = bitVals [true, true] := by decide +kernel
    rw [hoperands, List.forall_mem_cons, List.forall_mem_singleton]
    exact ⟨hpair 0 (by omega) hfst, hpair 2 (by omega) hsnd⟩
  have hquiet : NoError (assignRoots 2 pairAnd) operandArena := by decide +kernel
  have hnodes : (assignRoots 2 pairAnd operandArena).2.exprNodes <+: pairModule.exprNodes := by decide +kernel
  have hroots : [5, 6] = (assignRoots 2 pairAnd operandArena).1 := by decide +kernel
  have hlhs : [4, 5] ≠ [] := List.cons_ne_nil _ _
  have hresult := (assign_own_widths hord hops hlhs hquiet hnodes hroots rfl).1
    (assignPair [4, 5] [5, 6]) 0 { st := { values := [.L, .H, .H, .H, .L, .L] } } rfl rfl rfl rfl (by decide)
  rw [hresult]
  decide +kernel

def bitSum : WidthExpr := .add (.operand (makeBit 0)) (.operand (makeBit 1))

def bitSumModule : CompiledModule where
  exprNodes := (assignRoots 2 bitSum operandArena).2.exprNodes
  operands_first := by decide +kernel

/-- `{c, s} = a + b` loses the carry of `1 + 1`. -/
theorem bitSum_loses_carry :
    (execAssign bitSumModule 0 (assignPair [2, 3] (assignRoots 2 bitSum operandArena).1) { st :=
    { values := [.H, .H, .L, .L] } }).st.values =
        [.H, .H, .L, .L] ∧
      bitSum.assignWidth 2 = 2 ∧
      lowBitVals 2 (bitSum.valueAt (fun v => numberOf (operandArena.denote v [.H, .H, .L, .L])) 2) = [.H, .L] := by
  decide +kernel

end PhyEngine.Verilog
