import PhyEngine.Library.BitNumbers
import PhyEngine.Verilog.ExprSound

/-!
# Arithmetic on lists of bits

What the lowered operators compute, bit by bit in four-valued logic. Lists of values are
ordered as the roots of an expression, from the most significant bit on, and the chains of
full adders run from the least significant one on.
-/

namespace PhyEngine.Verilog

open LogicT BitNumbers List

/-- The carry chain of `arith_add` and `arith_sub`. -/
def rippleVals : List (LogicT × LogicT) → LogicT → List LogicT
  | [], _ => []
  | (a, b) :: ps, c =>
    logicXor (logicXor a b) c ::
      rippleVals ps (logicOr (logicOr (logicAnd a b) (logicAnd a c)) (logicAnd b c))

theorem rippleVals_cons (a b : LogicT) (ps : List (LogicT × LogicT)) (c : LogicT) :
    rippleVals ((a, b) :: ps) c = logicXor (logicXor a b) c ::
      rippleVals ps (logicOr (logicOr (logicAnd a b) (logicAnd a c)) (logicAnd b c)) := rfl

def maskVals (as bs vs : List LogicT) : List LogicT :=
  vs.map (muxVal (ofBool (as.any isUnknown || bs.any isUnknown)) .X)

/-- The bits of a sum: `g` is what happens to the second operand, `c` the carry in. -/
def sumVals (g : LogicT → LogicT) (c : LogicT) (sgn : Bool) (as bs : List LogicT) : List LogicT :=
  let w := max as.length bs.length
  maskVals as bs (rippleVals ((resizeVals sgn w as).zip ((resizeVals sgn w bs).map g)).reverse c).reverse

variable {g : LogicT → LogicT}

section Spec

variable {N : List ExprNode} (values : List LogicT) {m : ExprBuilder}

def rippleStep (invert : Nat → Build Nat) (st : Nat × List Nat) (p : Nat × Nat) : Build (Nat × List Nat) := do
  let bi ← invert p.2
  let axb ← makeXor p.1 bi
  let s ← makeXor axb st.1
  let t1 ← makeAnd p.1 bi
  let t2 ← makeAnd p.1 st.1
  let t3 ← makeAnd bi st.1
  let t ← makeOr t1 t2
  let c ← makeOr t t3
  return (c, s :: st.2)

theorem rippleCarry_eq (invert : Nat → Build Nat) (av bv : List Nat) (carry : Nat) :
    rippleCarry invert av bv carry =
      (av.zip bv).reverse.foldlM (rippleStep invert) (carry, []) >>= fun p => pure p.2 := rfl

instance (invert : Nat → Build Nat) [∀ b, Grows (invert b)] (st : Nat × List Nat) (p : Nat × Nat) :
    Grows (rippleStep invert st p) := by
  unfold rippleStep
  infer_instance

instance (invert : Nat → Build Nat) [∀ b, Grows (invert b)] (av bv : List Nat) (carry : Nat) :
    Grows (rippleCarry invert av bv carry) := by
  rw [rippleCarry_eq]
  infer_instance

/-- What is known while the pairs `ps` are left of a chain with the result `total`. -/
def RippleInv (N : List ExprNode) (values : List LogicT) (g : LogicT → LogicT) (total : List LogicT)
    (ps : List (Nat × Nat)) (st : Nat × List Nat) (m : ExprBuilder) : Prop :=
  (∀ p ∈ ps, p.1 < m.size ∧ p.2 < m.size) ∧ st.1 < m.size ∧ (∀ r ∈ st.2, r < m.size) ∧
    (rippleVals (ps.map fun p => (rootVal N values p.1, g (rootVal N values p.2))) (rootVal N values st.1)).reverse ++
      st.2.map (rootVal N values) = total

variable {invert : Nat → Build Nat} {a b : ExprValue}

theorem spec_rippleStep [∀ b, Grows (invert b)]
    (hinv : ∀ (b : Nat) (m' : ExprBuilder), b < m'.size → Spec N m' (invert b) (Has N values (g (rootVal N values b))))
    (total : List LogicT) (p : Nat × Nat) (ps : List (Nat × Nat)) (st : Nat × List Nat) (m : ExprBuilder)
    (h : RippleInv N values g total (p :: ps) st m) :
    Spec N m (rippleStep invert st p) fun st' m' => m.size ≤ m'.size → RippleInv N values g total ps st' m' := by
  obtain ⟨hps, hst, hout, htotal⟩ := h
  rw [forall_mem_cons] at hps
  obtain ⟨⟨hp1, hp2⟩, hps⟩ := hps
  apply (hinv p.2 m hp2).bind
  rintro bi m₁ h₁ ⟨hbi, hbiv⟩
  apply (spec_makeXor values (by omega) hbi).bind
  rintro axb m₂ h₂ ⟨haxb, haxbv⟩
  apply (spec_makeXor values haxb (by omega)).bind
  rintro s m₃ h₃ ⟨hs, hsv⟩
  apply (spec_makeAnd values (by omega) (by omega)).bind
  rintro t1 m₄ h₄ ⟨ht1, ht1v⟩
  apply (spec_makeAnd values (by omega) (by omega)).bind
  rintro t2 m₅ h₅ ⟨ht2, ht2v⟩
  apply (spec_makeAnd values (by omega) (by omega)).bind
  rintro t3 m₆ h₆ ⟨ht3, ht3v⟩
  apply (spec_makeOr values (by omega) (by omega)).bind
  rintro t m₇ h₇ ⟨ht, htv⟩
  apply (spec_makeOr values ht (by omega)).bind
  rintro c m₈ h₈ ⟨hc, hcv⟩
  refine Spec.pure fun hle => ⟨?_, hc, ?_, ?_⟩
  · intro q hq
    have := hps q hq
    omega
  · rw [forall_mem_cons]
    refine ⟨by omega, fun r hr => ?_⟩
    have := hout r hr
    omega
  · rw [map_cons, rippleVals_cons, reverse_cons, append_assoc] at htotal
    rw [← htotal]
    dsimp only
    rw [map_cons, hcv, htv, ht1v, ht2v, ht3v, hsv, haxbv, hbiv]
    rfl

theorem spec_rippleCarry [∀ b, Grows (invert b)]
    (hinv : ∀ (b : Nat) (m' : ExprBuilder), b < m'.size → Spec N m' (invert b) (Has N values (g (rootVal N values b))))
    {av bv : List Nat} {vs ws : List LogicT} (ha : HasAll N values vs av m) (hb : HasAll N values ws bv m) {carry : Nat}
    (hc : carry < m.size) :
    Spec N m (rippleCarry invert av bv carry)
      (HasAll N values (rippleVals (vs.zip (ws.map g)).reverse (rootVal N values carry)).reverse) := by
  have hstart : RippleInv N values g (rippleVals (vs.zip (ws.map g)).reverse (rootVal N values carry)).reverse
      (av.zip bv).reverse (carry, []) m := by
    refine ⟨?_, hc, by simp, ?_⟩
    · intro p hp
      have hmem := of_mem_zip (mem_reverse.mp hp)
      exact ⟨ha.1 _ hmem.1, hb.1 _ hmem.2⟩
    · rw [map_nil, append_nil, map_reverse, ← ha.2, ← hb.2, List.map_map, zip_map]
      rfl
  rw [rippleCarry_eq]
  apply (spec_foldlM (RippleInv N values g _) (fun p ps st m h => spec_rippleStep values hinv _ p ps st m h)
    hstart).bind
  rintro st m₁ h₁ ⟨-, -, hout, htotal⟩
  exact Spec.pure ⟨hout, by simpa [rippleVals] using htotal⟩

structure ValidIn (m : ExprBuilder) (v : ExprValue) : Prop where
  lt : ∀ r ∈ v.roots, r < m.size
  ne_nil : v.roots ≠ []

variable {v : ExprValue}

theorem ValidIn.mono {m' : ExprBuilder} (h : ValidIn m v) (hle : m.size ≤ m'.size) : ValidIn m' v :=
  ⟨fun r hr => lt_of_lt_of_le (h.lt r hr) hle, h.ne_nil⟩

theorem ValidIn.width_pos (h : ValidIn m v) : 0 < v.width := by
  rw [← v.length_roots]
  exact length_pos_iff.mpr h.ne_nil

structure HasValue (N : List ExprNode) (values : List LogicT) (sgn : Bool) (vs : List LogicT) (v : ExprValue)
    (m : ExprBuilder) : Prop where
  hasAll : HasAll N values vs v.roots m
  isSigned : v.isSigned = sgn
  isVector : v.isVector = decide (2 ≤ vs.length)

def valuesOf (N : List ExprNode) (values : List LogicT) (v : ExprValue) : List LogicT :=
  v.roots.map (rootVal N values)

theorem length_valuesOf (v : ExprValue) : (valuesOf N values v).length = v.width := by
  rw [valuesOf, length_map, v.length_roots]

theorem spec_finish {roots : List Nat} {vs : List LogicT} (sgn : Bool) (h : HasAll N values vs roots m)
    (hpos : 0 < vs.length) :
    Spec N m (makeVector roots sgn) (HasValue N values sgn vs) := by
  have hroots : roots.length = vs.length := h.length values
  apply (spec_makeVector sgn (length_pos_iff.mp (by omega))).imp
  rintro v m' ⟨hv, rfl⟩
  exact ⟨by rw [hv.roots_eq]; exact h, hv.isSigned, by rw [hv.isVector, hroots]⟩

/-- `arith_add` and `arith_sub` once the width is known. -/
def sumBody (invert : Nat → Build Nat) (c : LogicT) (a b : ExprValue) (w : Nat) : Build ExprValue := do
  let sel ← unknownSel a b
  if w ≤ 1 then arithBit makeXor a b sel
  else
    let p ← resizeOperands a b w (signedOp a b)
    let carry ← makeLiteral c
    let out ← rippleCarry invert p.1 p.2 carry
    let roots ← muxUnknown sel out
    makeVector roots (signedOp a b)

theorem arithAdd_eq (h : max a.width b.width ≤ maxConcatBits) :
    arithAdd a b = sumBody pure .L a b (max a.width b.width) := by
  unfold arithAdd
  rw [limitWidth_eq _ h]
  rfl

theorem arithSub_eq (h : max a.width b.width ≤ maxConcatBits) :
    arithSub a b = sumBody makeNot .H a b (max a.width b.width) := by
  unfold arithSub
  rw [limitWidth_eq _ h]
  rfl

theorem arithBit_eq (k : Nat → Nat → Build Nat) (a b : ExprValue) (sel : Nat) :
    arithBit k a b sel = (do
      let p ← resizeOperands a b 1 (signedOp a b)
      let r ← k (p.1.headD sizeMax) (p.2.headD sizeMax)
      let x ← makeLiteral .X
      let o ← makeMux sel x r
      pure (makeScalar o 0 0 (signedOp a b))) := rfl

instance (k : Nat → Nat → Build Nat) [∀ a b, Grows (k a b)] (a b : ExprValue) (sel : Nat) :
    Grows (arithBit k a b sel) := by
  rw [arithBit_eq]
  infer_instance

instance (invert : Nat → Build Nat) [∀ b, Grows (invert b)] (c : LogicT) (a b : ExprValue) (w : Nat) :
    Grows (sumBody invert c a b w) := by
  unfold sumBody
  infer_instance

instance (a b : ExprValue) : Grows (arithAdd a b) := by
  show Grows (limitWidth _ _ >>= fun w => sumBody pure .L a b w)
  infer_instance

instance (a b : ExprValue) : Grows (arithSub a b) := by
  show Grows (limitWidth _ _ >>= fun w => sumBody makeNot .H a b w)
  infer_instance

theorem hasAll_singleton {v : LogicT} {rs : List Nat} (h : HasAll N values [v] rs m) :
    ∃ r, rs = [r] ∧ Has N values v r m := by
  obtain ⟨r, rfl⟩ := length_eq_one_iff.mp (h.length values)
  exact ⟨r, rfl, h.1 r mem_cons_self, singleton_inj.mp h.2⟩

theorem spec_arithBit {k : Nat → Nat → Build Nat} {g : LogicT → LogicT → LogicT} [∀ a b, Grows (k a b)]
    (hk : ∀ (r s : Nat) (m' : ExprBuilder), r < m'.size → s < m'.size →
      Spec N m' (k r s) (Has N values (g (rootVal N values r) (rootVal N values s))))
    (ha : ValidIn m a) (hb : ValidIn m b) {x y : LogicT} (hx : valuesOf N values a = [x])
    (hy : valuesOf N values b = [y]) {sel : Nat} (hs : sel < m.size) :
    Spec N m (arithBit k a b sel)
      (HasValue N values (signedOp a b) [muxVal (rootVal N values sel) .X (g x y)]) := by
  rw [arithBit_eq]
  apply (spec_resizeOperands values (signedOp a b) ha.lt hb.lt ha.ne_nil hb.ne_nil Nat.one_pos).bind
  rintro p m₁ h₁ ⟨hp, hq⟩
  rw [← valuesOf, hx] at hp
  rw [← valuesOf, hy] at hq
  obtain ⟨r, hr, hrlt, hrv⟩ := hasAll_singleton values hp
  obtain ⟨s, hsr, hslt, hsv⟩ := hasAll_singleton values hq
  rw [hr, hsr]
  apply (hk r s m₁ hrlt hslt).bind
  rintro o m₂ h₂ ⟨ho, hov⟩
  apply (spec_makeLiteral values .X).bind
  rintro z m₃ h₃ ⟨hz, hzv⟩
  apply (spec_makeMux values (by omega) hz (by omega)).bind
  rintro q m₄ h₄ ⟨hqlt, hqv⟩
  rw [hzv, hov, hrv, hsv] at hqv
  exact Spec.pure ⟨⟨by simpa [makeScalar, ExprValue.roots] using hqlt, by simp [makeScalar, ExprValue.roots, hqv]⟩,
    rfl, rfl⟩

theorem length_rippleVals (ps : List (LogicT × LogicT)) (c : LogicT) : (rippleVals ps c).length = ps.length := by
  induction ps generalizing c with
  | nil => rfl
  | cons p ps ih =>
    obtain ⟨a, b⟩ := p
    rw [rippleVals_cons, length_cons, ih, length_cons]

theorem length_sumVals (g : LogicT → LogicT) (c : LogicT) (sgn : Bool) (as bs : List LogicT) :
    (sumVals g c sgn as bs).length = max as.length bs.length := by
  simp [sumVals, maskVals, length_rippleVals, length_resizeVals]

theorem spec_sumBody {c : LogicT} [∀ b, Grows (invert b)]
    (hinv : ∀ (b : Nat) (m' : ExprBuilder), b < m'.size → Spec N m' (invert b) (Has N values (g (rootVal N values b))))
    (hone : ∀ x y, logicXor (logicXor x (g y)) c = logicXor x y) (ha : ValidIn m a) (hb : ValidIn m b) :
    Spec N m (sumBody invert c a b (max a.width b.width)) (HasValue N values (signedOp a b)
      (sumVals g c (signedOp a b) (valuesOf N values a) (valuesOf N values b))) := by
  have hla := length_valuesOf (N := N) values a
  have hlb := length_valuesOf (N := N) values b
  have hapos := ha.width_pos
  have hbpos := hb.width_pos
  unfold sumBody
  apply (spec_unknownSel values ha.lt hb.lt ha.ne_nil hb.ne_nil).bind
  rintro sel m₁ h₁ ⟨hs, hsv⟩
  rw [← valuesOf, ← valuesOf] at hsv
  by_cases h1 : max a.width b.width ≤ 1
  · obtain ⟨x, hx⟩ := length_eq_one_iff.mp (show (valuesOf N values a).length = 1 by omega)
    obtain ⟨y, hy⟩ := length_eq_one_iff.mp (show (valuesOf N values b).length = 1 by omega)
    rw [if_pos h1]
    apply (spec_arithBit values (g := logicXor) (fun r s m' hr hs => spec_makeXor values hr hs) (ha.mono h₁)
      (hb.mono h₁) hx hy hs).imp
    intro v m₂ hv
    have hval : sumVals g c (signedOp a b) [x] [y] =
        [muxVal (ofBool ([x].any isUnknown || [y].any isUnknown)) .X (logicXor x y)] := by
      rw [← hone x y]
      rfl
    rwa [hx, hy, hval, ← hx, ← hy, ← hsv]
  · rw [if_neg h1]
    apply (spec_resizeOperands values (signedOp a b) (ha.mono h₁).lt (hb.mono h₁).lt ha.ne_nil hb.ne_nil
      (by omega)).bind
    rintro p m₂ h₂ ⟨hp, hq⟩
    apply (spec_makeLiteral values c).bind
    rintro carry m₃ h₃ ⟨hc, hcv⟩
    apply (spec_rippleCarry values hinv (hp.mono values h₃) (hq.mono values h₃) hc).bind
    intro out m₄ h₄ hout
    apply (spec_muxUnknown values (by omega) hout).bind
    intro roots m₅ h₅ hroots
    have hval : sumVals g c (signedOp a b) (valuesOf N values a) (valuesOf N values b) = List.map
        (muxVal (rootVal N values sel) .X) (rippleVals ((resizeVals (signedOp a b) (max a.width b.width)
          (valuesOf N values a)).zip ((resizeVals (signedOp a b) (max a.width b.width)
            (valuesOf N values b)).map g)).reverse (rootVal N values carry)).reverse := by
      rw [sumVals, maskVals, hsv, hcv, hla, hlb]
    rw [← valuesOf, ← valuesOf, ← hval] at hroots
    have hlen := length_sumVals g c (signedOp a b) (valuesOf N values a) (valuesOf N values b)
    exact spec_finish values (signedOp a b) hroots (by omega)

theorem spec_arithAdd (ha : ValidIn m a) (hb : ValidIn m b) (hw : max a.width b.width ≤ maxConcatBits) :
    Spec N m (arithAdd a b) (HasValue N values (signedOp a b)
      (sumVals id .L (signedOp a b) (valuesOf N values a) (valuesOf N values b))) := by
  rw [arithAdd_eq hw]
  apply spec_sumBody values (fun b m' hb' => Spec.pure ⟨hb', rfl⟩) ?_ ha hb
  intro x y
  cases x <;> cases y <;> rfl

theorem spec_arithSub (ha : ValidIn m a) (hb : ValidIn m b) (hw : max a.width b.width ≤ maxConcatBits) :
    Spec N m (arithSub a b) (HasValue N values (signedOp a b)
      (sumVals logicNot .H (signedOp a b) (valuesOf N values a) (valuesOf N values b))) := by
  rw [arithSub_eq hw]
  apply spec_sumBody values (fun b m' hb' => spec_makeNot values hb') ?_ ha hb
  intro x y
  cases x <;> cases y <;> rfl

end Spec

variable (bits : List Bool)

/-- The values of bits that are listed from the least significant one on. -/
def bitVals : List LogicT := (bits.map ofBool).reverse

@[simp] theorem length_bitVals : (bitVals bits).length = bits.length := by
  rw [bitVals, length_reverse, length_map]

def IsNumber (w : Nat) (z : Int) (vs : List LogicT) : Prop :=
  ∃ bits, vs = bitVals bits ∧ bits.length = w ∧ (value bits : Int) = z % 2 ^ w

theorem isUnknown_ofBool_eq_false (b : Bool) : (ofBool b).isUnknown = false := by
  cases b <;> rfl

theorem any_isUnknown_bitVals : (bitVals bits).any isUnknown = false := by
  rw [any_eq_false]
  intro v hv
  obtain ⟨b, -, rfl⟩ := mem_map.mp (mem_reverse.mp hv)
  rw [isUnknown_ofBool_eq_false]
  exact Bool.false_ne_true

theorem map_muxVal_bitVals : (bitVals bits).map (muxVal (ofBool false) .X) = bitVals bits := by
  refine (map_congr_left fun v hv => ?_).trans (map_id _)
  obtain ⟨b, -, rfl⟩ := mem_map.mp (mem_reverse.mp hv)
  cases b <;> rfl

theorem maskVals_bitVals (as bs bits : List Bool) :
    maskVals (bitVals as) (bitVals bs) (bitVals bits) = bitVals bits := by
  rw [maskVals, any_isUnknown_bitVals, any_isUnknown_bitVals]
  exact map_muxVal_bitVals bits

variable {as bs : List LogicT}

theorem maskVals_of_unknown (h : ∃ v ∈ as ++ bs, v.isUnknown = true) (vs : List LogicT) :
    ∀ v ∈ maskVals as bs vs, v = .X := by
  have hany : (as.any isUnknown || bs.any isUnknown) = true := by
    rw [← any_append, any_eq_true]
    exact h
  rw [maskVals, hany]
  intro v hv
  obtain ⟨u, -, rfl⟩ := mem_map.mp hv
  cases u <;> rfl

theorem resizeVals_bitVals (sgn : Bool) {w : Nat} {bits : List Bool} (h : bits.length ≤ w) :
    resizeVals sgn w (bitVals bits) = bitVals (extend sgn w bits) := by
  have hhead : (bitVals bits).headD .L = ofBool (signBit bits) := by
    rw [bitVals, headD_eq_head?_getD, head?_reverse, getLast?_map, signBit, getLastD_eq_getLast?]
    cases bits.getLast? <;> rfl
  rw [resizeVals, length_bitVals, if_neg (by omega), hhead, bitVals, bitVals, extend, map_append, reverse_append,
    map_replicate, reverse_replicate]
  congr 2
  cases sgn <;> rfl

theorem rippleVals_ofBool (ps : List (Bool × Bool)) (c : Bool) :
    rippleVals (ps.map fun p => (ofBool p.1, ofBool p.2)) (ofBool c) = (addCarry ps c).map ofBool := by
  induction ps generalizing c with
  | nil => rfl
  | cons p ps ih =>
    rw [map_cons, rippleVals_cons, addCarry, map_cons]
    simp only [logicXor_ofBool, logicAnd_ofBool, logicOr_ofBool]
    rw [ih, carryOut]

variable {h : Bool → Bool}

theorem rippleVals_bitVals (hg : ∀ b, g (ofBool b) = ofBool (h b)) {xs ys : List Bool}
    (hlen : xs.length = ys.length) (c : Bool) :
    (rippleVals ((bitVals xs).zip ((bitVals ys).map g)).reverse (ofBool c)).reverse =
      bitVals (addCarry (xs.zip (ys.map h)) c) := by
  have hys : (bitVals ys).map g = bitVals (ys.map h) := by
    rw [bitVals, bitVals, map_reverse, List.map_map, List.map_map]
    congr 1
    exact map_congr_left fun b _ => hg b
  have hzip : ((bitVals xs).zip (bitVals (ys.map h))).reverse =
      (xs.zip (ys.map h)).map fun p => (ofBool p.1, ofBool p.2) := by
    rw [bitVals, bitVals, zip, ← reverse_zipWith (by simpa using hlen), reverse_reverse]
    exact zip_map
  rw [hys, hzip, rippleVals_ofBool, bitVals]

theorem sumVals_bitVals (hg : ∀ b, g (ofBool b) = ofBool (h b)) (c sgn : Bool) (as bs : List Bool) :
    sumVals g (ofBool c) sgn (bitVals as) (bitVals bs) =
      bitVals (addCarry ((extend sgn (max as.length bs.length) as).zip
        ((extend sgn (max as.length bs.length) bs).map h)) c) := by
  have hla := length_extend sgn (le_max_left as.length bs.length)
  have hlb := length_extend sgn (le_max_right as.length bs.length)
  rw [sumVals, length_bitVals, length_bitVals, resizeVals_bitVals sgn (le_max_left _ _),
    resizeVals_bitVals sgn (le_max_right _ _), rippleVals_bitVals hg (hla.trans hlb.symm), maskVals_bitVals]

theorem value_addCarry_extend (h : Bool → Bool) (c sgn : Bool) {w : Nat} {as bs : List Bool} (ha : as.length ≤ w)
    (hb : bs.length ≤ w) :
    (addCarry ((extend sgn w as).zip ((extend sgn w bs).map h)) c).length = w ∧
      value (addCarry ((extend sgn w as).zip ((extend sgn w bs).map h)) c) =
        (value (extend sgn w as) + value ((extend sgn w bs).map h) + c.toNat) % 2 ^ w := by
  have hla := length_extend sgn ha
  have hlb := length_extend sgn hb
  have hlen : ((extend sgn w as).zip ((extend sgn w bs).map h)).length = w := by
    rw [length_zip, length_map, hla, hlb, Nat.min_self]
  refine ⟨by rw [length_addCarry, hlen], ?_⟩
  rw [value_addCarry_mod, hlen, List.map_fst_zip (by rw [length_map, hla, hlb]),
    map_snd_zip (by rw [length_map, hla, hlb])]

theorem isNumber_add (sgn : Bool) (as bs : List Bool) :
    IsNumber (max as.length bs.length) (intValue sgn as + intValue sgn bs)
      (sumVals id .L sgn (bitVals as) (bitVals bs)) := by
  obtain ⟨hlen, hval⟩ := value_addCarry_extend id false sgn (le_max_left as.length bs.length)
    (le_max_right as.length bs.length)
  refine ⟨_, sumVals_bitVals (h := id) (fun _ => rfl) false sgn as bs, hlen, ?_⟩
  rw [hval, map_id, Bool.toNat_false, Nat.add_zero]
  push_cast
  rw [value_extend_mod sgn (le_max_left _ _), value_extend_mod sgn (le_max_right _ _), ← Int.add_emod]

theorem isNumber_sub (sgn : Bool) (as bs : List Bool) :
    IsNumber (max as.length bs.length) (intValue sgn as - intValue sgn bs)
      (sumVals logicNot .H sgn (bitVals as) (bitVals bs)) := by
  obtain ⟨hlen, hval⟩ := value_addCarry_extend not true sgn (le_max_left as.length bs.length)
    (le_max_right as.length bs.length)
  refine ⟨_, sumVals_bitVals (fun b => logicNot_ofBool b) true sgn as bs, hlen, ?_⟩
  have hnot := value_map_not (extend sgn (max as.length bs.length) bs)
  rw [length_extend sgn (le_max_right _ _)] at hnot
  -- Complement and carry in are the negative number modulo the range.
  have hint : ((value (extend sgn (max as.length bs.length) as) +
      value ((extend sgn (max as.length bs.length) bs).map not) + 1 : Nat) : Int) =
      value (extend sgn (max as.length bs.length) as) - value (extend sgn (max as.length bs.length) bs) +
        2 ^ max as.length bs.length := by
    have hcast : ((value ((extend sgn (max as.length bs.length) bs).map not) +
        value (extend sgn (max as.length bs.length) bs) + 1 : Nat) : Int) = (2 ^ max as.length bs.length : Nat) := by
      rw [hnot]
    push_cast at hcast ⊢
    omega
  rw [hval, Bool.toNat_true, Int.natCast_mod, hint]
  push_cast
  rw [Int.add_emod_right, value_extend_mod sgn (le_max_left _ _), value_extend_mod sgn (le_max_right _ _),
    ← Int.sub_emod]

theorem sumVals_of_unknown {c : LogicT} {sgn : Bool} (h : ∃ v ∈ as ++ bs, v.isUnknown = true) :
    ∀ v ∈ sumVals g c sgn as bs, v = .X :=
  maskVals_of_unknown h _

end PhyEngine.Verilog
