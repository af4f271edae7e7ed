import PhyEngine.Verilog.ArithSound

/-!
# Multiplication

`arith_mul` adds up partial products: one for every bit of the second operand, or one for
every pair of 2-bit digits if both operands are unsigned bytes. Both loops are the same
accumulation of addends, and both give the product.
-/

namespace PhyEngine.Verilog

open LogicT BitNumbers List

def addPart {α : Type} (mk : α → Build (List Nat)) (sgn : Bool) (acc : ExprValue) (x : α) : Build ExprValue := do
  let part ← mk x
  let p ← makeVector part sgn
  arithAdd acc p

instance {α : Type} (mk : α → Build (List Nat)) [∀ x, Grows (mk x)] (sgn : Bool) (acc : ExprValue) (x : α) :
    Grows (addPart mk sgn acc x) := by
  unfold addPart
  infer_instance

def accumulate {α : Type} (pv : α → List LogicT) (sgn : Bool) (xs : List α) (cur : List LogicT) : List LogicT :=
  xs.foldl (fun cur x => sumVals id .L sgn cur (pv x)) cur

variable {w : Nat} {cur : List LogicT} {as : List Bool} {sgn : Bool} {p : Nat × Nat}

variable {α : Type} {pv : α → List LogicT}

theorem length_accumulate (sgn : Bool) (xs : List α)
    (hpv : ∀ x ∈ xs, (pv x).length = w) (hcur : cur.length = w) : (accumulate pv sgn xs cur).length = w := by
  induction xs generalizing cur with
  | nil => exact hcur
  | cons x xs ih =>
    rw [forall_mem_cons] at hpv
    refine ih hpv.2 ?_
    rw [length_sumVals, hcur, hpv.1, Nat.max_self]

theorem IsNumber.add {w : Nat} {x y : Int} {as bs : List LogicT} (sgn : Bool) (ha : IsNumber w x as)
    (hb : IsNumber w y bs) : IsNumber w (x + y) (sumVals id .L sgn as bs) := by
  obtain ⟨as, rfl, hla, hxa⟩ := ha
  obtain ⟨bs, rfl, hlb, hyb⟩ := hb
  obtain ⟨bits, hbits, hlen, hval⟩ := isNumber_add sgn as bs
  have hia := intValue_emod sgn as
  have hib := intValue_emod sgn bs
  rw [hla] at hia
  rw [hlb] at hib
  rw [hla, hlb, Nat.max_self] at hlen hval
  refine ⟨bits, hbits, hlen, ?_⟩
  rw [hval, Int.add_emod, hia, hib, hxa, hyb, ← Int.add_emod]

theorem isNumber_accumulate (sgn : Bool) {xs : List α} {f : α → Int}
    (hpv : ∀ x ∈ xs, IsNumber w (f x) (pv x)) {z : Int} (hcur : IsNumber w z cur) :
    IsNumber w (z + (xs.map f).sum) (accumulate pv sgn xs cur) := by
  induction xs generalizing z cur with
  | nil => simpa [accumulate] using hcur
  | cons x xs ih =>
    rw [forall_mem_cons] at hpv
    rw [map_cons, sum_cons, ← add_assoc]
    exact ih hpv.2 (hcur.add sgn hpv.1)

section Spec

variable {N : List ExprNode} (values : List LogicT) {m : ExprBuilder}

variable {vs : List LogicT} {z sel : Nat} {av : List Nat} {a b : ExprValue}

theorem HasValue.validIn {v : ExprValue} (h : HasValue N values sgn vs v m) (hpos : 0 < vs.length) : ValidIn m v := by
  refine ⟨h.hasAll.1, length_pos_iff.mp ?_⟩
  rwa [h.hasAll.length values]

variable {acc : ExprValue}

theorem spec_accumulate {α : Type} (mk : α → Build (List Nat)) [∀ x, Grows (mk x)] (pv : α → List LogicT) (hw : 2 ≤ w)
    (hlim : w ≤ maxConcatBits) (xs : List α)
    (hmk : ∀ x ∈ xs, ∀ m', m.size ≤ m'.size → Spec N m' (mk x) (HasAll N values (pv x)))
    (hpv : ∀ x ∈ xs, (pv x).length = w) (hacc : HasValue N values sgn cur acc m)
    (hcur : cur.length = w) :
    Spec N m (xs.foldlM (addPart mk sgn) acc) (HasValue N values sgn (accumulate pv sgn xs cur)) := by
  induction xs generalizing m acc cur with
  | nil =>
    rw [foldlM_nil]
    exact Spec.pure hacc
  | cons x xs ih =>
    rw [forall_mem_cons] at hpv
    rw [foldlM_cons]
    refine Spec.bind (R := HasValue N values sgn (sumVals id .L sgn cur (pv x))) ?_ ?_
    · apply (hmk x mem_cons_self m (Nat.le_refl _)).bind
      intro part m₁ h₁ hpart
      apply (spec_finish values sgn hpart (by omega)).bind
      intro p m₂ h₂ hp
      have hsgn : signedOp acc p = sgn := by
        rw [signedOp, hacc.isSigned, hp.isSigned, Bool.and_self]
      have hva : valuesOf N values acc = cur := hacc.hasAll.2
      have hvp : valuesOf N values p = pv x := hp.hasAll.2
      have hwa := length_valuesOf (N := N) values acc
      have hwp := length_valuesOf (N := N) values p
      rw [hva, hcur] at hwa
      rw [hvp, hpv.1] at hwp
      have hadd := spec_arithAdd (N := N) values ((hacc.validIn values (by omega)).mono (h₁.trans h₂))
        (hp.validIn values (by omega)) (by omega)
      rwa [hsgn, hva, hvp] at hadd
    · intro acc' m₁ h₁ hacc'
      refine ih (fun y hy m' hm' => hmk y (mem_cons_of_mem x hy) m' (h₁.trans hm')) hpv.2 hacc' ?_
      rw [length_sumVals, hcur, hpv.1, Nat.max_self]

instance (bit : Nat → Bool) (w : Nat) : Grows (literalRoots bit w) := by
  unfold literalRoots
  infer_instance

instance (value w : Nat) : Grows (makeUintLiteral value w) := by
  unfold makeUintLiteral
  infer_instance

instance (value : Int) (w : Nat) : Grows (makeIntLiteral value w) := by
  unfold makeIntLiteral
  infer_instance

theorem spec_literalRoots (bit : Nat → Bool) (w : Nat) :
    Spec N m (literalRoots bit w) (HasAll N values ((List.range w).map fun i => ofBool (bit i)).reverse) := by
  unfold literalRoots
  apply (spec_mapM values (List.range w) fun i _ m' _ => spec_makeLiteral values (ofBool (bit i))).bind
  intro roots m₁ h₁ hroots
  refine Spec.pure ⟨fun r hr => hroots.1 r (mem_reverse.mp hr), ?_⟩
  rw [map_reverse, hroots.2]

def zeroLiteral (sgn : Bool) (w : Nat) : Build ExprValue := if sgn then makeIntLiteral 0 w else makeUintLiteral 0 w

instance (sgn : Bool) (w : Nat) : Grows (zeroLiteral sgn w) := by
  unfold zeroLiteral
  infer_instance

theorem spec_zeroLiteral (sgn : Bool) (hw : 2 ≤ w) :
    Spec N m (zeroLiteral sgn w) (HasValue N values sgn (List.replicate w .L)) := by
  have hroots {bit : Nat → Bool} (hbit : ∀ i, bit i = false) :
      Spec N m (literalRoots bit w >>= fun roots => makeVector roots sgn)
        (HasValue N values sgn (replicate w .L)) := by
    apply (spec_literalRoots values bit w).bind
    intro roots m₁ h₁ hroots
    have hzero : ((List.range w).map fun i => ofBool (bit i)).reverse = replicate w .L := by
      simp [hbit, ofBool]
    rw [hzero] at hroots
    exact spec_finish values sgn hroots (by rw [length_replicate]; omega)
  unfold zeroLiteral
  cases sgn with
  | false =>
    rw [if_neg Bool.false_ne_true, makeUintLiteral, if_neg (by omega)]
    exact hroots fun i => by simp
  | true =>
    rw [if_pos rfl, makeIntLiteral, if_neg (by omega)]
    exact hroots fun i => by simp

def partialRoots (w z : Nat) (av : List Nat) (p : Nat × Nat) : Build (List Nat) := do
  let shifted ← (av.drop p.2).mapM fun r => makeAnd r p.1
  return shifted ++ List.replicate (w - shifted.length) z

instance (w z : Nat) (av : List Nat) (p : Nat × Nat) : Grows (partialRoots w z av p) := by
  unfold partialRoots
  infer_instance

def partVals (w : Nat) (vs : List LogicT) (p : LogicT × Nat) : List LogicT :=
  (vs.drop p.2).map (fun v => logicAnd v p.1) ++ List.replicate (w - (vs.length - p.2)) .L

theorem spec_partialRoots (w : Nat) (ha : HasAll N values vs av m) (hp : p.1 < m.size) (hz : Has N values .L z m) :
    Spec N m (partialRoots w z av p) (HasAll N values (partVals w vs (rootVal N values p.1, p.2))) := by
  unfold partialRoots
  apply (spec_mapM values (g := fun r => logicAnd (rootVal N values r) (rootVal N values p.1)) (av.drop p.2)
    fun r hr m' hm' => spec_makeAnd values (lt_of_lt_of_le (ha.1 r (mem_of_mem_drop hr)) hm')
      (lt_of_lt_of_le hp hm')).bind
  intro shifted m₁ h₁ hs
  have hlen : shifted.length = vs.length - p.2 := by
    rw [hs.length values, length_map, length_drop, ha.length values]
  refine Spec.pure ⟨?_, ?_⟩
  · intro r hr
    rcases mem_append.mp hr with hr | hr
    · exact hs.1 r hr
    · obtain ⟨-, rfl⟩ := mem_replicate.mp hr
      exact lt_of_lt_of_le hz.1 h₁
  · rw [map_append, hs.2, map_replicate, hz.2, partVals, hlen, ← ha.2, ← map_drop, List.map_map]
    rfl

theorem length_partVals (h : vs.length = w) (p : LogicT × Nat) :
    (partVals w vs p).length = w := by
  rw [partVals, length_append, length_map, length_drop, length_replicate]
  omega

def maskAcc (sel : Nat) (sgn : Bool) (acc : ExprValue) : Build ExprValue := do
  let roots ← muxUnknown sel acc.vectorRoots
  return { acc with vectorRoots := roots, isSigned := sgn }

instance (sel : Nat) (sgn : Bool) (acc : ExprValue) : Grows (maskAcc sel sgn acc) := by
  unfold maskAcc
  infer_instance

theorem spec_maskAcc (hs : sel < m.size) (h : HasValue N values sgn vs acc m) (hlen : 2 ≤ vs.length) :
    Spec N m (maskAcc sel sgn acc) (HasValue N values sgn (vs.map (muxVal (rootVal N values sel) .X))) := by
  have hvec : acc.isVector = true := by
    rw [h.isVector, decide_eq_true hlen]
  have hroots : acc.roots = acc.vectorRoots := by
    rw [ExprValue.roots, hvec, if_pos rfl]
  have hall := h.hasAll
  rw [hroots] at hall
  apply (spec_muxUnknown values hs hall).bind
  intro roots m₁ h₁ hr
  refine Spec.pure ⟨?_, rfl, ?_⟩
  · rw [ExprValue.roots, if_pos hvec]
    exact hr
  · rw [length_map]
    exact h.isVector

/-- The four bits of the product of two 2-bit numbers, the lowest first. -/
def tileBits (a0 a1 b0 b1 : LogicT) : List LogicT :=
  let c1 := logicAnd (logicAnd a0 b1) (logicAnd a1 b0)
  [logicAnd a0 b0, logicXor (logicAnd a0 b1) (logicAnd a1 b0), logicXor (logicAnd a1 b1) c1,
    logicAnd (logicAnd a1 b1) c1]

instance (a0 a1 b0 b1 : Nat) : Grows (mul2Tile a0 a1 b0 b1) := by
  unfold mul2Tile
  infer_instance

theorem spec_mul2Tile {a0 a1 b0 b1 : Nat} (ha0 : a0 < m.size) (ha1 : a1 < m.size) (hb0 : b0 < m.size)
    (hb1 : b1 < m.size) :
    Spec N m (mul2Tile a0 a1 b0 b1) (HasAll N values
      (tileBits (rootVal N values a0) (rootVal N values a1) (rootVal N values b0) (rootVal N values b1))) := by
  unfold mul2Tile
  apply (spec_makeAnd values ha0 hb0).bind
  rintro p0 m₁ h₁ ⟨hp0, hp0v⟩
  apply (spec_makeAnd values (by omega) (by omega)).bind
  rintro t1 m₂ h₂ ⟨ht1, ht1v⟩
  apply (spec_makeAnd values (by omega) (by omega)).bind
  rintro t2 m₃ h₃ ⟨ht2, ht2v⟩
  apply (spec_makeXor values (by omega) (by omega)).bind
  rintro p1 m₄ h₄ ⟨hp1, hp1v⟩
  apply (spec_makeAnd values (by omega) (by omega)).bind
  rintro c1 m₅ h₅ ⟨hc1, hc1v⟩
  apply (spec_makeAnd values (by omega) (by omega)).bind
  rintro t3 m₆ h₆ ⟨ht3, ht3v⟩
  apply (spec_makeXor values (by omega) (by omega)).bind
  rintro p2 m₇ h₇ ⟨hp2, hp2v⟩
  apply (spec_makeAnd values (by omega) (by omega)).bind
  rintro p3 m₈ h₈ ⟨hp3, hp3v⟩
  refine Spec.pure ⟨?_, ?_⟩
  · intro r hr
    simp only [mem_cons, not_mem_nil, or_false] at hr
    omega
  · simp only [map_cons, map_nil, hp0v, hp1v, hp2v, hp3v, ht1v, ht2v, ht3v, hc1v, tileBits]

/-- The addend for the digits `p.1` and `p.2` of two bytes. -/
def tileRoots (z : Nat) (av bv : List Nat) (p : Nat × Nat) : Build (List Nat) := do
  let prod ← mul2Tile (av.reverse.getD (2 * p.1) z) (av.reverse.getD (2 * p.1 + 1) z) (bv.reverse.getD (2 * p.2) z)
    (bv.reverse.getD (2 * p.2 + 1) z)
  return (List.replicate (2 * (p.1 + p.2)) z ++ prod ++ List.replicate (12 - 2 * (p.1 + p.2)) z).reverse

instance (z : Nat) (av bv : List Nat) (p : Nat × Nat) : Grows (tileRoots z av bv p) := by
  unfold tileRoots
  infer_instance

def digitBit (vs : List LogicT) (i : Nat) : LogicT := vs.reverse.getD i .L

def tileVals (vs ws : List LogicT) (p : Nat × Nat) : List LogicT :=
  (List.replicate (2 * (p.1 + p.2)) LogicT.L ++ tileBits (digitBit vs (2 * p.1)) (digitBit vs (2 * p.1 + 1))
    (digitBit ws (2 * p.2)) (digitBit ws (2 * p.2 + 1)) ++ List.replicate (12 - 2 * (p.1 + p.2)) LogicT.L).reverse

theorem has_getD (ha : HasAll N values vs av m) (hz : Has N values .L z m) (i : Nat) :
    Has N values (digitBit vs i) (av.reverse.getD i z) m := by
  rw [digitBit, ← ha.2, ← map_reverse, getD_eq_getElem?_getD, getD_eq_getElem?_getD, getElem?_map]
  cases hi : av.reverse[i]? with
  | none => exact hz
  | some r => exact ⟨ha.1 r (mem_reverse.mp (List.mem_of_getElem? hi)), rfl⟩

variable {ws : List LogicT}

theorem spec_tileRoots {bv : List Nat} (p : Nat × Nat) (ha : HasAll N values vs av m)
    (hb : HasAll N values ws bv m) (hz : Has N values .L z m) :
    Spec N m (tileRoots z av bv p) (HasAll N values (tileVals vs ws p)) := by
  have ha0 := has_getD values ha hz (2 * p.1)
  have ha1 := has_getD values ha hz (2 * p.1 + 1)
  have hb0 := has_getD values hb hz (2 * p.2)
  have hb1 := has_getD values hb hz (2 * p.2 + 1)
  unfold tileRoots
  apply (spec_mul2Tile values ha0.1 ha1.1 hb0.1 hb1.1).bind
  intro prod m₁ h₁ hprod
  refine Spec.pure ⟨?_, ?_⟩
  · intro r hr
    rw [mem_reverse, mem_append, mem_append] at hr
    rcases hr with (hr | hr) | hr
    · obtain ⟨-, rfl⟩ := mem_replicate.mp hr
      exact lt_of_lt_of_le hz.1 h₁
    · exact hprod.1 r hr
    · obtain ⟨-, rfl⟩ := mem_replicate.mp hr
      exact lt_of_lt_of_le hz.1 h₁
  · rw [map_reverse, map_append, map_append, map_replicate, map_replicate, hz.2, hprod.2, ha0.2,
      ha1.2, hb0.2, hb1.2, tileVals]

def tilePairs : List (Nat × Nat) := (List.range 4).flatMap fun ai => (List.range 4).map fun bi => (ai, bi)

theorem length_tileVals (hp : p ∈ tilePairs) : (tileVals vs ws p).length = 16 := by
  have hbound : p.1 < 4 ∧ p.2 < 4 := by
    revert p
    decide
  simp only [tileVals, tileBits, length_reverse, length_append, length_replicate, length_cons,
    length_nil]
  omega

/-- The bits of the product before unknown operands are masked. -/
def productVals (sgn : Bool) (as bs : List LogicT) : List LogicT :=
  if sgn = false ∧ as.length = 8 ∧ bs.length = 8 then
    accumulate (tileVals (resizeVals false 8 as) (resizeVals false 8 bs)) false tilePairs (List.replicate 16 .L)
  else
    let w := as.length + bs.length
    accumulate (partVals w (resizeVals sgn w as)) sgn (resizeVals sgn w bs).reverse.zipIdx (List.replicate w .L)

def mulVals (sgn : Bool) (as bs : List LogicT) : List LogicT := maskVals as bs (productVals sgn as bs)

theorem mulBytes_eq (a b : ExprValue) (sel : Nat) :
    mulBytes a b sel = (do
      let p ← resizeOperands a b 8 false
      let z ← makeLiteral .L
      let zero ← zeroLiteral false 16
      let acc ← tilePairs.foldlM (addPart (tileRoots z p.1 p.2) false) zero
      maskAcc sel false acc) := by
  unfold mulBytes
  refine bind_congr fun p => bind_congr fun z => bind_congr fun zero => ?_
  have hstep : addPart (tileRoots z p.1 p.2) false = fun (acc : ExprValue) (q : Nat × Nat) => (do
      let prod ← mul2Tile (p.1.reverse.getD (2 * q.1) z) (p.1.reverse.getD (2 * q.1 + 1) z)
        (p.2.reverse.getD (2 * q.2) z) (p.2.reverse.getD (2 * q.2 + 1) z)
      let part ← makeVector (replicate (2 * (q.1 + q.2)) z ++ prod ++
        replicate (12 - 2 * (q.1 + q.2)) z).reverse false
      arithAdd acc part) := by
    funext acc q
    simp only [addPart, tileRoots, bind_assoc, pure_bind]
  rw [hstep]
  rfl

def mulBits (a b : ExprValue) (w sel : Nat) : Build ExprValue := do
  let p ← resizeOperands a b w (signedOp a b)
  let zero ← zeroLiteral (signedOp a b) w
  let z ← makeLiteral .L
  let acc ← p.2.reverse.zipIdx.foldlM (addPart (partialRoots w z p.1) (signedOp a b)) zero
  if !acc.isVector then return acc
  else maskAcc sel (signedOp a b) acc

def mulBody (a b : ExprValue) (w : Nat) : Build ExprValue := do
  let sel ← unknownSel a b
  if signedOp a b = false ∧ a.width = 8 ∧ b.width = 8 then mulBytes a b sel
  else if w ≤ 1 then arithBit makeAnd a b sel
  else mulBits a b w sel

theorem arithMul_limited (a b : ExprValue) :
    arithMul a b = limitWidth (a.width + b.width) "multiplication result too wide (limit exceeded)" >>=
      mulBody a b := by
  unfold arithMul
  refine bind_congr fun w => ?_
  unfold mulBody mulBits
  refine bind_congr fun sel => ?_
  dsimp only
  congr 1
  congr 1
  refine bind_congr fun p => ?_
  have hstep (z : Nat) : addPart (partialRoots w z p.1) (signedOp a b) =
      fun (acc : ExprValue) (q : Nat × Nat) => (do
        let shifted ← (p.1.drop q.2).mapM fun r => makeAnd r q.1
        let part ← makeVector (shifted ++ replicate (w - shifted.length) z) (signedOp a b)
        arithAdd acc part) := by
    funext acc q
    simp only [addPart, partialRoots, bind_assoc, pure_bind]
  simp only [hstep, zeroLiteral]
  split_ifs <;> rfl

theorem arithMul_eq (h : a.width + b.width ≤ maxConcatBits) :
    arithMul a b = mulBody a b (a.width + b.width) := by
  rw [arithMul_limited, limitWidth_eq _ h, pure_bind]

instance (a b : ExprValue) (sel : Nat) : Grows (mulBytes a b sel) := by
  rw [mulBytes_eq]
  infer_instance

instance (a b : ExprValue) (w sel : Nat) : Grows (mulBits a b w sel) := by
  unfold mulBits
  infer_instance

instance (a b : ExprValue) (w : Nat) : Grows (mulBody a b w) := by
  unfold mulBody
  infer_instance

instance (a b : ExprValue) : Grows (arithMul a b) := by
  rw [arithMul_limited]
  infer_instance

theorem spec_mulBytes (ha : ValidIn m a) (hb : ValidIn m b) (hwa : a.width = 8) (hwb : b.width = 8)
    (hsgn : signedOp a b = false) (hs : sel < m.size) :
    Spec N m (mulBytes a b sel) (HasValue N values (signedOp a b)
      ((productVals (signedOp a b) (valuesOf N values a) (valuesOf N values b)).map
        (muxVal (rootVal N values sel) .X))) := by
  rw [mulBytes_eq, productVals, hsgn, length_valuesOf, length_valuesOf, if_pos ⟨rfl, hwa, hwb⟩]
  apply (spec_resizeOperands values false ha.lt hb.lt ha.ne_nil hb.ne_nil (by omega)).bind
  rintro p m₁ h₁ ⟨hp, hq⟩
  apply (spec_makeLiteral values .L).bind
  intro z m₂ h₂ hz
  apply (spec_zeroLiteral values false (w := 16) (by omega)).bind
  intro zero m₃ h₃ hzero
  apply (spec_accumulate values _ _ (by omega) (by decide) tilePairs (fun q _ m' hm' => spec_tileRoots values q
    (hp.mono values (by omega)) (hq.mono values (by omega)) ⟨lt_of_lt_of_le hz.1 (h₃.trans hm'), hz.2⟩)
    (fun q hq => length_tileVals hq) hzero length_replicate).bind
  intro acc m₄ h₄ hacc
  apply spec_maskAcc values (by omega) hacc
  rw [length_accumulate false tilePairs (w := 16) (fun q hq => length_tileVals hq) length_replicate]
  omega

theorem spec_mulBits (ha : ValidIn m a) (hb : ValidIn m b) (hw : 2 ≤ a.width + b.width)
    (hlim : a.width + b.width ≤ maxConcatBits) (hbytes : ¬(signedOp a b = false ∧ a.width = 8 ∧ b.width = 8))
    (hs : sel < m.size) :
    Spec N m (mulBits a b (a.width + b.width) sel) (HasValue N values (signedOp a b)
      ((productVals (signedOp a b) (valuesOf N values a) (valuesOf N values b)).map
        (muxVal (rootVal N values sel) .X))) := by
  rw [productVals, length_valuesOf, length_valuesOf, if_neg hbytes]
  unfold mulBits
  apply (spec_resizeOperands values (signedOp a b) ha.lt hb.lt ha.ne_nil hb.ne_nil (by omega)).bind
  rintro p m₁ h₁ ⟨hp, hq⟩
  apply (spec_zeroLiteral values (signedOp a b) hw).bind
  intro zero m₂ h₂ hzero
  apply (spec_makeLiteral values .L).bind
  intro z m₃ h₃ hz
  have hlen : (resizeVals (signedOp a b) (a.width + b.width) (valuesOf N values a)).length = a.width + b.width :=
    length_resizeVals _ _ _
  have hq1 : ∀ q ∈ p.2.reverse.zipIdx, q.1 ∈ p.2 := by
    intro q hmem
    exact mem_reverse.mp (fst_mem_of_mem_zipIdx hmem)
  have hzero' : HasValue N values (signedOp a b) (replicate (a.width + b.width) .L) zero m₃ :=
    ⟨hzero.hasAll.mono values h₃, hzero.isSigned, hzero.isVector⟩
  have hloop := spec_accumulate values (partialRoots (a.width + b.width) z p.1)
    (fun q => partVals (a.width + b.width) (resizeVals (signedOp a b) (a.width + b.width) (valuesOf N values a))
      (rootVal N values q.1, q.2)) hw hlim p.2.reverse.zipIdx
    (fun q hmem m' hm' => spec_partialRoots values _ (hp.mono values (by omega))
      (lt_of_lt_of_le (hq.1 _ (hq1 q hmem)) (by omega)) ⟨lt_of_lt_of_le hz.1 hm', hz.2⟩)
    (fun q _ => length_partVals hlen _) hzero' length_replicate
  have hvals : accumulate (fun q => partVals (a.width + b.width) (resizeVals (signedOp a b) (a.width + b.width)
      (valuesOf N values a)) (rootVal N values q.1, q.2)) (signedOp a b) p.2.reverse.zipIdx
      (replicate (a.width + b.width) .L) = accumulate (partVals (a.width + b.width)
        (resizeVals (signedOp a b) (a.width + b.width) (valuesOf N values a))) (signedOp a b)
        (resizeVals (signedOp a b) (a.width + b.width) (valuesOf N values b)).reverse.zipIdx
        (replicate (a.width + b.width) .L) := by
    rw [valuesOf, valuesOf, ← hq.2, ← map_reverse, zipIdx_map, accumulate, accumulate, foldl_map]
    rfl
  rw [hvals] at hloop
  apply hloop.bind
  intro acc m₄ h₄ hacc
  have hacclen := length_accumulate (signedOp a b)
    (resizeVals (signedOp a b) (a.width + b.width) (valuesOf N values b)).reverse.zipIdx
    (fun q _ => length_partVals hlen q) (length_replicate (n := a.width + b.width) (a := LogicT.L))
  have hvec : acc.isVector = true := by
    rw [hacc.isVector, hacclen, decide_eq_true hw]
  rw [hvec, if_neg (by simp)]
  exact spec_maskAcc values (by omega) hacc (le_of_le_of_eq hw hacclen.symm)

theorem spec_arithMul (ha : ValidIn m a) (hb : ValidIn m b) (hw : a.width + b.width ≤ maxConcatBits) :
    Spec N m (arithMul a b) (HasValue N values (signedOp a b)
      (mulVals (signedOp a b) (valuesOf N values a) (valuesOf N values b))) := by
  have hapos := ha.width_pos
  have hbpos := hb.width_pos
  rw [arithMul_eq hw]
  unfold mulBody
  apply (spec_unknownSel values ha.lt hb.lt ha.ne_nil hb.ne_nil).bind
  rintro sel m₁ h₁ ⟨hs, hsv⟩
  rw [mulVals, maskVals, valuesOf, valuesOf, ← hsv, ← valuesOf, ← valuesOf]
  by_cases hbytes : signedOp a b = false ∧ a.width = 8 ∧ b.width = 8
  · rw [if_pos hbytes]
    exact spec_mulBytes values (ha.mono h₁) (hb.mono h₁) hbytes.2.1 hbytes.2.2 hbytes.1 hs
  · rw [if_neg hbytes, if_neg (by omega)]
    exact spec_mulBits values (ha.mono h₁) (hb.mono h₁) (by omega) hw hbytes hs

end Spec

theorem isNumber_zero (w : Nat) : IsNumber w 0 (List.replicate w .L) := by
  refine ⟨replicate w false, ?_, length_replicate, ?_⟩
  · rw [bitVals, map_replicate, reverse_replicate]
    rfl
  · rw [value_replicate_false]
    simp

theorem isNumber_partVals (ha : as.length = w) (b : Bool) {i : Nat} (hi : i ≤ w) :
    IsNumber w (value as * (b.toNat * 2 ^ i)) (partVals w (bitVals as) (ofBool b, i)) := by
  have hand : (fun v => logicAnd v (ofBool b)) ∘ ofBool = ofBool ∘ fun x => x && b := by
    funext x
    exact logicAnd_ofBool x b
  have hbits : partVals w (bitVals as) (ofBool b, i) =
      bitVals (replicate i false ++ (as.take (w - i)).map fun x => x && b) := by
    rw [partVals, bitVals, bitVals, drop_reverse, length_map, length_reverse, length_map, ha,
      map_append, reverse_append, map_replicate, reverse_replicate, map_reverse,
      map_take, List.map_map, List.map_map]
    dsimp only
    rw [hand, Nat.sub_sub_self hi, ← map_take]
    rfl
  refine ⟨_, hbits, ?_, ?_⟩
  · rw [length_append, length_replicate, length_map, length_take]
    omega
  · have hmap : value ((as.take (w - i)).map fun x => x && b) = b.toNat * value (as.take (w - i)) := by
      cases b
      · simp [value_replicate_false]
      · simp
    have hpow : 2 ^ i * 2 ^ (w - i) = 2 ^ w := by
      rw [← Nat.pow_add, Nat.add_sub_cancel' hi]
    have hnat : 2 ^ i * (b.toNat * (value as % 2 ^ (w - i))) = value as * (b.toNat * 2 ^ i) % 2 ^ w := by
      cases b
      · simp
      · rw [Bool.toNat_true, Nat.one_mul, Nat.one_mul, ← hpow, Nat.mul_comm (value as), Nat.mul_mod_mul_left]
    rw [value_append, value_replicate_false, length_replicate, hmap, value_take, Nat.zero_add, hnat]
    push_cast
    rfl

variable (bits : List Bool)

theorem sum_zipIdx (k : Nat) (x : Int) :
    ((bits.zipIdx k).map fun p => x * ((p.1.toNat : Int) * 2 ^ p.2)).sum = x * (value bits * 2 ^ k) := by
  induction bits generalizing k with
  | nil => simp
  | cons b bits ih =>
    rw [zipIdx_cons, map_cons, sum_cons, ih, value_cons, pow_succ]
    push_cast
    ring

theorem isNumber_shiftAdd (sgn : Bool) {bs : List Bool} (ha : as.length = w) (hb : bs.length = w) :
    IsNumber w (value as * value bs)
      (accumulate (partVals w (bitVals as)) sgn (bitVals bs).reverse.zipIdx (List.replicate w .L)) := by
  have hzip : (bitVals bs).reverse.zipIdx = bs.zipIdx.map fun p => (ofBool p.1, p.2) := by
    rw [bitVals, reverse_reverse, zipIdx_map]
    rfl
  have hparts : ∀ p ∈ bs.zipIdx, IsNumber w (value as * ((p.1.toNat : Int) * 2 ^ p.2))
      (partVals w (bitVals as) (ofBool p.1, p.2)) := by
    intro p hp
    have hlt : p.2 < bs.length := by
      simpa using snd_lt_add_of_mem_zipIdx hp
    exact_mod_cast isNumber_partVals ha p.1 (by omega)
  have hsum := isNumber_accumulate sgn hparts (isNumber_zero w)
  rw [sum_zipIdx, pow_zero, mul_one, zero_add] at hsum
  rw [hzip]
  unfold accumulate at hsum ⊢
  rw [foldl_map]
  exact hsum

def digit (i : Nat) : Nat := (bits.getD (2 * i) false).toNat + 2 * (bits.getD (2 * i + 1) false).toNat

theorem value_eq_digits {bits : List Bool} (h : bits.length = 8) :
    value bits = digit bits 0 + 4 * (digit bits 1 + 4 * (digit bits 2 + 4 * digit bits 3)) := by
  match bits, h with
  | [b0, b1, b2, b3, b4, b5, b6, b7], _ =>
    simp only [value_cons, value_nil, digit, getD_cons_zero, getD_cons_succ, Nat.mul_zero, Nat.zero_add,
      Nat.reduceMul, Nat.reduceAdd]
    ring

theorem tileBits_ofBool (a0 a1 b0 b1 : Bool) :
    ∃ bits, tileBits (ofBool a0) (ofBool a1) (ofBool b0) (ofBool b1) = bits.map ofBool ∧ bits.length = 4 ∧
      value bits = (a0.toNat + 2 * a1.toNat) * (b0.toNat + 2 * b1.toNat) := by
  refine ⟨[a0 && b0, (a0 && b1) ^^ (a1 && b0), (a1 && b1) ^^ (a0 && b1 && (a1 && b0)),
    a1 && b1 && (a0 && b1 && (a1 && b0))], ?_, rfl, ?_⟩
  · simp only [tileBits, logicAnd_ofBool, logicXor_ofBool, map_cons, map_nil]
  · cases a0 <;> cases a1 <;> cases b0 <;> cases b1 <;> rfl

theorem digitBit_bitVals (i : Nat) : digitBit (bitVals bits) i = ofBool (bits.getD i false) := by
  rw [digitBit, bitVals, reverse_reverse, getD_eq_getElem?_getD, getD_eq_getElem?_getD, getElem?_map]
  cases bits[i]? <;> rfl

theorem isNumber_tileVals (as bs : List Bool) (hp : p ∈ tilePairs) :
    IsNumber 16 (digit as p.1 * digit bs p.2 * 2 ^ (2 * (p.1 + p.2))) (tileVals (bitVals as) (bitVals bs) p) := by
  have hbound : p.1 < 4 ∧ p.2 < 4 := by
    revert p
    decide
  obtain ⟨bits, hbits, hlen, hval⟩ := tileBits_ofBool (as.getD (2 * p.1) false) (as.getD (2 * p.1 + 1) false)
    (bs.getD (2 * p.2) false) (bs.getD (2 * p.2 + 1) false)
  refine ⟨replicate (2 * (p.1 + p.2)) false ++ bits ++ replicate (12 - 2 * (p.1 + p.2)) false, ?_, ?_, ?_⟩
  · rw [tileVals, digitBit_bitVals, digitBit_bitVals, digitBit_bitVals, digitBit_bitVals, hbits, bitVals,
      map_append, map_append, map_replicate, map_replicate]
    rfl
  · rw [length_append, length_append, length_replicate, length_replicate, hlen]
    omega
  · have hnat : value (replicate (2 * (p.1 + p.2)) false ++ bits ++
        replicate (12 - 2 * (p.1 + p.2)) false) = digit as p.1 * digit bs p.2 * 2 ^ (2 * (p.1 + p.2)) := by
      rw [value_append, value_append, value_replicate_false, value_replicate_false, length_replicate, hval, digit,
        digit]
      ring
    have hlt : digit as p.1 * digit bs p.2 * 2 ^ (2 * (p.1 + p.2)) < 2 ^ 16 := by
      have := value_lt (replicate (2 * (p.1 + p.2)) false ++ bits ++
        replicate (12 - 2 * (p.1 + p.2)) false)
      rw [hnat, length_append, length_append, length_replicate, length_replicate, hlen,
        show 2 * (p.1 + p.2) + 4 + (12 - 2 * (p.1 + p.2)) = 16 by omega] at this
      exact this
    rw [hnat]
    exact_mod_cast (Nat.mod_eq_of_lt hlt).symm

theorem isNumber_tiles {bs : List Bool} (ha : as.length = 8) (hb : bs.length = 8) :
    IsNumber 16 (value as * value bs)
      (accumulate (tileVals (bitVals as) (bitVals bs)) false tilePairs (List.replicate 16 .L)) := by
  have hsum := isNumber_accumulate false (fun p hp => isNumber_tileVals as bs hp) (isNumber_zero 16)
  have hprod : (0 : Int) + (tilePairs.map fun p => (digit as p.1 : Int) * digit bs p.2 * 2 ^ (2 * (p.1 + p.2))).sum =
      value as * value bs := by
    rw [value_eq_digits ha, value_eq_digits hb]
    push_cast
    simp only [tilePairs, range_succ, range_zero, nil_append, cons_append, flatMap_cons,
      flatMap_nil, map_cons, map_nil, append_nil, sum_cons, sum_nil]
    ring
  rwa [hprod] at hsum

theorem isNumber_mul (sgn : Bool) (as bs : List Bool) :
    IsNumber (as.length + bs.length) (intValue sgn as * intValue sgn bs)
      (mulVals sgn (bitVals as) (bitVals bs)) := by
  have hmask {w : Nat} {z : Int} {vs : List LogicT} (h : IsNumber w z vs) :
      IsNumber w z (maskVals (bitVals as) (bitVals bs) vs) := by
    obtain ⟨bits, rfl, hbits⟩ := h
    exact ⟨bits, maskVals_bitVals as bs bits, hbits⟩
  rw [mulVals]
  apply hmask
  rw [productVals, length_bitVals, length_bitVals]
  by_cases hbytes : sgn = false ∧ as.length = 8 ∧ bs.length = 8
  · obtain ⟨rfl, ha, hb⟩ := hbytes
    have hself {bits : List Bool} (h : bits.length = 8) : extend false 8 bits = bits := by
      rw [extend, h, Nat.sub_self, replicate_zero, append_nil]
    rw [if_pos ⟨rfl, ha, hb⟩, resizeVals_bitVals false (Nat.le_of_eq ha), resizeVals_bitVals false (Nat.le_of_eq hb),
      hself ha, hself hb, ha, hb]
    exact isNumber_tiles ha hb
  · have hle : as.length ≤ as.length + bs.length := Nat.le_add_right _ _
    have hle' : bs.length ≤ as.length + bs.length := Nat.le_add_left _ _
    rw [if_neg hbytes]
    dsimp only
    rw [resizeVals_bitVals sgn hle, resizeVals_bitVals sgn hle']
    obtain ⟨bits, hbits, hlen, hval⟩ := isNumber_shiftAdd sgn (length_extend sgn hle) (length_extend sgn hle')
    refine ⟨bits, hbits, hlen, ?_⟩
    rw [hval, value_extend_mod sgn hle, value_extend_mod sgn hle', ← Int.mul_emod]

theorem mulVals_of_unknown {as bs : List LogicT} (h : ∃ v ∈ as ++ bs, v.isUnknown = true) :
    ∀ v ∈ mulVals sgn as bs, v = .X := maskVals_of_unknown h _

end PhyEngine.Verilog
