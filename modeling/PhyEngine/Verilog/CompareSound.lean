import PhyEngine.Verilog.ArithSound

/-!
# Comparisons

The scans of `compare_eq` and `compare_lt` from the most significant bit on, and the case
of different signs.
-/

namespace PhyEngine.Verilog

open LogicT BitNumbers List

/-- All pairs are equal, as `compare_eq` finds it. -/
def eqVals : List (LogicT × LogicT) → LogicT
  | [] => .X
  | p :: ps => ps.foldl (fun r q => logicAnd r (logicEq q.1 q.2)) (logicEq p.1 p.2)

/-- One round of `compare_lt`: whether all bits so far are equal, and whether they are less. -/
def ltStep (st : LogicT × LogicT) (p : LogicT × LogicT) : LogicT × LogicT :=
  (logicAnd st.1 (logicEq p.1 p.2), logicOr st.2 (logicAnd st.1 (logicAnd (logicNot p.1) p.2)))

def ltVals (ps : List (LogicT × LogicT)) : LogicT := (ps.foldl ltStep (.H, .L)).2

def ltSignedVals (sgn : Bool) (vs ws : List LogicT) : LogicT :=
  if sgn then
    let ltSign := logicAnd (vs.headD .X) (logicNot (ws.headD .X))
    if vs.length ≤ 1 then ltSign
    else muxVal (logicXor (vs.headD .X) (ws.headD .X)) ltSign (ltVals (vs.tail.zip ws.tail))
  else ltVals (vs.zip ws)

theorem eqVals_ofBool {ps : List (Bool × Bool)} (hne : ps ≠ []) :
    eqVals (ps.map fun p => (ofBool p.1, ofBool p.2)) = ofBool (ps.all fun p => p.1 == p.2) := by
  have hscan (ps : List (Bool × Bool)) (r : Bool) :
      (ps.map fun p => (ofBool p.1, ofBool p.2)).foldl (fun r q => logicAnd r (logicEq q.1 q.2)) (ofBool r) =
        ofBool (r && ps.all fun p => p.1 == p.2) := by
    induction ps generalizing r with
    | nil => simp
    | cons p ps ih =>
      rw [map_cons, foldl_cons]
      dsimp only
      rw [logicEq_ofBool, logicAnd_ofBool, ih, all_cons, Bool.and_assoc]
  obtain ⟨p, ps, rfl⟩ := exists_cons_of_ne_nil hne
  rw [map_cons, eqVals]
  dsimp only
  rw [logicEq_ofBool, hscan, all_cons]

theorem foldl_ltStep_ofBool (ps : List (Bool × Bool)) (e l : Bool) :
    ∃ e', (ps.map fun p => (ofBool p.1, ofBool p.2)).foldl ltStep (ofBool e, ofBool l) =
      (ofBool e', ofBool (l || e && ltBits ps)) := by
  induction ps generalizing e l with
  | nil => exact ⟨e, by simp [ltBits]⟩
  | cons p ps ih =>
    obtain ⟨a, b⟩ := p
    obtain ⟨e', he⟩ := ih (e && (a == b)) (l || e && (!a && b))
    refine ⟨e', ?_⟩
    rw [map_cons, foldl_cons, ltStep]
    dsimp only
    rw [logicEq_ofBool, logicNot_ofBool, logicAnd_ofBool, logicAnd_ofBool, logicAnd_ofBool, logicOr_ofBool, he, ltBits]
    congr 2
    cases e <;> cases l <;> cases a <;> cases b <;> simp

theorem ltVals_ofBool (ps : List (Bool × Bool)) :
    ltVals (ps.map fun p => (ofBool p.1, ofBool p.2)) = ofBool (ltBits ps) := by
  obtain ⟨e', h⟩ := foldl_ltStep_ofBool ps true false
  have hstart : (LogicT.H, LogicT.L) = (ofBool true, ofBool false) := rfl
  rw [ltVals, hstart, h]
  simp

theorem zip_bitVals (xs ys : List Bool) :
    (bitVals xs).zip (bitVals ys) = (xs.reverse.zip ys.reverse).map fun p => (ofBool p.1, ofBool p.2) := by
  rw [bitVals, bitVals, ← map_reverse, ← map_reverse]
  exact zip_map

variable {xs ys : List Bool}

theorem eqVals_bitVals (hlen : xs.length = ys.length) (hne : xs ≠ []) :
    eqVals ((bitVals xs).zip (bitVals ys)) = ofBool (decide (value xs = value ys)) := by
  have hpos : 0 < xs.length := length_pos_iff.mpr hne
  have hzip : xs.reverse.zip ys.reverse ≠ [] := by
    apply length_pos_iff.mp
    rw [length_zip, length_reverse, length_reverse]
    omega
  rw [zip_bitVals, eqVals_ofBool hzip, all_beq_eq, List.map_fst_zip (by simp [hlen]), map_snd_zip (by simp [hlen]),
    reverse_reverse, reverse_reverse]

theorem ltVals_bitVals (hlen : xs.length = ys.length) :
    ltVals ((bitVals xs).zip (bitVals ys)) = ofBool (decide (value xs < value ys)) := by
  rw [zip_bitVals, ltVals_ofBool, ltBits_eq, List.map_fst_zip (by simp [hlen]), map_snd_zip (by simp [hlen]),
    reverse_reverse, reverse_reverse]

theorem bitVals_concat (low : List Bool) (s : Bool) : bitVals (low ++ [s]) = ofBool s :: bitVals low := by
  rw [bitVals, map_append, reverse_append]
  rfl

theorem ltSignedVals_bitVals (sgn : Bool) (hlen : xs.length = ys.length) (hne : xs ≠ []) :
    ltSignedVals sgn (bitVals xs) (bitVals ys) = ofBool (decide (intValue sgn xs < intValue sgn ys)) := by
  cases sgn with
  | false =>
    rw [ltSignedVals, if_neg Bool.false_ne_true, ltVals_bitVals hlen]
    simp [intValue]
  | true =>
    have hney : ys ≠ [] := by
      rintro rfl
      exact hne (length_eq_zero_iff.mp hlen)
    obtain ⟨lx, sx, rfl⟩ := (eq_nil_or_concat' xs).resolve_left hne
    obtain ⟨ly, sy, rfl⟩ := (eq_nil_or_concat' ys).resolve_left hney
    have hlow : lx.length = ly.length := by simpa using hlen
    have hx := value_lt lx
    have hy := value_lt ly
    rw [ltSignedVals, if_pos rfl, bitVals_concat, bitVals_concat, intValue_concat, intValue_concat, hlow]
    dsimp only [headD_cons, tail_cons]
    rw [length_cons, length_bitVals, ltVals_bitVals hlow, logicXor_ofBool, logicNot_ofBool, logicAnd_ofBool,
      muxVal_ofBool, ← apply_ite ofBool]
    congr 1
    by_cases hone : lx.length + 1 ≤ 1
    · -- Without lower bits the sign decides alone.
      obtain rfl : lx = [] := length_eq_zero_iff.mp (by omega)
      obtain rfl : ly = [] := length_eq_zero_iff.mp (by omega)
      rw [if_pos hone]
      cases sx <;> cases sy <;> simp
    · rw [if_neg hone]
      have hx' : (value lx : Int) < 2 ^ ly.length := by
        rw [← hlow]
        exact_mod_cast hx
      have hy' : (value ly : Int) < 2 ^ ly.length := by exact_mod_cast hy
      cases sx <;> cases sy <;> simp <;> omega

section Spec

variable {N : List ExprNode} (values : List LogicT) {m : ExprBuilder}

def pairVals (N : List ExprNode) (values : List LogicT) (p : Nat × Nat) : LogicT × LogicT :=
  (rootVal N values p.1, rootVal N values p.2)

def ltRootStep (st : Nat × Nat) (p : Nat × Nat) : Build (Nat × Nat) := do
  let eqBit ← addNode (.binaryEq p.1 p.2)
  let na ← makeNot p.1
  let ltBit ← makeAnd na p.2
  let t ← makeAnd st.1 ltBit
  let lt ← makeOr st.2 t
  let eq ← makeAnd st.1 eqBit
  return (eq, lt)

instance (st p : Nat × Nat) : Grows (ltRootStep st p) := by
  unfold ltRootStep
  infer_instance

theorem ltScan_eq (bits : List (Nat × Nat)) :
    ltScan bits = (do
      let eqSoFar ← makeLiteral .H
      let lt ← makeLiteral .L
      let st ← bits.foldlM ltRootStep (eqSoFar, lt)
      pure st.2) := rfl

instance (bits : List (Nat × Nat)) : Grows (ltScan bits) := by
  rw [ltScan_eq]
  infer_instance

/-- What is known while `ps` are left of a scan with the result `total`. -/
def LtInv (N : List ExprNode) (values : List LogicT) (total : LogicT) (ps : List (Nat × Nat)) (st : Nat × Nat)
    (m : ExprBuilder) : Prop :=
  (∀ p ∈ ps, p.1 < m.size ∧ p.2 < m.size) ∧ st.1 < m.size ∧ st.2 < m.size ∧
    ((ps.map (pairVals N values)).foldl ltStep (pairVals N values st)).2 = total

theorem spec_ltRootStep (total : LogicT) (p : Nat × Nat) (ps : List (Nat × Nat)) (st : Nat × Nat) (m : ExprBuilder)
    (h : LtInv N values total (p :: ps) st m) :
    Spec N m (ltRootStep st p) fun st' m' => m.size ≤ m'.size → LtInv N values total ps st' m' := by
  obtain ⟨hps, hst1, hst2, htotal⟩ := h
  rw [forall_mem_cons] at hps
  obtain ⟨⟨hp1, hp2⟩, hps⟩ := hps
  apply (spec_makeEq values hp1 hp2).bind
  rintro eqBit m₁ h₁ ⟨heq, heqv⟩
  apply (spec_makeNot values (by omega)).bind
  rintro na m₂ h₂ ⟨hna, hnav⟩
  apply (spec_makeAnd values (by omega) (by omega)).bind
  rintro ltBit m₃ h₃ ⟨hlt, hltv⟩
  apply (spec_makeAnd values (by omega) (by omega)).bind
  rintro t m₄ h₄ ⟨ht, htv⟩
  apply (spec_makeOr values (by omega) (by omega)).bind
  rintro lt m₅ h₅ ⟨hlt', hltv'⟩
  apply (spec_makeAnd values (by omega) (by omega)).bind
  rintro eq m₆ h₆ ⟨heq', heqv'⟩
  refine Spec.pure fun hle => ⟨fun q hq => ?_, heq', by omega, ?_⟩
  · have := hps q hq
    omega
  · rw [← htotal, map_cons, foldl_cons, ltStep]
    dsimp only [pairVals]
    rw [heqv', hltv', heqv, htv, hltv, hnav]

theorem spec_ltScan {ps : List (Nat × Nat)} (hps : ∀ p ∈ ps, p.1 < m.size ∧ p.2 < m.size) :
    Spec N m (ltScan ps) (Has N values (ltVals (ps.map (pairVals N values)))) := by
  rw [ltScan_eq]
  apply (spec_makeLiteral values .H).bind
  rintro e m₁ h₁ ⟨he, hev⟩
  apply (spec_makeLiteral values .L).bind
  rintro l m₂ h₂ ⟨hl, hlv⟩
  have hstart : LtInv N values (ltVals (ps.map (pairVals N values))) ps (e, l) m₂ := by
    refine ⟨fun p hp => ?_, ?_, hl, ?_⟩
    · have := hps p hp
      omega
    · show e < m₂.size
      omega
    · rw [ltVals, pairVals, hev, hlv]
  apply (spec_foldlM (LtInv N values _) (fun p ps st m h => spec_ltRootStep values _ p ps st m h) hstart).bind
  rintro st m₃ h₃ ⟨-, -, hst, htotal⟩
  exact Spec.pure ⟨hst, htotal⟩

theorem compareLt_eq (a b : ExprValue) :
    compareLt a b = (do
      let p ← resizeOperands a b (max a.width b.width) (signedOp a b)
      if signedOp a b then
        if max a.width b.width ≤ 1 then do
          let nb ← makeNot (p.2.headD sizeMax)
          makeAnd (p.1.headD sizeMax) nb
        else do
          let diff ← makeXor (p.1.headD sizeMax) (p.2.headD sizeMax)
          let nb ← makeNot (p.2.headD sizeMax)
          let ltSign ← makeAnd (p.1.headD sizeMax) nb
          let ltMag ← ltScan (p.1.tail.zip p.2.tail)
          makeMux diff ltSign ltMag
      else ltScan (p.1.zip p.2)) := rfl

instance (a b : ExprValue) : Grows (compareLt a b) := by
  rw [compareLt_eq]
  infer_instance

variable {vs : List LogicT}

variable {rs : List Nat}

theorem has_headD (h : HasAll N values vs rs m) (hpos : 0 < vs.length) :
    Has N values (vs.headD .X) (rs.headD sizeMax) m := by
  have hlen : rs.length = vs.length := h.length values
  obtain ⟨r, rs, rfl⟩ := exists_cons_of_ne_nil (length_pos_iff.mp (show 0 < rs.length by omega))
  rw [← h.2]
  exact ⟨h.1 r mem_cons_self, rfl⟩

variable {ws : List LogicT} {as bs : List Nat}

theorem pairVals_zip (ha : HasAll N values vs as m)
    (hb : HasAll N values ws bs m) :
    (as.zip bs).map (pairVals N values) = vs.zip ws := by
  rw [← ha.2, ← hb.2, zip_map]
  rfl

theorem zip_lt (ha : HasAll N values vs as m) (hb : HasAll N values ws bs m) :
    ∀ p ∈ as.zip bs, p.1 < m.size ∧ p.2 < m.size := fun _ hp =>
  ⟨ha.1 _ (of_mem_zip hp).1, hb.1 _ (of_mem_zip hp).2⟩

theorem HasAll.tail {vs : List LogicT} (h : HasAll N values vs rs m) :
    HasAll N values vs.tail rs.tail m := by
  refine ⟨fun r hr => h.1 r (mem_of_mem_tail hr), ?_⟩
  rw [← h.2, map_tail]

variable {a b : ExprValue}

theorem spec_compareLt (ha : ValidIn m a) (hb : ValidIn m b) :
    Spec N m (compareLt a b) (Has N values (ltSignedVals (signedOp a b)
      (resizeVals (signedOp a b) (max a.width b.width) (valuesOf N values a))
      (resizeVals (signedOp a b) (max a.width b.width) (valuesOf N values b)))) := by
  have hapos := ha.width_pos
  rw [compareLt_eq]
  apply (spec_resizeOperands values (signedOp a b) ha.lt hb.lt ha.ne_nil hb.ne_nil (by omega)).bind
  rintro p m₁ h₁ ⟨hp, hq⟩
  rw [← valuesOf] at hp hq
  rw [ltSignedVals, length_resizeVals]
  generalize signedOp a b = sgn at hp hq ⊢
  cases sgn with
  | false =>
    rw [if_neg Bool.false_ne_true, if_neg Bool.false_ne_true, ← pairVals_zip values hp hq]
    exact spec_ltScan values (zip_lt values hp hq)
  | true =>
    rw [if_pos rfl, if_pos rfl]
    obtain ⟨hsa, hsav⟩ := has_headD values hp (by rw [length_resizeVals]; omega)
    obtain ⟨hsb, hsbv⟩ := has_headD values hq (by rw [length_resizeVals]; omega)
    by_cases h1 : max a.width b.width ≤ 1
    · rw [if_pos h1, if_pos h1]
      apply (spec_makeNot values hsb).bind
      rintro nb m₂ h₂ ⟨hnb, hnbv⟩
      apply (spec_makeAnd values (by omega) hnb).imp
      rintro r m₃ ⟨hr, hrv⟩
      exact ⟨hr, by rw [hrv, hnbv, hsav, hsbv]⟩
    · rw [if_neg h1, if_neg h1]
      apply (spec_makeXor values hsa hsb).bind
      rintro diff m₂ h₂ ⟨hd, hdv⟩
      apply (spec_makeNot values (by omega)).bind
      rintro nb m₃ h₃ ⟨hnb, hnbv⟩
      apply (spec_makeAnd values (by omega) hnb).bind
      rintro ltSign m₄ h₄ ⟨hs, hsv⟩
      have hp' := (hp.tail values).mono values (show m₁.size ≤ m₄.size by omega)
      have hq' := (hq.tail values).mono values (show m₁.size ≤ m₄.size by omega)
      apply (spec_ltScan values (zip_lt values hp' hq')).bind
      rintro ltMag m₅ h₅ ⟨hm, hmv⟩
      apply (spec_makeMux values (by omega) (by omega) hm).imp
      rintro r m₆ ⟨hr, hrv⟩
      refine ⟨hr, ?_⟩
      rw [hrv, hdv, hsv, hnbv, hmv, hsav, hsbv, pairVals_zip values hp' hq']

def eqRoots : List (Nat × Nat) → Build Nat
  | [] => pure sizeMax
  | q :: qs => do
    let r ← addNode (.binaryEq q.1 q.2)
    qs.foldlM (fun r q => addNode (.binaryEq q.1 q.2) >>= makeAnd r) r

instance (ps : List (Nat × Nat)) : Grows (eqRoots ps) := by
  unfold eqRoots
  split <;> infer_instance

theorem compareEq_eq (a b : ExprValue) :
    compareEq a b = (do
      let p ← resizeOperands a b (max a.width b.width) (signedOp a b)
      eqRoots (p.1.zip p.2)) := rfl

instance (a b : ExprValue) : Grows (compareEq a b) := by
  rw [compareEq_eq]
  infer_instance

/-- What is known while `qs` are left of a conjunction with the value `total`. -/
def EqInv (N : List ExprNode) (values : List LogicT) (total : LogicT) (qs : List (Nat × Nat)) (r : Nat)
    (m : ExprBuilder) : Prop :=
  (∀ p ∈ qs, p.1 < m.size ∧ p.2 < m.size) ∧ r < m.size ∧
    (qs.map (pairVals N values)).foldl (fun r q => logicAnd r (logicEq q.1 q.2)) (rootVal N values r) = total

theorem spec_eqStep (total : LogicT) (q : Nat × Nat) (qs : List (Nat × Nat)) (r : Nat) (m : ExprBuilder)
    (h : EqInv N values total (q :: qs) r m) :
    Spec N m (addNode (.binaryEq q.1 q.2) >>= makeAnd r) fun r' m' => m.size ≤ m'.size →
      EqInv N values total qs r' m' := by
  obtain ⟨hqs, hr, htotal⟩ := h
  rw [forall_mem_cons] at hqs
  obtain ⟨⟨hq1, hq2⟩, hqs⟩ := hqs
  apply (spec_makeEq values hq1 hq2).bind
  rintro e m₁ h₁ ⟨he, hev⟩
  apply (spec_makeAnd values (by omega) he).imp
  rintro r' m₂ ⟨hr', hrv'⟩ hle
  refine ⟨fun p hp => ?_, hr', ?_⟩
  · have := hqs p hp
    omega
  · rw [← htotal, map_cons, foldl_cons, hrv', hev]
    rfl

theorem spec_compareEq (ha : ValidIn m a) (hb : ValidIn m b) :
    Spec N m (compareEq a b) (Has N values (eqVals
      ((resizeVals (signedOp a b) (max a.width b.width) (valuesOf N values a)).zip
        (resizeVals (signedOp a b) (max a.width b.width) (valuesOf N values b))))) := by
  have hapos := ha.width_pos
  rw [compareEq_eq]
  apply (spec_resizeOperands values (signedOp a b) ha.lt hb.lt ha.ne_nil hb.ne_nil (by omega)).bind
  rintro p m₁ h₁ ⟨hp, hq⟩
  rw [← valuesOf] at hp hq
  rw [← pairVals_zip values hp hq]
  have hlt := zip_lt values hp hq
  have hpos : 0 < (p.1.zip p.2).length := by
    rw [length_zip, hp.length values, hq.length values, length_resizeVals, length_resizeVals]
    omega
  obtain ⟨q, qs, hzip⟩ := exists_cons_of_ne_nil (length_pos_iff.mp hpos)
  rw [hzip, forall_mem_cons] at hlt
  rw [hzip, map_cons, eqVals, eqRoots]
  apply (spec_makeEq values hlt.1.1 hlt.1.2).bind
  rintro r m₂ h₂ ⟨hr, hrv⟩
  have hstart : EqInv N values ((qs.map (pairVals N values)).foldl (fun r q => logicAnd r (logicEq q.1 q.2))
      (logicEq (pairVals N values q).1 (pairVals N values q).2)) qs r m₂ := by
    refine ⟨fun p hp => ?_, hr, by rw [hrv]; rfl⟩
    have := hlt.2 p hp
    omega
  apply (spec_foldlM (EqInv N values _) (fun q qs r m h => spec_eqStep values _ q qs r m h) hstart).imp
  rintro r' m₃ ⟨-, hr', htotal⟩
  exact ⟨hr', htotal⟩

end Spec

section Known

variable (sgn : Bool) {as bs : List Bool}

theorem ltSignedVals_resize (ha : as ≠ []) :
    ltSignedVals sgn (resizeVals sgn (max as.length bs.length) (bitVals as))
      (resizeVals sgn (max as.length bs.length) (bitVals bs)) =
        ofBool (decide (intValue sgn as < intValue sgn bs)) := by
  have hpos : 0 < as.length := length_pos_iff.mpr ha
  have hla := length_extend sgn (le_max_left as.length bs.length)
  have hlb := length_extend sgn (le_max_right as.length bs.length)
  rw [resizeVals_bitVals sgn (le_max_left _ _), resizeVals_bitVals sgn (le_max_right _ _),
    ltSignedVals_bitVals sgn (hla.trans hlb.symm) (length_pos_iff.mp (by omega)),
    intValue_extend sgn (le_max_left _ _), intValue_extend sgn (le_max_right _ _)]

theorem value_eq_iff_intValue_eq (hlen : xs.length = ys.length) :
    value xs = value ys ↔ intValue sgn xs = intValue sgn ys := by
  constructor
  · intro h
    rw [eq_of_value_eq hlen h]
  · intro h
    have hx := intValue_emod sgn xs
    have hy := intValue_emod sgn ys
    rw [h, hlen, hy] at hx
    exact_mod_cast hx.symm

theorem eqVals_resize (ha : as ≠ []) :
    eqVals ((resizeVals sgn (max as.length bs.length) (bitVals as)).zip
      (resizeVals sgn (max as.length bs.length) (bitVals bs))) =
        ofBool (decide (intValue sgn as = intValue sgn bs)) := by
  have hpos : 0 < as.length := length_pos_iff.mpr ha
  have hla := length_extend sgn (le_max_left as.length bs.length)
  have hlb := length_extend sgn (le_max_right as.length bs.length)
  rw [resizeVals_bitVals sgn (le_max_left _ _), resizeVals_bitVals sgn (le_max_right _ _),
    eqVals_bitVals (hla.trans hlb.symm) (length_pos_iff.mp (by omega))]
  congr 2
  rw [value_eq_iff_intValue_eq sgn (hla.trans hlb.symm), intValue_extend sgn (le_max_left _ _),
    intValue_extend sgn (le_max_right _ _)]

end Known

end PhyEngine.Verilog
