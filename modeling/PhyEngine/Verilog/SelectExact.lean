import PhyEngine.Verilog.Selects

/-!
# Variable and constant selects

A select with the index `k` should give the bits that a constant `k` picks. A variable index
finds the right bit as long as no index of the range is negative, but the multiplexers turn `Z`
into `X`, and an indexed part select knows the starts inside the range only.
-/

namespace PhyEngine.Verilog

open LogicT BitNumbers List Spec

/-- A value with as many bits as its range says, between two numbers of type `int`. -/
structure Ranged (v : ExprValue) : Prop where
  length : v.roots.length = (v.msb - v.lsb).natAbs + 1
  msb : -2 ^ 31 ≤ v.msb ∧ v.msb < 2 ^ 31
  lsb : -2 ^ 31 ≤ v.lsb ∧ v.lsb < 2 ^ 31

/-- The bit with an index among the bits of a range, unknown outside. -/
def bitAt (msb lsb : Int) (vs : List LogicT) (idx : Int) : LogicT :=
  ((vectorPos msb lsb idx).map fun pos => vs.getD pos .X).getD .X

/-- The bits that an indexed part select should give. -/
def sliceAt (msb lsb : Int) (vs : List LogicT) (w : Nat) (plus : Bool) (start : Int) : List LogicT :=
  (sliceIndices msb lsb w plus start).map (bitAt msb lsb vs)

theorem vectorPos_eq_some_iff {msb lsb idx : Int} {pos : Nat} :
    vectorPos msb lsb idx = some pos ↔ pos < (msb - lsb).natAbs + 1 ∧ vectorIndexAt msb lsb pos = idx := by
  rw [vectorPos, vectorIndexAt]
  by_cases hdesc : lsb ≤ msb
  · rw [if_pos hdesc, if_pos hdesc, Option.ite_none_right_eq_some, Option.some.injEq]
    omega
  · rw [if_neg hdesc, if_neg hdesc, Option.ite_none_right_eq_some, Option.some.injEq]
    omega

theorem length_indicesBetween (a b : Int) : (indicesBetween a b).length = (a - b).natAbs + 1 := by
  rw [indicesBetween]
  split_ifs
  · rw [length_map, length_range]
    omega
  · rw [length_map, length_range]
    omega

variable {w c : Nat} {start widthExpr : ExprValue}

theorem length_sliceIndices (msb lsb : Int) (hw : 0 < w) (plus : Bool) (start : Int) :
    (sliceIndices msb lsb w plus start).length = w := by
  rw [sliceIndices, length_indicesBetween, computeBounds]
  split_ifs
  all_goals
    dsimp only
    omega

theorem mem_candidateStarts {msb lsb s : Int} : s ∈ candidateStarts msb lsb ↔ 0 ≤ s ∧ min msb lsb ≤ s ∧
    s ≤ max msb lsb := by
  rw [candidateStarts, mem_filter, mem_map]
  constructor
  · rintro ⟨⟨i, hi, rfl⟩, hs⟩
    have hlt := mem_range.mp hi
    have hpos := of_decide_eq_true hs
    omega
  · rintro ⟨hpos, hmin, hmax⟩
    exact ⟨⟨(s - min msb lsb).toNat, mem_range.mpr (by omega), by omega⟩, decide_eq_true hpos⟩

theorem lt_two_pow_needBits {n : Nat} (h : n < 2 ^ 64) : n < 2 ^ needBits n := by
  rw [needBits]
  cases hfind : (List.range 63).find? fun i => n < 2 ^ (i + 1) with
  | none => exact h
  | some i =>
    have hlt := find?_some hfind
    exact of_decide_eq_true hlt

theorem needBits_pos (n : Nat) : 0 < needBits n := by
  rw [needBits]
  cases (List.range 63).find? fun i => n < 2 ^ (i + 1) with
  | none => exact Nat.succ_pos 63
  | some i => exact Nat.succ_pos i

section Spec

variable {N : List ExprNode} (values : List LogicT) {m : ExprBuilder}

theorem spec_resize {v : ExprValue} (hv : ValidIn m v) (hw : 0 < w) (sgn : Bool) :
    Spec N m (resize v w sgn) (HasValue N values v.isSigned (resizeVals sgn w (valuesOf N values v))) := by
  rw [resize]
  split_ifs with hone
  · have hw1 : w = 1 := by omega
    subst hw1
    apply (spec_resizeToVector values v sgn hv.lt hv.ne_nil Nat.one_pos).bind
    intro vv m₁ h₁ hvv
    rw [← valuesOf] at hvv
    obtain ⟨r, hr⟩ : ∃ r, vv = [r] := length_eq_one_iff.mp (by rw [hvv.length values, length_resizeVals])
    rw [hr] at hvv ⊢
    exact pure ⟨hvv, rfl, by rw [length_resizeVals]; rfl⟩
  · apply (spec_resizeToVector values v sgn hv.lt hv.ne_nil hw).bind
    intro vv m₁ h₁ hvv
    exact spec_finish values _ hvv (by rw [length_resizeVals]; exact hw)

theorem spec_makeUintLiteral {n : Nat} (hn : n < 2 ^ 64) (hw : 0 < w) :
    Spec N m (makeUintLiteral n w) (HasValue N values false (bitVals ((List.range w).map n.testBit))) := by
  have hbit (i : Nat) : (decide (i < 64) && n.testBit i) = n.testBit i := by
    by_cases hi : i < 64
    · rw [decide_eq_true hi, Bool.true_and]
    · rw [decide_eq_false hi, Bool.false_and, Nat.testBit_lt_two_pow]
      exact lt_of_lt_of_le hn (Nat.pow_le_pow_right (by omega) (by omega))
  rw [makeUintLiteral]
  split_ifs with hone
  · have hw1 : w = 1 := by omega
    subst hw1
    apply (spec_makeLiteral values _).bind
    intro r m₁ h₁ hr
    dsimp only at hr
    rw [hbit] at hr
    refine pure ⟨⟨fun q hq => ?_, ?_⟩, rfl, by rw [length_bitVals, length_map, length_range]; rfl⟩
    · rw [mem_singleton.mp hq]
      exact hr.1
    · exact singleton_inj.mpr hr.2
  · apply (spec_literalRoots values _ w).bind
    intro rs m₁ h₁ hrs
    have hvals : ((List.range w).map fun i => ofBool (decide (i < 64) && n.testBit i)).reverse =
        bitVals ((List.range w).map n.testBit) := by
      rw [bitVals, List.map_map]
      congr 2
      funext i
      exact congrArg ofBool (hbit i)
    rw [hvals] at hrs
    exact spec_finish values _ hrs (by rw [length_bitVals, length_map, length_range]; exact hw)

variable {sgn : Bool} {idxNorm base idx : ExprValue} {ks : List Bool}

theorem HasValue.mono {m' : ExprBuilder} {vs : List LogicT} {v : ExprValue} (h : HasValue N values sgn vs v m)
    (hle : m.size ≤ m'.size) : HasValue N values sgn vs v m' :=
  ⟨h.hasAll.mono values hle, h.isSigned, h.isVector⟩

instance (idxNorm : ExprValue) (cmpW : Nat) (idx : Int) : Grows (matchIndex idxNorm cmpW idx) := by
  unfold matchIndex
  infer_instance

theorem spec_matchIndex (hpos : 0 < ks.length) (h : HasValue N values sgn (bitVals ks) idxNorm m) (idx : Int) :
    Spec N m (matchIndex idxNorm ks.length idx)
      (Has N values (ofBool (decide (value ks = (idx % 2 ^ 64).toNat % 2 ^ ks.length)))) := by
  have hlt : (idx % 2 ^ 64).toNat < 2 ^ 64 := by omega
  apply (spec_makeUintLiteral values hlt hpos).bind
  intro lit m₁ h₁ hlit
  have hnorm := h.mono values h₁
  have hvalid : ValidIn m₁ idxNorm := hnorm.validIn values (by rw [length_bitVals]; exact hpos)
  have hlitv : ValidIn m₁ lit := hlit.validIn values (by rw [length_bitVals, length_map, length_range]; exact hpos)
  have hsgn : signedOp idxNorm lit = false := by rw [signedOp, hlit.isSigned, Bool.and_false]
  apply (spec_compareEq values hvalid hlitv).imp
  rintro r m₂ ⟨hr, hrv⟩
  refine ⟨hr, ?_⟩
  have hne : ks ≠ [] := length_pos_iff.mp hpos
  have hvn : valuesOf N values idxNorm = bitVals ks := hnorm.hasAll.2
  have hvl : valuesOf N values lit = bitVals ((List.range ks.length).map (idx % 2 ^ 64).toNat.testBit) := hlit.hasAll.2
  have hwn : idxNorm.width = ks.length := by rw [← @length_valuesOf N values, hvn, length_bitVals]
  have hwl : lit.width = ((List.range ks.length).map (idx % 2 ^ 64).toNat.testBit).length := by
    rw [← @length_valuesOf N values, hvl, length_bitVals]
  rw [hrv, hsgn, hvn, hvl, hwn, hwl, eqVals_resize false hne]
  congr 2
  rw [intValue, intValue, if_neg (by simp), if_neg (by simp), value_testBits]
  exact propext Nat.cast_inj

theorem foldl_select {α : Type} (p : α → Bool) (b : α → LogicT) (as : List α) :
    as.foldl (fun acc a => muxVal (ofBool (p a)) (b a) acc) .X = ((as.reverse.find? p).elim .X b).normalizeZToX := by
  induction as using reverseRecOn with
  | nil => rfl
  | append_singleton as a ih =>
    rw [foldl_append, ih, foldl_cons, foldl_nil, muxVal_known, reverse_append, reverse_singleton,
      singleton_append, find?_cons]
    cases p a with
    | true => rfl
    | false =>
      show normalizeZToX (normalizeZToX _) = _
      cases (find? p as.reverse).elim LogicT.X b <;> rfl

/-- The last position whose index agrees with `k` in the bits that are compared. -/
def lastMatch (msb lsb : Int) (cmpW k : Nat) : Option Nat :=
  (List.range ((msb - lsb).natAbs + 1)).reverse.find? fun pos =>
    k = (vectorIndexAt msb lsb pos % 2 ^ 64).toNat % 2 ^ cmpW

def selectStep (base idxNorm : ExprValue) (cmpW out pos : Nat) : Build Nat := do
  let cond ← matchIndex idxNorm cmpW (vectorIndexAt base.msb base.lsb pos)
  makeMux cond (base.roots.getD pos sizeMax) out

instance (base idxNorm : ExprValue) (cmpW out pos : Nat) : Grows (selectStep base idxNorm cmpW out pos) := by
  unfold selectStep
  infer_instance

theorem getD_roots (hbase : ValidIn m base) {pos : Nat} (hpos : pos < base.roots.length) :
    Has N values ((valuesOf N values base).getD pos .X) (base.roots.getD pos sizeMax) m := by
  rw [getD_eq_getElem _ _ hpos, getD_eq_getElem _ _ (by rw [valuesOf, length_map]; exact hpos)]
  refine ⟨hbase.lt _ (getElem_mem hpos), ?_⟩
  simp only [valuesOf, getElem_map]

/-- What is known while the positions `ps` are left of a select with the value `total`. -/
def SelectInv (N : List ExprNode) (values : List LogicT) (base idxNorm : ExprValue) (sgn : Bool) (ks : List Bool)
    (total : LogicT) (ps : List Nat) (out : Nat) (m : ExprBuilder) : Prop :=
  ValidIn m base ∧ HasValue N values sgn (bitVals ks) idxNorm m ∧ (∀ pos ∈ ps, pos < base.roots.length) ∧ out < m.size ∧
    ps.foldl (fun acc pos =>
      muxVal (ofBool (decide (value ks = (vectorIndexAt base.msb base.lsb pos % 2 ^ 64).toNat % 2 ^ ks.length)))
        ((valuesOf N values base).getD pos .X) acc) (rootVal N values out) = total

theorem spec_selectStep (hpos : 0 < ks.length) {total : LogicT} (pos : Nat) (ps : List Nat) (out : Nat)
    (m : ExprBuilder) (h : SelectInv N values base idxNorm sgn ks total (pos :: ps) out m) :
    Spec N m (selectStep base idxNorm ks.length out pos) fun out' m' =>
      m.size ≤ m'.size → SelectInv N values base idxNorm sgn ks total ps out' m' := by
  obtain ⟨hbase, hidx, hps, hout, htotal⟩ := h
  rw [forall_mem_cons] at hps
  apply (spec_matchIndex values hpos hidx _).bind
  rintro cond m₁ h₁ ⟨hcond, hcondv⟩
  obtain ⟨hbit, hbitv⟩ := getD_roots values (hbase.mono h₁) hps.1
  apply (spec_makeMux values hcond hbit (by omega)).imp
  rintro o m₂ ⟨ho, hov⟩ hle
  refine ⟨hbase.mono hle, hidx.mono values hle, hps.2, ho, ?_⟩
  rw [← htotal, foldl_cons, hov, hcondv, hbitv]

def bitCompareWidth (base idx : ExprValue) : Nat := max idx.width (needBits (max base.msb base.lsb % 2 ^ 64).toNat)

theorem applyBitSelect_const (hc : m.tryEvalConstInt idx = some c) :
    applyBitSelect base idx m = ((vectorPos base.msb base.lsb c).elim
      (makeLiteral .X >>= fun x => pure (makeScalar x 0 0 base.isSigned))
      fun pos => pure (makeScalar (base.roots.getD pos sizeMax) c c base.isSigned) : Build ExprValue) m := by
  unfold applyBitSelect
  simp only [get_bind_apply, hc]
  cases vectorPos base.msb base.lsb c <;> rfl

theorem applyBitSelect_var (hc : m.tryEvalConstInt idx = none) :
    applyBitSelect base idx m = (do
      let idxNorm ← resize idx (bitCompareWidth base idx) false
      let x ← makeLiteral .X
      let out ← (List.range base.roots.length).foldlM (selectStep base idxNorm (bitCompareWidth base idx)) x
      pure (makeScalar out 0 0 base.isSigned) : Build ExprValue) m := by
  unfold applyBitSelect
  rw [get_bind_apply, hc]
  rfl

theorem Spec.congr {α : Type} {x y : Build α} {Q : α → ExprBuilder → Prop} (h : x m = y m) (hy : Spec N m y Q) :
    Spec N m x Q := by
  intro hord hpre herr
  rw [h] at hpre herr ⊢
  exact hy hord hpre herr

theorem hasAll_makeScalar {v : LogicT} {r : Nat} (h : Has N values v r m) (msb lsb : Int) (sgn : Bool) :
    HasAll N values [v] (makeScalar r msb lsb sgn).roots m := by
  refine ⟨fun q hq => ?_, singleton_inj.mpr h.2⟩
  rw [mem_singleton.mp hq]
  exact h.1

theorem spec_bitSelect_const (hbase : ValidIn m base) (hranged : Ranged base) (hc : m.tryEvalConstInt idx = some c) :
    Spec N m (applyBitSelect base idx) fun v m' =>
      HasAll N values [bitAt base.msb base.lsb (valuesOf N values base) c] v.roots m' := by
  apply congr (applyBitSelect_const hc)
  rw [bitAt]
  cases hpos : vectorPos base.msb base.lsb c with
  | none =>
    apply (spec_makeLiteral values .X).bind
    intro x m₁ h₁ hx
    exact pure (hasAll_makeScalar values hx _ _ _)
  | some pos =>
    have hlt : pos < base.roots.length := hranged.length ▸ (vectorPos_eq_some_iff.mp hpos).1
    exact pure (hasAll_makeScalar values (getD_roots values hbase hlt) _ _ _)

theorem spec_bitSelect_var (hbase : ValidIn m base) (hranged : Ranged base) (hidx : ValidIn m idx)
    (hks : valuesOf N values idx = bitVals ks) (hc : m.tryEvalConstInt idx = none) :
    Spec N m (applyBitSelect base idx) fun v m' =>
      HasAll N values [((lastMatch base.msb base.lsb (bitCompareWidth base idx) (value ks)).elim .X fun pos =>
        (valuesOf N values base).getD pos .X).normalizeZToX] v.roots m' := by
  have hwidth : ks.length = idx.width := by rw [← length_bitVals, ← hks, length_valuesOf]
  have hle : ks.length ≤ bitCompareWidth base idx := by rw [hwidth]; exact le_max_left _ _
  have hlen : (extend false (bitCompareWidth base idx) ks).length = bitCompareWidth base idx := length_extend false hle
  have hval := value_extend_false (bitCompareWidth base idx) ks
  have hcmp : 0 < bitCompareWidth base idx := lt_of_lt_of_le (needBits_pos _) (le_max_right _ _)
  apply congr (applyBitSelect_var hc)
  apply (spec_resize values hidx hcmp false).bind
  intro idxNorm m₁ h₁ hnorm
  rw [hks, resizeVals_bitVals false hle] at hnorm
  apply (spec_makeLiteral values .X).bind
  rintro x m₂ h₂ ⟨hx, hxv⟩
  have hstart : SelectInv N values base idxNorm idx.isSigned (extend false (bitCompareWidth base idx) ks) _
      (List.range base.roots.length) x m₂ :=
    ⟨hbase.mono (by omega), hnorm.mono values h₂, fun pos hpos => mem_range.mp hpos, hx, rfl⟩
  have hloop := spec_foldlM (SelectInv N values base idxNorm idx.isSigned (extend false (bitCompareWidth base idx) ks)
    _)
    (spec_selectStep values (by rw [hlen]; exact hcmp)) hstart
  rw [hlen] at hloop
  apply hloop.bind
  rintro out m₃ h₃ ⟨-, -, -, hout, htotal⟩
  refine pure (hasAll_makeScalar values ⟨hout, ?_⟩ _ _ _)
  rw [foldl_nil] at htotal
  rw [htotal, hxv, hval, hranged.length]
  exact foldl_select _ _ _

instance (base : ExprValue) (w : Nat) (plus : Bool) (s : Int) : Grows (sliceBitsForStart base w plus s) := by
  unfold sliceBitsForStart
  infer_instance

theorem spec_sliceBitsForStart (hbase : ValidIn m base) (hranged : Ranged base) (w : Nat) (plus : Bool) (s : Int) :
    Spec N m (sliceBitsForStart base w plus s)
      (HasAll N values (sliceAt base.msb base.lsb (valuesOf N values base) w plus s)) := by
  apply (spec_makeLiteral values .X).bind
  intro x m₁ h₁ hx
  have hbit (idx : Int) : Has N values (bitAt base.msb base.lsb (valuesOf N values base) idx)
      (((vectorPos base.msb base.lsb idx).map fun pos => base.roots.getD pos sizeMax).getD x) m₁ := by
    rw [bitAt]
    cases hpos : vectorPos base.msb base.lsb idx with
    | none => exact hx
    | some pos =>
      have hlt : pos < base.roots.length := hranged.length ▸ (vectorPos_eq_some_iff.mp hpos).1
      exact getD_roots values (hbase.mono h₁) hlt
  refine pure ⟨fun r hr => ?_, ?_⟩
  · obtain ⟨idx, -, rfl⟩ := mem_map.mp hr
    exact (hbit idx).1
  · rw [List.map_map, sliceAt]
    exact map_congr_left fun idx _ => (hbit idx).2

theorem length_sliceAt (msb lsb : Int) (vs : List LogicT) (hw : 0 < w) (plus : Bool) (s : Int) :
    (sliceAt msb lsb vs w plus s).length = w := by
  rw [sliceAt, length_map, length_sliceIndices msb lsb hw]

def sliceStep (base idxNorm : ExprValue) (w : Nat) (plus : Bool) (cmpW : Nat) (out : List Nat) (s : Int) :
    Build (List Nat) := do
  let bits ← sliceBitsForStart base w plus s
  if bits.length ≠ out.length then pure out
  else do
    let cond ← matchIndex idxNorm cmpW s
    (bits.zip out).mapM fun p => makeMux cond p.1 p.2

instance (base idxNorm : ExprValue) (w : Nat) (plus : Bool) (cmpW : Nat) (out : List Nat) (s : Int) :
    Grows (sliceStep base idxNorm w plus cmpW out s) := by
  unfold sliceStep
  infer_instance

def sliceVals (base : ExprValue) (vs : List LogicT) (w : Nat) (plus : Bool) (cmpW k : Nat) (out : List LogicT)
    (s : Int) :
    List LogicT :=
  (if decide (k = (s % 2 ^ 64).toNat % 2 ^ cmpW) then sliceAt base.msb base.lsb vs w plus s else out).map normalizeZToX

/-- What is known while the starts `ss` are left of a select with the values `total`. -/
def SliceInv (N : List ExprNode) (values : List LogicT) (base idxNorm : ExprValue) (w : Nat) (plus sgn : Bool)
    (ks : List Bool) (total : List LogicT) (ss : List Int) (out : List Nat) (m : ExprBuilder) : Prop :=
  ValidIn m base ∧ HasValue N values sgn (bitVals ks) idxNorm m ∧ ∃ vs, vs.length = w ∧ HasAll N values vs out m ∧
    ss.foldl (sliceVals base (valuesOf N values base) w plus ks.length (value ks)) vs = total

theorem spec_sliceStep (hranged : Ranged base) (hw : 0 < w) {plus : Bool} (hpos : 0 < ks.length) {total : List LogicT}
    (s : Int) (ss : List Int) (out : List Nat) (m : ExprBuilder)
    (h : SliceInv N values base idxNorm w plus sgn ks total (s :: ss) out m) :
    Spec N m (sliceStep base idxNorm w plus ks.length out s) fun out' m' =>
      m.size ≤ m'.size → SliceInv N values base idxNorm w plus sgn ks total ss out' m' := by
  obtain ⟨hbase, hidx, vs, hlen, hout, htotal⟩ := h
  apply (spec_sliceBitsForStart values hbase hranged w plus s).bind
  intro bits m₁ h₁ hbits
  have hsame : bits.length = out.length := by
    rw [hbits.length values, hout.length values, hlen, length_sliceAt _ _ _ hw]
  rw [if_neg (not_not_intro hsame)]
  apply (spec_matchIndex values hpos (hidx.mono values h₁) s).bind
  intro cond m₂ h₂ hcond
  apply (spec_muxBits values hcond (hbits.mono values h₂) (hout.mono values (by omega))
    (by rw [length_sliceAt _ _ _ hw, hlen])).imp
  intro out' m₃ hout' hle
  refine ⟨hbase.mono hle, hidx.mono values hle, _, ?_, hout', ?_⟩
  · rw [length_map]
    split_ifs
    · exact length_sliceAt _ _ _ hw _ _
    · exact hlen
  · rw [← htotal, foldl_cons, sliceVals]

theorem foldl_sliceVals (vs : List LogicT) (w : Nat) (plus : Bool) {cmpW k : Nat} {ss : List Int}
    (hss : ∀ s ∈ ss, (k = (s % 2 ^ 64).toNat % 2 ^ cmpW ↔ s = k)) :
    ss.foldl (sliceVals base vs w plus cmpW k) (List.replicate w .X) =
      if (k : Int) ∈ ss then (sliceAt base.msb base.lsb vs w plus k).map normalizeZToX else List.replicate w .X := by
  have hnorm (us : List LogicT) : (us.map normalizeZToX).map normalizeZToX = us.map normalizeZToX := by
    rw [List.map_map]
    exact map_congr_left fun v _ => by cases v <;> rfl
  have hX : (replicate w LogicT.X).map normalizeZToX = replicate w .X := by
    rw [map_replicate]
    rfl
  induction ss using reverseRecOn with
  | nil => rfl
  | append_singleton ss s ih =>
    have hs := hss s (mem_append_right _ (mem_singleton.mpr rfl))
    rw [foldl_append, ih fun s' hs' => hss s' (mem_append_left _ hs'), foldl_cons, foldl_nil, sliceVals]
    by_cases hk : s = k
    · rw [if_pos (decide_eq_true (hs.mpr hk)), hk, if_pos (by simp)]
    · rw [if_neg fun h => hk (hs.mp (of_decide_eq_true h))]
      have hmem : (k : Int) ∈ ss ++ [s] ↔ (k : Int) ∈ ss := by
        rw [mem_append, mem_singleton]
        exact ⟨fun h => h.resolve_right fun h => hk h.symm, .inl⟩
      rw [if_congr hmem rfl rfl]
      split_ifs
      · exact hnorm _
      · exact hX

def sliceCompareWidth (base start : ExprValue) : Nat := max start.width (needBits (max base.msb base.lsb).toNat)

theorem applyIndexedPartSelect_const (plus : Bool) (hw : 0 < w) (hwidth : m.tryEvalConstInt widthExpr = some w)
    (hc : m.tryEvalConstInt start = some c) :
    applyIndexedPartSelect base start widthExpr plus m = (do
      let bits ← sliceBitsForStart base w plus c
      makeVectorWithRange bits (computeBounds base.msb base.lsb w plus c).1 (computeBounds base.msb base.lsb w plus c).2
        base.isSigned : Build ExprValue) m := by
  obtain ⟨w, rfl⟩ : ∃ w', w = w' + 1 := ⟨w - 1, by omega⟩
  unfold applyIndexedPartSelect
  rw [get_bind_apply, hwidth]
  dsimp only
  rw [hc]
  rfl

theorem applyIndexedPartSelect_var (plus : Bool) (hw : 0 < w) (hwidth : m.tryEvalConstInt widthExpr = some w)
    (hc : m.tryEvalConstInt start = none) :
    applyIndexedPartSelect base start widthExpr plus m = (if max base.msb base.lsb < 0 then makeUnknownVector w false
      else do
        let idxNorm ← resize start (sliceCompareWidth base start) false
        let x ← makeLiteral .X
        let out ← (candidateStarts base.msb base.lsb).foldlM
          (sliceStep base idxNorm w plus (sliceCompareWidth base start))
          (List.replicate w x)
        makeVector out base.isSigned : Build ExprValue) m := by
  obtain ⟨w, rfl⟩ : ∃ w', w = w' + 1 := ⟨w - 1, by omega⟩
  unfold applyIndexedPartSelect
  rw [get_bind_apply, hwidth]
  dsimp only
  rw [hc]
  rfl

theorem spec_makeVectorWithRange {roots : List Nat} {vs : List LogicT} (h : HasAll N values vs roots m)
    (hne : roots ≠ [])
    (msb lsb : Int) (sgn : Bool) :
    Spec N m (makeVectorWithRange roots msb lsb sgn) fun v m' => HasAll N values vs v.roots m' := by
  match roots, hne with
  | [r], _ => exact pure h
  | r :: r' :: rs, _ => exact pure h

theorem spec_makeUnknownVector (hw : 0 < w) (sgn : Bool) :
    Spec N m (makeUnknownVector w sgn) fun v m' => HasAll N values (List.replicate w .X) v.roots m' := by
  rw [makeUnknownVector]
  apply (spec_makeLiteral values .X).bind
  intro x m₁ h₁ hx
  split_ifs with hone
  · have hw1 : w = 1 := by omega
    subst hw1
    exact pure (hasAll_makeScalar values hx _ _ _)
  · have hall : HasAll N values (replicate w .X) (replicate w x) m₁ := by
      refine ⟨fun r hr => ?_, ?_⟩
      · rw [(mem_replicate.mp hr).2]
        exact hx.1
      · rw [map_replicate, hx.2]
    apply (spec_finish values sgn hall (by rw [length_replicate]; exact hw)).imp
    exact fun v m' hv => hv.hasAll

theorem spec_partSelect_const (hbase : ValidIn m base) (hranged : Ranged base) (plus : Bool) (hw : 0 < w)
    (hwidth : m.tryEvalConstInt widthExpr = some w) (hc : m.tryEvalConstInt start = some c) :
    Spec N m (applyIndexedPartSelect base start widthExpr plus) fun v m' =>
      HasAll N values (sliceAt base.msb base.lsb (valuesOf N values base) w plus c) v.roots m' := by
  apply congr (applyIndexedPartSelect_const plus hw hwidth hc)
  apply (spec_sliceBitsForStart values hbase hranged w plus c).bind
  intro bits m₁ h₁ hbits
  refine spec_makeVectorWithRange values hbits (length_pos_iff.mp ?_) _ _ _
  rw [hbits.length values, length_sliceAt _ _ _ hw]
  exact hw

theorem eq_candidate_iff (hranged : Ranged base) {s : Int} (hs : s ∈ candidateStarts base.msb base.lsb) (k : Nat) :
    k = (s % 2 ^ 64).toNat % 2 ^ sliceCompareWidth base start ↔ s = k := by
  obtain ⟨hpos, -, hmax⟩ := mem_candidateStarts.mp hs
  have hmsb := hranged.msb
  have hlsb := hranged.lsb
  have hneed : (max base.msb base.lsb).toNat < 2 ^ needBits (max base.msb base.lsb).toNat :=
    lt_two_pow_needBits (by omega)
  have hcmp : 2 ^ needBits (max base.msb base.lsb).toNat ≤ 2 ^ sliceCompareWidth base start :=
    Nat.pow_le_pow_right (by omega) (le_max_right _ _)
  have hmod : (s % 2 ^ 64).toNat % 2 ^ sliceCompareWidth base start = s.toNat := by
    rw [Int.emod_eq_of_lt hpos (by omega), Nat.mod_eq_of_lt (by omega)]
  rw [hmod]
  omega

theorem spec_partSelect_loop (hbase : ValidIn m base) (hranged : Ranged base) (hstart : ValidIn m start)
    (hks : valuesOf N values start = bitVals ks) (plus : Bool) (hw : 0 < w) :
    Spec N m (do
      let idxNorm ← resize start (sliceCompareWidth base start) false
      let x ← makeLiteral .X
      let out ← (candidateStarts base.msb base.lsb).foldlM
        (sliceStep base idxNorm w plus (sliceCompareWidth base start))
        (List.replicate w x)
      makeVector out base.isSigned) fun v m' =>
      HasAll N values (if (value ks : Int) ∈ candidateStarts base.msb base.lsb then
        (sliceAt base.msb base.lsb (valuesOf N values base) w plus (value ks)).map normalizeZToX
        else List.replicate w .X) v.roots m' := by
  have hlenks : ks.length = start.width := by rw [← length_bitVals, ← hks, length_valuesOf]
  have hle : ks.length ≤ sliceCompareWidth base start := by rw [hlenks]; exact le_max_left _ _
  have hlen : (extend false (sliceCompareWidth base start) ks).length = sliceCompareWidth base start :=
    length_extend false hle
  have hval := value_extend_false (sliceCompareWidth base start) ks
  have hcmp : 0 < sliceCompareWidth base start := lt_of_lt_of_le (needBits_pos _) (le_max_right _ _)
  apply (spec_resize values hstart hcmp false).bind
  intro idxNorm m₁ h₁ hnorm
  rw [hks, resizeVals_bitVals false hle] at hnorm
  apply (spec_makeLiteral values .X).bind
  rintro x m₂ h₂ ⟨hx, hxv⟩
  have hreplicate : HasAll N values (replicate w .X) (replicate w x) m₂ := by
    refine ⟨fun r hr => ?_, ?_⟩
    · rw [(mem_replicate.mp hr).2]
      exact hx
    · rw [map_replicate, hxv]
  have hinv : SliceInv N values base idxNorm w plus start.isSigned (extend false (sliceCompareWidth base start) ks) _
      (candidateStarts base.msb base.lsb) (replicate w x) m₂ :=
    ⟨hbase.mono (by omega), hnorm.mono values h₂, _, length_replicate, hreplicate, rfl⟩
  have hloop := spec_foldlM (SliceInv N values base idxNorm w plus start.isSigned
    (extend false (sliceCompareWidth base start) ks) _) (spec_sliceStep values hranged hw (by rw [hlen]; exact hcmp))
      hinv
  rw [hlen, hval, foldl_sliceVals _ _ _ fun s hs => eq_candidate_iff hranged hs (value ks)] at hloop
  apply hloop.bind
  rintro out m₃ h₃ ⟨-, -, vs, hvs, hout, htotal⟩
  rw [foldl_nil] at htotal
  rw [htotal] at hvs hout
  apply (spec_finish values base.isSigned hout (by rw [hvs]; exact hw)).imp
  exact fun v m' hv => hv.hasAll

theorem spec_partSelect_var (hbase : ValidIn m base) (hranged : Ranged base) (hstart : ValidIn m start)
    (hks : valuesOf N values start = bitVals ks) (plus : Bool) (hw : 0 < w)
    (hwidth : m.tryEvalConstInt widthExpr = some w) (hc : m.tryEvalConstInt start = none) :
    Spec N m (applyIndexedPartSelect base start widthExpr plus) fun v m' =>
      HasAll N values (if (value ks : Int) ∈ candidateStarts base.msb base.lsb then
        (sliceAt base.msb base.lsb (valuesOf N values base) w plus (value ks)).map normalizeZToX
        else List.replicate w .X) v.roots m' := by
  apply congr (applyIndexedPartSelect_var plus hw hwidth hc)
  by_cases hneg : max base.msb base.lsb < 0
  · -- A range of negative indices has no starts.
    have hout : (value ks : Int) ∉ candidateStarts base.msb base.lsb := by
      rw [mem_candidateStarts]
      omega
    rw [if_pos hneg, if_neg hout]
    exact spec_makeUnknownVector values hw false
  · rw [if_neg hneg]
    exact spec_partSelect_loop values hbase hranged hstart hks plus hw

end Spec

instance (base idx : ExprValue) : Grows (applyBitSelect base idx) := by
  constructor
  intro m
  cases hc : m.tryEvalConstInt idx with
  | some c =>
    rw [applyBitSelect_const hc]
    cases vectorPos base.msb base.lsb c with
    | none =>
      rw [Option.elim_none]
      exact Grows.grew m
    | some pos =>
      rw [Option.elim_some]
      exact Grows.grew m
  | none =>
    rw [applyBitSelect_var hc]
    exact Grows.grew m

instance (w : Nat) (sgn : Bool) : Grows (makeUnknownVector w sgn) := by
  unfold makeUnknownVector
  infer_instance

theorem grew_applyIndexedPartSelect {m : ExprBuilder} {base start widthExpr : ExprValue} {w : Nat} (plus : Bool)
    (hw : 0 < w)
    (hwidth : m.tryEvalConstInt widthExpr = some w) :
      Grew m (applyIndexedPartSelect base start widthExpr plus m).2 := by
  cases hc : m.tryEvalConstInt start with
  | some c =>
    rw [applyIndexedPartSelect_const plus hw hwidth hc]
    exact Grows.grew m
  | none =>
    rw [applyIndexedPartSelect_var plus hw hwidth hc]
    exact Grows.grew m

theorem lastMatch_eq {base : ExprValue} (hranged : Ranged base) (hmin : 0 ≤ min base.msb base.lsb) {cmpW : Nat}
    (hcmp : needBits (max base.msb base.lsb % 2 ^ 64).toNat ≤ cmpW) (k : Nat) :
    lastMatch base.msb base.lsb cmpW k = vectorPos base.msb base.lsb k := by
  have hmsb := hranged.msb
  have hlsb := hranged.lsb
  have hneed : (max base.msb base.lsb % 2 ^ 64).toNat < 2 ^ needBits (max base.msb base.lsb % 2 ^ 64).toNat :=
    lt_two_pow_needBits (by omega)
  have hpow : 2 ^ needBits (max base.msb base.lsb % 2 ^ 64).toNat ≤ 2 ^ cmpW := Nat.pow_le_pow_right (by omega) hcmp
  have hmatch {pos : Nat} (hpos : pos < (base.msb - base.lsb).natAbs + 1) :
      k = (vectorIndexAt base.msb base.lsb pos % 2 ^ 64).toNat % 2 ^ cmpW ↔
        vectorPos base.msb base.lsb k = some pos := by
    have hidx : 0 ≤ vectorIndexAt base.msb base.lsb pos ∧ vectorIndexAt base.msb base.lsb pos ≤
      max base.msb base.lsb := by
      rw [vectorIndexAt]
      split_ifs <;> omega
    have hmod : (vectorIndexAt base.msb base.lsb pos % 2 ^ 64).toNat % 2 ^ cmpW =
      (vectorIndexAt base.msb base.lsb pos).toNat := by
      rw [Int.emod_eq_of_lt hidx.1 (by omega), Nat.mod_eq_of_lt (by omega)]
    rw [vectorPos_eq_some_iff, hmod]
    omega
  cases hfind : lastMatch base.msb base.lsb cmpW k with
  | some pos =>
    have hlt := mem_range.mp (mem_reverse.mp (mem_of_find?_eq_some hfind))
    rw [lastMatch] at hfind
    have heq := find?_some hfind
    exact ((hmatch hlt).mp (of_decide_eq_true heq)).symm
  | none =>
    cases hpos : vectorPos base.msb base.lsb k with
    | none => rfl
    | some pos =>
      have hlt := (vectorPos_eq_some_iff.mp hpos).1
      have hnone := find?_eq_none.mp hfind pos (mem_reverse.mpr (mem_range.mpr hlt))
      exact absurd (decide_eq_true ((hmatch hlt).mpr hpos)) hnone

section Exact

variable {m : ExprBuilder} {base idx : ExprValue} {values : List LogicT}

/-- When a bit select gives bit `k`: a constant picks it, or the comparisons find it and it is not
`Z`. Where an index of the range is negative they may find another bit, which has to have the same
value. -/
def BitSelectAgrees (m : ExprBuilder) (base idx : ExprValue) (values : List LogicT) (k : Nat) : Prop :=
  match m.tryEvalConstInt idx with
  | some c => bitAt base.msb base.lsb (m.denote base values) c = bitAt base.msb base.lsb (m.denote base values) k
  | none =>
    if lastMatch base.msb base.lsb (bitCompareWidth base idx) k = vectorPos base.msb base.lsb k then
      bitAt base.msb base.lsb (m.denote base values) k ≠ .Z
    else ((lastMatch base.msb base.lsb (bitCompareWidth base idx) k).elim .X fun pos =>
        (m.denote base values).getD pos .X).normalizeZToX = bitAt base.msb base.lsb (m.denote base values) k

/-- When an indexed part select gives the bits from `k` on: a constant picks them, or `k` is in
the range and none of them is `Z`, or it is outside and they are all unknown. -/
def PartSelectAgrees (m : ExprBuilder) (base idx : ExprValue) (values : List LogicT) (w : Nat) (plus : Bool) (k : Nat) :
    Prop :=
  match m.tryEvalConstInt idx with
  | some c => sliceAt base.msb base.lsb (m.denote base values) w plus c =
      sliceAt base.msb base.lsb (m.denote base values) w plus k
  | none =>
    if min base.msb base.lsb ≤ k ∧ (k : Int) ≤ max base.msb base.lsb then
      .Z ∉ sliceAt base.msb base.lsb (m.denote base values) w plus k
    else ∀ v ∈ sliceAt base.msb base.lsb (m.denote base values) w plus k, v = .X

theorem normalizeZToX_eq_self {v : LogicT} : v.normalizeZToX = v ↔ v ≠ .Z := by
  cases v <;> decide

variable (hord : OperandsFirst m.exprNodes) (hbase : ValidIn m base) (hranged : Ranged base)

include hord hbase hranged

theorem resultBits_bitSelect_const (hc : m.tryEvalConstInt idx = some c) (hq : NoError (applyBitSelect base idx) m) :
    resultBits (applyBitSelect base idx) m values = [bitAt base.msb base.lsb (m.denote base values) c] := by
  have hpre : m.exprNodes <+: (applyBitSelect base idx m).2.exprNodes :=
    (Grows.grew (x := applyBitSelect base idx) m).nodes
  obtain ⟨-, hv⟩ := spec_bitSelect_const values hbase hranged hc hord (prefix_refl _) hq
  rw [← hbase.valuesOf_eq hord hpre]
  exact hv.2

theorem resultBits_partSelect_const (plus : Bool) (hw : 0 < w) (hwidth : m.tryEvalConstInt widthExpr = some w)
    (hc : m.tryEvalConstInt idx = some c) (hq : NoError (applyIndexedPartSelect base idx widthExpr plus) m) :
    resultBits (applyIndexedPartSelect base idx widthExpr plus) m values =
      sliceAt base.msb base.lsb (m.denote base values) w plus c := by
  have hpre := (@grew_applyIndexedPartSelect m base idx widthExpr w plus hw hwidth).nodes
  obtain ⟨-, hv⟩ := spec_partSelect_const values hbase hranged plus hw hwidth hc hord (prefix_refl _) hq
  rw [← hbase.valuesOf_eq hord hpre]
  exact hv.2

variable (hidx : ValidIn m idx) {ks : List Bool} (hks : m.denote idx values = bitVals ks)

include hidx hks

theorem bitSelect_iff (hq : NoError (applyBitSelect base idx) m) :
    resultBits (applyBitSelect base idx) m values = [bitAt base.msb base.lsb (m.denote base values) (value ks)] ↔
      BitSelectAgrees m base idx values (value ks) := by
  rw [BitSelectAgrees]
  cases hc : m.tryEvalConstInt idx with
  | some c => rw [resultBits_bitSelect_const hord hbase hranged hc hq, singleton_inj]
  | none =>
    have hpre : m.exprNodes <+: (applyBitSelect base idx m).2.exprNodes :=
      (Grows.grew (x := applyBitSelect base idx) m).nodes
    rw [← hidx.valuesOf_eq hord hpre] at hks
    obtain ⟨-, hv⟩ := spec_bitSelect_var values hbase hranged hidx hks hc hord (prefix_refl _) hq
    rw [hbase.valuesOf_eq hord hpre] at hv
    have hbits : resultBits (applyBitSelect base idx) m values = _ := hv.2
    rw [hbits, singleton_inj]
    dsimp only
    split_ifs with hmatch
    · have hsame : ((lastMatch base.msb base.lsb (bitCompareWidth base idx) (value ks)).elim .X fun pos =>
          (m.denote base values).getD pos .X) = bitAt base.msb base.lsb (m.denote base values) (value ks) := by
        rw [hmatch, bitAt]
        cases vectorPos base.msb base.lsb (value ks) <;> rfl
      rw [hsame, normalizeZToX_eq_self]
    · exact Iff.rfl

theorem partSelect_iff (plus : Bool) (hw : 0 < w) (hwidth : m.tryEvalConstInt widthExpr = some w)
    (hq : NoError (applyIndexedPartSelect base idx widthExpr plus) m) :
    resultBits (applyIndexedPartSelect base idx widthExpr plus) m values =
        sliceAt base.msb base.lsb (m.denote base values) w plus (value ks) ↔
      PartSelectAgrees m base idx values w plus (value ks) := by
  rw [PartSelectAgrees]
  cases hc : m.tryEvalConstInt idx with
  | some c => rw [resultBits_partSelect_const hord hbase hranged plus hw hwidth hc hq]
  | none =>
    have hpre := (@grew_applyIndexedPartSelect m base idx widthExpr w plus hw hwidth).nodes
    rw [← hidx.valuesOf_eq hord hpre] at hks
    obtain ⟨-, hv⟩ := spec_partSelect_var values hbase hranged hidx hks plus hw hwidth hc hord (prefix_refl _) hq
    rw [hbase.valuesOf_eq hord hpre] at hv
    have hbits : resultBits (applyIndexedPartSelect base idx widthExpr plus) m values = _ := hv.2
    have hmem : (value ks : Int) ∈ candidateStarts base.msb base.lsb ↔
        min base.msb base.lsb ≤ (value ks : Int) ∧ (value ks : Int) ≤ max base.msb base.lsb := by
      rw [mem_candidateStarts]
      omega
    rw [hbits, if_congr hmem rfl rfl]
    dsimp only
    split_ifs with hin
    · exact map_normalizeZToX_eq_self
    · rw [eq_comm, eq_replicate_iff, and_iff_right (length_sliceAt _ _ _ hw _ _)]

/-- Selects with a constant index give the bits of the range and `X` outside, and exactly when
variable selects do. Without negative indices in the range a bit select finds the right bit. -/
theorem selects_agree_iff :
    (∀ lit c, m.tryEvalConstInt lit = some c → NoError (applyBitSelect base lit) m →
      resultBits (applyBitSelect base lit) m values = [bitAt base.msb base.lsb (m.denote base values) c]) ∧
    (NoError (applyBitSelect base idx) m →
      (resultBits (applyBitSelect base idx) m values = [bitAt base.msb base.lsb (m.denote base values) (value ks)] ↔
        BitSelectAgrees m base idx values (value ks))) ∧
    (0 ≤ min base.msb base.lsb →
      lastMatch base.msb base.lsb (bitCompareWidth base idx) (value ks) = vectorPos base.msb base.lsb (value ks)) ∧
    ∀ widthExpr w plus, m.tryEvalConstInt widthExpr = some w → 0 < w →
      (∀ lit c, m.tryEvalConstInt lit = some c → NoError (applyIndexedPartSelect base lit widthExpr plus) m →
        resultBits (applyIndexedPartSelect base lit widthExpr plus) m values =
          sliceAt base.msb base.lsb (m.denote base values) w plus c) ∧
      (NoError (applyIndexedPartSelect base idx widthExpr plus) m →
        (resultBits (applyIndexedPartSelect base idx widthExpr plus) m values =
            sliceAt base.msb base.lsb (m.denote base values) w plus (value ks) ↔
          PartSelectAgrees m base idx values w plus (value ks))) := by
  refine ⟨fun lit c hc hq => resultBits_bitSelect_const hord hbase hranged hc hq,
    fun hq => bitSelect_iff hord hbase hranged hidx hks hq,
    fun hmin => lastMatch_eq hranged hmin (le_max_right _ _) (value ks), fun widthExpr w plus hwidth hw => ⟨?_, ?_⟩⟩
  · exact fun lit c hc hq => resultBits_partSelect_const hord hbase hranged plus hw hwidth hc hq
  · exact fun hq => partSelect_iff hord hbase hranged hidx hks plus hw hwidth hq

end Exact

/-- A vector `[3:0]`, an index of three bits and the literals 0 and 1. -/
def selectArena : ExprBuilder := { exprNodes := (List.range 7).map .signal ++ [.literal .L, .literal .H] }

def fourBits : ExprValue := { isVector := true, vectorRoots := [0, 1, 2, 3], msb := 3 }

def indexBits : ExprValue := { isVector := true, vectorRoots := [4, 5, 6], msb := 2 }

def literalFour : ExprValue := { isVector := true, vectorRoots := [8, 7, 7], msb := 2 }

def literalFive : ExprValue := { isVector := true, vectorRoots := [8, 7, 8], msb := 2 }

theorem operandsFirst_selectArena : OperandsFirst selectArena.exprNodes := by
  intro i n hi c hc
  rcases mem_append.mp (List.mem_of_getElem? hi) with h | h
  · obtain ⟨s, -, rfl⟩ := mem_map.mp h
    cases hc
  · rcases mem_cons.mp h with rfl | h
    · cases hc
    · rw [mem_singleton.mp h] at hc
      cases hc

/-- Bit 2 of a vector with a variable index. -/
theorem selects_agree_iff_two :
    resultBits (applyBitSelect fourBits indexBits) selectArena [.H, .L, .H, .Z, .L, .H, .L] = [.L] := by
  have hbase : ValidIn selectArena fourBits := ⟨by decide, by decide⟩
  have hidx : ValidIn selectArena indexBits := ⟨by decide, by decide⟩
  have hranged : Ranged fourBits := ⟨rfl, by decide, by decide⟩
  have hks : selectArena.denote indexBits [.H, .L, .H, .Z, .L, .H, .L] = bitVals [false, true, false] := rfl
  have hagree := (selects_agree_iff operandsFirst_selectArena hbase hranged hidx hks).2.1 (by decide +kernel)
  apply hagree.mpr
  have hvar : selectArena.tryEvalConstInt indexBits = none := by decide +kernel
  rw [BitSelectAgrees, hvar]
  dsimp only
  rw [if_pos (by decide +kernel)]
  decide

/-- Four bits down from index 5 of a vector `[3:0]`: a constant index finds the two that are
there, a variable one none. -/
theorem partSelect_misses_bits :
    selectArena.denote indexBits [.H, .H, .H, .H, .H, .L, .H] =
      selectArena.denote literalFive [.H, .H, .H, .H, .H, .L, .H] ∧
      resultBits (applyIndexedPartSelect fourBits literalFive literalFour false) selectArena [.H, .H, .H, .H,
        .H, .L, .H] =
        [.X, .X, .H, .H] ∧
      resultBits (applyIndexedPartSelect fourBits indexBits literalFour false) selectArena [.H, .H, .H, .H, .H,
        .L, .H] =
        [.X, .X, .X, .X] := by
  refine ⟨rfl, ?_, ?_⟩
  · decide +kernel
  · decide +kernel

end PhyEngine.Verilog
