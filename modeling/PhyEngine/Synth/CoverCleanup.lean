import PhyEngine.Library.PackedBits
import PhyEngine.Library.SwapPop
import PhyEngine.Synth.QmPrimes

/-!
# The cleanup after a greedy cover

The loop that ends the greedy covers counts the picks of every minterm, in 16 bits that stop at
`0xFFFF`, and drops the picks whose minterms are all counted twice. The count is true unless it
stops (`Saturates`), and then the picks are all the cubes around one minterm
(`not_irredundant_cleanup`).
-/

namespace PhyEngine

open PackedBits SwapPop List

def rowAt (rows : List (List (BitVec 64))) (pi : Nat) : List (BitVec 64) := rows.getD pi []

variable (cnt : List UInt16)

variable (row : List (BitVec 64))

def addCounts : List UInt16 :=
  cnt.mapIdx fun idx v => if bit row idx = true ∧ v ≠ 0xFFFF then v + 1 else v

/-- The loop that takes the minterms of a dropped row off the counts. -/
def dropCounts : List UInt16 :=
  cnt.mapIdx fun idx v => if bit row idx = true ∧ v ≠ 0 then v - 1 else v

/-- `redundant`: no minterm of the row is counted only once. A row without minterms is redundant. -/
def isRedundantPick : Bool :=
  (cnt.mapIdx fun idx v => !bit row idx || decide (1 < v)).all id

def pickCounts (rows : List (List (BitVec 64))) (n : Nat) (picks : List Nat) : List UInt16 :=
  picks.foldl (fun cnt pi => addCounts cnt (rowAt rows pi)) (List.replicate n 0)

def cleanupFrom (rows : List (List (BitVec 64))) (i : Nat) (cnt : List UInt16) (picks : List Nat) : List Nat :=
  match _h : picks[i]? with
  | none => picks
  | some pi =>
    if isRedundantPick cnt (rowAt rows pi) then
      cleanupFrom rows i (dropCounts cnt (rowAt rows pi)) (swapPop picks i)
    else cleanupFrom rows (i + 1) cnt picks
termination_by picks.length - i
decreasing_by
  · have hlt := (List.getElem?_eq_some_iff.mp _h).1
    rw [length_swapPop]
    omega
  · have hlt := (List.getElem?_eq_some_iff.mp _h).1
    omega

def cleanup (rows : List (List (BitVec 64))) (n : Nat) (picks : List Nat) : List Nat :=
  cleanupFrom rows 0 (pickCounts rows n picks) picks

def coverCount (rows : List (List (BitVec 64))) (picks : List Nat) (j : Nat) : Nat :=
  picks.countP fun pi => bit (rowAt rows pi) j

def Saturates (rows : List (List (BitVec 64))) (n : Nat) (picks : List Nat) : Prop :=
  ∃ j < n, 0xFFFF < coverCount rows picks j

section Cleanup

variable {rows : List (List (BitVec 64))} {n i j : Nat} {cnt : List UInt16} {picks : List Nat} {row : List (BitVec 64)}

theorem coverCount_perm {picks' : List Nat} (h : picks.Perm picks') (j : Nat) :
    coverCount rows picks j = coverCount rows picks' j := h.countP_eq _

theorem coverCount_pos_iff : 0 < coverCount rows picks j ↔ ∃ pi ∈ picks, bit (rowAt rows pi) j = true :=
  countP_pos_iff

theorem coverCount_swapPop (rows : List (List (BitVec 64))) (hi : i < picks.length) (j : Nat) :
    coverCount rows (swapPop picks i) j + (bit (rowAt rows picks[i]) j).toNat = coverCount rows picks j := by
  have hperm : picks.Perm (picks[i] :: swapPop picks i) :=
    (getElem_cons_eraseIdx_perm hi).symm.trans ((swapPop_perm hi).symm.cons _)
  rw [coverCount_perm hperm, coverCount, coverCount, countP_cons]
  cases bit (rowAt rows picks[i]) j <;> rfl

@[simp] theorem length_addCounts (cnt : List UInt16) (row : List (BitVec 64)) :
    (addCounts cnt row).length = cnt.length :=
  length_mapIdx

@[simp] theorem length_dropCounts (cnt : List UInt16) (row : List (BitVec 64)) :
    (dropCounts cnt row).length = cnt.length :=
  length_mapIdx

theorem getD_mapIdx {f : Nat → UInt16 → UInt16} (hj : j < cnt.length) :
    (cnt.mapIdx f).getD j 0 = f j (cnt.getD j 0) := by
  rw [getD_eq_getElem?_getD, getD_eq_getElem?_getD, getElem?_mapIdx, getElem?_eq_getElem hj]
  rfl

theorem addCounts_getD (hj : j < cnt.length) : ((addCounts cnt row).getD j 0).toNat =
    min 0xFFFF ((cnt.getD j 0).toNat + (bit row j).toNat) := by
  have hlt := (cnt.getD j 0).toNat_lt
  rw [addCounts, getD_mapIdx hj]
  cases hbit : bit row j with
  | false =>
    rw [if_neg (by simp), Bool.toNat_false]
    omega
  | true =>
    rw [Bool.toNat_true]
    by_cases hmax : cnt.getD j 0 = 0xFFFF
    · rw [if_neg (fun h => h.2 hmax), hmax]
      rfl
    · have hne : (cnt.getD j 0).toNat ≠ 0xFFFF := fun h => hmax (UInt16.toNat_inj.mp h)
      rw [if_pos ⟨rfl, hmax⟩, UInt16.toNat_add, show (1 : UInt16).toNat = 1 by rfl]
      omega

theorem dropCounts_getD (hj : j < cnt.length) : ((dropCounts cnt row).getD j 0).toNat =
    (cnt.getD j 0).toNat - (bit row j).toNat := by
  rw [dropCounts, getD_mapIdx hj]
  cases hbit : bit row j with
  | false => rw [if_neg (by simp), Bool.toNat_false, Nat.sub_zero]
  | true =>
    rw [Bool.toNat_true]
    by_cases hzero : cnt.getD j 0 = 0
    · rw [if_neg (fun h => h.2 hzero), hzero]
      rfl
    · have hne : (cnt.getD j 0).toNat ≠ 0 := fun h => hzero (UInt16.toNat_inj.mp h)
      have hone : (1 : UInt16) ≤ cnt.getD j 0 := UInt16.le_iff_toNat_le.mpr (Nat.one_le_iff_ne_zero.mpr hne)
      rw [if_pos ⟨rfl, hzero⟩, UInt16.toNat_sub_of_le _ _ hone]
      rfl

theorem pickCounts_getD (rows : List (List (BitVec 64))) (picks : List Nat) (hj : j < n) :
    (pickCounts rows n picks).length = n ∧
    ((pickCounts rows n picks).getD j 0).toNat = min 0xFFFF (coverCount rows picks j) := by
  induction picks using reverseRecOn with
  | nil =>
    refine ⟨length_replicate, ?_⟩
    rw [pickCounts, foldl_nil, getD_eq_getElem?_getD, getElem?_replicate, if_pos hj]
    rfl
  | append_singleton picks pi ih =>
    have hstep : pickCounts rows n (picks ++ [pi]) = addCounts (pickCounts rows n picks) (rowAt rows pi) := by
      rw [pickCounts, foldl_append]
      rfl
    have hcount : coverCount rows (picks ++ [pi]) j = coverCount rows picks j + (bit (rowAt rows pi) j).toNat := by
      rw [coverCount, countP_append, countP_singleton, coverCount]
      cases bit (rowAt rows pi) j <;> rfl
    rw [hstep, hcount, length_addCounts, addCounts_getD (by omega), ih.2]
    refine ⟨ih.1, ?_⟩
    omega

theorem isRedundantPick_iff : isRedundantPick cnt row = true ↔
    ∀ j < cnt.length, bit row j = true → 1 < (cnt.getD j 0).toNat := by
  rw [isRedundantPick, all_eq_true]
  constructor
  · intro h j hj hbit
    have hmem := h _ (mem_mapIdx.mpr ⟨j, hj, rfl⟩)
    rw [hbit, Bool.not_true, Bool.false_or, id_eq, decide_eq_true_iff, UInt16.lt_iff_toNat_lt] at hmem
    rwa [getD_eq_getElem _ _ hj]
  · intro h b hb
    obtain ⟨j, hj, rfl⟩ := mem_mapIdx.mp hb
    cases hbit : bit row j with
    | false => rfl
    | true =>
      have hlt := h j hj hbit
      rw [getD_eq_getElem _ _ hj] at hlt
      exact decide_eq_true (UInt16.lt_iff_toNat_lt.mpr hlt)

structure Counted (rows : List (List (BitVec 64))) (n : Nat) (cnt : List UInt16) (picks : List Nat) : Prop where
  length : cnt.length = n
  le : ∀ j < n, (cnt.getD j 0).toNat ≤ coverCount rows picks j

theorem counted_pickCounts (hn : 0 < n) (picks : List Nat) : Counted rows n (pickCounts rows n picks) picks := by
  refine ⟨(pickCounts_getD rows picks hn).1, fun j hj => ?_⟩
  rw [(pickCounts_getD rows picks hj).2]
  exact Nat.min_le_right ..

theorem Counted.drop (h : Counted rows n cnt picks) (hi : i < picks.length) :
    Counted rows n (dropCounts cnt (rowAt rows picks[i])) (swapPop picks i) := by
  refine ⟨by rw [length_dropCounts, h.length], fun j hj => ?_⟩
  have hcount := coverCount_swapPop rows hi j
  have hle := h.le j hj
  rw [dropCounts_getD (by rw [h.length]; exact hj)]
  omega

theorem cleanupFrom_rule (rows : List (List (BitVec 64))) {P : List UInt16 → List Nat → Prop}
    (hdrop : ∀ cnt picks i (hi : i < picks.length), P cnt picks → isRedundantPick cnt (rowAt rows picks[i]) = true →
      P (dropCounts cnt (rowAt rows picks[i])) (swapPop picks i))
    (h : P cnt picks) : ∃ cnt', P cnt' (cleanupFrom rows i cnt picks) := by
  fun_induction cleanupFrom rows i cnt picks with
  | case1 i cnt picks hnone => exact ⟨cnt, h⟩
  | case2 i cnt picks pi hpi hred ih =>
    obtain ⟨hi, rfl⟩ := List.getElem?_eq_some_iff.mp hpi
    exact ih (hdrop cnt picks i hi h hred)
  | case3 i cnt picks pi hpi hred ih => exact ih h

theorem cleanup_spec (rows : List (List (BitVec 64))) (hn : 0 < n) (hnodup : picks.Nodup) :
    (cleanup rows n picks).Nodup ∧ cleanup rows n picks ⊆ picks ∧
      ∀ j < n, 0 < coverCount rows picks j → 0 < coverCount rows (cleanup rows n picks) j := by
  obtain ⟨cnt, -, hresult⟩ := cleanupFrom_rule rows (i := 0)
    (P := fun cnt picks' => Counted rows n cnt picks' ∧ picks'.Nodup ∧ picks' ⊆ picks ∧
      ∀ j < n, 0 < coverCount rows picks j → 0 < coverCount rows picks' j)
    (fun cnt picks' i hi h hred => by
      obtain ⟨hcounted, hnodup', hsub, hcov⟩ := h
      refine ⟨hcounted.drop hi, (swapPop_perm hi).nodup_iff.mpr (hnodup'.eraseIdx i), fun p hp => ?_,
        fun j hj hpos => ?_⟩
      · exact hsub (eraseIdx_subset ((swapPop_perm hi).subset hp))
      · have hcount := coverCount_swapPop rows hi j
        have hpos' := hcov j hj hpos
        cases hbit : bit (rowAt rows picks'[i]) j with
        | false =>
          rw [hbit, Bool.toNat_false] at hcount
          omega
        | true =>
          have htwo := isRedundantPick_iff.mp hred j (by rw [hcounted.length]; exact hj) hbit
          have hle := hcounted.le j hj
          rw [hbit, Bool.toNat_true] at hcount
          omega)
    ⟨counted_pickCounts hn picks, hnodup, List.Subset.refl _, fun j _ hpos => hpos⟩
  exact hresult

theorem cleanupFrom_unique (hlength : cnt.length = n)
    (hexact : ∀ j < n, (cnt.getD j 0).toNat = coverCount rows picks j)
    (hdone : ∀ pi ∈ picks.take i, ∃ j < n, bit (rowAt rows pi) j = true ∧ coverCount rows picks j ≤ 1) :
    ∀ pi ∈ cleanupFrom rows i cnt picks,
      ∃ j < n, bit (rowAt rows pi) j = true ∧ coverCount rows (cleanupFrom rows i cnt picks) j ≤ 1 := by
  fun_induction cleanupFrom rows i cnt picks with
  | case1 i cnt picks hnone =>
    have hle := List.getElem?_eq_none_iff.mp hnone
    rwa [take_of_length_le hle] at hdone
  | case2 i cnt picks pi hpi hred ih =>
    obtain ⟨hi, rfl⟩ := List.getElem?_eq_some_iff.mp hpi
    refine ih (by rw [length_dropCounts, hlength]) (fun j hj => ?_) fun p hp => ?_
    · have hcount := coverCount_swapPop rows hi j
      rw [dropCounts_getD (by omega), hexact j hj]
      omega
    · rw [take_swapPop hi] at hp
      obtain ⟨j, hj, hbit, hone⟩ := hdone p hp
      have hcount := coverCount_swapPop rows hi j
      exact ⟨j, hj, hbit, by omega⟩
  | case3 i cnt picks pi hpi hred ih =>
    obtain ⟨hi, rfl⟩ := List.getElem?_eq_some_iff.mp hpi
    refine ih hlength hexact fun p hp => ?_
    rw [take_succ_eq_append_getElem hi] at hp
    rcases mem_append.mp hp with hp | hp
    · exact hdone p hp
    · obtain rfl := mem_singleton.mp hp
      by_contra hnone
      refine hred (isRedundantPick_iff.mpr fun j hj hbit => ?_)
      by_contra hle
      exact hnone ⟨j, by omega, hbit, by rw [← hexact j (by omega)]; omega⟩

end Cleanup

def coverRow (covers : UInt16 → Bool) (on : List UInt16) : List (BitVec 64) :=
  on.zipIdx.foldl (fun row entry => if covers entry.1 then setBit row entry.2 else row)
    (List.replicate ((on.length + 63) / 64) 0)

structure RowsOf (on : List UInt16) (cov : Nat → UInt16 → Bool) (rows : List (List (BitVec 64))) : Prop where
  length : ∀ pi < rows.length, (rowAt rows pi).length = (on.length + 63) / 64
  bit_iff : ∀ pi j, bit (rowAt rows pi) j = true ↔ ∃ m, on[j]? = some m ∧ cov pi m = true

/-- The picks of a greedy cover so far: each of them was made for a minterm that no earlier one
covers. -/
structure Greedy (on : List UInt16) (cov : Nat → UInt16 → Bool) (rows : List (List (BitVec 64)))
    (uncovered : List (BitVec 64)) (pick : List Nat) : Prop where
  length : uncovered.length = (on.length + 63) / 64
  uncovered_iff : ∀ j, bit uncovered j = true ↔ j < on.length ∧ ∀ pi ∈ pick, bit (rowAt rows pi) j = false
  fresh : pick.Pairwise fun p q => ∃ m, cov q m = true ∧ cov p m = false
  owned : ∃ ms : List UInt16, ms.length = pick.length ∧ ms.Nodup ∧ ∀ m ∈ ms, m ∈ on ∧ ∃ pi ∈ pick, cov pi m = true
  lt : ∀ pi ∈ pick, pi < rows.length
  useful : ∀ pi ∈ pick, ∃ m, cov pi m = true

def IrredundantPick (on : List UInt16) (cov : Nat → UInt16 → Bool) (pick : List Nat) : Prop :=
  ∀ xs pi ys, pick = xs ++ pi :: ys → ∃ m ∈ on, ∀ q ∈ xs ++ ys, cov q m = false

section Greedy

variable {on : List UInt16} {cov : Nat → UInt16 → Bool} {rows : List (List (BitVec 64))}
  {uncovered : List (BitVec 64)} {pick : List Nat}

theorem coverRow_spec (covers : UInt16 → Bool) (on : List UInt16) :
    (coverRow covers on).length = (on.length + 63) / 64 ∧
      ∀ j, bit (coverRow covers on) j = true ↔ ∃ m, on[j]? = some m ∧ covers m = true := by
  have hloop : ∀ (ms : List UInt16) (k : Nat) (row : List (BitVec 64)), k + ms.length ≤ 64 * row.length →
      ((ms.zipIdx k).foldl (fun row entry => if covers entry.1 then setBit row entry.2 else row) row).length =
        row.length ∧
      ∀ j, bit ((ms.zipIdx k).foldl (fun row entry => if covers entry.1 then setBit row entry.2 else row) row) j =
        true ↔
        bit row j = true ∨ ∃ m, k ≤ j ∧ ms[j - k]? = some m ∧ covers m = true := by
    intro ms
    induction ms with
    | nil => exact fun k row _ => ⟨rfl, fun j => by simp⟩
    | cons m ms ih =>
      intro k row hle
      rw [length_cons] at hle
      rw [zipIdx_cons, foldl_cons]
      have hnext : ∀ j, (∃ m', k ≤ j ∧ (m :: ms)[j - k]? = some m' ∧ covers m' = true) ↔
          (covers m = true ∧ k = j) ∨ ∃ m', k + 1 ≤ j ∧ ms[j - (k + 1)]? = some m' ∧ covers m' = true := by
        intro j
        rcases Nat.lt_trichotomy k j with hlt | rfl | hgt
        · rw [show j - k = j - (k + 1) + 1 by omega, getElem?_cons_succ]
          grind
        · simp
        · grind
      cases hcov : covers m with
      | false =>
        rw [if_neg (by simp)]
        obtain ⟨hlength, hbit⟩ := ih (k + 1) row (by omega)
        refine ⟨hlength, fun j => (hbit j).trans ?_⟩
        rw [hnext, hcov]
        simp
      | true =>
        rw [if_pos rfl]
        obtain ⟨hlength, hbit⟩ := ih (k + 1) (setBit row k) (by rw [length_setBit]; omega)
        refine ⟨hlength.trans (length_setBit ..), fun j => (hbit j).trans ?_⟩
        rw [hnext, hcov, bit_setBit (by omega), Bool.or_eq_true, decide_eq_true_iff, or_assoc]
        simp
  obtain ⟨hlength, hbit⟩ := hloop on 0 (replicate ((on.length + 63) / 64) 0) (by
    rw [length_replicate]
    omega)
  refine ⟨hlength.trans length_replicate, fun j => (hbit j).trans ?_⟩
  rw [bit_replicate_zero]
  simp

theorem greedy_nil : Greedy on cov rows (firstBits on.length) [] :=
  ⟨length_firstBits _, fun j => by simp [bit_firstBits], .nil, ⟨[], rfl, .nil, by simp⟩, by simp, by simp⟩

theorem Greedy.snoc (h : Greedy on cov rows uncovered pick) (hrows : RowsOf on cov rows) {pi j : Nat}
    (hpi : pi < rows.length) (hj : bit uncovered j = true) (hbit : bit (rowAt rows pi) j = true) :
    Greedy on cov rows (diff uncovered (rowAt rows pi)) (pick ++ [pi]) := by
  have hlen : uncovered.length = (rowAt rows pi).length := by rw [h.length, hrows.length pi hpi]
  obtain ⟨m, hm, hcov⟩ := (hrows.bit_iff pi j).mp hbit
  have hnew : ∀ p ∈ pick, cov p m = false := by
    intro p hp
    have hfalse := ((h.uncovered_iff j).mp hj).2 p hp
    by_contra htrue
    rw [(hrows.bit_iff p j).mpr ⟨m, hm, by simpa using htrue⟩] at hfalse
    cases hfalse
  refine ⟨?_, fun k => ?_, ?_, ?_, fun p hp => ?_, fun p hp => ?_⟩
  · rw [length_diff, hlen, Nat.min_self, ← hlen, h.length]
  · rw [bit_diff hlen, Bool.and_eq_true, Bool.not_eq_true', h.uncovered_iff, and_assoc]
    refine and_congr_right fun _ => ?_
    simp only [mem_append, mem_singleton]
    grind
  · refine pairwise_append.mpr ⟨h.fresh, pairwise_singleton .., fun p hp q hq => ?_⟩
    obtain rfl := mem_singleton.mp hq
    exact ⟨m, hcov, hnew p hp⟩
  · obtain ⟨ms, hlength, hnodup, hms⟩ := h.owned
    refine ⟨ms ++ [m], by simp [hlength], ?_, fun m' hm' => ?_⟩
    · refine nodup_append.mpr ⟨hnodup, nodup_singleton m, fun a ha b hb => ?_⟩
      obtain rfl := mem_singleton.mp hb
      rintro rfl
      obtain ⟨-, p, hp, hp'⟩ := hms a ha
      rw [hnew p hp] at hp'
      cases hp'
    · rcases mem_append.mp hm' with hm' | hm'
      · obtain ⟨hon, p, hp, hp'⟩ := hms m' hm'
        exact ⟨hon, p, mem_append_left _ hp, hp'⟩
      · obtain rfl := mem_singleton.mp hm'
        exact ⟨List.mem_of_getElem? hm, pi, by simp, hcov⟩
  · rcases mem_append.mp hp with hp | hp
    · exact h.lt p hp
    · obtain rfl := mem_singleton.mp hp
      exact hpi
  · rcases mem_append.mp hp with hp | hp
    · exact h.useful p hp
    · obtain rfl := mem_singleton.mp hp
      exact ⟨m, hcov⟩

theorem Greedy.nodup (h : Greedy on cov rows uncovered pick) : pick.Nodup :=
  h.fresh.imp fun ⟨m, hq, hp⟩ heq => by
    rw [heq, hq] at hp
    cases hp

section

variable (hrows : RowsOf on cov rows)
include hrows

theorem coverCount_pos_iff_cov {j : Nat} {m : UInt16} (hm : on[j]? = some m) :
    0 < coverCount rows pick j ↔ ∃ pi ∈ pick, cov pi m = true := by
  rw [coverCount_pos_iff]
  refine exists_congr fun pi => and_congr_right fun _ => ?_
  rw [hrows.bit_iff, hm]
  simp

theorem cov_cleanup (hnodup : pick.Nodup) {m : UInt16} (hm : m ∈ on)
    (h : ∃ pi ∈ pick, cov pi m = true) : ∃ pi ∈ cleanup rows on.length pick, cov pi m = true := by
  obtain ⟨j, hj, hget⟩ := getElem_of_mem hm
  have hsome : on[j]? = some m := List.getElem?_eq_some_iff.mpr ⟨hj, hget⟩
  have hpos := (coverCount_pos_iff_cov hrows hsome).mpr h
  exact (coverCount_pos_iff_cov hrows hsome).mp ((cleanup_spec rows (by omega) hnodup).2.2 j hj hpos)

theorem irredundant_cleanup (hn : 0 < on.length)
    (hsat : ¬ Saturates rows on.length pick) : IrredundantPick on cov (cleanup rows on.length pick) := by
  have hexact : ∀ j < on.length, ((pickCounts rows on.length pick).getD j 0).toNat = coverCount rows pick j := by
    intro j hj
    have hle : coverCount rows pick j ≤ 0xFFFF := Nat.not_lt.mp fun hlt => hsat ⟨j, hj, hlt⟩
    rw [(pickCounts_getD rows pick hj).2]
    omega
  have hown := cleanupFrom_unique (i := 0) (pickCounts_getD rows pick hn).1 hexact (by simp)
  intro xs pi ys hsplit
  obtain ⟨j, hj, hbit, hone⟩ := hown pi (by
    change pi ∈ cleanup rows on.length pick
    rw [hsplit]
    simp)
  obtain ⟨m, hm, -⟩ := (hrows.bit_iff pi j).mp hbit
  refine ⟨m, List.mem_of_getElem? hm, fun q hq => ?_⟩
  change coverCount rows (cleanup rows on.length pick) j ≤ 1 at hone
  rw [hsplit, coverCount, countP_append, countP_cons, if_pos hbit] at hone
  have hzero : (xs ++ ys).countP (fun pi => bit (rowAt rows pi) j) = 0 := by
    rw [countP_append]
    omega
  have hfalse := countP_eq_zero.mp hzero q hq
  by_contra hcov
  exact hfalse ((hrows.bit_iff q j).mpr ⟨m, hm, by simpa using hcov⟩)

omit hrows in
theorem length_words_le {ms : List UInt16} (h : ms.Nodup) :
    ms.length ≤ 65536 ∧ (ms.length = 65536 → ∀ m, m ∈ ms) := by
  have hsub : ms.map UInt16.toNat ⊆ List.range 65536 := by
    intro k hk
    obtain ⟨m, -, rfl⟩ := mem_map.mp hk
    exact mem_range.mpr m.toNat_lt
  have hsubperm := subperm_of_subset (h.map fun _ _ hab => UInt16.toNat_inj.mp hab) hsub
  have hle := hsubperm.length_le
  rw [length_map, length_range] at hle
  refine ⟨hle, fun hlen m => ?_⟩
  have hperm := hsubperm.perm_of_length_le (by rw [length_map, length_range, hlen])
  obtain ⟨m', hm', heq⟩ := mem_map.mp (hperm.mem_iff.mpr (mem_range.mpr m.toNat_lt))
  exact UInt16.toNat_inj.mp heq ▸ hm'

/-- When a counter stops, 65536 picks cover its minterm, and each minterm is the own minterm of
one of them. -/
theorem Greedy.of_saturates (h : Greedy on cov rows uncovered pick) (hsat : Saturates rows on.length pick) :
    ∃ j m, on[j]? = some m ∧ 0xFFFF < coverCount rows pick j ∧ pick.length = 65536 ∧
      (∀ pi ∈ pick, bit (rowAt rows pi) j = true ∧ cov pi m = true) ∧
      ∀ x, x ∈ on ∧ ∃ pi ∈ pick, cov pi x = true := by
  obtain ⟨j, hj, hmany⟩ := hsat
  obtain ⟨ms, hlength, hnodup, hms⟩ := h.owned
  obtain ⟨hle, hall⟩ := length_words_le hnodup
  have hcount : coverCount rows pick j ≤ pick.length := countP_le_length
  have hpicks : pick.length = 65536 := by omega
  obtain ⟨m, hm⟩ : ∃ m, on[j]? = some m := ⟨_, getElem?_eq_getElem hj⟩
  have hround : ∀ pi ∈ pick, bit (rowAt rows pi) j = true := by
    have heq : coverCount rows pick j = pick.length := by omega
    exact countP_eq_length.mp heq
  refine ⟨j, m, hm, hmany, hpicks, fun pi hpi => ⟨hround pi hpi, ?_⟩, fun x => hms x (hall (by omega) x)⟩
  obtain ⟨m', hm', hcov⟩ := (hrows.bit_iff pi j).mp (hround pi hpi)
  rw [hm] at hm'
  cases hm'
  exact hcov

/-- Cubes with one mask that cover one minterm are the same, so that the picks around the minterm
of a stopped counter have all the masks there are. -/
theorem Greedy.masks_of_saturates (h : Greedy on cov rows uncovered pick) (hsat : Saturates rows on.length pick)
    {mask : Nat → UInt16}
    (hmask : ∀ p q m, mask p = mask q → cov p m = true → cov q m = true → ∀ x, cov q x = true → cov p x = true) :
    (∀ x, x ∈ on) ∧ ∃ m, ∀ k, ∃ pi, mask pi = k ∧ cov pi m = true := by
  obtain ⟨_, m, _, _, hpicks, hcorner, hall⟩ := h.of_saturates hrows hsat
  have hnodup : (pick.map mask).Nodup := by
    rw [List.Nodup, pairwise_map]
    refine h.fresh.imp_of_mem fun {p q} hp hq hnew heq => ?_
    obtain ⟨x, hqx, hpx⟩ := hnew
    rw [hmask p q m heq (hcorner p hp).2 (hcorner q hq).2 x hqx] at hpx
    cases hpx
  refine ⟨fun x => (hall x).1, m, fun k => ?_⟩
  obtain ⟨pi, hpi, rfl⟩ := mem_map.mp ((length_words_le hnodup).2 (by rw [length_map, hpicks]) k)
  exact ⟨pi, rfl, (hcorner pi hpi).2⟩

theorem not_irredundant_cleanup (h : Greedy on cov rows uncovered pick)
    (hfull : ∀ pi m, cov pi m = true → cov pi (~~~m) = true → ∀ x, cov pi x = true)
    (hsat : Saturates rows on.length pick) : ¬ IrredundantPick on cov (cleanup rows on.length pick) := by
  obtain ⟨j, m, hm, hmany, hpicks, hboth, hall⟩ := h.of_saturates hrows hsat
  have hj := (List.getElem?_eq_some_iff.mp hm).1
  have hround : ∀ pi ∈ pick, bit (rowAt rows pi) j = true := fun pi hpi => (hboth pi hpi).1
  have hcorner : ∀ pi ∈ pick, cov pi m = true := fun pi hpi => (hboth pi hpi).2
  -- one of them covers the opposite corner, hence everything
  obtain ⟨hon, f, hf, hfcov⟩ := hall (~~~m)
  have hfall := hfull f m (hcorner f hf) hfcov
  obtain ⟨k, hk, hget⟩ := getElem_of_mem hon
  have hksome : on[k]? = some (~~~m) := List.getElem?_eq_some_iff.mpr ⟨hk, hget⟩
  have honly : coverCount rows pick k ≤ 1 := by
    rw [coverCount, countP_eq_length_filter]
    have hfresh := h.fresh.sublist (filter_sublist (p := fun pi => bit (rowAt rows pi) k))
    have hcovers : ∀ p ∈ pick.filter fun pi => bit (rowAt rows pi) k, ∀ x, cov p x = true := by
      intro p hp
      obtain ⟨hp, hbit⟩ := mem_filter.mp hp
      obtain ⟨m', hm', hcov⟩ := (hrows.bit_iff p k).mp hbit
      rw [hksome] at hm'
      cases hm'
      exact hfull p m (hcorner p hp) hcov
    match hlist : pick.filter fun pi => bit (rowAt rows pi) k with
    | [] => exact Nat.zero_le _
    | [_] => exact Nat.le_refl _
    | a :: b :: rest =>
      rw [hlist] at hfresh hcovers
      obtain ⟨x, -, hx⟩ := (pairwise_cons.mp hfresh).1 b mem_cons_self
      rw [hcovers a mem_cons_self x] at hx
      cases hx
  obtain ⟨cnt, -, hfmem, -, -, -, htwo, hnodup'⟩ := cleanupFrom_rule rows (i := 0)
    (P := fun cnt picks => Counted rows on.length cnt picks ∧ f ∈ picks ∧ coverCount rows picks k ≤ 1 ∧
      (∀ p ∈ picks, bit (rowAt rows p) j = true) ∧ (cnt.getD j 0).toNat + 1 ≤ picks.length ∧
      2 ≤ picks.length ∧ picks.Nodup)
    (fun cnt picks i hi hinv hred => by
      obtain ⟨hcounted, hfp, hone, hbits, hless, -, hnd⟩ := hinv
      have hj' : j < cnt.length := by rw [hcounted.length]; exact hj
      have hbit := hbits _ (getElem_mem hi)
      have hmore := isRedundantPick_iff.mp hred j hj' hbit
      refine ⟨hcounted.drop hi, ?_, ?_, fun p hp => ?_, ?_, ?_, (swapPop_perm hi).nodup_iff.mpr (hnd.eraseIdx i)⟩
      · rw [(swapPop_perm hi).mem_iff]
        rcases mem_cons.mp ((getElem_cons_eraseIdx_perm hi).mem_iff.mpr hfp) with heq | hmem
        · have hfk : bit (rowAt rows picks[i]) k = true := heq ▸ (hrows.bit_iff f k).mpr ⟨_, hksome, hfall _⟩
          have := isRedundantPick_iff.mp hred k (by rw [hcounted.length]; exact hk) hfk
          have := hcounted.le k hk
          omega
        · exact hmem
      · have := coverCount_swapPop rows hi k
        omega
      · exact hbits p (eraseIdx_subset ((swapPop_perm hi).subset hp))
      · rw [dropCounts_getD hj', hbit, Bool.toNat_true, length_swapPop]
        omega
      · rw [length_swapPop]
        omega)
    ⟨counted_pickCounts (by omega) pick, hf, honly, hround, by
      rw [(pickCounts_getD rows pick hj).2]
      omega, by omega, h.nodup⟩
  -- a second pick can be dropped
  intro hirr
  obtain ⟨g, hg, hne⟩ : ∃ g ∈ cleanup rows on.length pick, g ≠ f := by
    by_contra hnone
    have hsame : cleanup rows on.length pick = replicate (cleanup rows on.length pick).length f := by
      refine eq_replicate_of_mem fun g hg => ?_
      by_contra hne
      exact hnone ⟨g, hg, hne⟩
    change 2 ≤ (cleanup rows on.length pick).length at htwo
    change (cleanup rows on.length pick).Nodup at hnodup'
    rw [hsame, nodup_replicate] at hnodup'
    omega
  obtain ⟨xs, ys, hsplit⟩ := append_of_mem hg
  obtain ⟨x, -, hx⟩ := hirr xs g ys hsplit
  have hmem : f ∈ xs ++ ys := by
    change f ∈ cleanup rows on.length pick at hfmem
    rw [hsplit] at hfmem
    rcases mem_append.mp hfmem with hmem | hmem
    · exact mem_append_left _ hmem
    · rcases mem_cons.mp hmem with rfl | hmem
      · exact absurd rfl hne
      · exact mem_append_right _ hmem
  have hfalse := hx f hmem
  rw [hfall x] at hfalse
  cases hfalse

end

end Greedy

end PhyEngine
