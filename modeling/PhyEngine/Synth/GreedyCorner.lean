import PhyEngine.Synth.MultiOutput

/-!
# A greedy cover around one corner

All cubes around the corner `2 ^ n - 1`, in front of them 63 copies of the opposite corner, which
fill the candidates up to one place. In each round that place goes to the next cube, which wins
(`greedyChoice_corner`). So every cube is picked, and with 16 variables the counter stops.
-/

namespace PhyEngine

open PackedBits SortedLists List

/-- 63 copies of the corner 0, then the cubes around the other corner. -/
def cornerPrimes (n : Nat) : List QmImplicant :=
  List.replicate 63 ⟨0, 0⟩ ++ (List.range (2 ^ n)).map fun k => ⟨UInt16.ofNat (2 ^ n - 1), UInt16.ofNat k⟩

def cornerOn (n : Nat) : List UInt16 := (List.range (2 ^ n)).map fun j => UInt16.ofNat (2 ^ n - 1 - j)

def cornerOptions : TwoLevelOptions := { twoLevelWeights := { notW := 0xFFFF, andW := 0, orW := 0 } }

abbrev cornerRows (n : Nat) : List (List (BitVec 64)) := greedyRows (cornerPrimes n) (cornerOn n)

section Corner

variable {n : Nat} {j k pi : Nat}

theorem length_cornerPrimes (n : Nat) : (cornerPrimes n).length = 63 + 2 ^ n := by
  rw [cornerPrimes, length_append, length_replicate, length_map, length_range]

theorem length_cornerRows (n : Nat) : (cornerRows n).length = 63 + 2 ^ n := by
  rw [cornerRows, greedyRows, length_map, length_cornerPrimes]

theorem length_cornerOn (n : Nat) : (cornerOn n).length = 2 ^ n := by
  rw [cornerOn, length_map, length_range]

theorem getElem?_copy (n : Nat) (h : pi < 63) : (cornerPrimes n)[pi]? = some ⟨0, 0⟩ := by
  rw [cornerPrimes, getElem?_append_left (by rw [length_replicate]; exact h), getElem?_replicate, if_pos h]

theorem getElem?_cube (h : k < 2 ^ n) :
    (cornerPrimes n)[63 + k]? = some ⟨UInt16.ofNat (2 ^ n - 1), UInt16.ofNat k⟩ := by
  rw [cornerPrimes, getElem?_append_right (by rw [length_replicate]; omega), length_replicate,
    Nat.add_sub_cancel_left, getElem?_map, getElem?_range h, Option.map_some]

theorem getElem?_cornerOn (h : j < 2 ^ n) : (cornerOn n)[j]? = some (UInt16.ofNat (2 ^ n - 1 - j)) := by
  rw [cornerOn, getElem?_map, getElem?_range h, Option.map_some]

/-- The variables in which a minterm differs from the corner are free in the cube. -/
def Inside (j k : Nat) : Prop := ∀ i, k.testBit i = false → j.testBit i = false

theorem Inside.le (h : Inside j k) : j ≤ k := by
  have hand : j &&& k = j := by
    refine Nat.eq_of_testBit_eq fun i => ?_
    rw [Nat.testBit_and]
    cases hk : k.testBit i with
    | true => rw [Bool.and_true]
    | false => rw [h i hk, Bool.false_and]
  rw [← hand]
  exact Nat.and_le_right

theorem inside_self (k : Nat) : Inside k k := fun _ h => h

theorem inside_full (hj : j < 2 ^ n) : Inside j (2 ^ n - 1) := by
  intro i hi
  rw [Nat.testBit_two_pow_sub_one, decide_eq_false_iff_not] at hi
  exact Nat.testBit_lt_two_pow (Nat.lt_of_lt_of_le hj (Nat.pow_le_pow_right (by omega) (by omega)))

theorem toNat_ofNat_of_lt (hn : n ≤ 16) (h : k < 2 ^ n) : (UInt16.ofNat k).toNat = k := by
  have hpow : 2 ^ n ≤ 2 ^ 16 := Nat.pow_le_pow_right (by omega) hn
  rw [UInt16.toNat_ofNat', Nat.mod_eq_of_lt (by omega)]

theorem bit_copyRow (hn : n ≤ 16) (hj : j < 2 ^ n) (hpi : pi < 63) :
    bit (rowAt (cornerRows n) pi) j = true ↔ j = 2 ^ n - 1 := by
  have hpos : 0 < 2 ^ n := Nat.pow_pos (by omega)
  have hrest := toNat_ofNat_of_lt hn (show 2 ^ n - 1 - j < 2 ^ n by omega)
  rw [(rowsOf_greedyRows (cornerPrimes n) (cornerOn n)).bit_iff, getElem?_cornerOn hj]
  simp only [primeCovers, getElem?_copy n hpi, Option.some.injEq, exists_eq_left']
  rw [implicantCovers_iff]
  constructor
  · intro h
    have hzero : UInt16.ofNat (2 ^ n - 1 - j) = 0 := WordBits.ext fun i hi => h i hi (by simp)
    have hnat := congrArg UInt16.toNat hzero
    rw [hrest] at hnat
    change 2 ^ n - 1 - j = 0 at hnat
    omega
  · rintro rfl
    simp

theorem bit_insideRow (hn : n ≤ 16) (hj : j < 2 ^ n) (hk : k < 2 ^ n) :
    bit (rowAt (cornerRows n) (63 + k)) j = true ↔ Inside j k := by
  have hpos : 0 < 2 ^ n := Nat.pow_pos (by omega)
  have hrest := toNat_ofNat_of_lt hn (show 2 ^ n - 1 - j < 2 ^ n by omega)
  rw [(rowsOf_greedyRows (cornerPrimes n) (cornerOn n)).bit_iff, getElem?_cornerOn hj]
  simp only [primeCovers, getElem?_cube hk, Option.some.injEq, exists_eq_left']
  rw [implicantCovers_iff, hrest, toNat_ofNat_of_lt hn hk, toNat_ofNat_of_lt hn (show 2 ^ n - 1 < 2 ^ n by omega)]
  have hflip : ∀ i, (2 ^ n - 1 - j).testBit i = (decide (i < n) && !j.testBit i) := by
    intro i
    rw [show 2 ^ n - 1 - j = 2 ^ n - (j + 1) by omega, Nat.testBit_two_pow_sub_succ hj]
  have hhigh : ∀ i, n ≤ i → j.testBit i = false := fun i hi =>
    Nat.testBit_lt_two_pow (Nat.lt_of_lt_of_le hj (Nat.pow_le_pow_right (by omega) hi))
  constructor
  · intro h i hi
    by_cases hin : i < n
    · have hbit := h i (by omega) hi
      rw [hflip, Nat.testBit_two_pow_sub_one, decide_eq_true hin] at hbit
      simpa using hbit
    · exact hhigh i (by omega)
  · intro h i _ hi
    rw [hflip, Nat.testBit_two_pow_sub_one, h i hi, Bool.not_false, Bool.and_true]

theorem cost_copy (h : pi < 63) : qmCoverCost (cornerPrimes n) [pi] n cornerOptions = 65535 * n := by
  have hneg : ∀ v, negUsed [⟨0, 0⟩] v = true := fun v => by simp [negUsed]
  rw [qmCoverCost, pickCubes, filterMap_cons, getElem?_copy n h]
  simp [twoLevelCoverCost, cornerOptions, hneg]

theorem cost_cube (hn : n ≤ 16) (h : k < 2 ^ n) : qmCoverCost (cornerPrimes n) [63 + k] n cornerOptions = 0 := by
  have hpos : 0 < 2 ^ n := Nat.pow_pos (by omega)
  have hneg : ∀ v ∈ List.range n, ¬ negUsed [⟨UInt16.ofNat (2 ^ n - 1), UInt16.ofNat k⟩] v = true := by
    intro v hv
    simp [negUsed, toNat_ofNat_of_lt hn (show 2 ^ n - 1 < 2 ^ n by omega), mem_range.mp hv]
  rw [qmCoverCost, pickCubes, filterMap_cons, getElem?_cube h]
  simp only [twoLevelCoverCost, cornerOptions, filterMap_nil, countP_eq_zero.mpr hneg]
  simp

structure CornerState (n k : Nat) (s : GreedyState) : Prop where
  greedy : Greedy (cornerOn n) (fun pi m => primeCovers (cornerPrimes n) m pi)
    (cornerRows n) s.uncovered s.pick
  pick : s.pick = (List.range k).map fun i => 63 + i

variable {s : GreedyState}

theorem CornerState.bit_uncovered (hn : n ≤ 16) (h : CornerState n k s) (hk : k ≤ 2 ^ n) :
    bit s.uncovered j = true ↔ k ≤ j ∧ j < 2 ^ n := by
  rw [h.greedy.uncovered_iff, length_cornerOn, h.pick, and_comm]
  refine and_congr_left fun hj => ?_
  constructor
  · intro hfree
    by_contra hlt
    have hfalse := hfree (63 + j) (mem_map.mpr ⟨j, mem_range.mpr (by omega), rfl⟩)
    rw [(bit_insideRow hn hj hj).mpr (inside_self j)] at hfalse
    cases hfalse
  · intro hle pi hpi
    obtain ⟨i, hi, rfl⟩ := mem_map.mp hpi
    have hi := mem_range.mp hi
    by_contra hbit
    have hin : Inside j i := (bit_insideRow hn hj (by omega)).mp (by simpa using hbit)
    have := hin.le
    omega

theorem length_cornerRow (h : pi < 63 + 2 ^ n) :
    (rowAt (cornerRows n) pi).length = ((cornerOn n).length + 63) / 64 :=
  (rowsOf_greedyRows _ _).length pi (by rwa [length_cornerRows])

theorem countOnes_cornerRow (hn : n ≤ 16) {ws : List (BitVec 64)} (hlen : ws.length = ((cornerOn n).length + 63) / 64)
    (hws : ∀ j, bit ws j = true → k ≤ j ∧ j < 2 ^ n) (hk : k < 2 ^ n) :
    (∀ pi < 63, countOnes (inter (rowAt (cornerRows n) pi) ws) =
      (bit ws (2 ^ n - 1)).toNat) ∧
    countOnes (inter (rowAt (cornerRows n) (63 + k)) ws) = (bit ws k).toNat := by
  have hone : ∀ (pi i : Nat), pi < 63 + 2 ^ n →
      (∀ j, (bit (rowAt (cornerRows n) pi) j = true ∧ bit ws j = true) ↔
        (j = i ∧ bit ws i = true)) →
      countOnes (inter (rowAt (cornerRows n) pi) ws) = (bit ws i).toNat := by
    intro pi i hpi hiff
    have hbits : ∀ j, bit (inter (rowAt (cornerRows n) pi) ws) j = true ↔
        j = i ∧ bit ws i = true := by
      intro j
      rw [bit_inter (by rw [length_cornerRow hpi, hlen]), Bool.and_eq_true, hiff]
    cases hbit : bit ws i with
    | true =>
      refine countOnes_eq_one (i := i) fun j => ?_
      rw [hbits, hbit]
      simp
    | false =>
      refine countOnes_eq_zero fun j => ?_
      rw [← Bool.not_eq_true, hbits, hbit]
      simp
  refine ⟨fun pi hpi => hone pi (2 ^ n - 1) (by omega) fun j => ?_, hone (63 + k) k (by omega) fun j => ?_⟩
  · constructor
    · rintro ⟨hrow, hj⟩
      obtain rfl := (bit_copyRow hn (hws j hj).2 hpi).mp hrow
      exact ⟨rfl, hj⟩
    · rintro ⟨rfl, hj⟩
      exact ⟨(bit_copyRow hn (by omega) hpi).mpr rfl, hj⟩
  · constructor
    · rintro ⟨hrow, hj⟩
      have hle := ((bit_insideRow hn (hws j hj).2 hk).mp hrow).le
      obtain rfl : j = k := by
        have := (hws j hj).1
        omega
      exact ⟨rfl, hj⟩
    · rintro ⟨rfl, hj⟩
      exact ⟨(bit_insideRow hn hk hk).mpr (inside_self j), hj⟩

def cornerCost (n : Nat) (pi : Nat) : Nat := qmCoverCost (cornerPrimes n) [pi] n cornerOptions

def copyCand (n pi : Nat) : GreedyCand := { pi, gain := 1, cost := 65535 * n, score := 64 - (65535 * n : Nat) }

def cubeCand (k : Nat) : GreedyCand := { pi := 63 + k, gain := 1, cost := 0, score := 64 }

theorem candidates_corner (hn : n ≤ 16) (h : CornerState n k s) (hk : k < 2 ^ n) :
    ∃ rest, candidates (cornerRows n) (cornerCost n) s =
      (List.range 63).map (copyCand n) ++ cubeCand k :: rest := by
  obtain ⟨hcopy, hcube⟩ := countOnes_cornerRow hn h.greedy.length
    (fun j hj => (h.bit_uncovered hn (Nat.le_of_lt hk)).mp hj) hk
  have hrange : List.range (63 + 2 ^ n) = List.range 63 ++ ((List.range k).map (63 + ·) ++
      (63 + k) :: ((List.range (2 ^ n - (k + 1))).map fun i => 63 + (k + (i + 1)))) := by
    obtain ⟨m, hm⟩ : ∃ m, 2 ^ n = k + (m + 1) := ⟨2 ^ n - (k + 1), by omega⟩
    rw [hm, range_add, range_add, range_succ_eq_map (n := m), show k + (m + 1) - (k + 1) = m by omega,
      map_append, map_cons, map_cons, List.map_map, List.map_map]
    rfl
  have hlast : bit s.uncovered (2 ^ n - 1) = true := (h.bit_uncovered hn (Nat.le_of_lt hk)).mpr (by omega)
  have hown : bit s.uncovered k = true := (h.bit_uncovered hn (Nat.le_of_lt hk)).mpr (by omega)
  rw [candidates, length_cornerRows, hrange, filterMap_append,
    filterMap_append]
  have hfirst : (List.range 63).filterMap (fun pi =>
      let c := candOfPrime (cornerRows n) (cornerCost n) s pi
      if pi ∈ s.pick ∨ c.gain = 0 then none else some c) = (List.range 63).map (copyCand n) := by
    rw [← filterMap_eq_map]
    refine filterMap_congr fun pi hpi => ?_
    have hpi := mem_range.mp hpi
    have hnot : pi ∉ s.pick := by
      rw [h.pick]
      intro hmem
      obtain ⟨i, -, heq⟩ := mem_map.mp hmem
      omega
    have hcand : candOfPrime (cornerRows n) (cornerCost n) s pi = copyCand n pi := by
      rw [candOfPrime, hcopy pi hpi, hlast, cornerCost, cost_copy hpi]
      rfl
    dsimp only [Function.comp_apply]
    rw [hcand, if_neg (by rintro (hmem | hzero); exacts [hnot hmem, by cases hzero])]
  have hmiddle : ((List.range k).map (63 + ·)).filterMap (fun pi =>
      let c := candOfPrime (cornerRows n) (cornerCost n) s pi
      if pi ∈ s.pick ∨ c.gain = 0 then none else some c) = [] := by
    rw [filterMap_eq_nil_iff]
    intro pi hpi
    dsimp only
    rw [if_pos (.inl (by rw [h.pick]; exact hpi))]
  have hcand : candOfPrime (cornerRows n) (cornerCost n) s (63 + k) = cubeCand k := by
    rw [candOfPrime, hcube, hown, cornerCost, cost_cube hn hk]
    rfl
  have hnot : 63 + k ∉ s.pick := by
    rw [h.pick]
    intro hmem
    obtain ⟨i, hi, heq⟩ := mem_map.mp hmem
    have := mem_range.mp hi
    omega
  rw [hfirst, hmiddle, nil_append, filterMap_cons]
  dsimp only
  rw [hcand, if_neg (by rintro (hmem | hzero); exacts [hnot hmem, by cases hzero])]
  exact ⟨_, rfl⟩

theorem sort_eq_cons (sort : StdSort GreedyCand.before) (c : GreedyCand) (cands : List GreedyCand)
    (hbefore : ∀ d ∈ cands, c.before d = true) : ∃ cands', sort.sort (cands ++ [c]) = c :: cands' ∧
      cands'.Perm cands := by
  have hperm := sort.perm (cands ++ [c])
  have hsorted := sort.sorted (cands ++ [c])
  match hsort : sort.sort (cands ++ [c]) with
  | [] =>
    have := hperm.length_eq
    rw [hsort] at this
    simp at this
  | x :: xs =>
    rw [hsort] at hperm hsorted
    have hx : x = c := by
      by_contra hne
      have hmem : x ∈ cands := by
        have hmem := hperm.mem_iff.mp (mem_cons_self (a := x))
        rcases mem_append.mp hmem with hmem | hmem
        · exact hmem
        · exact absurd (mem_singleton.mp hmem) hne
      have hc : c ∈ xs := by
        rcases mem_cons.mp (hperm.mem_iff.mpr (mem_append_right cands mem_cons_self)) with heq | hc
        · exact absurd heq.symm hne
        · exact hc
      have hfalse := (pairwise_cons.mp hsorted).1 c hc
      rw [hbefore x hmem] at hfalse
      cases hfalse
    subst hx
    exact ⟨xs, rfl, (perm_cons x).mp (hperm.trans (perm_append_singleton x cands))⟩

theorem bestNextScore_spec (rows : List (List (BitVec 64))) (top : List GreedyCand) (p : GreedyCand) :
    (∀ b, bestNextScore rows s top p = some b → ∃ q ∈ top, q.pi ≠ p.pi ∧
      countOnes (inter (rowAt rows q.pi) (diff s.uncovered (rowAt rows p.pi))) ≠ 0 ∧
      b = (countOnes (inter (rowAt rows q.pi) (diff s.uncovered (rowAt rows p.pi))) : Int) * 64 - (q.cost : Int)) ∧
    ∀ q ∈ top, q.pi ≠ p.pi → countOnes (inter (rowAt rows q.pi) (diff s.uncovered (rowAt rows p.pi))) ≠ 0 →
      ∃ b, bestNextScore rows s top p = some b ∧
        (countOnes (inter (rowAt rows q.pi) (diff s.uncovered (rowAt rows p.pi))) : Int) * 64 - (q.cost : Int) ≤ b := by
  unfold bestNextScore
  dsimp only
  generalize diff s.uncovered (rowAt rows p.pi) = tmp
  induction top using reverseRecOn with
  | nil => exact ⟨by simp, by simp⟩
  | append_singleton top q ih =>
    rw [foldl_append, foldl_cons, foldl_nil]
    generalize hbest : List.foldl _ none top = best at ih ⊢
    obtain ⟨hsome, hle⟩ := ih
    constructor
    · intro b hb
      have hold : best = some b → ∃ q' ∈ top ++ [q], q'.pi ≠ p.pi ∧ countOnes (inter (rowAt rows q'.pi) tmp) ≠ 0 ∧
          b = (countOnes (inter (rowAt rows q'.pi) tmp) : Int) * 64 - (q'.cost : Int) := by
        intro heq
        obtain ⟨q', hq', h⟩ := hsome b heq
        exact ⟨q', mem_append_left _ hq', h⟩
      split at hb
      · exact hold hb
      rename_i hne
      split at hb
      · exact hold hb
      rename_i hgain
      split at hb
      · exact ⟨q, by simp, hne, hgain, (Option.some.inj hb).symm⟩
      · split at hb
        · exact ⟨q, by simp, hne, hgain, (Option.some.inj hb).symm⟩
        · exact hold (by rw [← hb])
    · intro q' hq' hne hgain
      rcases mem_append.mp hq' with hq' | hq'
      · obtain ⟨b, rfl, hb⟩ := hle q' hq' hne hgain
        split
        · exact ⟨b, rfl, hb⟩
        split
        · exact ⟨b, rfl, hb⟩
        dsimp only
        split
        · exact ⟨_, rfl, by omega⟩
        · exact ⟨b, rfl, hb⟩
      · obtain rfl := mem_singleton.mp hq'
        rw [if_neg hne, if_neg hgain]
        split
        · exact ⟨_, rfl, Int.le_refl _⟩
        · split
          · exact ⟨_, rfl, Int.le_refl _⟩
          · exact ⟨_, rfl, by omega⟩

theorem lookahead_eq_first (rows : List (List (BitVec 64))) (s : GreedyState) (c : GreedyCand) (cands : List GreedyCand)
    (hle : ∀ p ∈ cands, combinedScore rows s (c :: cands) p ≤ combinedScore rows s (c :: cands) c) :
    lookahead rows s (c :: cands) = some (combinedScore rows s (c :: cands) c, c) := by
  rw [lookahead, foldl_cons]
  generalize combinedScore rows s (c :: cands) = score at hle ⊢
  dsimp only
  induction cands with
  | nil => rfl
  | cons p cands ih =>
    rw [foldl_cons]
    dsimp only
    rw [if_neg (Int.not_lt.mpr (hle p mem_cons_self))]
    exact ih fun q hq => hle q (mem_cons_of_mem _ hq)

theorem bit_left (h : CornerState n k s) (hpi : pi < 63 + 2 ^ n) (j : Nat) :
    bit (diff s.uncovered (rowAt (cornerRows n) pi)) j =
      (bit s.uncovered j && !bit (rowAt (cornerRows n) pi) j) :=
  bit_diff (by rw [length_cornerRow hpi, h.greedy.length]) j

theorem secondGain (hn : n ≤ 16) (h : CornerState n k s) (hk : k < 2 ^ n) (pi : Nat) (hpi : pi < 63 + 2 ^ n) :
    (∀ qi < 63, countOnes (inter (rowAt (cornerRows n) qi) (diff s.uncovered (rowAt (cornerRows n) pi))) =
      (bit (diff s.uncovered (rowAt (cornerRows n) pi)) (2 ^ n - 1)).toNat) ∧
    countOnes (inter (rowAt (cornerRows n) (63 + k)) (diff s.uncovered (rowAt (cornerRows n) pi))) =
      (bit (diff s.uncovered (rowAt (cornerRows n) pi)) k).toNat := by
  refine countOnes_cornerRow hn ?_ (fun j hj => ?_) hk
  · rw [length_diff, length_cornerRow hpi, h.greedy.length, Nat.min_self]
  · rw [bit_left h hpi, Bool.and_eq_true] at hj
    exact (h.bit_uncovered hn (Nat.le_of_lt hk)).mp hj.1

variable {copies : List GreedyCand}

/-- After a copy the other copies gain nothing, and the cube of the round gains something unless
it is the last. -/
theorem combinedScore_copy_le (hn : n ≤ 16) (h : CornerState n k s) (hk : k < 2 ^ n)
    (hcopies : ∀ p ∈ copies, ∃ pi < 63, p = copyCand n pi) (hpi : pi < 63) :
    combinedScore (cornerRows n) s (cubeCand k :: copies) (copyCand n pi) ≤
      64 - (65535 * n : Nat) + (if k = 2 ^ n - 1 then 0 else 64) := by
  obtain ⟨hcopy, hcube⟩ := secondGain hn h hk pi (by omega)
  have hlast : bit (diff s.uncovered (rowAt (cornerRows n) pi)) (2 ^ n - 1) = false := by
    rw [bit_left h (by omega), (bit_copyRow hn (by omega) hpi).mpr rfl, Bool.not_true, Bool.and_false]
  rw [combinedScore]
  change (64 : Int) - (65535 * n : Nat) + _ ≤ _
  cases hnext : bestNextScore (cornerRows n) s (cubeCand k :: copies) (copyCand n pi) with
  | none =>
    rw [Option.getD_none]
    split <;> omega
  | some b =>
    obtain ⟨q, hq, hne, hgain, rfl⟩ := (bestNextScore_spec _ _ _).1 b hnext
    rw [Option.getD_some]
    rcases mem_cons.mp hq with rfl | hq
    · change countOnes (inter (rowAt _ (63 + k)) (diff s.uncovered (rowAt _ pi))) ≠ 0 at hgain
      change _ + ((countOnes (inter (rowAt _ (63 + k)) (diff s.uncovered (rowAt _ pi))) : Int) * 64 - ((0 : Nat) :
        Int)) ≤ _
      rw [hcube] at hgain ⊢
      have hone := Bool.toNat_le (bit (diff s.uncovered (rowAt (cornerRows n) pi)) k)
      split
      · rename_i heq
        rw [heq, hlast] at hgain
        exact absurd rfl hgain
      · omega
    · obtain ⟨qi, hqi, rfl⟩ := hcopies q hq
      refine absurd ?_ hgain
      change countOnes (inter (rowAt _ qi) (diff s.uncovered (rowAt _ pi))) = 0
      rw [hcopy qi hqi, hlast]
      rfl

theorem le_combinedScore_cube (hn : n ≤ 16) (h : CornerState n k s) (hk : k < 2 ^ n)
    (hcopies : ∀ p ∈ copies, ∃ pi < 63, p = copyCand n pi) (hsome : ∃ p, p ∈ copies) :
    64 - (65535 * n : Nat) + (if k = 2 ^ n - 1 then 0 else 64) ≤
      combinedScore (cornerRows n) s (cubeCand k :: copies) (cubeCand k) := by
  obtain ⟨hcopy, -⟩ := secondGain hn h hk (63 + k) (by omega)
  have hlast : bit (diff s.uncovered (rowAt (cornerRows n) (63 + k))) (2 ^ n - 1) = true ↔ k ≠ 2 ^ n - 1 := by
    rw [bit_left h (by omega), Bool.and_eq_true, Bool.not_eq_true', Bool.eq_false_iff, Ne,
      bit_insideRow hn (by omega) hk, h.bit_uncovered hn (Nat.le_of_lt hk)]
    constructor
    · rintro ⟨-, hnot⟩ rfl
      exact hnot (inside_self _)
    · intro hne
      exact ⟨by omega, fun hin => hne (by have := hin.le; omega)⟩
  rw [combinedScore]
  change _ ≤ (64 : Int) + _
  by_cases hfull : k = 2 ^ n - 1
  · rw [if_pos hfull]
    cases hnext : bestNextScore (cornerRows n) s (cubeCand k :: copies) (cubeCand k) with
    | none =>
      rw [Option.getD_none]
      omega
    | some b =>
      obtain ⟨q, hq, hne, hgain, -⟩ := (bestNextScore_spec _ _ _).1 b hnext
      rcases mem_cons.mp hq with rfl | hq
      · exact absurd rfl hne
      · obtain ⟨qi, hqi, rfl⟩ := hcopies q hq
        refine absurd ?_ hgain
        change countOnes (inter (rowAt _ qi) (diff s.uncovered (rowAt _ (63 + k)))) = 0
        rw [hcopy qi hqi, Bool.eq_false_iff.mpr fun htrue => hlast.mp htrue hfull]
        rfl
  · rw [if_neg hfull]
    obtain ⟨p, hp⟩ := hsome
    obtain ⟨pi, hpi, rfl⟩ := hcopies p hp
    have hgain : countOnes (inter (rowAt (cornerRows n) (copyCand n pi).pi)
        (diff s.uncovered (rowAt (cornerRows n) (cubeCand k).pi))) = 1 := by
      change countOnes (inter (rowAt _ pi) (diff s.uncovered (rowAt _ (63 + k)))) = 1
      rw [hcopy pi hpi, hlast.mpr hfull]
      rfl
    obtain ⟨b, hb, hle⟩ := (bestNextScore_spec (cornerRows n) (cubeCand k :: copies) (cubeCand k)).2 _
      (mem_cons_of_mem _ hp) (by change pi ≠ 63 + k; omega) (by rw [hgain]; omega)
    rw [hgain] at hle
    change ((1 : Nat) : Int) * 64 - ((65535 * n : Nat) : Int) ≤ b at hle
    rw [hb, Option.getD_some]
    omega

theorem greedyChoice_corner (hpos : 1 ≤ n) (hn : n ≤ 16) (h : CornerState n k s) (hk : k < 2 ^ n)
    (sort : StdSort GreedyCand.before) : greedyChoice (cornerRows n) (cornerCost n) s sort = some (63 + k) := by
  obtain ⟨rest, hcands⟩ := candidates_corner hn h hk
  have hlen63 : ((List.range 63).map (copyCand n)).length = 63 := by rw [length_map, length_range]
  have htake : ((List.range 63).map (copyCand n) ++ cubeCand k :: rest).take 64 =
      (List.range 63).map (copyCand n) ++ [cubeCand k] := by
    rw [take_append, hlen63, take_of_length_le (by rw [hlen63]; omega)]
    rfl
  -- the score of the cube is the best, so that it comes first
  obtain ⟨copies, hsort, hperm⟩ := sort_eq_cons sort (cubeCand k) ((List.range 63).map (copyCand n))
    (fun d hd => by
      obtain ⟨pi, -, rfl⟩ := mem_map.mp hd
      have hlt : (64 : Int) - (65535 * n : Nat) < 64 := by omega
      have hne : (64 : Int) ≠ 64 - (65535 * n : Nat) := by omega
      rw [GreedyCand.before, cubeCand, copyCand, if_pos hne]
      exact decide_eq_true hlt)
  have hcopies : ∀ p ∈ copies.take 15, ∃ pi < 63, p = copyCand n pi := by
    intro p hp
    obtain ⟨pi, hpi, rfl⟩ := mem_map.mp (hperm.mem_iff.mp (mem_of_mem_take hp))
    exact ⟨pi, mem_range.mp hpi, rfl⟩
  have hsome : ∃ p, p ∈ copies.take 15 := by
    refine exists_mem_of_ne_nil _ fun hnil => ?_
    have hlen := congrArg List.length hnil
    rw [length_take, hperm.length_eq, hlen63] at hlen
    cases hlen
  have htop : (cubeCand k :: copies).take 16 = cubeCand k :: copies.take 15 := rfl
  have hlook := lookahead_eq_first (cornerRows n) s (cubeCand k) (copies.take 15)
    fun p hp => by
      obtain ⟨pi, hpi, rfl⟩ := hcopies p hp
      exact Int.le_trans (combinedScore_copy_le hn h hk hcopies hpi) (le_combinedScore_cube hn h hk hcopies hsome)
  obtain ⟨best, hbest⟩ : ∃ best, bestCand ((List.range 63).map (copyCand n) ++ cubeCand k :: rest) = some best := by
    rw [← Option.ne_none_iff_exists']
    intro hnone
    have hnil := (bestCand_spec _).2 hnone
    simp at hnil
  rw [greedyChoice, hcands, htake, hbest, Option.map_some, if_pos (by rw [length_append, hlen63]; simp), hsort,
    htop, hlook]
  rfl

variable {fuel : Nat}

theorem pickEssentials_corner (hn : n ≤ 16) (hfuel : 1 ≤ fuel) :
    pickEssentials (cornerRows n) (cornerOn n).length fuel s = some s := by
  have hpos : 0 < 2 ^ n := Nat.pow_pos (by omega)
  have htwo : ∀ j < 2 ^ n, (rowsCovering (cornerRows n) j).length ≠ 1 := by
    intro j hj hone
    obtain ⟨pi, hpi⟩ := length_eq_one_iff.mp hone
    have hmem : ∀ qi, qi < 63 + 2 ^ n →
        bit (rowAt (cornerRows n) qi) j = true → qi = pi := by
      intro qi hlt hbit
      exact mem_singleton.mp (hpi ▸ mem_rowsCovering.mpr ⟨by rwa [length_cornerRows], hbit⟩)
    have hfull := hmem (63 + (2 ^ n - 1)) (by omega)
      ((bit_insideRow hn hj (by omega)).mpr (inside_full hj))
    by_cases hlast : j = 2 ^ n - 1
    · have hcopy := hmem 0 (by omega) ((bit_copyRow hn hj (by omega)).mpr hlast)
      omega
    · have hown := hmem (63 + j) (by omega) ((bit_insideRow hn hj hj).mpr (inside_self j))
      omega
  have hstay : ∀ js : List Nat, (∀ j ∈ js, j < 2 ^ n) →
      js.foldl (pickEssential (cornerRows n)) (s, false) = (s, false) := by
    intro js hjs
    induction js with
    | nil => rfl
    | cons j js ih =>
      have hfirst : pickEssential (cornerRows n) (s, false) j = (s, false) := by
        unfold pickEssential
        rw [if_neg (htwo j (hjs j mem_cons_self)), ite_self]
      rw [foldl_cons, hfirst]
      exact ih fun i hi => hjs i (mem_cons_of_mem _ hi)
  obtain ⟨fuel, rfl⟩ : ∃ m, fuel = m + 1 := ⟨fuel - 1, by omega⟩
  rw [pickEssentials, hstay _ fun j hj => by rwa [mem_range, length_cornerOn] at hj]
  rfl

theorem CornerState.next (hn : n ≤ 16) (h : CornerState n k s) (hk : k < 2 ^ n) :
    CornerState n (k + 1) (applyPick (cornerRows n) s (63 + k)) := by
  have hlt : 63 + k < (cornerRows n).length := by
    rw [length_cornerRows]
    omega
  have hnot : 63 + k ∉ s.pick := by
    rw [h.pick]
    intro hmem
    obtain ⟨i, hi, heq⟩ := mem_map.mp hmem
    have := mem_range.mp hi
    omega
  have hgreedy := greedy_applyPick h.greedy (rowsOf_greedyRows _ _) hlt
    ((h.bit_uncovered hn (Nat.le_of_lt hk)).mpr ⟨Nat.le_refl k, hk⟩)
    ((bit_insideRow hn hk hk).mpr (inside_self k))
  refine ⟨hgreedy.1, ?_⟩
  rw [applyPick, if_neg (by rintro (hle | hmem); exacts [by omega, hnot hmem])]
  dsimp only
  rw [h.pick, range_succ, map_append]
  rfl

theorem greedyLoop_corner (hpos : 1 ≤ n) (hn : n ≤ 16) (sort : StdSort GreedyCand.before) (m : Nat)
    (h : CornerState n k s) (hk : k + m = 2 ^ n) (hfuel : m < fuel) :
    ∃ s', greedyLoop (cornerRows n) (cornerCost n) sort fuel s = some (s', true) ∧
      CornerState n (2 ^ n) s' := by
  obtain ⟨fuel, rfl⟩ : ∃ f, fuel = f + 1 := ⟨fuel - 1, by omega⟩
  induction m generalizing k s fuel with
  | zero =>
    obtain rfl : k = 2 ^ n := by omega
    have hzero : isZero s.uncovered = true := isZero_iff.mpr fun j => by
      rw [← Bool.not_eq_true, h.bit_uncovered hn (Nat.le_refl _)]
      omega
    rw [greedyLoop, if_pos hzero]
    exact ⟨s, rfl, h⟩
  | succ m ih =>
    obtain ⟨fuel, rfl⟩ : ∃ f, fuel = f + 1 := ⟨fuel - 1, by omega⟩
    have hzero : isZero s.uncovered = false :=
      isZero_eq_false_iff.mpr ⟨k, (h.bit_uncovered hn (by omega)).mpr ⟨Nat.le_refl k, by omega⟩⟩
    rw [greedyLoop, hzero, if_neg (by simp), greedyChoice_corner hpos hn h (by omega) sort]
    exact ih (h.next hn (by omega)) (by omega) fuel (by omega)

theorem greedyPicks_corner (hpos : 1 ≤ n) (hn : n ≤ 16) (sort : StdSort GreedyCand.before) (hfuel : 2 ^ n < fuel) :
    greedyPicks sort fuel (cornerPrimes n) (cornerOn n) n cornerOptions =
      (List.range (2 ^ n)).map fun i => 63 + i := by
  obtain ⟨s, hs, hstate⟩ := greedyLoop_corner (k := 0) hpos hn sort (2 ^ n)
    (s := { uncovered := firstBits (cornerOn n).length, pick := [] }) ⟨greedy_nil, rfl⟩ (by omega) hfuel
  have hsearch : greedySearch sort fuel (cornerPrimes n) (cornerOn n) n cornerOptions = some (s, true) := by
    rw [greedySearch, pickEssentials_corner hn (Nat.one_le_of_lt hfuel), Option.bind_some]
    exact hs
  rw [greedyPicks, hsearch]
  exact hstate.pick

theorem coverCount_corner (hn : n ≤ 16) :
    coverCount (cornerRows n) ((List.range (2 ^ n)).map fun i => 63 + i) 0 = 2 ^ n := by
  have hpos : 0 < 2 ^ n := Nat.pow_pos (by omega)
  have hall : ∀ pi ∈ (List.range (2 ^ n)).map fun i => 63 + i,
      bit (rowAt (cornerRows n) pi) 0 = true := by
    intro pi hpi
    obtain ⟨i, hi, rfl⟩ := mem_map.mp hpi
    exact (bit_insideRow hn hpos (mem_range.mp hi)).mpr fun v _ => Nat.zero_testBit v
  rw [coverCount, countP_eq_length.mpr hall, length_map, length_range]

end Corner

theorem cornerPrimes_cover {n : Nat} (hn : n ≤ 16) :
    ∀ m ∈ cornerOn n, ∃ imp ∈ cornerPrimes n, implicantCovers imp m = true := by
  intro m hm
  obtain ⟨j, hj, hget⟩ := getElem_of_mem hm
  rw [length_cornerOn] at hj
  have hbit := (bit_insideRow hn hj hj).mpr (inside_self j)
  obtain ⟨m', hm', hcov⟩ := ((rowsOf_greedyRows _ _).bit_iff (63 + j) j).mp hbit
  obtain ⟨hj', hget'⟩ := List.getElem?_eq_some_iff.mp hm'
  obtain rfl : m = m' := hget.symm.trans hget'
  simp only [primeCovers, getElem?_cube hj] at hcov
  exact ⟨_, List.mem_of_getElem? (getElem?_cube hj), hcov⟩

/-- All cubes around a corner of 16 variables: the cover that is returned is not irredundant. -/
theorem qmGreedyCover_corner : (∀ m ∈ cornerOn 16, ∃ imp ∈ cornerPrimes 16, implicantCovers imp m = true) ∧
    ¬ ∃ sol, qmGreedyCover GreedyCand.insertion (2 ^ 32 + 1)
      (cornerPrimes 16) (cornerOn 16) 16 cornerOptions = some sol ∧
        GreedyValid (cornerPrimes 16) (cornerOn 16) sol := by
  refine ⟨cornerPrimes_cover (Nat.le_refl 16), ?_⟩
  rintro ⟨sol, hsol, hvalid⟩
  obtain ⟨sol', hsol', -, hiff, -⟩ := qmGreedyCover_spec GreedyCand.insertion
    (2 ^ 32 + 1) (by omega) 16 cornerOptions (cornerPrimes_cover (Nat.le_refl 16))
  rw [hsol] at hsol'
  cases hsol'
  refine hiff.mp hvalid.irredundant ⟨0, by rw [length_cornerOn]; omega, ?_⟩
  rw [greedyPicks_corner (by omega) (Nat.le_refl 16) _ (by omega), coverCount_corner (Nat.le_refl 16)]
  omega

end PhyEngine
