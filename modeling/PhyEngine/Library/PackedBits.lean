import Mathlib.Data.List.Nodup
import Mathlib.Data.Nat.Bitwise

/-!
# Sets packed into 64-bit words

Bit `i` of a list of words is bit `i % 64` of word `i / 64`; a word past the end reads as zero.
The operations on the words act on the bits as on sets.
-/

namespace PackedBits

open List

def bit (ws : List (BitVec 64)) (i : Nat) : Bool := (ws.getD (i / 64) 0).getLsbD (i % 64)

def setBit (ws : List (BitVec 64)) (i : Nat) : List (BitVec 64) := ws.modify (i / 64) (· ||| 1#64 <<< (i % 64))

def clearBit (ws : List (BitVec 64)) (i : Nat) : List (BitVec 64) := ws.modify (i / 64) (· &&& ~~~(1#64 <<< (i % 64)))

def lowMask (rem : Nat) : BitVec 64 := (1#64 <<< rem) - 1#64

def isZero (ws : List (BitVec 64)) : Bool := ws.all (· == 0)

/-- The number of bits, a `popcount` per word. -/
def countOnes (ws : List (BitVec 64)) : Nat := (ws.map fun w => (List.range 64).countP fun j => w.getLsbD j).sum

def union (ws vs : List (BitVec 64)) : List (BitVec 64) := List.zipWith (· ||| ·) ws vs

def inter (ws vs : List (BitVec 64)) : List (BitVec 64) := List.zipWith (· &&& ·) ws vs

def diff (ws vs : List (BitVec 64)) : List (BitVec 64) := List.zipWith (fun w v => w &&& ~~~v) ws vs

variable {ws vs : List (BitVec 64)}

@[simp] theorem length_setBit (ws : List (BitVec 64)) (i : Nat) : (setBit ws i).length = ws.length :=
  length_modify ..

@[simp] theorem length_clearBit (ws : List (BitVec 64)) (i : Nat) : (clearBit ws i).length = ws.length :=
  length_modify ..

theorem getLsbD_one_shiftLeft {s j : Nat} (hj : j < 64) : (1#64 <<< s).getLsbD j = decide (s = j) := by
  rw [BitVec.getLsbD_shiftLeft, BitVec.getLsbD_one]
  grind

theorem getLsbD_lowMask {rem j : Nat} (hrem : rem < 64) : (lowMask rem).getLsbD j = decide (j < rem) := by
  have hlt : 2 ^ rem < 2 ^ 64 := Nat.pow_lt_pow_right (by omega) hrem
  have hpos : 0 < 2 ^ rem := Nat.pow_pos (by omega)
  have hone : (1#64 <<< rem).toNat = 2 ^ rem := by
    rw [BitVec.toNat_shiftLeft, BitVec.toNat_ofNat, Nat.shiftLeft_eq]
    omega
  have hvalue : (lowMask rem).toNat = 2 ^ rem - 1 := by
    rw [lowMask, BitVec.toNat_sub, hone, BitVec.toNat_ofNat]
    omega
  rw [BitVec.getLsbD, hvalue, Nat.testBit_two_pow_sub_one]

theorem getD_modify (f : BitVec 64 → BitVec 64) (k j : Nat) :
    (ws.modify k f).getD j 0 = if k = j ∧ j < ws.length then f (ws.getD j 0) else ws.getD j 0 := by
  simp only [getD_eq_getElem?_getD, getElem?_modify]
  by_cases hj : j < ws.length
  · by_cases hk : k = j <;> simp [hj, hk]
  · simp [hj]

variable {i : Nat}

theorem bit_setBit (hi : i / 64 < ws.length) (j : Nat) :
    bit (setBit ws i) j = (bit ws j || decide (i = j)) := by
  have hj : j % 64 < 64 := Nat.mod_lt _ (by omega)
  rw [bit, setBit, getD_modify, bit]
  by_cases hword : i / 64 = j / 64
  · have hbit : decide (i % 64 = j % 64) = decide (i = j) := by
      rw [decide_eq_decide]
      omega
    rw [if_pos ⟨hword, by omega⟩, BitVec.getLsbD_or, getLsbD_one_shiftLeft hj, hbit]
  · have hne : i ≠ j := fun h => hword (by rw [h])
    rw [if_neg (fun h => hword h.1), decide_eq_false hne, Bool.or_false]

theorem bit_clearBit (ws : List (BitVec 64)) (i j : Nat) :
    bit (clearBit ws i) j = (bit ws j && !decide (i = j)) := by
  have hj : j % 64 < 64 := Nat.mod_lt _ (by omega)
  rw [bit, clearBit, getD_modify, bit]
  by_cases hword : i / 64 = j / 64
  · have hbit : decide (i % 64 = j % 64) = decide (i = j) := by
      rw [decide_eq_decide]
      omega
    by_cases hlen : j / 64 < ws.length
    · rw [if_pos ⟨hword, hlen⟩, BitVec.getLsbD_and, BitVec.getLsbD_not, getLsbD_one_shiftLeft hj, hbit,
        decide_eq_true hj, Bool.true_and]
    · rw [if_neg (fun h => hlen h.2), getD_eq_default _ _ (by omega)]
      simp
  · have hne : i ≠ j := fun h => hword (by rw [h])
    rw [if_neg (fun h => hword h.1), decide_eq_false hne, Bool.not_false, Bool.and_true]

@[simp] theorem length_foldl_setBit (p : Nat → Bool) (is : List Nat) (ws : List (BitVec 64)) :
    (is.foldl (fun t i => if p i then setBit t i else t) ws).length = ws.length := by
  induction is generalizing ws with
  | nil => rfl
  | cons i is ih =>
    rw [foldl_cons, ih]
    split
    · exact length_setBit ws i
    · rfl

theorem bit_foldl_setBit (p : Nat → Bool) {n : Nat} (hn : n ≤ 64 * ws.length) (j : Nat) :
    bit ((List.range n).foldl (fun t i => if p i then setBit t i else t) ws) j =
      (bit ws j || (decide (j < n) && p j)) := by
  induction n with
  | zero => simp
  | succ n ih =>
    have hlen := length_foldl_setBit p (List.range n) ws
    rw [range_succ, foldl_append, foldl_cons, foldl_nil]
    split
    · rename_i hp
      rw [bit_setBit (by omega), ih (by omega)]
      by_cases hj : n = j
      · subst hj
        simp [hp]
      · rw [decide_eq_false hj, Bool.or_false, show decide (j < n + 1) = decide (j < n) by rw [decide_eq_decide]; omega]
    · rename_i hp
      rw [ih (by omega)]
      by_cases hj : n = j
      · subst hj
        simp [hp]
      · rw [show decide (j < n + 1) = decide (j < n) by rw [decide_eq_decide]; omega]

theorem bit_eq_false_of_le {i : Nat} (hi : ws.length ≤ i / 64) : bit ws i = false := by
  rw [bit, getD_eq_default _ _ hi]
  simp

theorem lt_of_bit (hi : bit ws i = true) : i / 64 < ws.length := by
  by_contra hle
  rw [bit_eq_false_of_le (by omega)] at hi
  cases hi

@[simp] theorem bit_replicate_zero (n i : Nat) : bit (List.replicate n 0) i = false := by
  rw [bit, getD_eq_getElem?_getD, getElem?_replicate]
  by_cases hn : i / 64 < n <;> simp [hn]

theorem bit_replicate_allOnes (n i : Nat) :
    bit (List.replicate n (BitVec.allOnes 64)) i = decide (i / 64 < n) := by
  have hi : i % 64 < 64 := Nat.mod_lt _ (by omega)
  rw [bit, getD_eq_getElem?_getD, getElem?_replicate]
  by_cases hn : i / 64 < n
  · rw [if_pos hn, Option.getD_some, BitVec.getLsbD_allOnes, decide_eq_true hi, decide_eq_true hn]
  · simp [hn]

theorem bit_map_range (f : Nat → BitVec 64) (n i : Nat) :
    bit ((List.range n).map f) i = (decide (i / 64 < n) && (f (i / 64)).getLsbD (i % 64)) := by
  rw [bit, getD_eq_getElem?_getD, getElem?_map]
  by_cases hn : i / 64 < n
  · simp [hn]
  · rw [getElem?_eq_none (by simpa using hn)]
    simp [hn]

theorem bit_zipWith {f : BitVec 64 → BitVec 64 → BitVec 64} {g : Bool → Bool → Bool}
    (hf : ∀ x y j, j < 64 → (f x y).getLsbD j = g (x.getLsbD j) (y.getLsbD j)) (hg : g false false = false)
    (hlen : ws.length = vs.length) (i : Nat) : bit (List.zipWith f ws vs) i = g (bit ws i) (bit vs i) := by
  have hi : i % 64 < 64 := Nat.mod_lt _ (by omega)
  by_cases hlt : i / 64 < ws.length
  · have hlt' : i / 64 < vs.length := by omega
    simp only [bit, getD_eq_getElem?_getD, getElem?_zipWith]
    simp only [getElem?_eq_getElem hlt, getElem?_eq_getElem hlt', Option.getD_some]
    exact hf _ _ _ hi
  · have hlength : (zipWith f ws vs).length ≤ i / 64 := by
      rw [length_zipWith]
      omega
    rw [bit_eq_false_of_le hlength, @bit_eq_false_of_le ws i (by omega),
      @bit_eq_false_of_le vs i (by omega), hg]

@[simp] theorem length_union (ws vs : List (BitVec 64)) : (union ws vs).length = min ws.length vs.length :=
  length_zipWith ..

@[simp] theorem length_inter (ws vs : List (BitVec 64)) : (inter ws vs).length = min ws.length vs.length :=
  length_zipWith ..

@[simp] theorem length_diff (ws vs : List (BitVec 64)) : (diff ws vs).length = min ws.length vs.length :=
  length_zipWith ..

section

variable (hlen : ws.length = vs.length)
include hlen

theorem bit_union (i : Nat) : bit (union ws vs) i = (bit ws i || bit vs i) :=
  bit_zipWith (fun _ _ _ _ => BitVec.getLsbD_or) rfl hlen i

theorem bit_inter (i : Nat) : bit (inter ws vs) i = (bit ws i && bit vs i) :=
  bit_zipWith (fun _ _ _ _ => BitVec.getLsbD_and) rfl hlen i

theorem bit_diff (i : Nat) : bit (diff ws vs) i = (bit ws i && !bit vs i) := by
  refine bit_zipWith (g := fun a b => a && !b) (fun x y j hj => ?_) rfl hlen i
  rw [BitVec.getLsbD_and, BitVec.getLsbD_not, decide_eq_true hj, Bool.true_and]

end

theorem exists_bit_of_ne_zero {w : BitVec 64} (hw : w ≠ 0) : ∃ j < 64, w.getLsbD j = true := by
  by_contra hnone
  refine hw (BitVec.eq_of_getLsbD_eq fun j hj => ?_)
  cases hbit : w.getLsbD j with
  | true => exact absurd ⟨j, hj, hbit⟩ hnone
  | false => simp

theorem isZero_iff : isZero ws = true ↔ ∀ i, bit ws i = false := by
  rw [isZero, all_eq_true]
  constructor
  · intro h i
    by_cases hi : i / 64 < ws.length
    · have hzero := h _ (getElem_mem hi)
      rw [bit, getD_eq_getElem _ _ hi, eq_of_beq hzero]
      simp
    · exact bit_eq_false_of_le (by omega)
  · intro h w hw
    obtain ⟨k, hk, rfl⟩ := getElem_of_mem hw
    by_contra hne
    obtain ⟨j, hj, hbit⟩ := exists_bit_of_ne_zero (fun heq => hne (beq_iff_eq.mpr heq))
    have hread := h (64 * k + j)
    rw [bit, show (64 * k + j) / 64 = k by omega, show (64 * k + j) % 64 = j by omega,
      getD_eq_getElem _ _ hk, hbit] at hread
    cases hread

theorem isZero_eq_false_iff : isZero ws = false ↔ ∃ i, bit ws i = true := by
  rw [← Bool.not_eq_true, isZero_iff, not_forall]
  simp only [Bool.not_eq_false]

theorem ext (hlen : ws.length = vs.length) (h : ∀ i, bit ws i = bit vs i) : ws = vs := by
  refine ext_getElem hlen fun k hk hk' => BitVec.eq_of_getLsbD_eq fun j hj => ?_
  have hread := h (64 * k + j)
  rwa [bit, bit, show (64 * k + j) / 64 = k by omega, show (64 * k + j) % 64 = j by omega,
    getD_eq_getElem _ _ hk, getD_eq_getElem _ _ hk'] at hread

theorem countOnes_eq (ws : List (BitVec 64)) : countOnes ws = (List.range (64 * ws.length)).countP (bit ws) := by
  induction ws with
  | nil => rfl
  | cons w ws ih =>
    have hhead : ∀ j ∈ List.range 64, bit (w :: ws) j = w.getLsbD j := by
      intro j hj
      have hlt := mem_range.mp hj
      rw [bit, Nat.div_eq_of_lt hlt, Nat.mod_eq_of_lt hlt, getD_cons_zero]
    have htail : ∀ j ∈ List.range (64 * ws.length), bit (w :: ws) (64 + j) = bit ws j := by
      intro j _
      rw [bit, show (64 + j) / 64 = j / 64 + 1 by omega, show (64 + j) % 64 = j % 64 by omega,
        getD_cons_succ, bit]
    rw [length_cons, show 64 * (ws.length + 1) = 64 + 64 * ws.length by omega, range_add,
      countP_append, countP_map, countP_congr fun j hj => by rw [hhead j hj],
      countP_congr (l := List.range (64 * ws.length)) fun j hj => by rw [Function.comp_apply, htail j hj],
      ← ih, countOnes, countOnes, map_cons, sum_cons]

theorem countOnes_pos_iff : 0 < countOnes ws ↔ ∃ i, bit ws i = true := by
  rw [countOnes_eq, countP_pos_iff]
  constructor
  · rintro ⟨i, -, hi⟩
    exact ⟨i, hi⟩
  · rintro ⟨i, hi⟩
    have := lt_of_bit hi
    exact ⟨i, mem_range.mpr (by omega), hi⟩

theorem countOnes_eq_one (h : ∀ j, bit ws j = true ↔ j = i) : countOnes ws = 1 := by
  have hi := lt_of_bit ((h i).mpr rfl)
  rw [countOnes_eq, countP_congr (q := fun j => j == i) fun j _ => by rw [h j, beq_iff_eq], ← List.count]
  exact count_eq_one_of_mem nodup_range (mem_range.mpr (by omega))

theorem countOnes_eq_zero (h : ∀ j, bit ws j = false) : countOnes ws = 0 := by
  by_contra hne
  obtain ⟨j, hj⟩ := countOnes_pos_iff.mp (Nat.pos_of_ne_zero hne)
  rw [h j] at hj
  cases hj

/-- The words that are all set, with the last one cut off after `n` bits. -/
def firstBits (n : Nat) : List (BitVec 64) :=
  let ws := List.replicate ((n + 63) / 64) (BitVec.allOnes 64)
  if n % 64 = 0 then ws
  else ws.set (ws.length - 1) (if n % 64 = 64 then BitVec.allOnes 64 else lowMask (n % 64))

@[simp] theorem length_firstBits (n : Nat) : (firstBits n).length = (n + 63) / 64 := by
  unfold firstBits
  dsimp only
  split
  · rw [length_replicate]
  · rw [length_set, length_replicate]

theorem bit_firstBits (n i : Nat) : bit (firstBits n) i = decide (i < n) := by
  unfold firstBits
  dsimp only
  split
  · rw [bit_replicate_allOnes, decide_eq_decide]
    omega
  · rename_i hrem
    have hlt : n % 64 < 64 := Nat.mod_lt _ (by omega)
    rw [if_neg (by omega), bit, length_replicate, getD_eq_getElem?_getD, getElem?_set,
      length_replicate]
    by_cases hlast : (n + 63) / 64 - 1 = i / 64
    · rw [if_pos hlast, if_pos (by omega), Option.getD_some, getLsbD_lowMask hlt, decide_eq_decide]
      omega
    · rw [if_neg hlast, ← getD_eq_getElem?_getD]
      change bit (replicate ((n + 63) / 64) (BitVec.allOnes 64)) i = _
      rw [bit_replicate_allOnes, decide_eq_decide]
      omega

end PackedBits
