import Mathlib.Data.Finset.Card
import Mathlib.Data.Nat.Bitwise

/-!
# The bits of a 16-bit word

Words are compared bit by bit. `single v` has the one bit `v`, `low n` the bits below `n`,
and `ones` is the set of the bits of a word.
-/

namespace WordBits

variable {i : Nat} {x : UInt16}

theorem testBit_eq_false_of_le (x : UInt16) (hi : 16 ≤ i) : x.toNat.testBit i = false :=
  Nat.testBit_lt_two_pow (Nat.lt_of_lt_of_le x.toNat_lt (Nat.pow_le_pow_right (by omega) hi))

theorem lt_of_testBit (hi : x.toNat.testBit i = true) : i < 16 := by
  by_contra hle
  rw [testBit_eq_false_of_le x (by omega)] at hi
  cases hi

theorem ext {y : UInt16} (h : ∀ i < 16, x.toNat.testBit i = y.toNat.testBit i) : x = y := by
  refine UInt16.toNat_inj.mp (Nat.eq_of_testBit_eq fun i => ?_)
  rcases Nat.lt_or_ge i 16 with hi | hi
  · exact h i hi
  · rw [testBit_eq_false_of_le x hi, testBit_eq_false_of_le y hi]

@[simp] theorem testBit_zero (i : Nat) : (0 : UInt16).toNat.testBit i = false := by simp

@[simp] theorem testBit_and (x y : UInt16) (i : Nat) :
    (x &&& y).toNat.testBit i = (x.toNat.testBit i && y.toNat.testBit i) := by
  rw [UInt16.toNat_and, Nat.testBit_and]

@[simp] theorem testBit_or (x y : UInt16) (i : Nat) :
    (x ||| y).toNat.testBit i = (x.toNat.testBit i || y.toNat.testBit i) := by
  rw [UInt16.toNat_or, Nat.testBit_or]

@[simp] theorem testBit_xor (x y : UInt16) (i : Nat) :
    (x ^^^ y).toNat.testBit i = (x.toNat.testBit i ^^ y.toNat.testBit i) := by
  rw [UInt16.toNat_xor, Nat.testBit_xor]

theorem testBit_not (x : UInt16) (hi : i < 16) : (~~~x).toNat.testBit i = !x.toNat.testBit i := by
  have hbit := BitVec.getLsbD_not (x := x.toBitVec) (i := i)
  rw [decide_eq_true hi, Bool.true_and] at hbit
  exact hbit

def single (v : Nat) : UInt16 := UInt16.ofNat (2 ^ v)

theorem testBit_single {v : Nat} (hv : v < 16) (i : Nat) : (single v).toNat.testBit i = decide (v = i) := by
  have hlt : 2 ^ v < 2 ^ 16 := Nat.pow_lt_pow_right (by omega) hv
  rw [single, UInt16.toNat_ofNat', Nat.mod_eq_of_lt hlt, Nat.testBit_two_pow]

def low (n : Nat) : UInt16 := UInt16.ofNat (2 ^ n - 1)

theorem testBit_low {n : Nat} (hn : n ≤ 16) (i : Nat) : (low n).toNat.testBit i = decide (i < n) := by
  have hlt : 2 ^ n ≤ 2 ^ 16 := Nat.pow_le_pow_right (by omega) hn
  have hpos : 0 < 2 ^ n := Nat.pow_pos (by omega)
  rw [low, UInt16.toNat_ofNat', Nat.mod_eq_of_lt (by omega), Nat.testBit_two_pow_sub_one]

theorem lt_two_pow_iff {n : Nat} :
    x.toNat < 2 ^ n ↔ ∀ i, x.toNat.testBit i = true → i < n := by
  constructor
  · intro hlt i hi
    by_contra hle
    rw [Nat.testBit_lt_two_pow (Nat.lt_of_lt_of_le hlt (Nat.pow_le_pow_right (by omega) (by omega)))] at hi
    cases hi
  · intro h
    refine Nat.lt_pow_two_of_testBit _ fun i hi => ?_
    cases hbit : x.toNat.testBit i with
    | false => rfl
    | true => exact absurd (h i hbit) (by omega)

def ones (x : UInt16) : Finset Nat := (Finset.range 16).filter fun i => x.toNat.testBit i = true

@[simp] theorem mem_ones : i ∈ ones x ↔ x.toNat.testBit i = true := by
  rw [ones, Finset.mem_filter, Finset.mem_range]
  exact ⟨fun h => h.2, fun h => ⟨lt_of_testBit h, h⟩⟩

theorem ones_injective {y : UInt16} (h : ones x = ones y) : x = y := by
  refine ext fun i _ => ?_
  rw [Bool.eq_iff_iff, ← mem_ones, ← mem_ones, h]

theorem ones_single {v : Nat} (hv : v < 16) : ones (single v) = {v} := by
  ext i
  rw [mem_ones, testBit_single hv, decide_eq_true_iff, Finset.mem_singleton, eq_comm]

theorem card_ones_eq_zero : (ones x).card = 0 ↔ x = 0 := by
  rw [Finset.card_eq_zero]
  constructor
  · intro h
    refine ones_injective ?_
    rw [h]
    ext i
    simp
  · rintro rfl
    ext i
    simp

theorem card_ones_eq_one : (ones x).card = 1 ↔ ∃ v < 16, x = single v := by
  rw [Finset.card_eq_one]
  constructor
  · rintro ⟨v, hv⟩
    have hlt : v < 16 := lt_of_testBit (mem_ones.mp (by rw [hv]; exact Finset.mem_singleton_self v))
    exact ⟨v, hlt, ones_injective (by rw [hv, ones_single hlt])⟩
  · rintro ⟨v, hv, rfl⟩
    exact ⟨v, ones_single hv⟩

end WordBits
