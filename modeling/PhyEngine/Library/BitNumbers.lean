import Mathlib.Data.Int.ModEq
import Mathlib.Data.List.Basic
import Mathlib.Data.Nat.Bitwise
import Mathlib.Data.Nat.Prime.Basic
import Mathlib.Tactic.Ring

/-!
# Numbers as lists of bits

Bits are listed from the least significant one on. `value` is the unsigned number of a
list and `intValue` the number that it stands for in two's complement.
-/

namespace BitNumbers

open List

def value (bits : List Bool) : Nat := bits.foldr (fun b n => b.toNat + 2 * n) 0

@[simp] theorem value_nil : value [] = 0 := rfl

@[simp] theorem value_cons (b : Bool) (bits : List Bool) : value (b :: bits) = b.toNat + 2 * value bits := rfl

theorem value_lt (bits : List Bool) : value bits < 2 ^ bits.length := by
  induction bits with
  | nil => simp
  | cons b bits ih =>
    have hb : b.toNat ≤ 1 := Bool.toNat_le b
    rw [value_cons, length_cons, Nat.pow_succ]
    omega

theorem value_append (xs ys : List Bool) : value (xs ++ ys) = value xs + 2 ^ xs.length * value ys := by
  induction xs with
  | nil => simp
  | cons b xs ih =>
    rw [cons_append, value_cons, value_cons, ih, length_cons, Nat.pow_succ]
    ring

theorem value_replicate_false (n : Nat) : value (List.replicate n false) = 0 := by
  induction n with
  | zero => rfl
  | succ n ih => rw [replicate_succ, value_cons, ih]; rfl

theorem value_replicate_true (n : Nat) : value (List.replicate n true) + 1 = 2 ^ n := by
  induction n with
  | zero => rfl
  | succ n ih =>
    rw [replicate_succ, value_cons, Nat.pow_succ, Bool.toNat_true]
    omega

theorem value_map_not (bits : List Bool) : value (bits.map not) + value bits + 1 = 2 ^ bits.length := by
  induction bits with
  | nil => rfl
  | cons b bits ih =>
    rw [map_cons, value_cons, value_cons, length_cons, Nat.pow_succ]
    cases b
    · rw [Bool.not_false, Bool.toNat_true, Bool.toNat_false]
      omega
    · rw [Bool.not_true, Bool.toNat_true, Bool.toNat_false]
      omega

theorem value_drop (bits : List Bool) (k : Nat) : value (bits.drop k) = value bits / 2 ^ k := by
  induction k generalizing bits with
  | zero => simp
  | succ k ih =>
    cases bits with
    | nil => simp
    | cons b bits =>
      have hb : b.toNat ≤ 1 := Bool.toNat_le b
      rw [drop_succ_cons, ih, value_cons, Nat.pow_succ', ← Nat.div_div_eq_div_mul]
      congr 1
      omega

theorem value_take (bits : List Bool) (k : Nat) : value (bits.take k) = value bits % 2 ^ k := by
  rcases Nat.lt_or_ge k bits.length with hlt | hge
  · have hsplit := value_append (bits.take k) (bits.drop k)
    rw [take_append_drop, length_take, Nat.min_eq_left hlt.le] at hsplit
    have hlow := value_lt (bits.take k)
    rw [length_take, Nat.min_eq_left hlt.le] at hlow
    rw [hsplit, Nat.add_mul_mod_self_left, Nat.mod_eq_of_lt hlow]
  · have hlow := value_lt bits
    rw [take_of_length_le hge, Nat.mod_eq_of_lt (lt_of_lt_of_le hlow (Nat.pow_le_pow_right (by omega) hge))]

theorem eq_of_value_eq {xs ys : List Bool} (hlen : xs.length = ys.length) (h : value xs = value ys) : xs = ys := by
  induction xs generalizing ys with
  | nil => exact (length_eq_zero_iff.mp hlen.symm).symm
  | cons b xs ih =>
    cases ys with
    | nil => cases hlen
    | cons c ys =>
      rw [value_cons, value_cons] at h
      have hb : b.toNat ≤ 1 := Bool.toNat_le b
      have hc : c.toNat ≤ 1 := Bool.toNat_le c
      have hbit : b.toNat = c.toNat := by omega
      have hbc : b = c := by
        cases b <;> cases c <;> first | rfl | cases hbit
      rw [hbc, ih (Nat.succ.inj hlen) (by omega)]

def carryOut (a b c : Bool) : Bool := a && b || a && c || b && c

def addCarry : List (Bool × Bool) → Bool → List Bool
  | [], _ => []
  | (a, b) :: ps, c => (a ^^ b ^^ c) :: addCarry ps (carryOut a b c)

variable (ps : List (Bool × Bool))

@[simp] theorem length_addCarry (c : Bool) : (addCarry ps c).length = ps.length := by
  induction ps generalizing c with
  | nil => rfl
  | cons p ps ih => rw [addCarry, length_cons, ih, length_cons]

theorem fullAdder (a b c : Bool) :
    (a ^^ b ^^ c).toNat + 2 * (carryOut a b c).toNat = a.toNat + b.toNat + c.toNat := by
  cases a <;> cases b <;> cases c <;> rfl

theorem value_addCarry (c : Bool) :
    ∃ carry, value (addCarry ps c) + 2 ^ ps.length * carry =
      value (ps.map Prod.fst) + value (ps.map Prod.snd) + c.toNat := by
  induction ps generalizing c with
  | nil => exact ⟨c.toNat, by simp [addCarry]⟩
  | cons p ps ih =>
    obtain ⟨carry, h⟩ := ih (carryOut p.1 p.2 c)
    have hbit := fullAdder p.1 p.2 c
    refine ⟨carry, ?_⟩
    rw [addCarry, value_cons, map_cons, map_cons, value_cons, value_cons, length_cons, Nat.pow_succ]
    have hmul : 2 ^ ps.length * 2 * carry = 2 * (2 ^ ps.length * carry) := by ring
    omega

theorem value_addCarry_mod (c : Bool) :
    value (addCarry ps c) = (value (ps.map Prod.fst) + value (ps.map Prod.snd) + c.toNat) % 2 ^ ps.length := by
  obtain ⟨carry, h⟩ := value_addCarry ps c
  have hlt := value_lt (addCarry ps c)
  rw [length_addCarry] at hlt
  rw [← h, Nat.add_mul_mod_self_left, Nat.mod_eq_of_lt hlt]

def signBit (bits : List Bool) : Bool := bits.getLastD false

variable (sgn : Bool)

variable (s : Nat)

/-- The number of the bits, in two's complement if they are signed. -/
def intValue (bits : List Bool) : Int :=
  if sgn && signBit bits then (value bits : Int) - 2 ^ bits.length else value bits

def extend (w : Nat) (bits : List Bool) : List Bool :=
  bits ++ List.replicate (w - bits.length) (sgn && signBit bits)

variable {w : Nat} {bits : List Bool}

section

variable (h : bits.length ≤ w)
include h

theorem length_extend :
    (extend sgn w bits).length = w := by
  rw [extend, length_append, length_replicate]
  omega

theorem value_extend :
    (value (extend sgn w bits) : Int) = intValue sgn bits + if sgn && signBit bits then 2 ^ w else 0 := by
  rw [extend, value_append, intValue]
  cases hs : sgn && signBit bits with
  | false =>
    rw [value_replicate_false]
    simp
  | true =>
    have hones := value_replicate_true (w - bits.length)
    have hpow : (2 : Int) ^ bits.length * 2 ^ (w - bits.length) = 2 ^ w := by
      rw [← pow_add, Nat.add_sub_cancel' h]
    have hcast : (value (replicate (w - bits.length) true) : Int) + 1 = 2 ^ (w - bits.length) := by
      exact_mod_cast hones
    rw [if_pos rfl, if_pos rfl, ← hpow, ← hcast]
    push_cast
    ring

theorem value_extend_mod :
    (value (extend sgn w bits) : Int) = intValue sgn bits % 2 ^ w := by
  have hlt : value (extend sgn w bits) < 2 ^ w := by
    have := value_lt (extend sgn w bits)
    rwa [length_extend sgn h] at this
  have hcong : (value (extend sgn w bits) : Int) % 2 ^ w = intValue sgn bits % 2 ^ w := by
    rw [value_extend sgn h]
    split_ifs
    · exact Int.add_emod_right _ _
    · rw [add_zero]
  rw [← hcong, Int.emod_eq_of_lt (by omega) (by exact_mod_cast hlt)]

omit h in
theorem intValue_emod (bits : List Bool) : intValue sgn bits % 2 ^ bits.length = value bits := by
  rw [← value_extend_mod sgn (Nat.le_refl bits.length), extend, Nat.sub_self, replicate_zero, append_nil]

omit h in
theorem signBit_extend (w : Nat) (bits : List Bool) :
    signBit (extend true w bits) = signBit bits := by
  rw [signBit, extend, Bool.true_and]
  rcases Nat.eq_zero_or_pos (w - bits.length) with h | h
  · rw [h, replicate_zero, append_nil, signBit]
  · obtain ⟨k, hk⟩ : ∃ k, w - bits.length = k + 1 := ⟨w - bits.length - 1, by omega⟩
    rw [hk, replicate_succ', ← append_assoc, getLastD_concat]

theorem intValue_extend :
    intValue sgn (extend sgn w bits) = intValue sgn bits := by
  have hval := value_extend sgn h
  have hsign : (sgn && signBit (extend sgn w bits)) = (sgn && signBit bits) := by
    cases sgn with
    | false => rfl
    | true => rw [signBit_extend]
  rw [intValue, hsign, length_extend sgn h, hval]
  split_ifs <;> ring

end

theorem intValue_concat (low : List Bool) (s : Bool) :
    intValue true (low ++ [s]) = value low - 2 ^ low.length * (s.toNat : Int) := by
  rw [intValue, signBit, getLastD_concat, Bool.true_and, value_append, length_append]
  cases s
  · simp
  · rw [if_pos rfl, length_singleton, pow_succ]
    push_cast
    simp
    ring

def ltBits : List (Bool × Bool) → Bool
  | [] => false
  | (a, b) :: ps => !a && b || a == b && ltBits ps

theorem value_reverse_cons (a : Bool) (bits : List Bool) :
    value (a :: bits).reverse = value bits.reverse + 2 ^ bits.length * a.toNat := by
  rw [reverse_cons, value_append, length_reverse]
  simp

theorem ltBits_eq :
    ltBits ps = decide (value (ps.map Prod.fst).reverse < value (ps.map Prod.snd).reverse) := by
  induction ps with
  | nil => rfl
  | cons p ps ih =>
    obtain ⟨a, b⟩ := p
    have hfst := value_lt (ps.map Prod.fst).reverse
    have hsnd := value_lt (ps.map Prod.snd).reverse
    rw [length_reverse, length_map] at hfst hsnd
    rw [ltBits, ih, map_cons, map_cons, value_reverse_cons, value_reverse_cons, length_map,
      length_map]
    cases a <;> cases b <;> simp <;> omega

theorem all_beq_eq :
    (ps.all fun p => p.1 == p.2) = decide (value (ps.map Prod.fst).reverse = value (ps.map Prod.snd).reverse) := by
  induction ps with
  | nil => rfl
  | cons p ps ih =>
    obtain ⟨a, b⟩ := p
    have hfst := value_lt (ps.map Prod.fst).reverse
    have hsnd := value_lt (ps.map Prod.snd).reverse
    rw [length_reverse, length_map] at hfst hsnd
    rw [all_cons, ih, map_cons, map_cons, value_reverse_cons, value_reverse_cons, length_map,
      length_map]
    cases a <;> cases b <;> simp <;> omega

def shiftUp (bits : List Bool) : List Bool :=
  List.replicate (min s bits.length) false ++ bits.take (bits.length - s)

def shiftDown (bits : List Bool) : List Bool :=
  bits.drop s ++ List.replicate (min s bits.length) false

@[simp] theorem length_shiftUp (bits : List Bool) : (shiftUp s bits).length = bits.length := by
  rw [shiftUp, length_append, length_replicate, length_take]
  omega

@[simp] theorem length_shiftDown (bits : List Bool) : (shiftDown s bits).length = bits.length := by
  rw [shiftDown, length_append, length_replicate, length_drop]
  omega

theorem value_shiftUp (bits : List Bool) :
    value (shiftUp s bits) = value bits * 2 ^ s % 2 ^ bits.length := by
  rw [shiftUp, value_append, value_replicate_false, length_replicate, value_take, Nat.zero_add]
  rcases Nat.le_total s bits.length with hle | hge
  · rw [Nat.min_eq_left hle, ← Nat.mul_mod_mul_left, ← Nat.pow_add, Nat.add_sub_cancel' hle, Nat.mul_comm]
  · rw [Nat.sub_eq_zero_of_le hge, Nat.pow_zero, Nat.mod_one, Nat.mul_zero]
    exact (Nat.mod_eq_zero_of_dvd (Dvd.dvd.mul_left (Nat.pow_dvd_pow 2 hge) _)).symm

theorem value_shiftDown (bits : List Bool) : value (shiftDown s bits) = value bits / 2 ^ s := by
  rw [shiftDown, value_append, value_replicate_false, Nat.mul_zero, Nat.add_zero, value_drop]

theorem shiftUp_shiftUp (s t : Nat) (bits : List Bool) : shiftUp s (shiftUp t bits) = shiftUp (t + s) bits := by
  apply eq_of_value_eq (by simp)
  rw [value_shiftUp, value_shiftUp, value_shiftUp, length_shiftUp, Nat.mod_mul_mod, Nat.mul_assoc, Nat.pow_add]

theorem shiftDown_shiftDown (s t : Nat) (bits : List Bool) :
    shiftDown s (shiftDown t bits) = shiftDown (t + s) bits := by
  apply eq_of_value_eq (by simp)
  rw [value_shiftDown, value_shiftDown, value_shiftDown, Nat.div_div_eq_div_mul, Nat.pow_add]

theorem shift_eq_iff {x k n : Nat} :
    x * 2 ^ k % 2 ^ w = x * 2 ^ n % 2 ^ w ∧ x / 2 ^ k = x / 2 ^ n ↔
      k = n ∨ 2 ^ w ∣ x * 2 ^ min k n ∧ x < 2 ^ min k n := by
  wlog hkn : k ≤ n generalizing k n
  · rw [eq_comm, @eq_comm _ (x / 2 ^ k), this (Nat.le_of_not_le hkn), min_comm, eq_comm]
  obtain ⟨d, rfl⟩ := Nat.exists_eq_add_of_le hkn
  rw [Nat.min_eq_left hkn]
  constructor
  · rintro ⟨hup, hdown⟩
    rcases Nat.eq_zero_or_pos d with rfl | hd
    · exact Or.inl rfl
    have htwo : 2 ≤ 2 ^ d := Nat.le_self_pow hd.ne' 2
    right
    constructor
    · -- The difference of the two products has an odd factor.
      have hdvd : 2 ^ w ∣ x * 2 ^ k * 2 ^ d - x * 2 ^ k := by
        rw [Nat.mul_assoc, ← Nat.pow_add]
        exact (Nat.modEq_iff_dvd' (Nat.mul_le_mul_left x (Nat.pow_le_pow_right (by omega) hkn))).mp hup
      rw [show x * 2 ^ k * 2 ^ d - x * 2 ^ k = x * 2 ^ k * (2 ^ d - 1) by rw [Nat.mul_sub, Nat.mul_one]] at hdvd
      apply Nat.Coprime.dvd_of_dvd_mul_right _ hdvd
      apply Nat.Coprime.pow_left
      rw [Nat.coprime_two_left]
      exact Nat.Even.sub_odd (by omega) ((Nat.even_pow.mpr ⟨even_two, hd.ne'⟩)) odd_one
    · rw [Nat.pow_add, ← Nat.div_div_eq_div_mul] at hdown
      by_contra hge
      have hpos : 0 < x / 2 ^ k := Nat.div_pos (by omega) (Nat.two_pow_pos k)
      have := Nat.div_lt_self hpos htwo
      omega
  · rintro (heq | ⟨hdvd, hlt⟩)
    · rw [← heq]
      exact ⟨rfl, rfl⟩
    · have hdvd' : 2 ^ w ∣ x * 2 ^ (k + d) := by
        rw [Nat.pow_add, ← Nat.mul_assoc]
        exact Dvd.dvd.mul_right hdvd _
      have hlt' : x < 2 ^ (k + d) := lt_of_lt_of_le hlt (Nat.pow_le_pow_right (by omega) hkn)
      rw [Nat.mod_eq_zero_of_dvd hdvd, Nat.mod_eq_zero_of_dvd hdvd', Nat.div_eq_of_lt hlt, Nat.div_eq_of_lt hlt']
      exact ⟨rfl, rfl⟩

theorem value_cons_eq_bit (b : Bool) (bits : List Bool) : value (b :: bits) = Nat.bit b (value bits) := by
  rw [value_cons, Nat.bit_val, Nat.add_comm]

theorem value_zipWith {f : Bool → Bool → Bool} {op : Nat → Nat → Nat}
    (hop : ∀ a m b n, op (Nat.bit a m) (Nat.bit b n) = Nat.bit (f a b) (op m n)) (hzero : op 0 0 = 0)
    {xs ys : List Bool}
    (hlen : xs.length = ys.length) : value (List.zipWith f xs ys) = op (value xs) (value ys) := by
  induction xs generalizing ys with
  | nil =>
    obtain rfl : ys = [] := length_eq_zero_iff.mp hlen.symm
    exact hzero.symm
  | cons x xs ih =>
    obtain ⟨y, ys, rfl⟩ := exists_of_length_succ ys hlen.symm
    rw [zipWith_cons_cons, value_cons_eq_bit, value_cons_eq_bit, value_cons_eq_bit, hop, ih (Nat.succ.inj hlen)]

theorem value_extend_false (w : Nat) (bits : List Bool) : value (extend false w bits) = value bits := by
  rw [extend, Bool.false_and, value_append, value_replicate_false, Nat.mul_zero, Nat.add_zero]

theorem testBit_value (bits : List Bool) (i : Nat) : (value bits).testBit i = bits.getD i false := by
  induction bits generalizing i with
  | nil => rw [value_nil, Nat.zero_testBit, getD_nil]
  | cons b bits ih =>
    rw [value_cons_eq_bit]
    cases i with
    | zero => rw [Nat.testBit_bit_zero, getD_cons_zero]
    | succ i => rw [Nat.testBit_bit_succ, ih, getD_cons_succ]

theorem value_testBits (n w : Nat) : value ((List.range w).map n.testBit) = n % 2 ^ w := by
  induction w with
  | zero =>
    rw [Nat.pow_zero, Nat.mod_one]
    rfl
  | succ w ih =>
    have hbit : value [n.testBit w] = n / 2 ^ w % 2 := by
      rw [Nat.testBit_eq_decide_div_mod_eq]
      rcases Nat.mod_two_eq_zero_or_one (n / 2 ^ w) with h | h
      · rw [h]
        rfl
      · rw [h]
        rfl
    rw [range_succ, map_append, value_append, ih, length_map, length_range, map_singleton, hbit,
      Nat.pow_succ, Nat.mod_mul]

end BitNumbers
