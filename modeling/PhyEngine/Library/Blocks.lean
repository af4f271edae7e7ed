import Mathlib.Data.List.Basic

/-!
# Positions in a list of blocks

A list is laid out as one block after the other, `f a` for each entry `a`. A search in the
list finds the block in which the entry lies (`block`), so it is a search for the first, or
the last, block that holds such an entry.
-/

namespace Blocks

open List
open Option (map_none map_some none_or some some_or)

variable {α β : Type*}

def lastIdx? (p : α → Bool) : List α → Option Nat
  | [] => none
  | a :: as => ((lastIdx? p as).map (· + 1)).or (if p a then some 0 else none)

theorem lastIdx?_cons (p : α → Bool) (a : α) (as : List α) :
    lastIdx? p (a :: as) = ((lastIdx? p as).map (· + 1)).or (if p a then some 0 else none) := rfl

theorem lastIdx?_append (p : α → Bool) (as bs : List α) :
    lastIdx? p (as ++ bs) = ((lastIdx? p bs).map (· + as.length)).or (lastIdx? p as) := by
  induction as with
  | nil => simp [lastIdx?]
  | cons a as ih =>
    rw [cons_append, lastIdx?_cons, lastIdx?_cons, ih]
    cases lastIdx? p bs with
    | none => simp
    | some i => simp [Nat.add_assoc]

theorem findIdx?_reverse (p : α → Bool) (as : List α) :
    (as.reverse.findIdx? p).map (fun i => as.length - 1 - i) = lastIdx? p as := by
  induction as with
  | nil => rfl
  | cons a as ih =>
    rw [reverse_cons, findIdx?_append, lastIdx?_cons, ← ih]
    cases hi : as.reverse.findIdx? p with
    | none =>
      by_cases hp : p a = true
      · simp [hp]
      · simp [hp]
    | some i =>
      obtain ⟨hlt, -⟩ := findIdx?_eq_some_iff_getElem.mp hi
      rw [length_reverse] at hlt
      simp only [some_or, map_some, length_cons, some.injEq]
      omega

variable {i : Nat}

variable {p : α → Bool} {as : List α}

theorem getElem?_of_lastIdx? (h : lastIdx? p as = some i) :
    ∃ a, as[i]? = some a ∧ p a = true := by
  induction as generalizing i with
  | nil => cases h
  | cons a as ih =>
    rw [lastIdx?_cons] at h
    cases hi : lastIdx? p as with
    | some j =>
      rw [hi, map_some, some_or, some.injEq] at h
      subst h
      exact ih hi
    | none =>
      rw [hi, map_none, none_or] at h
      split at h
      · next hp =>
        rw [some.injEq] at h
        subst h
        exact ⟨a, rfl, hp⟩
      · cases h

theorem lt_of_lastIdx? (h : lastIdx? p as = some i) : i < as.length := by
  obtain ⟨a, ha, -⟩ := getElem?_of_lastIdx? h
  exact (List.getElem?_eq_some_iff.mp ha).1

theorem isSome_lastIdx? (p : α → Bool) (as : List α) : (lastIdx? p as).isSome = as.any p := by
  induction as with
  | nil => rfl
  | cons a as ih =>
    rw [lastIdx?_cons, any_cons, ← ih]
    cases lastIdx? p as with
    | none => by_cases hp : p a = true <;> simp [hp]
    | some i => simp

variable {q : α → Bool}

theorem findIdx?_congr (h : ∀ a ∈ as, p a = q a) : as.findIdx? p = as.findIdx? q := by
  induction as with
  | nil => rfl
  | cons a as ih =>
    rw [forall_mem_cons] at h
    rw [findIdx?_cons, findIdx?_cons, h.1, ih h.2]

theorem lastIdx?_congr (h : ∀ a ∈ as, p a = q a) : lastIdx? p as = lastIdx? q as := by
  induction as with
  | nil => rfl
  | cons a as ih =>
    rw [forall_mem_cons] at h
    rw [lastIdx?_cons, lastIdx?_cons, h.1, ih h.2]

section Layout

variable (f : α → List β)

def block : List α → Nat → Nat
  | [], _ => 0
  | a :: as, i => if i < (f a).length then 0 else block as (i - (f a).length) + 1

theorem block_of_lt {a : α} (as : List α) (h : i < (f a).length) : block f (a :: as) i = 0 := by
  rw [block, if_pos h]

theorem block_add (a : α) (as : List α) (i : Nat) :
    block f (a :: as) (i + (f a).length) = block f as i + 1 := by
  rw [block, if_neg (by omega), Nat.add_sub_cancel]

variable {as : List α}

theorem getElem?_flatMap {b : β} (h : (as.flatMap f)[i]? = some b) :
    ∃ a, as[block f as i]? = some a ∧ b ∈ f a := by
  induction as generalizing i with
  | nil => cases h
  | cons a as ih =>
    rw [flatMap_cons] at h
    rcases Nat.lt_or_ge i (f a).length with hlt | hge
    · rw [getElem?_append_left hlt] at h
      rw [block_of_lt f as hlt]
      exact ⟨a, rfl, List.mem_of_getElem? h⟩
    · rw [getElem?_append_right hge] at h
      rw [block, if_neg (by omega)]
      exact ih h

theorem getElem?_block_none (h : (as.flatMap f)[i]? = none) : as[block f as i]? = none := by
  induction as generalizing i with
  | nil => rfl
  | cons a as ih =>
    rw [flatMap_cons, List.getElem?_eq_none_iff, length_append] at h
    rw [block, if_neg (by omega)]
    exact ih (List.getElem?_eq_none_iff.mpr (by omega))

theorem findIdx?_flatMap (p : β → Bool) (as : List α) :
    ((as.flatMap f).findIdx? p).map (block f as) = as.findIdx? fun a => (f a).any p := by
  induction as with
  | nil => rfl
  | cons a as ih =>
    rw [flatMap_cons, findIdx?_append, findIdx?_cons, ← ih]
    cases hi : (f a).findIdx? p with
    | some i =>
      obtain ⟨hlt, hp, -⟩ := findIdx?_eq_some_iff_getElem.mp hi
      have hany : (f a).any p = true := any_eq_true.mpr ⟨_, getElem_mem hlt, hp⟩
      rw [if_pos hany, some_or, map_some, block_of_lt f as hlt]
    | none =>
      have hany : (f a).any p = false := by
        rw [any_eq_false]
        intro b hb
        rw [findIdx?_eq_none_iff.mp hi b hb]
        exact Bool.false_ne_true
      rw [hany, if_neg Bool.false_ne_true, none_or]
      cases (as.flatMap f).findIdx? p with
      | none => rfl
      | some i => simp only [map_some, block_add]

theorem lastIdx?_flatMap (p : β → Bool) (as : List α) :
    (lastIdx? p (as.flatMap f)).map (block f as) = lastIdx? (fun a => (f a).any p) as := by
  induction as with
  | nil => rfl
  | cons a as ih =>
    rw [flatMap_cons, lastIdx?_append, lastIdx?_cons, ← ih]
    cases lastIdx? p (as.flatMap f) with
    | some i => simp only [map_some, some_or, block_add]
    | none =>
      simp only [map_none, none_or]
      cases hi : lastIdx? p (f a) with
      | none =>
        have hany := isSome_lastIdx? p (f a)
        rw [hi, Option.isSome_none] at hany
        rw [← hany]
        rfl
      | some i =>
        have hany := isSome_lastIdx? p (f a)
        rw [hi, Option.isSome_some] at hany
        rw [← hany, if_pos rfl, map_some, block_of_lt f as (lt_of_lastIdx? hi)]

end Layout

theorem findIdx?_or_eq_iff (p q : α → Bool) (as : List α) :
    (as.findIdx? fun a => p a || q a) = as.findIdx? p ↔
      ∀ (i : Nat) (a : α), as[i]? = some a → q a = true → ∃ (j : Nat) (b : α), j ≤ i ∧ as[j]? = some b ∧
        p b = true := by
  induction as with
  | nil => simp
  | cons a as ih =>
    rw [findIdx?_cons, findIdx?_cons]
    by_cases hp : p a = true
    · rw [hp, Bool.true_or, if_pos rfl, if_pos rfl, eq_self, true_iff]
      exact fun i _ _ _ => ⟨0, a, by omega, rfl, hp⟩
    · by_cases hq : q a = true
      · rw [hq, Bool.or_true, if_pos rfl, if_neg hp]
        constructor
        · intro h
          cases hi : as.findIdx? p with
          | none =>
            rw [hi] at h
            cases h
          | some i =>
            rw [hi] at h
            cases h
        · intro h
          obtain ⟨j, b, hj, hb, hpb⟩ := h 0 a rfl hq
          obtain rfl : j = 0 := by omega
          rw [getElem?_cons_zero, some.injEq] at hb
          exact absurd (hb ▸ hpb) hp
      · have hsucc : Function.Injective fun i : Nat => i + 1 := fun i j h => Nat.succ.inj h
        rw [Bool.eq_false_iff.mpr hp, Bool.eq_false_iff.mpr hq, Bool.or_false, if_neg Bool.false_ne_true,
          if_neg Bool.false_ne_true, (Option.map_injective hsucc).eq_iff, ih]
        constructor
        · intro h i b hb hqb
          cases i with
          | zero =>
            rw [getElem?_cons_zero, some.injEq] at hb
            exact absurd (hb ▸ hqb) hq
          | succ i =>
            obtain ⟨j, c, hj, hc, hpc⟩ := h i b hb hqb
            exact ⟨j + 1, c, by omega, hc, hpc⟩
        · intro h i b hb hqb
          obtain ⟨j, c, hj, hc, hpc⟩ := h (i + 1) b hb hqb
          cases j with
          | zero =>
            rw [getElem?_cons_zero, some.injEq] at hc
            exact absurd (hc ▸ hpc) hp
          | succ j => exact ⟨j, c, by omega, hc, hpc⟩

end Blocks
