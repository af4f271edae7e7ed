import Mathlib.Data.List.Perm.Basic

/-!
# Removal by the last entry

`xs[i] = xs.back(); xs.pop_back();`: the entry `i` is dropped and the last one takes its place.
-/

namespace SwapPop

open List

variable {α : Type*}

/-- The list without its entry `i`, the last entry in its place. -/
def swapPop (xs : List α) (i : Nat) : List α :=
  match xs.getLast? with
  | none => []
  | some last => (xs.set i last).dropLast

theorem swapPop_concat (ys : List α) (a : α) (i : Nat) : swapPop (ys ++ [a]) i = ys.set i a := by
  rw [swapPop, getLast?_concat]
  dsimp only
  by_cases hi : i < ys.length
  · rw [set_append_left _ _ hi, dropLast_concat]
  · rw [set_append_right _ _ (by omega), set_eq_of_length_le (l := ys) (by omega)]
    cases i - ys.length with
    | zero => rw [set_cons_zero, dropLast_concat]
    | succ k => rw [set_cons_succ, set_nil, dropLast_concat]

variable {xs : List α} {i : Nat}

theorem swapPop_perm (hi : i < xs.length) : (swapPop xs i).Perm (xs.eraseIdx i) := by
  obtain rfl | ⟨ys, a, rfl⟩ := eq_nil_or_concat xs
  · cases hi
  · rw [concat_eq_append] at hi ⊢
    rw [swapPop_concat]
    by_cases hlt : i < ys.length
    · rw [eraseIdx_append_of_lt_length hlt]
      refine (set_perm_cons_eraseIdx hlt a).trans ?_
      exact (perm_append_singleton a _).symm
    · rw [eraseIdx_append_of_length_le (by omega), set_eq_of_length_le (by omega)]
      rw [length_append, length_singleton] at hi
      rw [show i - ys.length = 0 by omega, eraseIdx_cons_zero, append_nil]

theorem length_swapPop (xs : List α) (i : Nat) : (swapPop xs i).length = xs.length - 1 := by
  obtain rfl | ⟨ys, a, rfl⟩ := eq_nil_or_concat xs
  · rfl
  · rw [concat_eq_append, swapPop_concat, length_set, length_append]
    rfl

theorem take_swapPop (hi : i < xs.length) : (swapPop xs i).take i = xs.take i := by
  obtain rfl | ⟨ys, a, rfl⟩ := eq_nil_or_concat xs
  · cases hi
  · rw [concat_eq_append] at hi ⊢
    rw [length_append, length_singleton] at hi
    rw [swapPop_concat, take_set_of_le (Nat.le_refl i), take_append_of_le_length (by omega)]

end SwapPop
