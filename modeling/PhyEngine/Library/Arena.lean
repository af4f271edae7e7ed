import Mathlib.Data.List.GetD
import Mathlib.Data.List.Induction

/-!
# Arenas

A list of definitions, each of which may refer to the values of the ones before it. The
values are found from left to right, so an arena that grows keeps the values it has.
-/

namespace Arena

variable {δ α : Type}

/-- The values of the definitions; `f` finds one from the values before it. -/
def vals (f : List α → δ → α) (ds : List δ) : List α := ds.foldl (fun vs d => vs ++ [f vs d]) []

variable (f : List α → δ → α)

variable (ds : List δ)

theorem vals_concat (d : δ) : vals f (ds ++ [d]) = vals f ds ++ [f (vals f ds) d] := by
  rw [vals, List.foldl_append]
  rfl

theorem length_vals : (vals f ds).length = ds.length := by
  induction ds using List.reverseRecOn with
  | nil => rfl
  | append_singleton ds d ih => rw [vals_concat, List.length_append, ih, List.length_append]; rfl

theorem getD_vals_concat (d : δ) {i : Nat} (hi : i < ds.length) (x : α) :
    (vals f (ds ++ [d])).getD i x = (vals f ds).getD i x := by
  rw [vals_concat, List.getD_append _ _ _ _ (by rw [length_vals]; exact hi)]

theorem getD_vals_last (d : δ) (x : α) :
    (vals f (ds ++ [d])).getD ds.length x = f (vals f ds) d := by
  rw [vals_concat, List.getD_append_right _ _ _ _ (Nat.le_of_eq (length_vals f ds)), length_vals, Nat.sub_self]
  rfl

theorem getD_vals_of_prefix {ds es : List δ} (h : ds <+: es) {i : Nat} (hi : i < ds.length) (x : α) :
    (vals f es).getD i x = (vals f ds).getD i x := by
  obtain ⟨t, rfl⟩ := h
  induction t using List.reverseRecOn with
  | nil => rw [List.append_nil]
  | append_singleton t d ih =>
    rw [← List.append_assoc, getD_vals_concat f _ d (by rw [List.length_append]; omega), ih]

theorem exists_of_getD_vals {P : δ → Prop} {x v : α} (hx : x ≠ v)
    (hf : ∀ vs d, f vs d = v → P d) (ds : List δ) (i : Nat) (h : (vals f ds).getD i x = v) :
    ∃ d, ds[i]? = some d ∧ P d := by
  induction ds using List.reverseRecOn with
  | nil => exact absurd h hx
  | append_singleton ds d ih =>
    rcases Nat.lt_trichotomy i ds.length with hi | rfl | hi
    · rw [getD_vals_concat f ds d hi] at h
      obtain ⟨e, he, hp⟩ := ih h
      exact ⟨e, by rw [List.getElem?_append_left hi]; exact he, hp⟩
    · rw [getD_vals_last] at h
      exact ⟨d, by simp, hf _ d h⟩
    · rw [List.getD_eq_default _ _ (by rw [length_vals, List.length_append]; exact hi)] at h
      exact absurd h hx

end Arena
