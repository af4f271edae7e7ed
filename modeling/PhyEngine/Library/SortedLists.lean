import Mathlib.Data.List.Destutter
import Mathlib.Data.List.Sort

/-!
# Sorting and removing repetitions

`sort` followed by `unique`: the entries of a list in the order of `r`, each once. A sort that
is not stable is any function that returns a sorted permutation (`StdSort`).
-/

namespace SortedLists

/-- A `std::sort` for a comparison. Entries of which neither comes before the other may come in
any order. -/
structure StdSort {α : Type*} (before : α → α → Bool) where
  sort : List α → List α
  perm : ∀ l, (sort l).Perm l
  sorted : ∀ l, (sort l).Pairwise fun a b => before b a = false

def StdSort.insertion {α : Type*} {before : α → α → Bool}
    (htotal : ∀ a b, before b a = false ∨ before a b = false)
    (htrans : ∀ a b c, before b a = false → before c b = false → before c a = false) : StdSort before where
  sort := List.insertionSort fun a b => before b a = false
  perm := fun l => List.perm_insertionSort _ l
  sorted := fun l =>
    have : Std.Total fun a b => before b a = false := ⟨htotal⟩
    have : IsTrans α fun a b => before b a = false := ⟨htrans⟩
    List.pairwise_insertionSort _ l

variable {α : Type*} [DecidableEq α]

variable {l : List α} {x : α}

theorem mem_destutter'_ne {a : α} : x ∈ l.destutter' (· ≠ ·) a ↔ x = a ∨ x ∈ l := by
  induction l generalizing a with
  | nil => simp
  | cons b l ih =>
    rw [List.destutter'_cons]
    split
    · rw [List.mem_cons, ih, List.mem_cons]
    · rename_i hne
      obtain rfl := not_not.mp hne
      rw [ih, List.mem_cons]
      simp

theorem mem_destutter_ne : x ∈ l.destutter (· ≠ ·) ↔ x ∈ l := by
  cases l with
  | nil => rfl
  | cons a l => rw [List.destutter_cons', mem_destutter'_ne, List.mem_cons]

variable {r : α → α → Prop}

theorem nodup_destutter (hanti : ∀ x y, r x y → r y x → x = y) (hl : l.Pairwise r) :
    (l.destutter (· ≠ ·)).Nodup := by
  have hsorted := hl.sublist (List.destutter_sublist (· ≠ ·) l)
  have hne := List.isChain_destutter (· ≠ ·) l
  generalize l.destutter (· ≠ ·) = l at hsorted hne
  induction l with
  | nil => exact List.nodup_nil
  | cons a l ih =>
    rw [List.pairwise_cons] at hsorted
    refine List.nodup_cons.mpr ⟨fun hmem => ?_, ih hsorted.2 hne.tail⟩
    cases l with
    | nil => cases hmem
    | cons b l =>
      have hab := (List.isChain_cons_cons.mp hne).1
      rcases List.mem_cons.mp hmem with rfl | hmem
      · exact hab rfl
      · exact hab (hanti _ _ (hsorted.1 b List.mem_cons_self) ((List.pairwise_cons.mp hsorted.2).1 a hmem))

end SortedLists
