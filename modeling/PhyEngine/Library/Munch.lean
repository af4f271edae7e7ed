import Mathlib.Data.List.Basic

/-!
# Longest prefixes of a machine

A machine reads a list from the left and keeps a state; `munch` takes the longest prefix that
it accepts letter by letter. What is taken is known from the prefix and the one letter that
stands behind it (`munch_append_iff`).
-/

namespace Munch

variable {σ α : Type*} (ok : σ → α → Bool) (next : σ → α → σ)

def munch : σ → List α → List α × List α
  | _, [] => ([], [])
  | s, a :: as =>
    if ok s a then (a :: (munch (next s a) as).1, (munch (next s a) as).2) else ([], a :: as)

def Accepts : σ → List α → Prop
  | _, [] => True
  | s, a :: as => ok s a = true ∧ Accepts (next s a) as

variable {ok next}

theorem munch_fst_append_snd (s : σ) (as : List α) :
    (munch ok next s as).1 ++ (munch ok next s as).2 = as := by
  induction as generalizing s with
  | nil => rfl
  | cons a as ih =>
    rw [munch]
    split
    · exact congrArg (a :: ·) (ih (next s a))
    · rfl

theorem munch_append_iff (s : σ) (w v : List α) :
    munch ok next s (w ++ v) = (w, v) ↔
      Accepts ok next s w ∧ ∀ a ∈ v.head?, ok (w.foldl next s) a = false := by
  induction w generalizing s with
  | nil =>
    cases v with
    | nil => simp [munch, Accepts]
    | cons a v =>
      by_cases ha : ok s a = true
      · simp [munch, Accepts, ha]
      · simp [munch, Accepts, ha]
  | cons b w ih =>
    rw [List.cons_append, munch, Accepts, List.foldl_cons]
    by_cases hb : ok s b = true
    · have hrest := ih (next s b)
      rw [Prod.ext_iff] at hrest
      rw [if_pos hb, Prod.mk.injEq, List.cons.injEq, and_assoc, and_assoc, ← hrest]
      simp [hb]
    · rw [if_neg hb]
      simp [hb]

/-- A word that was taken before one text is taken before another one, unless the machine
goes on with its first letter. -/
theorem munch_append_of_munch {s : σ} {w u : List α} (h : munch ok next s (w ++ u) = (w, u))
    (v : List α) :
    munch ok next s (w ++ v) = (w, v) ↔ ∀ a ∈ v.head?, ok (w.foldl next s) a = false := by
  rw [munch_append_iff]
  exact and_iff_right ((munch_append_iff s w u).mp h).1

end Munch
