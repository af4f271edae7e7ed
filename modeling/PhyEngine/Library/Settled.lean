import PhyEngine.Library.Equations
import Mathlib.Data.Finset.Card

/-!
# Settled valuations

A valuation settles a system over a background when it solves every equation and has the
background value where nothing is driven. `Settled.restrict` moves a solution to a system with
fewer drivers. `follow` is where a reader ends after a sequence of moves.
-/

namespace Equations

open List

variable {ι α : Type*}

def Driven (E : List (Equation ι α)) (x : ι) : Prop := ∃ e ∈ E, e.target = x

/-- `v` solves the equations and has the value of the background everywhere else. -/
structure Settled (E : List (Equation ι α)) (background v : ι → α) : Prop where
  solves : Solves E v
  rest : ∀ x, ¬ Driven E x → v x = background x

section Uniqueness

variable {E : List (Equation ι α)} {background v w : ι → α} {rank : ι → Nat}

theorem Settled.eq_at (hrank : Ranked E rank) (hv : Settled E background v)
    (hw : Settled E background w) (k : Nat) : ∀ x, rank x < k → v x = w x := by
  induction k with
  | zero => intro x hx; omega
  | succ k ih =>
    intro x hx
    by_cases hdriven : Driven E x
    · obtain ⟨e, he, rfl⟩ := hdriven
      rw [hv.solves e he, hw.solves e he]
      refine e.reads v w fun d hd => ih d ?_
      have := hrank e he d hd
      omega
    · rw [hv.rest x hdriven, hw.rest x hdriven]

theorem Settled.unique (hrank : Ranked E rank) (hv : Settled E background v)
    (hw : Settled E background w) : v = w :=
  funext fun x => hv.eq_at hrank hw (rank x + 1) x (Nat.lt_succ_self _)

theorem Ranked.exists_low (hrank : Ranked E rank) : ∃ low : ι → Nat, Ranked E low ∧
    (∀ e ∈ E, e.deps ≠ [] → 0 < low e.target) ∧
      ∀ x, (∀ e ∈ E, e.target = x → e.deps = []) → low x = 0 := by
  classical
  refine ⟨fun x => if ∃ e ∈ E, e.target = x ∧ e.deps ≠ [] then rank x + 1 else 0, ?_, ?_, ?_⟩
  · intro e he d hd
    have hreads : ∃ f ∈ E, f.target = e.target ∧ f.deps ≠ [] := ⟨e, he, rfl, ne_nil_of_mem hd⟩
    have hlt := hrank e he d hd
    dsimp only
    rw [if_pos hreads]
    split <;> omega
  · intro e he hdeps
    dsimp only
    rw [if_pos ⟨e, he, rfl, hdeps⟩]
    exact Nat.succ_pos _
  · intro x hx
    refine if_neg ?_
    rintro ⟨e, he, htarget, hdeps⟩
    exact hdeps (hx e he htarget)

end Uniqueness

variable {R : ι → ι → Prop}

/-- A relation from finitely many points without a cycle has a rank that grows along it and is 0
where nothing leads to. -/
theorem exists_rank_of_acyclic {support : List ι} (hsupport : ∀ x y, R x y → x ∈ support)
    (hacyclic : ∀ x, ¬ Relation.TransGen R x x) : ∃ rank : ι → Nat,
      (∀ x y, R x y → rank x < rank y) ∧ ∀ y, (∀ x, ¬ R x y) → rank y = 0 := by
  classical
  let before (y : ι) : Finset ι := support.toFinset.filter fun x => Relation.TransGen R x y
  refine ⟨fun y => (before y).card, fun x y hxy => Finset.card_lt_card ?_, fun y hy => ?_⟩
  · refine (Finset.ssubset_iff_of_subset fun z hz => ?_).mpr ⟨x, ?_, ?_⟩
    · obtain ⟨hz, htrans⟩ := Finset.mem_filter.mp hz
      exact Finset.mem_filter.mpr ⟨hz, htrans.tail hxy⟩
    · exact Finset.mem_filter.mpr ⟨mem_toFinset.mpr (hsupport x y hxy), .single hxy⟩
    · exact fun hx => hacyclic x (Finset.mem_filter.mp hx).2
  · refine Finset.card_eq_zero.mpr (Finset.eq_empty_of_forall_notMem fun x hx => ?_)
    obtain ⟨-, htrans⟩ := Finset.mem_filter.mp hx
    obtain ⟨z, -, hzy⟩ := Relation.TransGen.tail'_iff.mp htrans
    exact hy z hzy

theorem not_transGen_of_rank (rank : ι → Nat) (hrank : ∀ x y, R x y → rank x < rank y)
    (x : ι) : ¬ Relation.TransGen R x x := by
  have hlt : ∀ y, Relation.TransGen R x y → rank x < rank y := by
    intro y hxy
    induction hxy with
    | single hy => exact hrank _ _ hy
    | tail _ hy ih => exact Nat.lt_trans ih (hrank _ _ hy)
  exact fun hx => Nat.lt_irrefl _ (hlt x hx)

section Existence

variable [DecidableEq ι] (E : List (Equation ι α)) (background : ι → α)

/-- The values after `k` rounds of evaluating every equation at once. -/
def rounds : Nat → ι → α
  | 0 => background
  | k + 1 => fun x =>
    match E.find? fun e => e.target = x with
    | some e => e.fn (rounds k)
    | none => background x

variable {E background} {rank : ι → Nat}

theorem rounds_stable (hrank : Ranked E rank) (k : Nat) :
    ∀ x, rank x < k → ∀ j, k ≤ j → rounds E background j x = rounds E background k x := by
  induction k with
  | zero => intro x hx; omega
  | succ k ih =>
    intro x hx j hj
    obtain ⟨j, rfl⟩ : ∃ i, j = i + 1 := ⟨j - 1, by omega⟩
    simp only [rounds]
    cases hfind : E.find? fun e => e.target = x with
    | none => rfl
    | some e =>
      have htarget : e.target = x := by simpa using find?_some hfind
      refine e.reads _ _ fun d hd => ih d ?_ j (by omega)
      have := hrank e (mem_of_find?_eq_some hfind) d hd
      rw [htarget] at this
      omega

theorem exists_settled (hrank : Ranked E rank)
    (hsingle : ∀ e ∈ E, ∀ f ∈ E, e.target = f.target → e = f) : ∃ v, Settled E background v := by
  have hstable (x : ι) (j : Nat) (hj : rank x + 1 ≤ j) :
      rounds E background j x = rounds E background (rank x + 1) x :=
    rounds_stable hrank (rank x + 1) x (Nat.lt_succ_self _) j hj
  refine ⟨fun x => rounds E background (rank x + 1) x, fun e he => ?_, fun x hx => ?_⟩
  · have hfind : E.find? (fun f => f.target = e.target) = some e := by
      cases hf : E.find? fun f => f.target = e.target with
      | none => exact absurd (find?_eq_none.mp hf e he) (by simp)
      | some f =>
        have ht : f.target = e.target := by simpa using find?_some hf
        rw [hsingle f (mem_of_find?_eq_some hf) e he ht]
    show rounds E background (rank e.target + 1) e.target = _
    simp only [rounds, hfind]
    refine e.reads _ _ fun d hd => ?_
    have := hrank e he d hd
    exact hstable d (rank e.target) (by omega)
  · show rounds E background (rank x + 1) x = _
    simp only [rounds]
    cases hf : E.find? fun f => f.target = x with
    | none => rfl
    | some f =>
      exact absurd ⟨f, mem_of_find?_eq_some hf, by simpa using find?_some hf⟩ hx

end Existence

open Classical in
/-- A valuation with the background value wherever nothing is driven. -/
noncomputable def restrict (E : List (Equation ι α)) (background v : ι → α) : ι → α :=
  fun x => if Driven E x then v x else background x

theorem restrict_of_driven {E : List (Equation ι α)} {background v : ι → α} {x : ι}
    (h : Driven E x) : restrict E background v x = v x := if_pos h

theorem restrict_of_not_driven {E : List (Equation ι α)} {background v : ι → α} {x : ι}
    (h : ¬ Driven E x) : restrict E background v x = background x := if_neg h

/-- A valuation that solves the equations and differs from the background only where
nothing reads settles the system once it is restricted. -/
theorem Settled.restrict {E : List (Equation ι α)} {background v : ι → α} (hsolves : Solves E v)
    (hread : ∀ e ∈ E, ∀ d ∈ e.deps, Driven E d ∨ v d = background d) :
    Settled E background (restrict E background v) := by
  refine ⟨fun e he => ?_, fun x hx => restrict_of_not_driven hx⟩
  rw [restrict_of_driven ⟨e, he, rfl⟩, hsolves e he]
  refine e.reads _ _ fun d hd => ?_
  rcases hread e he d hd with hdriven | heq
  · rw [restrict_of_driven hdriven]
  · by_cases hdriven : Driven E d
    · rw [restrict_of_driven hdriven]
    · rw [restrict_of_not_driven hdriven, heq]

section Follow

variable [DecidableEq ι]

variable (moves : List (ι × ι))

def follow (x : ι) : ι :=
  moves.foldl (fun y m => if y = m.1 then m.2 else y) x

@[simp] theorem follow_nil (x : ι) : follow [] x = x := rfl

theorem follow_cons (m : ι × ι) (moves : List (ι × ι)) (x : ι) :
    follow (m :: moves) x = follow moves (if x = m.1 then m.2 else x) := rfl

theorem follow_append (m : ι × ι) (x : ι) :
    follow (moves ++ [m]) x = if follow moves x = m.1 then m.2 else follow moves x := by
  rw [follow, foldl_append]
  rfl

theorem follow_append_list (moves moves' : List (ι × ι)) (x : ι) :
    follow (moves ++ moves') x = follow moves' (follow moves x) := foldl_append

theorem follow_eq_or_target (x : ι) :
    follow moves x = x ∨ ∃ m ∈ moves, m.2 = follow moves x := by
  induction moves using reverseRecOn with
  | nil => exact .inl rfl
  | append_singleton moves m ih =>
    rw [follow_append]
    split
    · exact .inr ⟨m, by simp, rfl⟩
    · rcases ih with heq | ⟨m', hm', heq⟩
      · exact .inl heq
      · exact .inr ⟨m', mem_append_left _ hm', heq⟩

theorem apply_follow {moves : List (ι × ι)} {v : ι → α} (h : ∀ m ∈ moves, v m.1 = v m.2) (x : ι) :
    v (follow moves x) = v x := by
  induction moves generalizing x with
  | nil => rfl
  | cons m moves ih =>
    rw [follow_cons, ih fun m' hm' => h m' (mem_cons_of_mem _ hm')]
    split
    · rename_i heq
      rw [heq, h m mem_cons_self]
    · rfl

theorem rank_follow_le {β : Type*} [Preorder β] {moves : List (ι × ι)} {rank : ι → β}
    (h : ∀ m ∈ moves, rank m.2 ≤ rank m.1) (x : ι) : rank (follow moves x) ≤ rank x := by
  induction moves generalizing x with
  | nil => exact le_refl _
  | cons m moves ih =>
    have hrest := ih (fun m' hm' => h m' (mem_cons_of_mem _ hm'))
    rw [follow_cons]
    split
    · rename_i heq
      rw [heq]
      exact (hrest m.2).trans (h m mem_cons_self)
    · exact hrest x

theorem follow_eq_self {moves : List (ι × ι)} {x : ι} (h : ∀ m ∈ moves, m.1 ≠ x) :
    follow moves x = x := by
  induction moves with
  | nil => rfl
  | cons m moves ih =>
    rw [follow_cons, if_neg (h m mem_cons_self).symm]
    exact ih fun m' hm' => h m' (mem_cons_of_mem _ hm')

theorem follow_ne_source {moves : List (ι × ι)} (h : ∀ m ∈ moves, ∀ m' ∈ moves, m.2 ≠ m'.1) (x : ι) :
    ∀ m ∈ moves, follow moves x ≠ m.1 := by
  induction moves using reverseRecOn with
  | nil => simp
  | append_singleton moves m ih =>
    have hrest := ih fun a ha b hb => h a (mem_append_left _ ha) b (mem_append_left _ hb)
    intro m' hm'
    rw [follow_append]
    split
    · exact h m (by simp) m' hm'
    · rename_i hne
      rcases mem_append.mp hm' with hm' | hm'
      · exact hrest m' hm'
      · rw [mem_singleton.mp hm']
        exact hne

theorem follow_of_mem {moves : List (ι × ι)} (hnodup : (moves.map Prod.fst).Nodup)
    (h : ∀ m ∈ moves, ∀ m' ∈ moves, m.2 ≠ m'.1) {m : ι × ι} (hm : m ∈ moves) : follow moves m.1 = m.2 := by
  induction moves with
  | nil => cases hm
  | cons m' moves ih =>
    rw [map_cons, nodup_cons] at hnodup
    rw [follow_cons]
    rcases mem_cons.mp hm with rfl | hm
    · rw [if_pos rfl]
      exact follow_eq_self fun b hb => (h m mem_cons_self b (mem_cons_of_mem _ hb)).symm
    · have hne : m.1 ≠ m'.1 := fun heq => hnodup.1 (heq ▸ mem_map_of_mem hm)
      rw [if_neg hne]
      exact ih hnodup.2 (fun a ha b hb => h a (mem_cons_of_mem _ ha) b (mem_cons_of_mem _ hb)) hm

end Follow

end Equations
