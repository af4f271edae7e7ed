import Mathlib.Algebra.GroupWithZero.Nat
import Mathlib.Data.Finset.Card
import Mathlib.Data.Set.Lattice

/-!
# Post-order walks with a schedule

A graph is built from its leaves up with an explicit stack. A node is put on the stack once; when
a node above needs it first, that one is reached with a successor missing. `start_decides`: some
node whose first successor is still missing lies below its second one (`Clash`).
-/

namespace PostOrder

/-- The two successors of the nodes that are no leaves. -/
structure Graph (ι : Type*) where
  leaf : ι → Bool
  lo : ι → ι
  hi : ι → ι

namespace Graph

variable {ι : Type*} (G : Graph ι)

def Edge (x y : ι) : Prop := G.leaf x = false ∧ (y = G.lo x ∨ y = G.hi x)

def Reach : ι → ι → Prop := Relation.ReflTransGen G.Edge

def below (x : ι) : Set ι := fun y => G.leaf y = false ∧ G.Reach x y

/-- On the way through the graph, second successors first, a node is reached whose first
successor is missing and lies below the second one. The set holds what is built before. -/
inductive Clash : Set ι → ι → Prop
  | here {D : Set ι} {x : ι} (hx : G.leaf x = false) (hnew : x ∉ D) (hmissing : G.lo x ∉ D)
      (hbelow : G.lo x ∈ G.below (G.hi x)) : Clash D x
  | hi {D : Set ι} {x : ι} (hx : G.leaf x = false) (hnew : x ∉ D) (h : Clash D (G.hi x)) : Clash D x
  | lo {D : Set ι} {x : ι} (hx : G.leaf x = false) (hnew : x ∉ D)
      (h : Clash (D ∪ G.below (G.hi x)) (G.lo x)) : Clash D x

/-- The successors of a node are distinct and come before it. -/
structure Acyclic (rank : ι → Nat) : Prop where
  lt : ∀ x y, G.Edge x y → rank y < rank x
  ne : ∀ x, G.leaf x = false → G.lo x ≠ G.hi x

variable {G} {rank : ι → Nat} {x y z : ι} {D : Set ι}

theorem mem_below : y ∈ G.below x ↔ G.leaf y = false ∧ G.Reach x y := Iff.rfl

theorem edge_lo (hx : G.leaf x = false) : G.Edge x (G.lo x) := ⟨hx, .inl rfl⟩

theorem edge_hi (hx : G.leaf x = false) : G.Edge x (G.hi x) := ⟨hx, .inr rfl⟩

theorem reach_iff : G.Reach x y ↔ y = x ∨ (G.leaf x = false ∧ (G.Reach (G.lo x) y ∨ G.Reach (G.hi x) y)) := by
  constructor
  · intro h
    rcases Relation.ReflTransGen.cases_head h with rfl | ⟨z, hedge, hrest⟩
    · exact .inl rfl
    · obtain ⟨hx, rfl | rfl⟩ := hedge
      · exact .inr ⟨hx, .inl hrest⟩
      · exact .inr ⟨hx, .inr hrest⟩
  · rintro (rfl | ⟨hx, h | h⟩)
    · exact .refl
    · exact .head (edge_lo hx) h
    · exact .head (edge_hi hx) h

theorem mem_below_self (hx : G.leaf x = false) : x ∈ G.below x := ⟨hx, .refl⟩

theorem mem_below_trans (hxy : y ∈ G.below x) (hyz : z ∈ G.below y) : z ∈ G.below x :=
  ⟨hyz.1, hxy.2.trans hyz.2⟩

theorem mem_below_iff (hx : G.leaf x = false) :
    y ∈ G.below x ↔ y = x ∨ y ∈ G.below (G.lo x) ∨ y ∈ G.below (G.hi x) := by
  simp only [mem_below, reach_iff (x := x)]
  constructor
  · rintro ⟨hy, rfl | ⟨-, h | h⟩⟩
    · exact .inl rfl
    · exact .inr (.inl ⟨hy, h⟩)
    · exact .inr (.inr ⟨hy, h⟩)
  · rintro (rfl | ⟨hy, h⟩ | ⟨hy, h⟩)
    · exact ⟨hx, .inl rfl⟩
    · exact ⟨hy, .inr ⟨hx, .inl h⟩⟩
    · exact ⟨hy, .inr ⟨hx, .inr h⟩⟩

theorem not_mem_below_leaf (hx : G.leaf x = true) : y ∉ G.below x := by
  rintro ⟨hy, hreach⟩
  rcases reach_iff.mp hreach with rfl | ⟨hx', -⟩
  · simp [hx] at hy
  · simp [hx] at hx'

theorem rank_le_of_reach (h : G.Acyclic rank) (hxy : G.Reach x y) : rank y ≤ rank x := by
  induction hxy with
  | refl => exact Nat.le_refl _
  | tail _ hedge ih => exact Nat.le_trans (h.lt _ _ hedge).le ih

theorem not_mem_below_of_edge (h : G.Acyclic rank) (hedge : G.Edge x y) : x ∉ G.below y := by
  intro hmem
  have hle := rank_le_of_reach h hmem.2
  have hlt := h.lt x y hedge
  omega

theorem Clash.not_mem (h : G.Clash D x) : G.leaf x = false ∧ x ∉ D := by
  cases h with
  | here hx hnew => exact ⟨hx, hnew⟩
  | hi hx hnew => exact ⟨hx, hnew⟩
  | lo hx hnew => exact ⟨hx, hnew⟩

theorem clash_iff (hx : G.leaf x = false) (hnew : x ∉ D) : G.Clash D x ↔
    (G.lo x ∉ D ∧ G.lo x ∈ G.below (G.hi x)) ∨ G.Clash D (G.hi x) ∨ G.Clash (D ∪ G.below (G.hi x)) (G.lo x) := by
  constructor
  · intro h
    cases h with
    | here _ _ hmissing hbelow => exact .inl ⟨hmissing, hbelow⟩
    | hi _ _ h => exact .inr (.inl h)
    | lo _ _ h => exact .inr (.inr h)
  · rintro (⟨hmissing, hbelow⟩ | h | h)
    · exact .here hx hnew hmissing hbelow
    · exact .hi hx hnew h
    · exact .lo hx hnew h

end Graph

/-- A node on the stack and whether it was expanded, the nodes that were ever put on the
stack, and those that are built. -/
structure Walk (ι : Type*) where
  stack : List (ι × Bool)
  scheduled : List ι
  built : List ι

def Walk.done {ι : Type*} (s : Walk ι) : Set ι := fun x => x ∈ s.built

variable {ι : Type*} [DecidableEq ι]

namespace Graph

section Rounds

variable (G : Graph ι)

def Pushed (s : Walk ι) (x : ι) : Prop := G.leaf x = false ∧ x ∉ s.built ∧ x ∉ s.scheduled

instance (s : Walk ι) (x : ι) : Decidable (G.Pushed s x) := inferInstanceAs (Decidable (_ ∧ _ ∧ _))

def schedule (s : Walk ι) (x : ι) : Walk ι :=
  if G.Pushed s x then { s with scheduled := x :: s.scheduled, stack := (x, false) :: s.stack } else s

def Ready (s : Walk ι) (x : ι) : Prop := G.leaf x = true ∨ x ∈ s.built

instance (s : Walk ι) (x : ι) : Decidable (G.Ready s x) := inferInstanceAs (Decidable (_ ∨ _))

/-- One round of the loop on a stack with `x` on top. Without a result a successor is missing. -/
def visit (s : Walk ι) (x : ι) (expanded : Bool) (rest : List (ι × Bool)) : Option (Walk ι) :=
  if G.Ready s x then some { s with stack := rest }
  else if expanded then
    if G.Ready s (G.lo x) ∧ G.Ready s (G.hi x) then some { s with stack := rest, built := x :: s.built }
    else none
  else some (G.schedule (G.schedule { s with stack := (x, true) :: rest } (G.lo x)) (G.hi x))

inductive Step : Walk ι → Walk ι → Prop
  | visit {s s' : Walk ι} {x : ι} {expanded : Bool} {rest : List (ι × Bool)}
      (hstack : s.stack = (x, expanded) :: rest) (hvisit : G.visit s x expanded rest = some s') : Step s s'

def Steps : Walk ι → Walk ι → Prop := Relation.ReflTransGen G.Step

def Fails (s : Walk ι) : Prop := ∃ s' x expanded rest, G.Steps s s' ∧
  s'.stack = (x, expanded) :: rest ∧ G.visit s' x expanded rest = none

/-- The rounds for a node, if it is on the stack, leave the rest of the stack. -/
structure Builds (s : Walk ι) (onStack : Prop) (x : ι) (rest : List (ι × Bool)) (s' : Walk ι) : Prop where
  steps : G.Steps s s'
  stack : s'.stack = rest
  built : ∀ y, y ∈ s'.built ↔ y ∈ s.built ∨ (onStack ∧ y ∈ G.below x)
  scheduled : ∀ y, y ∈ s'.scheduled ↔ y ∈ s.scheduled ∨ (onStack ∧ y ∈ G.below x)

/-- With a node everything below it is built, and what is built was on the stack. -/
structure Consistent (s : Walk ι) : Prop where
  closed : ∀ x ∈ s.built, ∀ y ∈ G.below x, y ∈ s.built
  scheduled : ∀ x ∈ s.built, x ∈ s.scheduled

/-- Nothing below the node waits on the stack, and nothing there clashes. -/
structure Free (s : Walk ι) (x : ι) : Prop where
  clear : ¬ G.Clash s.done x
  waiting : ∀ y ∈ G.below x, y ≠ x → y ∈ s.scheduled → y ∈ s.built

end Rounds

variable {G : Graph ι} {rank : ι → Nat} {s s' t : Walk ι} {x y z : ι} {rest : List (ι × Bool)}

theorem Fails.of_steps (hsteps : G.Steps s s') (h : G.Fails s') : G.Fails s := by
  obtain ⟨t, x, e, rest, ht, hstack, hnone⟩ := h
  exact ⟨t, x, e, rest, hsteps.trans ht, hstack, hnone⟩

variable {p : Prop}

theorem Consistent.of_builds (hs : G.Consistent s) (h : G.Builds s p x rest s') : G.Consistent s' := by
  constructor
  · intro y hy z hz
    rw [h.built] at hy ⊢
    rcases hy with hy | ⟨hp, hy⟩
    · exact .inl (hs.closed y hy z hz)
    · exact .inr ⟨hp, mem_below_trans hy hz⟩
  · intro y hy
    rw [h.built] at hy
    rw [h.scheduled]
    exact hy.imp_left (hs.scheduled y)

theorem schedule_stack (G : Graph ι) (s : Walk ι) (x : ι) :
    (G.schedule s x).stack = (if G.Pushed s x then [(x, false)] else []) ++ s.stack := by
  unfold schedule
  split <;> rfl

@[simp] theorem schedule_built (G : Graph ι) (s : Walk ι) (x : ι) : (G.schedule s x).built = s.built := by
  unfold schedule
  split <;> rfl

theorem mem_schedule_scheduled : y ∈ (G.schedule s x).scheduled ↔ y ∈ s.scheduled ∨ (G.Pushed s x ∧ y = x) := by
  unfold schedule
  split
  · rename_i hx
    simp [hx, or_comm]
  · rename_i hx
    simp [hx]

structure Expanded (G : Graph ι) (s : Walk ι) (x : ι) (rest : List (ι × Bool)) (s' : Walk ι) : Prop where
  step : G.Step s s'
  stack : s'.stack = (if G.Pushed s (G.hi x) then [(G.hi x, false)] else []) ++
    ((if G.Pushed s (G.lo x) then [(G.lo x, false)] else []) ++ (x, true) :: rest)
  built : s'.built = s.built
  scheduled : ∀ y, y ∈ s'.scheduled ↔
    y ∈ s.scheduled ∨ (G.Pushed s (G.lo x) ∧ y = G.lo x) ∨ (G.Pushed s (G.hi x) ∧ y = G.hi x)

theorem exists_expanded (h : G.Acyclic rank) (hstack : s.stack = (x, false) :: rest) (hx : G.leaf x = false)
    (hnew : x ∉ s.built) : ∃ s', G.Expanded s x rest s' := by
  have hready : ¬ G.Ready s x := by
    rintro (hleaf | hmem)
    · simp [hx] at hleaf
    · exact hnew hmem
  have hne := h.ne x hx
  let top : Walk ι := { s with stack := (x, true) :: rest }
  have hpushed : G.Pushed (G.schedule top (G.lo x)) (G.hi x) ↔ G.Pushed s (G.hi x) := by
    unfold Pushed
    rw [mem_schedule_scheduled, schedule_built]
    grind
  refine ⟨G.schedule (G.schedule top (G.lo x)) (G.hi x), ?_, ?_, ?_, ?_⟩
  · refine .visit hstack ?_
    rw [visit, if_neg hready]
    rfl
  · rw [schedule_stack, schedule_stack]
    simp only [hpushed]
    rfl
  · rw [schedule_built, schedule_built]
  · intro y
    rw [mem_schedule_scheduled, mem_schedule_scheduled, hpushed, or_assoc]
    rfl

/-- The rounds of a node decide whether something is missing below it. -/
def Decides (G : Graph ι) (s : Walk ι) (x : ι) (rest : List (ι × Bool)) : Prop :=
  (G.Free s x ∧ ∃ s', G.Builds s True x rest s') ∨ (¬ G.Free s x ∧ G.Fails s)

theorem exists_builds [Decidable p] (hstack : s.stack = (if p then [(x, false)] else []) ++ rest)
    (h : p → G.Decides s x rest) : (∃ s', G.Builds s p x rest s' ∧ (p → G.Free s x)) ∨
      (p ∧ ¬ G.Free s x ∧ G.Fails s) := by
  by_cases hp : p
  · rcases h hp with ⟨hfree, s', hs'⟩ | ⟨hfree, hfails⟩
    · refine .inl ⟨s', ⟨hs'.steps, hs'.stack, fun y => ?_, fun y => ?_⟩, fun _ => hfree⟩
      · rw [hs'.built, and_iff_right trivial, and_iff_right hp]
      · rw [hs'.scheduled, and_iff_right trivial, and_iff_right hp]
    · exact .inr ⟨hp, hfree, hfails⟩
  · rw [if_neg hp, List.nil_append] at hstack
    refine .inl ⟨s, ⟨.refl, hstack, fun y => ?_, fun y => ?_⟩, fun h => absurd h hp⟩ <;> simp [hp]

section Successors

variable {s₁ s₂ s₃ : Walk ι} {stack : List (ι × Bool)}

/-- A successor that is not there was put on the stack by the expansion. -/
def Unblocked (G : Graph ι) (s : Walk ι) (x : ι) : Prop :=
  ∀ y, G.Edge x y → G.leaf y = true ∨ y ∈ s.built ∨ G.Pushed s y

omit [DecidableEq ι] in
theorem below_of_unblocked (hs : G.Consistent s) (hy : G.leaf y = true ∨ y ∈ s.built ∨ G.Pushed s y)
    (hz : z ∈ G.below y) : z ∈ s.built ∨ G.Pushed s y := by
  rcases hy with hleaf | hbuilt | hpushed
  · exact absurd hz (not_mem_below_leaf hleaf)
  · exact .inl (hs.closed y hbuilt z hz)
  · exact .inr hpushed

theorem Free.unblocked (h : G.Acyclic rank) (hfree : G.Free s x) : G.Unblocked s x := by
  intro y hedge
  have hne : y ≠ x := by
    rintro rfl
    have := h.lt y y hedge
    omega
  cases hleaf : G.leaf y with
  | true => exact .inl rfl
  | false =>
    by_cases hbuilt : y ∈ s.built
    · exact .inr (.inl hbuilt)
    · refine .inr (.inr ⟨hleaf, hbuilt, fun hsched => hbuilt ?_⟩)
      exact hfree.waiting y ⟨hleaf, .single hedge⟩ hne hsched

theorem done_second (hs : G.Consistent s) (hx : G.leaf x = false) (hopen : G.Unblocked s x)
    (hexp : G.Expanded s x rest s₁) (hhi : G.Builds s₁ (G.Pushed s (G.hi x)) (G.hi x) stack s₂) :
    s₂.done = s.done ∪ G.below (G.hi x) := by
  ext y
  change y ∈ s₂.built ↔ y ∈ s.built ∨ y ∈ G.below (G.hi x)
  rw [hhi.built, hexp.built]
  constructor
  · rintro (hy | ⟨-, hy⟩)
    · exact .inl hy
    · exact .inr hy
  · rintro (hy | hy)
    · exact .inl hy
    · rcases below_of_unblocked hs (hopen _ (edge_hi hx)) hy with hbuilt | hpushed
      · exact .inl hbuilt
      · exact .inr ⟨hpushed, hy⟩

theorem done_expanded (hexp : G.Expanded s x rest s₁) : s₁.done = s.done := by
  unfold Walk.done
  rw [hexp.built]

section

variable (h : G.Acyclic rank)
include h

omit [DecidableEq ι] in
theorem below_successor (hx : G.leaf x = false)
    (hy : y ∈ G.below (G.lo x) ∨ y ∈ G.below (G.hi x)) : y ∈ G.below x ∧ y ≠ x := by
  refine ⟨(mem_below_iff hx).mpr (.inr hy), ?_⟩
  rintro rfl
  rcases hy with hy | hy
  · exact not_mem_below_of_edge h (edge_lo hx) hy
  · exact not_mem_below_of_edge h (edge_hi hx) hy

theorem Free.second (hx : G.leaf x = false) (hnew : x ∉ s.built) (hexp : G.Expanded s x rest s₁)
    (hfree : G.Free s x) : G.Free s₁ (G.hi x) := by
  have hclear := hfree.clear
  rw [clash_iff hx hnew, not_or, not_or] at hclear
  refine ⟨?_, fun y hy hne hsched => ?_⟩
  · rw [done_expanded hexp]
    exact hclear.2.1
  · obtain ⟨hyx, hnex⟩ := below_successor h hx (.inr hy)
    rw [hexp.built]
    rcases (hexp.scheduled y).mp hsched with hold | ⟨hlo, rfl⟩ | ⟨-, rfl⟩
    · exact hfree.waiting y hyx hnex hold
    · exact absurd ⟨hlo.2.1, hy⟩ hclear.1
    · exact absurd rfl hne

theorem Free.first (hs : G.Consistent s) (hx : G.leaf x = false) (hnew : x ∉ s.built)
    (hexp : G.Expanded s x rest s₁) (hhi : G.Builds s₁ (G.Pushed s (G.hi x)) (G.hi x) stack s₂)
    (hfree : G.Free s x) : G.Free s₂ (G.lo x) := by
  have hclear := hfree.clear
  rw [clash_iff hx hnew, not_or, not_or] at hclear
  refine ⟨?_, fun y hy hne hsched => ?_⟩
  · rw [done_second hs hx (hfree.unblocked h) hexp hhi]
    exact hclear.2.2
  · obtain ⟨hyx, hnex⟩ := below_successor h hx (.inl hy)
    rw [hhi.built, hexp.built]
    rcases (hhi.scheduled y).mp hsched with hold | hold
    · rcases (hexp.scheduled y).mp hold with hold | ⟨-, rfl⟩ | ⟨hp, rfl⟩
      · exact .inl (hfree.waiting y hyx hnex hold)
      · exact absurd rfl hne
      · exact .inr ⟨hp, mem_below_self hp.1⟩
    · exact .inr hold

theorem free_of_successors (hs : G.Consistent s) (hx : G.leaf x = false) (hnew : x ∉ s.built)
    (hopen : G.Unblocked s x) (hexp : G.Expanded s x rest s₁)
    (hhi : G.Builds s₁ (G.Pushed s (G.hi x)) (G.hi x) stack s₂)
    (hfree₁ : G.Pushed s (G.hi x) → G.Free s₁ (G.hi x))
    (hfree₂ : G.Pushed s (G.lo x) → G.Free s₂ (G.lo x)) : G.Free s x := by
  have hfirst : ∀ y ∈ G.below (G.hi x), y ∈ s₁.scheduled → y ∈ s.built ∨ y = G.hi x := by
    intro y hy hsched
    rcases below_of_unblocked hs (hopen _ (edge_hi hx)) hy with hbuilt | hpushed
    · exact .inl hbuilt
    · by_cases hne : y = G.hi x
      · exact .inr hne
      · have hbuilt := (hfree₁ hpushed).waiting y hy hne hsched
        rw [hexp.built] at hbuilt
        exact .inl hbuilt
  refine ⟨?_, fun y hy hne hsched => ?_⟩
  · rw [clash_iff hx hnew]
    rintro (⟨hmissing, hlo⟩ | hbad | hbad)
    · rcases hopen _ (edge_lo hx) with hleaf | hbuilt | hpushed
      · simp [hlo.1] at hleaf
      · exact hmissing hbuilt
      · rcases hfirst _ hlo ((hexp.scheduled _).mpr (.inr (.inl ⟨hpushed, rfl⟩))) with hbuilt | heq
        · exact hmissing hbuilt
        · exact h.ne x hx heq
    · obtain ⟨hleaf, hmissing⟩ := hbad.not_mem
      rcases hopen _ (edge_hi hx) with hleaf' | hbuilt | hpushed
      · simp [hleaf] at hleaf'
      · exact hmissing hbuilt
      · refine (hfree₁ hpushed).clear ?_
        rw [done_expanded hexp]
        exact hbad
    · obtain ⟨hleaf, hmissing⟩ := hbad.not_mem
      rcases hopen _ (edge_lo hx) with hleaf' | hbuilt | hpushed
      · simp [hleaf] at hleaf'
      · exact hmissing (.inl hbuilt)
      · refine (hfree₂ hpushed).clear ?_
        rw [done_second hs hx hopen hexp hhi]
        exact hbad
  · have hsched₁ : y ∈ s₁.scheduled := (hexp.scheduled y).mpr (.inl hsched)
    -- What was scheduled before is not a successor that the expansion put on the stack.
    have hsecond : y ∈ G.below (G.hi x) → y ∈ s.built := by
      intro hy
      rcases hfirst y hy hsched₁ with hbuilt | rfl
      · exact hbuilt
      · rcases hopen _ (edge_hi hx) with hleaf | hbuilt | hpushed
        · simp [hy.1] at hleaf
        · exact hbuilt
        · exact absurd hsched hpushed.2.2
    rcases (mem_below_iff hx).mp hy with rfl | hy | hy
    · exact absurd rfl hne
    · rcases below_of_unblocked hs (hopen _ (edge_lo hx)) hy with hbuilt | hpushed
      · exact hbuilt
      · by_cases heq : y = G.lo x
        · exact absurd (heq ▸ hsched) hpushed.2.2
        · have hbuilt := (hfree₂ hpushed).waiting y hy heq ((hhi.scheduled y).mpr (.inl hsched₁))
          rw [hhi.built, hexp.built] at hbuilt
          rcases hbuilt with hbuilt | ⟨-, hbelow⟩
          · exact hbuilt
          · exact hsecond hbelow
    · exact hsecond hy

end

end Successors

theorem Consistent.expanded (hs : G.Consistent s) (hexp : G.Expanded s x rest s') : G.Consistent s' := by
  constructor
  · rw [hexp.built]
    exact hs.closed
  · intro y hy
    rw [hexp.built] at hy
    exact (hexp.scheduled y).mpr (.inl (hs.scheduled y hy))

section Last

variable {s₁ s₂ s₃ : Walk ι} {stack : List (ι × Bool)}

theorem not_ready_last (h : G.Acyclic rank) (hx : G.leaf x = false) (hnew : x ∉ s.built)
    (hexp : G.Expanded s x rest s₁) (hhi : G.Builds s₁ (G.Pushed s (G.hi x)) (G.hi x) stack s₂)
    (hlo : G.Builds s₂ (G.Pushed s (G.lo x)) (G.lo x) ((x, true) :: rest) s₃) : ¬ G.Ready s₃ x := by
  rintro (hleaf | hmem)
  · simp [hx] at hleaf
  · rw [hlo.built, hhi.built, hexp.built] at hmem
    rcases hmem with (hmem | ⟨-, hmem⟩) | ⟨-, hmem⟩
    · exact hnew hmem
    · exact (below_successor h hx (.inr hmem)).2 rfl
    · exact (below_successor h hx (.inl hmem)).2 rfl

theorem unblocked_of_ready (h : G.Acyclic rank) (hx : G.leaf x = false) (hexp : G.Expanded s x rest s₁)
    (hhi : G.Builds s₁ (G.Pushed s (G.hi x)) (G.hi x) stack s₂)
    (hlo : G.Builds s₂ (G.Pushed s (G.lo x)) (G.lo x) ((x, true) :: rest) s₃)
    (hfree₁ : G.Pushed s (G.hi x) → G.Free s₁ (G.hi x)) (hfree₂ : G.Pushed s (G.lo x) → G.Free s₂ (G.lo x))
    (hready : G.Ready s₃ (G.lo x) ∧ G.Ready s₃ (G.hi x)) : G.Unblocked s x := by
  have hne := h.ne x hx
  have hcases : ∀ y, G.Ready s₃ y → (∀ z ∈ s₁.scheduled, z ∈ s₂.scheduled) ∧ (G.leaf y = true ∨ y ∈ s.built ∨
      (G.Pushed s (G.hi x) ∧ y ∈ G.below (G.hi x)) ∨ (G.Pushed s (G.lo x) ∧ y ∈ G.below (G.lo x))) := by
    intro y hy
    refine ⟨fun z hz => (hhi.scheduled z).mpr (.inl hz), ?_⟩
    rcases hy with hy | hy
    · exact .inl hy
    · rw [hlo.built, hhi.built, hexp.built] at hy
      tauto
  have hwaiting : ∀ y, y ∈ s.scheduled → y ∈ s₁.scheduled := fun y hy => (hexp.scheduled y).mpr (.inl hy)
  -- A node that is there and was neither built nor pushed waited below a successor.
  have hblocked : ∀ y, G.Ready s₃ y → (y ≠ G.hi x ∨ ¬ G.Pushed s (G.hi x)) → (y ≠ G.lo x ∨ ¬ G.Pushed s (G.lo x)) →
      y ∈ s.scheduled → G.leaf y = true ∨ y ∈ s.built := by
    intro y hy hhi' hlo' hsched
    obtain ⟨hmono, hleaf | hbuilt | ⟨hp, hmem⟩ | ⟨hp, hmem⟩⟩ := hcases y hy
    · exact .inl hleaf
    · exact .inr hbuilt
    · have hbuilt := (hfree₁ hp).waiting y hmem (hhi'.resolve_right (not_not_intro hp)) (hwaiting y hsched)
      rw [hexp.built] at hbuilt
      exact .inr hbuilt
    · have hbuilt := (hfree₂ hp).waiting y hmem (hlo'.resolve_right (not_not_intro hp))
        (hmono y (hwaiting y hsched))
      rw [hhi.built, hexp.built] at hbuilt
      rcases hbuilt with hbuilt | ⟨hp', hmem'⟩
      · exact .inr hbuilt
      · have hbuilt := (hfree₁ hp').waiting y hmem' (hhi'.resolve_right (not_not_intro hp')) (hwaiting y hsched)
        rw [hexp.built] at hbuilt
        exact .inr hbuilt
  have hdone : ∀ y, G.Ready s₃ y → (y ≠ G.hi x ∨ ¬ G.Pushed s (G.hi x)) → (y ≠ G.lo x ∨ ¬ G.Pushed s (G.lo x)) →
      ¬ G.Pushed s y → G.leaf y = true ∨ y ∈ s.built := by
    intro y hy hhi' hlo' hpushed
    cases hleaf : G.leaf y with
    | true => exact .inl rfl
    | false =>
      by_cases hbuilt : y ∈ s.built
      · exact .inr hbuilt
      · have hsched : y ∈ s.scheduled := by
          by_contra hno
          exact hpushed ⟨hleaf, hbuilt, hno⟩
        rw [← hleaf]
        exact hblocked y hy hhi' hlo' hsched
  rintro y ⟨-, rfl | rfl⟩
  · by_cases hpushed : G.Pushed s (G.lo x)
    · exact .inr (.inr hpushed)
    · exact (hdone _ hready.1 (.inl hne) (.inr hpushed) hpushed).imp_right .inl
  · by_cases hpushed : G.Pushed s (G.hi x)
    · exact .inr (.inr hpushed)
    · exact (hdone _ hready.2 (.inr hpushed) (.inl hne.symm) hpushed).imp_right .inl

theorem ready_of_unblocked (hx : G.leaf x = false) (hopen : G.Unblocked s x) (hexp : G.Expanded s x rest s₁)
    (hhi : G.Builds s₁ (G.Pushed s (G.hi x)) (G.hi x) stack s₂)
    (hlo : G.Builds s₂ (G.Pushed s (G.lo x)) (G.lo x) ((x, true) :: rest) s₃) :
    G.Ready s₃ (G.lo x) ∧ G.Ready s₃ (G.hi x) := by
  have hold : ∀ y ∈ s.built, y ∈ s₃.built := by
    intro y hy
    rw [hlo.built, hhi.built, hexp.built]
    exact .inl (.inl hy)
  constructor
  · rcases hopen _ (edge_lo hx) with hleaf | hbuilt | hpushed
    · exact .inl hleaf
    · exact .inr (hold _ hbuilt)
    · exact .inr ((hlo.built _).mpr (.inr ⟨hpushed, mem_below_self hpushed.1⟩))
  · rcases hopen _ (edge_hi hx) with hleaf | hbuilt | hpushed
    · exact .inl hleaf
    · exact .inr (hold _ hbuilt)
    · exact .inr ((hlo.built _).mpr (.inl ((hhi.built _).mpr (.inr ⟨hpushed, mem_below_self hpushed.1⟩))))

theorem builds_last (h : G.Acyclic rank) (hs : G.Consistent s) (hx : G.leaf x = false) (hsched : x ∈ s.scheduled)
    (hopen : G.Unblocked s x) (hnew : x ∉ s.built) (hexp : G.Expanded s x rest s₁)
    (hhi : G.Builds s₁ (G.Pushed s (G.hi x)) (G.hi x) stack s₂)
    (hlo : G.Builds s₂ (G.Pushed s (G.lo x)) (G.lo x) ((x, true) :: rest) s₃) :
    ∃ s', G.Builds s True x rest s' := by
  have hbuilt₃ : ∀ y, y ∈ s₃.built ↔ y ∈ s.built ∨ y ∈ G.below (G.lo x) ∨ y ∈ G.below (G.hi x) := by
    intro y
    have hlo' := fun hy => below_of_unblocked (z := y) hs (hopen _ (edge_lo hx)) hy
    have hhi' := fun hy => below_of_unblocked (z := y) hs (hopen _ (edge_hi hx)) hy
    rw [hlo.built, hhi.built, hexp.built]
    tauto
  have hsched₃ : ∀ y, y ∈ s₃.scheduled ↔ y ∈ s.scheduled ∨ y ∈ G.below (G.lo x) ∨ y ∈ G.below (G.hi x) := by
    intro y
    constructor
    · intro hy
      rcases (hlo.scheduled y).mp hy with hy | ⟨-, hy⟩
      · rcases (hhi.scheduled y).mp hy with hy | ⟨-, hy⟩
        · rcases (hexp.scheduled y).mp hy with hy | ⟨hp, rfl⟩ | ⟨hp, rfl⟩
          · exact .inl hy
          · exact .inr (.inl (mem_below_self hp.1))
          · exact .inr (.inr (mem_below_self hp.1))
        · exact .inr (.inr hy)
      · exact .inr (.inl hy)
    · rintro (hy | hy)
      · exact (hlo.scheduled y).mpr (.inl ((hhi.scheduled y).mpr (.inl ((hexp.scheduled y).mpr (.inl hy)))))
      · have hcons := ((hs.expanded hexp).of_builds hhi).of_builds hlo
        exact hcons.scheduled y ((hbuilt₃ y).mpr (.inr hy))
  refine ⟨{ s₃ with stack := rest, built := x :: s₃.built }, ?_, rfl, fun y => ?_, fun y => ?_⟩
  · refine (Relation.ReflTransGen.head hexp.step (hhi.steps.trans hlo.steps)).tail (.visit hlo.stack ?_)
    rw [visit, if_neg (not_ready_last h hx hnew hexp hhi hlo), if_pos rfl,
      if_pos (ready_of_unblocked hx hopen hexp hhi hlo)]
  · dsimp only
    rw [List.mem_cons, hbuilt₃, and_iff_right trivial, mem_below_iff hx]
    tauto
  · dsimp only
    rw [hsched₃, and_iff_right trivial, mem_below_iff hx]
    constructor
    · rintro (hy | hy)
      · exact .inl hy
      · exact .inr (.inr hy)
    · rintro (hy | rfl | hy)
      · exact .inl hy
      · exact .inl hsched
      · exact .inr hy

end Last

theorem decides (h : G.Acyclic rank) (n : Nat) : ∀ (x : ι) (s : Walk ι) (rest : List (ι × Bool)), rank x < n →
    G.Consistent s → s.stack = (x, false) :: rest → G.leaf x = false → x ∉ s.built → x ∈ s.scheduled →
      G.Decides s x rest := by
  induction n with
  | zero => intro x s rest hrank; omega
  | succ n ih =>
    intro x s rest hrank hs hstack hx hnew hsched
    obtain ⟨s₁, hexp⟩ := exists_expanded h hstack hx hnew
    have hs₁ := hs.expanded hexp
    have hrank_lo := h.lt _ _ (edge_lo hx)
    have hrank_hi := h.lt _ _ (edge_hi hx)
    have hstart : G.Steps s s₁ := .single hexp.step
    rcases exists_builds hexp.stack (fun hp => ih _ s₁ _ (by omega) hs₁ (by rw [hexp.stack, if_pos hp]; rfl) hp.1
      (by rw [hexp.built]; exact hp.2.1) ((hexp.scheduled _).mpr (.inr (.inr ⟨hp, rfl⟩)))) with
      ⟨s₂, hhi, hfree₁⟩ | ⟨-, hfree, hfails⟩
    · have hs₂ := hs₁.of_builds hhi
      have hlo_missing : G.Pushed s (G.lo x) → G.lo x ∉ s₂.built := by
        intro hp hmem
        rw [hhi.built, hexp.built] at hmem
        rcases hmem with hmem | ⟨hp', hmem⟩
        · exact hp.2.1 hmem
        · have hbuilt := (hfree₁ hp').waiting _ hmem (h.ne x hx) ((hexp.scheduled _).mpr (.inr (.inl ⟨hp, rfl⟩)))
          rw [hexp.built] at hbuilt
          exact hp.2.1 hbuilt
      rcases exists_builds hhi.stack (fun hp => ih _ s₂ _ (by omega) hs₂ (by rw [hhi.stack, if_pos hp]; rfl) hp.1
        (hlo_missing hp) ((hhi.scheduled _).mpr (.inl ((hexp.scheduled _).mpr (.inr (.inl ⟨hp, rfl⟩)))))) with
        ⟨s₃, hlo, hfree₂⟩ | ⟨-, hfree, hfails⟩
      · by_cases hready : G.Ready s₃ (G.lo x) ∧ G.Ready s₃ (G.hi x)
        · have hopen := unblocked_of_ready h hx hexp hhi hlo hfree₁ hfree₂ hready
          exact .inl ⟨free_of_successors h hs hx hnew hopen hexp hhi hfree₁ hfree₂,
            builds_last h hs hx hsched hopen hnew hexp hhi hlo⟩
        · refine .inr ⟨fun hfree => hready (ready_of_unblocked hx (hfree.unblocked h) hexp hhi hlo),
            s₃, x, true, rest, (hstart.trans hhi.steps).trans hlo.steps, hlo.stack, ?_⟩
          rw [visit, if_neg (not_ready_last h hx hnew hexp hhi hlo), if_pos rfl, if_neg hready]
      · exact .inr ⟨fun hf => hfree (hf.first h hs hx hnew hexp hhi), hfails.of_steps (hstart.trans hhi.steps)⟩
    · exact .inr ⟨fun hf => hfree (hf.second h hx hnew hexp), hfails.of_steps hstart⟩

def start (x : ι) : Walk ι := ⟨[(x, false)], [x], []⟩

theorem start_decides (h : G.Acyclic rank) (hx : G.leaf x = false) :
    (¬ G.Clash ∅ x ∧ ∃ s, G.Steps (start x) s ∧ s.stack = [] ∧ x ∈ s.built) ∨ (G.Clash ∅ x ∧ G.Fails (start x)) := by
  have hdone : (start x).done = ∅ := Set.ext fun y => iff_of_false List.not_mem_nil (Set.notMem_empty y)
  have hcons : G.Consistent (start x) := ⟨by simp [start], by simp [start]⟩
  have hfree : G.Free (start x) x ↔ ¬ G.Clash ∅ x := by
    constructor
    · intro hfree
      rw [← hdone]
      exact hfree.clear
    · intro hclear
      refine ⟨by rwa [hdone], fun y _ hne hy => ?_⟩
      exact absurd (List.mem_singleton.mp hy) hne
  rcases decides h (rank x + 1) x (start x) [] (Nat.lt_succ_self _) hcons rfl hx (by simp [start])
    (by simp [start]) with ⟨hf, s, hs⟩ | ⟨hf, hfails⟩
  · exact .inl ⟨hfree.mp hf, s, hs.steps, hs.stack, (hs.built x).mpr (.inr ⟨trivial, mem_below_self hx⟩)⟩
  · exact .inr ⟨not_not.mp fun hno => hf (hfree.mpr hno), hfails⟩

theorem step_unique {s₁ s₂ : Walk ι} (h₁ : G.Step s s₁) (h₂ : G.Step s s₂) : s₁ = s₂ := by
  obtain ⟨hstack, hvisit⟩ := h₁
  cases h₂ with
  | visit hstack' hvisit' =>
    obtain ⟨hp, rfl⟩ := List.cons.inj (hstack.symm.trans hstack')
    obtain ⟨rfl, rfl⟩ := Prod.mk.inj hp
    exact Option.some.inj (hvisit.symm.trans hvisit')

theorem Steps.eq_of_stuck {s₁ s₂ : Walk ι} (h₁ : G.Steps s s₁) (h₂ : G.Steps s s₂) (hstuck₁ : ∀ t, ¬ G.Step s₁ t)
    (hstuck₂ : ∀ t, ¬ G.Step s₂ t) : s₁ = s₂ := by
  have hunique : Relator.RightUnique G.Step := fun _ _ _ => step_unique
  rcases Relation.ReflTransGen.total_of_right_unique hunique h₁ h₂ with h | h
  · rcases Relation.ReflTransGen.cases_head h with heq | ⟨t, ht, -⟩
    · exact heq
    · exact absurd ht (hstuck₁ t)
  · rcases Relation.ReflTransGen.cases_head h with heq | ⟨t, ht, -⟩
    · exact heq.symm
    · exact absurd ht (hstuck₂ t)

theorem not_step_of_empty (hstack : s.stack = []) (t : Walk ι) : ¬ G.Step s t := by
  rintro ⟨htop, -⟩
  rw [hstack] at htop
  cases htop

theorem not_step_of_none {expanded : Bool} (hstack : s.stack = (x, expanded) :: rest)
    (hnone : G.visit s x expanded rest = none) (t : Walk ι) : ¬ G.Step s t := by
  rintro ⟨htop, hvisit⟩
  obtain ⟨hp, rfl⟩ := List.cons.inj (hstack.symm.trans htop)
  obtain ⟨rfl, rfl⟩ := Prod.mk.inj hp
  rw [hnone] at hvisit
  cases hvisit

theorem not_fails_of_steps (h : G.Steps s t) (hstack : t.stack = []) : ¬ G.Fails s := by
  rintro ⟨s', x, expanded, rest, hs', htop, hnone⟩
  obtain rfl := Steps.eq_of_stuck h hs' (not_step_of_empty hstack) (not_step_of_none htop hnone)
  rw [hstack] at htop
  cases htop

theorem not_clash_of_steps (h : G.Acyclic rank) (hx : G.leaf x = false) (hsteps : G.Steps (start x) s)
    (hstack : s.stack = []) : ¬ G.Clash ∅ x ∧ x ∈ s.built := by
  rcases start_decides h hx with ⟨hclear, t, ht, hempty, hbuilt⟩ | ⟨-, hfails⟩
  · obtain rfl := Steps.eq_of_stuck hsteps ht (not_step_of_empty hstack) (not_step_of_empty hempty)
    exact ⟨hclear, hbuilt⟩
  · exact absurd hfails (not_fails_of_steps hsteps hstack)

theorem clash_of_fails (h : G.Acyclic rank) (hx : G.leaf x = false) (hfails : G.Fails (start x)) : G.Clash ∅ x := by
  rcases start_decides h hx with ⟨-, t, ht, hempty, -⟩ | ⟨hclash, -⟩
  · exact absurd hfails (not_fails_of_steps ht hempty)
  · exact hclash

/-- The rounds that can follow when only nodes of a finite set are put on the stack. -/
def weight (N : Finset ι) (s : Walk ι) : Nat :=
  2 * (N.filter (· ∉ s.scheduled)).card + (s.stack.map fun p => if p.2 then 1 else 2).sum

variable {N : Finset ι}

theorem weight_schedule (hx : G.leaf x = false → x ∈ N) : weight N (G.schedule s x) = weight N s := by
  unfold schedule
  split
  · rename_i hpushed
    obtain ⟨hleaf, -, hsched⟩ := hpushed
    have hmem : x ∈ N.filter (· ∉ s.scheduled) := Finset.mem_filter.mpr ⟨hx hleaf, hsched⟩
    have herase : N.filter (· ∉ x :: s.scheduled) = (N.filter (· ∉ s.scheduled)).erase x := by
      ext y
      simp only [Finset.mem_filter, List.mem_cons, not_or, Finset.mem_erase]
      tauto
    have hpos := Finset.card_pos.mpr ⟨x, hmem⟩
    unfold weight
    dsimp only
    rw [herase, Finset.card_erase_of_mem hmem, List.map_cons, List.sum_cons, if_neg (by simp)]
    omega
  · rfl

theorem mem_schedule_stack (hx : G.leaf x = false → x ∈ N) (hstack : ∀ p ∈ s.stack, p.1 ∈ N) :
    ∀ p ∈ (G.schedule s x).stack, p.1 ∈ N := by
  intro p hp
  rw [schedule_stack, List.mem_append] at hp
  rcases hp with hp | hp
  · split at hp
    · rename_i hpushed
      rw [List.mem_singleton.mp hp]
      exact hx hpushed.1
    · cases hp
  · exact hstack p hp

theorem Step.weight_lt (hN : ∀ x ∈ N, ∀ y, G.Edge x y → G.leaf y = false → y ∈ N)
    (hstack : ∀ p ∈ s.stack, p.1 ∈ N) (h : G.Step s s') :
    weight N s' < weight N s ∧ ∀ p ∈ s'.stack, p.1 ∈ N := by
  obtain ⟨x, expanded, rest, htop, hvisit⟩ : ∃ x expanded rest, s.stack = (x, expanded) :: rest ∧
      G.visit s x expanded rest = some s' := by
    obtain ⟨htop, hvisit⟩ := h
    exact ⟨_, _, _, htop, hvisit⟩
  have hmem : x ∈ N := hstack (x, expanded) (htop ▸ List.mem_cons_self)
  have hrest : ∀ p ∈ rest, p.1 ∈ N := fun p hp => hstack p (htop ▸ List.mem_cons_of_mem _ hp)
  have hweight : weight N s = 2 * (N.filter (· ∉ s.scheduled)).card + ((if expanded then 1 else 2) +
      (rest.map fun p => if p.2 then 1 else 2).sum) := by
    rw [weight, htop, List.map_cons, List.sum_cons]
  unfold Graph.visit at hvisit
  by_cases hready : G.Ready s x
  · rw [if_pos hready] at hvisit
    cases hvisit
    refine ⟨?_, hrest⟩
    rw [hweight, weight]
    dsimp only
    split <;> omega
  · rw [if_neg hready] at hvisit
    cases expanded with
    | true =>
      rw [if_pos rfl] at hvisit
      split at hvisit
      · cases hvisit
        refine ⟨?_, hrest⟩
        rw [hweight, weight, if_pos rfl]
        dsimp only
        omega
      · cases hvisit
    | false =>
      rw [if_neg (by simp)] at hvisit
      cases hvisit
      have hleaf : G.leaf x = false := by
        cases hl : G.leaf x with
        | true => exact absurd (.inl hl) hready
        | false => rfl
      have hlo := hN x hmem _ (edge_lo hleaf)
      have hhi := hN x hmem _ (edge_hi hleaf)
      constructor
      · rw [weight_schedule hhi, weight_schedule hlo, hweight, weight, List.map_cons, List.sum_cons]
        dsimp only
        rw [if_pos rfl, if_neg (by simp)]
        omega
      · refine mem_schedule_stack hhi (mem_schedule_stack hlo fun p hp => ?_)
        rcases List.mem_cons.mp hp with rfl | hp
        · exact hmem
        · exact hrest p hp

end Graph

end PostOrder
