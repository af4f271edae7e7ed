import Mathlib.Logic.Relation
import Mathlib.Logic.Function.Basic

/-!
# A union-find whose searches leave marks

`find` climbs to the root, points everything on the way at it and marks it; `join` links two
roots, never a distinguished element below another. After a list of joins the roots stand for the
classes of the joined pairs, and the joined elements are marked (`Joined`).
-/

namespace UnionFind

open Function (update update_apply update_of_ne update_self)

variable {α : Type*}

structure State (α : Type*) where
  parent : α → α
  visited : α → Bool

variable [DecidableEq α]

def find : Nat → α → State α → Option (α × State α)
  | 0, _, _ => none
  | fuel + 1, x, s => do
    let s ←
      if s.parent x = x then some s
      else do
        let (r, s) ← find fuel (s.parent x) s
        some { s with parent := update s.parent x r }
    some (s.parent x, { s with visited := update s.visited x true })

def link (top x y : α) (s : State α) : State α :=
  if x = y then s
  else if x = top then { s with parent := update s.parent y x }
  else if y = top then { s with parent := update s.parent x y }
  else { s with parent := update s.parent y x }

def join (top : α) (fuel : Nat) (s : State α) (p : α × α) : Option (State α) := do
  let (x, s) ← find fuel p.1 s
  let (y, s) ← find fuel p.2 s
  some (link top x y s)

/-- The parents lead to the roots in at most `depth` steps, over marked elements. -/
structure Forest (s : State α) (root : α → α) (depth : α → Nat) : Prop where
  root_parent : ∀ x, root (s.parent x) = root x
  root_eq : ∀ x, s.parent x = x → root x = x
  depth_root : ∀ x, depth (root x) = 0
  depth_lt : ∀ x, s.parent x ≠ x → depth (s.parent x) < depth x
  visited : ∀ x, s.parent x ≠ x → s.visited x = true ∧ s.visited (s.parent x) = true

variable {s s' : State α} {root : α → α} {depth : α → Nat} {x y top : α} {fuel : Nat} {pairs : List (α × α)}

section

variable (h : Forest s root depth)
include h

theorem Forest.parent_root (x : α) : s.parent (root x) = root x := by
  by_contra hne
  have hlt := h.depth_lt _ hne
  rw [h.depth_root] at hlt
  exact Nat.not_lt_zero _ hlt

theorem Forest.root_root (x : α) : root (root x) = root x := h.root_eq _ (h.parent_root x)

theorem Forest.parent_eq_iff : s.parent x = x ↔ root x = x :=
  ⟨h.root_eq x, fun hx => hx ▸ h.parent_root x⟩

theorem Forest.compress (hx : s.parent x ≠ x) (hroot : s.visited (root x) = true) :
    Forest { s with parent := update s.parent x (root x) } root depth := by
  have hpos : depth (root x) < depth x := (h.depth_root x).symm ▸ Nat.zero_lt_of_lt (h.depth_lt x hx)
  refine ⟨fun y => ?_, fun y hy => ?_, h.depth_root, fun y hy => ?_, fun y hy => ?_⟩ <;> dsimp only at *
  all_goals by_cases heq : y = x
  all_goals simp only [heq, update_self, update_of_ne, ne_eq, not_false_eq_true] at *
  · exact h.root_root x
  · exact h.root_parent y
  · exact hy
  · exact h.root_eq y hy
  · exact hpos
  · exact h.depth_lt y hy
  · exact ⟨(h.visited x hx).1, hroot⟩
  · exact h.visited y hy

theorem Forest.visit (x : α) :
    Forest { s with visited := update s.visited x true } root depth := by
  refine { h with visited := fun y hy => ?_ }
  obtain ⟨hself, hparent⟩ := h.visited y hy
  simp only [update_apply, hself, hparent, ite_self, and_self]

theorem Forest.find (hfuel : depth x < fuel) :
    ∃ s', find fuel x s = some (root x, s') ∧ Forest s' root depth ∧
      s'.visited = update s.visited x true ∧ s'.visited (root x) = true := by
  induction fuel generalizing x s with
  | zero => exact absurd hfuel (Nat.not_lt_zero _)
  | succ fuel ih =>
    by_cases hx : s.parent x = x
    · have hroot := h.root_eq x hx
      refine ⟨_, ?_, h.visit x, rfl, by simp only [hroot, update_self]⟩
      simp only [UnionFind.find, hx, hroot, if_true, Option.bind_eq_bind, Option.bind_some]
    · have hlt := h.depth_lt x hx
      obtain ⟨s₁, hfind, hforest, hvisited, hroot⟩ := ih (x := s.parent x) h (by omega)
      -- the marks do not change: everything that is not a root is marked with its parent
      have hsame : s₁.visited = s.visited := by rw [hvisited, ← (h.visited x hx).2, Function.update_eq_self]
      rw [h.root_parent] at hroot
      have hne : s₁.parent x ≠ x := fun heq => hx (h.parent_eq_iff.mpr (hforest.root_eq x heq))
      refine ⟨_, ?_, (hforest.compress hne hroot).visit x, by dsimp only; rw [hsame], ?_⟩
      · simp only [UnionFind.find, hx, if_false, hfind, h.root_parent, Option.bind_eq_bind, Option.bind_some,
          update_self]
      · simp only [update_apply, hroot, ite_self]

theorem Forest.below (hx : root x = x) (hy : root y = y) (hne : x ≠ y)
    (hvx : s.visited x = true) (hvy : s.visited y = true) :
    Forest { s with parent := update s.parent y x } (fun z => if root z = y then x else root z)
      (fun z => if root z = y then depth z + 1 else depth z) := by
  have hpx : s.parent x = x := h.parent_eq_iff.mpr hx
  have hpy : s.parent y = y := h.parent_eq_iff.mpr hy
  refine ⟨fun z => ?_, fun z hz => ?_, fun z => ?_, fun z hz => ?_, fun z hz => ?_⟩
  · dsimp only
    by_cases hz : z = y
    · rw [hz, update_self, hx, hy, if_neg hne, if_pos rfl]
    · rw [update_of_ne hz, h.root_parent]
  · dsimp only at hz ⊢
    by_cases hzy : z = y
    · rw [hzy, update_self] at hz
      exact absurd hz hne
    · rw [update_of_ne hzy] at hz
      rw [h.root_eq z hz, if_neg hzy]
  · split
    · rw [hx, if_neg hne, ← hx, h.depth_root]
    · rename_i hzy
      rw [h.root_root, if_neg hzy, h.depth_root]
  · dsimp only at hz ⊢
    by_cases hzy : z = y
    · rw [hzy, update_self, hx, hy, if_neg hne, if_pos rfl, ← hx, h.depth_root]
      omega
    · rw [update_of_ne hzy] at hz ⊢
      have := h.depth_lt z hz
      rw [h.root_parent]
      split <;> omega
  · dsimp only at hz ⊢
    by_cases hzy : z = y
    · rw [hzy, update_self]
      exact ⟨hvy, hvx⟩
    · rw [update_of_ne hzy] at hz ⊢
      exact h.visited z hz

end

def Pairs (pairs : List (α × α)) (x y : α) : Prop := (x, y) ∈ pairs

structure Joined (top : α) (pairs : List (α × α)) (s : State α) (root : α → α) (depth : α → Nat) : Prop
    extends Forest s root depth where
  root_top : root top = top
  root_iff : ∀ x y, root x = root y ↔ Relation.EqvGen (Pairs pairs) x y
  depth_le : ∀ x, depth x ≤ pairs.length
  visited_iff : ∀ x, s.visited x = true ↔ ∃ p ∈ pairs, x = p.1 ∨ x = p.2

omit [DecidableEq α] in
theorem Joined.start (top : α) : Joined top [] { parent := id, visited := fun _ => false } id fun _ => 0 where
  root_parent _ := rfl
  root_eq _ _ := rfl
  depth_root _ := rfl
  depth_lt _ h := absurd rfl h
  visited _ h := absurd rfl h
  root_top := rfl
  root_iff x y := by
    refine ⟨fun h => (show x = y from h) ▸ .refl x, fun h => ?_⟩
    induction h with
    | rel _ _ h => cases h
    | refl => rfl
    | symm _ _ _ ih => exact ih.symm
    | trans _ _ _ _ _ ih ih' => exact ih.trans ih'
  depth_le _ := Nat.le_refl 0
  visited_iff := by simp

theorem eqvGen_append {a b l w : α} (hroot : ∀ x y, root x = root y ↔ Relation.EqvGen (Pairs pairs) x y)
    (hends : root a = w ∧ root b = l ∨ root a = l ∧ root b = w) (x y : α) :
    (if root x = l then w else root x) = (if root y = l then w else root y) ↔
      Relation.EqvGen (Pairs (pairs ++ [(a, b)])) x y := by
  have hmono {x y} (h : Relation.EqvGen (Pairs pairs) x y) : Relation.EqvGen (Pairs (pairs ++ [(a, b)])) x y :=
    h.mono fun _ _ hp => List.mem_append_left _ hp
  have hab : Relation.EqvGen (Pairs (pairs ++ [(a, b)])) a b := .rel _ _ (by simp [Pairs])
  -- every element is in the class of one whose old root is its new root
  have hrep (z : α) : ∃ c, Relation.EqvGen (Pairs (pairs ++ [(a, b)])) z c ∧
    root c = if root z = l then w else root z := by
    by_cases hz : root z = l
    · rw [if_pos hz]
      obtain ⟨ha, hb⟩ | ⟨ha, hb⟩ := hends
      · exact ⟨a, (hmono ((hroot z b).mp (hz.trans hb.symm))).trans _ _ _ hab.symm, ha⟩
      · exact ⟨b, (hmono ((hroot z a).mp (hz.trans ha.symm))).trans _ _ _ hab, hb⟩
    · exact ⟨z, .refl z, (if_neg hz).symm⟩
  constructor
  · intro h
    obtain ⟨c, hxc, hc⟩ := hrep x
    obtain ⟨d, hyd, hd⟩ := hrep y
    exact (hxc.trans _ _ _ (hmono ((hroot c d).mp (hc.trans (h.trans hd.symm))))).trans _ _ _ hyd.symm
  · intro h
    induction h with
    | rel x y hp =>
      rcases List.mem_append.mp hp with hp | hp
      · rw [(hroot x y).mpr (.rel _ _ hp)]
      · obtain ⟨rfl, rfl⟩ := Prod.mk.inj (List.mem_singleton.mp hp)
        obtain ⟨ha, hb⟩ | ⟨ha, hb⟩ := hends <;> simp [ha, hb]
    | refl => rfl
    | symm _ _ _ ih => exact ih.symm
    | trans _ _ _ _ _ ih ih' => exact ih.trans ih'

theorem Joined.join (h : Joined top pairs s root depth) (hfuel : pairs.length < fuel) (p : α × α) :
    ∃ s' root' depth', join top fuel s p = some s' ∧ Joined top (pairs ++ [p]) s' root' depth' := by
  have hlt (x : α) : depth x < fuel := Nat.lt_of_le_of_lt (h.depth_le x) hfuel
  obtain ⟨a, b⟩ := p
  obtain ⟨s₁, hfind₁, hforest₁, hvisited₁, hroot₁⟩ := h.toForest.find (hlt a)
  obtain ⟨s₂, hfind₂, hforest₂, hvisited₂, hroot₂⟩ := hforest₁.find (hlt b)
  have hva : s₂.visited (root a) = true := by simp only [hvisited₂, update_apply, hroot₁, ite_self]
  have hvis (x : α) : s₂.visited x = true ↔ ∃ p ∈ pairs ++ [(a, b)], x = p.1 ∨ x = p.2 := by
    rw [hvisited₂, hvisited₁]
    by_cases hxb : x = b
    · simp [hxb]
    · by_cases hxa : x = a
      · simp [hxa, update_apply]
      · simp [hxb, hxa, h.visited_iff x]
  have hle (x : α) (n : Nat) (hn : n ≤ 1) : depth x + n ≤ (pairs ++ [(a, b)]).length := by
    have := h.depth_le x
    rw [List.length_append, List.length_singleton]
    omega
  -- the root `l` goes below the root `w`
  have hbelow {w l : α} (hends : root a = w ∧ root b = l ∨ root a = l ∧ root b = w) (hne : w ≠ l) (htop : l ≠ top) :
      Joined top (pairs ++ [(a, b)]) { s₂ with parent := update s₂.parent l w }
        (fun z => if root z = l then w else root z) (fun z => if root z = l then depth z + 1 else depth z) := by
    have hw : root w = w ∧ root l = l ∧ s₂.visited w = true ∧ s₂.visited l = true := by
      obtain ⟨rfl, rfl⟩ | ⟨rfl, rfl⟩ := hends <;> simp [h.root_root, hva, hroot₂]
    refine ⟨hforest₂.below hw.1 hw.2.1 hne hw.2.2.1 hw.2.2.2, ?_, eqvGen_append h.root_iff hends, fun x => ?_, hvis⟩
    · rw [h.root_top, if_neg (Ne.symm htop)]
    · split
      · exact hle x 1 (Nat.le_refl 1)
      · exact hle x 0 (Nat.zero_le 1)
  simp only [UnionFind.join, hfind₁, hfind₂, Option.bind_eq_bind, Option.bind_some, link]
  by_cases heq : root a = root b
  · refine ⟨s₂, root, depth, by rw [if_pos heq], hforest₂, h.root_top, fun x y => ?_,
      fun x => hle x 0 (Nat.zero_le 1), hvis⟩
    rw [← eqvGen_append h.root_iff (.inl ⟨rfl, heq.symm⟩) x y]
    split <;> split <;> simp_all
  rw [if_neg heq]
  by_cases hatop : root a = top
  · rw [if_pos hatop]
    exact ⟨_, _, _, rfl, hbelow (.inl ⟨rfl, rfl⟩) heq fun hb => heq (hatop.trans hb.symm)⟩
  rw [if_neg hatop]
  by_cases hbtop : root b = top
  · rw [if_pos hbtop]
    exact ⟨_, _, _, rfl, hbelow (.inr ⟨rfl, rfl⟩) (Ne.symm heq) hatop⟩
  · rw [if_neg hbtop]
    exact ⟨_, _, _, rfl, hbelow (.inl ⟨rfl, rfl⟩) heq hbtop⟩

theorem Joined.joins (more : List (α × α)) (h : Joined top pairs s root depth) (hfuel : (pairs ++ more).length < fuel) :
    ∃ s' root' depth', more.foldlM (UnionFind.join top fuel) s = some s' ∧
      Joined top (pairs ++ more) s' root' depth' := by
  induction more generalizing pairs s root depth with
  | nil => exact ⟨s, root, depth, rfl, by rwa [List.append_nil]⟩
  | cons p more ih =>
    have hlt : pairs.length < fuel := by rw [List.length_append] at hfuel; omega
    obtain ⟨s₁, root₁, depth₁, hjoin, h₁⟩ := h.join hlt p
    rw [List.append_cons] at hfuel ⊢
    obtain ⟨s', root', depth', hrest, h'⟩ := ih h₁ hfuel
    exact ⟨s', root', depth', by rw [List.foldlM_cons, hjoin]; exact hrest, h'⟩

theorem Joined.visited_root (h : Joined top pairs s root depth) (hx : s.visited x = true) :
    s.visited (root x) = true := by
  obtain ⟨s', -, -, hvisited, hroot⟩ := h.toForest.find (Nat.lt_succ_self (depth x))
  rw [hvisited, update_apply] at hroot
  split at hroot
  · rename_i heq
    rwa [heq]
  · exact hroot

end UnionFind
