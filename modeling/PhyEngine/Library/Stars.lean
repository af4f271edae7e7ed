import Mathlib.Logic.Relation
import Mathlib.Data.List.Basic

/-!
# Nets as stars

A net is a list of points. A star joins the first point of a list to each of the others.
What a list of wires joins is the equivalence they generate (`Joined`). The stars of
nets join two points exactly when they are of one net (`joined_stars_iff`).
-/

namespace Stars

variable {α β γ : Type*}

def star : List α → List (α × α)
  | [] => []
  | root :: rest => rest.map (Prod.mk root)

def Joined (wires : List (α × α)) : α → α → Prop := Relation.EqvGen fun a b => (a, b) ∈ wires

theorem star_map (f : α → β) (l : List α) : star (l.map f) = (star l).map (Prod.map f f) := by
  cases l with
  | nil => rfl
  | cons root rest =>
    rw [List.map_cons, star, star, List.map_map, List.map_map]
    rfl

variable {l : List α}

theorem mem_of_mem_star {w : α × α} (h : w ∈ star l) : w.1 ∈ l ∧ w.2 ∈ l := by
  cases l with
  | nil => cases h
  | cons root rest =>
    obtain ⟨b, hb, rfl⟩ := List.mem_map.mp h
    exact ⟨List.mem_cons_self, List.mem_cons_of_mem root hb⟩

variable {a : α}

theorem mem_star_iff (hl : l.Nodup) (ha : a ∈ l) :
    (∃ w ∈ star l, w.1 = a ∨ w.2 = a) ↔ ∃ b ∈ l, b ≠ a := by
  cases l with
  | nil => cases ha
  | cons root rest =>
    obtain ⟨hroot, _⟩ := List.nodup_cons.mp hl
    constructor
    · rintro ⟨w, hw, hend⟩
      obtain ⟨b, hb, rfl⟩ := List.mem_map.mp hw
      have hne : b ≠ root := fun h => hroot (h ▸ hb)
      rcases hend with rfl | rfl
      · exact ⟨b, List.mem_cons_of_mem root hb, hne⟩
      · exact ⟨root, List.mem_cons_self, hne.symm⟩
    · rintro ⟨b, hb, hne⟩
      by_cases h : a = root
      · have hrest : b ∈ rest := (List.mem_cons.mp hb).resolve_left (h ▸ hne)
        exact ⟨(root, b), List.mem_map_of_mem hrest, .inl h.symm⟩
      · have hrest : a ∈ rest := (List.mem_cons.mp ha).resolve_left h
        exact ⟨(root, a), List.mem_map_of_mem hrest, .inr rfl⟩

variable {b : α}

theorem Joined.of_star {wires : List (α × α)} (hsub : star l ⊆ wires) (ha : a ∈ l) (hb : b ∈ l) :
    Joined wires a b := by
  cases l with
  | nil => cases ha
  | cons root rest =>
    -- Both points are joined to the root.
    have hto {c : α} (hc : c ∈ root :: rest) : Joined wires root c := by
      rcases List.mem_cons.mp hc with rfl | hc
      · exact .refl c
      · exact .rel _ _ (hsub (List.mem_map_of_mem hc))
    exact .trans _ _ _ (.symm _ _ (hto ha)) (hto hb)

variable {lab : α → β}

theorem Joined.label_eq {wires : List (α × α)} (h : ∀ w ∈ wires, lab w.1 = lab w.2)
    (hab : Joined wires a b) : lab a = lab b := by
  induction hab with
  | rel a b hw => exact h (a, b) hw
  | refl a => rfl
  | symm a b _ ih => exact ih.symm
  | trans a b c _ _ ih ih' => exact ih.trans ih'

theorem joined_stars_iff {nets : List (List α)} (hsame : ∀ net ∈ nets, ∀ a ∈ net, ∀ b ∈ net, lab a = lab b)
    (hcover : lab a = lab b → ∃ net ∈ nets, a ∈ net ∧ b ∈ net) :
    Joined (nets.flatMap star) a b ↔ lab a = lab b := by
  constructor
  · intro h
    refine h.label_eq fun w hw => ?_
    obtain ⟨net, hnet, hw⟩ := List.mem_flatMap.mp hw
    obtain ⟨h₁, h₂⟩ := mem_of_mem_star hw
    exact hsame net hnet _ h₁ _ h₂
  · intro h
    obtain ⟨net, hnet, ha, hb⟩ := hcover h
    exact Joined.of_star (fun w hw => List.mem_flatMap.mpr ⟨net, hnet, hw⟩) ha hb

end Stars
