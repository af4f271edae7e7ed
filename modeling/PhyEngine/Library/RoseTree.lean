import Mathlib.Data.List.Forall2

/-!
# Rose trees

Finitely branching trees whose nodes carry a value, with the two ways a pass may go over
them: every node on its own (`map`), or every node after its parent (`topDown`). `Rel`
compares two trees of one shape node by node.
-/

inductive RoseTree (α : Type) where
  | node (value : α) (children : List (RoseTree α))

namespace RoseTree

open List

variable {α β γ : Type}

def value : RoseTree α → α
  | node a _ => a

def children : RoseTree α → List (RoseTree α)
  | node _ cs => cs

@[simp] theorem value_node (a : α) (cs : List (RoseTree α)) : (node a cs).value = a := rfl

@[simp] theorem children_node (a : α) (cs : List (RoseTree α)) : (node a cs).children = cs := rfl

def withValue (t : RoseTree α) (a : α) : RoseTree α := node a t.children

@[simp] theorem withValue_node (a b : α) (cs : List (RoseTree α)) : (node a cs).withValue b = node b cs := rfl

mutual

variable {P : RoseTree α → Prop}

@[elab_as_elim, induction_eliminator]
theorem induction (node : ∀ a cs, (∀ c ∈ cs, P c) → P (.node a cs)) (t : RoseTree α) :
    P t := by
  match t with
  | .node a cs => exact node a cs (induction_list node cs)

theorem induction_list (node : ∀ a cs, (∀ c ∈ cs, P c) → P (.node a cs))
    (cs : List (RoseTree α)) : ∀ c ∈ cs, P c := by
  match cs with
  | [] => exact fun _ h => by cases h
  | c :: cs =>
    intro d hd
    rcases mem_cons.mp hd with hd | hd
    · rw [hd]
      exact induction node c
    · exact induction_list node cs d hd

end

mutual

/-- The number of nodes on a longest path from the root. -/
def height : RoseTree α → Nat
  | node _ cs => heightOfList cs + 1

def heightOfList : List (RoseTree α) → Nat
  | [] => 0
  | c :: cs => max c.height (heightOfList cs)

end

variable {cs : List (RoseTree α)} {c : RoseTree α}

theorem height_le_heightOfList (h : c ∈ cs) :
    c.height ≤ heightOfList cs := by
  induction cs with
  | nil => cases h
  | cons d cs ih =>
    rw [heightOfList]
    rcases mem_cons.mp h with rfl | h
    · exact Nat.le_max_left _ _
    · exact Nat.le_trans (ih h) (Nat.le_max_right _ _)

theorem height_lt_of_mem {a : α} (h : c ∈ cs) :
    c.height < (node a cs).height := by
  have hle := height_le_heightOfList h
  rw [height]
  omega

@[simp] theorem height_withValue (t : RoseTree α) (a : α) : (t.withValue a).height = t.height := by
  cases t
  rfl

variable {ds : List (RoseTree β)}

theorem heightOfList_congr
    (hlen : ds.length = cs.length)
    (h : ∀ (j : Nat) c d, cs[j]? = some c → ds[j]? = some d → d.height = c.height) :
    heightOfList ds = heightOfList cs := by
  induction cs generalizing ds with
  | nil => rw [length_eq_zero_iff.mp hlen]; rfl
  | cons c cs ih =>
    obtain ⟨d, ds, rfl⟩ := exists_cons_of_length_eq_add_one hlen
    have hrest := ih (by simpa using hlen) fun j c' d' hc hd => h (j + 1) c' d' hc hd
    rw [heightOfList, heightOfList, h 0 c d rfl rfl, hrest]

theorem height_node_congr {a : α} {b : β}
    (hlen : ds.length = cs.length)
    (h : ∀ (j : Nat) c d, cs[j]? = some c → ds[j]? = some d → d.height = c.height) :
    (node b ds).height = (node a cs).height := by
  rw [height, height, heightOfList_congr hlen h]

mutual

def map (f : α → β) : RoseTree α → RoseTree β
  | node a cs => node (f a) (mapList f cs)

def mapList (f : α → β) : List (RoseTree α) → List (RoseTree β)
  | [] => []
  | c :: cs => c.map f :: mapList f cs

end

theorem mapList_eq (f : α → β) (cs : List (RoseTree α)) : mapList f cs = cs.map (map f) := by
  induction cs with
  | nil => rfl
  | cons c cs ih => rw [mapList, ih, map_cons]

@[simp] theorem map_node (f : α → β) (a : α) (cs : List (RoseTree α)) :
    (node a cs).map f = node (f a) (cs.map (map f)) := by
  rw [map, mapList_eq]

mutual

def topDown (visit : Option β → α → β) (parent : Option β) : RoseTree α → RoseTree β
  | node a cs => node (visit parent a) (topDownList visit (some (visit parent a)) cs)

def topDownList (visit : Option β → α → β) (parent : Option β) : List (RoseTree α) → List (RoseTree β)
  | [] => []
  | c :: cs => c.topDown visit parent :: topDownList visit parent cs

end

variable (visit : Option β → α → β)

variable (parent : Option β)

theorem topDownList_eq (cs : List (RoseTree α)) :
    topDownList visit parent cs = cs.map (topDown visit parent) := by
  induction cs with
  | nil => rfl
  | cons c cs ih => rw [topDownList, ih, map_cons]

@[simp] theorem topDown_node (a : α)
    (cs : List (RoseTree α)) :
    (node a cs).topDown visit parent =
      node (visit parent a) (cs.map (topDown visit (some (visit parent a)))) := by
  rw [topDown, topDownList_eq]

theorem height_map (f : α → β) (t : RoseTree α) : (t.map f).height = t.height := by
  induction t with
  | node a cs ih =>
    rw [map_node]
    refine height_node_congr (by simp) fun j c d hc hd => ?_
    rw [getElem?_map, hc] at hd
    cases hd
    exact ih c (List.mem_of_getElem? hc)

theorem height_topDown (t : RoseTree α) :
    (t.topDown visit parent).height = t.height := by
  induction t generalizing parent with
  | node a cs ih =>
    rw [topDown_node]
    refine height_node_congr (by simp) fun j c d hc hd => ?_
    rw [getElem?_map, hc] at hd
    cases hd
    exact ih c (List.mem_of_getElem? hc) _

def get? : List Nat → RoseTree α → Option α
  | [], t => some t.value
  | j :: p, t => t.children[j]?.bind (get? p)

theorem get?_map (f : α → β) (p : List Nat) (t : RoseTree α) : (t.map f).get? p = (t.get? p).map f := by
  induction p generalizing t with
  | nil =>
    cases t
    simp [get?]
  | cons j p ih =>
    obtain ⟨a, cs⟩ := t
    cases hj : cs[j]? with
    | none => simp [get?, hj]
    | some c => simp [get?, hj, ih]

variable {p : List Nat}

theorem get?_topDown {visit : Option β → α → β} {parent : Option β} {t : RoseTree α} {b : β}
    (h : (t.topDown visit parent).get? p = some b) :
    ∃ parent' a, t.get? p = some a ∧ b = visit parent' a := by
  induction p generalizing t parent with
  | nil =>
    obtain ⟨a, cs⟩ := t
    exact ⟨parent, a, rfl, by simpa [get?] using h.symm⟩
  | cons j p ih =>
    obtain ⟨a, cs⟩ := t
    cases hj : cs[j]? with
    | none => simp [get?, hj] at h
    | some c =>
      simp only [get?, topDown_node, children_node, getElem?_map, hj, Option.map_some,
        Option.bind_some] at h ⊢
      exact ih h

def subtree? : List Nat → RoseTree α → Option (RoseTree α)
  | [], t => some t
  | j :: p, t => t.children[j]?.bind (subtree? p)

theorem subtree?_map {f : α → β} {t u : RoseTree α} (h : t.subtree? p = some u) :
    (t.map f).subtree? p = some (u.map f) := by
  induction p generalizing t with
  | nil =>
    cases h
    rfl
  | cons j p ih =>
    obtain ⟨a, cs⟩ := t
    obtain ⟨c, hc, hu⟩ := Option.bind_eq_some_iff.mp h
    have hc : cs[j]? = some c := hc
    simp only [subtree?, map_node, children_node, getElem?_map, hc, Option.map_some, Option.bind_some]
    exact ih hu

theorem subtree?_topDown {visit : Option β → α → β} {parent : Option β} {p : List Nat} {t u : RoseTree α}
    (h : t.subtree? p = some u) : ∃ parent', (t.topDown visit parent).subtree? p = some (u.topDown visit parent') := by
  induction p generalizing t parent with
  | nil =>
    cases h
    exact ⟨parent, rfl⟩
  | cons j p ih =>
    obtain ⟨a, cs⟩ := t
    obtain ⟨c, hc, hu⟩ := Option.bind_eq_some_iff.mp h
    have hc : cs[j]? = some c := hc
    simp only [subtree?, topDown_node, children_node, getElem?_map, hc, Option.map_some, Option.bind_some]
    exact ih hu

theorem of_subtree? {P : List Nat → RoseTree α → Prop}
    (hP : ∀ p t j c, P p t → t.children[j]? = some c → P (p ++ [j]) c) {q : List Nat} {t u : RoseTree α} (h : P p t)
    (hu : t.subtree? q = some u) : P (p ++ q) u := by
  induction q generalizing p t with
  | nil =>
    cases hu
    rw [append_nil]
    exact h
  | cons j q ih =>
    obtain ⟨c, hc, hu⟩ := Option.bind_eq_some_iff.mp hu
    have hstep := ih (hP p t j c h hc) hu
    rw [append_assoc, singleton_append] at hstep
    exact hstep

/-- Two trees of one shape whose nodes are related. -/
inductive Rel (R : α → β → Prop) : RoseTree α → RoseTree β → Prop where
  | node {a : α} {b : β} {cs : List (RoseTree α)} {ds : List (RoseTree β)} (value : R a b)
      (length : ds.length = cs.length)
      (children : ∀ (j : Nat) c d, cs[j]? = some c → ds[j]? = some d → Rel R c d) :
      Rel R (.node a cs) (.node b ds)

namespace Rel

variable {R : α → β → Prop} {t : RoseTree α} {u : RoseTree β}

theorem refl {R : α → α → Prop} (h : ∀ a, R a a) (t : RoseTree α) : Rel R t t := by
  induction t with
  | node a cs ih =>
    refine .node (h a) rfl fun j c d hc hd => ?_
    cases hc.symm.trans hd
    exact ih c (List.mem_of_getElem? hc)

theorem trans {S : β → γ → Prop} {Q : α → γ → Prop} {v : RoseTree γ} (h : Rel R t u)
    (h' : Rel S u v) (hQ : ∀ a b c, R a b → S b c → Q a c) : Rel Q t v := by
  induction h generalizing v with
  | @node a b cs ds value length children ih =>
    cases h' with
    | @node _ c _ es value' length' children' =>
      refine .node (hQ a b c value value') (length'.trans length) fun j c e hc he => ?_
      have hj : j < ds.length := by
        rw [length]
        exact (List.getElem?_eq_some_iff.mp hc).1
      have hd : ds[j]? = some ds[j] := getElem?_eq_getElem hj
      exact ih j c _ hc hd (children' j _ e hd he)

theorem symm {S : β → α → Prop} (h : Rel R t u) (hS : ∀ a b, R a b → S b a) : Rel S u t := by
  induction h with
  | node value length children ih =>
    exact .node (hS _ _ value) length.symm fun j d c hd hc => ih j c d hc hd

theorem map_right {f : α → β} (h : ∀ a, R a (f a)) (t : RoseTree α) : Rel R t (t.map f) := by
  induction t with
  | node a cs ih =>
    rw [map_node]
    refine .node (h a) (by simp) fun j c d hc hd => ?_
    rw [getElem?_map, hc] at hd
    cases hd
    exact ih c (List.mem_of_getElem? hc)

theorem topDown_right {visit : Option β → α → β} (h : ∀ parent a, R a (visit parent a))
    (t : RoseTree α) (parent : Option β) : Rel R t (t.topDown visit parent) := by
  induction t generalizing parent with
  | node a cs ih =>
    rw [topDown_node]
    refine .node (h parent a) (by simp) fun j c d hc hd => ?_
    rw [getElem?_map, hc] at hd
    cases hd
    exact ih c (List.mem_of_getElem? hc) _

theorem value (h : Rel R t u) : R t.value u.value := by
  obtain ⟨value, _, _⟩ := h
  exact value

theorem height (h : Rel R t u) : u.height = t.height := by
  induction h with
  | node value length children ih => exact height_node_congr length ih

theorem exists_child {a : α} {b : β} {cs : List (RoseTree α)} {ds : List (RoseTree β)}
    (h : Rel R (.node a cs) (.node b ds)) {j : Nat} {d : RoseTree β} (hd : ds[j]? = some d) :
    ∃ c, cs[j]? = some c ∧ Rel R c d := by
  obtain ⟨_, length, children⟩ := h
  have hj : j < cs.length := by
    rw [← length]
    exact (List.getElem?_eq_some_iff.mp hd).1
  exact ⟨cs[j], getElem?_eq_getElem hj, children j _ d (getElem?_eq_getElem hj) hd⟩

theorem exists_get? {a : α} (h : Rel R t u) (ha : t.get? p = some a) :
    ∃ b, u.get? p = some b ∧ R a b := by
  induction p generalizing t u with
  | nil =>
    cases ha
    exact ⟨u.value, rfl, h.value⟩
  | cons j p ih =>
    obtain ⟨a₀, cs⟩ := t
    obtain ⟨c, hc, ha⟩ := Option.bind_eq_some_iff.mp ha
    cases h with
    | @node _ b₀ _ ds value length children =>
      have hj : j < ds.length := by
        rw [length]
        exact (List.getElem?_eq_some_iff.mp hc).1
      have hd : ds[j]? = some ds[j] := getElem?_eq_getElem hj
      obtain ⟨b, hb, hab⟩ := ih (children j c _ hc hd) ha
      exact ⟨b, by simp [RoseTree.get?, hd, hb], hab⟩

end Rel

end RoseTree
