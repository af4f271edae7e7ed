import PhyEngine.Netlist.Basic

/-!
# Pins, nodes and counters

What the writes of `Netlist.Basic` do to one node, and the two sides of the pin/node
relation: `Points` is read off the pins of the models, `node?` off the nodes. A netlist
is `Consistent` when both agree and the analog counters count the analog pins.
-/

namespace PhyEngine.Netlist

variable (nl : Netlist)

@[simp] theorem node?_modifyNode (n m : NodeId) (f : Node → Node) :
    (nl.modifyNode n f).node? m = if n = m then (nl.node? m).map f else nl.node? m := by
  cases n with
  | ground =>
    cases m with
    | ground => simp [modifyNode, node?]
    | node j => simp [modifyNode, node?]
  | node i =>
    cases m with
    | ground => simp [modifyNode, node?]
    | node j =>
      by_cases h : i = j
      · simp [modifyNode, node?, h]
      · simp [modifyNode, node?, h]

@[simp] theorem models_modifyNode (n : NodeId) (f : Node → Node) :
    (nl.modifyNode n f).models = nl.models := by cases n <;> rfl

@[simp] theorem nextId_modifyNode (n : NodeId) (f : Node → Node) :
    (nl.modifyNode n f).nextId = nl.nextId := by cases n <;> rfl

@[simp] theorem length_nodes_modifyNode (n : NodeId) (f : Node → Node) :
    (nl.modifyNode n f).nodes.length = nl.nodes.length := by cases n <;> simp [modifyNode]

theorem isSome_node? (n : NodeId) :
    (nl.node? n).isSome ↔ ∀ i, n = .node i → i < nl.nodes.length := by
  cases n with
  | ground => simp [node?]
  | node i => simp [node?]

theorem isSome_node?_congr {a b : Netlist} (h : a.nodes.length = b.nodes.length) (n : NodeId) :
    (a.node? n).isSome ↔ (b.node? n).isSome := by
  rw [isSome_node?, isSome_node?, h]

variable (w : Nat → NodeId → Netlist → Netlist)

@[simp] theorem visitPins_some_cons (n : NodeId)
    (ps : List (Option NodeId)) (s : Nat) (nl : Netlist) :
    visitPins w (some n :: ps) s nl = visitPins w ps (s + 1) (w s n nl) := rfl

theorem visitPins_induction {P : Netlist → Prop}
    (pins : List (Option NodeId)) (s : Nat) (nl : Netlist) (h0 : P nl)
    (hw : ∀ k n nl, P nl → P (w k n nl)) : P (visitPins w pins s nl) := by
  induction pins generalizing s nl with
  | nil => exact h0
  | cons p ps ih =>
    cases p with
    | none => exact ih _ _ h0
    | some n => exact ih _ _ (hw s n nl h0)

/-- What a visit with the write `eff` leaves of one node: `eff` at each pin that is on it. -/
def visited (n : NodeId) (eff : Nat → Node → Node) (pins : List (Option NodeId)) (s : Nat)
    (nd : Node) : Node :=
  (pins.zipIdx s).foldl (fun nd pk => if pk.1 = some n then eff pk.2 nd else nd) nd

theorem visited_cons (n : NodeId) (eff : Nat → Node → Node) (p : Option NodeId)
    (ps : List (Option NodeId)) (s : Nat) (nd : Node) :
    visited n eff (p :: ps) s nd =
      visited n eff ps (s + 1) (if p = some n then eff s nd else nd) := by
  simp [visited, List.zipIdx_cons]

theorem node?_visitPins (eff : Nat → Node → Node)
    (n : NodeId)
    (hw : ∀ k m nl, (w k m nl).node? n = if m = n then (nl.node? n).map (eff k) else nl.node? n)
    (pins : List (Option NodeId)) (s : Nat) (nl : Netlist) :
    (visitPins w pins s nl).node? n = (nl.node? n).map (visited n eff pins s) := by
  induction pins generalizing s nl with
  | nil =>
    change nl.node? n = (nl.node? n).map id
    rw [Option.map_id]
    rfl
  | cons p ps ih =>
    cases p with
    | none => exact ih _ _
    | some m =>
      rw [visitPins_some_cons, ih, hw]
      have hv : visited n eff (some m :: ps) s =
          fun nd => visited n eff ps (s + 1) (if m = n then eff s nd else nd) := by
        funext nd
        rw [visited_cons]
        simp only [Option.some.injEq]
      rw [hv]
      by_cases hm : m = n
      · simp [hm, Option.map_map, Function.comp_def]
      · simp [hm]

/-! ### Counters and pin sets after a visit -/

def detachEff (id : Nat) (analog : Bool) (k : Nat) (nd : Node) : Node :=
  { nd with pins := nd.pins.erase ⟨id, k⟩
            numOfAnalogNode := if analog then nd.numOfAnalogNode - 1 else nd.numOfAnalogNode }

def attachEff (id : Nat) (analog : Bool) (k : Nat) (nd : Node) : Node :=
  { nd with pins := insert ⟨id, k⟩ nd.pins
            numOfAnalogNode := if analog then nd.numOfAnalogNode + 1 else nd.numOfAnalogNode }

theorem node?_detachPin (id k : Nat) (analog : Bool) (m n : NodeId) :
    (nl.detachPin ⟨id, k⟩ analog m).node? n =
      if m = n then (nl.node? n).map (detachEff id analog k) else nl.node? n :=
  node?_modifyNode nl m n _

theorem node?_attachPin (id k : Nat) (analog : Bool) (m n : NodeId) :
    (nl.attachPin ⟨id, k⟩ analog m).node? n =
      if m = n then (nl.node? n).map (attachEff id analog k) else nl.node? n :=
  node?_modifyNode nl m n _

def analogOn (analog : Bool) (pins : List (Option NodeId)) (n : NodeId) : Nat :=
  if analog then pins.count (some n) else 0

theorem analogOn_cons (analog : Bool) (p : Option NodeId) (ps : List (Option NodeId)) (n : NodeId) :
    analogOn analog (p :: ps) n =
      analogOn analog ps n + if p = some n then (if analog then 1 else 0) else 0 := by
  cases analog with
  | false => simp [analogOn]
  | true => simp [analogOn, List.count_cons]

section

variable (n : NodeId) (id : Nat) (analog : Bool) (pins : List (Option NodeId)) (s : Nat) (nd : Node)

include n id analog pins s nd

theorem visited_detach_num :
    (visited n (detachEff id analog) pins s nd).numOfAnalogNode =
      nd.numOfAnalogNode - UInt64.ofNat (analogOn analog pins n) := by
  induction pins generalizing s nd with
  | nil => cases analog <;> simp [visited, analogOn]
  | cons p ps ih =>
    rw [visited_cons, ih, analogOn_cons]
    by_cases hp : p = some n
    · cases analog with
      | false => simp [hp, detachEff]
      | true =>
        simp only [hp, detachEff, if_true, UInt64.ofNat_add]
        grind
    · simp [hp]

theorem visited_detach_pins : (visited n (detachEff id analog) pins s nd).pins ⊆ nd.pins := by
  induction pins generalizing s nd with
  | nil => exact Finset.Subset.refl _
  | cons p ps ih =>
    rw [visited_cons]
    refine (ih _ _).trans ?_
    split
    · exact Finset.erase_subset _ _
    · exact Finset.Subset.refl _

theorem visited_attach_num :
    (visited n (attachEff id analog) pins s nd).numOfAnalogNode =
      nd.numOfAnalogNode + UInt64.ofNat (analogOn analog pins n) := by
  induction pins generalizing s nd with
  | nil => cases analog <;> simp [visited, analogOn]
  | cons p ps ih =>
    rw [visited_cons, ih, analogOn_cons]
    by_cases hp : p = some n
    · cases analog with
      | false => simp [hp, attachEff]
      | true =>
        simp only [hp, attachEff, if_true, UInt64.ofNat_add]
        grind
    · simp [hp]

end

theorem mem_visited_attach {n : NodeId} {id : Nat} {analog : Bool} {pins : List (Option NodeId)}
    {s : Nat} {nd : Node} {p : PinRef} :
    p ∈ (visited n (attachEff id analog) pins s nd).pins ↔
      p ∈ nd.pins ∨ (p.id = id ∧ (some n, p.k) ∈ pins.zipIdx s) := by
  induction pins generalizing s nd with
  | nil => simp [visited]
  | cons q qs ih =>
    rw [visited_cons, ih, List.zipIdx_cons, List.mem_cons]
    by_cases hq : q = some n
    · simp only [hq, if_true, attachEff, Finset.mem_insert, Prod.mk.injEq, true_and]
      constructor
      · rintro ((rfl | h) | ⟨hid, h⟩)
        · exact Or.inr ⟨rfl, Or.inl rfl⟩
        · exact Or.inl h
        · exact Or.inr ⟨hid, Or.inr h⟩
      · rintro (h | ⟨hid, hk | h⟩)
        · exact Or.inl (Or.inr h)
        · exact Or.inl (Or.inl (by cases p; simp_all))
        · exact Or.inr ⟨hid, h⟩
    · have hne : ¬ (some n, p.k) = (q, s) := fun h => hq (congrArg Prod.fst h).symm
      simp [hq, hne]

def Points (p : PinRef) (n : NodeId) : Prop :=
  ∃ b ∈ nl.bases, b.id = p.id ∧ b.model.pins[p.k]? = some (some n)

def analogPins (n : NodeId) : Nat :=
  (nl.normals.map fun m => analogOn m.isAnalog m.pins n).sum

def PinsExact : Prop :=
  ∀ n nd, nl.node? n = some nd → ∀ p, p ∈ nd.pins ↔ nl.Points p n

def PinsValid : Prop :=
  ∀ m ∈ nl.normals, ∀ n, some n ∈ m.pins → (nl.node? n).isSome

structure Consistent (nl : Netlist) : Prop where
  pins_exact : nl.PinsExact
  pins_valid : nl.PinsValid
  num_analog : ∀ n nd, nl.node? n = some nd → nd.numOfAnalogNode = UInt64.ofNat (nl.analogPins n)

end PhyEngine.Netlist
