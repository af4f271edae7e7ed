import PhyEngine.Netlist.Operations

/-!
# What a copy of a netlist keeps

Copies rebuild nodes, slots and pin sets, but not the counters `num_of_analog_node` and
`num_of_null_model`. A copy is complete if these are 0 in the original and no `VERILOG_MODULE`
loses connections (`Model.clone`).
-/

namespace PhyEngine.Netlist

open List
open Option (isSome map_some some)

def blockNumOfModel (b : ModelBlock) : Nat := b.slots.length - b.numOfNullModel

def getNumOfModel (check : Bool) (nl : Netlist) : Nat :=
  if check then (nl.models.map fun b => b.slots.countP isSome).sum
  else (nl.models.map blockNumOfModel).sum

/-- The loops that the copy constructor and `operator=` share, for objects from address
`start` on. -/
def copyFrom (start : Nat) (other : Netlist) : Netlist :=
  emplaceCopies false { nodes := other.nodes.map fun n => { state := n.state }, nextId := start }
    (other.slots.map (Option.map fun b => b.model.clone))

/-- `operator=` from another netlist. The old models and nodes are destroyed and the ground
node is reset first. -/
def assign (this other : Netlist) : Netlist := copyFrom this.nextId other

theorem copy_eq_copyFrom (nl : Netlist) : nl.copy = nl.copyFrom 0 := rfl

/-- A complete copy: slot by slot the same models on the same nodes, exact pin sets, equal
counters. -/
structure IsCopy (nl nl' : Netlist) : Prop where
  nodes : nl'.nodes.length = nl.nodes.length
  slots : nl'.slots.map (Option.map ModelBase.model) = nl.slots.map (Option.map ModelBase.model)
  pins_exact : nl'.PinsExact
  num_analog : ∀ n, (nl'.node? n).map Node.numOfAnalogNode = (nl.node? n).map Node.numOfAnalogNode
  num_of_model : nl'.getNumOfModel false = nl'.getNumOfModel true

theorem visited_attach_num_false (n : NodeId) (id : Nat) (pins : List (Option NodeId)) (s : Nat) (nd : Node) :
    (visited n (attachEff id false) pins s nd).numOfAnalogNode = nd.numOfAnalogNode := by
  rw [visited_attach_num]
  simp [analogOn]

theorem num_emplaceCopies_false (nl : Netlist) (ss : List (Option Model)) (n : NodeId) :
    ((nl.emplaceCopies false ss).node? n).map Node.numOfAnalogNode = (nl.node? n).map Node.numOfAnalogNode := by
  induction ss generalizing nl with
  | nil => rfl
  | cons s ss ih =>
    refine (ih (nl.emplaceCopy false s)).trans ?_
    cases s with
    | none => rw [node?_emplaceCopy_none]
    | some m =>
      rw [node?_emplaceCopy_some, Option.map_map]
      congr 1
      funext nd
      exact visited_attach_num_false n nl.nextId m.pins 0 nd

def NoNullCount (nl : Netlist) : Prop := ∀ b ∈ nl.models, b.numOfNullModel = 0

theorem noNullCount_emplaceSlot {blocks : List ModelBlock} (h : ∀ b ∈ blocks, b.numOfNullModel = 0)
    (s : Option ModelBase) : ∀ b ∈ emplaceSlot blocks s, b.numOfNullModel = 0 := by
  unfold emplaceSlot
  cases hl : blocks.getLast? with
  | none => simp
  | some b =>
    have hb : b ∈ blocks := mem_of_getLast? hl
    dsimp only
    intro c hc
    split_ifs at hc
    · rcases mem_append.mp hc with hc | hc
      · exact h c hc
      · obtain rfl := mem_singleton.mp hc
        rfl
    · rcases mem_append.mp hc with hc | hc
      · exact h c (mem_of_mem_dropLast hc)
      · obtain rfl := mem_singleton.mp hc
        exact h b hb

theorem noNullCount_emplaceCopies {nl : Netlist} (h : NoNullCount nl) (count : Bool) (ss : List (Option Model)) :
    NoNullCount (nl.emplaceCopies count ss) := by
  induction ss generalizing nl with
  | nil => exact h
  | cons s ss ih =>
    refine ih ?_
    cases s with
    | none => exact noNullCount_emplaceSlot h none
    | some m =>
      refine visitPins_induction (P := NoNullCount) _ m.pins 0 _ (noNullCount_emplaceSlot h _) ?_
      intro k n x hx
      rw [NoNullCount, attachPin, models_modifyNode]
      exact hx

theorem NoNullCount.getNumOfModel {nl : Netlist} (h : NoNullCount nl) : nl.getNumOfModel false = nl.slots.length := by
  rw [Netlist.getNumOfModel, if_neg Bool.false_ne_true, Netlist.slots, length_flatMap]
  congr 1
  refine map_congr_left fun b hb => ?_
  rw [blockNumOfModel, h b hb, Nat.sub_zero]

theorem getNumOfModel_true (nl : Netlist) : nl.getNumOfModel true = nl.slots.countP isSome := by
  rw [getNumOfModel, if_pos rfl, slots, countP_flatMap]
  rfl

section

variable (start : Nat) (nl : Netlist)

include start nl

theorem slots_copyFrom :
    (nl.copyFrom start).slots.map (Option.map ModelBase.model) =
      nl.slots.map (Option.map fun b => b.model.clone) := by
  rw [copyFrom, slots_emplaceCopies]
  simp [slots]

theorem pinsExact_copyFrom : (nl.copyFrom start).PinsExact := by
  refine pinsExact_emplaceCopies false _ ?_
  intro n nd hnd p
  refine iff_of_false ?_ (by simp [Points, bases, slots, reduceOption])
  cases n with
  | ground =>
    obtain rfl : ({} : Node) = nd := by simpa [node?] using hnd
    simp
  | node i =>
    simp only [node?, getElem?_map, Option.map_eq_some_iff] at hnd
    obtain ⟨nd₀, -, rfl⟩ := hnd
    simp

theorem num_copyFrom (n : NodeId) :
    ((nl.copyFrom start).node? n).map Node.numOfAnalogNode = (nl.node? n).map fun _ => 0 := by
  rw [copyFrom, num_emplaceCopies_false]
  cases n with
  | ground => rfl
  | node i => simp [node?, Function.comp_def]

theorem slots_copyFrom_eq_iff :
    (nl.copyFrom start).slots.map (Option.map ModelBase.model) = nl.slots.map (Option.map ModelBase.model) ↔
      ∀ m ∈ nl.normals, ¬m.IsConnectedVerilog := by
  rw [slots_copyFrom, map_inj_left]
  constructor
  · intro h m hm
    obtain ⟨b, hb, rfl⟩ := mem_map.mp hm
    have hsome := h (some b) (reduceOption_mem_iff.mp hb)
    exact (Model.clone_eq_self_iff _).mp (some.inj hsome)
  · intro h s hs
    cases s with
    | none => rfl
    | some b =>
      have hb : b ∈ nl.bases := reduceOption_mem_iff.mpr hs
      exact congrArg some ((Model.clone_eq_self_iff _).mpr (h _ (mem_map_of_mem hb)))

theorem num_copyFrom_eq_iff :
    (∀ n, ((nl.copyFrom start).node? n).map Node.numOfAnalogNode = (nl.node? n).map Node.numOfAnalogNode) ↔
      ∀ n nd, nl.node? n = some nd → nd.numOfAnalogNode = 0 := by
  constructor
  · intro h n nd hnd
    have hn := h n
    rw [num_copyFrom, hnd] at hn
    exact (some.inj hn).symm
  · intro h n
    rw [num_copyFrom]
    cases hnd : nl.node? n with
    | none => rfl
    | some nd => rw [map_some, map_some, h n nd hnd]

theorem getNumOfModel_copyFrom_iff :
    (nl.copyFrom start).getNumOfModel false = (nl.copyFrom start).getNumOfModel true ↔ none ∉ nl.slots := by
  have hslots := slots_copyFrom start nl
  have hlen : (nl.copyFrom start).slots.length = nl.slots.length := by
    simpa using congrArg List.length hslots
  have hcount : (nl.copyFrom start).slots.countP isSome = nl.slots.countP isSome := by
    simpa [countP_map, Function.comp_def] using congrArg (countP isSome) hslots
  have hnull : NoNullCount (nl.copyFrom start) := noNullCount_emplaceCopies (by simp [NoNullCount]) false _
  rw [hnull.getNumOfModel, getNumOfModel_true, hlen, hcount, eq_comm, countP_eq_length]
  constructor
  · intro h hnone
    exact absurd (h none hnone) (by simp)
  · intro h s hs
    cases s with
    | none => exact absurd hs h
    | some b => rfl

theorem isCopy_copyFrom_iff : IsCopy nl (nl.copyFrom start) ↔
    none ∉ nl.slots ∧ (∀ n nd, nl.node? n = some nd → nd.numOfAnalogNode = 0) ∧
      ∀ m ∈ nl.normals, ¬m.IsConnectedVerilog := by
  constructor
  · intro h
    exact ⟨(getNumOfModel_copyFrom_iff start nl).mp h.num_of_model, (num_copyFrom_eq_iff start nl).mp h.num_analog,
      (slots_copyFrom_eq_iff start nl).mp h.slots⟩
  · rintro ⟨hnull, hnum, hverilog⟩
    refine ⟨?_, (slots_copyFrom_eq_iff start nl).mpr hverilog, pinsExact_copyFrom start nl,
      (num_copyFrom_eq_iff start nl).mpr hnum, (getNumOfModel_copyFrom_iff start nl).mpr hnull⟩
    rw [copyFrom, length_nodes_emplaceCopies, length_map]

end

/-- Both ways to copy a netlist copy it completely if and only if it has no null model, no
analog pin is connected, and no `VERILOG_MODULE` has a connected pin. -/
theorem isCopy_iff (nl this : Netlist) :
    (IsCopy nl nl.copy ∧ IsCopy nl (this.assign nl)) ↔
      none ∉ nl.slots ∧ (∀ n nd, nl.node? n = some nd → nd.numOfAnalogNode = 0) ∧
        ∀ m ∈ nl.normals, ¬m.IsConnectedVerilog := by
  rw [copy_eq_copyFrom, assign, isCopy_copyFrom_iff, isCopy_copyFrom_iff, and_self]

/-- The copy of a connected resistor has lost the analog counter of its node. -/
theorem not_isCopy_oneResistor : Reachable oneResistor ∧ ¬IsCopy oneResistor oneResistor.copy := by
  refine ⟨reachable_oneResistor, fun h => ?_⟩
  have hnum := h.num_analog (.node 0)
  revert hnum
  decide

end PhyEngine.Netlist
