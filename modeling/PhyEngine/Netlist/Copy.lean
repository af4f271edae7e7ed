import PhyEngine.Netlist.Pins
import Mathlib.Data.List.ReduceOption

/-!
# Copying netlists

`model_base::copy_with_node_ptr` and the copy constructor of `netlist`. The copy constructor of a
device keeps the node pointers of the pins, but that of `VERILOG_MODULE` makes null pointers.
`emplaceCopies` is the loop it shares with `restore_from_snapshot`.
-/

namespace PhyEngine

open List

variable (m : Model)

/-- `model_base_impl::clone` as far as the pins are concerned. -/
def Model.clone : Model :=
  if m.kind = .verilogModule then { m with pins := m.pins.map fun _ => none } else m

@[simp] theorem Model.clone_clone : m.clone.clone = m.clone := by
  unfold Model.clone
  by_cases h : m.kind = .verilogModule <;> simp [h]

@[simp] theorem Model.clone_kind : m.clone.kind = m.kind := by
  unfold Model.clone
  split <;> rfl

def Model.IsConnectedVerilog : Prop :=
  m.kind = .verilogModule ∧ ∃ n, some n ∈ m.pins

theorem Model.clone_eq_self_iff : m.clone = m ↔ ¬ m.IsConnectedVerilog := by
  unfold Model.clone Model.IsConnectedVerilog
  by_cases h : m.kind = .verilogModule
  · simp only [h, if_true, true_and, not_exists]
    constructor
    · intro he n hn
      have hp : m.pins.map (fun _ => (none : Option NodeId)) = m.pins := congrArg Model.pins he
      rw [← hp] at hn
      obtain ⟨_, -, hc⟩ := mem_map.mp hn
      cases hc
    · intro hn
      have hp : m.pins.map (fun _ => (none : Option NodeId)) = m.pins := by
        refine (map_congr_left ?_).trans (map_id m.pins)
        intro p hp
        cases p with
        | none => rfl
        | some n => exact absurd hp (hn n)
      rw [hp, ← h]
  · simp [h]

theorem Model.mem_clone_pins {m : Model} {n : NodeId} (h : some n ∈ m.clone.pins) :
    some n ∈ m.pins := by
  unfold Model.clone at h
  split at h
  · obtain ⟨_, -, hc⟩ := mem_map.mp h
    cases hc
  · exact h

theorem analogOn_clone (n : NodeId) :
    Netlist.analogOn m.clone.isAnalog m.clone.pins n = Netlist.analogOn m.isAnalog m.pins n := by
  unfold Model.clone
  by_cases h : m.kind = .verilogModule
  · simp [h, Netlist.analogOn, Model.isAnalog, ModelKind.deviceType]
  · simp [h]

namespace Netlist

theorem flatMap_emplaceSlot (blocks : List ModelBlock) (s : Option ModelBase) :
    (emplaceSlot blocks s).flatMap (·.slots) = blocks.flatMap (·.slots) ++ [s] := by
  unfold emplaceSlot
  cases h : blocks.getLast? with
  | none =>
    have hn : blocks = [] := getLast?_eq_none_iff.mp h
    simp [hn]
  | some b =>
    obtain ⟨front, rfl⟩ := getLast?_eq_some_iff.mp h
    dsimp only
    split <;> simp

/-- One slot of a copy: a null model stays null, an object is placed at a fresh address
and its pins enter the pin sets of their nodes. With `count` the analog counters go up. -/
def emplaceCopy (count : Bool) (nl : Netlist) (s : Option Model) : Netlist :=
  match s with
  | none => { nl with models := emplaceSlot nl.models none }
  | some m =>
    let id := nl.nextId
    let nl := { nl with models := emplaceSlot nl.models (some ⟨id, m⟩), nextId := id + 1 }
    visitPins (fun k n nl => nl.attachPin ⟨id, k⟩ (count && m.isAnalog) n) m.pins 0 nl

def emplaceCopies (count : Bool) (nl : Netlist) (ss : List (Option Model)) : Netlist :=
  ss.foldl (emplaceCopy count) nl

/-- The copy constructor of `netlist`. Of a node only `node_information` is copied, and
the ground node starts from its default. Null models are copied as null models. -/
def copy (other : Netlist) : Netlist :=
  emplaceCopies false { nodes := other.nodes.map fun n => { state := n.state } }
    (other.slots.map (Option.map fun b => b.model.clone))

section

variable (count : Bool) (nl : Netlist)

include count nl

variable (s : Option Model)

theorem slots_emplaceCopy :
    (nl.emplaceCopy count s).slots = nl.slots ++ [s.map fun m => ⟨nl.nextId, m⟩] := by
  cases s with
  | none => exact flatMap_emplaceSlot _ _
  | some m =>
    refine visitPins_induction
      (P := fun x => x.slots = nl.slots ++ [some ⟨nl.nextId, m⟩]) _ m.pins 0 _ ?_ ?_
    · exact flatMap_emplaceSlot _ _
    · intro k n x hx
      simpa [slots, attachPin] using hx

theorem bases_emplaceCopy_none :
    (nl.emplaceCopy count none).bases = nl.bases := by
  simp [bases, slots_emplaceCopy, reduceOption_append]

theorem bases_emplaceCopy_some (m : Model) :
    (nl.emplaceCopy count (some m)).bases = nl.bases ++ [⟨nl.nextId, m⟩] := by
  simp [bases, slots_emplaceCopy, reduceOption_append]

theorem normals_emplaceCopy :
    (nl.emplaceCopy count s).normals = nl.normals ++ s.toList := by
  cases s with
  | none => simp [normals, bases_emplaceCopy_none]
  | some m => simp [normals, bases_emplaceCopy_some]

theorem node?_emplaceCopy_none (n : NodeId) :
    (nl.emplaceCopy count none).node? n = nl.node? n := by cases n <;> rfl

theorem node?_emplaceCopy_some (m : Model) (n : NodeId) :
    (nl.emplaceCopy count (some m)).node? n =
      (nl.node? n).map (visited n (attachEff nl.nextId (count && m.isAnalog)) m.pins 0) := by
  refine (node?_visitPins _ _ n (fun k x nl => node?_attachPin nl _ k _ x n) _ _ _).trans ?_
  cases n <;> rfl

theorem length_nodes_emplaceCopy :
    (nl.emplaceCopy count s).nodes.length = nl.nodes.length := by
  cases s with
  | none => rfl
  | some m =>
    refine visitPins_induction (P := fun x => x.nodes.length = nl.nodes.length) _ _ _ _ rfl ?_
    intro k n x hx
    simpa [attachPin] using hx

end

variable {nl : Netlist}

section

variable (count : Bool)
include count

theorem pinsExact_emplaceCopy (s : Option Model) (h : nl.PinsExact) :
    (nl.emplaceCopy count s).PinsExact := by
  intro n nd hnd p
  cases s with
  | none =>
    rw [node?_emplaceCopy_none] at hnd
    rw [h n nd hnd p, Points, Points, bases_emplaceCopy_none]
  | some m =>
    rw [node?_emplaceCopy_some] at hnd
    obtain ⟨nd₀, hnd₀, rfl⟩ := Option.map_eq_some_iff.mp hnd
    rw [mem_visited_attach, h n nd₀ hnd₀ p, Points, Points, bases_emplaceCopy_some,
      mk_mem_zipIdx_iff_getElem?]
    constructor
    · rintro (⟨b, hb, hid, hk⟩ | ⟨hid, hk⟩)
      · exact ⟨b, mem_append_left _ hb, hid, hk⟩
      · exact ⟨⟨nl.nextId, m⟩, by simp, hid.symm, hk⟩
    · rintro ⟨b, hb, hid, hk⟩
      rcases mem_append.mp hb with hb | hb
      · exact Or.inl ⟨b, hb, hid, hk⟩
      · obtain rfl := mem_singleton.mp hb
        exact Or.inr ⟨hid.symm, hk⟩

theorem slots_emplaceCopies (nl : Netlist) (ss : List (Option Model)) :
    (nl.emplaceCopies count ss).slots.map (Option.map ModelBase.model) =
      nl.slots.map (Option.map ModelBase.model) ++ ss := by
  induction ss generalizing nl with
  | nil => simp [emplaceCopies]
  | cons s ss ih =>
    refine (ih (nl.emplaceCopy count s)).trans ?_
    cases s <;> simp [slots_emplaceCopy]

theorem normals_emplaceCopies (nl : Netlist) (ss : List (Option Model)) :
    (nl.emplaceCopies count ss).normals = nl.normals ++ ss.reduceOption := by
  induction ss generalizing nl with
  | nil => simp [emplaceCopies]
  | cons s ss ih =>
    refine (ih (nl.emplaceCopy count s)).trans ?_
    rw [normals_emplaceCopy]
    cases s <;> simp [reduceOption_cons_of_some, reduceOption_cons_of_none]

theorem length_nodes_emplaceCopies (nl : Netlist) (ss : List (Option Model)) :
    (nl.emplaceCopies count ss).nodes.length = nl.nodes.length := by
  induction ss generalizing nl with
  | nil => rfl
  | cons s ss ih => exact (ih _).trans (length_nodes_emplaceCopy count nl s)

theorem pinsExact_emplaceCopies (ss : List (Option Model)) (h : nl.PinsExact) :
    (nl.emplaceCopies count ss).PinsExact := by
  induction ss generalizing nl with
  | nil => exact h
  | cons s ss ih => exact ih (pinsExact_emplaceCopy count s h)

end

theorem num_emplaceCopies (nl : Netlist) (ss : List (Option Model)) (n : NodeId) :
    ((nl.emplaceCopies true ss).node? n).map (·.numOfAnalogNode) =
      (nl.node? n).map fun nd => nd.numOfAnalogNode +
        UInt64.ofNat ((ss.reduceOption.map fun m => analogOn m.isAnalog m.pins n).sum) := by
  induction ss generalizing nl with
  | nil => cases h : nl.node? n <;> simp [emplaceCopies, h]
  | cons s ss ih =>
    refine (ih (nl.emplaceCopy true s)).trans ?_
    cases s with
    | none => simp [node?_emplaceCopy_none, reduceOption_cons_of_none]
    | some m =>
      rw [node?_emplaceCopy_some, Option.map_map, reduceOption_cons_of_some]
      congr 1
      funext nd
      simp only [Function.comp_apply, visited_attach_num, Bool.true_and, map_cons,
        sum_cons, UInt64.ofNat_add]
      grind

theorem normals_copy (nl : Netlist) :
    nl.copy.normals = nl.normals.map Model.clone := by
  rw [copy, normals_emplaceCopies, reduceOption_map]
  simp [normals, bases, slots, reduceOption]

theorem length_nodes_copy (nl : Netlist) : nl.copy.nodes.length = nl.nodes.length := by
  rw [copy, length_nodes_emplaceCopies, length_map]

theorem pinsValid_copy (h : nl.PinsValid) : nl.copy.PinsValid := by
  intro m hm n hn
  rw [normals_copy] at hm
  obtain ⟨m₀, hm₀, rfl⟩ := mem_map.mp hm
  rw [isSome_node?_congr (length_nodes_copy nl)]
  exact h m₀ hm₀ n (Model.mem_clone_pins hn)

def ofModels (k : Nat) (ms : List Model) : Netlist :=
  emplaceCopies true { nodes := List.replicate k {} } (ms.map some)

theorem normals_ofModels (k : Nat) (ms : List Model) : (ofModels k ms).normals = ms := by
  rw [ofModels, normals_emplaceCopies]
  simp [normals, bases, slots, reduceOption]

theorem consistent_ofModels {k : Nat} {ms : List Model}
    (h : ∀ m ∈ ms, ∀ p ∈ m.pins, ∀ i, p = some (.node i) → i < k) : (ofModels k ms).Consistent := by
  have hstart {n : NodeId} {nd : Node} (hnd : ({ nodes := replicate k {} } : Netlist).node? n = some nd) : nd = {} := by
    cases n with
    | ground => exact (Option.some.inj hnd).symm
    | node i => exact eq_of_mem_replicate (mem_of_getElem? hnd)
  refine ⟨pinsExact_emplaceCopies true _ fun n nd hnd p => ?_, fun m hm n hn => ?_, fun n nd hnd => ?_⟩
  · rw [hstart hnd]
    refine iff_of_false (Finset.notMem_empty p) ?_
    rintro ⟨b, hb, -⟩
    exact absurd hb not_mem_nil
  · rw [normals_ofModels] at hm
    rw [ofModels, isSome_node?_congr (length_nodes_emplaceCopies true _ _)]
    cases n with
    | ground => rfl
    | node i =>
      change ((replicate k ({} : Node))[i]?).isSome
      rw [getElem?_replicate, if_pos (h m hm _ hn i rfl)]
      rfl
  · have hnum := num_emplaceCopies { nodes := replicate k {} } (ms.map some) n
    rw [← ofModels, hnd] at hnum
    obtain ⟨nd₀, hnd₀, hnum⟩ := Option.map_eq_some_iff.mp hnum.symm
    refine hnum.symm.trans ?_
    rw [hstart hnd₀, analogPins, normals_ofModels]
    simp [reduceOption]

end Netlist

end PhyEngine
