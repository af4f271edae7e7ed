import PhyEngine.Netlist.Edits

/-!
# Rolling back to a snapshot

`restore_from_snapshot`: the nodes of the live netlist stay, all models are destroyed and the
models of the snapshot are copied back. The counters are cleared before the destructors decrement
them once more (`restoreFromSnapshot_num`).
-/

namespace PhyEngine

namespace Netlist

/-- The first loop: every node loses its pins, its counter and its information. -/
def clearNodes (nl : Netlist) : Netlist :=
  { nl with nodes := nl.nodes.map fun _ => {}, groundNode := {} }

/-- The second loop: the destructors of all models, block by block. -/
def destroyModels (nl : Netlist) : Netlist :=
  { nl.bases.foldl removeFromNode nl with models := [] }

/-- `node_map` maps the nodes of the snapshot to the live nodes of the same ordinal; a
pointer it does not know becomes null. -/
def remapPin (src : Netlist) (p : Option NodeId) : Option NodeId :=
  p.filter fun n => (src.node? n).isSome

/-- The copy of one model of the snapshot, its pins mapped to the live nodes. -/
def remapCopy (src : Netlist) (m : Model) : Model :=
  { m.clone with pins := m.clone.pins.map src.remapPin }

section

variable (nl : Netlist)
include nl

/-- The third loop: `node_information` of the overlapping prefix and of the ground node. -/
def restoreInformation (dst src : Netlist) : Netlist :=
  { dst with
    nodes := dst.nodes.mapIdx fun i (nd : Node) =>
      { nd with state := ((src.nodes[i]?).map Node.state).getD nd.state }
    groundNode := { dst.groundNode with state := src.groundNode.state } }

def restoreFromSnapshot (dst src : Netlist) : Netlist :=
  let dst := dst.clearNodes.destroyModels
  if dst.nodes.length < src.nodes.length then dst
  else (dst.restoreInformation src).emplaceCopies true
    (src.normals.map fun m => some (src.remapCopy m))

theorem node?_clearNodes (n : NodeId) :
    nl.clearNodes.node? n = (nl.node? n).map fun _ => {} := by
  cases n with
  | ground => rfl
  | node i => simp only [clearNodes, node?, List.getElem?_map]

theorem node?_removeFromNode (b : ModelBase) (n : NodeId) :
    (nl.removeFromNode b).node? n =
      (nl.node? n).map (visited n (detachEff b.id b.model.isAnalog) b.model.pins 0) :=
  node?_visitPins _ _ n (fun k m nl => node?_detachPin nl b.id k _ m n) _ _ _

theorem length_nodes_destroy (bs : List ModelBase) :
    (bs.foldl removeFromNode nl).nodes.length = nl.nodes.length := by
  induction bs generalizing nl with
  | nil => rfl
  | cons b bs ih => exact (ih _).trans (length_nodes_removeFromNode nl b)

/-- Destroying models off a node: pins only leave, the counter drops by the analog pins. -/
theorem node?_destroy (bs : List ModelBase) (n : NodeId) (nd : Node)
    (h : nl.node? n = some nd) :
    ∃ nd', (bs.foldl removeFromNode nl).node? n = some nd' ∧ nd'.pins ⊆ nd.pins ∧
      nd'.numOfAnalogNode = nd.numOfAnalogNode -
        UInt64.ofNat ((bs.map fun b => analogOn b.model.isAnalog b.model.pins n).sum) := by
  induction bs generalizing nl nd with
  | nil => exact ⟨nd, h, Finset.Subset.refl _, by simp⟩
  | cons b bs ih =>
    have h' : (nl.removeFromNode b).node? n =
        some (visited n (detachEff b.id b.model.isAnalog) b.model.pins 0 nd) := by
      rw [node?_removeFromNode, h]
      rfl
    obtain ⟨nd', hnd', hpins, hnum⟩ := ih _ _ h'
    refine ⟨nd', hnd', hpins.trans (visited_detach_pins ..), ?_⟩
    rw [hnum, visited_detach_num, List.map_cons, List.sum_cons, UInt64.ofNat_add]
    grind

/-- After the first two loops every node has an empty pin set, and its counter is minus
the number of analog pins the destroyed models had on it. -/
theorem node?_cleared (n : NodeId) :
    ∀ nd, nl.clearNodes.destroyModels.node? n = some nd →
      nd.pins = ∅ ∧ nd.numOfAnalogNode = 0 - UInt64.ofNat (nl.analogPins n) := by
  intro nd hnd
  have hc : nl.clearNodes.destroyModels.node? n =
      (nl.bases.foldl removeFromNode nl.clearNodes).node? n := by cases n <;> rfl
  rw [hc] at hnd
  cases h0 : nl.clearNodes.node? n with
  | none =>
    have hlen := isSome_node?_congr (length_nodes_destroy nl.clearNodes nl.bases) n
    rw [hnd, h0] at hlen
    simp at hlen
  | some nd₀ =>
    have hnd₀ : nd₀ = {} := by
      rw [node?_clearNodes] at h0
      obtain ⟨_, -, rfl⟩ := Option.map_eq_some_iff.mp h0
      rfl
    obtain ⟨nd', hnd', hpins, hnum⟩ := node?_destroy nl.clearNodes nl.bases n nd₀ h0
    rw [hnd] at hnd'
    cases hnd'
    subst hnd₀
    refine ⟨Finset.subset_empty.mp hpins, ?_⟩
    rw [hnum, analogPins, normals, List.map_map]
    rfl

theorem length_nodes_cleared :
    nl.clearNodes.destroyModels.nodes.length = nl.nodes.length := by
  refine (length_nodes_destroy nl.clearNodes nl.bases).trans ?_
  simp [clearNodes]

end

theorem node?_restoreInformation (dst src : Netlist) (n : NodeId) :
    ∃ g : Node → LogicT, (dst.restoreInformation src).node? n =
      (dst.node? n).map fun nd => { nd with state := g nd } := by
  cases n with
  | ground => exact ⟨fun _ => src.groundNode.state, rfl⟩
  | node i =>
    refine ⟨fun nd => ((src.nodes[i]?).map Node.state).getD nd.state, ?_⟩
    simp [restoreInformation, node?]

section Restored

variable (dst src : Netlist)

theorem restoreFromSnapshot_eq (hlen : src.nodes.length ≤ dst.nodes.length) :
    dst.restoreFromSnapshot src =
      (dst.clearNodes.destroyModels.restoreInformation src).emplaceCopies true
        (src.normals.map fun m => some (src.remapCopy m)) := by
  unfold restoreFromSnapshot
  have h : ¬ dst.clearNodes.destroyModels.nodes.length < src.nodes.length := by
    rw [length_nodes_cleared]
    omega
  simp only [h, if_false]

theorem reduceOption_remapCopy (ms : List Model) :
    (ms.map fun m => some (src.remapCopy m)).reduceOption = ms.map src.remapCopy := by
  induction ms with
  | nil => rfl
  | cons m ms ih => simp [List.reduceOption_cons_of_some, ih]

section

variable (hlen : src.nodes.length ≤ dst.nodes.length)

include hlen

theorem restoreFromSnapshot_normals :
    (dst.restoreFromSnapshot src).normals = src.normals.map src.remapCopy := by
  rw [restoreFromSnapshot_eq dst src hlen, normals_emplaceCopies, reduceOption_remapCopy]
  rfl

theorem restoreFromSnapshot_length :
    (dst.restoreFromSnapshot src).nodes.length = dst.nodes.length := by
  rw [restoreFromSnapshot_eq dst src hlen, length_nodes_emplaceCopies]
  simp [restoreInformation, length_nodes_cleared]

theorem restoreFromSnapshot_pinsExact :
    (dst.restoreFromSnapshot src).PinsExact := by
  rw [restoreFromSnapshot_eq dst src hlen]
  apply pinsExact_emplaceCopies
  intro n nd hnd p
  obtain ⟨g, hg⟩ := node?_restoreInformation dst.clearNodes.destroyModels src n
  rw [hg] at hnd
  obtain ⟨nd₀, hnd₀, rfl⟩ := Option.map_eq_some_iff.mp hnd
  have hempty := (node?_cleared dst n nd₀ hnd₀).1
  simp only [hempty, Finset.notMem_empty, false_iff]
  rintro ⟨b, hb, -⟩
  exact absurd hb (by simp [bases, slots, restoreInformation, destroyModels])

/-- The counters after a restore: the analog pins of the snapshot minus those the
destroyed models had. -/
theorem restoreFromSnapshot_num (n : NodeId) (nd : Node) (hnd : (dst.restoreFromSnapshot src).node? n = some nd) :
    nd.numOfAnalogNode = 0 - UInt64.ofNat (dst.analogPins n) +
      UInt64.ofNat ((src.normals.map fun m =>
        analogOn (src.remapCopy m).isAnalog (src.remapCopy m).pins n).sum) := by
  have hnum := num_emplaceCopies (dst.clearNodes.destroyModels.restoreInformation src)
    (src.normals.map fun m => some (src.remapCopy m)) n
  rw [← restoreFromSnapshot_eq dst src hlen, hnd, reduceOption_remapCopy, List.map_map] at hnum
  obtain ⟨g, hg⟩ := node?_restoreInformation dst.clearNodes.destroyModels src n
  rw [hg, Option.map_map] at hnum
  cases h0 : dst.clearNodes.destroyModels.node? n with
  | none => simp [h0] at hnum
  | some nd₀ =>
    rw [h0] at hnum
    have hz := (node?_cleared dst n nd₀ h0).2
    simp only [Option.map_some, Function.comp_apply, Option.some.injEq, hz] at hnum
    exact hnum

end

end Restored

end Netlist

end PhyEngine
