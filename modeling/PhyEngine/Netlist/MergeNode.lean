import PhyEngine.Netlist.Rewiring
import Mathlib.Algebra.BigOperators.Group.List.Basic

/-!
# Merging two nodes

`merge_node` moves the pins of one node to another. Both sides of the pin/node relation
are moved, but the analog counter of the emptied node is thrown away: the merged node keeps
its own count, and the netlist stays consistent only if the other node had no analog pins.
-/

namespace PhyEngine.Netlist

def mergeNode (nl : Netlist) (node other : NodeId) : Netlist :=
  match nl.node? other with
  | none => nl
  | some nd =>
    let models := nl.models.map fun blk =>
      { blk with slots := blk.slots.map (Option.map (redirectPins nd.pins node)) }
    let nl := { nl with models }
    let nl := nl.modifyNode node fun x => { x with pins := x.pins ∪ nd.pins }
    nl.modifyNode other fun x => { x with pins := ∅, numOfAnalogNode := 0 }

/-- What merging is for: the pins of both nodes are on `node` only and are counted there,
`other` has none, no other node changes, and the two sides of the relation agree. -/
structure Merges (nl nl' : Netlist) (node other : NodeId) (x y : Node) : Prop where
  points : ∀ p, nl.Points p node ∨ nl.Points p other → ∀ n, nl'.Points p n ↔ n = node
  keeps : ∀ p n, n ≠ node → n ≠ other → (nl'.Points p n ↔ nl.Points p n)
  merged : nl'.node? node = some { x with
    pins := x.pins ∪ y.pins, numOfAnalogNode := x.numOfAnalogNode + y.numOfAnalogNode }
  emptied : nl'.node? other = some { y with pins := ∅, numOfAnalogNode := 0 }
  frame : ∀ n, n ≠ node → n ≠ other → nl'.node? n = nl.node? n
  consistent : nl'.Consistent

variable {nl : Netlist} {node other : NodeId} {x y : Node}

theorem node?_mergeNode (hy : nl.node? other = some y) (hne : node ≠ other) (n : NodeId) :
    (nl.mergeNode node other).node? n =
      if other = n then some { y with pins := ∅, numOfAnalogNode := 0 }
      else if node = n then (nl.node? n).map fun x => { x with pins := x.pins ∪ y.pins }
      else nl.node? n := by
  have hmodels (ms : List ModelBlock) : ({ nl with models := ms } : Netlist).node? n = nl.node? n := by
    cases n <;> rfl
  rw [mergeNode, hy]
  dsimp only
  rw [node?_modifyNode, node?_modifyNode, hmodels]
  by_cases ho : other = n
  · subst ho
    rw [if_pos rfl, if_pos rfl, if_neg hne, hy]
    rfl
  · rw [if_neg ho, if_neg ho]

theorem models_mergeNode (hy : nl.node? other = some y) :
    (nl.mergeNode node other).models = nl.models.map fun blk =>
      { blk with slots := blk.slots.map (Option.map (redirectPins y.pins node)) } := by
  rw [mergeNode, hy]
  dsimp only
  rw [models_modifyNode, models_modifyNode]

section

variable (h : Sound nl)
include h

theorem Sound.bases_mergeNode (hy : nl.node? other = some y) :
    (nl.mergeNode node other).bases = nl.bases.map (retarget (fun _ => false) other node) := by
  have hall : (y.pins.filter fun _ => (false : Bool) = false) = y.pins := Finset.filter_true_of_mem fun _ _ => rfl
  rw [bases_map_slots (models_mergeNode hy)]
  refine List.map_congr_left fun b hb => ?_
  rw [← h.redirectPins_eq hy node hb, hall]

theorem Sound.points_mergeNode (hy : nl.node? other = some y) (hne : node ≠ other) (p : PinRef)
    (n : NodeId) : (nl.mergeNode node other).Points p n ↔
      (n = node ∧ (nl.Points p node ∨ nl.Points p other)) ∨ (n ≠ node ∧ n ≠ other ∧ nl.Points p n) := by
  have hmem : ∀ q ∈ y.pins, ∃ m, nl.Points q m := fun q hq =>
    ⟨other, (h.consistent.pins_exact other y hy q).mp hq⟩
  rw [points_redirectPins (models_mergeNode hy) hmem, h.consistent.pins_exact other y hy]
  by_cases hn : n = node
  · subst hn
    by_cases hp : nl.Points p other
    · simp [hp]
    · simp [hp]
  · by_cases hp : nl.Points p other
    · have hon : nl.Points p n → n = other := fun hpn => h.points_unique hpn hp
      simp [hn, hp]
      exact fun hno hpn => hno (hon hpn)
    · have hno : n = other → ¬ nl.Points p n := by
        rintro rfl
        exact hp
      simp [hn, hp]
      exact fun hpn heq => hno heq hpn

omit h in
theorem count_map_merged (hne : node ≠ other) (ps : List (Option NodeId)) (n : NodeId) :
    (ps.map fun p => if p = some other then some node else p).count (some n) =
      if n = node then ps.count (some node) + ps.count (some other)
      else if n = other then 0 else ps.count (some n) := by
  induction ps with
  | nil => simp
  | cons p ps ih =>
    rw [List.map_cons, List.count_cons, ih, List.count_cons, List.count_cons, List.count_cons]
    by_cases hp : p = some other
    · subst hp
      by_cases hn : n = node
      · subst hn
        simp [hne.symm]
        omega
      · by_cases ho : n = other
        · simp [ho, hne, hne.symm]
        · simp [hn, ho, Ne.symm hn, Ne.symm ho]
    · by_cases hn : n = node
      · subst hn
        simp [hp]
        omega
      · by_cases ho : n = other
        · simp [ho, hne.symm, hp]
        · simp [hn, ho, hp]

theorem Sound.analogPins_mergeNode (hy : nl.node? other = some y) (hne : node ≠ other) (n : NodeId) :
    (nl.mergeNode node other).analogPins n =
      if n = node then nl.analogPins node + nl.analogPins other else if n = other then 0 else nl.analogPins n := by
  have hone (b : ModelBase) : analogOn (retarget (fun _ => false) other node b).model.isAnalog
      (retarget (fun _ => false) other node b).model.pins n =
        if n = node then analogOn b.model.isAnalog b.model.pins node + analogOn b.model.isAnalog b.model.pins other
        else if n = other then 0 else analogOn b.model.isAnalog b.model.pins n := by
    have hpins : (retarget (fun _ => false) other node b).model.pins =
        b.model.pins.map fun p => if p = some other then some node else p := by
      refine List.ext_getElem (by simp [retarget]) fun k _ _ => ?_
      simp [retarget]
    have hkind : (retarget (fun _ => false) other node b).model.isAnalog = b.model.isAnalog := rfl
    rw [hkind, hpins]
    cases b.model.isAnalog with
    | false => simp [analogOn]
    | true => simpa [analogOn] using count_map_merged hne b.model.pins n
  have hsum : (nl.mergeNode node other).analogPins n = (nl.bases.map fun b =>
      if n = node then analogOn b.model.isAnalog b.model.pins node + analogOn b.model.isAnalog b.model.pins other
      else if n = other then 0 else analogOn b.model.isAnalog b.model.pins n).sum := by
    rw [analogPins, normals, h.bases_mergeNode hy, List.map_map, List.map_map]
    exact congrArg List.sum (List.map_congr_left fun b _ => hone b)
  have hold (m : NodeId) : nl.analogPins m =
      (nl.bases.map fun b => analogOn b.model.isAnalog b.model.pins m).sum := by
    rw [analogPins, normals, List.map_map]
    rfl
  rw [hsum, hold, hold, hold]
  by_cases hn : n = node
  · simp [hn, List.sum_map_add]
  · by_cases ho : n = other
    · simp [ho, hne.symm]
    · simp [hn, ho]

section

variable (hx : nl.node? node = some x) (hy : nl.node? other = some y) (hne : node ≠ other)
include hx hy hne

omit h in
theorem node?_mergeNode_self :
    (nl.mergeNode node other).node? node = some { x with pins := x.pins ∪ y.pins } := by
  rw [node?_mergeNode hy hne, if_neg (Ne.symm hne), if_pos rfl, hx]
  rfl

theorem Sound.pinsExact_mergeNode : (nl.mergeNode node other).PinsExact := by
  intro n nd hnd p
  rw [h.points_mergeNode hy hne]
  by_cases ho : n = other
  · rw [node?_mergeNode hy hne, if_pos ho.symm, Option.some.injEq] at hnd
    subst hnd
    simp [ho, hne.symm]
  · by_cases hn : n = node
    · subst hn
      rw [node?_mergeNode_self hx hy hne, Option.some.injEq] at hnd
      subst hnd
      simp [h.consistent.pins_exact _ x hx p, h.consistent.pins_exact _ y hy p]
    · rw [node?_mergeNode hy hne, if_neg (Ne.symm ho), if_neg (Ne.symm hn)] at hnd
      rw [h.consistent.pins_exact n nd hnd p]
      simp [hn, ho]

theorem Sound.pinsValid_mergeNode : (nl.mergeNode node other).PinsValid := by
  intro m hm n hn
  obtain ⟨b, hb, rfl⟩ := mem_bases_of_mem_normals hm
  obtain ⟨k, hk⟩ := List.mem_iff_getElem?.mp hn
  have hpoints : (nl.mergeNode node other).Points ⟨b.id, k⟩ n := ⟨b, hb, rfl, hk⟩
  rw [h.points_mergeNode hy hne] at hpoints
  rcases hpoints with ⟨rfl, -⟩ | ⟨hnode, hother, c, hc, -, hck⟩
  · rw [node?_mergeNode_self hx hy hne]
    rfl
  · rw [node?_mergeNode hy hne, if_neg (Ne.symm hother), if_neg (Ne.symm hnode)]
    exact h.isSome_node? hc (List.mem_of_getElem? hck)

/-- A merge does what it is for exactly when no analog pin moves. -/
theorem mergeNode_merges_iff :
    Merges nl (nl.mergeNode node other) node other x y ↔ y.numOfAnalogNode = 0 := by
  have hself := node?_mergeNode_self hx hy hne
  constructor
  · intro hm
    have hcount := hself.symm.trans hm.merged
    rw [Option.some.injEq, Node.mk.injEq] at hcount
    -- the counter of the merged node is the old one
    have hnum : x.numOfAnalogNode = x.numOfAnalogNode + y.numOfAnalogNode := hcount.2.2
    grind
  · intro hzero
    have hother : (nl.mergeNode node other).node? other = some { y with pins := ∅, numOfAnalogNode := 0 } := by
      rw [node?_mergeNode hy hne, if_pos rfl]
    have hframe : ∀ n, n ≠ node → n ≠ other → (nl.mergeNode node other).node? n = nl.node? n := by
      intro n hn ho
      rw [node?_mergeNode hy hne, if_neg (Ne.symm ho), if_neg (Ne.symm hn)]
    refine ⟨fun p hp n => ?_, fun p n hn ho => ?_, ?_, hother, hframe, ?_⟩
    · rw [h.points_mergeNode hy hne]
      constructor
      · rintro (⟨hn, -⟩ | ⟨hn, ho, hpn⟩)
        · exact hn
        · rcases hp with hp | hp
          · exact h.points_unique hpn hp
          · exact absurd (h.points_unique hpn hp) ho
      · rintro rfl
        exact .inl ⟨rfl, hp⟩
    · rw [h.points_mergeNode hy hne]
      simp [hn, ho]
    · rw [hself, hzero, add_zero]
    · refine ⟨h.pinsExact_mergeNode hx hy hne, h.pinsValid_mergeNode hx hy hne, fun n nd hnd => ?_⟩
      rw [h.analogPins_mergeNode hy hne]
      by_cases hn : n = node
      · subst hn
        rw [hself, Option.some.injEq] at hnd
        subst hnd
        have hnone : UInt64.ofNat (nl.analogPins other) = 0 := by
          rw [← h.consistent.num_analog other y hy, hzero]
        rw [if_pos rfl, UInt64.ofNat_add, hnone, add_zero]
        exact h.consistent.num_analog n x hx
      · by_cases ho : n = other
        · subst ho
          rw [hother, Option.some.injEq] at hnd
          subst hnd
          rw [if_neg hn, if_pos rfl]
          rfl
        · rw [hframe n hn ho] at hnd
          rw [if_neg hn, if_neg ho]
          exact h.consistent.num_analog n nd hnd

end

end

def twoEnds : Netlist := (oneResistor.createNode.1.addToNode ⟨0, 0⟩ 1 (.node 1)).1

theorem sound_twoEnds : Sound twoEnds :=
  (Reachable.addToNode (.createNode reachable_oneResistor) rfl rfl rfl).sound

/-- Node 0 has two analog pins after the merge and counts one. -/
theorem mergeNode_twoEnds : ¬ ∀ (nl : Netlist) (node other : NodeId) (x y : Node), Sound nl →
    nl.node? node = some x → nl.node? other = some y → node ≠ other →
    Merges nl (nl.mergeNode node other) node other x y := by
  intro hall
  have hx : twoEnds.node? (.node 0) = some { pins := {⟨0, 0⟩}, numOfAnalogNode := 1 } := rfl
  have hy : twoEnds.node? (.node 1) = some { pins := {⟨0, 1⟩}, numOfAnalogNode := 1 } := rfl
  have hm := hall twoEnds _ _ _ _ sound_twoEnds hx hy (by decide)
  have hcount := (node?_mergeNode_self hx hy (by decide)).symm.trans hm.merged
  rw [Option.some.injEq, Node.mk.injEq] at hcount
  exact absurd hcount.2.2 (by decide)

/-- The free node of one resistor merged into that of its pin. -/
theorem mergeNode_free_node :
    Merges oneResistor.createNode.1 (oneResistor.createNode.1.mergeNode (.node 0) (.node 1)) (.node 0) (.node 1)
      { pins := {⟨0, 0⟩}, numOfAnalogNode := 1 } {} :=
  (mergeNode_merges_iff (Reachable.createNode reachable_oneResistor).sound rfl rfl (by decide)).mpr rfl

end PhyEngine.Netlist
