import PhyEngine.Synth.Snapshot

/-!
# Exactness of a rollback

`run_pass` rolls back when a pass made the netlist too large. `RolledBack` holds exactly when no
pin is lost by copying (a connected `VERILOG_MODULE`) and no analog model of the edited netlist
has a pin on an old node (its destructor decrements a cleared counter).
-/

namespace PhyEngine.Netlist

open List

structure RolledBack (nl₀ nl₁ r : Netlist) : Prop where
  /-- The same models in the same order, pin by pin on the same nodes. -/
  models : r.normals = nl₀.normals
  /-- The node objects stay in place. -/
  nodes_kept : r.nodes.length = nl₁.nodes.length ∧ nl₀.nodes.length ≤ r.nodes.length
  pins_exact : r.PinsExact
  extra_empty : ∀ i nd, nl₀.nodes.length ≤ i → r.node? (.node i) = some nd → nd.pins = ∅
  num_analog : ∀ n nd₀ nd, nl₀.node? n = some nd₀ → r.node? n = some nd →
    nd.numOfAnalogNode = nd₀.numOfAnalogNode

theorem length_nodes_applyEdit (nl : Netlist) (e : Edit) :
    nl.nodes.length ≤ (nl.applyEdit e).nodes.length := by
  cases e with
  | createNode => simp [applyEdit, createNode]
  | addModel m => exact le_of_eq rfl
  | addToNode pos k n => exact le_of_eq (length_nodes_addToNode nl pos k n).symm
  | movePin pos k n => exact le_of_eq (length_nodes_movePin nl pos k n).symm
  | deleteModel pos => exact le_of_eq (length_nodes_deleteModel nl pos).symm

theorem length_nodes_applyEdits (nl : Netlist) (es : List Edit) :
    nl.nodes.length ≤ (nl.applyEdits es).nodes.length := by
  induction es generalizing nl with
  | nil => exact le_rfl
  | cons e es ih => exact (length_nodes_applyEdit nl e).trans (ih (nl.applyEdit e))

theorem remapCopy_eq_clone {src : Netlist} {m : Model}
    (h : ∀ n, some n ∈ m.pins → (src.node? n).isSome) : src.remapCopy m = m.clone := by
  have hp : m.clone.pins.map src.remapPin = m.clone.pins := by
    refine (map_congr_left ?_).trans (map_id _)
    intro p hp
    cases p with
    | none => rfl
    | some n =>
      have hn := h n (Model.mem_clone_pins hp)
      simp [remapPin, Option.filter, hn]
  rw [remapCopy, hp]

theorem normals_restore_copy {nl₀ : Netlist} (h : nl₀.PinsValid) (nl₁ : Netlist)
    (hlen : nl₀.nodes.length ≤ nl₁.nodes.length) :
    (nl₁.restoreFromSnapshot nl₀.copy).normals = nl₀.normals.map Model.clone := by
  have hlen' : nl₀.copy.nodes.length ≤ nl₁.nodes.length := by rwa [length_nodes_copy]
  rw [restoreFromSnapshot_normals nl₁ nl₀.copy hlen', normals_copy, List.map_map]
  refine map_congr_left ?_
  intro m hm
  have hv := pinsValid_copy h m.clone (by rw [normals_copy]; exact mem_map_of_mem hm)
  rw [Function.comp_apply, remapCopy_eq_clone hv, Model.clone_clone]

theorem num_restore_copy {nl₀ : Netlist} (h : nl₀.PinsValid) (nl₁ : Netlist)
    (hlen : nl₀.nodes.length ≤ nl₁.nodes.length) {n : NodeId} {nd : Node}
    (hnd : (nl₁.restoreFromSnapshot nl₀.copy).node? n = some nd) :
    nd.numOfAnalogNode =
      0 - UInt64.ofNat (nl₁.analogPins n) + UInt64.ofNat (nl₀.analogPins n) := by
  have hlen' : nl₀.copy.nodes.length ≤ nl₁.nodes.length := by rwa [length_nodes_copy]
  rw [restoreFromSnapshot_num nl₁ nl₀.copy hlen' n nd hnd]
  congr 3
  rw [normals_copy, List.map_map]
  refine map_congr_left ?_
  intro m hm
  have hv := pinsValid_copy h m.clone (by rw [normals_copy]; exact mem_map_of_mem hm)
  rw [Function.comp_apply, remapCopy_eq_clone hv, Model.clone_clone, analogOn_clone]

theorem map_clone_eq_iff (ms : List Model) :
    ms.map Model.clone = ms ↔ ∀ m ∈ ms, ¬ m.IsConnectedVerilog := by
  induction ms with
  | nil => simp
  | cons m ms ih => simp [ih, Model.clone_eq_self_iff]

theorem sub_add_eq_iff (a : Nat) (x : UInt64) :
    0 - UInt64.ofNat a + x = x ↔ a % 2 ^ 64 = 0 := by
  have h : (0 - UInt64.ofNat a + x = x) ↔ UInt64.ofNat a = 0 := by grind
  rw [h, ← UInt64.toNat_inj]
  simp

section Rollback

variable {nl₀ nl₁ : Netlist}

theorem extra_empty_restore (h : nl₀.PinsValid) (hlen : nl₀.nodes.length ≤ nl₁.nodes.length)
    (i : Nat) (nd : Node) (hi : nl₀.nodes.length ≤ i)
    (hnd : (nl₁.restoreFromSnapshot nl₀.copy).node? (.node i) = some nd) : nd.pins = ∅ := by
  have hlen' : nl₀.copy.nodes.length ≤ nl₁.nodes.length := by rwa [length_nodes_copy]
  refine Finset.eq_empty_of_forall_notMem ?_
  intro p hp
  rw [restoreFromSnapshot_pinsExact nl₁ nl₀.copy hlen' _ nd hnd p] at hp
  obtain ⟨b, hb, -, hk⟩ := hp
  have hm : b.model ∈ nl₀.normals.map Model.clone := by
    rw [← normals_restore_copy h nl₁ hlen]
    exact mem_map_of_mem hb
  obtain ⟨m, hm, hclone⟩ := mem_map.mp hm
  have hmem : some (NodeId.node i) ∈ m.clone.pins := hclone ▸ List.mem_of_getElem? hk
  have hsome := h m hm _ (Model.mem_clone_pins hmem)
  rw [isSome_node?] at hsome
  exact absurd (hsome i rfl) (by omega)

theorem rolledBack_of_length (h : nl₀.Consistent) (hlen : nl₀.nodes.length ≤ nl₁.nodes.length) :
    RolledBack nl₀ nl₁ (nl₁.restoreFromSnapshot nl₀.copy) ↔
      (∀ m ∈ nl₀.normals, ¬ m.IsConnectedVerilog) ∧
      ∀ n, (nl₀.node? n).isSome → nl₁.analogPins n % 2 ^ 64 = 0 := by
  have hlen' : nl₀.copy.nodes.length ≤ nl₁.nodes.length := by rwa [length_nodes_copy]
  have hkept := restoreFromSnapshot_length nl₁ nl₀.copy hlen'
  have hmodels := normals_restore_copy h.pins_valid nl₁ hlen
  constructor
  · intro hr
    refine ⟨(map_clone_eq_iff _).mp (hmodels ▸ hr.models), ?_⟩
    intro n hn
    obtain ⟨nd₀, hnd₀⟩ := Option.isSome_iff_exists.mp hn
    have hn' : ((nl₁.restoreFromSnapshot nl₀.copy).node? n).isSome := by
      rw [isSome_node?] at hn ⊢
      intro i hi
      exact (hn i hi).trans_le (hlen.trans hkept.ge)
    obtain ⟨nd, hnd⟩ := Option.isSome_iff_exists.mp hn'
    have hnum := hr.num_analog n nd₀ nd hnd₀ hnd
    rw [num_restore_copy h.pins_valid nl₁ hlen hnd, h.num_analog n nd₀ hnd₀] at hnum
    exact (sub_add_eq_iff _ _).mp hnum
  · rintro ⟨hv, hn⟩
    refine ⟨hmodels.trans ((map_clone_eq_iff _).mpr hv), ⟨hkept, hlen.trans hkept.ge⟩,
      restoreFromSnapshot_pinsExact nl₁ nl₀.copy hlen', extra_empty_restore h.pins_valid hlen, ?_⟩
    intro n nd₀ nd hnd₀ hnd
    rw [num_restore_copy h.pins_valid nl₁ hlen hnd, h.num_analog n nd₀ hnd₀]
    exact (sub_add_eq_iff _ _).mpr (hn n (by rw [hnd₀]; rfl))

/-- A rollback to the copy of a consistent netlist, after any edits, is exact if and only
if the netlist holds no connected `VERILOG_MODULE` and no analog model of the edited netlist
has a pin on one of its nodes (counted in `std::size_t`). -/
theorem restoreFromSnapshot_exact_iff (nl₀ : Netlist) (h : nl₀.Consistent) (es : List Edit) :
    RolledBack nl₀ (nl₀.applyEdits es) ((nl₀.applyEdits es).restoreFromSnapshot nl₀.copy) ↔
      (∀ m ∈ nl₀.normals, ¬ m.IsConnectedVerilog) ∧
      ∀ n, (nl₀.node? n).isSome → (nl₀.applyEdits es).analogPins n % 2 ^ 64 = 0 :=
  rolledBack_of_length h (length_nodes_applyEdits nl₀ es)

end Rollback

variable (kind : ModelKind)

def single (j : Nat) : Netlist where
  models := [{ slots := [some ⟨0, kind, "m", [], some (.node 0) :: List.replicate j none⟩] }]
  nodes := [{ pins := {⟨0, 0⟩}, numOfAnalogNode := if kind.deviceType = .digital then 0 else 1 }]
  nextId := 1

theorem points_single {kind : ModelKind} {j : Nat} {p : PinRef} {n : NodeId} :
    (single kind j).Points p n ↔ p = ⟨0, 0⟩ ∧ n = .node 0 := by
  obtain ⟨id, k⟩ := p
  cases k with
  | zero => simp [Points, bases, slots, single, reduceOption, eq_comm]
  | succ k =>
    have hk : (replicate j (none : Option NodeId))[k]? ≠ some (some n) := by
      intro h
      have := eq_of_mem_replicate (List.mem_of_getElem? h)
      cases this
    simp [Points, bases, slots, single, reduceOption, hk]

theorem analogPins_single (j : Nat) (n : NodeId) :
    (single kind j).analogPins n =
      if kind.deviceType ≠ .digital ∧ n = .node 0 then 1 else 0 := by
  have hn : List.count (some n) (replicate j none) = 0 := by
    simp [count_replicate]
  by_cases hk : kind.deviceType = .digital
  · simp [analogPins, normals, bases, slots, single, reduceOption, analogOn,
      Model.isAnalog, hk]
  · by_cases hz : n = .node 0
    · simp [analogPins, normals, bases, slots, single, reduceOption, analogOn,
        Model.isAnalog, hk, hz, count_replicate]
    · simp [analogPins, normals, bases, slots, single, reduceOption, analogOn,
        Model.isAnalog, hk, hz, hn, Ne.symm hz]

theorem consistent_single (j : Nat) : (single kind j).Consistent := by
  refine ⟨?_, ?_, ?_⟩
  · rintro (_ | _ | i) nd hnd p
    · cases hnd
      rw [points_single]
      simp [single]
    · cases hnd
      simp [points_single]
    · cases hnd
  · intro m hm n hn
    simp only [normals, bases, slots, single, reduceOption, mem_map] at hm
    obtain ⟨b, hb, rfl⟩ := hm
    simp only [flatMap_cons, flatMap_nil, append_nil, filterMap_cons,
      filterMap_nil, id, mem_singleton] at hb
    subst hb
    simp only [mem_cons, Option.some.injEq, mem_replicate, reduceCtorEq, and_false,
      or_false] at hn
    subst hn
    rfl
  · rintro (_ | _ | i) nd hnd
    · cases hnd
      rw [analogPins_single]
      simp [single]
    · cases hnd
      rw [analogPins_single]
      by_cases hk : kind.deviceType = .digital <;> simp [hk]
    · cases hnd

/-- An `INPUT` on a node, edited by a pass that adds a gate and moves the pin. -/
theorem restoreFromSnapshot_exact_input :
    RolledBack (single .input 0)
      ((single .input 0).applyEdits
        [.createNode, .addModel ⟨.not, "", [], [none, none]⟩, .movePin ⟨0, 0⟩ 0 (.node 1)])
      (((single .input 0).applyEdits
        [.createNode, .addModel ⟨.not, "", [], [none, none]⟩,
          .movePin ⟨0, 0⟩ 0 (.node 1)]).restoreFromSnapshot (single .input 0).copy) := by
  refine (restoreFromSnapshot_exact_iff _ (consistent_single .input 0) _).mpr ⟨?_, ?_⟩
  · rintro m hm ⟨hk, -⟩
    simp [normals, bases, slots, single, List.reduceOption] at hm
    simp [hm] at hk
  · intro n _
    have hm : ((single .input 0).applyEdits
        [.createNode, .addModel ⟨.not, "", [], [none, none]⟩,
          .movePin ⟨0, 0⟩ 0 (.node 1)]).normals =
        [⟨.input, "m", [], [some (.node 1)]⟩, ⟨.not, "", [], [none, none]⟩] := by
      decide
    simp [analogPins, hm, analogOn, Model.isAnalog, ModelKind.deviceType]

/-- A resistor on a node, and no edits at all: the counter of the node ends at zero. -/
theorem restoreFromSnapshot_resistor :
    (single (.linear 0) 1).Consistent ∧
      ¬ RolledBack (single (.linear 0) 1) ((single (.linear 0) 1).applyEdits [])
        (((single (.linear 0) 1).applyEdits []).restoreFromSnapshot (single (.linear 0) 1).copy) := by
  refine ⟨consistent_single _ _, ?_⟩
  rw [rolledBack_of_length (consistent_single _ _) (length_nodes_applyEdits _ [])]
  rintro ⟨-, h⟩
  have hzero := h (.node 0) rfl
  simp [applyEdits, analogPins_single, ModelKind.deviceType] at hzero

end PhyEngine.Netlist
