import PhyEngine.Circuit.Slots

/-!
# Boards and their networks

The network of a board depends on the attributes of the `INPUT` models in the values of
their slots only, and handling a node fires the models that have a pin on it.
-/

namespace PhyEngine

open EventNet List

theorem ModelKind.gateFn_outputA {kind : ModelKind} {a : LogicT} (a' : LogicT) {g : GateFn}
    (hg : kind.gateFn a = some g) : ∃ g', kind.gateFn a' = some g' ∧ g'.rule = g.rule ∧
      g'.arity = g.arity ∧ g'.count = g.count ∧ (kind ≠ .input → g' = g) := by
  by_cases hk : kind = .input
  · subst hk
    obtain rfl : g = ⟨.write, 0, 1, fun _ => [a]⟩ := by simpa [ModelKind.gateFn, eq_comm] using hg
    exact ⟨_, rfl, rfl, rfl, rfl, fun h => absurd rfl h⟩
  · refine ⟨g, ?_, rfl, rfl, rfl, fun _ => rfl⟩
    cases kind <;> first | exact hg | exact absurd rfl hk

namespace Board

variable {b : Board}

/-- Model objects have different addresses, and the pins of a node are the pins that point
to it. -/
structure Wired (b : Board) : Prop where
  ids : (b.nl.bases.map (·.id)).Nodup
  pins : ∀ n p, p ∈ b.pinOrder n ↔ b.nl.Points p n

theorem modelAt_of_mem (hw : b.Wired) {x : ModelBase} (hx : x ∈ b.nl.bases) :
    b.modelAt x.id = some x.model := by
  cases hfind : b.nl.bases.find? (fun y => decide (y.id = x.id)) with
  | none => exact absurd (find?_eq_none.mp hfind x hx) (by simp)
  | some y =>
    have hid : y.id = x.id := by simpa using find?_some hfind
    obtain rfl : y = x :=
      inj_on_of_nodup_map hw.ids (mem_of_find?_eq_some hfind) hx hid
    simp [modelAt, hfind]

variable {id : Nat} {s : Nat × Nat}

theorem mem_of_modelAt {m : Model} (h : b.modelAt id = some m) :
    ∃ x ∈ b.nl.bases, x.id = id ∧ x.model = m := by
  obtain ⟨x, hfind, rfl⟩ := Option.map_eq_some_iff.mp h
  exact ⟨x, mem_of_find?_eq_some hfind, by simpa using find?_some hfind, rfl⟩

variable {o o' : Nat → LogicT}

theorem gateAt_congr (o' : Nat → LogicT) {g : GateFn} {ins outs : List NodeId}
    (h : b.gateAt o id = some (g, ins, outs)) :
    ∃ g', b.gateAt o' id = some (g', ins, outs) ∧
      g'.rule = g.rule ∧ g'.count = g.count ∧
      ((∀ m, b.modelAt id = some m → m.kind ≠ .input) → g' = g) := by
  obtain ⟨m, hm, hg, hin, hout⟩ := gateAt_eq_some.mp h
  obtain ⟨g', hg', hrule, harity, hcount, hsame⟩ := ModelKind.gateFn_outputA (o' id) hg
  refine ⟨g', gateAt_eq_some.mpr ⟨m, hm, hg', harity ▸ hin, ?_⟩, hrule, hcount, fun hne => hsame (hne m hm)⟩
  rw [harity, hcount]
  exact hout

theorem gateAt_none_congr (o' : Nat → LogicT) (h : b.gateAt o id = none) :
    b.gateAt o' id = none := by
  rw [Option.eq_none_iff_forall_ne_some]
  rintro ⟨g, ins, outs⟩ h'
  obtain ⟨g', hg', -⟩ := gateAt_congr o h'
  rw [h] at hg'
  exact absurd hg' (by simp)

theorem slotKeys_congr (o' : Nat → LogicT) (id : Nat) : b.slotKeys o' id = b.slotKeys o id := by
  cases h : b.gateAt o id with
  | none => rw [slotKeys, slotKeys, h, gateAt_none_congr o' h]
  | some gio =>
    obtain ⟨g, ins, outs⟩ := gio
    obtain ⟨g', hg', -, hcount, -⟩ := gateAt_congr o' h
    rw [slotKeys_of_gateAt h, slotKeys_of_gateAt hg', hcount]

theorem net_slots_congr (o' : Nat → LogicT) : (b.net o').slots = (b.net o).slots := by
  simp only [net, slotKeys_congr (o := o) o']

theorem net_congr (o' : Nat → LogicT) (s : Nat × Nat) :
    (b.net o').target s = (b.net o).target s ∧ (b.net o').deps s = (b.net o).deps s ∧
      (b.net o').rule s = (b.net o).rule s ∧
      ((∀ m, b.modelAt s.1 = some m → m.kind ≠ .input) → (b.net o').fn s = (b.net o).fn s) := by
  cases h : b.gateAt o s.1 with
  | none =>
    have h' := gateAt_none_congr o' h
    simp only [net, h, h']
    exact ⟨trivial, trivial, trivial, fun _ => trivial⟩
  | some gio =>
    obtain ⟨g, ins, outs⟩ := gio
    obtain ⟨g', h', hrule, -, hsame⟩ := gateAt_congr o' h
    simp only [net, h, h', hrule]
    refine ⟨trivial, trivial, trivial, fun hne => ?_⟩
    rw [hsame hne]

def SingleDrivers (b : Board) : Prop := (b.net fun _ => .X).SingleDriver

/-- The gate graph is acyclic: nodes can be ranked so that every model's output nodes rank
above its input nodes. -/
def Acyclic (b : Board) : Prop := ∃ rank, (b.net fun _ => .X).Ranked rank

theorem SingleDrivers.net (h : b.SingleDrivers) (o : Nat → LogicT) : (b.net o).SingleDriver := by
  intro s hs t ht he
  rw [net_slots_congr (o := fun _ => .X)] at hs ht
  rw [(net_congr (o := fun _ => .X) o s).1, (net_congr (o := fun _ => .X) o t).1] at he
  exact h s hs t ht he

variable {rank : NodeId → Nat}

theorem ranked_net (h : (b.net fun _ => .X).Ranked rank) (o : Nat → LogicT) :
    (b.net o).Ranked rank := by
  intro s hs d hd
  rw [net_slots_congr (o := fun _ => .X)] at hs
  rw [(net_congr (o := fun _ => .X) o s).2.1] at hd
  rw [(net_congr (o := fun _ => .X) o s).1]
  exact h s hs d hd

theorem fst_of_mem_slotKeys (h : s ∈ b.slotKeys o id) : s.1 = id := by
  cases hgate : b.gateAt o id with
  | none => simp [slotKeys, hgate] at h
  | some gio =>
    obtain ⟨g, ins, outs⟩ := gio
    rw [slotKeys_of_gateAt hgate, mem_map] at h
    obtain ⟨k, -, rfl⟩ := h
    rfl

theorem mem_slots : s ∈ (b.net o).slots ↔
    ∃ x ∈ b.nl.bases, x.id = s.1 ∧ s ∈ b.slotKeys o s.1 := by
  simp only [net, mem_flatMap]
  constructor
  · rintro ⟨x, hx, hs⟩
    have hid := fst_of_mem_slotKeys hs
    exact ⟨x, hx, hid.symm, hid ▸ hs⟩
  · rintro ⟨x, hx, hid, hs⟩
    exact ⟨x, hx, hid ▸ hs⟩

theorem noSelfDrive_of_ranked (hrank : (b.net fun _ => .X).Ranked rank)
    (o : Nat → LogicT) (id : Nat) (g : GateFn) (ins outs : List NodeId)
    (hgate : b.gateAt o id = some (g, ins, outs)) : ∀ n ∈ outs, n ∉ ins := by
  intro n hn hi
  obtain ⟨m, hm, -, -, hout⟩ := gateAt_eq_some.mp hgate
  obtain ⟨x, hx, rfl, -⟩ := mem_of_modelAt hm
  obtain ⟨k, hk, rfl⟩ := getElem_of_mem hn
  have hslot : (x.id, k) ∈ (b.net o).slots := by
    refine mem_slots.mpr ⟨x, hx, rfl, ?_⟩
    rw [slotKeys_of_gateAt hgate, mem_map]
    rw [length_pinNodes hout] at hk
    exact ⟨k, mem_range.mpr hk, rfl⟩
  have hlt := ranked_net hrank o _ hslot outs[k] (by rw [net_deps hgate]; exact hi)
  rw [net_target hgate, getD_eq_getElem _ _ hk] at hlt
  exact absurd hlt (lt_irrefl _)

section

variable (hw : b.Wired)
include hw

theorem gateAt_of_mem_slots {k : Nat} (hs : (id, k) ∈ (b.net o).slots) :
    ∃ x ∈ b.nl.bases, x.id = id ∧ ∃ g ins outs, b.gateAt o id = some (g, ins, outs) ∧ k < g.count ∧
      x.model.kind.gateFn (o id) = some g ∧ x.model.pinNodes 0 g.arity = some ins ∧
      x.model.pinNodes g.arity g.count = some outs := by
  obtain ⟨x, hx, hid, hkey⟩ := mem_slots.mp hs
  cases h : b.gateAt o id with
  | none => simp [slotKeys, h] at hkey
  | some gio =>
    obtain ⟨g, ins, outs⟩ := gio
    obtain ⟨m, hm, hg, hin, hout⟩ := gateAt_eq_some.mp h
    have hmodel := modelAt_of_mem hw hx
    rw [hid, hm, Option.some.injEq] at hmodel
    subst hmodel
    have hk : k < g.count := by
      have hkey' : (id, k) ∈ b.slotKeys o id := hkey
      rw [slotKeys_of_gateAt h] at hkey'
      simpa using hkey'
    exact ⟨x, hx, hid, g, ins, outs, rfl, hk, hg, hin, hout⟩

theorem Wired.mem_pinOrder {x : ModelBase} (hx : x ∈ b.nl.bases) {k : Nat} {n : NodeId}
    (hpin : x.model.pin k = some n) : ⟨x.id, k⟩ ∈ b.pinOrder n :=
  (hw.pins _ _).mpr ⟨x, hx, rfl, Option.join_eq_some_iff.mp hpin⟩

theorem Wired.pinOrder_target_ne_nil (hs : s ∈ (b.net o).slots) :
    b.pinOrder ((b.net o).target s) ≠ [] := by
  obtain ⟨id, k⟩ := s
  obtain ⟨x, hx, rfl, g, ins, outs, h, hk, -, -, hout⟩ := gateAt_of_mem_slots hw hs
  rw [← length_pinNodes hout] at hk
  rw [net_target h, getD_eq_getElem _ _ hk]
  exact ne_nil_of_mem (hw.mem_pinOrder hx (pin_of_pinNodes hout (getElem?_eq_getElem hk)))

theorem Wired.attached (o : Nat → LogicT) : (b.net o).Attached := by
  constructor
  · rintro ⟨id, k⟩ hs d hd
    obtain ⟨-, -, -, hkey⟩ := mem_slots.mp hs
    obtain ⟨x, hx, rfl, g, ins, outs, h, -, -, hin, -⟩ := gateAt_of_mem_slots hw hs
    rw [net_deps h] at hd
    obtain ⟨j, hj, rfl⟩ := getElem_of_mem hd
    have hpin := pin_of_pinNodes hin (getElem?_eq_getElem hj)
    simp only [net, mem_flatMap]
    exact ⟨_, hw.mem_pinOrder hx hpin, hkey⟩
  · intro n s hs
    simp only [net, mem_flatMap] at hs
    obtain ⟨p, hp, hkey⟩ := hs
    obtain ⟨x, hx, hid, -⟩ := (hw.pins _ _).mp hp
    simp only [net, mem_flatMap]
    exact ⟨x, hx, hid ▸ hkey⟩

theorem Wired.pinOrder_dep_ne_nil (hs : s ∈ (b.net o).slots) {d : NodeId} (hd : d ∈ (b.net o).deps s) :
    b.pinOrder d ≠ [] := by
  have hvisit := (hw.attached o).visited s hs d hd
  simp only [net, mem_flatMap] at hvisit
  obtain ⟨p, hp, -⟩ := hvisit
  exact ne_nil_of_mem hp

end

def pinsOn (nl : Netlist) (n : NodeId) : List PinRef :=
  nl.bases.flatMap fun x =>
    (x.model.pins.zipIdx.filter fun pk => decide (pk.1 = some n)).map fun pk => ⟨x.id, pk.2⟩

variable {nl : Netlist}

theorem mem_pinsOn {n : NodeId} {p : PinRef} : p ∈ pinsOn nl n ↔ nl.Points p n := by
  simp only [pinsOn, mem_flatMap, mem_map, mem_filter, decide_eq_true_eq,
    Netlist.Points]
  constructor
  · rintro ⟨x, hx, pk, ⟨hpk, hn⟩, rfl⟩
    exact ⟨x, hx, rfl, by rw [← hn]; exact mem_zipIdx_iff_getElem?.mp hpk⟩
  · rintro ⟨x, hx, hid, hpin⟩
    exact ⟨x, hx, (some n, p.k), ⟨mem_zipIdx_iff_getElem?.mpr hpin, rfl⟩, by rw [hid]⟩

def inOrder (nl : Netlist) : Board where
  nl := nl
  nodeAddr := fun n => match n with
    | .ground => 0
    | .node i => i + 1
  pinOrder := pinsOn nl

theorem isAnalog_eq_false (hnodes : ∀ nd ∈ b.nl.nodes, nd.numOfAnalogNode = 0)
    (hground : b.nl.groundNode.numOfAnalogNode = 0) (n : NodeId) : b.isAnalog n = false := by
  cases hn : b.nl.node? n with
  | none => simp [isAnalog, hn]
  | some nd =>
    have hzero : nd.numOfAnalogNode = 0 := by
      cases n with
      | ground =>
        obtain rfl : b.nl.groundNode = nd := by simpa [Netlist.node?] using hn
        exact hground
      | node i => exact hnodes nd (List.mem_of_getElem? hn)
    simp [isAnalog, hn, hzero]

theorem wired_inOrder (h : (nl.bases.map (·.id)).Nodup) : (inOrder nl).Wired :=
  ⟨h, fun _ _ => mem_pinsOn⟩

end Board

end PhyEngine
