import PhyEngine.Circuit.Devices
import PhyEngine.Netlist.Drivers

/-!
# Nets with several drivers

`resolve_multi_driver_digital_nets` gives every driver of a shared node a node of its own and
joins these by `RESOLVE2` models. The table of drivers does not list `DLATCH` and `TICK_DELAY`,
which stay on the shared node (`resolveMultiDriverDigitalNets_iff`).
-/

namespace PhyEngine

/-- The value of a wire: `Z` is ignored, drivers that agree keep their value, and any conflict
is `X`. -/
def wiredResolution (vs : Finset LogicT) : LogicT :=
  if .X ∈ vs ∨ (.L ∈ vs ∧ .H ∈ vs) then .X else if .L ∈ vs then .L else if .H ∈ vs then .H else .Z

theorem wiredResolution_singleton (a : LogicT) : wiredResolution {a} = a := by
  cases a <;> rfl

theorem wiredResolution_union (vs ws : Finset LogicT) :
    wiredResolution (vs ∪ ws) = resolve2 (wiredResolution vs) (wiredResolution ws) := by
  simp only [wiredResolution, Finset.mem_union]
  by_cases hx : LogicT.X ∈ vs <;> by_cases hx' : LogicT.X ∈ ws <;> by_cases hl : LogicT.L ∈ vs <;>
    by_cases hl' : LogicT.L ∈ ws <;> by_cases hh : LogicT.H ∈ vs <;> by_cases hh' : LogicT.H ∈ ws <;>
    simp [hx, hx', hl, hl', hh, hh', resolve2]

def isDigitalOutputPin (kind : ModelKind) (pinIndex : Nat) : Bool :=
  match kind with
  | .input => pinIndex == 0
  | .yes | .not | .isUnknown | .schmittTrigger => pinIndex == 1
  | .and | .or | .xor | .xnor | .nand | .nor | .imp | .nimp | .tri | .caseEq => pinIndex == 2
  | .dff | .tff | .tBarFf => pinIndex == 2
  | .dffArstn | .jkff => pinIndex == 3
  | .counter4 | .randomGenerator4 => decide (pinIndex < 4)
  | .halfAdder | .halfSub => pinIndex == 2 || pinIndex == 3
  | .fullAdder | .fullSub => pinIndex == 3 || pinIndex == 4
  | .mul2 => decide (4 ≤ pinIndex) && decide (pinIndex < 8)
  | .eightBitInput => decide (pinIndex < 8)
  | .resolve2 => pinIndex == 2
  | _ => false

namespace Netlist

def isListed (nl : Netlist) (p : PinRef) : Bool :=
  nl.bases.any fun b => b.id == p.id && decide (p.k < b.model.pins.length) && isDigitalOutputPin b.model.kind p.k

def detachDriver (nl : Netlist) (node : NodeId) (p : PinRef) : Netlist × NodeId :=
  let nl := nl.modifyNode node fun nd => { nd with pins := nd.pins.erase p }
  let (nl, dn) := nl.createNode
  let models := nl.models.map fun blk =>
    { blk with slots := blk.slots.map (Option.map (redirectPins {p} dn)) }
  let nl := { nl with models }
  (nl.modifyNode dn fun nd => { nd with pins := insert p nd.pins }, dn)

/-- The `RESOLVE2` models for the nodes that are left; `resolved` is the output so far. -/
def resolveChain (node : NodeId) : List NodeId → NodeId → Netlist → Netlist × Bool
  | [], _, nl => (nl, true)
  | dn :: rest, resolved, nl =>
    let (nl, res) := nl.addModel ⟨.resolve2, "", [], List.replicate 3 none⟩
    match nl.addToNode res 0 resolved with
    | (nl, false) => (nl, false)
    | (nl, true) =>
      match nl.addToNode res 1 dn with
      | (nl, false) => (nl, false)
      | (nl, true) =>
        let (nl, out) := if rest = [] then (nl, node) else nl.createNode
        match nl.addToNode res 2 out with
        | (nl, false) => (nl, false)
        | (nl, true) => resolveChain node rest out nl

/-- A node with several drivers is driven by a chain of `RESOLVE2` over them. -/
def resolveNode (isOut : PinRef → Bool) (order : Finset PinRef → List PinRef) (nl : Netlist) (node : NodeId) :
    Netlist × Bool :=
  match nl.node? node with
  | none => (nl, true)
  | some nd =>
    if nd.numOfAnalogNode ≠ 0 ∨ nd.pins.card < 2 then (nl, true)
    else
      let drivers := (order nd.pins).filter isOut
      if drivers.length ≤ 1 then (nl, true)
      else
        let detached := drivers.foldl (fun st p =>
          let (nl, dn) := st.1.detachDriver node p
          (nl, st.2 ++ [dn])) (nl, [])
        match detached.2 with
        | [] => (detached.1, true)
        | resolved :: rest => resolveChain node rest resolved detached.1

/-- `resolve_multi_driver_digital_nets`. `visit` are the nodes in the order the loop comes to them:
those of the netlist, and of those made on the way the ones in a block that is still read. -/
def resolveMultiDriverDigitalNets (allowMultiDriver : Bool) (order : Finset PinRef → List PinRef)
    (visit : List Nat) (nl : Netlist) : Netlist × Bool :=
  if allowMultiDriver then
    visit.foldl (fun st i => if st.2 then resolveNode nl.isListed order st.1 (.node i) else st) (nl, true)
  else (nl, true)

/-! ## What the pass is for -/

/-- The nodes hold what the drivers of `nl` put on them, and every `RESOLVE2` of `cur` has
settled. -/
structure Resolves (nl cur : Netlist) (drive : PinRef → LogicT) (v : NodeId → LogicT) : Prop where
  drivers : ∀ p n, (∃ m, nl.DrivesNode p m) → cur.DrivesNode p n → v n = drive p
  resolvers : ∀ b ∈ cur.bases, b.model.kind = .resolve2 → ∀ x y z,
    b.model.pins = [some x, some y, some z] → v z = resolve2 (v x) (v y)

/-- Every node has at most one driver, and the drivers of a node, whatever they emit, make it
settle on their resolution. -/
structure MultiDriversResolved (nl cur : Netlist) : Prop where
  single : ∀ p q n, cur.DrivesNode p n → cur.DrivesNode q n → p = q
  settles : ∀ drive, ∃ v, Resolves nl cur drive v
  value : ∀ drive v, Resolves nl cur drive v → ∀ n, (nl.driversOn n).Nonempty →
    v n = wiredResolution ((nl.driversOn n).image drive)

variable {nl : Netlist} {node : NodeId} {p : PinRef}

theorem not_isSome_new (nl : Netlist) : ¬ (nl.node? (.node nl.nodes.length)).isSome := by
  rw [isSome_node?]
  exact fun hall => Nat.lt_irrefl _ (hall _ rfl)

theorem node?_createNode_eq (nl : Netlist) (n : NodeId) :
    nl.createNode.1.node? n = if n = .node nl.nodes.length then some {} else nl.node? n := by
  cases n with
  | ground => rfl
  | node i =>
    change (nl.nodes ++ [({} : Node)])[i]? = _
    by_cases hi : i = nl.nodes.length
    · simp [hi]
    · have hne : NodeId.node i ≠ .node nl.nodes.length := fun heq => hi (NodeId.node.inj heq)
      rw [if_neg hne]
      rcases Nat.lt_or_gt_of_ne hi with hlt | hgt
      · rw [List.getElem?_append_left hlt]
        rfl
      · rw [List.getElem?_append_right hgt.le]
        have hout : nl.nodes[i]? = none := List.getElem?_eq_none hgt.le
        have hone : ([({} : Node)])[i - nl.nodes.length]? = none := List.getElem?_eq_none (by simp; omega)
        exact hone.trans hout.symm

/-- A driver has left the shared node for the new node `dn`. -/
structure Detached (nl : Netlist) (p : PinRef) (dn : NodeId) (nl' : Netlist) : Prop where
  sound : Sound nl'
  bases : nl'.bases = nl.bases.map (redirectPins {p} dn)
  points : ∀ q n, nl'.Points q n ↔ (q = p ∧ n = dn) ∨ (q ≠ p ∧ nl.Points q n)
  fresh : ¬ (nl.node? dn).isSome
  isSome : ∀ n, (nl'.node? n).isSome ↔ (nl.node? n).isSome ∨ n = dn
  nextId : nl'.nextId = nl.nextId

theorem Sound.detachDriver (h : Sound nl) (hdigital : Digital nl) (hp : nl.Points p node) :
    Detached nl p (nl.detachDriver node p).2 (nl.detachDriver node p).1 := by
  set dn : NodeId := .node nl.nodes.length with hdn
  set nl' := (nl.detachDriver node p).1 with hnl'
  have hout : (nl.detachDriver node p).2 = dn := by
    rw [Netlist.detachDriver, hdn]
    simp only [Netlist.createNode, length_nodes_modifyNode]
  rw [hout]
  have hmodels : nl'.models = nl.models.map fun blk =>
      { blk with slots := blk.slots.map (Option.map (redirectPins {p} dn)) } := by
    rw [hnl', Netlist.detachDriver]
    simp only [Netlist.createNode, models_modifyNode, length_nodes_modifyNode, hdn]
  have hnext : nl'.nextId = nl.nextId := by
    rw [hnl', Netlist.detachDriver]
    simp only [Netlist.createNode, nextId_modifyNode]
  have hbases := bases_map_slots hmodels
  have hfresh : ¬ (nl.node? dn).isSome := not_isSome_new nl
  have hpoints : ∀ q n, nl'.Points q n ↔ (q = p ∧ n = dn) ∨ (q ≠ p ∧ nl.Points q n) := by
    intro q n
    rw [points_redirectPins hmodels (by
      intro q hq
      rw [Finset.mem_singleton.mp hq]
      exact ⟨node, hp⟩), Finset.mem_singleton]
  have hnodes : ∀ n, nl'.node? n = if n = dn then some { pins := {p} } else
      if node = n then (nl.node? n).map fun nd => { nd with pins := nd.pins.erase p } else nl.node? n := by
    intro n
    rw [hnl', Netlist.detachDriver]
    have hmodels (nl : Netlist) (ms : List ModelBlock) : ({ nl with models := ms } : Netlist).node? n = nl.node? n := by
      cases n <;> rfl
    have hsnd (nl : Netlist) : nl.createNode.2 = .node nl.nodes.length := rfl
    simp only [node?_modifyNode, hmodels, node?_createNode_eq, hsnd, length_nodes_modifyNode]
    by_cases hn : n = dn
    · rw [if_pos hn, if_pos hn.symm, if_pos hn]
      rfl
    · rw [if_neg hn, if_neg (Ne.symm hn), if_neg hn]
  have hsome : ∀ n, (nl'.node? n).isSome ↔ (nl.node? n).isSome ∨ n = dn := by
    intro n
    rw [hnodes]
    by_cases hn : n = dn
    · simp [hn]
    · by_cases hnode : node = n <;> simp [hn, hnode]
  have hdigital' : Digital nl' := by
    intro c hc
    rw [hbases] at hc
    obtain ⟨b, hb, rfl⟩ := List.mem_map.mp hc
    exact hdigital b hb
  have hdn : ∀ q, ¬ nl.Points q dn := by
    rintro q ⟨b, hb, -, hk⟩
    exact hfresh (h.isSome_node? hb (List.mem_of_getElem? hk))
  refine ⟨⟨⟨?_, ?_, ?_⟩, ?_, ?_⟩, hbases, hpoints, hfresh, hsome, ?_⟩
  · intro n nd hnd q
    rw [hnodes] at hnd
    rw [hpoints]
    by_cases hn : n = dn
    · rw [if_pos hn, Option.some.injEq] at hnd
      simp [← hnd, hn, hdn]
    · rw [if_neg hn] at hnd
      by_cases hnode : node = n
      · subst hnode
        rw [if_pos rfl] at hnd
        obtain ⟨nd₀, hnd₀, rfl⟩ := Option.map_eq_some_iff.mp hnd
        simp [hn, h.consistent.pins_exact node nd₀ hnd₀ q]
      · rw [if_neg hnode] at hnd
        rw [h.consistent.pins_exact n nd hnd q]
        have hother : nl.Points q n → q ≠ p := by
          rintro hq rfl
          exact hnode (h.points_unique hp hq)
        simp [hn]
        exact hother
  · intro m hm n hn
    rw [hsome]
    obtain ⟨c, hc, rfl⟩ := mem_bases_of_mem_normals hm
    obtain ⟨k, hk⟩ := List.mem_iff_getElem?.mp hn
    rcases (hpoints ⟨c.id, k⟩ n).mp ⟨c, hc, rfl, hk⟩ with ⟨-, rfl⟩ | ⟨-, b, hb, -, hk⟩
    · exact .inr rfl
    · exact .inl (h.isSome_node? hb (List.mem_of_getElem? hk))
  · intro n nd hnd
    have hzero : ∀ n nd, nl.node? n = some nd → nd.numOfAnalogNode = 0 := by
      intro n nd hnd
      rw [h.consistent.num_analog n nd hnd, hdigital.analogPins_eq_zero n]
      rfl
    rw [hdigital'.analogPins_eq_zero n]
    rw [hnodes] at hnd
    by_cases hn : n = dn
    · rw [if_pos hn, Option.some.injEq] at hnd
      rw [← hnd]
      rfl
    · rw [if_neg hn] at hnd
      by_cases hnode : node = n
      · rw [if_pos hnode] at hnd
        obtain ⟨nd₀, hnd₀, rfl⟩ := Option.map_eq_some_iff.mp hnd
        exact hzero n nd₀ hnd₀
      · rw [if_neg hnode] at hnd
        exact hzero n nd hnd
  · rw [hbases, List.map_map]
    exact h.nodup
  · intro c hc
    rw [hbases] at hc
    obtain ⟨b, hb, rfl⟩ := List.mem_map.mp hc
    rw [hnext]
    exact h.lt b hb
  · exact hnext

structure Joined (nl : Netlist) (x y out : NodeId) (nl' : Netlist) : Prop where
  sound : Sound nl'
  bases : nl'.bases = nl.bases ++ [⟨nl.nextId, ⟨.resolve2, "", [], [some x, some y, some out]⟩⟩]
  isSome : ∀ n, (nl'.node? n).isSome ↔ (nl.node? n).isSome ∨ n = out
  nextId : nl'.nextId = nl.nextId + 1

theorem Connecting.createNode {m : Model} {pos : ModelPos} {done : List NodeId} {todo : Nat} {cur : Netlist}
    (h : Connecting nl m pos done todo cur) : Connecting nl.createNode.1 m pos done todo cur.createNode.1 where
  sound := h.sound.createNode
  bases := h.bases
  getModel := h.getModel
  others := h.others
  length_nodes := by simp [Netlist.createNode, h.length_nodes]
  nextId := h.nextId

variable {dn n x y out : NodeId} {c : ModelBase} {q : PinRef} {order : Finset PinRef → List PinRef}

theorem resolveChain_cons (h : Sound nl) (hnode : (nl.node? node).isSome) {resolved : NodeId} (rest : List NodeId)
    (hresolved : (nl.node? resolved).isSome) (hdn : (nl.node? dn).isSome) :
    ∃ nl', let out := if rest = [] then node else .node nl.nodes.length
      resolveChain node (dn :: rest) resolved nl = resolveChain node rest out nl' ∧ Joined nl resolved dn out nl' := by
  set m : Model := ⟨.resolve2, "", [], List.replicate 3 none⟩ with hm
  obtain ⟨h₁, hc₁⟩ := (Connecting.start h m 3 rfl).step hresolved
  obtain ⟨h₂, hc₂⟩ := hc₁.step hdn
  set pos := (nl.addModel m).2
  set nl₁ := ((nl.addModel m).1.addToNode pos 0 resolved).1
  set nl₂ := (nl₁.addToNode pos 1 dn).1
  have heq₁ : (nl.addModel m).1.addToNode pos 0 resolved = (nl₁, true) := Prod.ext rfl h₁
  have heq₂ : nl₁.addToNode pos 1 dn = (nl₂, true) := Prod.ext rfl h₂
  have hlen : nl₂.nodes.length = nl.nodes.length := hc₂.length_nodes
  by_cases hrest : rest = []
  · obtain ⟨h₃, hc₃⟩ := hc₂.step hnode
    have heq₃ : nl₂.addToNode pos 2 node = ((nl₂.addToNode pos 2 node).1, true) := Prod.ext rfl h₃
    refine ⟨(nl₂.addToNode pos 2 node).1, ?_, ?_⟩
    · rw [resolveChain]
      dsimp only
      rw [heq₁]
      dsimp only
      rw [heq₂]
      dsimp only
      rw [if_pos hrest, if_pos hrest, heq₃]
    · rw [if_pos hrest]
      refine ⟨hc₃.sound, hc₃.bases, fun n => ?_, hc₃.nextId⟩
      have hlen₃ : (nl₂.addToNode pos 2 node).1.nodes.length = nl.nodes.length := hc₃.length_nodes
      rw [isSome_node?_congr hlen₃]
      exact ⟨.inl, fun hn => hn.elim id fun heq => heq ▸ hnode⟩
  · have hnew : (nl.createNode.1.node? (.node nl.nodes.length)).isSome := by
      rw [node?_createNode_eq, if_pos rfl]
      rfl
    obtain ⟨h₃, hc₃⟩ := hc₂.createNode.step hnew
    set out : NodeId := .node nl.nodes.length with hout
    have hcreated : nl₂.createNode = (nl₂.createNode.1, out) := by
      rw [hout, ← hlen]
      rfl
    have heq₃ : nl₂.createNode.1.addToNode pos 2 out = ((nl₂.createNode.1.addToNode pos 2 out).1, true) :=
      Prod.ext rfl h₃
    refine ⟨(nl₂.createNode.1.addToNode pos 2 out).1, ?_, ?_⟩
    · rw [resolveChain]
      dsimp only
      rw [heq₁]
      dsimp only
      rw [heq₂]
      dsimp only
      rw [if_neg hrest, if_neg hrest, hcreated]
      dsimp only
      rw [heq₃]
    · rw [if_neg hrest]
      refine ⟨hc₃.sound, hc₃.bases, fun n => ?_, hc₃.nextId⟩
      have hlen₃ : (nl₂.createNode.1.addToNode pos 2 out).1.nodes.length = nl.createNode.1.nodes.length :=
        hc₃.length_nodes
      rw [isSome_node?_congr hlen₃, node?_createNode_eq, ← hout]
      by_cases hn : n = out <;> simp [hn]

/-! ## The netlist in the middle of the pass -/

def listedOn (nl : Netlist) (n : NodeId) : Finset PinRef := (nl.driversOn n).filter fun p => nl.isListed p = true

theorem Sound.mem_listedOn (h : Sound nl) (hemitted : ∀ b ∈ nl.bases, isEmitted b.model.kind = true) :
    p ∈ nl.listedOn n ↔ nl.isListed p = true ∧ nl.Points p n := by
  rw [listedOn, Finset.mem_filter, mem_driversOn, and_comm]
  refine and_congr_right fun hlisted => ⟨fun hd => hd.points, ?_⟩
  rintro ⟨b, hb, hid, hk⟩
  refine ⟨b, hb, hid, ?_, hk⟩
  simp only [isListed, List.any_eq_true, Bool.and_eq_true, beq_iff_eq] at hlisted
  obtain ⟨c, hc, ⟨hcid, -⟩, hpin⟩ := hlisted
  obtain rfl := h.eq_of_id hb hc (hid.trans hcid.symm)
  have hkind := hemitted b hb
  revert hpin hkind
  cases b.model.kind <;> simp [isDigitalOutputPin, isEmitted, drivesPin]

def IsResolver (c : ModelBase) (x y z : NodeId) : Prop :=
  c.model.kind = .resolve2 ∧ c.model.pins = [some x, some y, some z]

structure Source (nl cur : Netlist) (src : NodeId → Finset PinRef) (moved : Finset PinRef) (x : NodeId) : Prop where
  isSome : (cur.node? x).isSome
  fresh : ¬ (nl.node? x).isSome
  nonempty : (src x).Nonempty
  source : (∃ p ∈ moved, cur.Points p x ∧ src x = {p}) ∨ ∃ c ∈ cur.bases, ∃ y z, IsResolver c y z x

/-- The netlist in the middle of the pass: the drivers in `moved` have nodes of their own, the
nodes in `joined` are driven by a `RESOLVE2`, and a node is the resolution of the drivers
`src n`. -/
structure Resolving (nl cur : Netlist) (src : NodeId → Finset PinRef) (moved : Finset PinRef)
    (joined : List NodeId) : Prop where
  sound : Sound cur
  digital : Digital cur
  isSome : ∀ n, (nl.node? n).isSome → (cur.node? n).isSome
  nextId : nl.nextId ≤ cur.nextId
  old : ∀ b ∈ nl.bases, ∃ c ∈ cur.bases, c.id = b.id ∧ c.model.kind = b.model.kind
  models : ∀ c ∈ cur.bases, (∃ b ∈ nl.bases, b.id = c.id ∧ b.model.kind = c.model.kind) ∨
    (nl.nextId ≤ c.id ∧ ∃ x y z, IsResolver c x y z)
  resolvers : ∀ c ∈ cur.bases, ∀ x y z, IsResolver c x y z → Source nl cur src moved x ∧
    Source nl cur src moved y ∧ Disjoint (src x) (src y) ∧ src z = src x ∪ src y
  outs : ∀ c ∈ cur.bases, ∀ c' ∈ cur.bases, ∀ x y x' y' z, IsResolver c x y z → IsResolver c' x' y' z → c = c'
  driven : ∀ n, (nl.node? n).isSome → ((∃ c ∈ cur.bases, ∃ x y, IsResolver c x y n) ↔ n ∈ joined)
  kept : ∀ p n, p.id < nl.nextId → p ∉ moved → (cur.Points p n ↔ nl.Points p n)
  detached : ∀ p ∈ moved, nl.isListed p = true ∧ ∃ m, cur.Points p m ∧ ¬ (nl.node? m).isSome ∧ src m = {p}
  source : ∀ n, (nl.node? n).isSome → src n = nl.listedOn n

variable {cur cur' : Netlist} {src src' : NodeId → Finset PinRef} {moved : Finset PinRef} {joined : List NodeId}

theorem Sound.isListed_lt (h : Sound nl) (hp : nl.isListed p = true) : p.id < nl.nextId := by
  simp only [isListed, List.any_eq_true, Bool.and_eq_true, beq_iff_eq] at hp
  obtain ⟨b, hb, ⟨hid, -⟩, -⟩ := hp
  exact hid ▸ h.lt b hb

theorem resolving_start (h : Sound nl) (hdigital : Digital nl)
    (hemitted : ∀ b ∈ nl.bases, isEmitted b.model.kind = true) : Resolving nl nl nl.listedOn ∅ [] := by
  have hnone : ∀ c ∈ nl.bases, ∀ x y z, ¬ IsResolver c x y z := by
    rintro c hc x y z ⟨hkind, -⟩
    have := hemitted c hc
    rw [hkind] at this
    cases this
  exact {
    sound := h
    digital := hdigital
    isSome := fun _ hn => hn
    nextId := Nat.le_refl _
    old := fun b hb => ⟨b, hb, rfl, rfl⟩
    models := fun c hc => .inl ⟨c, hc, rfl, rfl⟩
    resolvers := fun c hc x y z hr => absurd hr (hnone c hc x y z)
    outs := fun c hc _ _ x y _ _ z hr => absurd hr (hnone c hc x y z)
    driven := fun n _ => ⟨fun ⟨c, hc, x, y, hr⟩ => absurd hr (hnone c hc x y n), fun hn => absurd hn List.not_mem_nil⟩
    kept := fun _ _ _ _ => Iff.rfl
    detached := fun p hp => absurd hp (Finset.notMem_empty p)
    source := fun _ _ => rfl }

theorem Sound.isSome_resolver (h : Sound nl) (hc : c ∈ nl.bases) {z : NodeId} (hr : IsResolver c x y z) :
    (nl.node? x).isSome ∧ (nl.node? y).isSome ∧ (nl.node? z).isSome := by
  refine ⟨h.isSome_node? hc ?_, h.isSome_node? hc ?_, h.isSome_node? hc ?_⟩ <;> simp [hr.2]

theorem Source.congr (hx : Source nl cur src moved x) (hsrc : ∀ n, (cur.node? n).isSome → src' n = src n) :
    Source nl cur src' moved x := by
  have heq := hsrc x hx.isSome
  exact ⟨hx.isSome, hx.fresh, heq ▸ hx.nonempty, heq ▸ hx.source⟩

theorem Resolving.congr (h : Resolving nl cur src moved joined)
    (hsrc : ∀ n, (cur.node? n).isSome → src' n = src n) : Resolving nl cur src' moved joined := by
  refine { h with resolvers := ?_, detached := ?_, source := ?_ }
  · intro c hc x y z hr
    obtain ⟨hx, hy, hdisj, hz⟩ := h.resolvers c hc x y z hr
    obtain ⟨hxs, hys, hzs⟩ := h.sound.isSome_resolver hc hr
    refine ⟨hx.congr hsrc, hy.congr hsrc, ?_, ?_⟩
    · rw [hsrc x hxs, hsrc y hys]
      exact hdisj
    · rw [hsrc x hxs, hsrc y hys, hsrc z hzs]
      exact hz
  · intro p hp
    obtain ⟨hlisted, m, hm, hfresh, heq⟩ := h.detached p hp
    exact ⟨hlisted, m, hm, hfresh, by rw [hsrc m (h.sound.isSome_points hm), heq]⟩
  · intro n hn
    rw [hsrc n (h.isSome n hn), h.source n hn]

theorem Joined.points (h : Joined cur x y out cur') (hq : q.id < cur.nextId) (n : NodeId) :
    cur'.Points q n ↔ cur.Points q n := by
  constructor
  · rintro ⟨c, hc, hid, hk⟩
    rw [h.bases, List.mem_append, List.mem_singleton] at hc
    rcases hc with hc | rfl
    · exact ⟨c, hc, hid, hk⟩
    · exact absurd hid (Nat.ne_of_gt hq)
  · rintro ⟨c, hc, hid, hk⟩
    exact ⟨c, h.bases ▸ List.mem_append_left _ hc, hid, hk⟩

section

variable (hr : Resolving nl cur src moved joined)
include hr

theorem Source.join (hs : Sound nl) {z : NodeId}
    (hx : Source nl cur src moved z) (h : Joined cur x y out cur') : Source nl cur' src moved z where
  isSome := (h.isSome z).mpr (.inl hx.isSome)
  fresh := hx.fresh
  nonempty := hx.nonempty
  source := by
    rcases hx.source with ⟨p, hp, hpoints, heq⟩ | ⟨c, hc, hres⟩
    · have hlt : p.id < cur.nextId := Nat.lt_of_lt_of_le (hs.isListed_lt (hr.detached p hp).1) hr.nextId
      exact .inl ⟨p, hp, (h.points hlt z).mpr hpoints, heq⟩
    · exact .inr ⟨c, h.bases ▸ List.mem_append_left _ hc, hres⟩

theorem Resolving.join (hs : Sound nl) (h : Joined cur x y out cur')
    (hx : Source nl cur src moved x) (hy : Source nl cur src moved y) (hdisj : Disjoint (src x) (src y))
    (hout : src out = src x ∪ src y) (hnone : ∀ c ∈ cur.bases, ∀ x' y', ¬ IsResolver c x' y' out)
    {joined' : List NodeId} (hjoined : ∀ n, (nl.node? n).isSome → (n ∈ joined' ↔ n ∈ joined ∨ n = out)) :
    Resolving nl cur' src moved joined' := by
  set new : ModelBase := ⟨cur.nextId, ⟨.resolve2, "", [], [some x, some y, some out]⟩⟩ with hnew
  have hmem : ∀ c, c ∈ cur'.bases ↔ c ∈ cur.bases ∨ c = new := by
    intro c
    rw [h.bases, List.mem_append, List.mem_singleton]
  have hnewPins : ∀ {x' y' z'}, IsResolver new x' y' z' → x' = x ∧ y' = y ∧ z' = out := by
    rintro x' y' z' ⟨-, hpins⟩
    rw [hnew] at hpins
    simp only [List.cons.injEq, Option.some.injEq] at hpins
    exact ⟨hpins.1.symm, hpins.2.1.symm, hpins.2.2.1.symm⟩
  refine { hr with
    sound := h.sound, digital := ?_, isSome := ?_, nextId := ?_, old := ?_, models := ?_, resolvers := ?_,
    outs := ?_, driven := ?_, kept := ?_, detached := ?_ }
  · intro c hc
    rcases (hmem c).mp hc with hc | rfl
    · exact hr.digital c hc
    · rfl
  · exact fun n hn => (h.isSome n).mpr (.inl (hr.isSome n hn))
  · exact Nat.le_trans hr.nextId (h.nextId ▸ Nat.le_succ _)
  · intro b hb
    obtain ⟨c, hc, hid⟩ := hr.old b hb
    exact ⟨c, (hmem c).mpr (.inl hc), hid⟩
  · intro c hc
    rcases (hmem c).mp hc with hc | rfl
    · exact hr.models c hc
    · exact .inr ⟨hr.nextId, x, y, out, rfl, rfl⟩
  · intro c hc x' y' z' hres
    rcases (hmem c).mp hc with hc | rfl
    · obtain ⟨hx', hy', hrest⟩ := hr.resolvers c hc x' y' z' hres
      exact ⟨hx'.join hr hs h, hy'.join hr hs h, hrest⟩
    · obtain ⟨rfl, rfl, rfl⟩ := hnewPins hres
      exact ⟨hx.join hr hs h, hy.join hr hs h, hdisj, hout⟩
  · intro c hc c' hc' x₁ y₁ x₂ y₂ z hres hres'
    rcases (hmem c).mp hc with hc | rfl
    · rcases (hmem c').mp hc' with hc' | rfl
      · exact hr.outs c hc c' hc' x₁ y₁ x₂ y₂ z hres hres'
      · obtain ⟨-, -, rfl⟩ := hnewPins hres'
        exact absurd hres (hnone c hc x₁ y₁)
    · obtain ⟨-, -, rfl⟩ := hnewPins hres
      rcases (hmem c').mp hc' with hc' | rfl
      · exact absurd hres' (hnone c' hc' x₂ y₂)
      · rfl
  · intro n hn
    rw [hjoined n hn, ← hr.driven n hn]
    constructor
    · rintro ⟨c, hc, x', y', hres⟩
      rcases (hmem c).mp hc with hc | rfl
      · exact .inl ⟨c, hc, x', y', hres⟩
      · exact .inr (hnewPins hres).2.2
    · rintro (⟨c, hc, hres⟩ | rfl)
      · exact ⟨c, (hmem c).mpr (.inl hc), hres⟩
      · exact ⟨new, (hmem new).mpr (.inr rfl), x, y, rfl, rfl⟩
  · intro p n hp hpm
    rw [h.points (Nat.lt_of_lt_of_le hp hr.nextId)]
    exact hr.kept p n hp hpm
  · intro p hp
    obtain ⟨hlisted, m, hm, hrest⟩ := hr.detached p hp
    have hlt : p.id < cur.nextId := Nat.lt_of_lt_of_le (hs.isListed_lt hlisted) hr.nextId
    exact ⟨hlisted, m, (h.points hlt m).mpr hm, hrest⟩

omit hr in
theorem redirectPins_of_ne {b : ModelBase} (hne : b.id ≠ p.id) : redirectPins {p} dn b = b := by
  have hpins : (b.model.pins.mapIdx fun k q => if (⟨b.id, k⟩ : PinRef) ∈ ({p} : Finset PinRef) then some dn else q)
      = b.model.pins := by
    refine List.ext_getElem (by simp) fun k _ _ => ?_
    have hnot : (⟨b.id, k⟩ : PinRef) ∉ ({p} : Finset PinRef) := by
      rw [Finset.mem_singleton]
      exact fun heq => hne (congrArg PinRef.id heq)
    rw [List.getElem_mapIdx, if_neg hnot]
  rw [redirectPins, hpins]

theorem Resolving.detach (hs : Sound nl)
    (hemitted : ∀ b ∈ nl.bases, isEmitted b.model.kind = true) (h : Detached cur p dn cur')
    (hlisted : nl.isListed p = true) (hp : p ∉ moved) (hdn : src dn = {p}) :
    Resolving nl cur' src (insert p moved) joined ∧ ∀ x, Source nl cur src moved x →
      Source nl cur' src (insert p moved) x := by
  have hlt := hs.isListed_lt hlisted
  have hmem : ∀ c, c ∈ cur'.bases ↔ ∃ b ∈ cur.bases, redirectPins {p} dn b = c := by
    intro c
    rw [h.bases, List.mem_map]
  -- a resolver is not the model of the pin
  have hres : ∀ c x y z, IsResolver c x y z → (c ∈ cur'.bases ↔ c ∈ cur.bases) := by
    intro c x y z hc
    have hid : ∀ b ∈ cur.bases, b.model.kind = .resolve2 → b.id ≠ p.id := by
      intro b hb hkind
      rcases hr.models b hb with ⟨b', hb', -, heq⟩ | ⟨hge, -⟩
      · have := hemitted b' hb'
        rw [heq, hkind] at this
        cases this
      · omega
    rw [hmem]
    constructor
    · rintro ⟨b, hb, rfl⟩
      rw [redirectPins_of_ne (hid b hb hc.1)]
      exact hb
    · exact fun hcb => ⟨c, hcb, redirectPins_of_ne (hid c hcb hc.1)⟩
  have hpoints : ∀ q ∈ moved, ∀ n, cur.Points q n → cur'.Points q n := by
    intro q hq n hqn
    refine (h.points q n).mpr (.inr ⟨?_, hqn⟩)
    rintro rfl
    exact hp hq
  have hsource : ∀ x, Source nl cur src moved x → Source nl cur' src (insert p moved) x := by
    intro x hx
    refine ⟨(h.isSome x).mpr (.inl hx.isSome), hx.fresh, hx.nonempty, ?_⟩
    rcases hx.source with ⟨q, hq, hqx, heq⟩ | ⟨c, hc, y, z, hyz⟩
    · exact .inl ⟨q, Finset.mem_insert_of_mem hq, hpoints q hq x hqx, heq⟩
    · exact .inr ⟨c, (hres c y z x hyz).mpr hc, y, z, hyz⟩
  refine ⟨{ hr with
    sound := h.sound, digital := ?_, isSome := ?_, nextId := ?_, old := ?_, models := ?_, resolvers := ?_,
    outs := ?_, driven := ?_, kept := ?_, detached := ?_ }, hsource⟩
  · intro c hc
    obtain ⟨b, hb, rfl⟩ := (hmem c).mp hc
    exact hr.digital b hb
  · exact fun n hn => (h.isSome n).mpr (.inl (hr.isSome n hn))
  · exact h.nextId ▸ hr.nextId
  · intro b hb
    obtain ⟨c, hc, hid⟩ := hr.old b hb
    exact ⟨_, (hmem _).mpr ⟨c, hc, rfl⟩, hid⟩
  · intro c hc
    obtain ⟨b, hb, rfl⟩ := (hmem c).mp hc
    refine (hr.models b hb).imp id ?_
    rintro ⟨hge, hyz⟩
    rw [redirectPins_of_ne (by omega : b.id ≠ p.id)]
    exact ⟨hge, hyz⟩
  · intro c hc x y z hyz
    obtain ⟨hx, hy, hrest⟩ := hr.resolvers c ((hres c x y z hyz).mp hc) x y z hyz
    exact ⟨hsource x hx, hsource y hy, hrest⟩
  · intro c hc c' hc' x y x' y' z hyz hyz'
    exact hr.outs c ((hres c x y z hyz).mp hc) c' ((hres c' x' y' z hyz').mp hc') x y x' y' z hyz hyz'
  · intro n hn
    rw [← hr.driven n hn]
    constructor
    · rintro ⟨c, hc, x, y, hyz⟩
      exact ⟨c, (hres c x y n hyz).mp hc, x, y, hyz⟩
    · rintro ⟨c, hc, x, y, hyz⟩
      exact ⟨c, (hres c x y n hyz).mpr hc, x, y, hyz⟩
  · intro q n hq hqm
    rw [Finset.mem_insert, not_or] at hqm
    rw [h.points, ← hr.kept q n hq hqm.2]
    simp [hqm.1]
  · intro q hq
    rcases Finset.mem_insert.mp hq with rfl | hq
    · refine ⟨hlisted, dn, (h.points q dn).mpr (.inl ⟨rfl, rfl⟩), fun hold => h.fresh (hr.isSome dn hold), hdn⟩
    · obtain ⟨hql, m, hm, hrest⟩ := hr.detached q hq
      exact ⟨hql, m, hpoints q hq m hm, hrest⟩

end

theorem Resolving.resolveChain (hs : Sound nl) (hnode : (nl.node? node).isSome) (hnj : node ∉ joined)
    (dns : List NodeId) : ∀ {cur : Netlist} {src : NodeId → Finset PinRef} {resolved : NodeId},
    Resolving nl cur src moved joined → dns ≠ [] → Source nl cur src moved resolved →
    (∀ d ∈ dns, Source nl cur src moved d) → (∀ d ∈ dns, Disjoint (src resolved) (src d)) →
    dns.Pairwise (fun d e => Disjoint (src d) (src e)) →
    (∀ q, q ∈ src node ↔ q ∈ src resolved ∨ ∃ d ∈ dns, q ∈ src d) →
    ∃ cur' src', Netlist.resolveChain node dns resolved cur = (cur', true) ∧
      Resolving nl cur' src' moved (node :: joined) := by
  induction dns with
  | nil => exact fun _ hne => absurd rfl hne
  | cons d rest ih =>
    intro cur src resolved hr _ hresolved hdns hdisj hpair hsum
    have hd := hdns d List.mem_cons_self
    have hdrest := hdisj d List.mem_cons_self
    rw [List.pairwise_cons] at hpair
    obtain ⟨cur', heq, hj⟩ := resolveChain_cons hr.sound (hr.isSome node hnode) rest hresolved.isSome hd.isSome
    by_cases hrest : rest = []
    · rw [if_pos hrest] at heq hj
      refine ⟨cur', src, ?_, ?_⟩
      · rw [heq, hrest, Netlist.resolveChain]
      · refine hr.join hs hj hresolved hd hdrest ?_ ?_ fun n _ => ?_
        · ext q
          rw [hsum, hrest, Finset.mem_union]
          simp
        · exact fun c hc x y hres => hnj ((hr.driven node hnode).mp ⟨c, hc, x, y, hres⟩)
        · rw [List.mem_cons, or_comm]
    · rw [if_neg hrest] at heq hj
      set out : NodeId := .node cur.nodes.length with hout
      have hfresh : ¬ (cur.node? out).isSome := not_isSome_new cur
      -- the new node is the resolution of the drivers joined so far
      set src₁ := Function.update src out (src resolved ∪ src d) with hsrc₁
      have hkeep : ∀ n, (cur.node? n).isSome → src₁ n = src n := by
        intro n hn
        refine Function.update_of_ne ?_ _ _
        rintro rfl
        exact hfresh hn
      have hself : src₁ out = src resolved ∪ src d := Function.update_self _ _ _
      have hkeepRest : ∀ e ∈ rest, src₁ e = src e := fun e he => hkeep e (hdns e (List.mem_cons_of_mem _ he)).isSome
      have hr₁ := hr.congr hkeep
      have hjoined : Resolving nl cur' src₁ moved joined := by
        refine hr₁.join hs hj (hresolved.congr hkeep) (hd.congr hkeep) ?_ ?_ ?_ fun n hn => ?_
        · rw [hkeep _ hresolved.isSome, hkeep _ hd.isSome]
          exact hdrest
        · rw [hkeep _ hresolved.isSome, hkeep _ hd.isSome, hself]
        · exact fun c hc x y hres => hfresh (hr.sound.isSome_resolver hc hres).2.2
        · refine ⟨.inl, fun h => h.resolve_right ?_⟩
          rintro rfl
          exact hfresh (hr.isSome out hn)
      have hmem : (⟨cur.nextId, ⟨.resolve2, "", [], [some resolved, some d, some out]⟩⟩ : ModelBase) ∈ cur'.bases :=
        hj.bases ▸ List.mem_append_right _ (List.mem_singleton_self _)
      have hsource : Source nl cur' src₁ moved out := by
        refine ⟨(hj.isSome out).mpr (.inr rfl), fun hold => hfresh (hr.isSome out hold), ?_, ?_⟩
        · rw [hself]
          exact hresolved.nonempty.inl
        · exact .inr ⟨_, hmem, resolved, d, rfl, rfl⟩
      rw [heq]
      refine ih hjoined hrest hsource ?_ ?_ ?_ ?_
      · exact fun e he => ((hdns e (List.mem_cons_of_mem _ he)).congr hkeep).join hr₁ hs hj
      · intro e he
        rw [hself, hkeepRest e he]
        exact Finset.disjoint_union_left.mpr ⟨hdisj e (List.mem_cons_of_mem _ he), hpair.1 e he⟩
      · refine hpair.2.imp_of_mem fun he he' hdisj => ?_
        rw [hkeepRest _ he, hkeepRest _ he']
        exact hdisj
      · intro q
        rw [hkeep node (hr.isSome node hnode), hsum, hself, Finset.mem_union]
        have hrestIff : (∃ e ∈ rest, q ∈ src₁ e) ↔ ∃ e ∈ rest, q ∈ src e :=
          exists_congr fun e => and_congr_right fun he => by rw [hkeepRest e he]
        rw [hrestIff]
        simp [or_assoc]

theorem Resolving.detachAll (hs : Sound nl) (hemitted : ∀ b ∈ nl.bases, isEmitted b.model.kind = true)
    (ps : List PinRef) : ∀ {cur : Netlist} {src : NodeId → Finset PinRef} {moved : Finset PinRef} (dns : List NodeId),
    Resolving nl cur src moved joined → ps.Nodup →
    (∀ p ∈ ps, nl.isListed p = true ∧ p ∉ moved ∧ cur.Points p node) →
    ∃ cur' src' ds, ps.foldl (fun st p => ((st.1.detachDriver node p).1, st.2 ++ [(st.1.detachDriver node p).2]))
        (cur, dns) = (cur', dns ++ ds) ∧
      Resolving nl cur' src' (moved ∪ ps.toFinset) joined ∧
      (∀ x, Source nl cur src moved x → Source nl cur' src' (moved ∪ ps.toFinset) x ∧ src' x = src x) ∧
      (∀ d ∈ ds, Source nl cur' src' (moved ∪ ps.toFinset) d) ∧ ds.map src' = ps.map fun p => {p} := by
  induction ps with
  | nil =>
    intro cur src moved dns hr _ _
    refine ⟨cur, src, [], by simp, ?_⟩
    have hmoved : moved ∪ ([] : List PinRef).toFinset = moved := by simp
    rw [hmoved]
    exact ⟨hr, fun x hx => ⟨hx, rfl⟩, fun d hd => absurd hd List.not_mem_nil, rfl⟩
  | cons p ps ih =>
    intro cur src moved dns hr hnodup hps
    rw [List.nodup_cons] at hnodup
    obtain ⟨hlisted, hp, hpoints⟩ := hps p List.mem_cons_self
    have hd := hr.sound.detachDriver hr.digital hpoints
    set dn := (cur.detachDriver node p).2
    set cur₁ := (cur.detachDriver node p).1
    set src₁ := Function.update src dn {p} with hsrc₁
    have hkeep : ∀ n, (cur.node? n).isSome → src₁ n = src n := by
      intro n hn
      refine Function.update_of_ne ?_ _ _
      rintro rfl
      exact hd.fresh hn
    have hself : src₁ dn = {p} := Function.update_self _ _ _
    obtain ⟨hr₁, hsource₁⟩ := (hr.congr hkeep).detach hs hemitted hd hlisted hp hself
    have hdn : Source nl cur₁ src₁ (insert p moved) dn := by
      refine ⟨(hd.isSome dn).mpr (.inr rfl), fun hold => hd.fresh (hr.isSome dn hold), ?_, .inl ⟨p,
        Finset.mem_insert_self _ _, (hd.points p dn).mpr (.inl ⟨rfl, rfl⟩), hself⟩⟩
      rw [hself]
      exact Finset.singleton_nonempty p
    obtain ⟨cur', src', ds, hfold, hr', hkept, hds, hmap⟩ := ih (dns ++ [dn]) hr₁ hnodup.2 fun q hq => by
      obtain ⟨hql, hqm, hqp⟩ := hps q (List.mem_cons_of_mem _ hq)
      have hne : q ≠ p := by
        rintro rfl
        exact hnodup.1 hq
      refine ⟨hql, ?_, (hd.points q node).mpr (.inr ⟨hne, hqp⟩)⟩
      rw [Finset.mem_insert, not_or]
      exact ⟨hne, hqm⟩
    have hmoved : moved ∪ (p :: ps).toFinset = insert p moved ∪ ps.toFinset := by
      rw [List.toFinset_cons, Finset.union_insert, Finset.insert_union]
    rw [hmoved]
    refine ⟨cur', src', dn :: ds, ?_, hr', ?_, ?_, ?_⟩
    · rw [List.foldl_cons, hfold, List.append_assoc, List.singleton_append]
    · intro x hx
      obtain ⟨hx', heq⟩ := hkept x (hsource₁ x (hx.congr hkeep))
      exact ⟨hx', heq.trans (hkeep x hx.isSome)⟩
    · intro d hmem
      rcases List.mem_cons.mp hmem with rfl | hmem
      · exact (hkept _ hdn).1
      · exact hds d hmem
    · rw [List.map_cons, List.map_cons, hmap, (hkept dn hdn).2, hself]

/-- The netlist between two steps of the loop: the drivers that moved are the listed drivers of
the nodes that are joined, and these had at least two of them. -/
structure Between (nl cur : Netlist) (src : NodeId → Finset PinRef) (moved : Finset PinRef)
    (joined : List NodeId) : Prop extends Resolving nl cur src moved joined where
  moved_iff : ∀ p, p ∈ moved ↔ ∃ n ∈ joined, p ∈ nl.listedOn n
  many : ∀ n ∈ joined, n ≠ .ground ∧ 2 ≤ (nl.listedOn n).card

/-- A listing of the pins of a node in some order. -/
def Enumerates (order : Finset PinRef → List PinRef) : Prop := ∀ s, (order s).Nodup ∧ (order s).toFinset = s

theorem exists_ne_of_length {α : Type*} {xs : List α} (hnodup : xs.Nodup) (hlen : 2 ≤ xs.length) (a : α) :
    ∃ b ∈ xs, b ≠ a := by
  match xs, hnodup, hlen with
  | b :: c :: xs, hnodup, _ =>
    by_cases hb : b = a
    · refine ⟨c, by simp, ?_⟩
      rintro rfl
      simp [hb] at hnodup
    · exact ⟨b, by simp, hb⟩

section

variable (hs : Sound nl) (hemitted : ∀ b ∈ nl.bases, isEmitted b.model.kind = true) (horder : Enumerates order)

include hs hemitted horder

theorem Between.resolveNode (h : Between nl cur src moved joined) (i : Nat) :
    ∃ cur' src' moved' joined', Netlist.resolveNode nl.isListed order cur (.node i) = (cur', true) ∧
      Between nl cur' src' moved' joined' ∧ (∀ n ∈ joined, n ∈ joined') ∧
      ((nl.listedOn (.node i)).card ≤ 1 ∨ .node i ∈ joined') := by
  set node : NodeId := .node i with hnode
  have hlisted : ∀ {q n}, q ∈ nl.listedOn n ↔ nl.isListed q = true ∧ nl.Points q n := hs.mem_listedOn hemitted
  have hnew : ∀ {q}, q ∈ moved → nl.Points q node → node ∈ joined := by
    intro q hq hpoints
    obtain ⟨n, hn, hqn⟩ := (h.moved_iff q).mp hq
    rwa [hs.points_unique hpoints (hlisted.mp hqn).2]
  unfold Netlist.resolveNode
  cases hnd : cur.node? node with
  | none =>
    refine ⟨cur, src, moved, joined, rfl, h, fun _ hn => hn, .inl ?_⟩
    rw [Finset.card_eq_zero.mpr]
    · exact Nat.zero_le 1
    · refine Finset.eq_empty_of_forall_notMem fun q hq => ?_
      have := h.isSome node (hs.isSome_points (hlisted.mp hq).2)
      rw [hnd] at this
      cases this
  | some nd =>
    dsimp only
    set drivers := (order nd.pins).filter nl.isListed with hdrivers
    have hnodup : drivers.Nodup := (horder nd.pins).1.filter _
    have hmem : ∀ q, q ∈ drivers ↔ nl.isListed q = true ∧ cur.Points q node := by
      intro q
      rw [hdrivers, List.mem_filter, ← List.mem_toFinset, (horder nd.pins).2,
        h.sound.consistent.pins_exact node nd hnd, and_comm]
    have hall : node ∉ joined → ∀ q ∈ nl.listedOn node, q ∈ drivers := by
      intro hnj q hq
      obtain ⟨hql, hqp⟩ := hlisted.mp hq
      exact (hmem q).mpr ⟨hql, (h.kept q node (hs.isListed_lt hql) fun hqm => hnj (hnew hqm hqp)).mpr hqp⟩
    have hfew : drivers.length ≤ 1 → (nl.listedOn node).card ≤ 1 ∨ node ∈ joined := by
      intro hle
      by_cases hnj : node ∈ joined
      · exact .inr hnj
      · refine .inl (Nat.le_trans (Finset.card_le_card fun q hq => ?_) (Nat.le_trans drivers.toFinset_card_le hle))
        exact List.mem_toFinset.mpr (hall hnj q hq)
    by_cases hskip : nd.numOfAnalogNode ≠ 0 ∨ nd.pins.card < 2
    · rw [if_pos hskip]
      refine ⟨cur, src, moved, joined, rfl, h, fun _ hn => hn, hfew ?_⟩
      have hzero : nd.numOfAnalogNode = 0 := by
        rw [h.sound.consistent.num_analog node nd hnd, h.digital.analogPins_eq_zero node]
        rfl
      have hcard : nd.pins.card < 2 := hskip.resolve_left fun hne => hne hzero
      have hlen : (order nd.pins).length = nd.pins.card := by
        rw [← List.toFinset_card_of_nodup (horder nd.pins).1, (horder nd.pins).2]
      have := List.length_filter_le nl.isListed (order nd.pins)
      rw [← hdrivers] at this
      omega
    · rw [if_neg hskip]
      by_cases hle : drivers.length ≤ 1
      · rw [if_pos hle]
        exact ⟨cur, src, moved, joined, rfl, h, fun _ hn => hn, hfew hle⟩
      · rw [if_neg hle]
        have hlen : 2 ≤ drivers.length := by omega
        -- a node of its own has one driver
        have hunmoved : ∀ p ∈ drivers, p ∉ moved := by
          intro p hp hpm
          obtain ⟨q, hq, hne⟩ := exists_ne_of_length hnodup hlen p
          obtain ⟨hpl, hpp⟩ := (hmem p).mp hp
          obtain ⟨hql, hqp⟩ := (hmem q).mp hq
          obtain ⟨-, m, hm, hfresh, heq⟩ := h.detached p hpm
          obtain rfl := h.sound.points_unique hpp hm
          by_cases hqm : q ∈ moved
          · obtain ⟨-, m', hm', -, heq'⟩ := h.detached q hqm
            obtain rfl := h.sound.points_unique hqp hm'
            exact hne (Finset.singleton_injective (heq'.symm.trans heq))
          · exact hfresh (hs.isSome_points ((h.kept q _ (hs.isListed_lt hql) hqm).mp hqp))
        have hlist : ∀ p, p ∈ nl.listedOn node ↔ p ∈ drivers := by
          have hsub : ∀ p ∈ drivers, p ∈ nl.listedOn node := by
            intro p hp
            obtain ⟨hpl, hpp⟩ := (hmem p).mp hp
            exact hlisted.mpr ⟨hpl, (h.kept p node (hs.isListed_lt hpl) (hunmoved p hp)).mp hpp⟩
          obtain ⟨p, hp, -⟩ := exists_ne_of_length hnodup hlen ⟨0, 0⟩
          have hnj : node ∉ joined := fun hnj => hunmoved p hp ((h.moved_iff p).mpr ⟨node, hnj, hsub p hp⟩)
          exact fun q => ⟨hall hnj q, hsub q⟩
        have hset : nl.listedOn node = drivers.toFinset := by
          ext p
          rw [hlist, List.mem_toFinset]
        obtain ⟨p₀, hp₀, -⟩ := exists_ne_of_length hnodup hlen ⟨0, 0⟩
        have hold : (nl.node? node).isSome := hs.isSome_points (hlisted.mp ((hlist p₀).mpr hp₀)).2
        have hnj : node ∉ joined := fun hnj =>
          hunmoved p₀ hp₀ ((h.moved_iff p₀).mpr ⟨node, hnj, (hlist p₀).mpr hp₀⟩)
        obtain ⟨cur₁, src₁, ds, hfold, hr₁, -, hds, hmap⟩ := h.toResolving.detachAll hs hemitted drivers []
          hnodup fun p hp => ⟨((hmem p).mp hp).1, hunmoved p hp, ((hmem p).mp hp).2⟩
        rw [List.nil_append] at hfold
        have hcard : (nl.listedOn node).card = drivers.length := by
          rw [hset, List.toFinset_card_of_nodup hnodup]
        have hdsLen : ds.length = drivers.length := by
          simpa using congrArg List.length hmap
        have hpair : (ds.map src₁).Pairwise Disjoint := by
          rw [hmap, List.pairwise_map]
          exact hnodup.imp fun hne => Finset.disjoint_singleton.mpr hne
        have hsum : ∀ q, q ∈ src₁ node ↔ ∃ d ∈ ds, q ∈ src₁ d := by
          intro q
          have hmaps : (∃ d ∈ ds, q ∈ src₁ d) ↔ ∃ s ∈ ds.map src₁, q ∈ s := by simp
          rw [hr₁.source node hold, hlist, hmaps, hmap]
          simp
        rw [show drivers.foldl _ (cur, []) = (cur₁, ds) from hfold]
        dsimp only
        match ds, hdsLen, hds, hpair, hsum with
        | [], hdsLen, _, _, _ => simp at hdsLen; omega
        | resolved :: rest, hdsLen, hds, hpair, hsum =>
          have hrest : rest ≠ [] := by
            rintro rfl
            simp at hdsLen
            omega
          rw [List.map_cons, List.pairwise_cons] at hpair
          obtain ⟨cur', src', hchain, hr'⟩ := Resolving.resolveChain hs hold hnj rest hr₁ hrest
            (hds resolved List.mem_cons_self) (fun d hd => hds d (List.mem_cons_of_mem _ hd))
            (fun d hd => hpair.1 _ (List.mem_map_of_mem hd)) (List.pairwise_map.mp hpair.2) fun q => by
              rw [hsum]
              simp
          refine ⟨cur', src', _, _, hchain, { hr' with moved_iff := ?_, many := ?_ },
            fun n hn => List.mem_cons_of_mem _ hn, .inr List.mem_cons_self⟩
          · intro p
            rw [Finset.mem_union, h.moved_iff, List.mem_toFinset, ← hlist]
            simp [or_comm]
          · intro n hn
            rcases List.mem_cons.mp hn with rfl | hn
            · exact ⟨NodeId.noConfusion, hcard ▸ hlen⟩
            · exact h.many n hn

theorem Between.visit (visit : List Nat) :
    ∀ {cur : Netlist} {src : NodeId → Finset PinRef} {moved : Finset PinRef} {joined : List NodeId},
    Between nl cur src moved joined → ∃ cur' src' moved' joined',
      visit.foldl (fun st i => if st.2 then Netlist.resolveNode nl.isListed order st.1 (.node i) else st) (cur, true)
        = (cur', true) ∧ Between nl cur' src' moved' joined' ∧ (∀ n ∈ joined, n ∈ joined') ∧
      ∀ i ∈ visit, (nl.listedOn (.node i)).card ≤ 1 ∨ .node i ∈ joined' := by
  induction visit with
  | nil =>
    exact fun h => ⟨_, _, _, _, rfl, h, fun _ hn => hn, fun i hi => absurd hi List.not_mem_nil⟩
  | cons i visit ih =>
    intro cur src moved joined h
    obtain ⟨cur₁, src₁, moved₁, joined₁, heq, h₁, hsub, hi⟩ := h.resolveNode hs hemitted horder i
    obtain ⟨cur', src', moved', joined', hfold, h', hsub', hvisit⟩ := ih h₁
    refine ⟨cur', src', moved', joined', ?_, h', fun n hn => hsub' n (hsub n hn), fun j hj => ?_⟩
    · rw [List.foldl_cons, if_pos rfl, heq, hfold]
    · rcases List.mem_cons.mp hj with rfl | hj
      · exact hi.imp id (hsub' _)
      · exact hvisit j hj

theorem exists_between {visit : List Nat} (hvisit : ∀ i < nl.nodes.length, i ∈ visit) :
    ∃ cur src moved joined, nl.resolveMultiDriverDigitalNets true order visit = (cur, true) ∧
      Between nl cur src moved joined ∧ ∀ n, n ≠ .ground → n ∉ joined → (nl.listedOn n).card ≤ 1 := by
  have hdigital : Digital nl := by
    intro b hb
    have := hemitted b hb
    rw [Model.isAnalog]
    revert this
    cases b.model.kind <;> simp [isEmitted, ModelKind.deviceType]
  have hstart : Between nl nl nl.listedOn ∅ [] :=
    { resolving_start hs hdigital hemitted with
      moved_iff := fun p => by simp
      many := fun n hn => absurd hn List.not_mem_nil }
  obtain ⟨cur, src, moved, joined, hfold, h, -, hall⟩ := hstart.visit hs hemitted horder visit
  refine ⟨cur, src, moved, joined, hfold, h, fun n hn hnj => ?_⟩
  cases n with
  | ground => exact absurd rfl hn
  | node i =>
    by_cases hi : i < nl.nodes.length
    · exact (hall i (hvisit i hi)).resolve_right hnj
    · rw [Finset.card_eq_zero.mpr]
      · exact Nat.zero_le 1
      · refine Finset.eq_empty_of_forall_notMem fun q hq => hi ?_
        have hsome := hs.isSome_points (DrivesNode.points (mem_driversOn.mp (Finset.mem_filter.mp hq).1))
        exact (isSome_node? nl _).mp hsome i rfl

end

/-! ## What is left at the end -/

/-- Where several pins drive a node, it is not the ground and none of them is a pin of a `DLATCH`
or a `TICK_DELAY`. -/
def SharedListed (nl : Netlist) : Prop :=
  ∀ n, ∀ p ∈ nl.driversOn n, ∀ q ∈ nl.driversOn n, p ≠ q →
    n ≠ .ground ∧ ∀ b ∈ nl.bases, b.id = p.id → b.model.kind ≠ .dlatch ∧ b.model.kind ≠ .tickDelay

theorem Sound.isListed_iff (h : Sound nl) (hemitted : ∀ b ∈ nl.bases, isEmitted b.model.kind = true)
    (hp : nl.DrivesNode p n) : nl.isListed p = true ↔
      ∀ b ∈ nl.bases, b.id = p.id → b.model.kind ≠ .dlatch ∧ b.model.kind ≠ .tickDelay := by
  obtain ⟨b, hb, hid, hdrives, hk⟩ := hp
  have hlt := (List.getElem?_eq_some_iff.mp hk).1
  have honly : nl.isListed p = isDigitalOutputPin b.model.kind p.k := by
    rw [Bool.eq_iff_iff, isListed, List.any_eq_true]
    constructor
    · rintro ⟨c, hc, hcond⟩
      simp only [Bool.and_eq_true, beq_iff_eq] at hcond
      obtain rfl := h.eq_of_id hc hb (hcond.1.1.trans hid.symm)
      exact hcond.2
    · exact fun hlisted => ⟨b, hb, by simp [hid, hlt, hlisted]⟩
  have hkind : isDigitalOutputPin b.model.kind p.k = true ↔ b.model.kind ≠ .dlatch ∧ b.model.kind ≠ .tickDelay := by
    have := hemitted b hb
    revert this hdrives
    cases b.model.kind <;> simp [isDigitalOutputPin, isEmitted, drivesPin]
  rw [honly, hkind]
  constructor
  · intro hb' c hc hcid
    rwa [h.eq_of_id hc hb (hcid.trans hid.symm)]
  · exact fun hall => hall b hb hid

theorem Between.kept_drives (h : Between nl cur src moved joined) {m : NodeId} (hp : nl.DrivesNode p m)
    (hn : cur.Points p n) : cur.DrivesNode p n := by
  obtain ⟨b, hb, hid, hdrives, -⟩ := hp
  obtain ⟨c, hc, hcid, hkind⟩ := h.old b hb
  exact (h.sound.drivesNode_iff hc (hcid.trans hid) n).mpr ⟨hkind ▸ hdrives, hn⟩

theorem IsResolver.drives (hres : IsResolver c x y n) (hc : c ∈ cur.bases) :
    cur.DrivesNode ⟨c.id, 2⟩ n :=
  ⟨c, hc, rfl, by rw [hres.1]; rfl, by rw [hres.2]; rfl⟩

/-- A driver at the end is an old one on its node, an old one on a node of its own, or the
output of a resolver. -/
theorem Between.drives_cases (hs : Sound nl) (h : Between nl cur src moved joined) (hp : cur.DrivesNode p n) :
    (p ∉ moved ∧ nl.DrivesNode p n) ∨
    (p ∈ moved ∧ ¬ (nl.node? n).isSome ∧ src n = {p}) ∨
    (nl.nextId ≤ p.id ∧ ∃ c ∈ cur.bases, c.id = p.id ∧ p.k = 2 ∧ ∃ x y, IsResolver c x y n) := by
  have hpoints := hp.points
  obtain ⟨c, hc, hid, hdrives, hk⟩ := hp
  rcases h.models c hc with ⟨b, hb, hbid, hkind⟩ | ⟨hge, x, y, z, hres⟩
  · by_cases hmoved : p ∈ moved
    · obtain ⟨-, m, hm, hfresh, heq⟩ := h.detached p hmoved
      obtain rfl := h.sound.points_unique hpoints hm
      exact .inr (.inl ⟨hmoved, hfresh, heq⟩)
    · have hlt : p.id < nl.nextId := hid ▸ hbid ▸ hs.lt b hb
      exact .inl ⟨hmoved, (hs.drivesNode_iff hb (hbid.trans hid) n).mpr ⟨hkind ▸ hdrives,
        (h.kept p n hlt hmoved).mp hpoints⟩⟩
  · rw [hres.1] at hdrives
    have hk2 : p.k = 2 := by simpa [drivesPin] using hdrives
    rw [hres.2, hk2] at hk
    obtain rfl : z = n := by simpa using hk
    exact .inr (.inr ⟨hid ▸ hge, c, hc, hid, hk2, x, y, hres⟩)

theorem Between.sharedListed (hs : Sound nl) (hemitted : ∀ b ∈ nl.bases, isEmitted b.model.kind = true)
    (h : Between nl cur src moved joined)
    (hsingle : ∀ p q n, cur.DrivesNode p n → cur.DrivesNode q n → p = q) : SharedListed nl := by
  intro n p hp q hq hne
  rw [mem_driversOn] at hp hq
  have hlt : ∀ {r}, nl.DrivesNode r n → r.id < nl.nextId := by
    rintro r ⟨b, hb, hid, -⟩
    exact hid ▸ hs.lt b hb
  have hstays : ∀ {r}, nl.DrivesNode r n → r ∉ moved → cur.DrivesNode r n := fun hr hrm =>
    h.kept_drives hr ((h.kept _ n (hlt hr) hrm).mpr hr.points)
  have hmoved : ∀ {r}, nl.DrivesNode r n → r ∈ moved → n ∈ joined := by
    intro r hr hrm
    obtain ⟨m, hm, hrl⟩ := (h.moved_iff r).mp hrm
    rwa [hs.points_unique hr.points ((hs.mem_listedOn hemitted).mp hrl).2]
  constructor
  · rintro rfl
    have hnj : NodeId.ground ∉ joined := fun hnj => (h.many _ hnj).1 rfl
    exact hne (hsingle p q _ (hstays hp fun hpm => hnj (hmoved hp hpm)) (hstays hq fun hqm => hnj (hmoved hq hqm)))
  · rw [← hs.isListed_iff hemitted hp]
    by_contra hunlisted
    have hpm : p ∉ moved := fun hpm => hunlisted (h.detached p hpm).1
    by_cases hqm : q ∈ moved
    · -- the last resolver is on the node as well
      obtain ⟨c, hc, x, y, hres⟩ := (h.driven n (hs.isSome_points hp.points)).mpr (hmoved hq hqm)
      have heq := congrArg PinRef.id (hsingle p _ n (hstays hp hpm) (hres.drives hc))
      rcases h.models c hc with ⟨b, hb, -, hkind⟩ | ⟨hge, -⟩
      · have := hemitted b hb
        rw [hkind, hres.1] at this
        cases this
      · have := hlt hp
        simp only at heq
        omega
    · exact hne (hsingle p q n (hstays hp hpm) (hstays hq hqm))

section Resolved

variable (hs : Sound nl) (hemitted : ∀ b ∈ nl.bases, isEmitted b.model.kind = true)
  (h : Between nl cur src moved joined) (hshared : SharedListed nl)

include hs hemitted hshared

theorem mem_listedOn_of_shared (hp : nl.DrivesNode p n) (hq : nl.DrivesNode q n) (hne : p ≠ q) :
    n ≠ .ground ∧ p ∈ nl.listedOn n := by
  obtain ⟨hground, hkind⟩ := hshared n p (mem_driversOn.mpr hp) q (mem_driversOn.mpr hq) hne
  exact ⟨hground, Finset.mem_filter.mpr ⟨mem_driversOn.mpr hp, (hs.isListed_iff hemitted hp).mpr hkind⟩⟩

theorem joined_of_shared (hall : ∀ n, n ≠ .ground → n ∉ joined → (nl.listedOn n).card ≤ 1) (hp : nl.DrivesNode p n)
    (hq : nl.DrivesNode q n) (hne : p ≠ q) : n ∈ joined := by
  obtain ⟨hground, hpl⟩ := mem_listedOn_of_shared hs hemitted hshared hp hq hne
  obtain ⟨-, hql⟩ := mem_listedOn_of_shared hs hemitted hshared hq hp (Ne.symm hne)
  by_contra hnj
  exact hne (Finset.card_le_one.mp (hall n hground hnj) p hpl q hql)

include h

theorem Between.driversOn_eq (hn : n ∈ joined) : nl.driversOn n = nl.listedOn n := by
  refine (Finset.filter_true_of_mem fun p hp => ?_).symm
  obtain ⟨q, hq, hne⟩ := Finset.exists_mem_ne (h.many n hn).2 p
  have hq := mem_driversOn.mp (Finset.mem_filter.mp hq).1
  exact (Finset.mem_filter.mp
    (mem_listedOn_of_shared hs hemitted hshared (mem_driversOn.mp hp) hq (Ne.symm hne)).2).2

theorem Between.moved_of_joined (hn : n ∈ joined) (hp : nl.DrivesNode p n) : p ∈ moved :=
  (h.moved_iff p).mpr ⟨n, hn, h.driversOn_eq hs hemitted hshared hn ▸ mem_driversOn.mpr hp⟩

omit hs hemitted hshared in
theorem Between.one_lt_card_of_resolver (hc : c ∈ cur.bases) (hres : IsResolver c x y n) : 1 < (src n).card := by
  obtain ⟨hx, hy, hdisj, hn⟩ := h.resolvers c hc x y n hres
  rw [hn, Finset.card_union_of_disjoint hdisj]
  have := hx.nonempty.card_pos
  have := hy.nonempty.card_pos
  omega

theorem Between.single (hall : ∀ n, n ≠ .ground → n ∉ joined → (nl.listedOn n).card ≤ 1) (p q : PinRef) (n : NodeId)
    (hp : cur.DrivesNode p n) (hq : cur.DrivesNode q n) : p = q := by
  have hmoved : ∀ {r}, n ∈ joined → nl.DrivesNode r n → r ∈ moved := fun hn hr =>
    h.moved_of_joined hs hemitted hshared hn hr
  have hold : ∀ {r}, nl.DrivesNode r n → (nl.node? n).isSome := fun hr => hs.isSome_points hr.points
  have hcard : ∀ {r}, src n = {r} → ∀ c ∈ cur.bases, ∀ x y, ¬ IsResolver c x y n := by
    intro r heq c hc x y hres
    have := h.one_lt_card_of_resolver hc hres
    rw [heq, Finset.card_singleton] at this
    omega
  have hjoined : ∀ {r}, nl.DrivesNode r n → r ∉ moved → ∀ c ∈ cur.bases, ∀ x y, ¬ IsResolver c x y n := by
    intro r hr hrm c hc x y hres
    exact hrm (hmoved ((h.driven n (hold hr)).mp ⟨c, hc, x, y, hres⟩) hr)
  rcases h.drives_cases hs hp with ⟨hpm, hpn⟩ | ⟨-, hpf, hpsrc⟩ | ⟨-, c, hc, hpid, hpk, x, y, hres⟩
  · rcases h.drives_cases hs hq with ⟨-, hqn⟩ | ⟨-, hqf, -⟩ | ⟨-, c', hc', -, -, x', y', hres'⟩
    · by_contra hne
      exact hpm (hmoved (joined_of_shared hs hemitted hshared hall hpn hqn hne) hpn)
    · exact absurd (hold hpn) hqf
    · exact absurd hres' (hjoined hpn hpm c' hc' x' y')
  · rcases h.drives_cases hs hq with ⟨-, hqn⟩ | ⟨-, -, hqsrc⟩ | ⟨-, c', hc', -, -, x', y', hres'⟩
    · exact absurd (hold hqn) hpf
    · exact Finset.singleton_injective (hpsrc.symm.trans hqsrc)
    · exact absurd hres' (hcard hpsrc c' hc' x' y')
  · rcases h.drives_cases hs hq with ⟨hqm, hqn⟩ | ⟨-, -, hqsrc⟩ | ⟨-, c', hc', hqid, hqk, x', y', hres'⟩
    · exact absurd hres (hjoined hqn hqm c hc x y)
    · exact absurd hres (hcard hqsrc c hc x y)
    · obtain rfl := h.outs c hc c' hc' x y x' y' n hres hres'
      cases p
      cases q
      simp_all

theorem Between.kept_driver (hall : ∀ n, n ≠ .ground → n ∉ joined → (nl.listedOn n).card ≤ 1) (hn : n ∉ joined)
    (hp : nl.DrivesNode p n) : nl.driversOn n = {p} ∧ cur.DrivesNode p n := by
  constructor
  · ext q
    rw [mem_driversOn, Finset.mem_singleton]
    refine ⟨fun hq => ?_, fun heq => heq ▸ hp⟩
    by_contra hne
    exact hn (joined_of_shared hs hemitted hshared hall hq hp hne)
  · refine h.kept_drives hp ((h.kept p n ?_ fun hpm => hn ?_).mpr hp.points)
    · obtain ⟨b, hb, hid, -⟩ := hp
      exact hid ▸ hs.lt b hb
    · obtain ⟨m, hm, hpl⟩ := (h.moved_iff p).mp hpm
      rwa [hs.points_unique hp.points ((hs.mem_listedOn hemitted).mp hpl).2]

omit hs hemitted hshared in
theorem Between.value_source {drive : PinRef → LogicT} {v : NodeId → LogicT} (hv : Resolves nl cur drive v) (k : Nat) :
    ∀ x, (src x).card ≤ k → Source nl cur src moved x → v x = wiredResolution ((src x).image drive) := by
  induction k with
  | zero =>
    intro x hk hx
    have := hx.nonempty.card_pos
    omega
  | succ k ih =>
    intro x hk hx
    rcases hx.source with ⟨p, hp, hpx, heq⟩ | ⟨c, hc, y, z, hres⟩
    · obtain ⟨m, -, hpl⟩ := (h.moved_iff p).mp hp
      have hdrives := mem_driversOn.mp (Finset.mem_filter.mp hpl).1
      rw [hv.drivers p x ⟨m, hdrives⟩ (h.kept_drives hdrives hpx), heq, Finset.image_singleton,
        wiredResolution_singleton]
    · obtain ⟨hy, hz, hdisj, hsrc⟩ := h.resolvers c hc y z x hres
      have hcard := Finset.card_union_of_disjoint hdisj
      rw [← hsrc] at hcard
      have hypos := hy.nonempty.card_pos
      have hzpos := hz.nonempty.card_pos
      rw [hv.resolvers c hc hres.1 y z x hres.2, ih y (by omega) hy, ih z (by omega) hz, hsrc, Finset.image_union,
        wiredResolution_union]

theorem Between.resolved (hall : ∀ n, n ≠ .ground → n ∉ joined → (nl.listedOn n).card ≤ 1) :
    MultiDriversResolved nl cur where
  single := h.single hs hemitted hshared hall
  settles drive := by
    classical
    -- the old nodes have the resolution of their drivers, the new ones of what they stand for
    refine ⟨fun n => if (nl.node? n).isSome then wiredResolution ((nl.driversOn n).image drive)
      else wiredResolution ((src n).image drive), fun p n hp hpn => ?_, fun b hb hkind x y z hpins => ?_⟩
    · obtain ⟨m, hm⟩ := hp
      rcases h.drives_cases hs hpn with ⟨hpm, hpn'⟩ | ⟨-, hfresh, hsrc⟩ | ⟨hge, -⟩
      · have hnj : n ∉ joined := fun hn => hpm (h.moved_of_joined hs hemitted hshared hn hpn')
        rw [if_pos (hs.isSome_points hpn'.points), (h.kept_driver hs hemitted hshared hall hnj hpn').1,
          Finset.image_singleton, wiredResolution_singleton]
      · rw [if_neg hfresh, hsrc, Finset.image_singleton, wiredResolution_singleton]
      · obtain ⟨b, hb, hid, -⟩ := hm
        have := hs.lt b hb
        omega
    · obtain ⟨hx, hy, -, hz⟩ := h.resolvers b hb x y z ⟨hkind, hpins⟩
      have hout : (if (nl.node? z).isSome then wiredResolution ((nl.driversOn z).image drive)
          else wiredResolution ((src z).image drive)) = wiredResolution ((src z).image drive) := by
        by_cases hold : (nl.node? z).isSome
        · have hzj : z ∈ joined := (h.driven z hold).mp ⟨b, hb, x, y, hkind, hpins⟩
          rw [if_pos hold, h.driversOn_eq hs hemitted hshared hzj, h.source z hold]
        · rw [if_neg hold]
      rw [hout, if_neg hx.fresh, if_neg hy.fresh, hz, Finset.image_union, wiredResolution_union]
  value drive v hv n hn := by
    obtain ⟨p, hp⟩ := hn
    have hp := mem_driversOn.mp hp
    by_cases hnj : n ∈ joined
    · have hold := hs.isSome_points hp.points
      obtain ⟨c, hc, x, y, hres⟩ := (h.driven n hold).mpr hnj
      obtain ⟨hx, hy, -, hsrc⟩ := h.resolvers c hc x y n hres
      rw [hv.resolvers c hc hres.1 x y n hres.2, h.value_source hv _ x (Nat.le_refl _) hx,
        h.value_source hv _ y (Nat.le_refl _) hy, ← wiredResolution_union, ← Finset.image_union, ← hsrc,
        h.source n hold, h.driversOn_eq hs hemitted hshared hnj]
    · obtain ⟨honly, hkept⟩ := h.kept_driver hs hemitted hshared hall hnj hp
      rw [hv.drivers p n ⟨n, hp⟩ hkept, honly, Finset.image_singleton, wiredResolution_singleton]

end Resolved

/-- The pass gives every node one driver and makes it settle on the resolution of its drivers
exactly when no shared node is driven by a `DLATCH` or a `TICK_DELAY`. -/
theorem resolveMultiDriverDigitalNets_iff (hs : Sound nl) (hemitted : ∀ b ∈ nl.bases, isEmitted b.model.kind = true)
    {order : Finset PinRef → List PinRef} (horder : Enumerates order) {visit : List Nat}
    (hvisit : ∀ i < nl.nodes.length, i ∈ visit) :
    (nl.resolveMultiDriverDigitalNets true order visit).2 = true ∧
      (MultiDriversResolved nl (nl.resolveMultiDriverDigitalNets true order visit).1 ↔ SharedListed nl) := by
  obtain ⟨cur, src, moved, joined, heq, h, hall⟩ := exists_between hs hemitted horder hvisit
  rw [heq]
  exact ⟨rfl, fun hres => h.sharedListed hs hemitted hres.single, fun hshared => h.resolved hs hemitted hshared hall⟩

theorem enumerates_toList : Enumerates Finset.toList := fun s => ⟨s.nodup_toList, s.toList_toFinset⟩

def threeDrivers : Netlist := .ofModels 2 [.port .input [0] "a" [.digital .L],
  .port .input [1] "en" [.digital .H], .on .tri [1, 1, 0], .port .input [0] "b" [.digital .Z],
  .port .output [0] "y" []]

theorem resolveMultiDriverDigitalNets_threeDrivers :
    (threeDrivers.resolveMultiDriverDigitalNets true Finset.toList [0, 1]).2 = true ∧
      MultiDriversResolved threeDrivers (threeDrivers.resolveMultiDriverDigitalNets true Finset.toList [0, 1]).1 := by
  have hs : Sound threeDrivers := (sound_of_check (by decide +kernel)).1
  have hvisit : ∀ i < threeDrivers.nodes.length, i ∈ [0, 1] := by decide
  have hiff := resolveMultiDriverDigitalNets_iff hs (by decide +kernel) enumerates_toList hvisit
  refine ⟨hiff.1, hiff.2.mpr fun n p hp q hq hne => ⟨?_, ?_⟩⟩
  · rintro rfl
    have hnone : threeDrivers.driversOn .ground = ∅ := by decide +kernel
    rw [hnone] at hp
    exact absurd hp (Finset.notMem_empty p)
  · have hkinds : ∀ b ∈ threeDrivers.bases, b.model.kind ≠ .dlatch ∧ b.model.kind ≠ .tickDelay := by decide +kernel
    exact fun b hb _ => hkinds b hb

def latchAndInput : Netlist := .ofModels 3 [.port .input [0] "a" [.digital .L],
  .port .input [1] "d" [.digital .H], .port .input [2] "en" [.digital .H], .on .dlatch [1, 2, 0]]

/-- Both keep driving the node. -/
theorem resolveMultiDriverDigitalNets_latch : Sound latchAndInput ∧
    (∀ b ∈ latchAndInput.bases, isEmitted b.model.kind = true) ∧ Enumerates Finset.toList ∧
    (∀ i < latchAndInput.nodes.length, i ∈ [0, 1, 2]) ∧ ¬ MultiDriversResolved latchAndInput
      (latchAndInput.resolveMultiDriverDigitalNets true Finset.toList [0, 1, 2]).1 := by
  have hs : Sound latchAndInput := (sound_of_check (by decide +kernel)).1
  have hemitted : ∀ b ∈ latchAndInput.bases, isEmitted b.model.kind = true := by decide +kernel
  have hvisit : ∀ i < latchAndInput.nodes.length, i ∈ [0, 1, 2] := by decide
  refine ⟨hs, hemitted, enumerates_toList, hvisit, fun hres => ?_⟩
  obtain ⟨cur, src, moved, joined, heq, h, -⟩ := exists_between hs hemitted enumerates_toList hvisit
  rw [heq] at hres
  have hq : (⟨3, 2⟩ : PinRef) ∈ latchAndInput.driversOn (.node 0) := by decide +kernel
  have hp : (⟨0, 0⟩ : PinRef) ∈ latchAndInput.driversOn (.node 0) := by decide +kernel
  have hlatch : (⟨3, .on .dlatch [1, 2, 0]⟩ : ModelBase) ∈
      latchAndInput.bases := by decide +kernel
  exact ((h.sharedListed hs hemitted hres.single _ _ hq _ hp (by decide)).2 _ hlatch rfl).1 rfl

end Netlist

end PhyEngine
