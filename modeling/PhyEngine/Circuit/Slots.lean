import PhyEngine.Circuit.Engine
import PhyEngine.Library.EventNet
import Mathlib.Data.List.TakeWhile

/-!
# The engine as an event-driven network

A combinational model on a purely digital board is a function of its input nodes with a rule by
which it decides to write and to enter a node. One call fires its slots in the network of
`Library.EventNet`, one round of the settle loop handles one pending node.
-/

namespace PhyEngine

open EventNet List

/-- What a combinational model computes: the inputs come first among its pins, then the
outputs. -/
structure GateFn where
  rule : Rule
  arity : Nat
  count : Nat
  fn : List LogicT → List LogicT

def onOne (f : LogicT → LogicT) : List LogicT → List LogicT
  | [a] => [f a]
  | _ => []

def onTwo (f : LogicT → LogicT → LogicT) : List LogicT → List LogicT
  | [a, b] => [f a b]
  | _ => []

/-- The function of a block, whose inputs read high impedance as indeterminate. -/
def onBlock (count : Nat) (f : List LogicT → List LogicT) (ins : List LogicT) : List LogicT :=
  blockValues count f (ins.map LogicT.normalizeZToX)

/-- The combinational models; `outputA` is the attribute of an `INPUT`. An `OUTPUT` has no
output pin. -/
def ModelKind.gateFn (outputA : LogicT) : ModelKind → Option GateFn
  | .input => some ⟨.write, 0, 1, fun _ => [outputA]⟩
  | .output => some ⟨.write, 1, 0, fun _ => []⟩
  | .yes => some ⟨.write, 1, 1, onOne fun a => a⟩
  | .not => some ⟨.write, 1, 1, onOne LogicT.logicNot⟩
  | .and => some ⟨.write, 2, 1, onTwo LogicT.logicAnd⟩
  | .or => some ⟨.write, 2, 1, onTwo LogicT.logicOr⟩
  | .xor => some ⟨.write, 2, 1, onTwo LogicT.logicXor⟩
  | .xnor => some ⟨.write, 2, 1, onTwo fun a b => (a.logicXor b).logicNot⟩
  | .nand => some ⟨.write, 2, 1, onTwo fun a b => (a.logicAnd b).logicNot⟩
  | .nor => some ⟨.write, 2, 1, onTwo fun a b => (a.logicOr b).logicNot⟩
  | .imp => some ⟨.write, 2, 1, onTwo fun a b => a.logicNot.logicOr b⟩
  | .nimp => some ⟨.write, 2, 1, onTwo fun a b => a.logicAnd b.logicNot⟩
  | .caseEq => some ⟨.compare, 2, 1, onTwo fun a b => .ofBool (decide (a = b))⟩
  | .isUnknown => some ⟨.compare, 1, 1, onOne fun a => .ofBool a.isUnknown⟩
  | .resolve2 => some ⟨.compare, 2, 1, onTwo PhyEngine.resolve2⟩
  | .halfAdder => some ⟨.cached, 2, 2, onBlock 2 halfAdderFn⟩
  | .fullAdder => some ⟨.cached, 3, 2, onBlock 2 fullAdderFn⟩
  | .halfSub => some ⟨.cached, 2, 2, onBlock 2 halfSubFn⟩
  | .fullSub => some ⟨.cached, 3, 2, onBlock 2 fullSubFn⟩
  | .mul2 => some ⟨.cached, 4, 4, onBlock 4 mul2Fn⟩
  | _ => none

def ruleStore (rule : Rule) (last : Nat → LogicT) (ok : (NodeId × LogicT) × Nat) : Option Store :=
  match rule with
  | .write => some (.write ok.1.1 ok.1.2 (decide (last ok.2 ≠ ok.1.2)))
  | .cached => if last ok.2 ≠ ok.1.2 then some (.write ok.1.1 ok.1.2 true) else none
  | .compare => some (.update ok.1.1 ok.1.2)

variable {ns : List NodeId} {r : Outcome} {count : Nat}

section Calls

variable {view : NodeId → NodeView} {trDuration : Float} {m : Model} {clip : Clip}

/-- What a call of a combinational model does, on digital nodes. -/
structure CallSpec (g : GateFn) (ins outs : List NodeId) (view : NodeId → NodeView) (clip : Clip)
    (r : Outcome) : Prop where
  stores : r.stores =
    (outs.zip (g.fn (ins.map fun n => (view n).state))).zipIdx.filterMap (ruleStore g.rule clip.last)
  drive : r.drive = none
  last : g.rule ≠ .compare → ∀ k, r.clip.last k =
    ((outs.zip (g.fn (ins.map fun n => (view n).state)))[k]?.map Prod.snd).getD (clip.last k)
  outputA : r.clip.outputA = clip.outputA

theorem readDn_digital (h : ∀ n, (view n).analog = false) (n : NodeId) :
    readDn view clip n = (view n).state := by simp [readDn, h]

theorem read_digital (h : ∀ n, (view n).analog = false) (g : GateInput) (n : NodeId) :
    (g.read view trDuration clip n).input = (view n).state := by simp [GateInput.read, h]

theorem pinNodes_one {m : Model} {k : Nat} (h : m.pinNodes k 1 = some ns) :
    ∃ a, m.pin k = some a ∧ ns = [a] := by
  simp only [Model.pinNodes, range', map_cons, map_nil] at h
  cases ha : m.pin k with
  | none => simp [ha] at h
  | some a => exact ⟨a, rfl, by simpa [ha, eq_comm] using h⟩

theorem pinNodes_two {m : Model} {k : Nat} (h : m.pinNodes k 2 = some ns) :
    ∃ a b, m.pin k = some a ∧ m.pin (k + 1) = some b ∧ ns = [a, b] := by
  simp only [Model.pinNodes, range', map_cons, map_nil] at h
  cases ha : m.pin k with
  | none => simp [ha] at h
  | some a =>
    cases hb : m.pin (k + 1) with
    | none => simp [ha, hb] at h
    | some b => exact ⟨a, b, rfl, rfl, by simpa [ha, hb, eq_comm] using h⟩

variable {ins outs : List NodeId}

section

variable (h : ∀ n, (view n).analog = false)
include h

theorem gateOutput_spec (g : GateFn) (hr : g.rule = .write)
    (o : NodeId) (v : LogicT) (hfn : g.fn (ins.map fun n => (view n).state) = [v])
    (clip' : Clip) (hlast : clip'.last = clip.last) (hout : clip'.outputA = clip.outputA) :
    CallSpec g ins [o] view clip (gateOutput view clip' o v) where
  stores := by simp [gateOutput, h, hfn, hr, ruleStore, hlast]
  drive := by simp [gateOutput, h]
  last := by
    intro _ k
    simp only [gateOutput, h, hfn, Clip.setLast, hlast]
    cases k with
    | zero => simp
    | succ k => simp
  outputA := by simp [gateOutput, h, Clip.setLast, hout]

theorem gate1_spec {f : LogicT → LogicT}
    (hin : m.pinNodes 0 1 = some ins) (hout : m.pinNodes 1 1 = some outs) :
    CallSpec ⟨.write, 1, 1, onOne f⟩ ins outs view clip (gate1 view trDuration f m clip) := by
  obtain ⟨i, hi, rfl⟩ := pinNodes_one hin
  obtain ⟨o, ho, rfl⟩ := pinNodes_one hout
  simp only [gate1, hi, ho, read_digital h]
  exact gateOutput_spec h _ rfl o _ rfl _ rfl rfl

theorem gate2_spec {f : LogicT → LogicT → LogicT}
    (hin : m.pinNodes 0 2 = some ins) (hout : m.pinNodes 2 1 = some outs) :
    CallSpec ⟨.write, 2, 1, onTwo f⟩ ins outs view clip (gate2 view trDuration f m clip) := by
  obtain ⟨a, b, ha, hb, rfl⟩ := pinNodes_two hin
  obtain ⟨o, ho, rfl⟩ := pinNodes_one hout
  simp only [gate2, ha, hb, ho, read_digital h]
  exact gateOutput_spec h _ rfl o _ rfl _ rfl rfl

end

variable {g : GateFn}

theorem compare_spec (hr : g.rule = .compare) {o : NodeId} {v : LogicT}
    (hfn : g.fn (ins.map fun n => (view n).state) = [v]) (hstores : r.stores = [.update o v]) (hdrive : r.drive = none)
    (houtputA : r.clip.outputA = clip.outputA) : CallSpec g ins [o] view clip r where
  stores := by simp [hstores, hfn, hr, ruleStore]
  drive := hdrive
  last := fun hne => absurd hr hne
  outputA := houtputA

section

variable (h : ∀ n, (view n).analog = false)
include h

theorem cached_spec (g : GateFn) (hr : g.rule = .cached)
    (ovs : List (NodeId × LogicT)) (hovs : ovs = outs.zip (g.fn (ins.map fun n => (view n).state)))
    (hclip : r.clip = cachedClip view clip ovs) (hstores : r.stores = cachedStores view clip ovs)
    (hdrive : r.drive = none) : CallSpec g ins outs view clip r where
  stores := by
    rw [hstores, ← hovs, cachedStores]
    refine filterMap_congr fun ok _ => ?_
    simp [ruleStore, hr, h]
  drive := hdrive
  last := by
    intro _ k
    rw [hclip, ← hovs]
    simp only [cachedClip, h]
    cases ovs[k]? with
    | none => rfl
    | some ov => rfl
  outputA := by rw [hclip]; rfl

theorem block_spec {arity : Nat} {f : List LogicT → List LogicT}
    (hin : m.pinNodes 0 arity = some ins) (hout : m.pinNodes arity count = some outs) :
    CallSpec ⟨.cached, arity, count, onBlock count f⟩ ins outs view clip
      (block view arity count f m clip) := by
  have hread : ins.map (readDnLogic view clip) =
      (ins.map fun n => (view n).state).map LogicT.normalizeZToX := by
    simp [readDnLogic, readDn_digital h]
  simp only [block, hin, hout]
  refine cached_spec h _ rfl _ rfl ?_ ?_ ?_
  · simp only [blockOutput, hread, onBlock]
  · simp only [blockOutput, hread, onBlock]
  · simp only [blockOutput, h]
    simp

theorem mul2_spec (hin : m.pinNodes 0 4 = some ins)
    (hout : m.pinNodes 4 4 = some outs) :
    CallSpec ⟨.cached, 4, 4, onBlock 4 mul2Fn⟩ ins outs view clip (updateMul2 view m clip) := by
  have hread : ins.map (readDnLogic view clip) =
      (ins.map fun n => (view n).state).map LogicT.normalizeZToX := by
    simp [readDnLogic, readDn_digital h]
  have htake (ovs : List (NodeId × LogicT)) :
      ovs.takeWhile (fun ov => !(view ov.1).analog) = ovs :=
    takeWhile_eq_self_iff.mpr fun ov _ => by simp [h]
  simp only [updateMul2, hin, hout, htake]
  refine cached_spec h _ rfl _ rfl ?_ ?_ ?_
  · simp only [hread, onBlock]
  · simp only [hread, onBlock]
  · simp only [h]
    simp

theorem updateDigitalClk_spec (method : DigitalUpdateMethod)
    (hg : m.kind.gateFn clip.outputA = some g) (hin : m.pinNodes 0 g.arity = some ins)
    (hout : m.pinNodes g.arity g.count = some outs) :
    CallSpec g ins outs view clip (updateDigitalClk view trDuration method m clip) := by
  cases hk : m.kind <;> simp only [hk, ModelKind.gateFn, Option.some.injEq, reduceCtorEq] at hg <;>
    subst hg <;> simp only [updateDigitalClk, hk]
  case input =>
    obtain ⟨o, ho, rfl⟩ := pinNodes_one hout
    simp only [updateInput, ho]
    exact gateOutput_spec h _ rfl o _ rfl _ rfl rfl
  case output =>
    obtain ⟨i, hi, rfl⟩ := pinNodes_one hin
    simp only [updateOutput, hi]
    exact ⟨by simp, rfl, fun _ k => by simp, rfl⟩
  case caseEq =>
    obtain ⟨a, b, ha, hb, rfl⟩ := pinNodes_two hin
    obtain ⟨o, ho, rfl⟩ := pinNodes_one hout
    simp only [updateCaseEq, ha, hb, ho, changeOutput, h, readDn_digital h]
    exact compare_spec rfl rfl rfl rfl rfl
  case isUnknown =>
    obtain ⟨i, hi, rfl⟩ := pinNodes_one hin
    obtain ⟨o, ho, rfl⟩ := pinNodes_one hout
    simp only [updateIsUnknown, hi, ho, changeOutput, h, readDn_digital h]
    exact compare_spec rfl rfl rfl rfl rfl
  case resolve2 =>
    obtain ⟨a, b, ha, hb, rfl⟩ := pinNodes_two hin
    obtain ⟨o, ho, rfl⟩ := pinNodes_one hout
    simp only [updateResolve2, ha, hb, ho, nodeOutput, h, readDn_digital h]
    exact compare_spec rfl rfl rfl rfl rfl
  case mul2 => exact mul2_spec h hin hout
  case halfAdder => exact block_spec h hin hout
  case fullAdder => exact block_spec h hin hout
  case halfSub => exact block_spec h hin hout
  case fullSub => exact block_spec h hin hout
  case yes => exact gate1_spec h hin hout
  case not => exact gate1_spec h hin hout
  all_goals exact gate2_spec h hin hout

end

theorem updateDigitalClk_unconnected (method : DigitalUpdateMethod) (hg : m.kind.gateFn clip.outputA = some g)
    (hpins : m.pinNodes 0 g.arity = none ∨ m.pinNodes g.arity g.count = none) :
    updateDigitalClk view trDuration method m clip = ⟨clip, [], none⟩ := by
  cases hk : m.kind <;> simp only [hk, ModelKind.gateFn, Option.some.injEq, reduceCtorEq] at hg <;>
    subst hg <;>
    simp only [updateDigitalClk, hk, updateInput, updateOutput, gate1, gate2, updateCaseEq,
      updateIsUnknown, updateResolve2, block, updateMul2] <;>
    split
  -- in the first branch of each model all pins are connected
  all_goals first
    | rfl
    | (exfalso; simp_all; done)
    | (exfalso; simp_all [Model.pinNodes, range'])

end Calls

theorem mapM_id_eq_some_iff {β : Type} {xs : List (Option β)} {ys : List β} :
    xs.mapM id = some ys ↔ xs = ys.map some := by
  induction xs generalizing ys with
  | nil => cases ys <;> simp
  | cons x xs ih =>
    cases x with
    | none => cases ys <;> simp
    | some a =>
      cases hxs : xs.mapM id with
      | none =>
        have hne (l : List β) : xs ≠ l.map some := fun h => by simp [ih.mpr h] at hxs
        cases ys <;> simp [hxs, hne]
      | some zs =>
        have hzs (l : List β) : xs = l.map some ↔ zs = l := by
          rw [← ih, hxs, Option.some.injEq]
        cases ys <;> simp [hxs, hzs]

theorem pinNodes_eq_some_iff {m : Model} {k : Nat} :
    m.pinNodes k count = some ns ↔ (List.range' k count).map m.pin = ns.map some :=
  mapM_id_eq_some_iff

theorem length_pinNodes {m : Model} {k : Nat} (h : m.pinNodes k count = some ns) : ns.length = count := by
  have hlen := congrArg List.length (pinNodes_eq_some_iff.mp h)
  simpa using hlen.symm

theorem pin_of_pinNodes {m : Model} {k j : Nat} {n : NodeId} (h : m.pinNodes k count = some ns) (hn : ns[j]? = some n) :
    m.pin (k + j) = some n := by
  have hj : j < ns.length := (List.getElem?_eq_some_iff.mp hn).1
  have hget := congrArg (fun l => l[j]?) (pinNodes_eq_some_iff.mp h)
  rw [length_pinNodes h] at hj
  simpa [hn, getElem?_range', hj] using hget

variable {outputA : LogicT}

theorem ModelKind.length_gateFn {kind : ModelKind} {g : GateFn}
    (hg : kind.gateFn outputA = some g) (ins : List LogicT) (h : ins.length = g.arity) :
    (g.fn ins).length = g.count := by
  have hone (f : LogicT → LogicT) (l : List LogicT) (hl : l.length = 1) : (onOne f l).length = 1 := by
    obtain ⟨a, rfl⟩ := length_eq_one_iff.mp hl
    rfl
  have htwo (f : LogicT → LogicT → LogicT) (l : List LogicT) (hl : l.length = 2) :
      (onTwo f l).length = 1 := by
    obtain ⟨a, b, rfl⟩ := length_eq_two.mp hl
    rfl
  have hblock (arity count : Nat) (f : List LogicT → List LogicT)
      (hf : ∀ l : List LogicT, l.length = arity → (f l).length = count) (l : List LogicT)
      (hl : l.length = arity) : (onBlock count f l).length = count := by
    simp only [onBlock, blockValues]
    split
    · exact length_replicate
    · exact hf _ (by simpa using hl)
  cases kind <;> simp only [ModelKind.gateFn, Option.some.injEq, reduceCtorEq] at hg <;> subst hg
  case input => rfl
  case output => rfl
  case halfAdder =>
    refine hblock 2 2 _ (fun l hl => ?_) ins h
    obtain ⟨a, b, rfl⟩ := length_eq_two.mp hl
    rfl
  case halfSub =>
    refine hblock 2 2 _ (fun l hl => ?_) ins h
    obtain ⟨a, b, rfl⟩ := length_eq_two.mp hl
    rfl
  case fullAdder =>
    refine hblock 3 2 _ (fun l hl => ?_) ins h
    obtain ⟨a, b, d, rfl⟩ := length_eq_three.mp hl
    rfl
  case fullSub =>
    refine hblock 3 2 _ (fun l hl => ?_) ins h
    obtain ⟨a, b, d, rfl⟩ := length_eq_three.mp hl
    rfl
  case mul2 =>
    refine hblock 4 4 _ (fun l hl => ?_) ins h
    match l, hl with
    | [a0, a1, b0, b1], _ => rfl
  case yes => exact hone _ _ h
  case not => exact hone _ _ h
  case isUnknown => exact hone _ _ h
  all_goals exact htwo _ _ h

theorem ModelKind.gateFn_digital {kind : ModelKind} {g : GateFn}
    (hg : kind.gateFn outputA = some g) : kind.deviceType = .digital := by
  cases kind <;> simp_all [ModelKind.gateFn, ModelKind.deviceType]

structure Model.Idle (m : Model) : Prop where
  gateFn : ∀ outputA, m.kind.gateFn outputA = none
  call : ∀ view trDuration method clip,
    updateDigitalClk view trDuration method m clip = ⟨clip, [], none⟩

namespace Board

/-- A combinational model with all its pins connected: its function, input and output nodes. -/
def gateAt (b : Board) (outputs : Nat → LogicT) (id : Nat) :
    Option (GateFn × List NodeId × List NodeId) :=
  (b.modelAt id).bind fun m => (m.kind.gateFn (outputs id)).bind fun g =>
    (m.pinNodes 0 g.arity).bind fun ins => (m.pinNodes g.arity g.count).map fun outs => (g, ins, outs)

def slotKeys (b : Board) (outputs : Nat → LogicT) (id : Nat) : List (Nat × Nat) :=
  match b.gateAt outputs id with
  | some (g, _, _) => (List.range g.count).map fun k => (id, k)
  | none => []

/-- The network of the combinational models, for given attributes of the `INPUT` models. -/
def net (b : Board) (outputs : Nat → LogicT) : Net NodeId (Nat × Nat) LogicT where
  slots := b.nl.bases.flatMap fun x => b.slotKeys outputs x.id
  target := fun s => match b.gateAt outputs s.1 with
    | some (_, _, outs) => outs.getD s.2 .ground
    | none => .ground
  deps := fun s => match b.gateAt outputs s.1 with
    | some (_, ins, _) => ins
    | none => []
  fn := fun s v => match b.gateAt outputs s.1 with
    | some (g, ins, _) => (g.fn (ins.map v)).getD s.2 .X
    | none => .X
  rule := fun s => match b.gateAt outputs s.1 with
    | some (g, _, _) => g.rule
    | none => .write
  visit := fun n => (b.pinOrder n).flatMap fun p => b.slotKeys outputs p.id
  reads := by
    intro s v w h
    cases hg : b.gateAt outputs s.1 with
    | none => rfl
    | some gio =>
      obtain ⟨g, ins, outs⟩ := gio
      simp only [hg] at h ⊢
      rw [List.map_congr_left h]

theorem gateAt_eq_some {b : Board} {outputs : Nat → LogicT} {id : Nat} {g : GateFn}
    {ins outs : List NodeId} :
    b.gateAt outputs id = some (g, ins, outs) ↔ ∃ m, b.modelAt id = some m ∧
      m.kind.gateFn (outputs id) = some g ∧ m.pinNodes 0 g.arity = some ins ∧
      m.pinNodes g.arity g.count = some outs := by
  simp only [gateAt, Option.bind_eq_some_iff, Option.map_eq_some_iff, Prod.mk.injEq]
  constructor
  · rintro ⟨m, hm, g', hg, ins', hin, outs', hout, rfl, rfl, rfl⟩
    exact ⟨m, hm, hg, hin, hout⟩
  · rintro ⟨m, hm, hg, hin, hout⟩
    exact ⟨m, hm, g, hg, ins, hin, outs, hout, rfl, rfl, rfl⟩

section Slot

variable {b : Board} {outputs : Nat → LogicT} {id k : Nat} {g : GateFn} {ins outs : List NodeId}

section

variable (h : b.gateAt outputs id = some (g, ins, outs))

include h

theorem slotKeys_of_gateAt :
    b.slotKeys outputs id = (List.range g.count).map fun k => (id, k) := by simp only [slotKeys, h]

theorem net_target :
    (b.net outputs).target (id, k) = outs.getD k .ground := by simp only [net, h]

theorem net_deps :
    (b.net outputs).deps (id, k) = ins := by simp only [net, h]

theorem net_fn (v : NodeId → LogicT) :
    (b.net outputs).fn (id, k) v = (g.fn (ins.map v)).getD k .X := by simp only [net, h]

theorem net_rule :
    (b.net outputs).rule (id, k) = g.rule := by simp only [net, h]

end

end Slot

/-- A purely digital board whose models are all combinational or idle, none of which drives
one of its own input nodes. -/
structure Combinational (b : Board) : Prop where
  digital : ∀ n, b.isAnalog n = false
  comb : ∀ id m, b.modelAt id = some m → m.Idle ∨ ∀ outputA, (m.kind.gateFn outputA).isSome
  noSelfDrive : ∀ outputs id g ins outs, b.gateAt outputs id = some (g, ins, outs) →
    ∀ o ∈ outs, o ∉ ins

end Board

namespace Circult

variable (c : Circult)

def outputs (id : Nat) : LogicT := (c.clip id).outputA

def net : Net NodeId (Nat × Nat) LogicT := c.board.net c.outputs

/-- A circuit as a state of its network. Outputs that are compared with their node have no
cached value there. -/
def abs : EventNet.State NodeId (Nat × Nat) LogicT where
  val := c.state
  cache := fun s => if c.net.rule s = .compare then .X else (c.clip s.1).last s.2
  pending := c.tables.toFinset

structure Agrees (c : Circult) (st : EventNet.State NodeId (Nat × Nat) LogicT) : Prop where
  val : st.val = c.state
  pending : st.pending = c.tables.toFinset

theorem toFinset_enter (n : NodeId) :
    (c.enter n).tables.toFinset = insert n c.tables.toFinset := by
  ext m
  simp

variable {N : Net NodeId (Nat × Nat) LogicT}

variable {last : Nat → LogicT}

theorem agrees_ruleStore {c : Circult} {st : EventNet.State NodeId (Nat × Nat) LogicT} (h : Agrees c st) {s : Nat × Nat}
    {o : NodeId} (v : LogicT) {k : Nat} (htarget : N.target s = o)
    (hcache : N.rule s ≠ .compare → st.cache s = last k) :
    Agrees ((ruleStore (N.rule s) last ((o, v), k)).elim c c.store) (N.store st s v) := by
  rcases (N.rule s).cases with hr | hr | hr
  · have hc := hcache (by simp [hr])
    by_cases hv : last k = v
    · constructor
      · simp [Net.store, Net.writes, hr, ruleStore, store, htarget, hv, h.val]
      · simp [Net.store, Net.enters, hr, ruleStore, store, hc, hv, h.pending]
    · constructor
      · simp [Net.store, Net.writes, hr, ruleStore, store, htarget, hv, h.val]
      · simp only [Net.store, Net.enters, hr, ruleStore, store, hc, hv, htarget, Option.elim_some,
          ne_eq, not_false_eq_true, decide_true, if_true]
        rw [toFinset_enter, h.pending]
  · have hc := hcache (by simp [hr])
    by_cases hv : last k = v
    · constructor
      · simp [Net.store, Net.writes, Net.enters, hr, ruleStore, hc, hv, h.val]
      · simp [Net.store, Net.enters, hr, ruleStore, hc, hv, h.pending]
    · constructor
      · simp [Net.store, Net.writes, Net.enters, hr, ruleStore, store, hc, htarget, hv, h.val]
      · simp only [Net.store, Net.enters, hr, ruleStore, store, hc, hv, htarget, Option.elim_some,
          ne_eq, not_false_eq_true, decide_true, if_true]
        rw [toFinset_enter, h.pending]
  · by_cases hv : c.state o = v
    · constructor
      · simp [Net.store, Net.writes, Net.enters, hr, ruleStore, store, htarget, hv, h.val]
      · simp [Net.store, Net.enters, hr, ruleStore, store, htarget, hv, h.val, h.pending]
    · constructor
      · simp [Net.store, Net.writes, Net.enters, hr, ruleStore, store, htarget, hv, h.val]
      · simp only [Net.store, Net.enters, hr, ruleStore, store, htarget, h.val, Option.elim_some,
          hv, ne_eq, not_false_eq_true, decide_true, if_true, if_false]
        rw [toFinset_enter, h.pending]

variable {rule : Rule}

theorem agrees_foldl {id : Nat} (hrule : ∀ k, N.rule (id, k) = rule)
    (ovs : List (NodeId × LogicT)) :
    ∀ (n : Nat) (c : Circult) (st : EventNet.State NodeId (Nat × Nat) LogicT), Agrees c st →
      (∀ k ov, ovs[k]? = some ov → N.target (id, n + k) = ov.1) →
      (rule ≠ .compare → ∀ k, n ≤ k → st.cache (id, k) = last k) →
      Agrees (((ovs.zipIdx n).filterMap (ruleStore rule last)).foldl store c)
        ((ovs.zipIdx n).foldl (fun st ok => N.store st (id, ok.2) ok.1.2) st) := by
  induction ovs with
  | nil => exact fun n c st h _ _ => h
  | cons ov ovs ih =>
    intro n c st h htarget hcache
    have hstep : Agrees ((ruleStore (N.rule (id, n)) last (ov, n)).elim c c.store)
        (N.store st (id, n) ov.2) :=
      agrees_ruleStore h ov.2 (htarget 0 ov rfl) fun hne => hcache (hrule n ▸ hne) n le_rfl
    rw [hrule n] at hstep
    have hfold : ((ov :: ovs).zipIdx n).filterMap (ruleStore rule last) =
        (ruleStore rule last (ov, n)).toList ++ (ovs.zipIdx (n + 1)).filterMap (ruleStore rule last) := by
      cases hw : ruleStore rule last (ov, n) <;> simp [hw]
    have hhead : (ruleStore rule last (ov, n)).toList.foldl store c =
        (ruleStore rule last (ov, n)).elim c c.store := by
      cases ruleStore rule last (ov, n) <;> rfl
    rw [hfold, foldl_append, hhead, zipIdx_cons, foldl_cons]
    refine ih (n + 1) _ _ hstep ?_ ?_
    · intro k ov' hk
      have := htarget (k + 1) ov' (by simpa using hk)
      rwa [show n + 1 + k = n + (k + 1) by omega]
    · intro hne k hk
      have hkn : ((id, k) : Nat × Nat) ≠ (id, n) := by
        intro he
        have := congrArg Prod.snd he
        simp only at this
        omega
      have hold := hcache hne k (by omega)
      simp only [Net.store, hrule, if_neg hne, Function.update_of_ne hkn]
      exact hold

theorem cache_foldl {id : Nat} (hrule : ∀ k, N.rule (id, k) = rule) (s : Nat × Nat)
    (ovs : List (NodeId × LogicT)) :
    ∀ (n : Nat) (st : EventNet.State NodeId (Nat × Nat) LogicT),
      ((ovs.zipIdx n).foldl (fun st ok => N.store st (id, ok.2) ok.1.2) st).cache s =
        if rule ≠ .compare ∧ s.1 = id ∧ n ≤ s.2 then
          (ovs[s.2 - n]?.map Prod.snd).getD (st.cache s)
        else st.cache s := by
  induction ovs with
  | nil => intro n st; simp
  | cons ov ovs ih =>
    intro n st
    rw [zipIdx_cons, foldl_cons, ih]
    have hstore : (N.store st (id, n) ov.2).cache s =
        if rule ≠ .compare ∧ s = (id, n) then ov.2 else st.cache s := by
      simp only [Net.store, hrule]
      by_cases hr : rule = .compare
      · simp [hr]
      · simp only [hr, ite_false, ne_eq, not_false_eq_true, true_and]
        by_cases hs : s = (id, n)
        · simp [hs]
        · simp [hs]
    rw [hstore]
    by_cases hr : rule = .compare
    · simp [hr]
    · by_cases hid : s.1 = id
      · rcases Nat.lt_trichotomy s.2 n with hlt | heq | hgt
        · have hne : s ≠ (id, n) := by
            rintro rfl
            exact absurd hlt (lt_irrefl n)
          simp [hr, hid, hne, show ¬ n + 1 ≤ s.2 by omega, show ¬ n ≤ s.2 by omega]
        · have hs : s = (id, n) := Prod.ext hid heq
          subst hs
          simp [hr]
        · have hne : s ≠ (id, n) := by
            rintro rfl
            exact absurd hgt (lt_irrefl n)
          have hsub : s.2 - n = (s.2 - (n + 1)) + 1 := by omega
          simp [hr, hid, hne, show n + 1 ≤ s.2 by omega, show n ≤ s.2 by omega, hsub]
      · have hne : s ≠ (id, n) := fun he => hid (he ▸ rfl)
        simp [hid, hne]

@[simp] theorem clip_store (w : Store) : (c.store w).clip = c.clip := by
  cases w with
  | write n v e => simp only [store]; split <;> rfl
  | update n v => simp only [store]; split <;> rfl

theorem clip_foldl_store (ws : List Store) : ∀ c : Circult, (ws.foldl store c).clip = c.clip := by
  induction ws with
  | nil => exact fun c => rfl
  | cons w ws ih => exact fun c => (ih _).trans (clip_store c w)

section Call

variable {c : Circult} {id : Nat} {g : GateFn} {ins outs : List NodeId}

/-- The output nodes of a model with the values it computes for them. -/
def outValues (c : Circult) (g : GateFn) (ins outs : List NodeId) : List (NodeId × LogicT) :=
  outs.zip (g.fn (ins.map c.state))

section

variable (h : c.board.gateAt c.outputs id = some (g, ins, outs))
include h

theorem length_outValues :
    (c.outValues g ins outs).length = g.count := by
  obtain ⟨m, -, hg, hin, hout⟩ := Board.gateAt_eq_some.mp h
  rw [outValues, length_zip, ModelKind.length_gateFn hg _ (by simpa using length_pinNodes hin),
    length_pinNodes hout, Nat.min_self]

theorem net_of_outValues {k : Nat}
    {ov : NodeId × LogicT} (hk : (c.outValues g ins outs)[k]? = some ov) :
    c.net.target (id, k) = ov.1 ∧ c.net.fn (id, k) c.state = ov.2 := by
  obtain ⟨ho, hv⟩ := getElem?_zip_eq_some.mp hk
  rw [net, Board.net_target h, Board.net_fn h, getD_eq_getElem?_getD, ho,
    getD_eq_getElem?_getD, hv]
  exact ⟨rfl, rfl⟩

/-- The slots of one model do not read each other, so the network may compute all of them
from the states before the call. -/
theorem fireAll_slotKeys
    (hindep : ∀ o ∈ outs, o ∉ ins) :
    c.net.fireAll c.abs (c.board.slotKeys c.outputs id) =
      (c.outValues g ins outs).zipIdx.foldl (fun st ok => c.net.store st (id, ok.2) ok.1.2) c.abs := by
  have hkeys : c.board.slotKeys c.outputs id =
      (c.outValues g ins outs).zipIdx.map fun ok => (id, ok.2) := by
    have hsnd := zipIdx_map_snd 0 (c.outValues g ins outs)
    rw [length_outValues h] at hsnd
    rw [Board.slotKeys_of_gateAt h, range_eq_range', ← hsnd, List.map_map]
    rfl
  rw [Net.fireAll_eq_foldl_store c.state _ c.abs ?_ (fun _ _ _ _ => rfl), hkeys, foldl_map]
  · refine foldl_ext _ _ _ fun st ok hok => ?_
    rw [(net_of_outValues h (mem_zipIdx_iff_getElem?.mp hok)).2]
  · intro s hs t ht
    rw [Board.slotKeys_of_gateAt h, mem_map] at hs ht
    obtain ⟨k, hk, rfl⟩ := hs
    obtain ⟨k', -, rfl⟩ := ht
    rw [net, Board.net_target h, Board.net_deps h]
    refine hindep _ ?_
    obtain ⟨m, -, -, -, hout⟩ := Board.gateAt_eq_some.mp h
    rw [mem_range, ← length_pinNodes hout] at hk
    rw [getD_eq_getElem _ _ hk]
    exact getElem_mem hk

end

def afterCall (c : Circult) (id : Nat) (r : Outcome) : Circult :=
  let c' := r.stores.foldl store c
  { c' with clip := Function.update c'.clip id r.clip
            digitalOut := c'.digitalOut ++ r.drive.toList }

theorem afterCall_outputs (hout : r.clip.outputA = (c.clip id).outputA) :
    (c.afterCall id r).outputs = c.outputs := by
  funext id'
  by_cases hid : id' = id
  · subst hid
    simpa only [afterCall, outputs, Function.update_self] using hout
  · simp only [afterCall, outputs, Function.update_of_ne hid, clip_foldl_store]

theorem afterCall_net (hout : r.clip.outputA = (c.clip id).outputA) :
    (c.afterCall id r).net = c.net := by
  have hboard : (c.afterCall id r).board = c.board :=
    (SameSetup.foldl store sameSetup_store r.stores c).board
  rw [net, net, hboard, afterCall_outputs hout]

theorem abs_afterCall (h : c.board.gateAt c.outputs id = some (g, ins, outs))
    (hspec : CallSpec g ins outs c.view (c.clip id) r) :
    (c.afterCall id r).abs =
      (c.outValues g ins outs).zipIdx.foldl (fun st ok => c.net.store st (id, ok.2) ok.1.2) c.abs := by
  have hrule (k : Nat) : c.net.rule (id, k) = g.rule := Board.net_rule h
  have hagrees : Agrees (((c.outValues g ins outs).zipIdx.filterMap
      (ruleStore g.rule (c.clip id).last)).foldl store c) ((c.outValues g ins outs).zipIdx.foldl
        (fun st ok => c.net.store st (id, ok.2) ok.1.2) c.abs) :=
    agrees_foldl hrule _ 0 c c.abs ⟨rfl, rfl⟩
      (fun k ov hk => by simpa using (net_of_outValues h hk).1)
      (fun hne k _ => by simp [abs, hrule, hne])
  have hstores : r.stores = (c.outValues g ins outs).zipIdx.filterMap
      (ruleStore g.rule (c.clip id).last) := hspec.stores
  rw [← hstores] at hagrees
  have hcache := fun s => cache_foldl hrule s (c.outValues g ins outs) 0 c.abs
  set st := (c.outValues g ins outs).zipIdx.foldl
    (fun st ok => c.net.store st (id, ok.2) ok.1.2) c.abs with hst
  have hcacheEq : (c.afterCall id r).abs.cache = st.cache := by
    funext s
    rw [hcache s]
    simp only [abs, afterCall_net hspec.outputA]
    obtain ⟨id', k⟩ := s
    by_cases hid : id' = id
    · subst hid
      by_cases hr : g.rule = .compare
      · simp [hrule, hr]
      · have hlast := hspec.last hr k
        simp only [hrule, hr, ne_eq, not_false_eq_true, Nat.zero_le, and_self, if_true, if_false,
          Nat.sub_zero, afterCall, Function.update_self]
        exact hlast
    · simp [hid, afterCall, clip_foldl_store]
  have hval : (c.afterCall id r).abs.val = st.val := hagrees.val.symm
  have hpending : (c.afterCall id r).abs.pending = st.pending := hagrees.pending.symm
  calc (c.afterCall id r).abs
      = ⟨(c.afterCall id r).abs.val, (c.afterCall id r).abs.cache, (c.afterCall id r).abs.pending⟩ := rfl
    _ = ⟨st.val, st.cache, st.pending⟩ := by rw [hval, hcacheEq, hpending]
    _ = st := rfl

end Call

theorem abs_updateModel {c : Circult} (hb : c.board.Combinational) (method : DigitalUpdateMethod)
    (id : Nat) :
    (c.updateModel method id).outputs = c.outputs ∧
      (c.updateModel method id).abs = c.net.fireAll c.abs (c.board.slotKeys c.outputs id) := by
  cases hm : c.board.modelAt id with
  | none =>
    have hkeys : c.board.slotKeys c.outputs id = [] := by simp [Board.slotKeys, Board.gateAt, hm]
    simp only [updateModel, hm, hkeys]
    exact ⟨trivial, rfl⟩
  | some m =>
    rcases hb.comb id m hm with hidle | hcomb
    · have hkeys : c.board.slotKeys c.outputs id = [] := by
        simp [Board.slotKeys, Board.gateAt, hm, hidle.gateFn]
      have hsame : c.updateModel method id = c := by
        simp only [updateModel, hm, hidle.call]
        split
        · simp
        · rfl
      rw [hkeys, hsame]
      exact ⟨rfl, rfl⟩
    obtain ⟨g, hg⟩ := Option.isSome_iff_exists.mp (hcomb (c.outputs id))
    have hcall : c.updateModel method id =
        c.afterCall id (updateDigitalClk c.view c.trDuration method m (c.clip id)) := by
      simp only [updateModel, hm, ModelKind.gateFn_digital hg, if_true, afterCall]
    rw [hcall]
    by_cases hpins : m.pinNodes 0 g.arity = none ∨ m.pinNodes g.arity g.count = none
    · have hkeys : c.board.slotKeys c.outputs id = [] := by
        rcases hpins with h | h
        · simp [Board.slotKeys, Board.gateAt, hm, hg, h]
        · cases hin : m.pinNodes 0 g.arity <;> simp [Board.slotKeys, Board.gateAt, hm, hg, h, hin]
      rw [updateDigitalClk_unconnected method hg hpins, hkeys]
      have hsame : c.afterCall id ⟨c.clip id, [], none⟩ = c := by
        simp [afterCall]
      rw [hsame]
      exact ⟨rfl, rfl⟩
    · push Not at hpins
      obtain ⟨ins, hin⟩ := Option.ne_none_iff_exists'.mp hpins.1
      obtain ⟨outs, hout⟩ := Option.ne_none_iff_exists'.mp hpins.2
      have hgate : c.board.gateAt c.outputs id = some (g, ins, outs) :=
        Board.gateAt_eq_some.mpr ⟨m, hm, hg, hin, hout⟩
      have hspec : CallSpec g ins outs c.view (c.clip id)
          (updateDigitalClk c.view c.trDuration method m (c.clip id)) :=
        updateDigitalClk_spec hb.digital method hg hin hout
      exact ⟨afterCall_outputs hspec.outputA,
        (abs_afterCall hgate hspec).trans (fireAll_slotKeys hgate (hb.noSelfDrive _ _ g ins outs hgate)).symm⟩

theorem abs_foldl_updateModel (method : DigitalUpdateMethod) (ids : List Nat) :
    ∀ {c : Circult}, c.board.Combinational →
      (ids.foldl (updateModel method) c).outputs = c.outputs ∧
      (ids.foldl (updateModel method) c).abs =
        c.net.fireAll c.abs (ids.flatMap (c.board.slotKeys c.outputs)) := by
  induction ids with
  | nil => exact fun _ => ⟨rfl, rfl⟩
  | cons id ids ih =>
    intro c hb
    obtain ⟨houtputs, habs⟩ := abs_updateModel hb method id
    have hboard := (sameSetup_updateModel method c id).board
    have hnet : (c.updateModel method id).net = c.net := by rw [net, net, hboard, houtputs]
    obtain ⟨houtputs', habs'⟩ := ih (hboard ▸ hb : (c.updateModel method id).board.Combinational)
    rw [foldl_cons]
    refine ⟨houtputs'.trans houtputs, ?_⟩
    rw [habs', hnet, habs, hboard, houtputs, flatMap_cons, Net.fireAll, Net.fireAll, Net.fireAll,
      foldl_append]

theorem abs_processNode {c : Circult} (hb : c.board.Combinational) (n : NodeId) :
    (c.processNode n).outputs = c.outputs ∧ (c.processNode n).abs = c.net.process n c.abs := by
  have hfold := abs_foldl_updateModel .updateTable ((c.board.pinOrder n).map (·.id))
    (c := { c with tables := c.tables.filter fun m => m ≠ n }) hb
  rw [foldl_map] at hfold
  refine ⟨hfold.1, hfold.2.trans ?_⟩
  have hpending : (c.tables.filter fun m => m ≠ n).toFinset = c.tables.toFinset.erase n := by
    ext m
    simp [and_comm]
  rw [Net.process, flatMap_map]
  change c.net.fireAll ⟨c.state, c.abs.cache, (c.tables.filter fun m => m ≠ n).toFinset⟩ _ = _
  rw [hpending]
  rfl

theorem settleLoop_induction {P : EventNet.State NodeId (Nat × Nat) LogicT → Prop}
    (hP : ∀ st, P st → ∀ n ∈ st.pending, P (N.process n st)) (k : Nat) :
    ∀ {c : Circult}, c.board.Combinational → c.net = N → P c.abs →
      (settleLoop k c).outputs = c.outputs ∧ P (settleLoop k c).abs := by
  induction k with
  | zero => exact fun _ _ h => ⟨rfl, h⟩
  | succ k ih =>
    intro c hb hN h
    rw [settleLoop]
    split
    · exact ⟨rfl, h⟩
    · rename_i n rest htables
      obtain ⟨houtputs, habs⟩ := abs_processNode hb n
      have hboard := (sameSetup_processNode n c).board
      have hnet : (c.processNode n).net = c.net := by rw [net, net, hboard, houtputs]
      have hmem : n ∈ c.abs.pending := by
        change n ∈ c.tables.toFinset
        simp [htables]
      have hnext : P (c.processNode n).abs := by
        rw [habs, hN]
        exact hP _ h n hmem
      obtain ⟨houtputs', hend⟩ := ih (hboard ▸ hb : (c.processNode n).board.Combinational)
        (hnet.trans hN) hnext
      exact ⟨houtputs'.trans houtputs, hend⟩

end Circult

end PhyEngine
