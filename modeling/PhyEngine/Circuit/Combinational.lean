import PhyEngine.Circuit.Wiring
import PhyEngine.Library.Equations

/-!
# Settled gate netlists

A gate is called only when one of its nodes is taken out of the table. For netlists of `INPUT`
models and Boolean gates, whose tick ended with an empty table, the node states are nevertheless
those of the combinational netlist.
-/

namespace PhyEngine

open EventNet List

def ModelKind.isGate : ModelKind → Bool
  | .yes | .not | .and | .or | .xor | .xnor | .nand | .nor | .imp | .nimp | .fullAdder => true
  | _ => false

theorem ModelKind.gateFn_indeterminate {kind : ModelKind} (hk : kind.isGate) {a : LogicT} {g : GateFn}
    (hg : kind.gateFn a = some g) (k : Nat) :
    (g.fn (List.replicate g.arity .X)).getD k .X = .X := by
  cases kind <;> simp only [ModelKind.isGate, Bool.false_eq_true] at hk <;>
    cases hg
  case fullAdder =>
    match k with
    | 0 => rfl
    | 1 => rfl
    | k + 2 => rfl
  all_goals
    match k with
    | 0 => rfl
    | k + 1 => rfl

namespace Board

variable {b : Board} {o : Nat → LogicT}

/-- The netlists of `INPUT` models and gates on digital nodes, with single drivers and an
acyclic gate graph. -/
structure GateNetlist (b : Board) : Prop extends Wired b where
  digital : ∀ n, b.isAnalog n = false
  kinds : ∀ x ∈ b.nl.bases, x.model.kind = .input ∨ x.model.kind.isGate
  single : b.SingleDrivers
  acyclic : b.Acyclic

/-- The value of a node of the netlist, evaluated from the drivers down to the inputs. A
node without a driver is indeterminate. -/
def evalNode (b : Board) (outputs : Nat → LogicT) : Nat → NodeId → LogicT
  | 0, _ => .X
  | k + 1, n =>
    match (b.net outputs).slots.find? fun s => decide ((b.net outputs).target s = n) with
    | some s => (b.net outputs).fn s (evalNode b outputs k)
    | none => .X

/-- A settled valuation is the evaluation of the netlist on a set of nodes that is closed
under dependencies and on which nodes without a driver are indeterminate; as many levels as
there are driven nodes are enough. -/
theorem evalNode_of_settled {rank : NodeId → Nat} (hrank : (b.net o).Ranked rank) {v : NodeId → LogicT}
    {D : NodeId → Prop} (hdeps : ∀ s ∈ (b.net o).slots, ∀ d ∈ (b.net o).deps s, D d)
    (hsettled : ∀ s ∈ (b.net o).slots, v ((b.net o).target s) = (b.net o).fn s v)
    (hundriven : ∀ n, D n → (∀ s ∈ (b.net o).slots, (b.net o).target s ≠ n) → v n = .X) (fuel : Nat) :
    ∀ n, D n → Equations.below rank ((b.net o).slots.map (b.net o).target) n ≤ fuel →
      v n = b.evalNode o fuel n := by
  have hnone (n : NodeId) (k : Nat) (h : ∀ s ∈ (b.net o).slots, (b.net o).target s ≠ n) :
      b.evalNode o k n = .X := by
    cases k with
    | zero => rfl
    | succ k =>
      have hfind : (b.net o).slots.find? (fun s => decide ((b.net o).target s = n)) = none :=
        find?_eq_none.mpr fun s hs => by simpa using h s hs
      rw [evalNode, hfind]
  induction fuel with
  | zero =>
    intro n hn hle
    have hno : ∀ s ∈ (b.net o).slots, (b.net o).target s ≠ n := by
      rintro s hs rfl
      have hpos : 0 < Equations.below rank ((b.net o).slots.map (b.net o).target) ((b.net o).target s) :=
        countP_pos_iff.mpr ⟨_, mem_map_of_mem hs, by simp⟩
      omega
    rw [hundriven n hn hno, hnone n 0 hno]
  | succ k ih =>
    intro n hn hle
    cases hfind : (b.net o).slots.find? (fun s => decide ((b.net o).target s = n)) with
    | none =>
      have hno : ∀ s ∈ (b.net o).slots, (b.net o).target s ≠ n := fun s hs => by
        simpa using find?_eq_none.mp hfind s hs
      rw [hundriven n hn hno, hnone n (k + 1) hno]
    | some s =>
      have hs := mem_of_find?_eq_some hfind
      obtain rfl : (b.net o).target s = n := by simpa using find?_some hfind
      rw [evalNode, hfind, hsettled s hs]
      refine (b.net o).reads s _ _ fun d hd => ih d (hdeps s hs d hd) ?_
      have hlt := Equations.below_lt rank (mem_map_of_mem hs) (hrank s hs d hd)
      omega

theorem GateNetlist.combinational (h : b.GateNetlist) : b.Combinational := by
  obtain ⟨rank, hrank⟩ := h.acyclic
  refine ⟨h.digital, fun id m hm => Or.inr fun outputA => ?_, noSelfDrive_of_ranked hrank⟩
  obtain ⟨x, hx, -, rfl⟩ := mem_of_modelAt hm
  rcases h.kinds x hx with hk | hk
  · simp [hk, ModelKind.gateFn]
  · cases hkind : x.model.kind <;> simp_all [ModelKind.isGate, ModelKind.gateFn]

end Board

namespace Circult

/-- A fresh circuit: all nodes with pins and all caches indeterminate, empty tables, and the
models sorted by their update method. -/
structure Fresh (c : Circult) : Prop where
  state : ∀ n, c.board.pinOrder n ≠ [] → c.state n = .X
  last : ∀ id k, (c.clip id).last k = .X
  tables : c.tables = []
  alwaysTables : c.alwaysTables = []
  beforeAllClk : c.beforeAllClk = c.board.modelsWith .beforeAllClk
  afterAllClk : c.afterAllClk = c.board.modelsWith .afterAllClk

inductive Reachable (c₀ : Circult) : Circult → Prop
  | start : Reachable c₀ c₀
  | setInput {c : Circult} (h : Reachable c₀ c) (id : Nat) (v : LogicT) :
      Reachable c₀ (c.setInput id v)
  | digitalClk {c : Circult} (h : Reachable c₀ c) (hends : c.digitalClk.tables = []) :
      Reachable c₀ c.digitalClk

def IsInput (b : Board) (s : Nat × Nat) : Prop := ∃ m, b.modelAt s.1 = some m ∧ m.kind = .input

/-- The nodes of `D` without a driver are indeterminate. -/
def Undriven (D : NodeId → Prop) (N : Net NodeId (Nat × Nat) LogicT)
    (st : EventNet.State NodeId (Nat × Nat) LogicT) : Prop :=
  ∀ n, D n → (∀ s ∈ N.slots, N.target s ≠ n) → st.val n = .X

/-- What holds between the calls: only `INPUT` models may have something new to say. -/
structure Waiting (D : NodeId → Prop) (b : Board) (c : Circult) : Prop where
  board : c.board = b
  tables : c.tables = []
  alwaysTables : c.alwaysTables = []
  beforeAllClk : c.beforeAllClk = b.modelsWith .beforeAllClk
  afterAllClk : c.afterAllClk = b.modelsWith .afterAllClk
  invariant : c.net.Invariant (IsInput b) c.abs
  undriven : Undriven D c.net c.abs

variable {D : NodeId → Prop}

theorem undriven_fireAll {N : Net NodeId (Nat × Nat) LogicT} (ss : List (Nat × Nat)) :
    ∀ {st : EventNet.State NodeId (Nat × Nat) LogicT}, (∀ s ∈ ss, s ∈ N.slots) → Undriven D N st →
      Undriven D N (N.fireAll st ss) := by
  induction ss with
  | nil => exact fun _ h => h
  | cons s ss ih =>
    intro st hmem h
    refine ih (fun t ht => hmem t (mem_cons_of_mem _ ht)) fun n hD hn => ?_
    rw [Net.fire_val_of_ne (hn s (hmem s mem_cons_self)).symm]
    exact h n hD hn

variable {b : Board} {c : Circult}

theorem invariant_outputs {o o' : Nat → LogicT} {st : EventNet.State NodeId (Nat × Nat) LogicT}
    (h : (b.net o).Invariant (IsInput b) st) :
    (b.net o').Invariant (IsInput b) st := by
  constructor
  · intro s hs hrule
    rw [Board.net_slots_congr (o := o)] at hs
    obtain ⟨htarget, -, hr, -⟩ := Board.net_congr (b := b) (o := o) o' s
    rw [hr] at hrule
    rw [htarget]
    exact h.cache s hs hrule
  · intro s hs hne
    rw [Board.net_slots_congr (o := o)] at hs
    obtain ⟨htarget, hdeps, -, hfn⟩ := Board.net_congr (b := b) (o := o) o' s
    have hfn := hfn fun m hm hk => hne ⟨m, hm, hk⟩
    rw [Net.Settled, htarget, hfn, hdeps]
    exact h.settled s hs hne

theorem Waiting.setInput {b : Board} {c : Circult} (h : Waiting D b c) (id : Nat) (v : LogicT) :
    Waiting D b (c.setInput id v) := by
  cases hm : c.board.modelAt id with
  | none => simpa only [Circult.setInput, hm] using h
  | some m =>
    by_cases hk : m.kind = .input
    · obtain ⟨c', hc'⟩ : ∃ c', c.setInput id v = c' := ⟨_, rfl⟩
      have heq : c' = { c with clip := Function.update c.clip id { c.clip id with outputA := v } } := by
        rw [← hc', Circult.setInput, hm]
        simp only [hk, if_true]
      have hlast (id' : Nat) : (c'.clip id').last = (c.clip id').last := by
        rw [heq]
        by_cases hid : id' = id
        · subst hid
          simp
        · simp [hid]
      have hboard : c'.board = c.board := by rw [heq]
      have habs : c'.abs = c.abs := by
        have hrule (s : Nat × Nat) : c'.net.rule s = c.net.rule s := by
          rw [net, net, hboard]
          exact (Board.net_congr c'.outputs s).2.2.1
        simp only [abs, hrule, hlast]
        rw [heq]
      rw [hc']
      have hinv : c'.net.Invariant (IsInput b) c'.abs := by
        rw [habs, net, hboard, h.board]
        have := h.invariant
        rw [net, h.board] at this
        exact invariant_outputs this
      have hundriven : Undriven D c'.net c'.abs := by
        intro n hD hn
        rw [habs]
        refine h.undriven n hD fun s hs => ?_
        have := hn s
        rw [net, hboard, Board.net_slots_congr (o := c.outputs), 
          (Board.net_congr (o := c.outputs) c'.outputs s).1] at this
        exact this hs
      refine ⟨hboard.trans h.board, ?_, ?_, ?_, ?_, hinv, hundriven⟩
      · rw [heq]; exact h.tables
      · rw [heq]; exact h.alwaysTables
      · rw [heq]; exact h.beforeAllClk
      · rw [heq]; exact h.afterAllClk
    · simpa only [Circult.setInput, hm, hk, if_false] using h

theorem Fresh.waiting (h : c.Fresh) (hnet : c.board.GateNetlist) :
    Waiting (fun n => c.state n = .X) c.board c := by
  refine ⟨rfl, h.tables, h.alwaysTables, h.beforeAllClk, h.afterAllClk, ⟨?_, ?_⟩, fun n hn _ => hn⟩
  · intro s hs hrule
    simp only [abs, if_neg hrule, h.last]
    exact (h.state _ (hnet.toWired.pinOrder_target_ne_nil hs)).symm
  · intro s hs hne
    left
    obtain ⟨id, k⟩ := s
    obtain ⟨x, hx, rfl, g, ins, outs, hgate, -, hg, hin, -⟩ :=
      Board.gateAt_of_mem_slots hnet.toWired hs
    have hisGate : x.model.kind.isGate := by
      rcases hnet.kinds x hx with hk | hk
      · exact absurd ⟨x.model, Board.modelAt_of_mem hnet.toWired hx, hk⟩ hne
      · exact hk
    have hins : ins.map c.state = replicate g.arity .X := by
      rw [eq_replicate_iff]
      refine ⟨by simpa using length_pinNodes hin, fun v hv => ?_⟩
      obtain ⟨n, hn, rfl⟩ := mem_map.mp hv
      refine h.state n (hnet.toWired.pinOrder_dep_ne_nil hs ?_)
      rw [Board.net_deps hgate]
      exact hn
    have hfn : c.net.fn (x.id, k) c.state = .X := by
      rw [net, Board.net_fn hgate, hins]
      exact ModelKind.gateFn_indeterminate hisGate hg k
    rw [Net.Settled]
    exact (h.state _ (hnet.toWired.pinOrder_target_ne_nil hs)).trans hfn.symm

theorem mem_beforeSlots (hnet : b.GateNetlist) {o : Nat → LogicT} {s : Nat × Nat} :
    s ∈ (b.modelsWith .beforeAllClk).flatMap (b.slotKeys o) ↔ s ∈ (b.net o).slots ∧ IsInput b s := by
  simp only [mem_flatMap, Board.modelsWith, mem_map, mem_filter, Bool.and_eq_true,
    decide_eq_true_eq]
  constructor
  · rintro ⟨id, ⟨x, ⟨hx, -, hmethod⟩, rfl⟩, hkey⟩
    have hid := Board.fst_of_mem_slotKeys hkey
    refine ⟨Board.mem_slots.mpr ⟨x, hx, hid.symm, hid ▸ hkey⟩, x.model,
      hid ▸ Board.modelAt_of_mem hnet.toWired hx, ?_⟩
    rcases hnet.kinds x hx with hk | hk
    · exact hk
    · cases hkind : x.model.kind <;>
        simp_all [ModelKind.isGate, ModelKind.digitalUpdateMethod]
  · rintro ⟨hs, m, hm, hk⟩
    obtain ⟨x, hx, hid, hkey⟩ := Board.mem_slots.mp hs
    have hmodel := Board.modelAt_of_mem hnet.toWired hx
    rw [hid, hm, Option.some.injEq] at hmodel
    refine ⟨s.1, ⟨x, ⟨hx, ?_, ?_⟩, hid⟩, hkey⟩
    · rw [← hmodel, hk]
      rfl
    · rw [← hmodel, hk]
      rfl

theorem modelsWith_afterAllClk (b : Board) : b.modelsWith .afterAllClk = [] := by
  simp only [Board.modelsWith, map_eq_nil_iff, filter_eq_nil_iff, Bool.and_eq_true,
    decide_eq_true_eq, not_and]
  intro x _ _
  cases x.model.kind <;> simp [ModelKind.digitalUpdateMethod]

theorem Waiting.digitalClk {b : Board} {c : Circult} (hnet : b.GateNetlist) (h : Waiting D b c) :
    c.digitalClk.outputs = c.outputs ∧ c.digitalClk.net.Invariant (fun _ => False) c.digitalClk.abs ∧
      Undriven D c.digitalClk.net c.digitalClk.abs := by
  have hboard := h.board
  subst hboard
  obtain ⟨rank, hrank⟩ := hnet.acyclic
  have hsd : c.net.SingleDriver := hnet.single.net c.outputs
  have hself : c.net.NoSelfLoop := (Board.ranked_net hrank c.outputs).noSelfLoop
  have hat : c.net.Attached := hnet.toWired.attached c.outputs
  -- the before phase
  have hbefore : { c with digitalOut := [] }.beforeDigitalClk.outputs = c.outputs ∧
      { c with digitalOut := [] }.beforeDigitalClk.abs =
        c.net.fireAll c.abs (c.beforeAllClk.flatMap (c.board.slotKeys c.outputs)) :=
    abs_foldl_updateModel .beforeAllClk c.beforeAllClk (c := { c with digitalOut := [] })
      hnet.combinational
  have hsetup : SameSetup { c with digitalOut := [] } { c with digitalOut := [] }.beforeDigitalClk :=
    .foldl _ (sameSetup_updateModel _) _ _
  generalize hc1 : { c with digitalOut := [] }.beforeDigitalClk = c1 at hbefore hsetup
  have hboard1 : c1.board = c.board := hsetup.board
  have hnet1 : c1.net = c.net := by rw [net, net, hboard1, hbefore.1]
  have hslots : ∀ s ∈ c.beforeAllClk.flatMap (c.board.slotKeys c.outputs), s ∈ c.net.slots := by
    rw [h.beforeAllClk]
    exact fun s hs => ((mem_beforeSlots hnet).mp hs).1
  have hinv1 : c.net.Invariant (fun _ => False) c1.abs := by
    rw [hbefore.2]
    refine (h.invariant.fireAll hsd hself _ hslots).mono fun s hs he => he.2 ?_
    rw [h.beforeAllClk]
    exact (mem_beforeSlots hnet).mpr ⟨hs, he.1⟩
  have hund1 : Undriven D c.net c1.abs := by
    rw [hbefore.2]
    exact undriven_fireAll _ hslots h.undriven
  -- the settle loop
  have hseed : c1.seedTables = c1 := by
    rw [seedTables, hsetup.alwaysTables]
    simp only [h.alwaysTables, foldl_nil]
  have hloop := settleLoop_induction
    (P := fun st => c.net.Invariant (fun _ => False) st ∧ Undriven D c.net st)
    (fun st hst n _ => ⟨hst.1.process hsd hself hat n, undriven_fireAll _ (hat.visits n) hst.2⟩)
    iterBudget (hboard1 ▸ hnet.combinational) hnet1 ⟨hinv1, hund1⟩
  have hclk : c.digitalClk = settleLoop iterBudget c1 := by
    rw [Circult.digitalClk, hc1, updateTableDigitalClk, hseed, afterTableDigitalClk,
      (sameSetup_settleLoop _ _).afterAllClk, hsetup.afterAllClk]
    simp only [h.afterAllClk, modelsWith_afterAllClk, foldl_nil]
  have houtputs : c.digitalClk.outputs = c.outputs := by
    rw [hclk]
    exact hloop.1.trans hbefore.1
  have hnetEnd : c.digitalClk.net = c.net := by
    rw [net, net, houtputs, (sameSetup_digitalClk c).board]
  rw [hnetEnd]
  refine ⟨houtputs, ?_, ?_⟩
  · rw [hclk]
    exact hloop.2.1
  · rw [hclk]
    exact hloop.2.2

theorem Waiting.of_digitalClk (hnet : b.GateNetlist) (h : Waiting D b c) (hends : c.digitalClk.tables = []) :
    Waiting D b c.digitalClk := by
  obtain ⟨-, hinv, hund⟩ := h.digitalClk hnet
  have hsetup := sameSetup_digitalClk c
  exact ⟨hsetup.board.trans h.board, hends, hsetup.alwaysTables.trans h.alwaysTables,
    hsetup.beforeAllClk.trans h.beforeAllClk, hsetup.afterAllClk.trans h.afterAllClk,
    hinv.mono fun _ _ hf => hf.elim, hund⟩

theorem Reachable.waiting {c₀ : Circult} (hnet : c₀.board.GateNetlist) (hfresh : c₀.Fresh) (hrun : Reachable c₀ c) :
    Waiting (fun n => c₀.state n = .X) c₀.board c := by
  induction hrun with
  | start => exact hfresh.waiting hnet
  | setInput _ id v ih => exact ih.setInput id v
  | digitalClk _ hends ih => exact ih.of_digitalClk hnet hends

/-- After every tick that ends with an empty table, each model's output nodes hold its
function of its input nodes, and every node holds the value the netlist has for the current
values of the `INPUT` models. -/
theorem digitalClk_combinational {c₀ c : Circult} (hnet : c₀.board.GateNetlist) (hfresh : c₀.Fresh)
    (hrun : Reachable c₀ c) (hends : c.digitalClk.tables = []) :
    (∀ x ∈ c₀.board.nl.bases, ∀ g ins outs, x.model.kind.gateFn (c.outputs x.id) = some g →
      x.model.pinNodes 0 g.arity = some ins → x.model.pinNodes g.arity g.count = some outs →
      outs.map c.digitalClk.state = g.fn (ins.map c.digitalClk.state)) ∧
    ∀ n, c₀.state n = .X → ∀ fuel, (c₀.board.net c.outputs).slots.length ≤ fuel →
      c.digitalClk.state n = c₀.board.evalNode c.outputs fuel n := by
  have hwait := hrun.waiting hnet hfresh
  obtain ⟨houtputs, hinv, hund⟩ := hwait.digitalClk hnet
  have hnetEnd : c.digitalClk.net = c₀.board.net c.outputs := by
    rw [net, houtputs, (sameSetup_digitalClk c).board, hwait.board]
  rw [hnetEnd] at hinv hund
  have hsettled : ∀ s ∈ (c₀.board.net c.outputs).slots,
      c.digitalClk.state ((c₀.board.net c.outputs).target s) =
        (c₀.board.net c.outputs).fn s c.digitalClk.state := by
    intro s hs
    exact hinv.settled_of_pending_empty (by simp [abs, hends]) hs id
  refine ⟨?_, ?_⟩
  · intro x hx g ins outs hg hin hout
    have hgate : c₀.board.gateAt c.outputs x.id = some (g, ins, outs) :=
      Board.gateAt_eq_some.mpr ⟨x.model, Board.modelAt_of_mem hnet.toWired hx, hg, hin, hout⟩
    have hlen : (g.fn (ins.map c.digitalClk.state)).length = g.count :=
      ModelKind.length_gateFn hg _ (by simpa using length_pinNodes hin)
    refine List.ext_getElem (by rw [List.length_map, hlen, length_pinNodes hout]) fun k hk hk' => ?_
    rw [List.length_map] at hk
    have hslot : (x.id, k) ∈ (c₀.board.net c.outputs).slots := by
      refine Board.mem_slots.mpr ⟨x, hx, rfl, ?_⟩
      rw [Board.slotKeys_of_gateAt hgate, List.mem_map]
      exact ⟨k, List.mem_range.mpr (hlen ▸ hk'), rfl⟩
    have := hsettled _ hslot
    rw [Board.net_target hgate, Board.net_fn hgate, List.getD_eq_getElem _ _ hk,
      List.getD_eq_getElem _ _ hk'] at this
    rw [List.getElem_map]
    exact this
  · intro n hn fuel hfuel
    obtain ⟨rank, hrank⟩ := hnet.acyclic
    have hdeps : ∀ s ∈ (c₀.board.net c.outputs).slots, ∀ d ∈ (c₀.board.net c.outputs).deps s,
        c₀.state d = .X :=
      fun s hs d hd => hfresh.state d (hnet.toWired.pinOrder_dep_ne_nil hs hd)
    refine Board.evalNode_of_settled (Board.ranked_net hrank c.outputs) hdeps hsettled hund fuel n hn ?_
    refine le_trans (Equations.below_le_length rank _ n) ?_
    rw [List.length_map]
    exact hfuel

def inverterNetlist : Netlist := .ofModels 2 [.port .input [0] "a" [], .on .not [0, 1]]

def inverter : Circult where
  board := .inOrder inverterNetlist
  analyzeType := .TR
  state := fun _ => .X
  voltage := fun _ => 0.0
  clip := fun _ => {}
  beforeAllClk := [0]

theorem inverter_fresh : inverter.Fresh where
  state := fun _ _ => rfl
  last := fun _ _ => rfl
  tables := rfl
  alwaysTables := rfl
  beforeAllClk := by decide
  afterAllClk := by decide

theorem inverter_gateNetlist : inverter.board.GateNetlist where
  toWired := Board.wired_inOrder (by decide)
  digital := Board.isAnalog_eq_false (by decide) rfl
  kinds := by decide
  single := by
    unfold Board.SingleDrivers Net.SingleDriver
    decide
  acyclic := by
    refine ⟨fun n => if n = .node 1 then 1 else 0, ?_⟩
    unfold Net.Ranked
    decide

/-- One tick with the input high. -/
theorem digitalClk_combinational_inverter :
    (inverter.setInput 0 .H).digitalClk.tables = [] ∧
      (inverter.setInput 0 .H).digitalClk.state (.node 1) =
        inverter.board.evalNode (inverter.setInput 0 .H).outputs 2 (.node 1) :=
  ⟨by decide, (digitalClk_combinational inverter_gateNetlist inverter_fresh (.setInput .start 0 .H)
    (by decide)).2 _ rfl _ (by decide)⟩

end Circult

end PhyEngine
