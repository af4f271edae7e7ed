import PhyEngine.Circuit.Devices
import PhyEngine.Synth.Builder
import PhyEngine.Synth.StmtAgree

/-!
# Flip-flops of a clocked block

The `always_ff` part of `synth_instance`: the clock is the first edge of the event list, then the
asynchronous reset, then the flip-flops. A netlist is run on its nets and on the fields of the
flip-flops: after a change the gates settle, then every flip-flop is updated.
-/

namespace PhyEngine.Verilog

open LogicT

def Stmt.isEmpty : Stmt → Bool
  | .empty => true
  | _ => false

def findAsyncResetIfStmt : List Stmt → Option (Nat × List Stmt × List Stmt)
  | [.ifStmt cond ts es] => some (cond, ts, es)
  | [.block ss] =>
    match ss.filter fun s => !s.isEmpty with
    | [.ifStmt cond ts es] => some (cond, ts, es)
    | _ => none
  | _ => none

abbrev ResetValues := List (Option LogicT)

section

variable (b : InstanceBuilder) (targets : List Bool)

def noteReset (resets : ResetValues) (p : Nat × Nat) : Option ResetValues :=
  if resets.length ≤ p.1 then some resets
  else if targets.getD p.1 false = false then some resets
  else (b.evalConstExprToLogic p.2).map fun v => resets.set p.1 (some v)

mutual

def tryCollectAsyncResetValues : Stmt → ResetValues → Option ResetValues
  | .empty, resets => some resets
  | .block ss, resets => tryCollectAll ss resets
  | .assign a, resets =>
    if a.lhs.length ≠ a.rhs.length then some resets else (a.lhs.zip a.rhs).foldlM (noteReset b targets) resets
  | _, _ => none

def tryCollectAll : List Stmt → ResetValues → Option ResetValues
  | [], resets => some resets
  | s :: ss, resets => (tryCollectAsyncResetValues s resets).bind fun resets => tryCollectAll ss resets

end

end

def EdgeKind.isEdge : EdgeKind → Bool
  | .level => false
  | .posedge | .negedge => true

variable (m : CompiledModule)

def matchSigLit (a b : Nat) : Option (Nat × LogicT) :=
  match m.exprNodes[a]?, m.exprNodes[b]? with
  | some (.signal s), some (.literal v) => some (s, v)
  | some (.literal v), some (.signal s) => some (s, v)
  | _, _ => none

def litIsOne : LogicT → Option Bool
  | .H => some true
  | .L => some false
  | _ => none

/-- `match_cond`: the signal of a condition, and whether the condition is true when it is 1. -/
def matchCond (root : Nat) : Option (Nat × Bool) :=
  match m.exprNodes[root]? with
  | some (.signal s) => some (s, true)
  | some (.unaryNot a) =>
    match m.exprNodes[a]? with
    | some (.signal s) => some (s, false)
    | _ => none
  | some (.binaryEq a b) | some (.binaryCaseEq a b) =>
    (matchSigLit m a b).bind fun p => (litIsOne p.2).map fun one => (p.1, one)
  | some (.binaryNeq a b) => (matchSigLit m a b).bind fun p => (litIsOne p.2).map fun one => (p.1, !one)
  | _ => none

def clkIdx (events : List SensitivityEvent) : Nat := (events.findIdx? fun ev => ev.k.isEdge).getD 0

def inferResetIsThen (events : List SensitivityEvent) (cond : Nat) : Option Bool :=
  (matchCond m cond).bind fun p =>
    (events.zipIdx.find? fun e => e.2 ≠ clkIdx events && e.1.signal = p.1 && e.1.k.isEdge).map fun e =>
      p.2 == (e.1.k == .posedge)

def resetBranch (b : InstanceBuilder) (ff : AlwaysFf) (cond : Nat) (ts es : List Stmt) : Option (Bool × ResetValues) :=
  let targets := collectAssignedSignals b.inst.mod ff.roots
  let start := List.replicate b.inst.mod.signalNames.length none
  match tryCollectAll b targets ts start, tryCollectAll b targets es start with
  | some resets, none => some (true, resets)
  | none, some resets => some (false, resets)
  | some resets, some resets' =>
    if (inferResetIsThen b.inst.mod ff.events cond).getD true then some (true, resets) else some (false, resets')
  | none, none => none

/-- A `DFF`, or a `DFF_ARSTN` with the node of its reset and its reset value, for a register. -/
structure FlipFlop where
  signal : Nat
  d : Nat
  clk : Nat
  q : Nat
  arst : Option (Nat × LogicT)
  deriving DecidableEq

section

variable (b : InstanceBuilder) (opt : StmtOptions) (ff : AlwaysFf) (sig : List Nat)

/-- The node of the clock, which rises at the active edge. A level event counts as a rising edge. -/
def clockNode (ev : SensitivityEvent) : SynthM Nat :=
  if sig.length ≤ ev.signal then failure
  else if ev.k = .negedge then gateNot (sig.getD ev.signal 0)
  else pure (sig.getD ev.signal 0)

def asyncReset : SynthM (Nat × Nat × ResetValues) :=
  match findAsyncResetIfStmt ff.roots, ff.events[clkIdx ff.events]? with
  | some (cond, ts, es), some ev => do
    let clk ← clockNode sig ev
    let condTrue ← condNode b.inst.mod opt cond { cur := sig, aux := sig }
    match resetBranch b ff cond ts es with
    | none => failure
    | some (resetIsThen, resets) => do
      let rstActive ← if resetIsThen then pure condTrue else gateNot condTrue
      let arstN ← gateNot rstActive
      pure (clk, arstN, resets)
  | _, _ => failure

def makeFlipFlop (clk : Nat) (arst : Option (Nat × ResetValues)) (next : List Nat) (s : Nat) : FlipFlop where
  signal := s
  d := next.getD s 0
  clk := clk
  q := sig.getD s 0
  arst := arst.bind fun a => (a.2.getD s none).map fun v => (a.1, v)

def synthFlipFlops : SynthM (List FlipFlop) :=
  let targets := collectAssignedSignals b.inst.mod ff.roots
  let registers := (List.range b.inst.mod.signalNames.length).filter fun s => targets.getD s false
  if registers.any fun s => !b.inst.mod.isReg s then failure
  else
    match ff.events with
    | [] => failure
    | [ev] => do
      let clk ← clockNode sig ev
      let env ← synthAlwaysFf b.inst.mod opt ff.roots sig
      pure (registers.map (makeFlipFlop sig clk none env.aux))
    | _ => do
      let (clk, arstN, resets) ← asyncReset b opt ff sig
      let env ← synthAlwaysFf b.inst.mod opt ff.roots sig
      pure (registers.map (makeFlipFlop sig clk (some (arstN, resets)) env.aux))

end

def FlipFlop.model (f : FlipFlop) : Model :=
  match f.arst with
  | none => ⟨.dff, "", [], [some (.node f.d), some (.node f.clk), some (.node f.q)]⟩
  | some (arstN, _) => ⟨.dffArstn, "", [], [some (.node f.d), some (.node f.clk), some (.node arstN), some (.node f.q)]⟩

def digitalView (value : Nat → LogicT) : NodeId → NodeView
  | .ground => { analog := true, voltage := 0.0, state := .X }
  | .node i => { analog := false, voltage := 0.0, state := value i }

def FlipFlop.updated (f : FlipFlop) (value : Nat → LogicT) (clip : Clip) : Clip :=
  match f.arst with
  | none => (updateDff (digitalView value) f.model clip).clip
  | some _ => (updateDffArstn (digitalView value) f.model clip).clip

/-- The nets of the design and the fields of the flip-flop of every register. -/
structure NetlistState where
  nets : Nat → LogicT
  clips : Nat → Clip

def NetlistState.drive (ns : NetlistState) (ffs : List FlipFlop) : NetlistState :=
  { ns with nets := fun i =>
      match ffs.find? fun f => f.q = i with
      | none => ns.nets i
      | some f => (ns.clips f.signal).q }

def NetlistState.change (g : GateNet) (ffs : List FlipFlop) (n : Nat) (v : LogicT) (ns : NetlistState) : NetlistState :=
  let nets := fun i => if i = n then v else ns.nets i
  let clips := fun s =>
    match ffs.find? fun f => f.signal = s with
    | none => ns.clips s
    | some f => f.updated (g.value nets) (ns.clips s)
  NetlistState.drive { nets, clips } ffs

/-- The simulator after a change of one signal: `run_sequential` on the block, `apply_nba` and the
new previous values. -/
def simulateChange (ff : AlwaysFf) (tick : UInt64) (s : Nat) (v : LogicT) (st : ModuleState) :
    ModuleState :=
  let st := (applyNba (runAlwaysFfs m tick [(ff, 0)] (st.assignSignal s v).1).1).1
  { st with prevValues := st.values }

end PhyEngine.Verilog
