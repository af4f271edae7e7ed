import PhyEngine.Verilog.Exec
import PhyEngine.Library.RoseTree

/-!
# Simulation of an instance tree

`instance_state`, the passes of `runtime_details` and `simulate`, over a rose tree of
`InstanceNode`s. Two results that the source does not keep are recorded: which `always_ff` blocks
ran, and whether a settle loop ended because nothing changed.
-/

namespace PhyEngine.Verilog

inductive PortBinding where
  | unconnected
  | parentSignal (s : Nat)
  | literal (v : LogicT)
  | parentExprRoot (root : Nat)
  deriving DecidableEq

structure PortDrive where
  parentSignal : Nat
  srcIsLiteral : Bool := false
  childSignal : Nat := 2 ^ 64 - 1
  literal : LogicT := .X
  deriving DecidableEq

structure InstanceNode where
  mod : CompiledModule
  instanceName : String := ""
  state : ModuleState := {}
  drivenNets : List Bool := []
  bindings : List PortBinding := []
  outputDrives : List PortDrive := []

abbrev InstanceState := RoseTree InstanceNode

namespace InstanceNode

def get (n : InstanceNode) (s : Nat) : LogicT := n.state.get s

/-- Whether a net is resolved from its drivers in every pass. -/
def isDriven (n : InstanceNode) (s : Nat) : Bool := n.drivenNets.getD s false

end InstanceNode

def resolveNetDrivers (a b : LogicT) : LogicT :=
  if b = .Z then a
  else if a = .Z then b
  else if a.isUnknown || b.isUnknown then .X
  else if a = b then a else .X

/-- The value of a net whose drivers contribute `vs`. -/
def joined (vs : List LogicT) : LogicT := vs.foldl resolveNetDrivers .Z

def initDrivenNetsFromAssigns (m : CompiledModule) : List Bool :=
  (List.range m.signalNames.length).map fun s => !m.isReg s && m.assigns.any fun a => a.lhsSignal = s

variable (n : InstanceNode)

def prepareNetDrives : InstanceNode :=
  let len := n.state.values.length
  let next := ModuleState.grow n.state.nextNetValues len .Z
  let driven := ModuleState.grow n.drivenNets len false
  { n with
    drivenNets := driven
    state := { n.state with
      nextNetValues := next.zipIdx.map fun vi => if vi.2 < len ∧ driven.getD vi.2 false then .Z else vi.1 } }

/-- `drive_signal_next`. Whether a direct write changed the signal is not reported. -/
def driveSignalNext (sig : Nat) (v : LogicT) : InstanceNode :=
  if n.state.values.length ≤ sig then n
  else if n.mod.isReg sig then { n with state := (n.state.assignSignal sig v).1 }
  else if !n.isDriven sig then { n with state := (n.state.assignSignal sig v).1 }
  else
    let next := ModuleState.grow n.state.nextNetValues n.state.values.length .Z
    { n with state := { n.state with
        nextNetValues := next.set sig (resolveNetDrivers (next.getD sig .Z) v) } }

def applyNetDrives : InstanceNode × Bool :=
  let len := n.state.values.length
  if n.state.nextNetValues.length < len ∨ n.drivenNets.length < len then (n, false)
  else
    let nets := (List.range len).filter fun s => n.isDriven s && !n.mod.isReg s
    let r := n.state.assignAll (nets.map fun s => (s, n.state.nextNetValues.getD s .Z))
    ({ n with state := r.1 }, r.2)

/-- The bits of the `$urandom` bus, from the most significant one on. -/
def CompiledModule.urandomBits (m : CompiledModule) : Option (List Nat) :=
  (m.vectors.lookup "$urandom").bind fun vd => if vd.bits.length = 4 then some vd.bits else none

def isPosedge (prev now : LogicT) : Bool := prev.normalizeZToX = .L && now.normalizeZToX = .H

def isNegedge (prev now : LogicT) : Bool := prev.normalizeZToX = .H && now.normalizeZToX = .L

/-- The next state of the random generator: a shift register with inverted feedback. -/
def nextUrandom : List LogicT → List LogicT
  | [b3, b2, b1, b0] => [b2, b1, b0, .ofBool !(xor (b3 = .H) (b2 = .H))]
  | _ => []

variable (st : ModuleState)

def setBus (bits : List Nat) (vs : List LogicT) : ModuleState :=
  { st with values := (bits.zip vs).foldl (fun values w => values.set w.1 w.2) st.values }

/-- `rstn` of the random generator, high when there is no reset signal or nothing drives it. -/
def urandomReset (m : CompiledModule) (st : ModuleState) : LogicT :=
  match (m.signalIndex.lookup "rst_n").or (m.signalIndex.lookup "reset_n") with
  | none => .H
  | some s => if s < st.values.length ∧ st.get s ≠ .Z then st.get s else .H

/-- The update of the `$urandom` bus at the head of `run_sequential`. -/
def updateUrandom (m : CompiledModule) (st : ModuleState) : ModuleState :=
  match m.urandomBits with
  | none => st
  | some bits =>
    let rstn := urandomReset m st
    if rstn = .L then setBus st bits (bits.map fun _ => .L)
    else if rstn.isUnknown then setBus st bits (bits.map fun _ => .X)
    else
      match m.signalIndex.lookup "clk" with
      | none => st
      | some clk =>
        if clk < st.values.length ∧ clk < st.prevValues.length ∧
            isPosedge (st.prevValues.getD clk .X) (st.get clk) then
          let vs := bits.map st.get
          if vs.any LogicT.isUnknown then setBus st bits (bits.map fun _ => .X)
          else setBus st bits (nextUrandom vs)
        else st

/-- Whether an event of a sensitivity list happened since the previous values. -/
def eventOccurs (ev : SensitivityEvent) : Bool :=
  if st.values.length ≤ ev.signal ∨ st.prevValues.length ≤ ev.signal then false
  else
    let prev := st.prevValues.getD ev.signal .X
    match ev.k with
    | .posedge => isPosedge prev (st.get ev.signal)
    | .negedge => isNegedge prev (st.get ev.signal)
    | .level => prev != st.get ev.signal

def AlwaysFf.fires (ff : AlwaysFf) (st : ModuleState) : Bool := ff.events.any (eventOccurs st)

/-- The blocks of `run_sequential` in order, and the numbers of those that ran. -/
def runAlwaysFfs (m : CompiledModule) (tick : UInt64) :
    List (AlwaysFf × Nat) → ModuleState → ModuleState × List Nat
  | [], st => (st, [])
  | (ff, k) :: ffs, st =>
    if ff.fires st then
      let r := runAlwaysFfs m tick ffs (execRoots m tick ff.roots st).1
      (r.1, k :: r.2)
    else runAlwaysFfs m tick ffs st

def runSequential (m : CompiledModule) (tick : UInt64) (st : ModuleState) : ModuleState × List Nat :=
  runAlwaysFfs m tick m.alwaysFfs.zipIdx (updateUrandom m st)

/-- What `try_schedule_linear` threads through the statements of an initial block. -/
structure Linear where
  ok : Bool := true
  cursor : UInt64 := 0
  events : List ScheduledEvent

mutual

/-- `try_schedule_linear`: events scheduled before a failure stay scheduled. -/
def scheduleStmt (base : UInt64) : Stmt → Linear → Linear
  | .empty, l => l
  | .block ss, l | .subprogramBlock ss, l => scheduleStmts base ss l
  | .assign a, l =>
    let cursor := l.cursor + a.delayTicks
    { l with cursor, events := l.events ++ [a.event (base + cursor)] }
  | _, l => { l with ok := false }

def scheduleStmts (base : UInt64) : List Stmt → Linear → Linear
  | [], l => l
  | s :: ss, l =>
    let l' := scheduleStmt base s l
    if l'.ok then scheduleStmts base ss l' else l'

end

def runInitialBlock (m : CompiledModule) (tick : UInt64) (st : ModuleState) (ib : InitialBlock) :
    ModuleState :=
  let l := scheduleStmts tick ib.roots { events := st.events }
  let st' := { st with events := l.events }
  if l.ok then st' else (execRoots m tick ib.roots st').1

def runInitialBlocks (m : CompiledModule) (tick : UInt64) (st : ModuleState) : ModuleState :=
  if st.initialRan then st
  else m.initials.foldl (runInitialBlock m tick) { st with initialRan := true, initialBaseTick := tick }

def bindingValue (parent : InstanceNode) : PortBinding → LogicT
  | .unconnected => .X
  | .parentSignal s => parent.get s
  | .literal v => v
  | .parentExprRoot root => evalExpr parent.mod root parent.state.values

def InstanceNode.inputBindings (child : InstanceNode) : List (Nat × PortBinding) :=
  if child.bindings.length < child.mod.ports.length then []
  else
    ((child.mod.ports.zip child.bindings).filter fun pb => pb.1.dir ≠ .output).map fun pb =>
      (pb.1.signal, pb.2)

def portWrites (parent child : InstanceNode) : List (Nat × LogicT) :=
  child.inputBindings.map fun sb => (sb.1, bindingValue parent sb.2)

def propagateParentToChild (parent child : InstanceNode) : InstanceNode × Bool :=
  let r := child.state.assignAll (portWrites parent child)
  ({ child with state := r.1 }, r.2)

def PortDrive.source (d : PortDrive) (child : InstanceNode) : Option LogicT :=
  if d.srcIsLiteral then some d.literal
  else if child.state.values.length ≤ d.childSignal then none
  else some (child.get d.childSignal)

def propagateChildToParent (child parent : InstanceNode) : InstanceNode :=
  child.outputDrives.foldl (fun parent d =>
    match d.source child with
    | none => parent
    | some v => driveSignalNext parent d.parentSignal v) parent

/-- `sequential_pass` at one instance, and the `always_ff` blocks it ran. -/
def sequentialStep (tick : UInt64) (processSequential : Bool) (n : InstanceNode) :
    InstanceNode × List Nat :=
  let st := processDueEvents n.mod tick (runInitialBlocks n.mod tick { n.state with nbaQueue := [] })
  let r := if processSequential then runSequential n.mod tick st else (st, [])
  ({ n with state := r.1 }, r.2)

def sequentialVisit (tick : UInt64) (processSequential : Bool)
    (parent : Option (InstanceNode × List Nat)) (n : InstanceNode) : InstanceNode × List Nat :=
  match parent with
  | none => sequentialStep tick processSequential n
  | some p => sequentialStep tick processSequential (propagateParentToChild p.1 n).1

def sequentialPass (tick : UInt64) (processSequential : Bool) (t : InstanceState) :
    RoseTree (InstanceNode × List Nat) :=
  t.topDown (sequentialVisit tick processSequential) none

def AlwaysComb.triggered (ac : AlwaysComb) (triggerToken : UInt32) (anyTriggered : Bool)
    (st : ModuleState) : Bool :=
  if ac.isStar then anyTriggered
  else ac.sensSignals.any fun s => s < st.changeMark.length && st.changeMark.getD s 0 = triggerToken

def runAlwaysCombs (m : CompiledModule) (tick : UInt64) (triggerToken : UInt32) (anyTriggered : Bool) :
    List AlwaysComb → ModuleState → ModuleState × Bool
  | [], st => (st, false)
  | ac :: acs, st =>
    if ac.triggered triggerToken anyTriggered st then
      let x := execRoots m tick ac.roots st
      let r := runAlwaysCombs m tick triggerToken anyTriggered acs x.1
      (r.1, r.2 || x.2)
    else runAlwaysCombs m tick triggerToken anyTriggered acs st

def ContinuousAssign.drive (m : CompiledModule) (a : ContinuousAssign) (values : List LogicT) :
    Option LogicT :=
  match a.guardRoot with
  | none => some (evalExpr m a.exprRoot values)
  | some g =>
    if (evalExpr m g values).normalizeZToX = .H then some (evalExpr m a.exprRoot values) else none

/-- The continuous assignments of `run_comb_local`, in textual order. -/
def runAssigns (assigns : List ContinuousAssign) : InstanceNode :=
  assigns.foldl (fun n a =>
    match a.drive n.mod n.state.values with
    | none => n
    | some v => driveSignalNext n a.lhsSignal v) n

def runCombLocal (tick : UInt64) (triggerToken : UInt32) (anyTriggered : Bool) (n : InstanceNode) :
    InstanceNode × Bool :=
  let r := runAlwaysCombs n.mod tick triggerToken anyTriggered n.mod.alwaysCombs n.state
  (runAssigns { n with state := r.1 } n.mod.assigns, r.2)

/-- The part of a pass at the instance itself, after its children are resolved. -/
def settleRoot (tick : UInt64) (triggerToken : UInt32) (anyTriggered : Bool) (n : InstanceNode)
    (kids : List InstanceState) : InstanceNode × Bool :=
  let n := kids.foldl (fun n c => propagateChildToParent c.value n) n
  let local' := runCombLocal tick triggerToken anyTriggered n
  let nets := applyNetDrives local'.1
  let nba := applyNba nets.1.state
  ({ nets.1 with state := nba.1 }, nba.2 || (nets.2 || local'.2))

/-- One pass of the loop of `comb_resolve` after `begin_change_epoch`, with `resolve` for the
children. -/
def settlePass (resolve : InstanceState → InstanceState × Bool) (tick : UInt64)
    (triggerToken : UInt32) (anyTriggered : Bool) (t : InstanceState) : InstanceState × Bool :=
  let n := prepareNetDrives t.value
  let rs := t.children.map fun c => resolve (c.withValue (propagateParentToChild n c.value).1)
  let root := settleRoot tick triggerToken anyTriggered n (rs.map Prod.fst)
  (.node root.1 (rs.map Prod.fst),
    root.2 || (rs.any Prod.snd || t.children.any fun c => (propagateParentToChild n c.value).2))

/-- What a settle loop leaves: the instance, whether anything changed, and whether the loop
ended because a pass changed nothing. -/
structure Settling where
  inst : InstanceState
  changed : Bool
  settled : Bool

def settleLoop (resolve : InstanceState → InstanceState × Bool) (tick : UInt64) :
    Nat → UInt32 → Bool → InstanceState → Settling
  | 0, _, _, t => ⟨t, false, false⟩
  | iters + 1, triggerToken, anyTriggered, t =>
    let n := { t.value with state := t.value.state.beginChangeEpoch }
    let r := settlePass resolve tick triggerToken anyTriggered (t.withValue n)
    if !r.2 then ⟨r.1, false, true⟩
    else
      let s := settleLoop resolve tick iters n.state.changeToken
        (r.1.value.state.changedSignals ≠ []) r.1
      ⟨s.inst, true, s.settled⟩

/-- The head of `comb_resolve`: the state, marked with the signals that changed since the
last resolution, and whether there are any. -/
def beginCombResolve : ModuleState × Bool :=
  let st := if st.combPrevValues.length ≠ st.values.length then
    { st with combPrevValues := st.prevValues } else st
  let st := { st with changeMark := ModuleState.grow st.changeMark st.values.length 0 }.beginChangeEpoch
  let differs s := s < st.values.length ∧ s < st.combPrevValues.length ∧
    st.get s ≠ st.combPrevValues.getD s .X
  let anyTriggered := (List.range st.values.length).any fun s => differs s
  ({ st with
      changeMark := st.changeMark.zipIdx.map fun mi => if differs mi.2 then st.changeToken else mi.1
      combInitialized := true },
    anyTriggered || !st.combInitialized)

def maxIter : Nat := 64

def combResolveWith (resolve : InstanceState → InstanceState × Bool) (tick : UInt64)
    (t : InstanceState) : Settling :=
  let b := beginCombResolve t.value.state
  let s := settleLoop resolve tick maxIter b.1.changeToken b.2 (t.withValue { t.value with state := b.1 })
  let n := s.inst.value
  let n := { n with state := { n.state with combPrevValues := n.state.values } }
  { s with inst := s.inst.withValue n }

def combResolve (tick : UInt64) : Nat → InstanceState → InstanceState × Bool
  | 0, t => (t, false)
  | height + 1, t =>
    let s := combResolveWith (combResolve tick height) tick t
    (s.inst, s.changed)

def updatePrevRecursive (t : InstanceState) : InstanceState :=
  t.map fun n => { n with state := { n.state with
    prevValues := n.state.values, combPrevValues := n.state.values } }

def simulate (tick : UInt64) (processSequential : Bool) (t : InstanceState) : InstanceState :=
  updatePrevRecursive
    (combResolve tick t.height ((sequentialPass tick processSequential t).map Prod.fst)).1

/-- The `always_ff` blocks that `simulate` runs, at every instance. -/
def firedBlocks (tick : UInt64) (processSequential : Bool) (t : InstanceState) :
    RoseTree (List Nat) :=
  (sequentialPass tick processSequential t).map Prod.snd

/-- The input sampling of `update_digital_clk_define`: a value for each connected pin. -/
def sampleInputs (pins : List (Option LogicT)) (t : InstanceState) : InstanceState :=
  let n := t.value
  let writes := ((n.mod.ports.zip pins).filter fun pv => pv.1.dir ≠ .output).filterMap fun pv =>
    pv.2.map fun v => (pv.1.signal, v)
  t.withValue { n with state := { n.state with
    values := writes.foldl (fun values w => values.set w.1 w.2) n.state.values } }

end PhyEngine.Verilog
