import PhyEngine.Verilog.Instance

/-!
# Elaboration

`init_state`, `fill_bindings`, `elaborate_children` and `elaborate` of
`verilog/digital/digital.h`, and the runs of an elaborated design: input values are
written to the top ports and `simulate` is called, any number of times.
-/

namespace PhyEngine.Verilog

structure CompiledDesign where
  modules : List CompiledModule

def CompiledDesign.findModule (d : CompiledDesign) (name : String) : Option CompiledModule :=
  d.modules.find? (·.name = name)

def initialValues (m : CompiledModule) : List LogicT :=
  (List.range m.signalNames.length).map fun s =>
    if m.signalIsConst.getD s false then m.signalConstValue.getD s .X else .X

def initState (m : CompiledModule) : ModuleState :=
  { values := initialValues m, prevValues := initialValues m, combPrevValues := initialValues m }

variable (pm : CompiledModule)

def connectionBits : ConnectionRef → List PortBinding × Bool
  | .unconnected | .scalar none => ([], false)
  | .scalar (some s) => ([.parentSignal s], pm.signalIsSigned.getD s false)
  | .vector base =>
    match pm.vectors.lookup base with
    | none => ([], false)
    | some vd => (vd.bits.map .parentSignal, vd.isSigned)
  | .literal isSigned v => ([.literal v], isSigned)
  | .literalVector isSigned bits => (bits.map .literal, isSigned)
  | .bitList isSigned bits => (bits.map fun b => b.elim .parentSignal .literal, isSigned)
  | .expr isSigned roots => (roots.map .parentExprRoot, isSigned)

/-- `resize_bits` and `resize_rhs`: keep the low bits, or extend at the most significant
end. -/
def resizeBits {β : Type} (absent zero : β) (src : List β) (w : Nat) (signExtend : Bool) : List β :=
  match src with
  | [] => List.replicate w absent
  | msb :: _ =>
    if w ≤ src.length then src.drop (src.length - w)
    else List.replicate (w - src.length) (if signExtend then msb else zero) ++ src

def connectionDestBits : ConnectionRef → List (Option Nat)
  | .scalar (some s) => [some s]
  | .vector base =>
    match pm.vectors.lookup base with
    | none => []
    | some vd => vd.bits.map some
  | .bitList _ bits => bits.map fun b => b.elim some fun _ => none
  | _ => []

/-- The connection of a base port: by name when any connection is named, else by position. -/
def connectionOf (idef : InstanceDef) (base : String) (position : Nat) : ConnectionRef :=
  let named := idef.connections.filter fun c => c.1 ≠ ""
  if named ≠ [] then (named.reverse.lookup base).getD .unconnected
  else (idef.connections[position]?.map Prod.snd).getD .unconnected

def PortDecl.width (pd : PortDecl) : Nat := if pd.hasRange then (pd.msb - pd.lsb).natAbs + 1 else 1

def portDrives (pm cm : CompiledModule) (ref : ConnectionRef) (pd : PortDecl) (offset : Nat) :
    List PortDrive :=
  let dst := connectionDestBits pm ref
  if dst = [] ∨ cm.ports.length < offset + pd.width then []
  else
    let rhs := ((cm.ports.drop offset).take pd.width).map fun p => (Sum.inl p.signal : Nat ⊕ LogicT)
    let rhs := resizeBits (.inr .X) (.inr .L) rhs dst.length pd.isSigned
    (dst.zip rhs).filterMap fun
      | (none, _) => none
      | (some s, .inl c) => if c = 2 ^ 64 - 1 then none else some { parentSignal := s, childSignal := c }
      | (some s, .inr v) => some { parentSignal := s, srcIsLiteral := true, literal := v }

def fillPorts (pm cm : CompiledModule) (idef : InstanceDef) :
    List (String × Nat) → Nat → List PortBinding × List PortDrive → List PortBinding × List PortDrive
  | [], _, r => r
  | (base, position) :: rest, offset, (bindings, drives) =>
    let ref := connectionOf idef base position
    let pd := (cm.portDecls.lookup base).getD {}
    let bindings := if pd.dir ≠ .output then
        let bits := connectionBits pm ref
        let resized := resizeBits .unconnected (.literal .L) bits.1 pd.width bits.2
        resized.zipIdx.foldl (fun bs bi => bs.set (offset + bi.2) bi.1) bindings
      else bindings
    let drives := if pd.dir = .output ∨ pd.dir = .inout then drives ++ portDrives pm cm ref pd offset
      else drives
    fillPorts pm cm idef rest (offset + pd.width) (bindings, drives)

def fillBindings (pm cm : CompiledModule) (idef : InstanceDef) : List PortBinding × List PortDrive :=
  fillPorts pm cm idef cm.portOrder.zipIdx 0 (List.replicate cm.ports.length .unconnected, [])

/-- `apply_param_value`: the low 32 bits of a parameter, into the current and the previous
values. -/
def applyParamValue (cm : CompiledModule) (st : ModuleState) (param : String × UInt64) : ModuleState :=
  match cm.vectors.lookup param.1 with
  | none => st
  | some vd =>
    if vd.bits.length ≠ 32 then st
    else
      let writes := vd.bits.reverse.zipIdx.map fun si => (si.1, LogicT.ofBool (param.2.toNat.testBit si.2))
      { st with
        values := writes.foldl (fun vs w => vs.set w.1 w.2) st.values
        prevValues := writes.foldl (fun vs w => vs.set w.1 w.2) st.prevValues }

def paramOverrides (cm : CompiledModule) (idef : InstanceDef) : List (String × UInt64) :=
  (cm.paramOrder.zip idef.paramPositionalValues ++ idef.paramNamedValues).filter fun p =>
    !(cm.paramIsLocal.lookup p.1).getD false

def makeChild (pm cm : CompiledModule) (idef : InstanceDef) : InstanceNode :=
  let ports := fillBindings pm cm idef
  { mod := cm
    instanceName := idef.instanceName
    state := (paramOverrides cm idef).foldl (applyParamValue cm) (initState cm)
    drivenNets := initDrivenNetsFromAssigns cm
    bindings := ports.1
    outputDrives := ports.2 }

def markDriven (driven : List Bool) (child : InstanceNode) : List Bool :=
  child.outputDrives.foldl (fun driven d =>
    if pm.isReg d.parentSignal then driven else driven.set d.parentSignal true) driven

def elaborateChildren (d : CompiledDesign) : Nat → InstanceNode → InstanceState
  | 0, parent => .node parent []
  | levels + 1, parent =>
    let kids := parent.mod.instances.filterMap fun idef =>
      (d.findModule idef.moduleName).map fun cm => makeChild parent.mod cm idef
    .node { parent with drivenNets := kids.foldl (markDriven parent.mod) parent.drivenNets }
      (kids.map (elaborateChildren d levels))

def elaborate (d : CompiledDesign) (top : CompiledModule) : InstanceState :=
  elaborateChildren d 65
    { mod := top, instanceName := top.name, state := initState top
      drivenNets := initDrivenNetsFromAssigns top }

/-- One call of `simulate` after new input values. -/
structure Call where
  pins : List (Option LogicT)
  tick : UInt64
  processSequential : Bool := true

def Call.run (c : Call) (t : InstanceState) : InstanceState :=
  simulate c.tick c.processSequential (sampleInputs c.pins t)

def runCalls (calls : List Call) (t : InstanceState) : InstanceState :=
  calls.foldl (fun t c => c.run t) t

@[simp] theorem runCalls_nil (t : InstanceState) : runCalls [] t = t := rfl

end PhyEngine.Verilog
