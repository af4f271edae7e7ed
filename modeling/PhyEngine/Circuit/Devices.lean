import PhyEngine.Netlist.Basic
import PhyEngine.Verilog.Instance

/-!
# The digital device models

`update_digital_clk_define` of every model under `model/models/digital`. A call reads the nodes
of the pins and the private fields and returns an `Outcome`: the new fields, the writes in order,
and the analog drive. Voltages and times are machine floating-point numbers.
-/

namespace PhyEngine

inductive DigitalUpdateMethod where
  | updateTable
  | beforeAllClk
  | afterAllClk
  deriving DecidableEq

structure AnalogDrive where
  voltage : Float
  node : NodeId

/-- What a model reads of a node: whether `num_of_analog_node` is not 0, and the member of
`node_information` that belongs to it. -/
structure NodeView where
  analog : Bool
  voltage : Float
  state : LogicT

structure GateInput where
  input : LogicT := .X
  usr : LogicT := .X
  duration : Float := 0.0

/-- The fields of the model structs. Each model uses those its struct has; `last k` is the
value cached for output `k` (`last_outputA`, `last_out`, `last_s`, `last_c`, `last_p[k]`). -/
structure Clip where
  ll : Float := 0.0
  hl : Float := 5.0
  tsu : Float := 1e-9
  th : Float := 5e-10
  vthLow : Float := 1.6666666666666666666666
  vthHigh : Float := 3.333333333333333333333
  inverted : Bool := false
  inputA : GateInput := {}
  inputB : GateInput := {}
  outputA : LogicT := .L
  last : Nat → LogicT := fun _ => .X
  q : LogicT := .L
  resetValue : LogicT := .L
  lastClk : LogicT := .L
  schmittOut : LogicT := .L
  value : UInt8 := 0
  unknown : Bool := false
  unknownMask : UInt8 := 0
  lastValue : UInt8 := 0xFF
  lastUnknown : Bool := true
  ticks : Nat := 1
  pipe : List LogicT := []
  topInstance : Option Verilog.InstanceState := none
  tick : UInt64 := 0
  analogEmitCursor : Nat := 0

inductive Store where
  /-- The state is written, and the node is entered in the table when asked for. -/
  | write (n : NodeId) (v : LogicT) (enter : Bool)
  /-- The state is written and the node entered in the table only if the state differs. -/
  | update (n : NodeId) (v : LogicT)

structure Outcome where
  clip : Clip
  stores : List Store := []
  drive : Option AnalogDrive := none

def Model.pin (m : Model) (k : Nat) : Option NodeId := (m.pins[k]?).join

/-- The nodes of the pins from `k` on, if all of the `count` pins are connected. -/
def Model.pinNodes (m : Model) (k count : Nat) : Option (List NodeId) :=
  ((List.range' k count).map m.pin).mapM id

section

variable (view : NodeId → NodeView) (trDuration : Float)

/-- The reading of an input of a gate. An analog node goes through the levels `Ll`, `Hl`
and the times of the unsteady state. -/
def GateInput.read (g : GateInput) (clip : Clip) (n : NodeId) : GateInput :=
  if (view n).analog then
    let voltage := (view n).voltage
    match g.input with
    | .L =>
      if voltage ≥ clip.hl then
        if clip.tsu > 0.0 then ⟨.X, .H, trDuration⟩ else { g with input := .H }
      else g
    | .H =>
      if voltage ≤ clip.ll then
        if clip.th > 0.0 then ⟨.X, .L, trDuration⟩ else { g with input := .L }
      else g
    | .X =>
      match g.usr with
      | .L =>
        if voltage ≤ clip.ll then
          if trDuration - g.duration ≥ clip.tsu then { g with input := .L } else g
        else { g with input := .H }
      | .H =>
        if voltage ≥ clip.hl then
          if trDuration - g.duration ≥ clip.th then { g with input := .H } else g
        else { g with input := .L }
      | .X =>
        if voltage ≥ clip.hl then
          if trDuration - g.duration ≥ clip.th then { g with input := .H } else g
        else if voltage ≤ clip.ll then
          if trDuration - g.duration ≥ clip.tsu then { g with input := .L } else g
        else { g with duration := trDuration }
      | .Z => g
    | .Z => g
  else { g with input := (view n).state }

variable (clip : Clip)

/-- `read_dn` of `CASE_EQ`, `IS_UNKNOWN`, `RESOLVE2`, `TICK_DELAY` and `VERILOG_MODULE`. -/
def readDn (n : NodeId) : LogicT :=
  if (view n).analog then
    if (view n).voltage ≥ clip.hl then .H else if (view n).voltage ≤ clip.ll then .L else .X
  else (view n).state

/-- `read_dn` of the adders and flip-flops: high impedance reads as indeterminate. -/
def readDnLogic (n : NodeId) : LogicT := (readDn view clip n).normalizeZToX

def gateDrive (v : LogicT) (n : NodeId) : Option AnalogDrive :=
  match v with
  | .H => some ⟨clip.hl, n⟩
  | .L | .X => some ⟨clip.ll, n⟩
  | .Z => none

def levelDrive (v : LogicT) (n : NodeId) : AnalogDrive :=
  ⟨if v = .H then clip.hl else clip.ll, n⟩

def Clip.setLast (k : Nat) (v : LogicT) : Clip :=
  { clip with last := Function.update clip.last k v }

/-- The output part of the gates and of `INPUT`: the node is written in any case and
entered in the table when the cached output changes. -/
def gateOutput (o : NodeId) (outputRes : LogicT) : Outcome :=
  let outputChange := decide (clip.last 0 ≠ outputRes)
  let clip := clip.setLast 0 outputRes
  if (view o).analog then ⟨clip, [], gateDrive clip outputRes o⟩
  else ⟨clip, [.write o outputRes outputChange], none⟩

/-- An output that is compared with the node itself; an analog node is driven always. -/
def nodeOutput (o : NodeId) (v : LogicT) : Outcome :=
  if (view o).analog then ⟨clip, [], some (levelDrive clip v o)⟩
  else ⟨clip, [.update o v], none⟩

/-- An output that is compared with the node itself; an analog node is driven when the
cached output `k` changes. -/
def changeOutput (k : Nat) (o : NodeId) (v : LogicT) : Outcome :=
  if (view o).analog then
    if clip.last k = v then ⟨clip, [], none⟩
    else ⟨clip.setLast k v, [], some (levelDrive clip v o)⟩
  else ⟨clip.setLast k v, [.update o v], none⟩

variable (outs : List (NodeId × LogicT))

/-- The cached outputs of a block: a digital node is written and entered in the table when
its cached value changes. -/
def cachedStores : List Store :=
  outs.zipIdx.filterMap fun ok =>
    if (view ok.1.1).analog = false ∧ clip.last ok.2 ≠ ok.1.2 then
      some (.write ok.1.1 ok.1.2 true)
    else none

def cachedClip : Clip :=
  { clip with last := fun k => match outs[k]? with
      | some ov => if (view ov.1).analog then clip.last k else ov.2
      | none => clip.last k }

/-- The output part of the adders and subtractors: all digital outputs, then the drive of
the first analog one. -/
def blockOutput : Outcome where
  clip := cachedClip view clip outs
  stores := cachedStores view clip outs
  drive := (outs.find? fun ov => (view ov.1).analog).map fun ov => levelDrive clip ov.2 ov.1

def gate1 (f : LogicT → LogicT) (m : Model) (clip : Clip) : Outcome :=
  match m.pin 0, m.pin 1 with
  | some i, some o =>
    let clip := { clip with inputA := clip.inputA.read view trDuration clip i }
    gateOutput view clip o (f clip.inputA.input)
  | _, _ => ⟨clip, [], none⟩

def gate2 (f : LogicT → LogicT → LogicT) (m : Model) (clip : Clip) : Outcome :=
  match m.pin 0, m.pin 1, m.pin 2 with
  | some ia, some ib, some o =>
    let clip := { clip with
      inputA := clip.inputA.read view trDuration clip ia
      inputB := clip.inputB.read view trDuration clip ib }
    gateOutput view clip o (f clip.inputA.input clip.inputB.input)
  | _, _, _ => ⟨clip, [], none⟩

variable (m : Model)

def updateInput (clip : Clip) : Outcome :=
  match m.pin 0 with
  | some o => gateOutput view clip o clip.outputA
  | none => ⟨clip, [], none⟩

def updateOutput (clip : Clip) : Outcome :=
  match m.pin 0 with
  | some i => ⟨{ clip with inputA := clip.inputA.read view trDuration clip i }, [], none⟩
  | none => ⟨clip, [], none⟩

/-- `TRI`: the output node is entered in the table in every call. -/
def updateTri (clip : Clip) : Outcome :=
  match m.pin 0, m.pin 1, m.pin 2 with
  | some i, some en, some o =>
    let enabled := if (view en).analog then decide ((view en).voltage ≥ clip.hl)
      else decide ((view en).state = .H)
    if enabled then
      let inputState := readDn view clip i
      if (view o).analog then ⟨clip, [], some (levelDrive clip inputState o)⟩
      else ⟨clip, [.write o inputState true], none⟩
    else if (view o).analog then ⟨clip, [], none⟩
    else ⟨clip, [.write o .Z true], none⟩
  | _, _, _ => ⟨clip, [], none⟩

def resolve2 (a b : LogicT) : LogicT :=
  if a = .Z then b else if b = .Z then a else if a = b then a else .X

def updateCaseEq (clip : Clip) : Outcome :=
  match m.pin 0, m.pin 1, m.pin 2 with
  | some a, some b, some o =>
    changeOutput view clip 0 o (.ofBool (decide (readDn view clip a = readDn view clip b)))
  | _, _, _ => ⟨clip, [], none⟩

def updateIsUnknown (clip : Clip) : Outcome :=
  match m.pin 0, m.pin 1 with
  | some i, some o => changeOutput view clip 0 o (.ofBool (readDn view clip i).isUnknown)
  | _, _ => ⟨clip, [], none⟩

def updateResolve2 (clip : Clip) : Outcome :=
  match m.pin 0, m.pin 1, m.pin 2 with
  | some a, some b, some o => nodeOutput view clip o (resolve2 (readDn view clip a) (readDn view clip b))
  | _, _, _ => ⟨clip, [], none⟩

/-- `SCHMITT_TRIGGER`; `schmittOut` is its `last_out`, `last 0` its `last_driven`. -/
def updateSchmittTrigger (clip : Clip) : Outcome :=
  match m.pin 0, m.pin 1 with
  | some i, some o =>
    let v := (view i).voltage
    let out :=
      if (view i).analog then
        match clip.schmittOut with
        | .L => if v ≥ clip.vthHigh then .H else .L
        | .H => if v ≤ clip.vthLow then .L else .H
        | s => if v ≥ clip.vthHigh then .H else if v ≤ clip.vthLow then .L else s
      else (view i).state.normalizeZToX
    let driven := if clip.inverted then
        match out with
        | .L => .H
        | .H => .L
        | s => s
      else out
    changeOutput view { clip with schmittOut := out } 0 o driven
  | _, _ => ⟨clip, [], none⟩

def blockValues (count : Nat) (f : List LogicT → List LogicT) (ins : List LogicT) : List LogicT :=
  if .X ∈ ins then List.replicate count .X else f ins

/-- A block with `arity` input pins and `count` output pins after them. -/
def block (arity count : Nat) (f : List LogicT → List LogicT) (m : Model) (clip : Clip) : Outcome :=
  match m.pinNodes 0 arity, m.pinNodes arity count with
  | some ins, some outs =>
    blockOutput view clip (outs.zip (blockValues count f (ins.map (readDnLogic view clip))))
  | _, _ => ⟨clip, [], none⟩

def halfAdderFn : List LogicT → List LogicT
  | [a, b] => [a.logicXor b, a.logicAnd b]
  | _ => []

def fullAdderFn : List LogicT → List LogicT
  | [a, b, ci] => [(a.logicXor b).logicXor ci,
      ((a.logicAnd b).logicOr (a.logicAnd ci)).logicOr (b.logicAnd ci)]
  | _ => []

def halfSubFn : List LogicT → List LogicT
  | [a, b] => [a.logicXor b, a.logicNot.logicAnd b]
  | _ => []

def fullSubFn : List LogicT → List LogicT
  | [a, b, bi] => [(a.logicXor b).logicXor bi,
      ((a.logicNot.logicAnd b).logicOr (a.logicNot.logicAnd bi)).logicOr (b.logicAnd bi)]
  | _ => []

/-- The partial products of `MUL2`; the pins are `a0`, `a1`, `b0`, `b1`. -/
def mul2Fn : List LogicT → List LogicT
  | [a0, a1, b0, b1] =>
    let t1 := a0.logicAnd b1
    let t2 := a1.logicAnd b0
    let c1 := t1.logicAnd t2
    let p2 := a1.logicAnd b1
    [a0.logicAnd b0, t1.logicXor t2, p2.logicXor c1, p2.logicAnd c1]
  | _ => []

/-- `MUL2` returns at its first analog output, so that later outputs are not written. -/
def updateMul2 (clip : Clip) : Outcome :=
  match m.pinNodes 0 4, m.pinNodes 4 4 with
  | some ins, some outs =>
    let outs := outs.zip (blockValues 4 mul2Fn (ins.map (readDnLogic view clip)))
    let before := outs.takeWhile fun ov => !(view ov.1).analog
    ⟨cachedClip view clip before, cachedStores view clip before,
      (outs.find? fun ov => (view ov.1).analog).map fun ov => levelDrive clip ov.2 ov.1⟩
  | _, _ => ⟨clip, [], none⟩

def Clip.seeClk (clip : Clip) (clk : LogicT) : Clip :=
  if clk = .L ∨ clk = .H then { clip with lastClk := clk } else clip

def Clip.risingEdge (clip : Clip) (clk : LogicT) : Bool := clip.lastClk = .L && clk = .H

/-- `static_cast<bool>` and back, negated. -/
def toggled (q : LogicT) : LogicT := if q = .L then .H else .L

def updateDff (clip : Clip) : Outcome :=
  match m.pin 0, m.pin 1, m.pin 2 with
  | some nd, some nclk, some nq =>
    let d := readDnLogic view clip nd
    let clk := readDnLogic view clip nclk
    let clip := { clip with q := if clip.risingEdge clk then d else clip.q }.seeClk clk
    nodeOutput view clip nq clip.q
  | _, _, _ => ⟨clip, [], none⟩

def updateDffArstn (clip : Clip) : Outcome :=
  match m.pin 0, m.pin 1, m.pin 2, m.pin 3 with
  | some nd, some nclk, some narst, some nq =>
    let d := readDnLogic view clip nd
    let clk := readDnLogic view clip nclk
    let q := match readDnLogic view clip narst with
      | .L => clip.resetValue
      | .H => if clip.risingEdge clk then d else clip.q
      | _ => .X
    let clip := { clip with q := q }.seeClk clk
    nodeOutput view clip nq clip.q
  | _, _, _, _ => ⟨clip, [], none⟩

def updateDlatch (clip : Clip) : Outcome :=
  match m.pin 0, m.pin 1, m.pin 2 with
  | some nd, some nen, some nq =>
    let clip := { clip with q := match readDnLogic view clip nen with
      | .H => readDnLogic view clip nd
      | .L => clip.q
      | _ => .X }
    nodeOutput view clip nq clip.q
  | _, _, _ => ⟨clip, [], none⟩

/-- `TFF` and `T_BAR_FF`, which toggle at a rising edge when the input is `active`. -/
def toggleFf (active : LogicT) (m : Model) (clip : Clip) : Outcome :=
  match m.pin 0, m.pin 1, m.pin 2 with
  | some nt, some nclk, some nq =>
    let t := readDnLogic view clip nt
    let clk := readDnLogic view clip nclk
    let q := if clip.risingEdge clk then
        if t = active then toggled clip.q else if t = .X then .X else clip.q
      else clip.q
    let clip := { clip with q := q }.seeClk clk
    nodeOutput view clip nq clip.q
  | _, _, _ => ⟨clip, [], none⟩

def updateJkff (clip : Clip) : Outcome :=
  match m.pin 0, m.pin 1, m.pin 2, m.pin 3 with
  | some nj, some nk, some nclk, some nq =>
    let j := readDnLogic view clip nj
    let k := readDnLogic view clip nk
    let clk := readDnLogic view clip nclk
    let q := if clip.risingEdge clk then
        if j = .H ∧ k = .L then .H
        else if j = .L ∧ k = .H then .L
        else if j = .H ∧ k = .H then toggled clip.q
        else if j = .X ∨ k = .X then .X
        else clip.q
      else clip.q
    let clip := { clip with q := q }.seeClk clk
    nodeOutput view clip nq clip.q
  | _, _, _, _ => ⟨clip, [], none⟩

/-- The outputs of `COUNTER4` and `RANDOM_GENERATOR4`, bit 3 first. The nodes are compared
with the value whether or not it changed. -/
def bitOutputs (clip : Clip) : Outcome :=
  let outs := (List.range 4).filterMap fun pin => (m.pin pin).map fun n =>
    (n, if clip.unknown then LogicT.X
      else .ofBool (decide ((clip.value >>> UInt8.ofNat (3 - pin)) &&& 1 ≠ 0)))
  { clip := { clip with lastValue := clip.value, lastUnknown := clip.unknown }
    stores := (outs.filter fun ov => !(view ov.1).analog).map fun ov => .update ov.1 ov.2
    drive := (outs.find? fun ov => (view ov.1).analog).map fun ov => levelDrive clip ov.2 ov.1 }

/-- An enable or reset pin that counts as high when it is unconnected or at `Z`. -/
def readOrHigh (clip : Clip) (n : Option NodeId) : LogicT :=
  match n with
  | none => .H
  | some n => if readDn view clip n = .Z then .H else readDn view clip n

def updateCounter4 (clip : Clip) : Outcome :=
  match m.pin 4 with
  | none => ⟨clip, [], none⟩
  | some nclk =>
    let clk := readDnLogic view clip nclk
    let stepped := if clip.risingEdge clk then
        match readOrHigh view clip (m.pin 5) with
        | .H => if clip.unknown then clip else { clip with value := (clip.value + 1) &&& 0x0F }
        | .L => clip
        | _ => { clip with unknown := true }
      else clip
    bitOutputs view m (stepped.seeClk clk)

def updateRandomGenerator4 (clip : Clip) : Outcome :=
  match m.pin 4 with
  | none => ⟨clip, [], none⟩
  | some nclk =>
    let clk := readDnLogic view clip nclk
    let stepped := match readOrHigh view clip (m.pin 5) with
      | .L => { clip with value := 0, unknown := false }
      | .H =>
        if clip.risingEdge clk && !clip.unknown then
          let b3 := decide ((clip.value >>> 3) &&& 1 ≠ 0)
          let b2 := decide ((clip.value >>> 2) &&& 1 ≠ 0)
          let feedback := xor (xor b3 b2) true
          { clip with value := ((clip.value <<< 1) &&& 0x0E) ||| (if feedback then 1 else 0) }
        else clip
      | _ => { clip with unknown := true }
    bitOutputs view m (stepped.seeClk clk)

/-- The output part of `TICK_DELAY`: as for a gate, but only `L` and `H` drive. -/
def delayOutput (clip : Clip) (o : NodeId) (out : LogicT) : Outcome :=
  if (view o).analog then
    ⟨clip, [], if out = .L ∨ out = .H then some (levelDrive clip out o) else none⟩
  else ⟨clip.setLast 0 out, [.write o out (decide (clip.last 0 ≠ out))], none⟩

variable (method : DigitalUpdateMethod)

/-- `TICK_DELAY`: only the call before the settle loop advances the line. -/
def updateTickDelay (m : Model) (clip : Clip) : Outcome :=
  match method, m.pin 1 with
  | .beforeAllClk, some o =>
    let input := match m.pin 0 with
      | some i => readDn view clip i
      | none => .X
    if clip.ticks = 0 then delayOutput view clip o input
    else
      let clip := if clip.pipe.length ≠ clip.ticks then
          { clip.setLast 0 .X with pipe := List.replicate clip.ticks input }
        else clip
      let out := clip.pipe.getLastD .X
      delayOutput view { clip with pipe := (input :: clip.pipe).dropLast } o out
  | _, _ => ⟨clip, [], none⟩

def updateEightBitInput (clip : Clip) : Outcome :=
  let changed := decide (clip.lastValue ≠ clip.value)
  let outs := (List.range 8).filterMap fun pin => (m.pin pin).map fun n =>
    (n, LogicT.ofBool (decide ((clip.value >>> UInt8.ofNat (7 - pin)) &&& 1 ≠ 0)))
  { clip := { clip with lastValue := clip.value }
    stores := if changed then
        (outs.filter fun ov => !(view ov.1).analog).map fun ov => .update ov.1 ov.2
      else []
    drive := (outs.find? fun ov => (view ov.1).analog).map fun ov => levelDrive clip ov.2 ov.1 }

def updateEightBitDisplay (clip : Clip) : Outcome :=
  let bits := (List.range 8).map fun pin =>
    (UInt8.ofNat (7 - pin), (m.pin pin).elim LogicT.X (readDnLogic view clip))
  { clip := { clip with
      value := bits.foldl (fun v b => if b.2 = .H then v ||| ((1 : UInt8) <<< b.1) else v) 0
      unknownMask := bits.foldl (fun v b => if b.2 = .X then v ||| ((1 : UInt8) <<< b.1) else v) 0 } }

/-- The ports of a Verilog module from `k` on, with the nodes their pins are on and the
values of their signals. -/
def drivenPorts (t : Verilog.InstanceState) : List (Nat × NodeId × LogicT) :=
  (t.value.mod.ports.zipIdx.filter fun pk => pk.1.dir = .output ∨ pk.1.dir = .inout).filterMap
    fun pk => match m.pin pk.2, t.value.state.values[pk.1.signal]? with
      | some n, some v => some (pk.2, n, v)
      | _, _ => none

/-- `VERILOG_MODULE`: sampling the inputs, `simulate`, writing the outputs, and one analog
drive in turn. -/
def updateVerilogModule (m : Model) (clip : Clip) : Outcome :=
  match clip.topInstance with
  | none => ⟨clip, [], none⟩
  | some t =>
    let before := decide (method = .beforeAllClk)
    let tick := if before then clip.tick + 1 else clip.tick
    let pins := m.pins.map fun p => p.map (readDn view clip)
    let t := Verilog.simulate tick before (Verilog.sampleInputs pins t)
    let outs := drivenPorts m t
    let nports := t.value.mod.ports.length
    let analog := outs.filter fun o => (view o.2.1).analog && decide (o.2.2 ≠ .Z)
    let chosen := (analog.find? fun o => clip.analogEmitCursor ≤ o.1).or analog.head?
    { clip := { clip with
        topInstance := some t
        tick := tick
        analogEmitCursor := chosen.elim clip.analogEmitCursor fun o => (o.1 + 1) % nports }
      stores := (outs.filter fun o => !(view o.2.1).analog).map fun o => .update o.2.1 o.2.2
      drive := chosen.map fun o => levelDrive clip o.2.2 o.2.1 }

/-- `update_digital_clk` of a model. `VERILOG_PORTS` does nothing, and the engine does not
call models that are not digital. -/
def updateDigitalClk (m : Model) (clip : Clip) : Outcome :=
  match m.kind with
  | .input => updateInput view m clip
  | .output => updateOutput view trDuration m clip
  | .yes => gate1 view trDuration (fun a => a) m clip
  | .not => gate1 view trDuration LogicT.logicNot m clip
  | .and => gate2 view trDuration LogicT.logicAnd m clip
  | .or => gate2 view trDuration LogicT.logicOr m clip
  | .xor => gate2 view trDuration LogicT.logicXor m clip
  | .xnor => gate2 view trDuration (fun a b => (a.logicXor b).logicNot) m clip
  | .nand => gate2 view trDuration (fun a b => (a.logicAnd b).logicNot) m clip
  | .nor => gate2 view trDuration (fun a b => (a.logicOr b).logicNot) m clip
  | .imp => gate2 view trDuration (fun a b => a.logicNot.logicOr b) m clip
  | .nimp => gate2 view trDuration (fun a b => a.logicAnd b.logicNot) m clip
  | .caseEq => updateCaseEq view m clip
  | .isUnknown => updateIsUnknown view m clip
  | .tri => updateTri view m clip
  | .resolve2 => updateResolve2 view m clip
  | .schmittTrigger => updateSchmittTrigger view m clip
  | .tickDelay => updateTickDelay view method m clip
  | .eightBitInput => updateEightBitInput view m clip
  | .eightBitDisplay => updateEightBitDisplay view m clip
  | .halfAdder => block view 2 2 halfAdderFn m clip
  | .fullAdder => block view 3 2 fullAdderFn m clip
  | .halfSub => block view 2 2 halfSubFn m clip
  | .fullSub => block view 3 2 fullSubFn m clip
  | .mul2 => updateMul2 view m clip
  | .dff => updateDff view m clip
  | .dffArstn => updateDffArstn view m clip
  | .dlatch => updateDlatch view m clip
  | .tff => toggleFf view .H m clip
  | .tBarFf => toggleFf view .L m clip
  | .jkff => updateJkff view m clip
  | .counter4 => updateCounter4 view m clip
  | .randomGenerator4 => updateRandomGenerator4 view m clip
  | .verilogModule => updateVerilogModule view method m clip
  | .verilogPorts | .linear _ | .nonLinear _ => ⟨clip, [], none⟩

end

/-- `prepare_tr_define` of the gates: the inputs start over, the cached output stays. -/
def Clip.prepareTr (clip : Clip) : Clip :=
  { clip with inputA := ⟨.X, .L, 0.0⟩, inputB := ⟨.X, .L, 0.0⟩ }

def ModelKind.hasPrepareTr : ModelKind → Bool
  | .yes | .not | .and | .or | .xor | .xnor | .nand | .nor | .imp | .nimp => true
  | _ => false

def ModelKind.digitalUpdateMethod : ModelKind → DigitalUpdateMethod
  | .input | .tickDelay | .eightBitInput | .verilogModule => .beforeAllClk
  | _ => .updateTable

end PhyEngine
