import PhyEngine.PhyLab.Experiment

/-!
# From experiments to circuits

`circuit::build_` of `phy_lab_wrapper/pe_sim.h`: the elements and wires that it hands to
`create_circuit`. Most elements stand for one component; a generator whose reset is free
and a flip-flop whose inverted output is used get a second one.
-/

namespace PhyEngine.PhyLab

/-- The element codes of `dll_api.h` that occur; `ground` is code 0. -/
inductive PeCode where
  | ground
  | resistor | capacitor | inductor | vdc | switchSpst | transformer | coupledInductors | fullBridgeRectifier
  | digitalInput | digitalOutput | digitalOr | digitalYes | digitalAnd | digitalNot | digitalXor | digitalXnor
  | digitalNand | digitalNor | digitalImp | digitalNimp
  | digitalHalfAdder | digitalFullAdder | digitalHalfSubtractor | digitalFullSubtractor | digitalMul2
  | digitalDff | digitalTff | digitalTBarFf | digitalJkff | digitalCounter4 | digitalRandomGenerator4
  deriving DecidableEq

def PeCode.kind : PeCode → Option ModelKind
  | .digitalInput => some .input
  | .digitalOutput => some .output
  | .digitalOr => some .or
  | .digitalYes => some .yes
  | .digitalAnd => some .and
  | .digitalNot => some .not
  | .digitalXor => some .xor
  | .digitalXnor => some .xnor
  | .digitalNand => some .nand
  | .digitalNor => some .nor
  | .digitalImp => some .imp
  | .digitalNimp => some .nimp
  | .digitalHalfAdder => some .halfAdder
  | .digitalFullAdder => some .fullAdder
  | .digitalHalfSubtractor => some .halfSub
  | .digitalFullSubtractor => some .fullSub
  | .digitalMul2 => some .mul2
  | .digitalDff => some .dff
  | .digitalTff => some .tff
  | .digitalTBarFf => some .tBarFf
  | .digitalJkff => some .jkff
  | .digitalCounter4 => some .counter4
  | .digitalRandomGenerator4 => some .randomGenerator4
  | _ => none

/-- A property: a number, or a quotient of two. -/
inductive PropValue where
  | num (bits : UInt64)
  | quot (a b : UInt64)
  deriving DecidableEq

/-- `code_and_props`: a component that is listed for `create_circuit`. -/
structure Component where
  code : PeCode
  props : List PropValue
  deriving DecidableEq

def PeCode.number : PeCode → Nat
  | .ground => 0
  | .resistor => 1
  | .capacitor => 2
  | .inductor => 3
  | .vdc => 4
  | .switchSpst => 12
  | .transformer => 14
  | .coupledInductors => 15
  | .fullBridgeRectifier => 54
  | .digitalInput => 200
  | .digitalOutput => 201
  | .digitalOr => 202
  | .digitalYes => 203
  | .digitalAnd => 204
  | .digitalNot => 205
  | .digitalXor => 206
  | .digitalXnor => 207
  | .digitalNand => 208
  | .digitalNor => 209
  | .digitalImp => 211
  | .digitalNimp => 212
  | .digitalHalfAdder => 220
  | .digitalFullAdder => 221
  | .digitalHalfSubtractor => 222
  | .digitalFullSubtractor => 223
  | .digitalMul2 => 224
  | .digitalDff => 225
  | .digitalTff => 226
  | .digitalTBarFf => 227
  | .digitalJkff => 228
  | .digitalCounter4 => 229
  | .digitalRandomGenerator4 => 230

def PeCode.propArity : PeCode → Nat
  | .resistor | .capacitor | .inductor | .vdc | .switchSpst | .transformer => 1
  | .coupledInductors => 3
  | .digitalInput | .digitalCounter4 | .digitalRandomGenerator4 => 1
  | _ => 0

def getRequiredFloat (e : Element) (key : String) : Except Status UInt64 :=
  match e.properties.lookup key with
  | none => .error ⟨.invalidArgument, "element missing property: " ++ key⟩
  | some v => .ok v

def isZero (v : UInt64) : Bool := v = 0 || v = 0x8000000000000000

def getRequiredInt01 (e : Element) (key : String) : Except Status UInt64 := do
  let v ← getRequiredFloat e key
  pure (if isZero v then dZero else dOne)

def toPhyEngineCodeAndProps (e : Element) : Except Status Component :=
  let one (code : PeCode) (key : String) : Except Status Component := do
    let v ← getRequiredFloat e key
    pure ⟨code, [.num v]⟩
  let switch (code : PeCode) : Except Status Component := do
    let v ← getRequiredInt01 e "开关"
    pure ⟨code, [.num v]⟩
  match e.modelId with
  | "" => .error ⟨.invalidArgument, "element missing ModelID"⟩
  | "Ground Component" => .ok ⟨.ground, []⟩
  | "Resistor" => one .resistor "电阻"
  | "Basic Capacitor" => one .capacitor "电容"
  | "Basic Inductor" => one .inductor "电感"
  | "Battery Source" => one .vdc "电压"
  | "Simple Switch" | "Push Switch" | "Air Switch" => switch .switchSpst
  | "Transformer" => do
    let vp ← getRequiredFloat e "输入电压"
    let vs ← getRequiredFloat e "输出电压"
    if isZero vs then .error ⟨.invalidArgument, "Transformer 输出电压 must be non-zero"⟩
    else pure ⟨.transformer, [.quot vp vs]⟩
  | "Mutual Inductor" => do
    let l1 ← getRequiredFloat e "电感1"
    let l2 ← getRequiredFloat e "电感2"
    let k ← getRequiredFloat e "耦合系数"
    pure ⟨.coupledInductors, [.num l1, .num l2, .num k]⟩
  | "Rectifier" => .ok ⟨.fullBridgeRectifier, []⟩
  | "Logic Input" => switch .digitalInput
  | "Logic Output" => .ok ⟨.digitalOutput, []⟩
  | "Or Gate" => .ok ⟨.digitalOr, []⟩
  | "Yes Gate" => .ok ⟨.digitalYes, []⟩
  | "And Gate" => .ok ⟨.digitalAnd, []⟩
  | "No Gate" => .ok ⟨.digitalNot, []⟩
  | "Xor Gate" => .ok ⟨.digitalXor, []⟩
  | "Xnor Gate" => .ok ⟨.digitalXnor, []⟩
  | "Nand Gate" => .ok ⟨.digitalNand, []⟩
  | "Nor Gate" => .ok ⟨.digitalNor, []⟩
  | "Imp Gate" => .ok ⟨.digitalImp, []⟩
  | "Nimp Gate" => .ok ⟨.digitalNimp, []⟩
  | "Half Adder" => .ok ⟨.digitalHalfAdder, []⟩
  | "Full Adder" => .ok ⟨.digitalFullAdder, []⟩
  | "Half Subtractor" => .ok ⟨.digitalHalfSubtractor, []⟩
  | "Full Subtractor" => .ok ⟨.digitalFullSubtractor, []⟩
  | "Multiplier" => .ok ⟨.digitalMul2, []⟩
  | "D Flipflop" => .ok ⟨.digitalDff, []⟩
  | "T Flipflop" => .ok ⟨.digitalTff, []⟩
  | "Real-T Flipflop" => .ok ⟨.digitalTBarFf, []⟩
  | "JK Flipflop" => .ok ⟨.digitalJkff, []⟩
  | "Counter" | "Random Generator" | "8bit Input" | "8bit Display" =>
    .error ⟨.invalidArgument, "internal: high-level module should be expanded by adapter: " ++ e.modelId⟩
  | _ => .error ⟨.invalidArgument, "Phy-Engine backend does not support element ModelID=" ++ e.modelId⟩

structure PePin where
  elementIndex : Nat
  pin : Nat
  deriving DecidableEq, Inhabited

/-- The lists that are built up. `pinMap` has the pins of each element by its identifier. -/
structure BuildState where
  components : List Component := []
  pinMap : List (Identifier × List (Nat × PePin)) := []
  internalWires : List (PePin × PePin) := []
  deriving DecidableEq

namespace BuildState

def addPeElement (st : BuildState) (code : PeCode) (props : List PropValue) : Except Status BuildState :=
  if code ≠ .ground ∧ props.length ≠ code.propArity then
    .error ⟨.invalidArgument, "element has wrong property count for PE code=" ++ toString code.number⟩
  else .ok { st with components := st.components ++ [⟨code, props⟩] }

def mapPins (st : BuildState) (id : Identifier) (pins : List (Nat × PePin)) : BuildState :=
  { st with pinMap := st.pinMap ++ [(id, pins)] }

def addWire (st : BuildState) (a b : PePin) : BuildState := { st with internalWires := st.internalWires ++ [(a, b)] }

end BuildState

def usedPins (wires : List Wire) (id : Identifier) : List Nat :=
  wires.flatMap fun w =>
    ((if w.source.elementIdentifier = id then [w.source.pin] else []) ++
      if w.target.elementIdentifier = id then [w.target.pin] else [])

/-- The pin table of a component: which pin of the element is which of its own. -/
def pinTable (idx : Nat) (table : List (Nat × Nat)) : List (Nat × PePin) := table.map fun p => (p.1, ⟨idx, p.2⟩)

def addWithTable (st : BuildState) (id : Identifier) (code : PeCode) (props : List PropValue)
    (table : List (Nat × Nat)) :
    Except Status BuildState := do
  let idx := st.components.length
  let st ← st.addPeElement code props
  pure (st.mapPins id (pinTable idx table))

def expandElement (wires : List Wire) (st : BuildState) (e : Element) : Except Status BuildState :=
  let idx := st.components.length
  let id := e.identifier
  if e.modelId = "Counter" then
    addWithTable st id .digitalCounter4 [.num dZero] [(0, 0), (1, 1), (2, 2), (3, 3), (4, 4), (5, 5)]
  else if e.modelId = "Random Generator" then do
    let st ← addWithTable st id .digitalRandomGenerator4 [.num dOne] [(0, 0), (1, 1), (2, 2), (3, 3), (4, 4), (5, 5)]
    -- A reset that is not connected is held at 1.
    if 5 ∈ usedPins wires id then pure st
    else do
      let const1 := st.components.length
      let st ← st.addPeElement .digitalInput [.num dOne]
      pure (st.addWire ⟨const1, 0⟩ ⟨idx, 5⟩)
  else if e.modelId = "D Flipflop" then do
    let table := pinTable idx [(2, 0), (3, 1), (0, 2)]
    let st ← st.addPeElement .digitalDff []
    if 1 ∈ usedPins wires id then do
      let inv := st.components.length
      let st ← st.addPeElement .digitalNot []
      pure ((st.addWire ⟨idx, 2⟩ ⟨inv, 0⟩).mapPins id (table ++ [(1, ⟨inv, 1⟩)]))
    else pure (st.mapPins id table)
  else if e.modelId = "Half Adder" then addWithTable st id .digitalHalfAdder [] [(3, 0), (2, 1), (0, 2), (1, 3)]
  else if e.modelId = "Full Adder" then addWithTable st id .digitalFullAdder [] [(4, 0), (2, 1), (3, 2), (0, 3), (1, 4)]
  else if e.modelId = "Half Subtractor" then
    addWithTable st id .digitalHalfSubtractor [] [(3, 0), (2, 1), (0, 2), (1, 3)]
  else if e.modelId = "Full Subtractor" then
    addWithTable st id .digitalFullSubtractor [] [(4, 0), (2, 1), (3, 2), (0, 3), (1, 4)]
  else do
    -- All other elements have the pins of their component, in its order.
    let cp ← toPhyEngineCodeAndProps e
    addWithTable st id cp.code cp.props ((usedPins wires id).map fun p => (p, p))

/-- A wire between the pins that its ends stand for; `none` for a wire of an element that is not
there. -/
def translateWire (pinMap : List (Identifier × List (Nat × PePin))) (w : Wire) :
    Except Status (Option (PePin × PePin)) :=
  match pinMap.lookup w.source.elementIdentifier, pinMap.lookup w.target.elementIdentifier with
  | some s, some t =>
    match s.lookup w.source.pin, t.lookup w.target.pin with
    | some a, some b => .ok (some (a, b))
    | _, _ => .error ⟨.invalidArgument, "wire references unmapped pin"⟩
  | _, _ => .ok none

structure Circuit where
  components : List Component
  wires : List (PePin × PePin)
  deriving DecidableEq

def build (ex : Experiment) : Except Status Circuit :=
  if ex.elements = [] then .error ⟨.invalidArgument, "experiment has no elements"⟩
  else do
    let st ← ex.elements.foldlM (expandElement ex.wires) {}
    let wires ← ex.wires.mapM (translateWire st.pinMap)
    pure ⟨st.components, wires.reduceOption ++ st.internalWires⟩

end PhyEngine.PhyLab
