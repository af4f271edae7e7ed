import PhyEngine.PhyLab.Experiment

/-!
# From netlists to experiments

`phy_lab_wrapper/pe_to_pl.h`. Each digital model becomes an element, and each node with
two or more pins becomes a star of wires between the pins of these elements. The export
of analog models (`include_linear`) is left out.
-/

namespace PhyEngine.PhyLab

def modelName : ModelKind → String
  | .input => "INPUT"
  | .output => "OUTPUT"
  | .yes => "YES"
  | .not => "NOT"
  | .and => "AND"
  | .or => "OR"
  | .xor => "XOR"
  | .xnor => "XNOR"
  | .nand => "NAND"
  | .nor => "NOR"
  | .imp => "IMP"
  | .nimp => "NIMP"
  | .caseEq => "CASE_EQ"
  | .isUnknown => "IS_UNKNOWN"
  | .tri => "TRI"
  | .resolve2 => "RESOLVE2"
  | .schmittTrigger => "SCHMITT_TRIGGER"
  | .tickDelay => "TICK_DELAY"
  | .eightBitInput => "EIGHT_BIT_INPUT"
  | .eightBitDisplay => "EIGHT_BIT_DISPLAY"
  | .halfAdder => "HALF_ADDER"
  | .fullAdder => "FULL_ADDER"
  | .halfSub => "HALF_SUB"
  | .fullSub => "FULL_SUB"
  | .mul2 => "MUL2"
  | .dff => "DFF"
  | .dffArstn => "DFF_ARSTN"
  | .dlatch => "DLATCH"
  | .tff => "TFF"
  | .tBarFf => "T_BAR_FF"
  | .jkff => "JKFF"
  | .counter4 => "COUNTER4"
  | .randomGenerator4 => "RANDOM_GENERATOR4"
  | .verilogModule => "VERILOG_MODULE"
  | .verilogPorts => "VERILOG_PORTS"
  | .linear _ | .nonLinear _ => ""

structure Options where
  keepPlMacros : Bool := true
  includeGround : Bool := false
  generateWires : Bool := true
  keepUnknownAsPlaceholders : Bool := false
  dropDanglingLogicInputs : Bool := false
  deriving DecidableEq

/-- `pl_model_mapping`. Pins without an entry are not exported. -/
structure PlModelMapping where
  modelId : String := ""
  isBigElement : Bool := false
  peToPlPin : List (Nat × Nat) := []
  deriving DecidableEq

def identityMapping (modelId : String) (pinCount : Nat) (big : Bool) : PlModelMapping :=
  ⟨modelId, big, (List.range pinCount).map fun i => (i, i)⟩

/-- `map_pe_model_to_pl_ec`: the mapping of a digital model, and a warning where it loses
something. -/
def mapPeModelToPl (opt : Options) (kind : ModelKind) : Except Status (PlModelMapping × List String) :=
  let unknown : Except Status (PlModelMapping × List String) :=
    if opt.keepUnknownAsPlaceholders then
      .ok (identityMapping "Yes Gate" 2 false,
        ["pe_to_pl: unknown PE digital model '" ++ modelName kind ++ "' -> placeholder Yes Gate"])
    else .ok ({}, [])
  match kind with
  | .input => .ok (identityMapping "Logic Input" 1 false, [])
  | .output => .ok (identityMapping "Logic Output" 1 false, [])
  | .yes => .ok (identityMapping "Yes Gate" 2 false, [])
  | .not => .ok (identityMapping "No Gate" 2 false, [])
  | .and => .ok (identityMapping "And Gate" 3 false, [])
  | .or => .ok (identityMapping "Or Gate" 3 false, [])
  | .xor => .ok (identityMapping "Xor Gate" 3 false, [])
  | .xnor => .ok (identityMapping "Xnor Gate" 3 false, [])
  | .nand => .ok (identityMapping "Nand Gate" 3 false, [])
  | .nor => .ok (identityMapping "Nor Gate" 3 false, [])
  | .imp => .ok (identityMapping "Imp Gate" 3 false, [])
  | .nimp => .ok (identityMapping "Nimp Gate" 3 false, [])
  | .halfAdder => .ok (⟨"Half Adder", true, [(0, 3), (1, 2), (2, 0), (3, 1)]⟩, [])
  | .fullAdder => .ok (⟨"Full Adder", true, [(0, 4), (1, 2), (2, 3), (3, 0), (4, 1)]⟩, [])
  | .halfSub => .ok (⟨"Half Subtractor", true, [(0, 3), (1, 2), (2, 0), (3, 1)]⟩, [])
  | .fullSub => .ok (⟨"Full Subtractor", true, [(0, 4), (1, 2), (2, 3), (3, 0), (4, 1)]⟩, [])
  | .mul2 =>
    .ok (⟨"Multiplier", true, [(0, 7), (1, 6), (2, 5), (3, 4), (4, 3), (5, 2), (6, 1), (7, 0)]⟩, [])
  | .dff => .ok (⟨"D Flipflop", true, [(0, 2), (1, 3), (2, 0)]⟩, [])
  | .tff => .ok (identityMapping "T Flipflop" 3 false, [])
  | .tBarFf => .ok (identityMapping "Real-T Flipflop" 3 false, [])
  | .jkff => .ok (identityMapping "JK Flipflop" 4 false, [])
  | .counter4 => if opt.keepPlMacros then .ok (identityMapping "Counter" 6 true, []) else unknown
  | .randomGenerator4 => if opt.keepPlMacros then .ok (identityMapping "Random Generator" 6 true, []) else unknown
  | .eightBitInput => .ok (identityMapping "8bit Input" 8 true, [])
  | .eightBitDisplay => .ok (identityMapping "8bit Display" 8 true, [])
  | .schmittTrigger => .ok (identityMapping "Schmitt Trigger" 2 false, [])
  | .resolve2 =>
    .ok (identityMapping "Or Gate" 3 false,
      ["pe_to_pl: degrading RESOLVE2 -> Or Gate (drops Z/X resolution semantics)"])
  | .caseEq =>
    .ok (identityMapping "Xnor Gate" 3 false,
      ["pe_to_pl: degrading CASE_EQ -> Xnor Gate (drops X/Z-aware === semantics)"])
  | .isUnknown =>
    .ok (identityMapping "Yes Gate" 2 false,
      ["pe_to_pl: degrading IS_UNKNOWN -> Yes Gate (drops X/Z detection semantics)"])
  | .tri =>
    .ok (⟨"Yes Gate", false, [(0, 0), (2, 1)]⟩, ["pe_to_pl: degrading TRI -> Yes Gate (drops enable/Z semantics)"])
  | .dlatch =>
    .ok (⟨"D Flipflop", true, [(0, 2), (1, 3), (2, 0)]⟩,
      ["pe_to_pl: degrading DLATCH -> D Flipflop (treats en as clk)"])
  | .dffArstn =>
    .ok (⟨"D Flipflop", true, [(0, 2), (1, 3), (3, 0)]⟩,
      ["pe_to_pl: degrading DFF_ARSTN -> D Flipflop (drops async reset pin)"])
  | .tickDelay =>
    .ok (identityMapping "Yes Gate" 2 false,
      ["pe_to_pl: degrading TICK_DELAY -> Yes Gate (drops #delay/tick semantics)"])
  | .verilogModule | .verilogPorts =>
    .error ⟨.operationNotSupported, "pe_to_pl: unsupported conversion (excluded model): " ++ modelName kind⟩
  | .linear _ | .nonLinear _ => unknown

def setPlProperties (m : Model) (e : Element) : Element :=
  let e := if m.name = "" then e else { e with label := some m.name }
  if m.kind = .input then
    match m.getAttribute 0 with
    | .digital v => e.setProperty "开关" (if v = .H then dOne else dZero)
    | _ => e
  else e

def propertyWarnings (m : Model) : List String :=
  if m.kind = .input then
    match m.getAttribute 0 with
    | .digital .X | .digital .Z => ["pe_to_pl: Logic Input initial state is X/Z; defaulting to 0"]
    | _ => []
  else []

/-- What the program gets from outside: the texts that `rand_string` draws, one after the other,
and the order in which a hash map lists its keys. -/
structure Host where
  randString : Nat → Identifier
  order : List NodeId → List NodeId
  order_perm : ∀ ns, (order ns).Perm ns

structure MappedElement where
  model : Model
  elementId : Identifier
  peToPlPin : List (Nat × Nat)
  deriving DecidableEq

structure ExportState where
  ex : Experiment := {}
  mapped : List MappedElement := []
  warnings : List String := []
  deriving DecidableEq

def dangling (nl : Netlist) (m : Model) : Bool :=
  match m.pins with
  | [] => false
  | none :: _ => true
  | some n :: _ =>
    match nl.node? n with
    | none => false
    | some nd => nd.pins.card ≤ 1

def exportModel (host : Host) (opt : Options) (nl : Netlist) (st : ExportState) (m : Model) :
    Except Status ExportState :=
  if m.kind.deviceType ≠ .digital then .ok st
  else do
    let (mapping, warnings) ← mapPeModelToPl opt m.kind
    if mapping.modelId = "" then
      .error ⟨.operationNotSupported, "pe_to_pl: unsupported conversion for PE digital model: " ++ modelName m.kind⟩
    else if opt.dropDanglingLogicInputs = true ∧ mapping.modelId = "Logic Input" ∧ dangling nl m = true then
      .ok { st with warnings := st.warnings ++ warnings }
    else
      let id := host.randString st.ex.elements.length
      let ex ← st.ex.addCircuitElement id mapping.modelId mapping.isBigElement
      .ok ⟨ex.modifyElement id (setPlProperties m), st.mapped ++ [⟨m, id, mapping.peToPlPin⟩],
        st.warnings ++ warnings ++ propertyWarnings m⟩

def MappedElement.endpoints (e : MappedElement) : List (NodeId × PlEndpoint) :=
  e.model.pins.zipIdx.filterMap fun p => do
    let n ← p.1
    let pin ← e.peToPlPin.lookup p.2
    pure (n, ⟨e.elementId, pin⟩)

def endpointLe (a b : PlEndpoint) : Bool :=
  decide (a.elementIdentifier < b.elementIdentifier) ||
    (decide (a.elementIdentifier = b.elementIdentifier) && decide (a.pin ≤ b.pin))

def netEndpoints (eps : List (NodeId × PlEndpoint)) (n : NodeId) : List PlEndpoint :=
  (((eps.filter fun p => p.1 = n).map Prod.snd).insertionSort fun a b => endpointLe a b).dedup

structure Net where
  peNode : NodeId
  endpoints : List PlEndpoint
  deriving DecidableEq

def exportNet (opt : Options) (eps : List (NodeId × PlEndpoint)) (st : Experiment × List Net) (n : NodeId) :
    Except Status (Experiment × List Net) := do
  let es := netEndpoints eps n
  let ex ← if opt.generateWires = true ∧ 2 ≤ es.length then
      match es with
      | [] => pure st.1
      | root :: rest => rest.foldlM (fun ex e => ex.connect root e) st.1
    else pure st.1
  pure (ex, st.2 ++ [⟨n, es⟩])

structure Result where
  ex : Experiment
  nets : List Net
  warnings : List String
  deriving DecidableEq

def convert (host : Host) (opt : Options) (nl : Netlist) : Except Status Result := do
  let st ← nl.normals.foldlM (exportModel host opt nl) {}
  let groundId := host.randString st.ex.elements.length
  let ex ← if opt.includeGround then st.ex.addCircuitElement groundId "Ground Component" false else pure st.ex
  let ground := if opt.includeGround then [(NodeId.ground, (⟨groundId, 0⟩ : PlEndpoint))] else []
  let eps := st.mapped.flatMap MappedElement.endpoints ++ ground
  let (ex, nets) ← (host.order (eps.map Prod.fst).dedup).foldlM (exportNet opt eps) (ex, [])
  pure ⟨ex, nets, st.warnings⟩

end PhyEngine.PhyLab
