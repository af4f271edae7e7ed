import PhyEngine.FileFormat.Database
import PhyEngine.FileFormat.Records
import PhyEngine.FileFormat.StableIds

/-!
# Saving and loading circuits

`save_to_leveldb` and `load_from_leveldb` of `pe_nl_fileformat.h`, over any model types with an
interface (`ModelType`) and a registry entry (`Codec`). A node pointer names the circuit that
owns the node.
-/

namespace PhyEngine.FileFormat

open ByteReader

structure NodePtr where
  circuit : Nat
  node : NodeId
  deriving DecidableEq

structure ModelPtr where
  circuit : Nat
  pos : Nat
  deriving DecidableEq

structure Pin where
  name : Bytes
  nodes : Option NodePtr := none
  model : Option ModelPtr := none
  deriving DecidableEq

/-- The interface of a model type. `Data` is what an object of it holds besides its pins, `init`
and `initPins` are what its default constructor makes. -/
structure ModelType where
  Data : Type
  modelName : Bytes
  identificationName : Bytes
  isDigital : Bool
  init : Data
  initPins : List Bytes
  attributeName : Nat → Bytes
  getAttribute : Data → Nat → Variant
  setAttribute : Data → Nat → Variant → Data
  attributeName_lt : ∀ i, (attributeName i).length < 2 ^ 64

structure Object (T : ModelType) where
  data : T.Data
  pins : List Pin

structure Codec (T : ModelType) where
  saveState : Object T → Except Status Bytes
  loadState : Object T → Bytes → Except Status (Object T)

structure Entry where
  type : ModelType
  codec : Codec type

structure Registry where
  entries : List Entry
  nodup : (entries.map fun e => e.type.modelName).Nodup

namespace Registry

abbrev Kind (reg : Registry) : Type := Fin reg.entries.length

abbrev type (reg : Registry) (k : reg.Kind) : ModelType := (reg.entries.get k).type

abbrev codec (reg : Registry) (k : reg.Kind) : Codec (reg.type k) := (reg.entries.get k).codec

def find (reg : Registry) (name : Bytes) : Option reg.Kind :=
  (List.finRange reg.entries.length).find? fun k => (reg.type k).modelName = name

end Registry

variable {reg : Registry}

structure ModelObject (reg : Registry) where
  kind : reg.Kind
  object : Object (reg.type kind)
  wrapper : Wrapper

namespace ModelObject

variable (m : ModelObject reg)

def modelName : Bytes := (reg.type m.kind).modelName

def getAttribute (i : Nat) : Variant := (reg.type m.kind).getAttribute m.object.data i

def attributes : Bytes := encodeAttributes (reg.type m.kind).attributeName m.getAttribute

end ModelObject

structure PinPtr where
  pos : Nat
  k : Nat
  deriving DecidableEq

structure CircuitNode where
  value : NodeState := ⟨0, 0, 0, .L⟩
  pins : Finset PinPtr := ∅

/-- `circult`, what is stored of it. `tag` is the circuit's own number; null models are `none`. -/
structure Circuit (reg : Registry) where
  tag : Nat
  env : Environment
  analyzeType : AnalyzeType
  analyzer : AnalyzerStorage
  runtime : RuntimeBasic
  nodes : List CircuitNode
  ground : CircuitNode
  models : List (Option (ModelObject reg))

namespace Circuit

def normals (c : Circuit reg) : List (ModelObject reg) := c.models.reduceOption

def ownNode (c : Circuit reg) (p : Option NodePtr) : Option NodeId :=
  match p with
  | some ⟨circuit, .ground⟩ => if circuit = c.tag then some .ground else none
  | some ⟨circuit, .node i⟩ => if circuit = c.tag ∧ i < c.nodes.length then some (.node i) else none
  | none => none

/-- What `compute_stable_ids` reads. -/
def graph (c : Circuit reg) : Graph where
  nodePins := c.nodes.map fun n => n.pins.card
  models := c.normals.map fun m =>
    { modelName := m.modelName
      attributes := m.attributes
      isDigital := (reg.type m.kind).isDigital
      pins := m.object.pins.map fun p => ⟨p.name, c.ownNode p.nodes⟩ }

end Circuit

inductive ExportMode where
  | full
  | structureOnly
  | runtimeOnly
  deriving DecidableEq

def ExportMode.toByte : ExportMode → UInt8
  | .full => 0
  | .structureOnly => 1
  | .runtimeOnly => 2

/-- `static_cast<export_mode>`. Bytes that are no enumerator are never written. -/
def ExportMode.ofByte (b : UInt8) : ExportMode :=
  if b = 0 then .full else if b = 1 then .structureOnly else .runtimeOnly

def ExportMode.wantStructure (m : ExportMode) : Bool := m = .full || m = .structureOnly

def ExportMode.wantRuntime (m : ExportMode) : Bool := m = .full || m = .runtimeOnly

def pinId (c : Circuit reg) (p : Pin) : Except Status UInt64 :=
  if p.nodes = none then .ok kNodeNull
  else
    match c.ownNode p.nodes with
    | some .ground => .ok kNodeGround
    | some (.node i) => .ok (UInt64.ofNat i)
    | none => .error (corrupt "pin node not found in node table")

def structureBatch (c : Circuit reg) (mid : Nat) (m : ModelObject reg) : Except Status WriteBatch := do
  let ids ← m.object.pins.mapM (pinId c)
  pure [(.model mid .modelName, m.modelName),
    (.model mid .identificationName, (reg.type m.kind).identificationName),
    (.model mid .attrs, m.attributes),
    (.model mid .wrapper, encodeWrapper m.wrapper),
    (.model mid .pins, encodePins ids)]

variable (mode : ExportMode)

def modelBatch (c : Circuit reg) (uids : List UInt64) (p : ModelObject reg × Nat) :
    Except Status WriteBatch := do
  let structure_ ← if mode.wantStructure then structureBatch c p.2 p.1 else pure []
  let state ← if mode.wantRuntime then do
      let state ← (reg.codec p.1.kind).saveState p.1.object
      pure [(Key.model p.2 .state, state)]
    else pure []
  let uid := match uids[p.2]? with
    | some uid => [(Key.model p.2 .uid, appendTrivial uid)]
    | none => []
  pure (structure_ ++ state ++ uid)

def metaBatch (hash : UInt64) : WriteBatch :=
  [(.fixed .formatVersion, appendTrivial (1 : UInt32)),
    (.fixed .mode, appendU8 mode.toByte),
    (.fixed .structureHash, appendTrivial hash),
    (.fixed .uidAlgoVersion, appendTrivial (1 : UInt32)),
    (.fixed .flags, appendBool mode.wantRuntime ++ appendBool mode.wantRuntime ++ appendBool mode.wantRuntime ++
      appendBool mode.wantStructure)]

def circuitBatch (c : Circuit reg) : WriteBatch :=
  [(.fixed .env, encodeEnvironment c.env),
    (.fixed .analyzeType, appendTrivial c.analyzeType.toCode),
    (.fixed .analyzer, encodeAnalyzer c.analyzer)] ++
  if mode.wantRuntime then [(.fixed .runtimeBasic, encodeRuntime c.runtime)] else []

def nodesBatch (c : Circuit reg) (ids : StableGraphIds) : WriteBatch :=
  [(.fixed .nodesCount, appendUleb128 (UInt64.ofNat c.nodes.length)),
    (.fixed .groundUid, appendTrivial ids.groundUid)] ++
  (ids.nodeUid.take c.nodes.length).zipIdx.map (fun p => (.node p.2 .uid, appendTrivial p.1)) ++
  if mode.wantRuntime then
    c.nodes.zipIdx.map (fun p => (.node p.2 .state, encodeNodeState p.1.value)) ++
      [(.fixed .nodesGround, appendF64 c.ground.value.real ++ appendF64 c.ground.value.imag)]
  else []

def saveToLeveldb (c : Circuit reg) : Except Status WriteBatch := do
  let ids := computeStableIds c.graph
  let models ← c.normals.zipIdx.mapM (modelBatch mode c ids.modelUid)
  pure (metaBatch mode ids.structureHash ++ circuitBatch mode c ++ nodesBatch mode c ids ++
    [(.fixed .modelsCount, appendUleb128 (UInt64.ofNat c.normals.length))] ++ models.flatten)

structure Meta where
  mode : ExportMode
  hasNodeState : Bool
  hasModelState : Bool
  hasRuntime : Bool
  hasStructure : Bool
  deriving DecidableEq

variable (db : Database)

def getOptional (k : Key) : Except Status (Option Bytes) :=
  match db.get k with
  | .ok v => .ok (some v)
  | .error e => if e.code = .notFound then .ok none else .error e

def readFlags : Read (Bool × Bool × Bool × Bool) := do
  let node ← readBool "meta/flags too short"
  let model ← readBool "meta/flags too short"
  let runtime ← readBool "meta/flags too short"
  let structure_ ← readBool "meta/flags too short"
  pure (node, model, runtime, structure_)

def checkU64 (v : Bytes) : Except Status Unit :=
  if v.length ≠ 8 then .error (corrupt "u64 value has wrong size") else .ok ()

def readMeta : Except Status Meta := do
  let version ← db.get (.fixed .formatVersion) >>= parse (readTrivial UInt32)
  if version ≠ 1 then .error ⟨.unsupported, "unsupported pe_nl format version"⟩
  else
    let mode ← match ← getOptional db (.fixed .mode) with
      | some v => parse (ExportMode.ofByte <$> next (corrupt "meta/mode empty")) v
      | none => pure .full
    match ← getOptional db (.fixed .structureHash) with
    | some v => checkU64 v
    | none => pure ()
    let flags ← match ← getOptional db (.fixed .flags) with
      | some v => parse readFlags v
      | none => pure (true, true, true, true)
    pure ⟨mode, flags.1, flags.2.1, flags.2.2.1, flags.2.2.2⟩

/-- The circuit that a structure is loaded into, once it has been cleared. -/
def Circuit.cleared (c : Circuit reg) : Circuit reg :=
  { c with
    runtime := { c.runtime with hasPrepare := false, trDuration := 0, lastStep := 0 }
    nodes := []
    ground := {}
    models := [] }

def pinTarget (tag : Nat) (id : UInt64) : Option NodePtr :=
  if id = kNodeNull then none
  else if id = kNodeGround then some ⟨tag, .ground⟩
  else some ⟨tag, .node id.toNat⟩

def CircuitNode.attach (n : CircuitNode) (p : PinPtr) (analog : Bool) : CircuitNode :=
  { n with
    pins := insert p n.pins
    value := if analog then { n.value with numOfAnalogNode := n.value.numOfAnalogNode + 1 } else n.value }

def Circuit.attach (c : Circuit reg) (p : PinPtr) (analog : Bool) (target : Option NodePtr) : Circuit reg :=
  match target with
  | none => c
  | some ⟨_, .ground⟩ => { c with ground := c.ground.attach p analog }
  | some ⟨_, .node i⟩ => { c with nodes := c.nodes.modify i fun n => n.attach p analog }

def freshObject (T : ModelType) : Object T := ⟨T.init, T.initPins.map fun n => { name := n }⟩

def applyAttributes (T : ModelType) (data : T.Data) (bs : Bytes) : Except Status T.Data := do
  let records ← parseAll "trailing bytes in attributes blob" readAttributes bs
  pure (records.foldl (fun d r => T.setAttribute d r.idx r.value) data)

def loadStructurePart (nodeCount : UInt64) (tag pos mid : Nat) (T : ModelType) :
    Except Status (Wrapper × Object T) := do
  let wrapper ← db.get (.model mid .wrapper) >>= parseAll "trailing bytes in wrapper" readWrapper
  let data ← db.get (.model mid .attrs) >>= applyAttributes T T.init
  let ids ← db.get (.model mid .pins) >>=
    parseAll "trailing bytes in pins mapping" (readPins T.initPins.length nodeCount)
  let pins := List.zipWith (fun n id => { name := n, nodes := pinTarget tag id, model := some ⟨tag, pos⟩ })
    T.initPins ids
  pure (wrapper, ⟨data, pins⟩)

def loadStatePart (requireModelState : Bool) (mid : Nat) {T : ModelType} (codec : Codec T) (o : Object T) :
    Except Status (Object T) := do
  match ← getOptional db (.model mid .state) with
  | some state =>
    match codec.loadState o state with
    | .ok o => pure o
    | .error e => if requireModelState then .error e else pure o
  | none => pure o

def bytesText (bs : Bytes) : String := String.ofList (bs.map fun b => Char.ofNat b.toNat)

def loadModel (info : Meta) (requireModelState : Bool) (nodeCount : UInt64) (c : Circuit reg) (mid : Nat) :
    Except Status (Circuit reg) := do
  let name ← db.get (.model mid .modelName)
  match reg.find name with
  | none => .error ⟨.unsupported, "no codec for model: " ++ bytesText name⟩
  | some kind =>
    let pos := c.models.length
    let (wrapper, object) ← if info.hasStructure then loadStructurePart db nodeCount c.tag pos mid (reg.type kind)
      else pure (⟨0, false, [], []⟩, freshObject (reg.type kind))
    let targets := object.pins.map Pin.nodes
    let c := targets.zipIdx.foldl (fun c p => c.attach ⟨pos, p.2⟩ (!(reg.type kind).isDigital) p.1) c
    let object ← if info.hasModelState then loadStatePart db requireModelState mid (reg.codec kind) object else
      pure object
    pure { c with models := c.models ++ [some ⟨kind, object, wrapper⟩] }

def loadNodes (info : Meta) (nodeCount : UInt64) : Except Status (List (Option SavedNode)) :=
  (List.range nodeCount.toNat).mapM fun id =>
    if info.hasNodeState then do
      let v ← db.get (.node id .state)
      some <$> parseAll "trailing bytes in node state" readNodeState v
    else pure none

/-- The value of a node at the end: which member is used depends on its pins by then. -/
def CircuitNode.restore (n : CircuitNode) (saved : Option SavedNode) : CircuitNode :=
  if n.value.numOfAnalogNode = 0 then
    { n with value := { n.value with state := (saved.map SavedNode.state).getD .X } }
  else
    { n with value := { n.value with
        real := (saved.map SavedNode.real).getD 0
        imag := (saved.map SavedNode.imag).getD 0 } }

def loadStructure (info : Meta) (requireModelState : Bool) (c : Circuit reg) :
    Except Status (Circuit reg) := do
  let nodeCount ← db.get (.fixed .nodesCount) >>= parse readUleb128
  let modelCount ← db.get (.fixed .modelsCount) >>= parse readUleb128
  let c := c.cleared
  let env ← db.get (.fixed .env) >>= decodeEnvironment
  let at_ ← db.get (.fixed .analyzeType) >>= parse (readTrivial UInt32)
  let analyzer ← db.get (.fixed .analyzer) >>= decodeAnalyzer
  let runtime ← if info.hasRuntime then do
      match ← getOptional db (.fixed .runtimeBasic) with
      | some v => parse readRuntime v
      | none => pure c.runtime
    else pure c.runtime
  let saved ← loadNodes db info nodeCount
  let ground ← if info.hasNodeState then do
      match ← getOptional db (.fixed .nodesGround) with
      | some v => parse readGround v
      | none => pure (0, 0)
    else pure (0, 0)
  let c := { c with
    env
    analyzeType := .ofCode at_
    analyzer
    runtime
    nodes := List.replicate nodeCount.toNat {}
    ground := { c.ground with value := { c.ground.value with real := ground.1, imag := ground.2 } } }
  let c ← (List.range modelCount.toNat).foldlM (loadModel db info requireModelState nodeCount) c
  pure { c with nodes := List.zipWith CircuitNode.restore c.nodes saved }

/-- `load_from_leveldb`. `checkpoint` is the branch that applies a checkpoint to the circuit as it
is. -/
def loadFromLeveldb (checkpoint : Circuit reg → Except Status (Circuit reg)) (db : Database) (requireModelState : Bool)
    (c : Circuit reg) : Except Status (Circuit reg) := do
  let info ← readMeta db
  if info.mode = .runtimeOnly then checkpoint c else loadStructure db info requireModelState c

end PhyEngine.FileFormat
