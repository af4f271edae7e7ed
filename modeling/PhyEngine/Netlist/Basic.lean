import PhyEngine.Model.Logic
import Mathlib.Data.UInt

/-!
# Netlists and their edits

The data model of `netlist.h`, `base.h` and `node.h`, and `netlist/operation.h`. A node pointer
is the ordinal of the node, a pin pointer the heap object of its model with an index; `nextId` is
the next heap number. Nothing forces pins and nodes to agree, as in the source.
-/

namespace PhyEngine

inductive DeviceType where
  | linear
  | nonLinear
  | digital
  deriving DecidableEq

/-- The device models of `model/models`, told apart in the source by `model_name`. The
analog devices are only numbered: no modelled function looks at which one it has. -/
inductive ModelKind where
  | input | output | yes | not | and | or | xor | xnor | nand | nor | imp | nimp
  | caseEq | isUnknown | tri | resolve2 | schmittTrigger | tickDelay
  | eightBitInput | eightBitDisplay
  | halfAdder | fullAdder | halfSub | fullSub | mul2
  | dff | dffArstn | dlatch | tff | tBarFf | jkff | counter4 | randomGenerator4
  | verilogModule | verilogPorts
  | linear (device : Nat)
  | nonLinear (device : Nat)
  deriving DecidableEq

def ModelKind.deviceType : ModelKind → DeviceType
  | .linear _ => .linear
  | .nonLinear _ => .nonLinear
  | _ => .digital

/-- `variant`: the value of an attribute, floating-point numbers as their bits. -/
inductive Variant where
  | invalid
  | integer (v : Int)
  | boolean (b : Bool)
  | d (bits : UInt64)
  | digital (v : LogicT)
  deriving DecidableEq

inductive NodeId where
  | ground
  | node (i : Nat)
  deriving DecidableEq

instance : LawfulBEq (Option NodeId) := inferInstance

def NodeId.index : NodeId → Nat
  | .ground => 0
  | .node i => i

/-- A model object: its device model, instance name, attribute table and pins. -/
structure Model where
  kind : ModelKind
  name : String
  attrs : List Variant
  pins : List (Option NodeId)
  deriving DecidableEq

def Model.getAttribute (m : Model) (i : Nat) : Variant := m.attrs.getD i .invalid

/-- Whether a pin of the model counts in `num_of_analog_node`. -/
def Model.isAnalog (m : Model) : Bool := decide (m.kind.deviceType ≠ .digital)

/-- The object a `model_base` of type `normal` owns, at its heap address. -/
structure ModelBase where
  id : Nat
  model : Model
  deriving DecidableEq

structure PinRef where
  id : Nat
  k : Nat
  deriving DecidableEq

structure Node where
  state : LogicT := .L
  pins : Finset PinRef := ∅
  numOfAnalogNode : UInt64 := 0
  deriving DecidableEq

/-- `netlist_model_base_block`: the constructed slots, `none` for the type `null`. -/
structure ModelBlock where
  slots : List (Option ModelBase) := []
  numOfNullModel : Nat := 0
  deriving DecidableEq

/-- `chunk_module_size` of the model blocks: `4096 / sizeof(model_base)`. -/
def chunkModuleSize : Nat := 51

structure Netlist where
  models : List ModelBlock := []
  nodes : List Node := []
  groundNode : Node := {}
  nextId : Nat := 0
  deriving DecidableEq

/-- A model with its pins on numbered nodes. -/
def Model.port (kind : ModelKind) (pins : List Nat) (name : String) (attrs : List Variant) : Model :=
  ⟨kind, name, attrs, pins.map fun i => some (.node i)⟩

def Model.on (kind : ModelKind) (pins : List Nat) : Model := .port kind pins "" []

structure ModelPos where
  vecPos : Nat
  chunkPos : Nat
  deriving DecidableEq

variable (nl : Netlist)

namespace Netlist

def slots : List (Option ModelBase) := nl.models.flatMap (·.slots)

def bases : List ModelBase := nl.slots.reduceOption

/-- The model objects in order, without their addresses. -/
def normals : List Model := nl.bases.map (·.model)

def node? : NodeId → Option Node
  | .ground => some nl.groundNode
  | .node i => nl.nodes[i]?

def modifyNode (n : NodeId) (f : Node → Node) : Netlist :=
  match n with
  | .ground => { nl with groundNode := f nl.groundNode }
  | .node i => { nl with nodes := nl.nodes.modify i f }

variable (pos : ModelPos)

/-- `get_model`: the object in a slot, `none` for a bad position or a null model. -/
def getModel : Option ModelBase :=
  ((nl.models[pos.chunkPos]?).bind (fun b => b.slots[pos.vecPos]?)).join

def createNode : Netlist × NodeId :=
  ({ nl with nodes := nl.nodes ++ [{}] }, .node nl.nodes.length)

/-- Appends a slot to the last block, opening a new block when it is full. -/
def emplaceSlot (blocks : List ModelBlock) (s : Option ModelBase) : List ModelBlock :=
  match blocks.getLast? with
  | none => [{ slots := [s] }]
  | some b =>
    if b.slots.length = chunkModuleSize then blocks ++ [{ slots := [s] }]
    else blocks.dropLast ++ [{ b with slots := b.slots ++ [s] }]

def addModel (m : Model) : Netlist × ModelPos :=
  let blocks := emplaceSlot nl.models (some ⟨nl.nextId, m⟩)
  ({ nl with models := blocks, nextId := nl.nextId + 1 },
    ⟨((blocks.getLast?).map (·.slots.length - 1)).getD 0, blocks.length - 1⟩)

/-- Attaching a pin to a node, as `add_to_node` and the netlist copies do: the pin enters
the node's set, and the analog counter goes up for a pin of an analog model. -/
def attachPin (p : PinRef) (analog : Bool) (n : NodeId) : Netlist :=
  nl.modifyNode n fun nd =>
    { nd with pins := insert p nd.pins
              numOfAnalogNode := if analog then nd.numOfAnalogNode + 1 else nd.numOfAnalogNode }

def detachPin (p : PinRef) (analog : Bool) (n : NodeId) : Netlist :=
  nl.modifyNode n fun nd =>
    { nd with pins := nd.pins.erase p
              numOfAnalogNode := if analog then nd.numOfAnalogNode - 1 else nd.numOfAnalogNode }

def setSlot (s : Option ModelBase) : Netlist :=
  { nl with models := nl.models.modify pos.chunkPos fun b =>
      { b with slots := b.slots.set pos.vecPos s } }

/-- Overwrites the node pointer of pin `k` of the model at a position. -/
def setPin (k : Nat) (n : Option NodeId) : Netlist :=
  match nl.getModel pos with
  | none => nl
  | some b => nl.setSlot pos (some { b with model := { b.model with pins := b.model.pins.set k n } })

def addToNode (k : Nat) (n : NodeId) : Netlist × Bool :=
  match nl.getModel pos with
  | none => (nl, false)
  | some b =>
    if k < b.model.pins.length then
      ((nl.setPin pos k (some n)).attachPin ⟨b.id, k⟩ b.model.isAnalog n, true)
    else (nl, false)

/-- Moving a connected pin to another node, as the optimisation passes do: the pin is
erased from its node's set and inserted into the other one; the counters are left. -/
def movePin (k : Nat) (n : NodeId) : Netlist :=
  match nl.getModel pos with
  | none => nl
  | some b =>
    match b.model.pins[k]? with
    | some (some old) =>
      let nl := nl.modifyNode old fun nd => { nd with pins := nd.pins.erase ⟨b.id, k⟩ }
      let nl := nl.setPin pos k (some n)
      nl.modifyNode n fun nd => { nd with pins := insert ⟨b.id, k⟩ nd.pins }
    | _ => nl

/-- Visiting the pins of a model in order, one write per connected pin. `start` is the
index of the first pin of the list. -/
def visitPins (write : Nat → NodeId → Netlist → Netlist) (pins : List (Option NodeId))
    (start : Nat) (nl : Netlist) : Netlist :=
  (pins.zipIdx start).foldl
    (fun nl pk => match pk.1 with
      | none => nl
      | some n => write pk.2 n nl) nl

def removeFromNode (b : ModelBase) : Netlist :=
  visitPins (fun k n nl => nl.detachPin ⟨b.id, k⟩ b.model.isAnalog n) b.model.pins 0 nl

/-- `delete_model`: the last slot of a block is destroyed, any other becomes null. -/
def deleteModel : Netlist × Bool :=
  match nl.models[pos.chunkPos]? with
  | none => (nl, false)
  | some blk =>
    match blk.slots[pos.vecPos]? with
    | none => (nl, false)
    | some slot =>
      if pos.vecPos + 1 = blk.slots.length then
        let pop (d : Nat) (nl : Netlist) : Netlist :=
          { nl with models := nl.models.modify pos.chunkPos fun b =>
              { slots := b.slots.dropLast, numOfNullModel := b.numOfNullModel - d } }
        match slot with
        | none => (pop 1 nl, false)
        | some b => (pop 0 (nl.removeFromNode b), true)
      else
        match slot with
        | none => (nl, false)
        | some b =>
          let nl := (nl.removeFromNode b).setSlot pos none
          ({ nl with models := nl.models.modify pos.chunkPos fun b =>
              { b with numOfNullModel := b.numOfNullModel + 1 } }, true)

/-- One call of the netlist interface by an optimisation pass. -/
inductive Edit where
  | createNode
  | addModel (m : Model)
  | addToNode (pos : ModelPos) (k : Nat) (n : NodeId)
  | movePin (pos : ModelPos) (k : Nat) (n : NodeId)
  | deleteModel (pos : ModelPos)

def applyEdit : Edit → Netlist
  | .createNode => nl.createNode.1
  | .addModel m => (nl.addModel m).1
  | .addToNode pos k n => (nl.addToNode pos k n).1
  | .movePin pos k n => nl.movePin pos k n
  | .deleteModel pos => (nl.deleteModel pos).1

def applyEdits (es : List Edit) : Netlist := es.foldl applyEdit nl

end Netlist

end PhyEngine
