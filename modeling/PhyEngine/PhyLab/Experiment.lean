import PhyEngine.Netlist.Basic

/-!
# Experiments

The elements and wires of `phy_lab_wrapper/physicslab.h`, as far as the conversions from
and to netlists use them. Numbers are given by their bits.
-/

namespace PhyEngine.PhyLab

inductive Errc where
  | invalidArgument
  | operationNotSupported
  deriving DecidableEq

structure Status where
  code : Errc
  message : String
  deriving DecidableEq

abbrev Identifier := List Char

structure PlEndpoint where
  elementIdentifier : Identifier
  pin : Nat
  deriving DecidableEq

structure Wire where
  source : PlEndpoint
  target : PlEndpoint
  deriving DecidableEq

def dZero : UInt64 := 0
def dTenth : UInt64 := 0x3FB999999999999A
def dOne : UInt64 := 0x3FF0000000000000
def dThree : UInt64 := 0x4008000000000000
def dThousand : UInt64 := 0x408F400000000000

/-- `element`, what the conversions read and write of its data. -/
structure Element where
  modelId : String
  identifier : Identifier
  label : Option String := none
  isBigElement : Bool := false
  properties : List (String × UInt64) := []
  deriving DecidableEq

def defaultProperties (modelId : String) : List (String × UInt64) :=
  if modelId = "Logic Input" then [("高电平", dThree), ("低电平", dZero), ("锁定", dOne), ("开关", dZero)]
  else if modelId = "Resistor" then [("电阻", dThousand), ("锁定", dOne)]
  else if modelId = "Logic Output" then [("状态", dZero), ("高电平", dThree), ("低电平", dZero), ("锁定", dOne)]
  else if modelId ∈ ["Yes Gate", "No Gate", "And Gate", "Or Gate", "Xor Gate", "Xnor Gate", "Nand Gate", "Nor Gate",
      "Imp Gate", "Nimp Gate"] then
    [("高电平", dThree), ("低电平", dZero), ("最大电流", dTenth), ("锁定", dOne)]
  else if modelId ∈ ["Half Adder", "Full Adder", "Half Subtractor", "Full Subtractor", "Multiplier", "D Flipflop",
      "T Flipflop", "Real-T Flipflop", "JK Flipflop", "Counter", "Random Generator"] then
    [("高电平", dThree), ("低电平", dZero), ("锁定", dOne)]
  else if modelId = "8bit Input" then [("高电平", dThree), ("低电平", dZero), ("十进制", dZero), ("锁定", dOne)]
  else if modelId = "8bit Display" then [("高电平", dThree), ("低电平", dZero), ("状态", dZero), ("锁定", dOne)]
  else []

def Element.circuit (identifier : Identifier) (modelId : String) (isBigElement : Bool) : Element :=
  { modelId, identifier, isBigElement, properties := defaultProperties modelId }

def Element.setProperty (e : Element) (key : String) (value : UInt64) : Element :=
  { e with properties := (key, value) :: e.properties.filter fun p => p.1 ≠ key }

structure Experiment where
  elements : List Element := []
  wires : List Wire := []
  deriving DecidableEq

namespace Experiment

variable (ex : Experiment)

def identifiers : List Identifier := ex.elements.map Element.identifier

def addCircuitElement (identifier : Identifier) (modelId : String) (isBigElement : Bool) :
    Except Status Experiment :=
  if identifier ∈ ex.identifiers then
    .error ⟨.invalidArgument, "duplicate element identifier: " ++ String.ofList identifier⟩
  else .ok { ex with elements := ex.elements ++ [.circuit identifier modelId isBigElement] }

def modifyElement (identifier : Identifier) (f : Element → Element) : Experiment :=
  { ex with elements := ex.elements.map fun e => if e.identifier = identifier then f e else e }

def connect (source target : PlEndpoint) : Except Status Experiment :=
  if source.elementIdentifier ∉ ex.identifiers then
    .error ⟨.invalidArgument, "unknown source element: " ++ String.ofList source.elementIdentifier⟩
  else if target.elementIdentifier ∉ ex.identifiers then
    .error ⟨.invalidArgument, "unknown target element: " ++ String.ofList target.elementIdentifier⟩
  else .ok { ex with wires := ex.wires ++ [⟨source, target⟩] }

end Experiment

end PhyEngine.PhyLab
