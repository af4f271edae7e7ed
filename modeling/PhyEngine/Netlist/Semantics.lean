import PhyEngine.Library.Equations
import PhyEngine.Netlist.Basic

/-!
# What a combinational netlist computes

Every combinational model gives one equation for each output pin: a named `INPUT` reads an
assignment of names, an unnamed one is constant, a gate applies its Boolean function.
-/

namespace PhyEngine

open Equations

/-- A Boolean function of one pin, on the list of the input values. -/
def unary (f : Bool → Bool) : List Bool → Bool
  | [a] => f a
  | _ => false

def binary (f : Bool → Bool → Bool) : List Bool → Bool
  | [a, b] => f a b
  | _ => false

def ternary (f : Bool → Bool → Bool → Bool) : List Bool → Bool
  | [a, b, c] => f a b c
  | _ => false

def quaternary (f : Bool → Bool → Bool → Bool → Bool) : List Bool → Bool
  | [a, b, c, d] => f a b c d
  | _ => false

/-- How many input pins a combinational model has (they come first) and the Boolean
functions of its output pins. `IS_UNKNOWN` is low on every Boolean value. -/
def ModelKind.boolFns : ModelKind → Option (Nat × List (List Bool → Bool))
  | .not => some (1, [unary fun a => !a])
  | .yes => some (1, [unary fun a => a])
  | .isUnknown => some (1, [unary fun _ => false])
  | .and => some (2, [binary fun a b => a && b])
  | .or => some (2, [binary fun a b => a || b])
  | .xor => some (2, [binary fun a b => a != b])
  | .xnor => some (2, [binary fun a b => a == b])
  | .nand => some (2, [binary fun a b => !(a && b)])
  | .nor => some (2, [binary fun a b => !(a || b)])
  | .imp => some (2, [binary fun a b => !a || b])
  | .nimp => some (2, [binary fun a b => a && !b])
  | .caseEq => some (2, [binary fun a b => a == b])
  | .halfAdder => some (2, [binary fun a b => a != b, binary fun a b => a && b])
  | .fullAdder => some (3, [ternary fun a b c => (a != b) != c,
      ternary fun a b c => (a && b) || (a && c) || (b && c)])
  | .mul2 => some (4, [quaternary fun a0 _ b0 _ => a0 && b0,
      quaternary fun a0 a1 b0 b1 => (a0 && b1) != (a1 && b0),
      quaternary fun a0 a1 b0 b1 => (a1 && b1) != ((a0 && b1) && (a1 && b0)),
      quaternary fun a0 a1 b0 b1 => (a1 && b1) && ((a0 && b1) && (a1 && b0))])
  | _ => none

namespace Model

variable (m : Model)

/-- `to_bool_const`: the constant of an `INPUT`, if it is low or high. -/
def toBoolConst : Option Bool :=
  match m.getAttribute 0 with
  | .digital v => v.toBool?
  | _ => none

def ioNode : Option NodeId :=
  match m.pins with
  | [p] => p
  | _ => none

def inputEntry : Option (String × NodeId) :=
  if m.kind = .input ∧ m.name ≠ "" then m.ioNode.map (m.name, ·) else none

def outputEntry : Option (String × NodeId) :=
  if m.kind = .output ∧ m.name ≠ "" then m.ioNode.map (m.name, ·) else none

/-- A connected `INPUT` without a name that holds a low or high constant. -/
def constEntry : Option (NodeId × Bool) :=
  if m.kind = .input ∧ m.name = "" then m.ioNode.bind fun n => m.toBoolConst.map (n, ·) else none

/-- The equations of the output pins of a gate. A gate with an unconnected pin does
nothing. -/
def gateEquations : List (Equation NodeId Bool) :=
  match m.kind.boolFns, m.pins.mapM id with
  | some (arity, fns), some nodes =>
    ((nodes.drop arity).zip fns).map fun nf => Equation.apply nf.1 (nodes.take arity) nf.2
  | _, _ => []

/-- What a model says about the values of the nodes, for an assignment of the names. -/
def equations (σ : String → Bool) (m : Model) : List (Equation NodeId Bool) :=
  (m.constEntry.map fun e => Equation.const e.1 e.2).toList ++
    (m.inputEntry.map fun e => Equation.const e.2 (σ e.1)).toList ++ m.gateEquations

end Model

namespace Netlist

/-- The equations of all models, for an assignment of the named inputs. -/
def equations (σ : String → Bool) (nl : Netlist) : List (Equation NodeId Bool) :=
  nl.normals.flatMap (·.equations σ)

variable (nl : Netlist)

/-- Node `n` evaluates to `b` when the named inputs have the values `σ`. -/
def Evaluates (σ : String → Bool) (n : NodeId) (b : Bool) : Prop :=
  Derives (nl.equations σ) n b

/-- The gate graph is acyclic: nodes can be ranked. -/
def Acyclic : Prop :=
  ∃ rank : NodeId → Nat, ∀ σ, Ranked (nl.equations σ) rank

def SingleDrivers : Prop := ∀ σ, SingleDriver (nl.equations σ)

def namedInputs : List (String × NodeId) := nl.normals.filterMap (·.inputEntry)

def namedOutputs : List (String × NodeId) := nl.normals.filterMap (·.outputEntry)

def inputNames : List String := (nl.namedInputs.map Prod.fst).dedup

end Netlist

end PhyEngine
