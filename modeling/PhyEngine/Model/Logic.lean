import Mathlib.Tactic.TypeStar

/-!
# Four-valued logic

`digital_node_statement_t` of `model/node/node.h`, which the Verilog front end uses
under the name `logic_t`, and the operators of `verilog/digital/digital.h` on it.
The four states carry the short names `L`, `H`, `X` and `Z` of the source.
-/

namespace PhyEngine

/-- `digital_node_statement_t`: low, high, indeterminate, high impedance. -/
inductive LogicT where
  | L
  | H
  | X
  | Z
  deriving DecidableEq

instance : Inhabited LogicT := ⟨.X⟩

namespace LogicT

def ofBool (b : Bool) : LogicT := if b then .H else .L

def toByte : LogicT → UInt8
  | .L => 0
  | .H => 1
  | .X => 2
  | .Z => 3

def normalizeZToX : LogicT → LogicT
  | .Z => .X
  | v => v

def isUnknown (v : LogicT) : Bool := decide (v.normalizeZToX = .X)

def logicNot (a : LogicT) : LogicT :=
  match a.normalizeZToX with
  | .L => .H
  | .H => .L
  | _ => .X

variable (a b : LogicT)

def logicAnd : LogicT :=
  if a.normalizeZToX = .L ∨ b.normalizeZToX = .L then .L
  else if a.isUnknown || b.isUnknown then .X
  else .H

def logicOr : LogicT :=
  if a.normalizeZToX = .H ∨ b.normalizeZToX = .H then .H
  else if a.isUnknown || b.isUnknown then .X
  else .L

def logicXor : LogicT :=
  if a.isUnknown || b.isUnknown then .X
  else ofBool (xor (decide (a = .H)) (decide (b = .H)))

def logicEq : LogicT :=
  if a.isUnknown || b.isUnknown then .X
  else ofBool (decide (a.normalizeZToX = b.normalizeZToX))

def logicNeq : LogicT :=
  if a.isUnknown || b.isUnknown then .X
  else ofBool (decide (a.normalizeZToX ≠ b.normalizeZToX))

/-- `binary_case_eq`: equality of the four states, always `L` or `H`. -/
def caseEq : LogicT := ofBool (decide (a = b))

def toBool? : LogicT → Option Bool
  | .L => some false
  | .H => some true
  | _ => none

end LogicT

end PhyEngine
