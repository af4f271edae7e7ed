import PhyEngine.Model.Logic

/-!
# Compiled Verilog modules

The output of the compiler in `digital.h`. Expressions stay in their arena, named by the index of
their root; statements are the trees that the arenas encode. An index of `SIZE_MAX` is out of
range, or `none` where the source tests for it.
-/

namespace PhyEngine.Verilog

inductive ExprNode where
  | literal (v : LogicT)
  | signal (s : Nat)
  | isUnknown (a : Nat)
  | unaryNot (a : Nat)
  | binaryAnd (a b : Nat)
  | binaryOr (a b : Nat)
  | binaryXor (a b : Nat)
  | binaryEq (a b : Nat)
  | binaryNeq (a b : Nat)
  | binaryCaseEq (a b : Nat)
  deriving DecidableEq

def ExprNode.children : ExprNode → List Nat
  | literal _ | signal _ => []
  | isUnknown a | unaryNot a => [a]
  | binaryAnd a b | binaryOr a b | binaryXor a b | binaryEq a b | binaryNeq a b
  | binaryCaseEq a b => [a, b]

/-- `continuous_assign`. With a guard the assignment drives only while the guard is high. -/
structure ContinuousAssign where
  lhsSignal : Nat
  exprRoot : Nat
  guardRoot : Option Nat := none
  deriving DecidableEq

inductive CaseKind where
  | normal
  | casez
  | casex
  deriving DecidableEq

/-- The assignments of procedural code, of one signal or of a whole vector. -/
structure Assign where
  nonblocking : Bool
  delayTicks : UInt64 := 0
  isVector : Bool := false
  lhs : List Nat
  rhs : List Nat
  scalar : isVector = false → lhs.length = 1 ∧ rhs.length = 1 := by decide
  deriving DecidableEq

mutual

inductive Stmt where
  | empty
  | block (stmts : List Stmt)
  | subprogramBlock (stmts : List Stmt)
  | assign (a : Assign)
  | ifStmt (cond : Nat) (stmts elseStmts : List Stmt)
  | caseStmt (ck : CaseKind) (exprRoots : List Nat) (items : List CaseItem)
  | forStmt (init : Stmt) (cond : Nat) (step body : Stmt)
  | whileStmt (cond : Nat) (body : Stmt)
  | doWhileStmt (cond : Nat) (body : Stmt)
  | returnStmt
  | breakStmt
  | continueStmt

inductive CaseItem where
  | mk (isDefault : Bool) (matchRoots : List Nat) (stmts : List Stmt)

end

def CaseItem.isDefault : CaseItem → Bool
  | .mk d _ _ => d

def CaseItem.matchRoots : CaseItem → List Nat
  | .mk _ rs _ => rs

inductive EdgeKind where
  | level
  | posedge
  | negedge
  deriving DecidableEq

structure SensitivityEvent where
  k : EdgeKind
  signal : Nat
  deriving DecidableEq

structure AlwaysFf where
  events : List SensitivityEvent
  roots : List Stmt

structure AlwaysComb where
  isStar : Bool := true
  sensSignals : List Nat := []
  roots : List Stmt

structure InitialBlock where
  roots : List Stmt

inductive PortDir where
  | unknown
  | input
  | output
  | inout
  deriving DecidableEq

structure Port where
  name : String
  dir : PortDir
  signal : Nat
  deriving DecidableEq

structure PortDecl where
  dir : PortDir := .unknown
  hasRange : Bool := false
  msb : Int := 0
  lsb : Int := 0
  isReg : Bool := false
  isSigned : Bool := false
  deriving DecidableEq

structure VectorDesc where
  msb : Int := 0
  lsb : Int := 0
  isReg : Bool := false
  isSigned : Bool := false
  bits : List Nat
  deriving DecidableEq

/-- `connection_ref`, by its kind. Bits are listed from the most significant one on; a bit
of a bit list is a parent signal or a literal. -/
inductive ConnectionRef where
  | unconnected
  | scalar (signal : Option Nat)
  | vector (base : String)
  | literal (isSigned : Bool) (v : LogicT)
  | literalVector (isSigned : Bool) (bits : List LogicT)
  | bitList (isSigned : Bool) (bits : List (Nat ⊕ LogicT))
  | expr (isSigned : Bool) (roots : List Nat)
  deriving DecidableEq

structure InstanceDef where
  moduleName : String
  instanceName : String
  paramPositionalValues : List UInt64 := []
  paramNamedValues : List (String × UInt64) := []
  connections : List (String × ConnectionRef) := []
  deriving DecidableEq

/-- `compiled_module`. Maps are association lists. Operands come before the nodes that use
them, because the compiler interns operands first. -/
structure CompiledModule where
  name : String := ""
  ports : List Port := []
  portOrder : List String := []
  portDecls : List (String × PortDecl) := []
  vectors : List (String × VectorDesc) := []
  signalNames : List String := []
  signalIsReg : List Bool := []
  signalIsSigned : List Bool := []
  signalIsConst : List Bool := []
  signalConstValue : List LogicT := []
  signalIndex : List (String × Nat) := []
  paramOrder : List String := []
  paramIsLocal : List (String × Bool) := []
  exprNodes : List ExprNode := []
  assigns : List ContinuousAssign := []
  alwaysFfs : List AlwaysFf := []
  alwaysCombs : List AlwaysComb := []
  initials : List InitialBlock := []
  instances : List InstanceDef := []
  operands_first : ∀ p ∈ exprNodes.zipIdx, ∀ c ∈ p.1.children, c < p.2 := by decide

theorem operandsFirst_nil : ∀ p ∈ ([] : List ExprNode).zipIdx, ∀ c ∈ p.1.children, c < p.2 := by decide

/-- Whether a signal is a variable (`reg`, `logic`), which is written at once and keeps its
value. -/
def CompiledModule.isReg (m : CompiledModule) (s : Nat) : Bool := m.signalIsReg.getD s false

mutual

def Stmt.assigns : Stmt → List Assign
  | .empty | .returnStmt | .breakStmt | .continueStmt => []
  | .block ss | .subprogramBlock ss => Stmt.assignsOfList ss
  | .assign a => [a]
  | .ifStmt _ ts es => Stmt.assignsOfList ts ++ Stmt.assignsOfList es
  | .caseStmt _ _ items => Stmt.assignsOfItems items
  | .forStmt init _ step body => init.assigns ++ step.assigns ++ body.assigns
  | .whileStmt _ body | .doWhileStmt _ body => body.assigns

def Stmt.assignsOfList : List Stmt → List Assign
  | [] => []
  | s :: ss => s.assigns ++ Stmt.assignsOfList ss

def Stmt.assignsOfItems : List CaseItem → List Assign
  | [] => []
  | i :: is => Stmt.assignsOfItem i ++ Stmt.assignsOfItems is

def Stmt.assignsOfItem : CaseItem → List Assign
  | .mk _ _ ss => Stmt.assignsOfList ss

end

def Stmt.targets (ss : List Stmt) : List Nat := (Stmt.assignsOfList ss).flatMap (·.lhs)

def Stmt.delayed (ss : List Stmt) : List Nat :=
  ((Stmt.assignsOfList ss).filter fun a => a.delayTicks ≠ 0).flatMap (·.lhs)

end PhyEngine.Verilog
