import PhyEngine.Library.BitNumbers
import PhyEngine.Synth.Builder

/-!
# Don't-cares from one-hot state vectors

`collect_vector_assignments`, `infer_one_hot_fsm_groups` and the use of the groups. A vector that
`always_ff` blocks only assign as a whole, by constants with one bit set, becomes a group of
these patterns; every other minterm over its nodes is a don't-care.
-/

namespace PhyEngine.Verilog

open BitNumbers

structure VectorAssignInfo where
  desc : VectorDesc
  bad : Bool := false
  patterns : List Nat := []
  deriving DecidableEq

section

variable (vecBySignal : List (Option Nat))

def vectorOf (sig : Nat) : Option Nat := vecBySignal.getD sig none

def markBad (vecs : List VectorAssignInfo) (vid : Nat) : List VectorAssignInfo :=
  vecs.modify vid fun info => { info with bad := true }

def markSignal (vecs : List VectorAssignInfo) (sig : Nat) : List VectorAssignInfo :=
  match vectorOf vecBySignal sig with
  | none => vecs
  | some vid => markBad vecs vid

/-- The vector that all signals of a left-hand side belong to. -/
def commonVector : List Nat → Option Nat
  | [] => none
  | s :: ss =>
    match vectorOf vecBySignal s with
    | none => none
    | some vid => if ss.all fun t => vectorOf vecBySignal t = some vid then some vid else none

variable (b : InstanceBuilder)

def InstanceBuilder.constBits (roots : List Nat) : Option (List Bool) :=
  roots.mapM fun root =>
    match b.evalConstExprToLogic root with
    | some .H => some true
    | some .L => some false
    | _ => none

def noteAssign (vecs : List VectorAssignInfo) (a : Assign) : List VectorAssignInfo :=
  if a.isVector = false then a.lhs.foldl (markSignal vecBySignal) vecs
  else if a.lhs.length ≠ a.rhs.length ∨ a.lhs = [] then vecs
  else
    match commonVector vecBySignal a.lhs with
    | none => a.lhs.foldl (markSignal vecBySignal) vecs
    | some vid =>
      if (vecs[vid]?.map fun info => info.desc.bits) ≠ some a.lhs then markBad vecs vid
      else
        match b.constBits a.rhs with
        | none => markBad vecs vid
        | some bits => vecs.modify vid fun info => { info with patterns := info.patterns ++ [value bits] }

def collectVectorAssignments (vecs : List VectorAssignInfo) (roots : List Stmt) :
    List VectorAssignInfo :=
  (Stmt.assignsOfList roots).foldl (noteAssign vecBySignal b) vecs

end

def popcount (pat : Nat) : Nat := (List.range 16).countP pat.testBit

namespace InstanceBuilder

variable (b : InstanceBuilder)

def candidates : List VectorDesc :=
  (b.inst.mod.vectors.map Prod.snd).filter fun vd =>
    vd.bits ≠ [] && vd.bits.length ≤ b.dcFsmMaxBits && vd.bits.length ≤ 16

/-- `vec_by_signal`: a signal of several vectors belongs to the last one. -/
def vecBySignal : List (Option Nat) :=
  b.candidates.zipIdx.foldl (fun vbs p => p.1.bits.foldl (fun vbs sig => vbs.set sig (some p.2)) vbs)
    (List.replicate b.inst.mod.signalNames.length none)

def collected : List VectorAssignInfo :=
  b.inst.mod.alwaysFfs.foldl (fun vecs ff => collectVectorAssignments b.vecBySignal b vecs ff.roots)
    (b.candidates.map fun vd => { desc := vd })

def oneHotGroup (info : VectorAssignInfo) : Option (VectorDesc × DcGroup) :=
  if info.bad || info.patterns.isEmpty || info.desc.bits.isEmpty || 16 < info.desc.bits.length then none
  else if info.patterns.any fun pat => popcount pat ≠ 1 then none
  else
    (info.desc.bits.mapM fun sig => b.sigNodes.getD sig none).map fun nodes =>
      (info.desc, { nodes, allowed := (info.patterns.mergeSort (· ≤ ·)).dedup })

def reported : List (VectorDesc × DcGroup) :=
  if !b.inferDcFromFsm || b.dcFsmMaxBits = 0 then []
  else if b.inst.mod.vectors.isEmpty || b.inst.mod.alwaysFfs.isEmpty then []
  else b.collected.filterMap b.oneHotGroup

def addGroup (groups : List DcGroup) (g : DcGroup) : List DcGroup :=
  if groups.any fun existing => existing.nodes = g.nodes then groups else groups ++ [g]

def inferOneHotFsmGroups : List DcGroup := (b.reported.map Prod.snd).foldl addGroup b.groups

end InstanceBuilder

structure DcGroupView where
  leafPos : List Nat
  allowed : List Bool
  deriving DecidableEq

def buildDcGroupViews (groups : List DcGroup) (leaves : List Nat) : List DcGroupView :=
  groups.filterMap fun g =>
    if g.nodes.isEmpty || g.allowed.isEmpty || 16 < g.nodes.length then none
    else
      (g.nodes.mapM fun n => leaves.idxOf? n).map fun pos =>
        { leafPos := pos, allowed := (List.range (2 ^ g.nodes.length)).map fun v => decide (v ∈ g.allowed) }

def DcGroupView.sub (v : DcGroupView) (m : Nat) : Nat := value (v.leafPos.map m.testBit)

def dcHit (views : List DcGroupView) (m : Nat) : Bool :=
  views.any fun v => v.allowed[v.sub m]? = some false

def applyDcConstraints (dcList onList : List Nat) (vars : Nat) (views : List DcGroupView) : List Nat :=
  if views.isEmpty || vars = 0 || 16 < vars then dcList
  else (List.range (2 ^ vars)).filter fun m => m ∈ dcList || (!(m ∈ onList) && dcHit views m)

end PhyEngine.Verilog
