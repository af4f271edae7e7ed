import PhyEngine.Netlist.Copy
import Mathlib.Data.List.Destutter

/-!
# Replacing gates by adders

`optimize_adders_in_pe_netlist`: full adders, half adders and full adders with a constant carry
are recognised among the gates and replaced. A map keyed by node pointers is a search through the
gates, where an `emplace` keeps the first one.
-/

namespace PhyEngine

namespace Adders

inductive Kind where
  | andGate | orGate | xorGate | notGate | xnorGate
  deriving DecidableEq

/-- `gate`, with a connected output. The address of its slot is the position. -/
structure Gate where
  k : Kind
  pos : ModelPos
  in0 : Option NodeId
  in1 : Option NodeId
  out : NodeId
  deriving DecidableEq

structure Action where
  isFull : Bool
  a : NodeId
  b : NodeId
  cin : Option NodeId
  s : NodeId
  cout : NodeId
  del : List ModelPos
  deriving DecidableEq

structure State where
  nl : Netlist
  actions : List Action := []
  usedModels : List ModelPos := []

def gateKind : ModelKind → Option Kind
  | .and => some .andGate
  | .or => some .orGate
  | .xor => some .xorGate
  | .xnor => some .xnorGate
  | .not => some .notGate
  | _ => none

def classifyGate (m : Model) (pos : ModelPos) : Option Gate :=
  match gateKind m.kind, m.pins with
  | some .notGate, [a, some out] => some ⟨.notGate, pos, a, none, out⟩
  | some .notGate, _ => none
  | some k, [a, b, some out] => some ⟨k, pos, a, b, out⟩
  | _, _ => none

/-- The pins `classify_gate` notes as drivers, and with `false` those it notes as consumers. -/
def notedPins (driver : Bool) (m : Model) : List (Option NodeId) :=
  match gateKind m.kind with
  | some .notGate =>
    if m.pins.length ≠ 2 then [] else if driver then m.pins.drop 1 else m.pins.take 1
  | some _ => if m.pins.length ≠ 3 then [] else if driver then m.pins.drop 2 else m.pins.take 2
  | none => if driver then [] else m.pins

variable (nl : Netlist)

def positions : List (ModelPos × Option ModelBase) :=
  nl.models.zipIdx.flatMap fun bc => bc.1.slots.zipIdx.map fun sv => (⟨sv.2, bc.2⟩, sv.1)

def collectGates : List Gate :=
  (positions nl).filterMap fun ps => ps.2.bind fun b => classifyGate b.model ps.1

section Search

variable (nl : Netlist) (gates : List Gate)

def pinCount (driver : Bool) (n : NodeId) : Nat :=
  (nl.normals.map fun m => (notedPins driver m).count (some n)).sum

def gateOut (k : Kind) (a b : NodeId) : Option NodeId :=
  (gates.find? fun g => k ≠ .notGate ∧ g.k = k ∧
    ((g.in0 = some a ∧ g.in1 = some b) ∨ (g.in0 = some b ∧ g.in1 = some a))).map (·.out)

def gateByOut (k : Kind) (n : NodeId) : Option Gate :=
  (gates.find? fun g => g.out = n).filter fun g => g.k = k

def canDeleteGateOutput (n : NodeId) : Bool := pinCount nl true n = 1

/-- `mark_used` on several gates, up to the first that is used already. -/
def markUsed (used : List ModelPos) : List Gate → List ModelPos × Bool
  | [] => (used, true)
  | g :: gs => if g.pos ∈ used then (used, false) else markUsed (g.pos :: used) gs

def tryAddHalfAdder (st : State) (gx : Gate) : State :=
  match gx.k, gx.in0, gx.in1 with
  | .xorGate, some a, some b =>
    match gateOut gates .andGate a b with
    | none => st
    | some cnode =>
      match gateByOut gates .andGate cnode with
      | none => st
      | some gand =>
        if ¬ (canDeleteGateOutput nl gx.out ∧ canDeleteGateOutput nl cnode) ∨
            pinCount nl false gx.out = 0 then st
        else
          let (used, ok) := markUsed st.usedModels [gx, gand]
          if ok then
            { st with usedModels := used
                      actions := st.actions ++ [⟨false, a, b, none, gx.out, cnode, [gx.pos, gand.pos]⟩] }
          else { st with usedModels := used }
  | _, _, _ => st

/-- One `pick` of `try_add_full_adder_general`, `true` when it added an action. -/
def tryFullAdderPick (st : State) (g2 : Gate) (axb cin : NodeId) : State × Bool :=
  match gateByOut gates .xorGate axb with
  | none => (st, false)
  | some g1 =>
    match g1.in0, g1.in1 with
    | some a, some b =>
      match gateOut gates .andGate a b, gateOut gates .andGate a cin, gateOut gates .andGate b cin with
      | some t1, some t2, some t3 =>
        match gateOut gates .orGate t1 t2 with
        | none => (st, false)
        | some or12 =>
          match gateOut gates .orGate or12 t3 with
          | none => (st, false)
          | some cout =>
            match gateByOut gates .andGate t1, gateByOut gates .andGate t2,
              gateByOut gates .andGate t3, gateByOut gates .orGate or12,
              gateByOut gates .orGate cout with
            | some gt1, some gt2, some gt3, some gor12, some gcout =>
              if ¬ (canDeleteGateOutput nl g2.out ∧ canDeleteGateOutput nl cout) ∨
                  pinCount nl false g2.out = 0 ∨ pinCount nl false t1 ≠ 1 ∨
                  pinCount nl false t2 ≠ 1 ∨ pinCount nl false t3 ≠ 1 ∨
                  pinCount nl false or12 ≠ 1 then (st, false)
              else
                let canDeleteXorAb :=
                  decide (pinCount nl false axb = 1) && canDeleteGateOutput nl axb
                let xorAb := if canDeleteXorAb then [g1] else []
                let (used, ok) :=
                  markUsed st.usedModels ([g2, gt1, gt2, gt3, gor12, gcout] ++ xorAb)
                if ok then
                  ({ st with usedModels := used
                             actions := st.actions ++ [⟨true, a, b, some cin, g2.out, cout,
                               ([g2, gt1, gt2, gt3, gor12, gcout] ++ xorAb).map (·.pos)⟩] }, true)
                else ({ st with usedModels := used }, false)
            | _, _, _, _, _ => (st, false)
      | _, _, _ => (st, false)
    | _, _ => (st, false)

def tryAddFullAdderGeneral (st : State) (g2 : Gate) : State :=
  match g2.k, g2.in0, g2.in1 with
  | .xorGate, some x, some y =>
    let (st, found) := tryFullAdderPick nl gates st g2 x y
    if found then st else (tryFullAdderPick nl gates st g2 y x).1
  | _, _, _ => st

end Search

def findExistingConstNode (v : LogicT) : Option NodeId :=
  nl.normals.findSome? fun m =>
    if m.name = "" ∧ m.kind = .input ∧ m.getAttribute 0 = .digital v then
      match m.pins with
      | [p] => p
      | _ => none
    else none

def findOrMakeConstNode (v : LogicT) : Netlist × NodeId :=
  match findExistingConstNode nl v with
  | some n => (nl, n)
  | none =>
    let (nl, n) := nl.createNode
    let (nl, pos) := nl.addModel ⟨.input, "", [.digital v], [none]⟩
    ((nl.addToNode pos 0 n).1, n)

/-- `try_add_full_adder_cin1`. The counters are those of the netlist `nl` at the start. -/
def tryAddFullAdderCin1 (gates : List Gate) (st : State) (gnot : Gate) : State :=
  match gnot.k, gnot.in0 with
  | .notGate, some x =>
    match gateByOut gates .xorGate x with
    | none => st
    | some gxb =>
      match gxb.in0, gxb.in1 with
      | some a, some b =>
        match gateOut gates .orGate a b with
        | none => st
        | some cnode =>
          match gateByOut gates .orGate cnode with
          | none => st
          | some gor =>
            if ¬ (canDeleteGateOutput nl gnot.out ∧ canDeleteGateOutput nl cnode) ∨
                pinCount nl false gnot.out = 0 ∨ pinCount nl false cnode = 0 then st
            else
              let canDeleteXorAb := decide (pinCount nl false x = 1) && canDeleteGateOutput nl x
              let del := [gnot, gor] ++ if canDeleteXorAb then [gxb] else []
              let (used, ok) := markUsed st.usedModels del
              if ok then
                let (live, cin1) := findOrMakeConstNode st.nl .H
                { nl := live
                  usedModels := used
                  actions := st.actions ++
                    [⟨true, a, b, some cin1, gnot.out, cnode, del.map (·.pos)⟩] }
              else { st with usedModels := used }
      | _, _ => st
  | _, _ => st

/-- `less_desc`, as an order: the models at the end come first. -/
def laterFirst (x y : ModelPos) : Prop :=
  y.chunkPos < x.chunkPos ∨ (x.chunkPos = y.chunkPos ∧ y.vecPos ≤ x.vecPos)

instance : DecidableRel laterFirst := fun _ _ => inferInstanceAs (Decidable (_ ∨ _))

def addAdder (a : Action) : Netlist :=
  let connect (nl : Netlist) (pos : ModelPos) (nodes : List (Option NodeId)) : Netlist :=
    nodes.zipIdx.foldl (fun nl nk => match nk.1 with
      | none => nl
      | some n => (nl.addToNode pos nk.2 n).1) nl
  if a.isFull then
    let (nl, pos) := nl.addModel ⟨.fullAdder, "", [], List.replicate 5 none⟩
    connect nl pos [some a.a, some a.b, a.cin, some a.s, some a.cout]
  else
    let (nl, pos) := nl.addModel ⟨.halfAdder, "", [], List.replicate 4 none⟩
    connect nl pos [some a.a, some a.b, some a.s, some a.cout]

end Adders

open Adders

def optimizeAddersInPeNetlist (nl : Netlist) : Netlist :=
  let gates := collectGates nl
  let st : State := { nl }
  let st := gates.foldl (tryAddFullAdderGeneral nl gates) st
  let st := gates.foldl (tryAddHalfAdder nl gates) st
  let st := gates.foldl (tryAddFullAdderCin1 nl gates) st
  let toDelete := ((st.actions.flatMap (·.del)).insertionSort laterFirst).destutter (· ≠ ·)
  let nl := toDelete.foldl (fun nl p => (nl.deleteModel p).1) st.nl
  st.actions.foldl addAdder nl

end PhyEngine
