import PhyEngine.Circuit.Devices
import PhyEngine.Netlist.Copy

/-!
# The digital engine

The digital side of `circult` in `circuits/circuit.h`. The update tables are sets of pointers;
where the objects lie in memory is part of the `Board`, so that nodes and pins are visited in any
order.
-/

namespace PhyEngine

inductive AnalyzeType where
  | OP
  | DC
  | AC
  | ACOP
  | TR
  | TROP
  deriving DecidableEq

/-- A netlist in memory: the address of each node and the pins of each node in the order of
their addresses. -/
structure Board where
  nl : Netlist
  nodeAddr : NodeId → Nat
  pinOrder : NodeId → List PinRef

namespace Board

variable (b : Board)

def modelAt (id : Nat) : Option Model :=
  (b.nl.bases.find? fun x => decide (x.id = id)).map (·.model)

def isAnalog (n : NodeId) : Bool :=
  ((b.nl.node? n).map fun nd => decide (nd.numOfAnalogNode ≠ 0)).getD false

def isDigital (n : NodeId) : Bool :=
  match n with
  | .ground => false
  | .node i => ((b.nl.nodes[i]?).map fun nd =>
      decide (nd.numOfAnalogNode = 0) && decide (nd.pins ≠ ∅)).getD false

def hybridNodes : List NodeId :=
  (b.nl.nodes.zipIdx.filter fun ni => decide (ni.1.numOfAnalogNode ≠ 0) &&
    decide (ni.1.numOfAnalogNode.toNat ≠ ni.1.pins.card)).map fun ni => .node ni.2

def modelsWith (method : DigitalUpdateMethod) : List Nat :=
  (b.nl.bases.filter fun x => decide (x.model.kind.deviceType = .digital) &&
    decide (x.model.kind.digitalUpdateMethod = method)).map (·.id)

end Board

structure Circult where
  board : Board
  analyzeType : AnalyzeType
  state : NodeId → LogicT
  voltage : NodeId → Float
  clip : Nat → Clip
  alwaysTables : List NodeId := []
  tables : List NodeId := []
  digitalOut : List AnalogDrive := []
  beforeAllClk : List Nat := []
  afterAllClk : List Nat := []
  trDuration : Float := 0.0
  hasPrepare : Bool := false

namespace Circult

def view (c : Circult) (n : NodeId) : NodeView := ⟨c.board.isAnalog n, c.voltage n, c.state n⟩

def enter (c : Circult) (n : NodeId) : Circult :=
  { c with tables := if n ∈ c.tables then c.tables
      else c.tables.orderedInsert (fun a b => c.board.nodeAddr a ≤ c.board.nodeAddr b) n }

def store (c : Circult) : Store → Circult
  | .write n v enter =>
    let c := { c with state := Function.update c.state n v }
    if enter then c.enter n else c
  | .update n v =>
    if c.state n = v then c
    else { c with state := Function.update c.state n v }.enter n

def updateModel (method : DigitalUpdateMethod) (c : Circult) (id : Nat) : Circult :=
  match c.board.modelAt id with
  | none => c
  | some m =>
    if m.kind.deviceType = .digital then
      let r := updateDigitalClk c.view c.trDuration method m (c.clip id)
      let c := r.stores.foldl store c
      { c with clip := Function.update c.clip id r.clip
               digitalOut := c.digitalOut ++ r.drive.toList }
    else c

/-- One round of the settle loop on a node taken out of the table. -/
def processNode (n : NodeId) (c : Circult) : Circult :=
  (c.board.pinOrder n).foldl (fun c p => c.updateModel .updateTable p.id)
    { c with tables := c.tables.filter fun m => m ≠ n }

def settleLoop : Nat → Circult → Circult
  | 0, c => c
  | k + 1, c =>
    match c.tables with
    | [] => c
    | n :: _ => settleLoop k (c.processNode n)

def iterBudget : Nat := 10000000

def beforeDigitalClk (c : Circult) : Circult :=
  c.beforeAllClk.foldl (updateModel .beforeAllClk) c

/-- The nodes that must be processed in every tick enter the table. -/
def seedTables (c : Circult) : Circult := c.alwaysTables.foldl enter c

def updateTableDigitalClk (c : Circult) : Circult := settleLoop iterBudget c.seedTables

def afterTableDigitalClk (c : Circult) : Circult :=
  c.afterAllClk.foldl (updateModel .afterAllClk) c

def digitalClk (c : Circult) : Circult :=
  { c with digitalOut := [] }.beforeDigitalClk.updateTableDigitalClk.afterTableDigitalClk

/-- `prepare`: node states are written only on the first call after a `reset`. -/
def prepare (c : Circult) : Circult :=
  { c with
    alwaysTables := c.board.hybridNodes.foldl
      (fun t n => t.orderedInsert (fun a b => c.board.nodeAddr a ≤ c.board.nodeAddr b) n) []
    tables := []
    state := fun n => if c.hasPrepare = false ∧ c.board.isDigital n then .X else c.state n
    beforeAllClk := c.board.modelsWith .beforeAllClk
    afterAllClk := c.board.modelsWith .afterAllClk
    clip := fun id => match c.board.modelAt id with
      | some m =>
        if c.hasPrepare = false ∧ c.analyzeType = .TR ∧ m.kind.hasPrepareTr then (c.clip id).prepareTr
        else c.clip id
      | none => c.clip id
    hasPrepare := true }

def reset (c : Circult) : Circult :=
  { c with
    trDuration := 0.0
    digitalOut := []
    alwaysTables := []
    tables := []
    voltage := fun n => if c.hasPrepare ∧ c.board.isAnalog n then 0.0 else c.voltage n
    hasPrepare := false }

def setInput (c : Circult) (id : Nat) (v : LogicT) : Circult :=
  match c.board.modelAt id with
  | some m =>
    if m.kind = .input then
      { c with clip := Function.update c.clip id { c.clip id with outputA := v } }
    else c
  | none => c

theorem processNode_eq_foldl (c : Circult) (n : NodeId) :
    c.processNode n = ((c.board.pinOrder n).map (·.id)).foldl (updateModel .updateTable)
      { c with tables := c.tables.filter fun m => m ≠ n } := by
  rw [processNode, List.foldl_map]

@[simp] theorem enter_board (c : Circult) (n : NodeId) : (c.enter n).board = c.board := rfl

@[simp] theorem enter_state (c : Circult) (n : NodeId) : (c.enter n).state = c.state := rfl

@[simp] theorem enter_clip (c : Circult) (n : NodeId) : (c.enter n).clip = c.clip := rfl

variable {c : Circult}

@[simp] theorem mem_enter_tables {n m : NodeId} :
    m ∈ (c.enter n).tables ↔ m = n ∨ m ∈ c.tables := by
  simp only [enter]
  split
  · rename_i hn
    constructor
    · exact Or.inr
    · rintro (rfl | hm)
      · exact hn
      · exact hm
  · exact List.mem_orderedInsert _

/-- The members no step of a tick changes. -/
structure SameSetup (c c' : Circult) : Prop where
  board : c'.board = c.board
  voltage : c'.voltage = c.voltage
  trDuration : c'.trDuration = c.trDuration
  analyzeType : c'.analyzeType = c.analyzeType
  beforeAllClk : c'.beforeAllClk = c.beforeAllClk
  afterAllClk : c'.afterAllClk = c.afterAllClk
  alwaysTables : c'.alwaysTables = c.alwaysTables
  hasPrepare : c'.hasPrepare = c.hasPrepare

namespace SameSetup

theorem refl (c : Circult) : SameSetup c c := ⟨rfl, rfl, rfl, rfl, rfl, rfl, rfl, rfl⟩

theorem trans {d e : Circult} (h : SameSetup c d) (k : SameSetup d e) : SameSetup c e where
  board := k.board.trans h.board
  voltage := k.voltage.trans h.voltage
  trDuration := k.trDuration.trans h.trDuration
  analyzeType := k.analyzeType.trans h.analyzeType
  beforeAllClk := k.beforeAllClk.trans h.beforeAllClk
  afterAllClk := k.afterAllClk.trans h.afterAllClk
  alwaysTables := k.alwaysTables.trans h.alwaysTables
  hasPrepare := k.hasPrepare.trans h.hasPrepare

theorem foldl {β : Type} (f : Circult → β → Circult) (hf : ∀ c x, SameSetup c (f c x)) (xs : List β) :
    ∀ c, SameSetup c (xs.foldl f c) := by
  induction xs with
  | nil => exact fun c => refl c
  | cons x xs ih => exact fun c => (hf c x).trans (ih _)

end SameSetup

theorem sameSetup_enter (c : Circult) (n : NodeId) : SameSetup c (c.enter n) :=
  ⟨rfl, rfl, rfl, rfl, rfl, rfl, rfl, rfl⟩

theorem sameSetup_store (c : Circult) (w : Store) : SameSetup c (c.store w) := by
  cases w with
  | write n v e =>
    simp only [store]
    split
    · exact ⟨rfl, rfl, rfl, rfl, rfl, rfl, rfl, rfl⟩
    · exact ⟨rfl, rfl, rfl, rfl, rfl, rfl, rfl, rfl⟩
  | update n v =>
    simp only [store]
    split
    · exact .refl c
    · exact ⟨rfl, rfl, rfl, rfl, rfl, rfl, rfl, rfl⟩

theorem sameSetup_updateModel (method : DigitalUpdateMethod) (c : Circult) (id : Nat) :
    SameSetup c (c.updateModel method id) := by
  simp only [updateModel]
  split
  · exact .refl c
  · rename_i m _
    split
    · have h := SameSetup.foldl store sameSetup_store
        (updateDigitalClk c.view c.trDuration method m (c.clip id)).stores c
      exact h.trans ⟨rfl, rfl, rfl, rfl, rfl, rfl, rfl, rfl⟩
    · exact .refl c

theorem sameSetup_processNode (n : NodeId) (c : Circult) : SameSetup c (c.processNode n) := by
  have herase : SameSetup c { c with tables := c.tables.filter fun m => m ≠ n } :=
    ⟨rfl, rfl, rfl, rfl, rfl, rfl, rfl, rfl⟩
  exact herase.trans (.foldl _ (fun c (p : PinRef) => sameSetup_updateModel .updateTable c p.id) _ _)

theorem sameSetup_settleLoop (k : Nat) : ∀ c, SameSetup c (settleLoop k c) := by
  induction k with
  | zero => exact fun c => .refl c
  | succ k ih =>
    intro c
    simp only [settleLoop]
    split
    · exact .refl c
    · exact (sameSetup_processNode _ c).trans (ih _)

theorem sameSetup_digitalClk (c : Circult) : SameSetup c c.digitalClk := by
  have hclear : SameSetup c { c with digitalOut := [] } := ⟨rfl, rfl, rfl, rfl, rfl, rfl, rfl, rfl⟩
  have hbefore := SameSetup.foldl (updateModel .beforeAllClk) (sameSetup_updateModel _)
    c.beforeAllClk { c with digitalOut := [] }
  have hseed := SameSetup.foldl enter sameSetup_enter
    { c with digitalOut := [] }.beforeDigitalClk.alwaysTables { c with digitalOut := [] }.beforeDigitalClk
  exact ((((hclear.trans hbefore).trans hseed).trans (sameSetup_settleLoop _ _))).trans
    (.foldl _ (sameSetup_updateModel _) _ _)

end Circult

end PhyEngine
