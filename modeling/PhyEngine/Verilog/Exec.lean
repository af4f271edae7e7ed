import PhyEngine.Verilog.State

/-!
# Evaluation of expressions and execution of statements

`eval_expr`, `exec_stmt`, `process_due_events` and `apply_nba` of `digital.h`. An execution
collects the state, the flow and whether a blocking assignment changed a value.
-/

namespace PhyEngine.Verilog

open LogicT List ModuleState

def evalNode (nodes : List ExprNode) (values : List LogicT) : Nat → Nat → LogicT
  | 0, _ => .X
  | depth + 1, root =>
    let eval := evalNode nodes values depth
    match nodes[root]? with
    | none => .X
    | some (.literal v) => v
    | some (.signal s) => values.getD s .X
    | some (.isUnknown a) => ofBool (eval a).isUnknown
    | some (.unaryNot a) => logicNot (eval a)
    | some (.binaryAnd a b) => logicAnd (eval a) (eval b)
    | some (.binaryOr a b) => logicOr (eval a) (eval b)
    | some (.binaryXor a b) => logicXor (eval a) (eval b)
    | some (.binaryEq a b) => logicEq (eval a) (eval b)
    | some (.binaryNeq a b) => logicNeq (eval a) (eval b)
    | some (.binaryCaseEq a b) => caseEq (eval a) (eval b)

/-- `eval_expr`. Operands have smaller indices, so the root bounds the depth. -/
def evalExpr (m : CompiledModule) (root : Nat) (values : List LogicT) : LogicT :=
  evalNode m.exprNodes values (root + 1) root

def readsNode (nodes : List ExprNode) : Nat → Nat → List Nat
  | 0, _ => []
  | depth + 1, root =>
    match nodes[root]? with
    | none => []
    | some (.signal s) => [s]
    | some n => n.children.flatMap (readsNode nodes depth)

def exprReads (m : CompiledModule) (root : Nat) : List Nat := readsNode m.exprNodes (root + 1) root

inductive Flow where
  | none
  | ret
  | brk
  | cont
  deriving DecidableEq

structure Exec where
  st : ModuleState
  flow : Flow := .none
  changed : Bool := false

section

variable (m : CompiledModule) (tick : UInt64)

def Assign.event (a : Assign) (dueTick : UInt64) : ScheduledEvent :=
  if a.isVector then
    { dueTick, nonblocking := a.nonblocking, isVector := true, lhsSignals := a.lhs, exprRoots := a.rhs }
  else
    { dueTick, nonblocking := a.nonblocking
      lhsSignal := a.lhs.headD (2 ^ 64 - 1), exprRoot := a.rhs.headD (2 ^ 64 - 1) }

variable (st : ModuleState)

/-- The writes of an assignment, with the right-hand sides evaluated in the state. -/
def sampleWrites (lhs rhs : List Nat) : List (Nat × LogicT) :=
  lhs.zip (rhs.map fun root => evalExpr m root st.values)

def existing (ws : List (Nat × LogicT)) : List (Nat × LogicT) :=
  ws.filter fun w => w.1 < st.values.length

def execAssign (a : Assign) (x : Exec) : Exec :=
  if a.lhs.length ≠ a.rhs.length ∨ a.lhs = [] then x
  else if a.isVector = false ∧ x.st.values.length ≤ a.lhs.headD 0 then x
  else if a.delayTicks ≠ 0 then
    { x with st := { x.st with events := x.st.events ++ [a.event (tick + a.delayTicks)] } }
  else if a.nonblocking then
    { x with st := { x.st with
        nbaQueue := x.st.nbaQueue ++ existing x.st (sampleWrites m x.st a.lhs a.rhs) } }
  else
    let r := x.st.assignAll (sampleWrites m x.st a.lhs a.rhs)
    { x with st := r.1, changed := r.2 || x.changed }

def holds (root : Nat) (st : ModuleState) : Bool :=
  (evalExpr m root st.values).normalizeZToX = .H

def bitMatches : CaseKind → LogicT → LogicT → Bool
  | .normal, a, b => a = b
  | .casez, a, b => a = .Z || b = .Z || a = b
  | .casex, a, b => a.isUnknown || b.isUnknown || a = b

def keyBits (exprRoots : List Nat) (st : ModuleState) : List LogicT :=
  if exprRoots = [] then [.X] else exprRoots.map fun root => evalExpr m root st.values

def itemMatches (ck : CaseKind) (key : List LogicT) (st : ModuleState) (item : CaseItem) : Bool :=
  !item.isDefault && item.matchRoots.length = key.length &&
    (key.zip item.matchRoots).all fun kr => bitMatches ck kr.1 (evalExpr m kr.2 st.values)

/-- The index of the chosen item: the first that matches, else the last default item. -/
def chosenItem (ck : CaseKind) (exprRoots : List Nat) (items : List CaseItem) (st : ModuleState) :
    Option Nat :=
  let key := keyBits m exprRoots st
  (items.findIdx? (itemMatches m ck key st)).or
    ((items.reverse.findIdx? CaseItem.isDefault).map fun i => items.length - 1 - i)

/-- `max_iter` of the procedural loops. -/
def loopLimit : Nat := 4096

/-- The flow tests at the head and after the body of a `while` loop: `none` to leave the
loop, with the flow as it is then. -/
def loopFlow (x : Exec) : Exec × Bool :=
  match x.flow with
  | .ret => (x, false)
  | .brk => ({ x with flow := .none }, false)
  | .cont => ({ x with flow := .none }, true)
  | .none => (x, true)

def whileLoop (cond : Nat) (body : Exec → Exec) : Nat → Exec → Exec
  | 0, x => x
  | iters + 1, x =>
    let (x, go) := loopFlow x
    if !go then x
    else if !holds m cond x.st then x
    else
      let (x, go) := loopFlow (body x)
      if !go then x else whileLoop cond body iters x

def doWhileLoop (cond : Nat) (body : Exec → Exec) : Nat → Exec → Exec
  | 0, x => x
  | iters + 1, x =>
    let (x, go) := loopFlow x
    if !go then x
    else
      let (x, go) := loopFlow (body x)
      if !go then x
      else if !holds m cond x.st then x
      else doWhileLoop cond body iters x

/-- `for_stmt` after its initialisation. A pending `continue` runs the step. -/
def forLoop (cond : Nat) (step body : Exec → Exec) : Nat → Exec → Exec
  | 0, x => x
  | iters + 1, x =>
    match x.flow with
    | .ret => x
    | .brk => { x with flow := .none }
    | .cont => forLoop cond step body iters (step { x with flow := .none })
    | .none =>
      if !holds m cond x.st then x
      else
        let (x, go) := loopFlow (body x)
        if !go then x else forLoop cond step body iters (step x)

/-- The end of a `subprogram_block`: `break` and `continue` go on to the caller, whose flow
was `outer`. -/
def leaveSubprogram (outer : Flow) (x : Exec) : Exec :=
  match x.flow with
  | .brk => { x with flow := .brk }
  | .cont => { x with flow := .cont }
  | _ => { x with flow := outer }

mutual

def execStmt : Stmt → Exec → Exec
  | .empty, x => x
  | .block ss, x => execStmts ss x
  | .subprogramBlock ss, x => leaveSubprogram x.flow (execStmts ss { x with flow := .none })
  | .assign a, x => execAssign m tick a x
  | .ifStmt cond ts es, x => if holds m cond x.st then execStmts ts x else execStmts es x
  | .caseStmt ck roots items, x =>
    match chosenItem m ck roots items x.st with
    | none => x
    | some i => execItems items i x
  | .forStmt init cond step body, x =>
    forLoop m cond (execStmt step) (execStmt body) loopLimit (execStmt init x)
  | .whileStmt cond body, x => whileLoop m cond (execStmt body) loopLimit x
  | .doWhileStmt cond body, x => doWhileLoop m cond (execStmt body) loopLimit x
  | .returnStmt, x => { x with flow := .ret }
  | .breakStmt, x => { x with flow := .brk }
  | .continueStmt, x => { x with flow := .cont }

/-- A list of statements, up to the first that leaves the normal flow. -/
def execStmts : List Stmt → Exec → Exec
  | [], x => x
  | s :: ss, x => if x.flow ≠ .none then x else execStmts ss (execStmt s x)

def execItems : List CaseItem → Nat → Exec → Exec
  | [], _, x => x
  | item :: _, 0, x => execItem item x
  | _ :: items, i + 1, x => execItems items i x

def execItem : CaseItem → Exec → Exec
  | .mk _ _ ss, x => execStmts ss x

end

/-- The roots of a procedural block, each with a flow of its own. -/
def execRoots : List Stmt → ModuleState → ModuleState × Bool
  | [], st => (st, false)
  | root :: roots, st =>
    let x := execStmt m tick root { st }
    let r := execRoots roots x.st
    (r.1, r.2 || x.changed)

def fireEvent (ev : ScheduledEvent) : ModuleState :=
  let (lhs, rhs) := if ev.isVector then (ev.lhsSignals, ev.exprRoots) else ([ev.lhsSignal], [ev.exprRoot])
  if lhs.length ≠ rhs.length then st
  else
    let ws := existing st (sampleWrites m st lhs rhs)
    if ev.nonblocking then { st with nbaQueue := st.nbaQueue ++ ws } else (st.assignAll ws).1

def processDueEvents : ModuleState :=
  let due := st.events.filter fun ev => ev.dueTick ≤ tick
  let keep := st.events.filter fun ev => tick < ev.dueTick
  { due.foldl (fireEvent m) st with events := keep }

def applyNba : ModuleState × Bool :=
  let r := st.assignAll st.nbaQueue
  ({ r.1 with nbaQueue := [] }, r.2)

end

variable {nodes : List ExprNode} {depth root : Nat}

variable {v w : List LogicT}

theorem evalNode_congr (h : ∀ s ∈ readsNode nodes depth root, v.getD s .X = w.getD s .X) :
    evalNode nodes v depth root = evalNode nodes w depth root := by
  induction depth generalizing root with
  | zero => rfl
  | succ depth ih =>
    have hchild {n : ExprNode} (hn : nodes[root]? = some n) (hsig : ∀ s, n ≠ .signal s) (c : Nat)
        (hc : c ∈ n.children) : evalNode nodes v depth c = evalNode nodes w depth c := by
      refine ih fun s hs => h s ?_
      have hreads : readsNode nodes (depth + 1) root =
          n.children.flatMap (readsNode nodes depth) := by
        rw [readsNode, hn]
        cases n <;> first | rfl | exact absurd rfl (hsig _)
      rw [hreads]
      exact mem_flatMap.mpr ⟨c, hc, hs⟩
    cases hn : nodes[root]? with
    | none => simp [evalNode, hn]
    | some n =>
      cases n with
      | literal v => simp [evalNode, hn]
      | signal s =>
        have hs := h s (by simp [readsNode, hn])
        simp only [evalNode, hn]
        exact hs
      | isUnknown a | unaryNot a =>
        have ha := hchild hn (by simp) a (by simp [ExprNode.children])
        simp only [evalNode, hn, ha]
      | binaryAnd a b | binaryOr a b | binaryXor a b | binaryEq a b | binaryNeq a b
      | binaryCaseEq a b =>
        have ha := hchild hn (by simp) a (by simp [ExprNode.children])
        have hb := hchild hn (by simp) b (by simp [ExprNode.children])
        simp only [evalNode, hn, ha, hb]

def ExprNode.combine (values : List LogicT) (eval : Nat → LogicT) : ExprNode → LogicT
  | .literal v => v
  | .signal s => values.getD s .X
  | .isUnknown a => ofBool (eval a).isUnknown
  | .unaryNot a => logicNot (eval a)
  | .binaryAnd a b => logicAnd (eval a) (eval b)
  | .binaryOr a b => logicOr (eval a) (eval b)
  | .binaryXor a b => logicXor (eval a) (eval b)
  | .binaryEq a b => logicEq (eval a) (eval b)
  | .binaryNeq a b => logicNeq (eval a) (eval b)
  | .binaryCaseEq a b => LogicT.caseEq (eval a) (eval b)

variable {n : ExprNode}

theorem ExprNode.combine_congr {values : List LogicT} {f g : Nat → LogicT}
    (h : ∀ c ∈ n.children, f c = g c) : n.combine values f = n.combine values g := by
  cases n with
  | literal v => rfl
  | signal s => rfl
  | isUnknown a | unaryNot a =>
    dsimp only [ExprNode.combine]
    rw [h a (by simp [ExprNode.children])]
  | binaryAnd a b | binaryOr a b | binaryXor a b | binaryEq a b | binaryNeq a b | binaryCaseEq a b =>
    dsimp only [ExprNode.combine]
    rw [h a (by simp [ExprNode.children]), h b (by simp [ExprNode.children])]

theorem evalNode_succ {values : List LogicT} (hn : nodes[root]? = some n) :
    evalNode nodes values (depth + 1) root = n.combine values (evalNode nodes values depth) := by
  rw [evalNode, hn]
  cases n <;> rfl

def OperandsFirst (nodes : List ExprNode) : Prop :=
  ∀ (i : Nat) (n : ExprNode), nodes[i]? = some n → ∀ c ∈ n.children, c < i

theorem OperandsFirst.evalNode_eq {nodes' : List ExprNode} (hord : OperandsFirst nodes) (hpre : nodes <+: nodes')
    (values : List LogicT) {depth' r : Nat} (hr : r < nodes.length) (h : r < depth) (h' : r < depth') :
    evalNode nodes' values depth r = evalNode nodes values depth' r := by
  induction depth generalizing depth' r with
  | zero => omega
  | succ depth ih =>
    obtain ⟨depth', rfl⟩ : ∃ d, depth' = d + 1 := ⟨depth' - 1, by omega⟩
    have hn : nodes[r]? = some nodes[r] := getElem?_eq_getElem hr
    have hn' : nodes'[r]? = some nodes[r] := by
      obtain ⟨t, rfl⟩ := hpre
      rw [getElem?_append_left hr, hn]
    rw [evalNode_succ hn, evalNode_succ hn']
    refine ExprNode.combine_congr fun c hc => ?_
    have hlt := hord r _ hn c hc
    exact ih (by omega) (by omega) (by omega)

theorem evalExpr_congr {m : CompiledModule} (h : ∀ s ∈ exprReads m root, v.getD s .X = w.getD s .X) :
    evalExpr m root v = evalExpr m root w := evalNode_congr h

/-- A relation that a sequence of steps of an execution may establish. -/
structure StepRel (R : Exec → Exec → Prop) : Prop where
  refl : ∀ x, R x x
  trans : ∀ x y z, R x y → R y z → R x z
  flow : ∀ x f, R x { x with flow := f }

namespace StepRel

variable {m : CompiledModule} {tick : UInt64} {R : Exec → Exec → Prop}

section Loops

variable (hR : StepRel R)
include hR

theorem loopFlow (x : Exec) : R x (loopFlow x).1 := by
  unfold Verilog.loopFlow
  split
  · exact hR.refl x
  · exact hR.flow x _
  · exact hR.flow x _
  · exact hR.refl x

variable {cond : Nat} {body : Exec → Exec}

theorem whileLoop (hb : ∀ x, R x (body x)) (iters : Nat) (x : Exec) :
    R x (whileLoop m cond body iters x) := by
  induction iters generalizing x with
  | zero => exact hR.refl x
  | succ iters ih =>
    have hhead := hR.loopFlow x
    have hbody := hR.trans _ _ _ (hb (Verilog.loopFlow x).1) (hR.loopFlow (body (Verilog.loopFlow x).1))
    unfold Verilog.whileLoop
    dsimp only
    split
    · exact hhead
    split
    · exact hhead
    split
    · exact hR.trans _ _ _ hhead hbody
    · exact hR.trans _ _ _ hhead (hR.trans _ _ _ hbody (ih _))

theorem doWhileLoop (hb : ∀ x, R x (body x)) (iters : Nat) (x : Exec) : R x (doWhileLoop m cond body iters x) := by
  induction iters generalizing x with
  | zero => exact hR.refl x
  | succ iters ih =>
    have hhead := hR.loopFlow x
    have hbody := hR.trans _ _ _ (hb (Verilog.loopFlow x).1) (hR.loopFlow (body (Verilog.loopFlow x).1))
    unfold Verilog.doWhileLoop
    dsimp only
    split
    · exact hhead
    split
    · exact hR.trans _ _ _ hhead hbody
    split
    · exact hR.trans _ _ _ hhead hbody
    · exact hR.trans _ _ _ hhead (hR.trans _ _ _ hbody (ih _))

theorem forLoop {step : Exec → Exec} (hs : ∀ x, R x (step x)) (hb : ∀ x, R x (body x)) (iters : Nat) (x : Exec) :
    R x (forLoop m cond step body iters x) := by
  induction iters generalizing x with
  | zero => exact hR.refl x
  | succ iters ih =>
    have hbody := hR.trans _ _ _ (hb x) (hR.loopFlow (body x))
    unfold Verilog.forLoop
    split
    · exact hR.refl x
    · exact hR.flow x _
    · exact hR.trans _ _ _ (hR.flow x _) (hR.trans _ _ _ (hs _) (ih _))
    · split
      · exact hR.refl x
      · dsimp only
        split
        · exact hbody
        · exact hR.trans _ _ _ hbody (hR.trans _ _ _ (hs _) (ih _))

end Loops

mutual

/-- If every assignment of a statement establishes `R`, so does the statement. -/
theorem execStmt (hR : StepRel R) (s : Stmt) (ha : ∀ a ∈ s.assigns, ∀ x, R x (execAssign m tick a x)) (x : Exec) :
    R x (execStmt m tick s x) := by
  match s with
  | .empty => exact hR.refl x
  | .block ss => exact hR.execStmts ss ha x
  | .subprogramBlock ss =>
    have hss := hR.execStmts ss ha { x with flow := .none }
    have hleave (y : Exec) : R y (leaveSubprogram x.flow y) := by
      unfold leaveSubprogram
      split
      · exact hR.flow y _
      · exact hR.flow y _
      · exact hR.flow y _
    exact hR.trans _ _ _ (hR.flow x _) (hR.trans _ _ _ hss (hleave _))
  | .assign a => exact ha a (by simp [Stmt.assigns]) x
  | .ifStmt cond ts es =>
    simp only [Verilog.execStmt]
    split
    · exact hR.execStmts ts (fun a hm => ha a (by simp [Stmt.assigns, hm])) x
    · exact hR.execStmts es (fun a hm => ha a (by simp [Stmt.assigns, hm])) x
  | .caseStmt ck roots items =>
    simp only [Verilog.execStmt]
    split
    · exact hR.refl x
    · exact hR.execItems items ha _ x
  | .forStmt init cond step body =>
    have hi := hR.execStmt init (fun a hm => ha a (by simp [Stmt.assigns, hm]))
    have hs := hR.execStmt step (fun a hm => ha a (by simp [Stmt.assigns, hm]))
    have hb := hR.execStmt body (fun a hm => ha a (by simp [Stmt.assigns, hm]))
    exact hR.trans _ _ _ (hi x) (hR.forLoop hs hb _ _)
  | .whileStmt cond body => exact hR.whileLoop (hR.execStmt body ha) _ x
  | .doWhileStmt cond body => exact hR.doWhileLoop (hR.execStmt body ha) _ x
  | .returnStmt => exact hR.flow x _
  | .breakStmt => exact hR.flow x _
  | .continueStmt => exact hR.flow x _

theorem execStmts (hR : StepRel R) (ss : List Stmt)
    (ha : ∀ a ∈ Stmt.assignsOfList ss, ∀ x, R x (execAssign m tick a x)) (x : Exec) :
    R x (execStmts m tick ss x) := by
  match ss with
  | [] => exact hR.refl x
  | s :: ss =>
    have hs := hR.execStmt s (fun a hm => ha a (by simp [Stmt.assignsOfList, hm]))
    have hss := hR.execStmts ss (fun a hm => ha a (by simp [Stmt.assignsOfList, hm]))
    simp only [Verilog.execStmts]
    split
    · exact hR.refl x
    · exact hR.trans _ _ _ (hs x) (hss _)

theorem execItems (hR : StepRel R) (items : List CaseItem)
    (ha : ∀ a ∈ Stmt.assignsOfItems items, ∀ x, R x (execAssign m tick a x)) (i : Nat) (x : Exec) :
    R x (execItems m tick items i x) := by
  match items, i with
  | [], _ => exact hR.refl x
  | item :: _, 0 => exact hR.execItem item (fun a hm => ha a (by simp [Stmt.assignsOfItems, hm])) x
  | _ :: items, i + 1 =>
    exact hR.execItems items (fun a hm => ha a (by simp [Stmt.assignsOfItems, hm])) i x

theorem execItem (hR : StepRel R) (item : CaseItem)
    (ha : ∀ a ∈ Stmt.assignsOfItem item, ∀ x, R x (execAssign m tick a x)) (x : Exec) :
    R x (execItem m tick item x) := by
  match item with
  | .mk _ _ ss => exact hR.execStmts ss ha x

end

end StepRel

def ScheduledEvent.targets (ev : ScheduledEvent) : List Nat :=
  if ev.isVector then ev.lhsSignals else [ev.lhsSignal]

theorem exists_fireEvent (m : CompiledModule) (st : ModuleState) (ev : ScheduledEvent) :
    ∃ rhs, fireEvent m st ev = if ev.targets.length ≠ rhs.length then st
      else if ev.nonblocking then
        { st with nbaQueue := st.nbaQueue ++ existing st (sampleWrites m st ev.targets rhs) }
      else (st.assignAll (existing st (sampleWrites m st ev.targets rhs))).1 := by
  unfold fireEvent ScheduledEvent.targets
  cases ev.isVector <;> exact ⟨_, rfl⟩

theorem fireEvent_of_assign (m : CompiledModule) (a : Assign) (due : UInt64) (st : ModuleState) :
    fireEvent m st (a.event due) =
      if a.lhs.length ≠ a.rhs.length then st
      else if a.nonblocking then
        { st with nbaQueue := st.nbaQueue ++ existing st (sampleWrites m st a.lhs a.rhs) }
      else (st.assignAll (existing st (sampleWrites m st a.lhs a.rhs))).1 := by
  unfold fireEvent Assign.event
  cases hv : a.isVector with
  | true => rfl
  | false =>
    obtain ⟨s, hs⟩ := length_eq_one_iff.mp (a.scalar hv).1
    obtain ⟨r, hr⟩ := length_eq_one_iff.mp (a.scalar hv).2
    rw [hs, hr]
    rfl

theorem targets_event {a : Assign} {due : UInt64} {s : Nat} (h : s ∈ (a.event due).targets) :
    s ∈ a.lhs := by
  by_cases hv : a.isVector
  · simpa [Assign.event, ScheduledEvent.targets, hv] using h
  · obtain ⟨y, hy⟩ := length_eq_one_iff.mp (a.scalar (by simpa using hv)).1
    simpa [Assign.event, ScheduledEvent.targets, hv, hy] using h

/-- From `st` to `st'`, only signals in `T` were written or queued, and only signals in `E`
scheduled. -/
structure StateFrame (T E : Nat → Prop) (st st' : ModuleState) : Prop where
  length : st'.values.length = st.values.length
  prevValues : st'.prevValues = st.prevValues
  get : ∀ s, ¬ T s → st'.get s = st.get s
  nba : ∃ ws, st'.nbaQueue = st.nbaQueue ++ ws ∧ ∀ w ∈ ws, T w.1
  events : ∀ ev ∈ st'.events, ev ∈ st.events ∨ ∀ s ∈ ev.targets, E s

namespace StateFrame

variable {T E : Nat → Prop}

variable (st : ModuleState)

theorem refl : StateFrame T E st st :=
  ⟨rfl, rfl, fun _ _ => rfl, ⟨[], by simp⟩, fun _ h => Or.inl h⟩

variable {a b : ModuleState}

theorem trans {c : ModuleState} (h : StateFrame T E a b) (h' : StateFrame T E b c) :
    StateFrame T E a c := by
  refine ⟨h'.length.trans h.length, h'.prevValues.trans h.prevValues,
    fun s hs => (h'.get s hs).trans (h.get s hs), ?_, ?_⟩
  · obtain ⟨ws, hws, hT⟩ := h.nba
    obtain ⟨ws', hws', hT'⟩ := h'.nba
    refine ⟨ws ++ ws', by rw [hws', hws, append_assoc], ?_⟩
    intro w hw
    exact (mem_append.mp hw).elim (hT w) (hT' w)
  · intro ev hev
    rcases h'.events ev hev with hev | hev
    · exact h.events ev hev
    · exact Or.inr hev

theorem mono {T' E' : Nat → Prop} (hT : ∀ s, T s → T' s) (hE : ∀ s, E s → E' s)
    (h : StateFrame T E a b) : StateFrame T' E' a b := by
  obtain ⟨ws, hws, hmem⟩ := h.nba
  refine ⟨h.length, h.prevValues, fun s hs => h.get s (fun ht => hs (hT s ht)),
    ⟨ws, hws, fun w hw => hT _ (hmem w hw)⟩, ?_⟩
  intro ev hev
  exact (h.events ev hev).imp_right fun hs s hmem => hE s (hs s hmem)

variable {ws : List (Nat × LogicT)}

theorem assignAll (h : ∀ w ∈ ws, T w.1) :
    StateFrame T E st (st.assignAll ws).1 := by
  obtain ⟨hlen, hprev, -, -, -, -, hev, hnba, -, -⟩ := sameBut_assignAll st ws
  refine ⟨hlen, hprev, ?_, ⟨[], by simp [hnba]⟩, ?_⟩
  · intro s hs
    have hnot : s ∉ ws.map Prod.fst := by
      intro hmem
      obtain ⟨w, hw, rfl⟩ := mem_map.mp hmem
      exact hs (h w hw)
    rw [get_assignAll, written_of_not_mem hnot]
    by_cases hlt : s < st.values.length
    · simp [hlt]
    · simp [hlt, ModuleState.get]
  · intro ev hev'
    exact Or.inl (hev ▸ hev')

theorem queue (h : ∀ w ∈ ws, T w.1) :
    StateFrame T E st { st with nbaQueue := st.nbaQueue ++ ws } :=
  ⟨rfl, rfl, fun _ _ => rfl, ⟨ws, rfl, h⟩, fun _ hev => Or.inl hev⟩

theorem foldl {β : Type} {f : ModuleState → β → ModuleState} {xs : List β}
    (h : ∀ x ∈ xs, ∀ st, StateFrame T E st (f st x)) (st : ModuleState) :
    StateFrame T E st (xs.foldl f st) := by
  induction xs generalizing st with
  | nil => exact refl st
  | cons x xs ih =>
    exact (h x mem_cons_self st).trans (ih (fun y hy => h y (mem_cons_of_mem _ hy)) _)

end StateFrame

section Frame

variable {m : CompiledModule} {tick : UInt64} {T E : Nat → Prop}

variable {st : ModuleState}

theorem mem_sampleWrites {lhs rhs : List Nat} {w : Nat × LogicT}
    (h : w ∈ sampleWrites m st lhs rhs) : w.1 ∈ lhs := (of_mem_zip h).1

/-- The signals that assignments without delay write, at once or when the queue is applied. -/
def Stmt.immediate (ss : List Stmt) : List Nat := ((Stmt.assignsOfList ss).filter (·.delayTicks = 0)).flatMap (·.lhs)

variable {ss : List Stmt}

theorem Stmt.targets_of_immediate {s : Nat} (h : s ∈ Stmt.immediate ss) : s ∈ Stmt.targets ss := by
  obtain ⟨a, ha, hs⟩ := mem_flatMap.mp h
  exact mem_flatMap.mpr ⟨a, (mem_filter.mp ha).1, hs⟩

theorem frame_execAssign {a : Assign} (h : a.delayTicks = 0 → ∀ s ∈ a.lhs, T s)
    (hE : a.delayTicks ≠ 0 → ∀ s ∈ a.lhs, E s) (x : Exec) :
    StateFrame T E x.st (execAssign m tick a x).st := by
  unfold execAssign
  split
  · exact StateFrame.refl _
  split
  · exact StateFrame.refl _
  split
  · rename_i hdelay
    refine ⟨rfl, rfl, fun _ _ => rfl, ⟨[], by simp⟩, ?_⟩
    intro ev hev
    rcases mem_append.mp hev with hev | hev
    · exact Or.inl hev
    · right
      rw [mem_singleton] at hev
      subst hev
      exact fun s hs => hE hdelay s (targets_event hs)
  rename_i hdelay
  have hnow := h (not_not.mp hdelay)
  split
  · exact StateFrame.queue x.st fun w hw => hnow _ (mem_sampleWrites (mem_of_mem_filter hw))
  · exact StateFrame.assignAll x.st fun w hw => hnow _ (mem_sampleWrites hw)

theorem stepRel_frame : StepRel fun x y => StateFrame T E x.st y.st where
  refl := fun x => StateFrame.refl x.st
  trans := fun _ _ _ h h' => h.trans h'
  flow := fun x _ => StateFrame.refl x.st

theorem frame_execStmt {s : Stmt} (h : ∀ a ∈ s.assigns, a.delayTicks = 0 → ∀ t ∈ a.lhs, T t)
    (hE : ∀ a ∈ s.assigns, a.delayTicks ≠ 0 → ∀ t ∈ a.lhs, E t) (x : Exec) :
    StateFrame T E x.st (execStmt m tick s x).st :=
  stepRel_frame.execStmt s (fun a ha x => frame_execAssign (h a ha) (hE a ha) x) x

theorem frame_execRoots (h : ∀ t ∈ Stmt.immediate ss, T t)
    (hE : ∀ t ∈ Stmt.delayed ss, E t) (st : ModuleState) :
    StateFrame T E st (execRoots m tick ss st).1 := by
  have hT : ∀ a ∈ Stmt.assignsOfList ss, a.delayTicks = 0 → ∀ t ∈ a.lhs, T t :=
    fun a ha hd t ht => h t (mem_flatMap.mpr ⟨a, mem_filter.mpr ⟨ha, by simpa using hd⟩, ht⟩)
  have hE' : ∀ a ∈ Stmt.assignsOfList ss, a.delayTicks ≠ 0 → ∀ t ∈ a.lhs, E t :=
    fun a ha hd t ht => hE t (mem_flatMap.mpr ⟨a, mem_filter.mpr ⟨ha, by simpa using hd⟩, ht⟩)
  clear h hE
  induction ss generalizing st with
  | nil => exact StateFrame.refl st
  | cons s ss ih =>
    simp only [Stmt.assignsOfList, mem_append] at hT hE'
    have hs : StateFrame T E st (execStmt m tick s { st }).st :=
      frame_execStmt (fun a ha => hT a (Or.inl ha)) (fun a ha => hE' a (Or.inl ha)) { st }
    exact hs.trans (ih _ (fun a ha => hT a (Or.inr ha)) fun a ha => hE' a (Or.inr ha))

/-- Blocks schedule the events of their own delayed assignments. -/
theorem events_execRoots {P : ScheduledEvent → Prop}
    (h : ∀ a ∈ Stmt.assignsOfList ss, a.delayTicks ≠ 0 → ∀ due, P (a.event due)) (st : ModuleState) :
    ∀ ev ∈ (execRoots m tick ss st).1.events, ev ∈ st.events ∨ P ev := by
  have hrel : StepRel fun x y => ∀ ev ∈ y.st.events, ev ∈ x.st.events ∨ P ev :=
    ⟨fun _ _ => .inl, fun _ _ _ h h' ev hev => (h' ev hev).elim (h ev) .inr, fun _ _ _ => .inl⟩
  have hassign {a : Assign} (ha : a.delayTicks ≠ 0 → ∀ due, P (a.event due)) (x : Exec) :
      ∀ ev ∈ (execAssign m tick a x).st.events, ev ∈ x.st.events ∨ P ev := by
    intro ev hev
    rw [execAssign] at hev
    split_ifs at hev with hlen hout hdelay hnb
    · exact .inl hev
    · exact .inl hev
    · rcases mem_append.mp hev with hev | hev
      · exact .inl hev
      · obtain rfl := mem_singleton.mp hev
        exact .inr (ha hdelay _)
    · exact .inl hev
    · exact .inl ((sameBut_assignAll _ _).events ▸ hev)
  induction ss generalizing st with
  | nil => exact fun ev => .inl
  | cons s ss ih =>
    simp only [Stmt.assignsOfList, mem_append] at h
    intro ev hev
    exact (ih (fun a ha => h a (.inr ha)) _ ev hev).elim
      (hrel.execStmt s (fun a ha x => hassign (h a (.inl ha)) x) { st } ev) .inr

theorem frame_fireEvent {ev : ScheduledEvent} (h : ∀ s ∈ ev.targets, T s) (st : ModuleState) :
    StateFrame T E st (fireEvent m st ev) := by
  obtain ⟨rhs, heq⟩ := exists_fireEvent m st ev
  rw [heq]
  split
  · exact StateFrame.refl st
  split
  · exact StateFrame.queue st fun w hw => h _ (mem_sampleWrites (mem_of_mem_filter hw))
  · exact StateFrame.assignAll st fun w hw => h _ (mem_sampleWrites (mem_of_mem_filter hw))

theorem frame_processDueEvents (h : ∀ ev ∈ st.events, ∀ s ∈ ev.targets, T s) :
    StateFrame T E st (processDueEvents m tick st) := by
  have hfold : StateFrame T E st ((st.events.filter fun ev => ev.dueTick ≤ tick).foldl (fireEvent m) st) :=
    StateFrame.foldl (fun ev hev st' => frame_fireEvent (h ev (mem_of_mem_filter hev)) st') st
  obtain ⟨hlen, hprev, hget, hnba, -⟩ := hfold
  exact ⟨hlen, hprev, hget, hnba, fun ev hev => Or.inl (mem_of_mem_filter hev)⟩

end Frame

end PhyEngine.Verilog
