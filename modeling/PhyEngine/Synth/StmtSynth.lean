import PhyEngine.Synth.Gates

/-!
# Synthesis of procedural code

`synth_stmt_ff` and `synth_stmt_comb`: symbolic execution over two vectors of nodes. Branches are
merged by multiplexers, loops are unrolled. The two differ in what an assignment does and in what
a merge touches (`StmtOps`).
-/

namespace PhyEngine.Verilog

/-- The fields of `pe_synth_options` that statements use. -/
structure StmtOptions where
  assumeBinaryInputs : Bool := false
  loopUnrollLimit : Nat := 64
  deriving DecidableEq

/-- `cur` and `next`, or `value` and `assigned_cond`. -/
structure SynthEnv where
  cur : List Nat
  aux : List Nat
  deriving DecidableEq

/-- What the two kinds of blocks do differently. -/
structure StmtOps where
  assign : Assign → SynthEnv → SynthM SynthEnv
  merge : Nat → SynthEnv → SynthEnv → SynthEnv → SynthM SynthEnv

def collectAssignedSignals (m : CompiledModule) (roots : List Stmt) : List Bool :=
  (List.range m.signalNames.length).map fun s => s ∈ Stmt.targets roots

section

variable (m : CompiledModule) (opt : StmtOptions)

/-- The condition of an `if` or a loop: high exactly if the expression is high. -/
def condNode (root : Nat) (env : SynthEnv) : SynthM Nat := do
  let raw ← exprInEnv m opt.assumeBinaryInputs env.cur root
  let one ← constNode .H
  gateCaseEq raw one

def bitMatch (ck : CaseKind) (z a b : Nat) : SynthM Nat := do
  let eq ← gateCaseEq a b
  match ck with
  | .normal => pure eq
  | .casez => do
    let az ← gateCaseEq a z
    let bz ← gateCaseEq b z
    let either ← gateOr az bz
    gateOr eq either
  | .casex => do
    let ua ← gateIsUnknown opt.assumeBinaryInputs a
    let ub ← gateIsUnknown opt.assumeBinaryInputs b
    let either ← gateOr ua ub
    gateOr eq either

def matchBits (ck : CaseKind) (z : Nat) (cur : List Nat) : List (Nat × Nat) → Nat → SynthM Nat
  | [], acc => pure acc
  | (key, root) :: bits, acc => do
    let mb ← exprInEnv m opt.assumeBinaryInputs cur root
    let bit ← bitMatch opt ck z key mb
    let acc ← gateAnd acc bit
    matchBits ck z cur bits acc

def itemMatch (ck : CaseKind) (z : Nat) (key : List Nat) (cur : List Nat) (roots : List Nat) : SynthM Nat := do
  if roots.length ≠ key.length then constNode .L
  else
    let one ← constNode .H
    matchBits m opt ck z cur (key.zip roots) one

def keyNodes (roots : List Nat) (cur : List Nat) : SynthM (List Nat) :=
  if roots = [] then do
    let x ← constNode .X
    pure [x]
  else roots.mapM (exprInEnv m opt.assumeBinaryInputs cur)

variable (ops : StmtOps)

/-- A loop, unrolled. A condition that is constant decides the round at once. -/
def unroll (cond : Nat) (body : SynthEnv → SynthM SynthEnv) : Nat → SynthEnv → SynthM SynthEnv
  | 0, env => pure env
  | k + 1, env => do
    let c ← condNode m opt cond env
    let g ← get
    match g.tryGetConst c with
    | some .L => pure env
    | some .H => do
      let env ← body env
      unroll cond body k env
    | _ => do
      let t ← body env
      let env ← ops.merge c env env t
      unroll cond body k env

mutual

/-- The recursion that `synth_stmt_ff` and `synth_stmt_comb` share. -/
def synthStmt : Stmt → SynthEnv → SynthM SynthEnv
  | .empty, env => pure env
  | .block ss, env | .subprogramBlock ss, env => synthStmts ss env
  | .assign a, env => ops.assign a env
  | .ifStmt cond ts es, env => do
    let c ← condNode m opt cond env
    let t ← synthStmts ts env
    let e ← synthStmts es env
    ops.merge c env e t
  | .caseStmt ck roots items, env => do
    let key ← keyNodes m opt roots env.cur
    let z ← constNode .Z
    let agg ← synthDefault items env
    synthItems ck z key env items agg
  | .forStmt init cond step body, env =>
    if opt.loopUnrollLimit = 0 then failure
    else do
      let env ← synthStmt init env
      unroll m opt ops cond (fun env => do
        let env ← synthStmt body env
        synthStmt step env) opt.loopUnrollLimit env
  | .whileStmt cond body, env =>
    if opt.loopUnrollLimit = 0 then failure
    else unroll m opt ops cond (synthStmt body) opt.loopUnrollLimit env
  | .doWhileStmt cond body, env =>
    if opt.loopUnrollLimit = 0 then failure
    else do
      let env ← synthStmt body env
      unroll m opt ops cond (synthStmt body) (opt.loopUnrollLimit - 1) env
  | .returnStmt, env | .breakStmt, env | .continueStmt, env => pure env

def synthStmts : List Stmt → SynthEnv → SynthM SynthEnv
  | [], env => pure env
  | s :: ss, env => do
    let env ← synthStmt s env
    synthStmts ss env

def synthDefault : List CaseItem → SynthEnv → SynthM SynthEnv
  | [], env => pure env
  | item :: items, env =>
    if items.any CaseItem.isDefault then synthDefault items env
    else if item.isDefault then synthItem item env
    else pure env

def synthItems (ck : CaseKind) (z : Nat) (key : List Nat) (base : SynthEnv) :
    List CaseItem → SynthEnv → SynthM SynthEnv
  | [], agg => pure agg
  | item :: items, agg => do
    let agg ← synthItems ck z key base items agg
    if item.isDefault then pure agg
    else do
      let mt ← itemMatch m opt ck z key base.cur item.matchRoots
      let t ← synthItem item base
      ops.merge mt agg agg t

def synthItem : CaseItem → SynthEnv → SynthM SynthEnv
  | .mk _ _ ss, env => synthStmts ss env

end

end

section

variable (m : CompiledModule) (opt : StmtOptions) (targets : List Bool)

def setAll (xs : List Nat) (ws : List (Nat × Nat)) : List Nat := ws.foldl (fun xs w => xs.set w.1 w.2) xs

/-- The nodes of the right-hand sides, all built before any is written. -/
def rhsNodes (a : Assign) (cur : List Nat) : SynthM (List Nat) :=
  a.rhs.mapM fun root => do
    let n ← exprInEnv m opt.assumeBinaryInputs cur root
    tickDelay n a.delayTicks

def muxAll (c : Nat) (chosen : Nat → Bool) (base e t : List Nat) : SynthM (List Nat) :=
  (base.zip (e.zip t)).zipIdx.mapM fun x =>
    if chosen x.2 then mux2 c x.1.2.1 x.1.2.2 else pure x.1.1

def assignFf (a : Assign) (env : SynthEnv) : SynthM SynthEnv :=
  if a.isVector = false ∧ env.aux.length ≤ a.lhs.headD 0 then pure env
  else if a.lhs.length ≠ a.rhs.length ∨ a.lhs = [] then pure env
  else do
    let rhs ← rhsNodes m opt a env.cur
    let ws := a.lhs.zip rhs
    pure { cur := if a.nonblocking then env.cur else setAll env.cur ws
           aux := setAll env.aux (ws.filter fun w => targets.getD w.1 false) }

def mergeFf (c : Nat) (base e t : SynthEnv) : SynthM SynthEnv := do
  let cur ← muxAll c (fun _ => true) base.cur e.cur t.cur
  let aux ← muxAll c (fun s => targets.getD s false) base.aux e.aux t.aux
  pure { cur, aux }

def assignComb (a : Assign) (env : SynthEnv) : SynthM SynthEnv :=
  if a.isVector = false ∧ (env.cur.length ≤ a.lhs.headD 0 ∨ targets.getD (a.lhs.headD 0) false = false) then pure env
  else if a.lhs.length ≠ a.rhs.length ∨ a.lhs = [] then pure env
  else do
    let rhs ← rhsNodes m opt a env.cur
    let ws := (a.lhs.zip rhs).filter fun w => targets.getD w.1 false
    let one ← constNode .H
    pure { cur := setAll env.cur ws, aux := setAll env.aux (ws.map fun w => (w.1, one)) }

def mergeComb (c : Nat) (base e t : SynthEnv) : SynthM SynthEnv := do
  let cur ← muxAll c (fun s => targets.getD s false) base.cur e.cur t.cur
  let aux ← muxAll c (fun s => targets.getD s false) base.aux e.aux t.aux
  pure { cur, aux }

def ffOps : StmtOps := { assign := assignFf m opt targets, merge := mergeFf targets }

def combOps : StmtOps := { assign := assignComb m opt targets, merge := mergeComb targets }

def synthStmtFf (s : Stmt) (env : SynthEnv) : SynthM SynthEnv := synthStmt m opt (ffOps m opt targets) s env

def synthStmtComb (s : Stmt) (env : SynthEnv) : SynthM SynthEnv := synthStmt m opt (combOps m opt targets) s env

def synthRoots (f : Stmt → SynthEnv → SynthM SynthEnv) (roots : List Stmt) (env : SynthEnv) : SynthM SynthEnv :=
  roots.foldlM (fun env s => f s env) env

end

end PhyEngine.Verilog
