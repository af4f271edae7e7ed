import PhyEngine.Verilog.Exec

/-!
# Structured control flow

Procedural statements as they are written, what `parse_proc_stmt` makes of them, and a big-step
semantics to compare `exec_stmt` with. The parser unrolls `repeat`, so a `break` in it acts on
the loop around; else runs are exact (`BigStep.executes`).
-/

namespace PhyEngine.Verilog

/-- The initialisation or the step of a `for` loop: nothing, an assignment, or declarations
with their initial values. -/
inductive ForClause where
  | absent
  | assign (a : Assign)
  | decls (as : List Assign)

mutual

/-- A procedural statement, with the roots of its conditions and labels. A `return` has a value
in a function, which is the assignment of `return_target`. -/
inductive ProcStmt where
  | empty
  | assign (a : Assign)
  | block (ss : List ProcStmt)
  | subprogram (ss : List ProcStmt)
  | ifStmt (cond : Nat) (ts es : List ProcStmt)
  | caseStmt (ck : CaseKind) (exprRoots : List Nat) (items : List ProcItem)
  | forStmt (init : ForClause) (cond : Nat) (step : ForClause) (body : ProcStmt)
  | whileStmt (cond : Nat) (body : ProcStmt)
  | doWhileStmt (cond : Nat) (body : ProcStmt)
  | repeatStmt (count : Nat) (body : ProcStmt)
  | returnStmt (value : Option Assign)
  | breakStmt
  | continueStmt

inductive ProcItem where
  | mk (isDefault : Bool) (matchRoots : List Nat) (ss : List ProcStmt)

end

def ForClause.stmt : ForClause → Stmt
  | .absent => .empty
  | .assign a => .assign a
  | .decls as => .block (as.map .assign)

def maxRepeat : Nat := 4096

def unrollRepeat (count : Nat) (body : Stmt) : Stmt :=
  if min count maxRepeat = 0 then .empty else .block (List.replicate (min count maxRepeat) body)

mutual

/-- The statement that `parse_proc_stmt` adds to the arena. -/
def ProcStmt.lower : ProcStmt → Stmt
  | .empty => .empty
  | .assign a => .assign a
  | .block ss => .block (lowerStmts ss)
  | .subprogram ss => .subprogramBlock (lowerStmts ss)
  | .ifStmt cond ts es => .ifStmt cond (lowerStmts ts) (lowerStmts es)
  | .caseStmt ck roots items => .caseStmt ck roots (lowerItems items)
  | .forStmt init cond step body => .forStmt init.stmt cond step.stmt body.lower
  | .whileStmt cond body => .whileStmt cond body.lower
  | .doWhileStmt cond body => .doWhileStmt cond body.lower
  | .repeatStmt count body => unrollRepeat count body.lower
  | .returnStmt none => .returnStmt
  | .returnStmt (some a) => .block [.assign a, .returnStmt]
  | .breakStmt => .breakStmt
  | .continueStmt => .continueStmt

def lowerStmts : List ProcStmt → List Stmt
  | [] => []
  | s :: ss => s.lower :: lowerStmts ss

def lowerItems : List ProcItem → List CaseItem
  | [] => []
  | item :: items => item.lower :: lowerItems items

def ProcItem.lower : ProcItem → CaseItem
  | .mk d roots ss => .mk d roots (lowerStmts ss)

end

section Semantics

variable (m : CompiledModule) (tick : UInt64)

def assigned (a : Assign) (st : ModuleState) : ModuleState := (execAssign m tick a { st }).st

def ForClause.run : ForClause → ModuleState → ModuleState
  | .absent, st => st
  | .assign a, st => assigned m tick a st
  | .decls as, st => as.foldl (fun st a => assigned m tick a st) st

/-- Code that runs: a statement, a list of statements, or a loop from a round on, with a bound
on the rounds that are left. -/
inductive Code where
  | one (s : ProcStmt)
  | seq (ss : List ProcStmt)
  | whileRounds (rounds cond : Nat) (body : ProcStmt)
  | doWhileRounds (rounds cond : Nat) (body : ProcStmt)
  | forRounds (rounds cond : Nat) (step : ForClause) (body : ProcStmt)
  | repeatRounds (rounds count : Nat) (body : ProcStmt)

/-- The body of a loop ended so that the next round follows. -/
def Flow.NextRound (f : Flow) : Prop := f = .none ∨ f = .cont

/-- `BigStep m tick strict c st f st'`: from `st` the code runs to `st'`, and ends in its normal
way, with `return`, or with a `break` or `continue` for a loop around it. No loop takes more
than 4096 rounds. In a `strict` run no round of a `repeat` ends with `break` or `continue`. -/
inductive BigStep (strict : Bool) : Code → ModuleState → Flow → ModuleState → Prop where
  | empty {st} : BigStep strict (.one .empty) st .none st
  | assign {a st} : BigStep strict (.one (.assign a)) st .none (assigned m tick a st)
  | block {ss st f st'} : BigStep strict (.seq ss) st f st' → BigStep strict (.one (.block ss)) st f st'
  | subprogram {ss st f st'} : f = .none ∨ f = .ret → BigStep strict (.seq ss) st f st' →
      BigStep strict (.one (.subprogram ss)) st .none st'
  | subprogramLeft {ss st f st'} : f = .brk ∨ f = .cont → BigStep strict (.seq ss) st f st' →
      BigStep strict (.one (.subprogram ss)) st f st'
  | ifThen {cond ts es st f st'} : holds m cond st = true → BigStep strict (.seq ts) st f st' →
      BigStep strict (.one (.ifStmt cond ts es)) st f st'
  | ifElse {cond ts es st f st'} : holds m cond st = false → BigStep strict (.seq es) st f st' →
      BigStep strict (.one (.ifStmt cond ts es)) st f st'
  | caseNone {ck roots items st} : chosenItem m ck roots (lowerItems items) st = none →
      BigStep strict (.one (.caseStmt ck roots items)) st .none st
  | caseSome {ck roots items st f st' i d rs ss} : chosenItem m ck roots (lowerItems items) st = some i →
      items[i]? = some (.mk d rs ss) → BigStep strict (.seq ss) st f st' →
      BigStep strict (.one (.caseStmt ck roots items)) st f st'
  | forStmt {init cond step body st f st'} :
      BigStep strict (.forRounds loopLimit cond step body) (init.run m tick st) f st' →
      BigStep strict (.one (.forStmt init cond step body)) st f st'
  | whileStmt {cond body st f st'} : BigStep strict (.whileRounds loopLimit cond body) st f st' →
      BigStep strict (.one (.whileStmt cond body)) st f st'
  | doWhileStmt {cond body st f st'} : BigStep strict (.doWhileRounds loopLimit cond body) st f st' →
      BigStep strict (.one (.doWhileStmt cond body)) st f st'
  | repeatStmt {count body st f st'} : BigStep strict (.repeatRounds loopLimit count body) st f st' →
      BigStep strict (.one (.repeatStmt count body)) st f st'
  | ret {st} : BigStep strict (.one (.returnStmt none)) st .ret st
  | retValue {a st} : BigStep strict (.one (.returnStmt (some a))) st .ret (assigned m tick a st)
  | brk {st} : BigStep strict (.one .breakStmt) st .brk st
  | cont {st} : BigStep strict (.one .continueStmt) st .cont st
  | nil {st} : BigStep strict (.seq []) st .none st
  | cons {s ss st st₁ f st'} : BigStep strict (.one s) st .none st₁ → BigStep strict (.seq ss) st₁ f st' →
      BigStep strict (.seq (s :: ss)) st f st'
  | consLeft {s ss st f st'} : f ≠ .none → BigStep strict (.one s) st f st' → BigStep strict (.seq (s :: ss)) st f st'
  | whileDone {k cond body st} : holds m cond st = false → BigStep strict (.whileRounds k cond body) st .none st
  | whileNext {k cond body st f st₁ f' st'} : holds m cond st = true → f.NextRound →
      BigStep strict (.one body) st f st₁ → BigStep strict (.whileRounds k cond body) st₁ f' st' →
      BigStep strict (.whileRounds (k + 1) cond body) st f' st'
  | whileBreak {k cond body st st'} : holds m cond st = true → BigStep strict (.one body) st .brk st' →
      BigStep strict (.whileRounds (k + 1) cond body) st .none st'
  | whileReturn {k cond body st st'} : holds m cond st = true → BigStep strict (.one body) st .ret st' →
      BigStep strict (.whileRounds (k + 1) cond body) st .ret st'
  | doWhileDone {k cond body st f st'} : f.NextRound → BigStep strict (.one body) st f st' → holds m cond st' = false →
      BigStep strict (.doWhileRounds (k + 1) cond body) st .none st'
  | doWhileNext {k cond body st f st₁ f' st'} : f.NextRound → BigStep strict (.one body) st f st₁ →
      holds m cond st₁ = true → BigStep strict (.doWhileRounds k cond body) st₁ f' st' →
      BigStep strict (.doWhileRounds (k + 1) cond body) st f' st'
  | doWhileBreak {k cond body st st'} : BigStep strict (.one body) st .brk st' →
      BigStep strict (.doWhileRounds (k + 1) cond body) st .none st'
  | doWhileReturn {k cond body st st'} : BigStep strict (.one body) st .ret st' →
      BigStep strict (.doWhileRounds (k + 1) cond body) st .ret st'
  | forDone {k cond step body st} : holds m cond st = false → BigStep strict (.forRounds k cond step body) st .none st
  | forNext {k cond step body st f st₁ f' st'} : holds m cond st = true → f.NextRound →
      BigStep strict (.one body) st f st₁ → BigStep strict (.forRounds k cond step body) (step.run m tick st₁) f' st' →
      BigStep strict (.forRounds (k + 1) cond step body) st f' st'
  | forBreak {k cond step body st st'} : holds m cond st = true → BigStep strict (.one body) st .brk st' →
      BigStep strict (.forRounds (k + 1) cond step body) st .none st'
  | forReturn {k cond step body st st'} : holds m cond st = true → BigStep strict (.one body) st .ret st' →
      BigStep strict (.forRounds (k + 1) cond step body) st .ret st'
  | repeatDone {k body st} : BigStep strict (.repeatRounds k 0 body) st .none st
  | repeatNext {k count body st f st₁ f' st'} : f.NextRound → (f = .cont → strict = false) →
      BigStep strict (.one body) st f st₁ → BigStep strict (.repeatRounds k count body) st₁ f' st' →
      BigStep strict (.repeatRounds (k + 1) (count + 1) body) st f' st'
  | repeatBreak {k count body st st'} : strict = false → BigStep strict (.one body) st .brk st' →
      BigStep strict (.repeatRounds (k + 1) (count + 1) body) st .none st'
  | repeatReturn {k count body st st'} : BigStep strict (.one body) st .ret st' →
      BigStep strict (.repeatRounds (k + 1) (count + 1) body) st .ret st'

end Semantics

def Ends (run : Exec → Exec) (st : ModuleState) (f : Flow) (st' : ModuleState) : Prop :=
  ∀ c, ∃ c', run { st, changed := c } = { st := st', flow := f, changed := c' }

section Execute

variable {m : CompiledModule} {tick : UInt64}

theorem ends_execAssign (a : Assign) (st : ModuleState) :
    Ends (execAssign m tick a) st .none (assigned m tick a st) := by
  intro c
  unfold assigned execAssign
  dsimp only
  split_ifs
  · exact ⟨c, rfl⟩
  · exact ⟨c, rfl⟩
  · exact ⟨c, rfl⟩
  · exact ⟨c, rfl⟩
  · exact ⟨_, rfl⟩

variable {ss : List Stmt} {s : Stmt}

theorem Ends.cons {st st₁ st' : ModuleState} {f : Flow}
    (h : Ends (execStmt m tick s) st .none st₁) (hss : Ends (execStmts m tick ss) st₁ f st') :
    Ends (execStmts m tick (s :: ss)) st f st' := by
  intro c
  obtain ⟨c₁, hs⟩ := h c
  obtain ⟨c', hrest⟩ := hss c₁
  refine ⟨c', ?_⟩
  rw [execStmts, if_neg (by simp), hs, hrest]

theorem Ends.consLeft {st st' : ModuleState} {f : Flow} (h : Ends (execStmt m tick s) st f st') (hf : f ≠ .none)
    (ss : List Stmt) : Ends (execStmts m tick (s :: ss)) st f st' := by
  intro c
  obtain ⟨c', hs⟩ := h c
  refine ⟨c', ?_⟩
  rw [execStmts, if_neg (by simp), hs]
  cases ss with
  | nil => rfl
  | cons s' ss => rw [execStmts, if_pos hf]

theorem ends_nil (st : ModuleState) : Ends (execStmts m tick []) st .none st := fun c => ⟨c, rfl⟩

theorem ends_clause (cl : ForClause) (st : ModuleState) :
    Ends (execStmt m tick cl.stmt) st .none (cl.run m tick st) := by
  cases cl with
  | absent => exact fun c => ⟨c, rfl⟩
  | assign a => exact ends_execAssign a st
  | decls as =>
    show Ends (execStmts m tick (as.map .assign)) st .none (as.foldl (fun st a => assigned m tick a st) st)
    induction as generalizing st with
    | nil => exact ends_nil st
    | cons a as ih => exact Ends.cons (ends_execAssign a st) (ih (assigned m tick a st))

theorem loopFlow_next {f : Flow} (h : f.NextRound) (st : ModuleState) (c : Bool) :
    loopFlow { st, flow := f, changed := c } = ({ st, changed := c }, true) := by
  obtain rfl | rfl := h
  · rfl
  · rfl

/-- The flow behind a loop whose body ended in another way. -/
def Flow.behindLoop : Flow → Flow
  | .ret => .ret
  | _ => .none

theorem loopFlow_left {f : Flow} (h : f = .brk ∨ f = .ret) (st : ModuleState) (c : Bool) :
    loopFlow { st, flow := f, changed := c } = ({ st, flow := f.behindLoop, changed := c }, false) := by
  obtain rfl | rfl := h
  · rfl
  · rfl

section Loops

variable {cond k : Nat} {body step : Exec → Exec} {st st₁ st₂ st' : ModuleState} {f f' : Flow}

theorem whileLoop_done (hc : holds m cond st = false) : Ends (whileLoop m cond body k) st .none st := by
  intro c
  refine ⟨c, ?_⟩
  cases k with
  | zero => rfl
  | succ k =>
    rw [whileLoop, loopFlow_next (.inl rfl)]
    simp only [Bool.not_true, Bool.false_eq_true, if_false, hc, Bool.not_false, if_true]

theorem whileLoop_next (hc : holds m cond st = true) (hf : f.NextRound) (hb : Ends body st f st₁)
    (hrest : Ends (whileLoop m cond body k) st₁ f' st') : Ends (whileLoop m cond body (k + 1)) st f' st' := by
  intro c
  obtain ⟨c₁, hb⟩ := hb c
  obtain ⟨c', hrest⟩ := hrest c₁
  refine ⟨c', ?_⟩
  rw [whileLoop, loopFlow_next (.inl rfl)]
  simp only [Bool.not_true, Bool.false_eq_true, if_false, hc, hb, loopFlow_next hf, hrest]

theorem whileLoop_left (hc : holds m cond st = true) (hf : f = .brk ∨ f = .ret) (hb : Ends body st f st') :
    Ends (whileLoop m cond body (k + 1)) st f.behindLoop st' := by
  intro c
  obtain ⟨c₁, hb⟩ := hb c
  refine ⟨c₁, ?_⟩
  rw [whileLoop, loopFlow_next (.inl rfl)]
  simp only [Bool.not_true, Bool.false_eq_true, if_false, hc, hb, loopFlow_left hf, Bool.not_false, if_true]

theorem doWhileLoop_done (hf : f.NextRound) (hb : Ends body st f st') (hc : holds m cond st' = false) :
    Ends (doWhileLoop m cond body (k + 1)) st .none st' := by
  intro c
  obtain ⟨c₁, hb⟩ := hb c
  refine ⟨c₁, ?_⟩
  rw [doWhileLoop, loopFlow_next (.inl rfl)]
  simp only [Bool.not_true, Bool.false_eq_true, if_false, hb, loopFlow_next hf, hc, Bool.not_false, if_true]

theorem doWhileLoop_next (hf : f.NextRound) (hb : Ends body st f st₁) (hc : holds m cond st₁ = true)
    (hrest : Ends (doWhileLoop m cond body k) st₁ f' st') : Ends (doWhileLoop m cond body (k + 1)) st f' st' := by
  intro c
  obtain ⟨c₁, hb⟩ := hb c
  obtain ⟨c', hrest⟩ := hrest c₁
  refine ⟨c', ?_⟩
  rw [doWhileLoop, loopFlow_next (.inl rfl)]
  simp only [Bool.not_true, Bool.false_eq_true, if_false, hb, loopFlow_next hf, hc, hrest]

theorem doWhileLoop_left (hf : f = .brk ∨ f = .ret) (hb : Ends body st f st') :
    Ends (doWhileLoop m cond body (k + 1)) st f.behindLoop st' := by
  intro c
  obtain ⟨c₁, hb⟩ := hb c
  refine ⟨c₁, ?_⟩
  rw [doWhileLoop, loopFlow_next (.inl rfl)]
  simp only [Bool.not_true, Bool.false_eq_true, if_false, hb, loopFlow_left hf, Bool.not_false, if_true]

theorem forLoop_done (hc : holds m cond st = false) : Ends (forLoop m cond step body k) st .none st := by
  intro c
  refine ⟨c, ?_⟩
  cases k with
  | zero => rfl
  | succ k => simp only [forLoop, hc, Bool.not_false, if_true]

theorem forLoop_next (hc : holds m cond st = true) (hf : f.NextRound) (hb : Ends body st f st₁)
    (hs : Ends step st₁ .none st₂) (hrest : Ends (forLoop m cond step body k) st₂ f' st') :
    Ends (forLoop m cond step body (k + 1)) st f' st' := by
  intro c
  obtain ⟨c₁, hb⟩ := hb c
  obtain ⟨c₂, hs⟩ := hs c₁
  obtain ⟨c', hrest⟩ := hrest c₂
  refine ⟨c', ?_⟩
  simp only [forLoop, hc, Bool.not_true, Bool.false_eq_true, if_false, hb, loopFlow_next hf, hs, hrest]

theorem forLoop_left (hc : holds m cond st = true) (hf : f = .brk ∨ f = .ret) (hb : Ends body st f st') :
    Ends (forLoop m cond step body (k + 1)) st f.behindLoop st' := by
  intro c
  obtain ⟨c₁, hb⟩ := hb c
  refine ⟨c₁, ?_⟩
  simp only [forLoop, hc, Bool.not_true, Bool.false_eq_true, if_false, hb, loopFlow_left hf, Bool.not_false, if_true]

end Loops

def Code.Executes (m : CompiledModule) (tick : UInt64) : Code → ModuleState → Flow → ModuleState → Prop
  | .one s => Ends (execStmt m tick s.lower)
  | .seq ss => Ends (execStmts m tick (lowerStmts ss))
  | .whileRounds k cond body => Ends (whileLoop m cond (execStmt m tick body.lower) k)
  | .doWhileRounds k cond body => Ends (doWhileLoop m cond (execStmt m tick body.lower) k)
  | .forRounds k cond step body => Ends (forLoop m cond (execStmt m tick step.stmt) (execStmt m tick body.lower) k)
  | .repeatRounds k count body => Ends (execStmts m tick (List.replicate (min count k) body.lower))

theorem ends_subprogram {st st' : ModuleState} {f : Flow} (h : Ends (execStmts m tick ss) st f st') :
    Ends (execStmt m tick (.subprogramBlock ss)) st (if f = .ret then .none else f) st' := by
  intro c
  obtain ⟨c', h⟩ := h c
  refine ⟨c', ?_⟩
  simp only [execStmt, h]
  cases f <;> rfl

variable {count : Nat}

theorem ends_unrollRepeat {body : Stmt} {st st' : ModuleState} {f : Flow}
    (h : Ends (execStmts m tick (List.replicate (min count maxRepeat) body)) st f st') :
    Ends (execStmt m tick (unrollRepeat count body)) st f st' := by
  unfold unrollRepeat
  split_ifs with hzero
  · rw [hzero] at h
    exact h
  · exact h

theorem execItems_lowerItems {items : List ProcItem} {i : Nat} {d : Bool} {rs : List Nat} {ss : List ProcStmt}
    (h : items[i]? = some (.mk d rs ss)) (x : Exec) :
    execItems m tick (lowerItems items) i x = execStmts m tick (lowerStmts ss) x := by
  induction items generalizing i with
  | nil => cases h
  | cons item items ih =>
    cases i with
    | zero =>
      cases h
      rfl
    | succ i => exact ih h

variable {c : Code}

theorem BigStep.executes {st : ModuleState} {f : Flow} {st' : ModuleState} (h : BigStep m tick true c st f st') :
    c.Executes m tick st f st' := by
  induction h with
  | empty => exact fun c => ⟨c, rfl⟩
  | assign => exact ends_execAssign _ _
  | block _ ih => exact ih
  | subprogram hf _ ih =>
    have hsub := ends_subprogram ih
    obtain rfl | rfl := hf
    · exact hsub
    · exact hsub
  | subprogramLeft hf _ ih =>
    have hsub := ends_subprogram ih
    obtain rfl | rfl := hf
    · exact hsub
    · exact hsub
  | ifThen hc _ ih =>
    intro c
    obtain ⟨c', ih⟩ := ih c
    exact ⟨c', by rw [ProcStmt.lower, execStmt, if_pos hc, ih]⟩
  | ifElse hc _ ih =>
    intro c
    obtain ⟨c', ih⟩ := ih c
    exact ⟨c', by rw [ProcStmt.lower, execStmt, if_neg (by rw [hc]; exact Bool.false_ne_true), ih]⟩
  | caseNone hnone => exact fun c => ⟨c, by simp only [ProcStmt.lower, execStmt, hnone]⟩
  | caseSome hsome hitem _ ih =>
    intro c
    obtain ⟨c', ih⟩ := ih c
    exact ⟨c', by simp only [ProcStmt.lower, execStmt, hsome, execItems_lowerItems hitem, ih]⟩
  | @forStmt init _ _ _ st _ _ _ ih =>
    intro c
    obtain ⟨c₁, hinit⟩ := @ends_clause m tick init st c
    obtain ⟨c', hloop⟩ := ih c₁
    exact ⟨c', by rw [ProcStmt.lower, execStmt, hinit, hloop]⟩
  | whileStmt _ ih =>
    intro c
    obtain ⟨c', ih⟩ := ih c
    exact ⟨c', by rw [ProcStmt.lower, execStmt, ih]⟩
  | doWhileStmt _ ih =>
    intro c
    obtain ⟨c', ih⟩ := ih c
    exact ⟨c', by rw [ProcStmt.lower, execStmt, ih]⟩
  | repeatStmt _ ih => exact ends_unrollRepeat ih
  | ret => exact fun c => ⟨c, rfl⟩
  | retValue => exact Ends.cons (ends_execAssign _ _) (Ends.consLeft (fun c => ⟨c, rfl⟩) (by simp) [])
  | brk => exact fun c => ⟨c, rfl⟩
  | cont => exact fun c => ⟨c, rfl⟩
  | nil => exact ends_nil _
  | cons _ _ ih ih' => exact ih.cons ih'
  | consLeft hf _ ih => exact ih.consLeft hf _
  | whileDone hc => exact whileLoop_done hc
  | whileNext hc hf _ _ ih ih' => exact whileLoop_next hc hf ih ih'
  | whileBreak hc _ ih => exact whileLoop_left hc (.inl rfl) ih
  | whileReturn hc _ ih => exact whileLoop_left hc (.inr rfl) ih
  | doWhileDone hf _ hc ih => exact doWhileLoop_done hf ih hc
  | doWhileNext hf _ hc _ ih ih' => exact doWhileLoop_next hf ih hc ih'
  | doWhileBreak _ ih => exact doWhileLoop_left (.inl rfl) ih
  | doWhileReturn _ ih => exact doWhileLoop_left (.inr rfl) ih
  | forDone hc => exact forLoop_done hc
  | forNext hc hf _ _ ih ih' => exact forLoop_next hc hf ih (ends_clause _ _) ih'
  | forBreak hc _ ih => exact forLoop_left hc (.inl rfl) ih
  | forReturn hc _ ih => exact forLoop_left hc (.inr rfl) ih
  | repeatDone =>
    rw [Code.Executes, Nat.zero_min]
    exact ends_nil _
  | repeatNext hf hstrict _ _ ih ih' =>
    obtain rfl | rfl := hf
    · rw [Code.Executes, Nat.add_min_add_right, List.replicate_succ]
      exact ih.cons ih'
    · exact absurd (hstrict rfl) (by simp)
  | repeatBreak hstrict => cases hstrict
  | repeatReturn _ ih =>
    rw [Code.Executes, Nat.add_min_add_right, List.replicate_succ]
    exact ih.consLeft (by simp) _

variable {strict : Bool}

theorem BigStep.det {st st₁ st₂ : ModuleState} {f f' : Flow} (h : BigStep m tick strict c st f st₁)
    (h' : BigStep m tick strict c st f' st₂) : f = f' ∧ st₁ = st₂ := by
  induction h generalizing f' st₂ <;> cases h' <;> grind [Flow.NextRound]

theorem BigStep.relax {st st' : ModuleState} {f : Flow} (h : BigStep m tick true c st f st') :
    BigStep m tick false c st f st' := by
  induction h <;> grind [BigStep]

theorem BigStep.repeat_flow {k : Nat} {body : ProcStmt} {st st' : ModuleState} {f : Flow}
    (h : BigStep m tick strict (.repeatRounds k count body) st f st') : f = .none ∨ f = .ret := by
  generalize hc : Code.repeatRounds k count body = c at h
  induction h generalizing k count with
  | repeatDone => exact .inl rfl
  | repeatNext _ _ _ _ _ ih =>
    cases hc
    exact ih rfl
  | repeatBreak => exact .inl rfl
  | repeatReturn => exact .inr rfl
  | _ => cases hc

theorem ends_rounds {j k : Nat} {body : ProcStmt} {st st₁ st' : ModuleState} {f : Flow}
    (h : BigStep m tick true (.repeatRounds j j body) st .none st₁)
    (hrest : Ends (execStmts m tick (List.replicate k body.lower)) st₁ f st') :
    Ends (execStmts m tick (List.replicate (j + k) body.lower)) st f st' := by
  induction j generalizing st with
  | zero =>
    cases h
    rw [Nat.zero_add]
    exact hrest
  | succ j ih =>
    cases h with
    | repeatNext hf hstrict hbody hnext =>
      obtain rfl | rfl := hf
      · rw [Nat.succ_add, List.replicate_succ]
        exact Ends.cons hbody.executes (ih hnext)
      · exact absurd (hstrict rfl) (by simp)
    | repeatBreak hstrict => cases hstrict

theorem ends_repeat_left {j : Nat} {body : ProcStmt} {st st₁ st₂ : ModuleState} {f : Flow}
    (hj : j < min count maxRepeat) (h : BigStep m tick true (.repeatRounds j j body) st .none st₁)
    (hbody : BigStep m tick true (.one body) st₁ f st₂) (hf : f = .brk ∨ f = .cont) :
    Ends (execStmt m tick (ProcStmt.repeatStmt count body).lower) st f st₂ := by
  have hne : f ≠ .none := by
    obtain rfl | rfl := hf
    · simp
    · simp
  obtain ⟨k, hk⟩ : ∃ k, min count maxRepeat = j + (k + 1) := ⟨min count maxRepeat - j - 1, by omega⟩
  have hcopies : Ends (execStmts m tick (List.replicate (k + 1) body.lower)) st₁ f st₂ :=
    Ends.consLeft hbody.executes hne _
  apply ends_unrollRepeat
  rw [hk]
  exact ends_rounds h hcopies

end Execute

def StrictFrom (m : CompiledModule) (tick : UInt64) (s : ProcStmt) (st : ModuleState) : Prop :=
  ∃ f st', BigStep m tick true (.one s) st f st'

/-- Where the run of the language is strict, `exec_stmt` does what the language says. Where a
round of a `repeat` ends with `break` or `continue`, it does not. -/
theorem execStmt_exact (m : CompiledModule) (tick : UInt64) :
    (∀ (s : ProcStmt) (st : ModuleState) (f : Flow) (st' : ModuleState), BigStep m tick false (.one s) st f st' →
      StrictFrom m tick s st → Ends (execStmt m tick s.lower) st f st') ∧
    ∀ (count j : Nat) (body : ProcStmt) (st st₁ st₂ : ModuleState) (f : Flow), j < min count maxRepeat →
      BigStep m tick true (.repeatRounds j j body) st .none st₁ → BigStep m tick true (.one body) st₁ f st₂ →
      f = .brk ∨ f = .cont → ∀ f' st', BigStep m tick false (.one (.repeatStmt count body)) st f' st' →
        ¬ Ends (execStmt m tick (ProcStmt.repeatStmt count body).lower) st f' st' := by
  constructor
  · intro s st f st' h hstrict
    obtain ⟨f₀, st₀, h₀⟩ := hstrict
    obtain ⟨rfl, rfl⟩ := h.det h₀.relax
    exact h₀.executes
  · intro count j body st st₁ st₂ f hj hrounds hbody hf f' st' href hends
    obtain ⟨c, hexec⟩ := ends_repeat_left hj hrounds hbody hf false
    obtain ⟨c', hexec'⟩ := hends false
    have hflow : f = f' := congrArg Exec.flow (hexec.symm.trans hexec')
    cases href with
    | repeatStmt hloop =>
      rcases hloop.repeat_flow with rfl | rfl
      · rcases hf with rfl | rfl
        · cases hflow
        · cases hflow
      · rcases hf with rfl | rfl
        · cases hflow
        · cases hflow

def flowModule : CompiledModule where
  exprNodes := [.literal .L, .literal .H, .signal 0]

def setBit (s root : Nat) : ProcStmt :=
  .assign { nonblocking := false, lhs := [s], rhs := [root], scalar := fun _ => ⟨rfl, rfl⟩ }

def breakWhile : ProcStmt := .block [.whileStmt 2 (.block [setBit 0 0, .breakStmt]), setBit 1 1]

theorem execStmt_exact_breakWhile :
    (execStmt flowModule 0 breakWhile.lower { st := { values := [.H, .L] } }).st.values = [.L, .H] := by
  have hrun (strict : Bool) : BigStep flowModule 0 strict (.one breakWhile) { values := [.H, .L] } .none
      (assigned flowModule 0 { nonblocking := false, lhs := [1], rhs := [1], scalar := fun _ => ⟨rfl, rfl⟩ }
        (assigned flowModule 0 { nonblocking := false, lhs := [0], rhs := [0], scalar := fun _ => ⟨rfl, rfl⟩ }
          { values := [.H, .L] })) := by
    refine .block (.cons (.whileStmt (.whileBreak ?_ (.block (.cons .assign (.consLeft ?_ .brk)))))
      (.cons .assign .nil))
    · decide
    · simp
  obtain ⟨c, hexec⟩ := (execStmt_exact flowModule 0).1 breakWhile _ _ _ (hrun false) ⟨_, _, hrun true⟩ false
  refine (congrArg (fun x : Exec => x.st.values) hexec).trans ?_
  dsimp only
  decide

def breakRepeat : ProcStmt := .block [.repeatStmt 2 .breakStmt, setBit 1 1]

/-- The `break` takes the assignment behind the loop with it. -/
theorem breakRepeat_skips_assignment :
    (∃ st', BigStep flowModule 0 false (.one breakRepeat) { values := [.L, .L] } .none st' ∧ st'.values = [.L, .H]) ∧
      (execStmt flowModule 0 breakRepeat.lower { st := { values := [.L, .L] } }).st.values = [.L, .L] := by
  constructor
  · exact ⟨_, .block (.cons (.repeatStmt (.repeatBreak rfl .brk)) (.cons .assign .nil)), by decide⟩
  · decide

end PhyEngine.Verilog
