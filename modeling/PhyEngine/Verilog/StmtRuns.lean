import PhyEngine.Verilog.Exec

/-!
# Runs of procedural code

A derivation of `Runs` is one execution of a statement in the normal flow, without delays and
cut-off loops, with the list of the assignments that are executed. `Runs.exec`: `exec_stmt` does
the same.
-/

namespace PhyEngine.Verilog

open ModuleState

structure Write where
  nonblocking : Bool
  signal : Nat
  value : LogicT
  deriving DecidableEq

namespace Write

def entry (w : Write) : Nat × LogicT := (w.signal, w.value)

def entries (nonblocking : Bool) (log : List Write) : List (Nat × LogicT) :=
  (log.filter fun w => w.nonblocking = nonblocking).map entry

theorem entries_append (nb : Bool) (log log' : List Write) :
    entries nb (log ++ log') = entries nb log ++ entries nb log' := by
  simp [entries]

end Write

/-- The state after a list of writes: blocking ones are done, the others are queued. -/
def ModuleState.perform (st : ModuleState) (log : List Write) : ModuleState :=
  { (st.assignAll (Write.entries false log)).1 with nbaQueue := st.nbaQueue ++ Write.entries true log }

def Assign.logged (m : CompiledModule) (a : Assign) (st : ModuleState) : List Write :=
  if a.lhs.length ≠ a.rhs.length then []
  else (existing st (sampleWrites m st a.lhs a.rhs)).map fun w => ⟨a.nonblocking, w.1, w.2⟩

/-- Code that runs: a statement, a list of statements, or the rest of a loop with a bound
on its rounds. -/
inductive Task where
  | one (s : Stmt)
  | seq (ss : List Stmt)
  | loop (rounds cond : Nat) (body : List Stmt)

section

variable (m : CompiledModule) (limit : Nat)

/-- The rounds a loop may take: at most `limit`, and not more than `exec_stmt` allows. -/
def maxRounds : Nat := min limit loopLimit

/-- `Runs m limit t st log st'`: from `st` the code runs to `st'`, executing the assignments
of `log`. Every loop ends because its condition fails, after at most `limit` rounds. -/
inductive Runs : Task → ModuleState → List Write → ModuleState → Prop where
  | empty {st} : Runs (.one .empty) st [] st
  | block {ss st log st'} : Runs (.seq ss) st log st' → Runs (.one (.block ss)) st log st'
  | subprogram {ss st log st'} :
      Runs (.seq ss) st log st' → Runs (.one (.subprogramBlock ss)) st log st'
  | assign {a : Assign} {st : ModuleState} : a.delayTicks = 0 →
      Runs (.one (.assign a)) st (a.logged m st) (st.perform (a.logged m st))
  | ifThen {cond ts es st log st'} : holds m cond st = true →
      Runs (.seq ts) st log st' → Runs (.one (.ifStmt cond ts es)) st log st'
  | ifElse {cond ts es st log st'} : holds m cond st = false →
      Runs (.seq es) st log st' → Runs (.one (.ifStmt cond ts es)) st log st'
  | caseNone {ck roots items st} : chosenItem m ck roots items st = none →
      Runs (.one (.caseStmt ck roots items)) st [] st
  | caseSome {ck roots items st log st' i d rs ss} : chosenItem m ck roots items st = some i →
      items[i]? = some (.mk d rs ss) → Runs (.seq ss) st log st' →
      Runs (.one (.caseStmt ck roots items)) st log st'
  | forStmt {init cond step body st log st₁ log' st'} : Runs (.one init) st log st₁ →
      Runs (.loop (maxRounds limit) cond [body, step]) st₁ log' st' →
      Runs (.one (.forStmt init cond step body)) st (log ++ log') st'
  | whileStmt {cond body st log st'} : Runs (.loop (maxRounds limit) cond [body]) st log st' →
      Runs (.one (.whileStmt cond body)) st log st'
  | doWhileStmt {cond body st log st₁ log' st'} : 0 < limit → Runs (.one body) st log st₁ →
      Runs (.loop (maxRounds limit - 1) cond [body]) st₁ log' st' →
      Runs (.one (.doWhileStmt cond body)) st (log ++ log') st'
  | nil {st} : Runs (.seq []) st [] st
  | cons {s ss st log st₁ log' st'} : Runs (.one s) st log st₁ → Runs (.seq ss) st₁ log' st' →
      Runs (.seq (s :: ss)) st (log ++ log') st'
  | loopDone {k cond body st} : holds m cond st = false → Runs (.loop k cond body) st [] st
  | loopRound {k cond body st log st₁ log' st'} : holds m cond st = true →
      Runs (.seq body) st log st₁ → Runs (.loop k cond body) st₁ log' st' →
      Runs (.loop (k + 1) cond body) st (log ++ log') st'

end

theorem ModuleState.assignAll_append (st : ModuleState) (ws ws' : List (Nat × LogicT)) :
    (st.assignAll (ws ++ ws')).1 = ((st.assignAll ws).1.assignAll ws').1 := by
  induction ws generalizing st with
  | nil => rfl
  | cons w ws ih => exact ih _

theorem ModuleState.assignAll_existing (st : ModuleState) (ws : List (Nat × LogicT)) :
    st.assignAll (existing st ws) = st.assignAll ws := by
  suffices h : ∀ st' : ModuleState, st'.values.length = st.values.length →
      st'.assignAll (existing st ws) = st'.assignAll ws from h st rfl
  induction ws with
  | nil => exact fun _ _ => rfl
  | cons w ws ih =>
    intro st' hlen
    have hrest := ih (st'.assignSignal w.1 w.2).1 (by rw [(sameBut_assignSignal st' w.1 w.2).length, hlen])
    by_cases hw : w.1 < st.values.length
    · have hcons : existing st (w :: ws) = w :: existing st ws := by simp [existing, hw]
      rw [hcons, assignAll, assignAll, hrest]
    · have hcons : existing st (w :: ws) = existing st ws := by simp [existing, hw]
      have hsame : st'.assignSignal w.1 w.2 = (st', false) := by
        rw [assignSignal, if_pos (Or.inl (by omega))]
      rw [hcons, assignAll, hsame, ih st' hlen]
      simp

theorem ModuleState.assignAll_queue (st : ModuleState) (q : List (Nat × LogicT)) (ws : List (Nat × LogicT)) :
    ({ st with nbaQueue := q } : ModuleState).assignAll ws =
      ({ (st.assignAll ws).1 with nbaQueue := q }, (st.assignAll ws).2) := by
  induction ws generalizing st with
  | nil => rfl
  | cons w ws ih =>
    have hone : ({ st with nbaQueue := q } : ModuleState).assignSignal w.1 w.2 =
        ({ (st.assignSignal w.1 w.2).1 with nbaQueue := q }, (st.assignSignal w.1 w.2).2) := by
      unfold assignSignal get
      dsimp only
      split_ifs <;> rfl
    rw [assignAll, hone, assignAll]
    dsimp only
    rw [ih]

theorem ModuleState.perform_nil (st : ModuleState) : st.perform [] = st := by
  simp [perform, Write.entries, assignAll]

theorem ModuleState.perform_append (st : ModuleState) (log log' : List Write) :
    st.perform (log ++ log') = (st.perform log).perform log' := by
  have hqueue := assignAll_queue (st.assignAll (Write.entries false log)).1
    (st.nbaQueue ++ Write.entries true log) (Write.entries false log')
  simp only [perform, Write.entries_append, assignAll_append, hqueue, List.append_assoc]

theorem ModuleState.length_perform (st : ModuleState) (log : List Write) :
    (st.perform log).values.length = st.values.length :=
  (sameBut_assignAll st _).length

variable {s : Nat}

theorem ModuleState.get_perform (st : ModuleState) (log : List Write) (hs : s < st.values.length) :
    (st.perform log).get s = written (Write.entries false log) s (st.get s) := by
  have h := get_assignAll st (Write.entries false log) s
  rw [if_pos hs] at h
  exact h

theorem ModuleState.get_applyNba_perform (st : ModuleState) (hq : st.nbaQueue = []) (log : List Write)
    (hs : s < st.values.length) :
    (applyNba (st.perform log)).1.get s =
      written (Write.entries true log) s (written (Write.entries false log) s (st.get s)) := by
  have h := get_assignAll (st.perform log) (Write.entries true log) s
  rw [length_perform, if_pos hs, get_perform st log hs] at h
  have hqueue : (st.perform log).nbaQueue = Write.entries true log := by
    simp [perform, hq]
  rw [← h, applyNba, hqueue]
  rfl

/-- No blocking write of the signal comes after a non-blocking one. -/
def Ordered (s : Nat) (log : List Write) : Prop :=
  log.Pairwise fun w w' => w.signal = s → w'.signal = s → w.nonblocking = true → w'.nonblocking = true

instance (s : Nat) (log : List Write) : Decidable (Ordered s log) := by unfold Ordered; infer_instance

variable {log : List Write}

theorem Write.mem_entries {nb : Bool} (h : s ∈ (entries nb log).map Prod.fst) :
    ∃ w ∈ log, w.nonblocking = nb ∧ w.signal = s := by
  obtain ⟨e, he, rfl⟩ := List.mem_map.mp h
  obtain ⟨w, hw, rfl⟩ := List.mem_map.mp he
  obtain ⟨hw, hnb⟩ := List.mem_filter.mp hw
  exact ⟨w, hw, by simpa using hnb, rfl⟩

theorem Ordered.written (h : Ordered s log) (v : LogicT) :
    written (log.map Write.entry) s v =
      written (Write.entries true log) s (written (Write.entries false log) s v) := by
  induction log generalizing v with
  | nil => rfl
  | cons w log ih =>
    obtain ⟨hw, hrest⟩ := List.pairwise_cons.mp h
    have hlog := ih hrest
    cases hnb : w.nonblocking with
    | false =>
      have ht : Write.entries true (w :: log) = Write.entries true log := by simp [Write.entries, hnb]
      have hf : Write.entries false (w :: log) = w.entry :: Write.entries false log := by
        simp [Write.entries, hnb]
      rw [ht, hf, List.map_cons, written_cons, written_cons, hlog]
    | true =>
      have ht : Write.entries true (w :: log) = w.entry :: Write.entries true log := by
        simp [Write.entries, hnb]
      have hf : Write.entries false (w :: log) = Write.entries false log := by simp [Write.entries, hnb]
      rw [ht, hf, List.map_cons, written_cons, written_cons, hlog]
      by_cases hs : w.entry.1 = s
      · have hnone : s ∉ (Write.entries false log).map Prod.fst := by
          intro hmem
          obtain ⟨w', hw', hnb', hs'⟩ := Write.mem_entries hmem
          exact Bool.false_ne_true (hnb'.symm.trans (hw w' hw' hs hs' hnb))
        rw [if_pos hs, written_of_not_mem hnone, if_pos hs]
      · rw [if_neg hs, if_neg hs]

section

variable {m : CompiledModule} {limit : Nat}

variable {st' : ModuleState}

theorem Runs.perform {t : Task} {st : ModuleState} (h : Runs m limit t st log st') : st' = st.perform log := by
  induction h with
  | empty | caseNone _ | nil | loopDone _ => rw [perform_nil]
  | assign _ => rfl
  | block _ ih | subprogram _ ih | ifThen _ _ ih | ifElse _ _ ih | caseSome _ _ _ ih | whileStmt _ ih => exact ih
  | forStmt _ _ ih ih' | doWhileStmt _ _ _ ih ih' | cons _ _ ih ih' | loopRound _ _ _ ih ih' =>
    rw [perform_append, ← ih, ← ih']

section

variable {a : Assign} {st : ModuleState}

theorem Assign.logged_of_length (h : a.lhs.length ≠ a.rhs.length ∨ a.lhs = []) : a.logged m st = [] := by
  unfold Assign.logged
  by_cases hne : a.lhs.length ≠ a.rhs.length
  · rw [if_pos hne]
  · have hnil : a.lhs = [] := h.resolve_left hne
    simp [hnil, sampleWrites, existing]

theorem Assign.logged_of_scalar (h : a.isVector = false) (hout : st.values.length ≤ a.lhs.headD 0) :
    a.logged m st = [] := by
  obtain ⟨hl, hr⟩ := a.scalar h
  obtain ⟨l, hl⟩ := List.length_eq_one_iff.mp hl
  obtain ⟨r, hr⟩ := List.length_eq_one_iff.mp hr
  have hle : st.values.length ≤ l := by simpa [hl] using hout
  simp [Assign.logged, hl, hr, sampleWrites, existing, hle]

theorem Assign.logged_eq (h : ¬a.lhs.length ≠ a.rhs.length) :
    a.logged m st = (existing st (sampleWrites m st a.lhs a.rhs)).map fun w => ⟨a.nonblocking, w.1, w.2⟩ := by
  rw [Assign.logged, if_neg h]

theorem Assign.entries_logged (h : ¬a.lhs.length ≠ a.rhs.length) (nb : Bool) :
    Write.entries nb (a.logged m st) =
      if a.nonblocking = nb then existing st (sampleWrites m st a.lhs a.rhs) else [] := by
  rw [Assign.logged_eq h, Write.entries, List.filter_map, List.map_map]
  by_cases hnb : a.nonblocking = nb <;> simp [Function.comp_def, hnb, Write.entry]

end

section Exec

variable (m) (tick : UInt64)

theorem execAssign_perform {a : Assign} (h : a.delayTicks = 0) (st : ModuleState) (c : Bool) :
    ∃ c', execAssign m tick a { st, changed := c } =
      { st := st.perform (a.logged m st), changed := c' } := by
  unfold execAssign
  by_cases hlen : a.lhs.length ≠ a.rhs.length ∨ a.lhs = []
  · rw [if_pos hlen, Assign.logged_of_length hlen, perform_nil]
    exact ⟨c, rfl⟩
  rw [if_neg hlen]
  by_cases hout : a.isVector = false ∧ st.values.length ≤ a.lhs.headD 0
  · rw [if_pos hout, Assign.logged_of_scalar hout.1 hout.2, perform_nil]
    exact ⟨c, rfl⟩
  rw [if_neg hout, if_neg (by simpa using h)]
  have hentries (nb : Bool) : Write.entries nb (a.logged m st) =
      if a.nonblocking = nb then existing st (sampleWrites m st a.lhs a.rhs) else [] :=
    Assign.entries_logged (not_or.mp hlen).1 nb
  by_cases hnb : a.nonblocking = true
  · rw [if_pos hnb]
    refine ⟨c, ?_⟩
    simp [perform, hentries, hnb, assignAll]
  · rw [if_neg hnb]
    refine ⟨(st.assignAll (sampleWrites m st a.lhs a.rhs)).2 || c, ?_⟩
    have hnb : a.nonblocking = false := by simpa using hnb
    have hqueue := (sameBut_assignAll st (sampleWrites m st a.lhs a.rhs)).nbaQueue
    simp only [perform, hentries, hnb, if_true, Bool.false_eq_true, if_false,
      List.append_nil, assignAll_existing]
    rw [← hqueue]

def Execs (ss : List Stmt) (st st' : ModuleState) : Prop :=
  ∀ c, ∃ c', execStmts m tick ss { st, changed := c } = { st := st', changed := c' }

inductive Rounds (cond : Nat) (body : List Stmt) : Nat → ModuleState → ModuleState → Prop where
  | done {k st} : holds m cond st = false → Rounds cond body k st st
  | round {k st st₁ st'} : holds m cond st = true → Execs m tick body st st₁ →
      Rounds cond body k st₁ st' → Rounds cond body (k + 1) st st'

def Task.Executes : Task → ModuleState → ModuleState → Prop
  | .one s, st, st' => ∀ c, ∃ c', execStmt m tick s { st, changed := c } = { st := st', changed := c' }
  | .seq ss, st, st' => Execs m tick ss st st'
  | .loop k cond body, st, st' => Rounds m tick cond body k st st'

variable {m tick}

theorem execStmts_one (body : Stmt) (st : ModuleState) (c : Bool) :
    execStmts m tick [body] { st, changed := c } = execStmt m tick body { st, changed := c } := rfl

variable {st : ModuleState} {cond k : Nat} {body : Stmt}

theorem execs_two {s s' : Stmt} (h : Execs m tick [s, s'] st st') (c : Bool) :
    ∃ st₁ c₁ c', execStmt m tick s { st, changed := c } = { st := st₁, changed := c₁ } ∧
      execStmt m tick s' { st := st₁, changed := c₁ } = { st := st', changed := c' } := by
  obtain ⟨c', h⟩ := h c
  rw [show execStmts m tick [s, s'] { st, changed := c } =
    if (execStmt m tick s { st, changed := c }).flow ≠ .none then execStmt m tick s { st, changed := c }
    else execStmt m tick s' (execStmt m tick s { st, changed := c }) from rfl] at h
  revert h
  rcases execStmt m tick s { st, changed := c } with ⟨st₁, f, c₁⟩
  intro h
  by_cases hf : f = .none
  · subst hf
    exact ⟨st₁, c₁, c', rfl, by simpa using h⟩
  · rw [if_pos hf] at h
    exact absurd (congrArg Exec.flow h) hf

theorem Rounds.whileLoop (h : Rounds m tick cond [body] k st st') (iters : Nat) (hk : k ≤ iters) (c : Bool) :
    ∃ c', whileLoop m cond (execStmt m tick body) iters { st, changed := c } =
      { st := st', changed := c' } := by
  induction h generalizing iters c with
  | done hcond =>
    refine ⟨c, ?_⟩
    cases iters with
    | zero => rfl
    | succ iters => simp [Verilog.whileLoop, loopFlow, hcond]
  | round hcond hbody _ ih =>
    obtain ⟨iters, rfl⟩ : ∃ j, iters = j + 1 := ⟨iters - 1, by omega⟩
    obtain ⟨c₁, hbody⟩ := hbody c
    rw [execStmts_one] at hbody
    obtain ⟨c', hrest⟩ := ih iters (by omega) c₁
    exact ⟨c', by simp [Verilog.whileLoop, loopFlow, hcond, hbody, hrest]⟩

theorem Rounds.forLoop {step : Stmt} (h : Rounds m tick cond [body, step] k st st') (iters : Nat) (hk : k ≤ iters)
    (c : Bool) :
    ∃ c', forLoop m cond (execStmt m tick step) (execStmt m tick body) iters { st, changed := c } =
      { st := st', changed := c' } := by
  induction h generalizing iters c with
  | done hcond =>
    refine ⟨c, ?_⟩
    cases iters with
    | zero => rfl
    | succ iters => simp [Verilog.forLoop, hcond]
  | round hcond hbody _ ih =>
    obtain ⟨iters, rfl⟩ : ∃ j, iters = j + 1 := ⟨iters - 1, by omega⟩
    obtain ⟨st₂, c₂, c₁, hbody, hstep⟩ := execs_two hbody c
    obtain ⟨c', hrest⟩ := ih iters (by omega) c₁
    exact ⟨c', by simp [Verilog.forLoop, loopFlow, hcond, hbody, hstep, hrest]⟩

theorem doWhileLoop_first {body : Exec → Exec} {x : Exec} {c : Bool} (hx : x.flow = .none)
    (h : body x = { st, changed := c }) (iters : Nat) :
    doWhileLoop m cond body (iters + 1) x =
      if !holds m cond st then { st, changed := c } else doWhileLoop m cond body iters { st, changed := c } := by
  simp [Verilog.doWhileLoop, loopFlow, hx, h]

theorem Rounds.doWhileLoop (h : Rounds m tick cond [body] k st st') (iters : Nat) (hk : k ≤ iters) (c : Bool) :
    ∃ c', (if !holds m cond st then { st, changed := c }
      else doWhileLoop m cond (execStmt m tick body) iters { st, changed := c }) =
        ({ st := st', changed := c' } : Exec) := by
  induction h generalizing iters c with
  | done hcond => exact ⟨c, by simp [hcond]⟩
  | round hcond hbody _ ih =>
    obtain ⟨iters, rfl⟩ : ∃ j, iters = j + 1 := ⟨iters - 1, by omega⟩
    obtain ⟨c₁, hbody⟩ := hbody c
    rw [execStmts_one] at hbody
    obtain ⟨c', hrest⟩ := ih iters (by omega) c₁
    exact ⟨c', by rw [doWhileLoop_first rfl hbody, hrest]; simp [hcond]⟩

theorem execItems_of_getElem? {items : List CaseItem} {i : Nat} {d : Bool} {rs : List Nat} {ss : List Stmt}
    (h : items[i]? = some (.mk d rs ss)) (x : Exec) :
    execItems m tick items i x = execStmts m tick ss x := by
  induction items generalizing i with
  | nil => simp at h
  | cons item items ih =>
    cases i with
    | zero =>
      obtain rfl : item = .mk d rs ss := by simpa using h
      rfl
    | succ i => exact ih (by simpa using h)

end Exec

theorem Runs.executes {t : Task} {st : ModuleState} (h : Runs m limit t st log st') (tick : UInt64) :
    t.Executes m tick st st' := by
  induction h with
  | empty => exact fun c => ⟨c, rfl⟩
  | block _ ih => exact ih
  | subprogram _ ih =>
    intro c
    obtain ⟨c', ih⟩ := ih c
    exact ⟨c', by simp only [execStmt, ih, leaveSubprogram]⟩
  | assign h => exact execAssign_perform m tick h _
  | ifThen hcond _ ih =>
    intro c
    obtain ⟨c', ih⟩ := ih c
    exact ⟨c', by simp only [execStmt, hcond, if_true, ih]⟩
  | ifElse hcond _ ih =>
    intro c
    obtain ⟨c', ih⟩ := ih c
    exact ⟨c', by simp only [execStmt, hcond, Bool.false_eq_true, if_false, ih]⟩
  | caseNone hnone => exact fun c => ⟨c, by simp only [execStmt, hnone]⟩
  | caseSome hsome hitem _ ih =>
    intro c
    obtain ⟨c', ih⟩ := ih c
    exact ⟨c', by simp only [execStmt, hsome, execItems_of_getElem? hitem, ih]⟩
  | forStmt _ _ ih ih' =>
    intro c
    obtain ⟨c₁, ih⟩ := ih c
    obtain ⟨c', hloop⟩ := Rounds.forLoop ih' loopLimit (Nat.min_le_right _ _) c₁
    exact ⟨c', by simp only [execStmt, ih, hloop]⟩
  | whileStmt _ ih => exact fun c => Rounds.whileLoop ih loopLimit (Nat.min_le_right _ _) c
  | doWhileStmt hlimit _ _ ih ih' =>
    intro c
    obtain ⟨c₁, ih⟩ := ih c
    have hle : maxRounds limit - 1 ≤ 4095 := by
      have : maxRounds limit ≤ 4096 := Nat.min_le_right _ _
      omega
    obtain ⟨c', hloop⟩ := Rounds.doWhileLoop ih' 4095 hle c₁
    exact ⟨c', (doWhileLoop_first rfl ih 4095).trans hloop⟩
  | nil => exact fun c => ⟨c, rfl⟩
  | cons _ _ ih ih' =>
    intro c
    obtain ⟨c₁, ih⟩ := ih c
    obtain ⟨c', ih'⟩ := ih' c₁
    exact ⟨c', by simp [execStmts, ih, ih']⟩
  | loopDone hcond => exact .done hcond
  | loopRound hcond _ _ ih ih' => exact .round hcond ih ih'

theorem Runs.execRoots {roots : List Stmt} {st : ModuleState} (h : Runs m limit (.seq roots) st log st')
    (tick : UInt64) :
    (execRoots m tick roots st).1 = st' := by
  induction roots generalizing st log with
  | nil =>
    cases h
    rfl
  | cons root roots ih =>
    cases h with
    | cons hroot hrest =>
      obtain ⟨c, hexec⟩ := hroot.executes tick false
      rw [Verilog.execRoots, hexec]
      exact ih hrest

end

end PhyEngine.Verilog
