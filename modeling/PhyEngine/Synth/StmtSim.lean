import PhyEngine.Synth.StmtSynth
import PhyEngine.Verilog.StmtRuns

/-!
# Symbolic execution follows the simulator

`Sim R f` says that `f`, on nodes that have the values of the signals, builds nodes that have the
values after `R`. It holds of `synthStmt` for all operations whose assignments and merges are
right (`StmtOps.Lawful`). Nodes of a branch not taken only pass multiplexers (`Fine`).
-/

namespace PhyEngine.Verilog

open LogicT List GateNet

section

variable (m : CompiledModule) (opt : StmtOptions)

/-- The values a multiplexer passes on. Where tests for unknown values fold away they are
known as well. -/
def Fine (v : LogicT) : Prop := v ≠ .Z ∧ (opt.assumeBinaryInputs = true → v.isUnknown = false)

/-- An expression of signals that exist, with known literals where tests fold away. -/
def condOk (root : Nat) : Bool :=
  (exprReads m root).all (· < m.signalNames.length) && (!opt.assumeBinaryInputs || knownExpr m root)

def rhsOk (root : Nat) : Bool := condOk m opt root && m.exprNodes[root]? ≠ some (.literal .Z)

def isLiteral (root : Nat) : Bool :=
  match m.exprNodes[root]? with
  | some (.literal _) => true
  | _ => false

/-- A bit of a case item. The unknown bits of a `casex` are found by the tests. -/
def patternOk (ck : CaseKind) (root : Nat) : Bool := condOk m opt root || ck ≠ .casex && isLiteral m root

variable (assignOk : Assign → Bool)

mutual

/-- Every part of the statement is one that the gates can follow. -/
def stmtOk : Stmt → Bool
  | .empty => true
  | .block ss | .subprogramBlock ss => stmtsOk ss
  | .assign a => assignOk a
  | .ifStmt cond ts es => condOk m opt cond && stmtsOk ts && stmtsOk es
  | .caseStmt ck roots items =>
    roots.all (condOk m opt) && (!opt.assumeBinaryInputs || roots ≠ []) && itemsOk ck items
  | .forStmt init cond step body =>
    0 < opt.loopUnrollLimit && condOk m opt cond && stmtOk init && stmtOk step && stmtOk body
  | .whileStmt cond body | .doWhileStmt cond body =>
    0 < opt.loopUnrollLimit && condOk m opt cond && stmtOk body
  | .returnStmt | .breakStmt | .continueStmt => false

def stmtsOk : List Stmt → Bool
  | [] => true
  | s :: ss => stmtOk s && stmtsOk ss

def itemsOk (ck : CaseKind) : List CaseItem → Bool
  | [] => true
  | item :: items => itemOk ck item && itemsOk ck items

def itemOk (ck : CaseKind) : CaseItem → Bool
  | .mk _ roots ss => roots.all (patternOk m opt ck) && stmtsOk ss

end

end

def GateNet.valuesOf (ρ : Nat → LogicT) (g : GateNet) (xs : List Nat) : List LogicT := xs.map (g.value ρ)

variable {root : Nat}

section

variable {m : CompiledModule} {opt : StmtOptions} {ρ : Nat → LogicT} {g g' : GateNet}

/-- One node for every signal, with values that multiplexers pass on. -/
structure Nodes (m : CompiledModule) (opt : StmtOptions) (ρ : Nat → LogicT) (g : GateNet) (xs : List Nat) : Prop where
  length : xs.length = m.signalNames.length
  lt : ∀ x ∈ xs, x < g.nodes.length
  fine : ∀ x ∈ xs, Fine opt (g.value ρ x)

theorem GateNet.value_mono {x : Nat} (hx : x < g.nodes.length) (hg : g.nodes <+: g'.nodes) :
    g'.value ρ x = g.value ρ x :=
  (GateNet.Has.mono ⟨hx, rfl⟩ hg).2

theorem GateNet.valuesOf_mono {xs : List Nat} (h : ∀ x ∈ xs, x < g.nodes.length) (hg : g.nodes <+: g'.nodes) :
    g'.valuesOf ρ xs = g.valuesOf ρ xs :=
  map_congr_left fun x hx => value_mono (h x hx) hg

namespace Nodes

variable {xs : List Nat}

section

variable (h : Nodes m opt ρ g xs)
include h

theorem mono (hg : g.nodes <+: g'.nodes) : Nodes m opt ρ g' xs := by
  refine ⟨h.length, fun x hx => Nat.lt_of_lt_of_le (h.lt x hx) hg.length_le, fun x hx => ?_⟩
  rw [value_mono (h.lt x hx) hg]
  exact h.fine x hx

theorem envHas : EnvHas ρ g xs (g.valuesOf ρ xs) := by
  intro s x hx
  refine ⟨h.lt x (List.mem_of_getElem? hx), ?_⟩
  rw [GateNet.valuesOf, getD_eq_getElem?_getD, getElem?_map, hx]
  rfl

theorem fine_getD {s : Nat} (hs : s < m.signalNames.length) :
    Fine opt ((g.valuesOf ρ xs).getD s .X) := by
  have hs : s < xs.length := by rw [h.length]; exact hs
  rw [GateNet.valuesOf, getD_eq_getElem?_getD, getElem?_map, getElem?_eq_getElem hs]
  exact h.fine _ (getElem_mem hs)

theorem testable (hr : condOk m opt root = true) :
    Testable m opt.assumeBinaryInputs (g.valuesOf ρ xs) (root + 1) root := by
  simp only [condOk, Bool.and_eq_true, all_eq_true, decide_eq_true_eq, Bool.or_eq_true,
    Bool.not_eq_true'] at hr
  refine ⟨hr.1, fun hb => ⟨?_, fun s hs => (h.fine_getD hs).2 hb⟩⟩
  rcases hr.2 with hf | hk
  · rw [hb] at hf
    cases hf
  · exact hk

omit h in
theorem exprInEnv (hρ : ∀ i, ρ i ≠ .Z) (h : Nodes m opt ρ g xs) (hr : condOk m opt root = true) :
    Gives g (exprInEnv m opt.assumeBinaryInputs xs root) fun n g' =>
      g'.Has ρ n (evalExpr m root (g.valuesOf ρ xs)) :=
  gives_exprInEnv hρ (Nat.le_of_eq h.length.symm) h.envHas (h.testable hr)

theorem known_evalExpr (hr : condOk m opt root = true) (hb : opt.assumeBinaryInputs = true) :
    (evalExpr m root (g.valuesOf ρ xs)).isUnknown = false := by
  obtain ⟨hk, hv⟩ := (h.testable hr).known hb
  exact evalNode_known hv hk

theorem fine_evalExpr (hr : rhsOk m opt root = true) :
    Fine opt (evalExpr m root (g.valuesOf ρ xs)) := by
  simp only [rhsOk, Bool.and_eq_true, decide_eq_true_eq] at hr
  refine ⟨?_, h.known_evalExpr hr.1⟩
  cases hn : m.exprNodes[root]? with
  | none => simp [evalExpr, evalNode, hn]
  | some n =>
    rw [evalExpr_eq m _ hn]
    cases n with
    | literal v =>
      rintro rfl
      exact hr.2 hn
    | signal s => exact (h.fine_getD ((h.testable hr.1).reads s (by simp [readsNode, hn]))).1
    | isUnknown a | unaryNot a | binaryAnd a b | binaryOr a b | binaryXor a b | binaryEq a b | binaryNeq a b
    | binaryCaseEq a b =>
      simp only [ExprNode.combine, logicNot, logicAnd, logicOr, logicXor, logicEq, logicNeq, LogicT.caseEq, ofBool]
      (repeat' split) <;> simp

end

end Nodes

theorem gives_mapM {α : Type} {f : α → SynthM Nat} {val : α → LogicT} {P : α → Nat → Prop} (xs : List α)
    (h : ∀ x ∈ xs, ∀ g', g.nodes <+: g'.nodes → Gives g' (f x) fun n g'' => g''.Has ρ n (val x) ∧ P x n) :
    Gives g (xs.mapM f) fun ns g' =>
      (∀ n ∈ ns, n < g'.nodes.length) ∧ g'.valuesOf ρ ns = xs.map val ∧ List.Forall₂ P xs ns := by
  induction xs generalizing g with
  | nil => exact gives_pure ⟨by simp, rfl, .nil⟩
  | cons x xs ih =>
    rw [mapM_cons]
    refine (h x mem_cons_self g prefix_rfl).bind fun n g₁ hg₁ hn => ?_
    have hrest := ih (g := g₁) fun y hy g' hg' => h y (mem_cons_of_mem x hy) g' (hg₁.trans hg')
    refine hrest.bind fun ns g₂ hg₂ hns => gives_pure ⟨?_, ?_, .cons hn.2 hns.2.2⟩
    · intro k hk
      rcases mem_cons.mp hk with rfl | hk
      · exact (hn.1.mono hg₂).1
      · exact hns.1 k hk
    · rw [map_cons, ← hns.2.1, ← (hn.1.mono hg₂).2]
      rfl

end

abbrev Behaviour := ModuleState → List Write → ModuleState → Prop

namespace Behaviour

def skip : Behaviour := fun st log st' => log = [] ∧ st' = st

def andThen (R R' : Behaviour) : Behaviour := fun st log st' =>
  ∃ log₁ st₁ log₂, log = log₁ ++ log₂ ∧ R st log₁ st₁ ∧ R' st₁ log₂ st'

def choose (q : List LogicT → Bool) (R R' : Behaviour) : Behaviour := fun st log st' =>
  if q st.values then R st log st' else R' st log st'

end Behaviour

section

variable (m : CompiledModule) (opt : StmtOptions) (ρ : Nat → LogicT)
variable (targets : List Bool) (auxVal : List Write → Nat → LogicT)

/-- The nodes have the values of the state, and of the second vector after the writes. -/
structure Follows (g : GateNet) (env : SynthEnv) (st : ModuleState) (log : List Write) : Prop where
  cur : g.valuesOf ρ env.cur = st.values
  aux : g.valuesOf ρ env.aux = (List.range m.signalNames.length).map (auxVal log)

structure EnvOk (g : GateNet) (env : SynthEnv) : Prop where
  cur : Nodes m opt ρ g env.cur
  aux : Nodes m opt ρ g env.aux

/-- Signals that the block does not write keep their nodes. -/
structure Frame (env env' : SynthEnv) : Prop where
  cur : ∀ s, targets.getD s false = false → env'.cur[s]? = env.cur[s]?
  aux : ∀ s, targets.getD s false = false → env'.aux[s]? = env.aux[s]?

structure Reaches (g : GateNet) (env : SynthEnv) (g' : GateNet) (env' : SynthEnv) (R : Behaviour) : Prop where
  ok : EnvOk m opt ρ g' env'
  frame : Frame targets env env'
  follows : ∀ st log log' st', Follows m ρ auxVal g env st log → R st log' st' →
    Follows m ρ auxVal g' env' st' (log ++ log')

def Sim (R : Behaviour) (f : SynthEnv → SynthM SynthEnv) : Prop :=
  ∀ g env, EnvOk m opt ρ g env → Gives g (f env) fun env' g' => Reaches m opt ρ targets auxVal g env g' env' R

/-- What a merge leaves: the entries of the chosen branch. -/
structure Merged (c : Bool) (g : GateNet) (base e t : SynthEnv) (g' : GateNet) (env' : SynthEnv) : Prop where
  ok : EnvOk m opt ρ g' env'
  frame : Frame targets base env'
  cur : g'.valuesOf ρ env'.cur = g.valuesOf ρ (if c then t else e).cur
  aux : g'.valuesOf ρ env'.aux = g.valuesOf ρ (if c then t else e).aux

structure StmtOps.Lawful (ops : StmtOps) (assignOk : Assign → Bool) : Prop where
  assign : ∀ a, assignOk a = true →
    Sim m opt ρ targets auxVal (Runs m opt.loopUnrollLimit (.one (.assign a))) (ops.assign a)
  merge : ∀ g x c base e t, g.Has ρ x (ofBool c) → EnvOk m opt ρ g base → EnvOk m opt ρ g e →
    EnvOk m opt ρ g t → Frame targets base e → Frame targets base t →
    Gives g (ops.merge x base e t) fun env' g' => Merged m opt ρ targets c g base e t g' env'

end

section

variable {m : CompiledModule} {opt : StmtOptions} {ρ : Nat → LogicT}
variable {targets : List Bool} {auxVal : List Write → Nat → LogicT}
variable {g g₁ g₂ g' : GateNet} {env env₁ env₂ env' : SynthEnv} {R R' : Behaviour}

theorem EnvOk.mono (h : EnvOk m opt ρ g env) (hg : g.nodes <+: g'.nodes) : EnvOk m opt ρ g' env :=
  ⟨h.cur.mono hg, h.aux.mono hg⟩

theorem EnvOk.follows_iff (h : EnvOk m opt ρ g env) (hg : g.nodes <+: g'.nodes) {st : ModuleState}
    {log : List Write} : Follows m ρ auxVal g' env st log ↔ Follows m ρ auxVal g env st log := by
  have hcur : g'.valuesOf ρ env.cur = g.valuesOf ρ env.cur := valuesOf_mono h.cur.lt hg
  have haux : g'.valuesOf ρ env.aux = g.valuesOf ρ env.aux := valuesOf_mono h.aux.lt hg
  constructor
  · intro hf
    exact ⟨hcur.symm.trans hf.cur, haux.symm.trans hf.aux⟩
  · intro hf
    exact ⟨hcur.trans hf.cur, haux.trans hf.aux⟩

theorem Frame.refl (env : SynthEnv) : Frame targets env env := ⟨fun _ _ => rfl, fun _ _ => rfl⟩

theorem Frame.symm (h : Frame targets env env') : Frame targets env' env :=
  ⟨fun s hs => (h.cur s hs).symm, fun s hs => (h.aux s hs).symm⟩

theorem Frame.trans (h : Frame targets env env₁) (h' : Frame targets env₁ env₂) : Frame targets env env₂ :=
  ⟨fun s hs => (h'.cur s hs).trans (h.cur s hs), fun s hs => (h'.aux s hs).trans (h.aux s hs)⟩

namespace Reaches

theorem refl (h : EnvOk m opt ρ g env) : Reaches m opt ρ targets auxVal g env g env .skip := by
  refine ⟨h, Frame.refl env, ?_⟩
  rintro st log log' st' hf ⟨rfl, rfl⟩
  rw [append_nil]
  exact hf

theorem trans (h : Reaches m opt ρ targets auxVal g env g₁ env₁ R)
    (h' : Reaches m opt ρ targets auxVal g₁ env₁ g₂ env₂ R') :
    Reaches m opt ρ targets auxVal g env g₂ env₂ (R.andThen R') := by
  refine ⟨h'.ok, h.frame.trans h'.frame, ?_⟩
  rintro st log _ st' hf ⟨log₁, st₁, log₂, rfl, hR, hR'⟩
  rw [← append_assoc]
  exact h'.follows st₁ _ log₂ st' (h.follows st log log₁ st₁ hf hR) hR'

theorem mono (h : Reaches m opt ρ targets auxVal g env g₁ env₁ R) (hg : g₁.nodes <+: g₂.nodes) :
    Reaches m opt ρ targets auxVal g env g₂ env₁ R :=
  ⟨h.ok.mono hg, h.frame, fun st log log' st' hf hR =>
    (h.ok.follows_iff hg).mpr (h.follows st log log' st' hf hR)⟩

theorem start (henv : EnvOk m opt ρ g env) (hg : g.nodes <+: g₁.nodes)
    (h : Reaches m opt ρ targets auxVal g₁ env g₂ env₂ R) : Reaches m opt ρ targets auxVal g env g₂ env₂ R :=
  ⟨h.ok, h.frame, fun st log log' st' hf hR => h.follows st log log' st' ((henv.follows_iff hg).mpr hf) hR⟩

theorem imp (h : Reaches m opt ρ targets auxVal g env g' env' R)
    (himp : ∀ st log log' st', Follows m ρ auxVal g env st log → R' st log' st' → R st log' st') :
    Reaches m opt ρ targets auxVal g env g' env' R' :=
  ⟨h.ok, h.frame, fun st log log' st' hf hR => h.follows st log log' st' hf (himp st log log' st' hf hR)⟩

end Reaches

theorem Sim.imp {f : SynthEnv → SynthM SynthEnv} (h : Sim m opt ρ targets auxVal R f)
    (himp : ∀ st log st', R' st log st' → R st log st') : Sim m opt ρ targets auxVal R' f := by
  intro g env henv
  exact (h g env henv).imp fun env' g' _ hr => hr.imp fun st _ log' st' _ hR => himp st log' st' hR

theorem sim_pure : Sim m opt ρ targets auxVal .skip pure := fun _ _ henv => gives_pure (.refl henv)

theorem Sim.bind {f f' : SynthEnv → SynthM SynthEnv} (h : Sim m opt ρ targets auxVal R f)
    (h' : Sim m opt ρ targets auxVal R' f') :
    Sim m opt ρ targets auxVal (R.andThen R') fun env => f env >>= f' := by
  intro g env henv
  refine (h g env henv).bind fun env₁ g₁ _ h₁ => ?_
  exact (h' g₁ env₁ h₁.ok).imp fun env₂ g₂ _ h₂ => h₁.trans h₂

variable {ops : StmtOps} {assignOk : Assign → Bool}

theorem StmtOps.Lawful.gives_merge (law : ops.Lawful m opt ρ targets auxVal assignOk)
    {q : List LogicT → Bool} {x : Nat} {base e t : SynthEnv}
    (hx : g'.Has ρ x (ofBool (q (g.valuesOf ρ env.cur)))) (hbase : EnvOk m opt ρ g' base)
    (hframe : Frame targets env base) (he : Reaches m opt ρ targets auxVal g env g' e R')
    (ht : Reaches m opt ρ targets auxVal g env g' t R) :
    Gives g' (ops.merge x base e t) fun env' g'' =>
      Reaches m opt ρ targets auxVal g env g'' env' (.choose q R R') := by
  refine (law.merge g' x _ base e t hx hbase he.ok ht.ok (hframe.symm.trans he.frame)
    (hframe.symm.trans ht.frame)).imp fun env' g'' _ h => ?_
  refine ⟨h.ok, hframe.trans h.frame, fun st log log' st' hf hR => ?_⟩
  have hcur := h.cur
  have haux := h.aux
  rw [hf.cur] at hcur haux
  rw [Behaviour.choose] at hR
  split_ifs at hR with hq
  · rw [if_pos hq] at hcur haux
    have hfollows := ht.follows st log log' st' hf hR
    exact ⟨hcur.trans hfollows.cur, haux.trans hfollows.aux⟩
  · rw [if_neg hq] at hcur haux
    have hfollows := he.follows st log log' st' hf hR
    exact ⟨hcur.trans hfollows.cur, haux.trans hfollows.aux⟩

def taken (m : CompiledModule) (root : Nat) (values : List LogicT) : Bool :=
  (evalExpr m root values).normalizeZToX = .H

theorem gives_condNode (hρ : ∀ i, ρ i ≠ .Z) (henv : EnvOk m opt ρ g env) (hr : condOk m opt root = true) :
    Gives g (condNode m opt root env) fun x g' => g'.Has ρ x (ofBool (taken m root (g.valuesOf ρ env.cur))) := by
  refine (henv.cur.exprInEnv hρ hr).bind fun raw g₁ _ hraw => ?_
  have hconst : Gives g₁ (constNode .H) fun n g' => g'.Has ρ n .H := gives_constNode .H
  refine hconst.bind fun one g₂ hg₂ hone => ?_
  refine (gives_gateCaseEq (hraw.mono hg₂) hone).imp fun x g' _ hx => ?_
  rw [taken]
  revert hx
  generalize evalExpr m root _ = v
  cases v <;> exact id

def loopRuns (m : CompiledModule) (limit cond : Nat) (body : List Stmt) (k : Nat) : Behaviour :=
  fun st log st' => ∃ j ≤ k, Runs m limit (.loop j cond body) st log st'

variable {cond z : Nat} {xs : List Nat}

variable {body : List Stmt}

theorem loopRuns_zero {limit : Nat} {st : ModuleState} {log : List Write} {st' : ModuleState}
    (h : loopRuns m limit cond body 0 st log st') : Behaviour.skip st log st' := by
  obtain ⟨j, hj, h⟩ := h
  obtain rfl : j = 0 := by omega
  cases h
  exact ⟨rfl, rfl⟩

theorem loopRuns_succ {limit : Nat} {k : Nat} {st : ModuleState} {log : List Write}
    {st' : ModuleState} (h : loopRuns m limit cond body (k + 1) st log st') :
    ((Behaviour.choose (taken m cond) (Runs m limit (.seq body)) .skip).andThen
      (loopRuns m limit cond body k)) st log st' := by
  obtain ⟨j, hj, h⟩ := h
  cases h with
  | loopDone hc =>
    have hc : taken m cond st.values = false := hc
    refine ⟨[], st, [], rfl, ?_, 0, Nat.zero_le k, .loopDone hc⟩
    simp [Behaviour.choose, Behaviour.skip, hc]
  | @loopRound j _ _ _ log₁ st₁ log₂ _ hc hbody hrest =>
    have hc : taken m cond st.values = true := hc
    refine ⟨log₁, st₁, log₂, rfl, ?_, j, Nat.le_of_succ_le_succ hj, hrest⟩
    simpa [Behaviour.choose, hc] using hbody

theorem sim_unroll (law : ops.Lawful m opt ρ targets auxVal assignOk) (hρ : ∀ i, ρ i ≠ .Z) {limit : Nat}
    (hcond : condOk m opt cond = true) {ss : List Stmt} {body : SynthEnv → SynthM SynthEnv}
    (hbody : Sim m opt ρ targets auxVal (Runs m limit (.seq ss)) body) (k : Nat) :
    Sim m opt ρ targets auxVal (loopRuns m limit cond ss k) (unroll m opt ops cond body k) := by
  induction k with
  | zero => exact sim_pure.imp fun st log st' h => loopRuns_zero h
  | succ k ih =>
    intro g env henv
    rw [unroll]
    refine (gives_condNode hρ henv hcond).bind fun x g₁ hg₁ hx => gives_get ?_
    -- a constant condition has the value that the simulator finds
    have hconst {v : LogicT} (hv : g₁.tryGetConst x = some v) :
        v = ofBool (taken m cond (g.valuesOf ρ env.cur)) :=
      (has_of_tryGetConst hv).2.symm.trans hx.2
    have hmerged : Gives g₁ (do
          let t ← body env
          let env ← ops.merge x env env t
          unroll m opt ops cond body k env) fun env' g' =>
        Reaches m opt ρ targets auxVal g env g' env' (loopRuns m limit cond ss (k + 1)) := by
      refine (hbody g₁ env (henv.mono hg₁)).bind fun t g₂ hg₂ ht => ?_
      have hskip : Reaches m opt ρ targets auxVal g env g₂ env .skip := (Reaches.refl henv).mono (hg₁.trans hg₂)
      refine (law.gives_merge (hx.mono hg₂) hskip.ok hskip.frame hskip (ht.start henv hg₁)).bind
        fun env₃ g₃ _ h₃ => ?_
      refine (ih g₃ env₃ h₃.ok).imp fun env' g' _ h' => ?_
      exact (h₃.trans h').imp fun st _ log' st' _ h => loopRuns_succ h
    cases hv : g₁.tryGetConst x with
    | none => exact hmerged
    | some v =>
      have hval := hconst hv
      cases v with
      | X | Z => exact hmerged
      | L =>
        refine gives_pure (((Reaches.refl henv).mono hg₁).imp fun st _ log' st' hf h => ?_)
        rw [hf.cur] at hval
        obtain ⟨log₁, st₁, log₂, rfl, hround, j, hj, hrest⟩ := loopRuns_succ h
        have hc : taken m cond st.values = false := by
          revert hval
          cases taken m cond st.values <;> simp [ofBool]
        rw [Behaviour.choose, if_neg (by simp [hc])] at hround
        obtain ⟨rfl, rfl⟩ := hround
        cases hrest with
        | loopDone => exact ⟨rfl, rfl⟩
        | loopRound hc' => exact absurd (hc'.symm.trans hc) (by decide)
      | H =>
        refine (hbody g₁ env (henv.mono hg₁)).bind fun t g₂ _ ht => ?_
        refine (ih g₂ t ht.ok).imp fun env' g' _ h' => ?_
        refine ((ht.start henv hg₁).trans h').imp fun st _ log' st' hf h => ?_
        rw [hf.cur] at hval
        have hc : taken m cond st.values = true := by
          revert hval
          cases taken m cond st.values <;> simp [ofBool]
        obtain ⟨log₁, st₁, log₂, rfl, hround, hrest⟩ := loopRuns_succ h
        rw [Behaviour.choose, if_pos hc] at hround
        exact ⟨log₁, st₁, log₂, rfl, hround, hrest⟩

theorem gives_bitMatch (hρ : ∀ i, ρ i ≠ .Z) {ck : CaseKind} {a b : Nat} {v w : LogicT} (hz : g.Has ρ z .Z)
    (ha : g.Has ρ a v) (hb : g.Has ρ b w)
    (hknown : ck = .casex → opt.assumeBinaryInputs = true → v.isUnknown = false ∧ w.isUnknown = false) :
    Gives g (bitMatch opt ck z a b) fun n g' => g'.Has ρ n (ofBool (bitMatches ck v w)) := by
  refine (gives_gateCaseEq ha hb).bind fun eq g₁ hg₁ heq => ?_
  cases ck with
  | normal => exact gives_pure heq
  | casez =>
    refine (gives_gateCaseEq (ha.mono hg₁) (hz.mono hg₁)).bind fun az g₂ hg₂ haz => ?_
    refine (gives_gateCaseEq (hb.mono (hg₁.trans hg₂)) (hz.mono (hg₁.trans hg₂))).bind fun bz g₃ hg₃ hbz => ?_
    refine (gives_gateOr hρ (haz.mono hg₃) hbz).bind fun o g₄ hg₄ ho => ?_
    refine (gives_gateOr hρ (heq.mono (hg₂.trans (hg₃.trans hg₄))) ho).imp fun n g' _ hn => ?_
    have hval : logicOr (LogicT.caseEq v w) (logicOr (LogicT.caseEq v .Z) (LogicT.caseEq w .Z)) =
        ofBool (bitMatches .casez v w) := by
      cases v <;> cases w <;> rfl
    rw [← hval]
    exact hn
  | casex =>
    refine (gives_gateIsUnknown (ha.mono hg₁) fun hbin => (hknown rfl hbin).1).bind fun ua g₂ hg₂ hua => ?_
    refine (gives_gateIsUnknown (hb.mono (hg₁.trans hg₂)) fun hbin => (hknown rfl hbin).2).bind
      fun ub g₃ hg₃ hub => ?_
    refine (gives_gateOr hρ (hua.mono hg₃) hub).bind fun o g₄ hg₄ ho => ?_
    refine (gives_gateOr hρ (heq.mono (hg₂.trans (hg₃.trans hg₄))) ho).imp fun n g' _ hn => ?_
    have hval : logicOr (LogicT.caseEq v w) (logicOr (ofBool v.isUnknown) (ofBool w.isUnknown)) =
        ofBool (bitMatches .casex v w) := by
      cases v <;> cases w <;> rfl
    rw [← hval]
    exact hn

theorem Nodes.pattern (hρ : ∀ i, ρ i ≠ .Z) (h : Nodes m opt ρ g xs) {ck : CaseKind}
    (hr : patternOk m opt ck root = true) :
    Gives g (Verilog.exprInEnv m opt.assumeBinaryInputs xs root) fun n g' =>
      g'.Has ρ n (evalExpr m root (g.valuesOf ρ xs)) ∧
        (ck = .casex → opt.assumeBinaryInputs = true → (evalExpr m root (g.valuesOf ρ xs)).isUnknown = false) := by
  by_cases hcond : condOk m opt root = true
  · exact (h.exprInEnv hρ hcond).imp fun n g' _ hn => ⟨hn, fun _ hb => h.known_evalExpr hcond hb⟩
  · have hlit : ck ≠ .casex ∧ isLiteral m root = true := by
      simpa [patternOk, hcond] using hr
    rw [isLiteral] at hlit
    cases hn : m.exprNodes[root]? with
    | none => simp [hn] at hlit
    | some e =>
      cases e with
      | literal v =>
        rw [evalExpr_eq m _ hn]
        exact (gives_exprInEnv_literal hn).imp fun n g' _ hv => ⟨hv, fun hx => absurd hx hlit.1⟩
      | _ => simp [hn] at hlit

def bitsTaken (m : CompiledModule) (ck : CaseKind) (values : List LogicT) (bits : List (LogicT × Nat)) : Bool :=
  bits.all fun b => bitMatches ck b.1 (evalExpr m b.2 values)

theorem gives_matchBits (hρ : ∀ i, ρ i ≠ .Z) {ck : CaseKind} (hz : g.Has ρ z .Z) (h : Nodes m opt ρ g xs)
    (bits : List (Nat × Nat)) (hlt : ∀ b ∈ bits, b.1 < g.nodes.length)
    (hkey : opt.assumeBinaryInputs = true → ∀ b ∈ bits, (g.value ρ b.1).isUnknown = false)
    (hpat : ∀ b ∈ bits, patternOk m opt ck b.2 = true) {acc : Nat} {c : Bool} (hacc : g.Has ρ acc (ofBool c)) :
    Gives g (matchBits m opt ck z xs bits acc) fun n g' => g'.Has ρ n
      (ofBool (c && bitsTaken m ck (g.valuesOf ρ xs) (bits.map fun b => (g.value ρ b.1, b.2)))) := by
  induction bits generalizing g acc c with
  | nil =>
    refine gives_pure ?_
    rw [map_nil, bitsTaken, all_nil, Bool.and_true]
    exact hacc
  | cons b bits ih =>
    rw [matchBits]
    refine (h.pattern hρ (hpat b mem_cons_self)).bind fun mb g₁ hg₁ hmb => ?_
    have hb : g₁.Has ρ b.1 (g.value ρ b.1) := GateNet.Has.mono ⟨hlt b mem_cons_self, rfl⟩ hg₁
    refine (gives_bitMatch hρ (hz.mono hg₁) hb hmb.1
      fun hx hbin => ⟨hkey hbin b mem_cons_self, hmb.2 hx hbin⟩).bind fun bit g₂ hg₂ hbit => ?_
    refine (gives_gateAnd hρ (hacc.mono (hg₁.trans hg₂)) hbit).bind fun acc' g₃ hg₃ hacc' => ?_
    have hg : g.nodes <+: g₃.nodes := hg₁.trans (hg₂.trans hg₃)
    have hand (c c' : Bool) : logicAnd (ofBool c) (ofBool c') = ofBool (c && c') := by
      cases c <;> cases c' <;> rfl
    have hval (b') (hb' : b' ∈ bits) : g₃.value ρ b'.1 = g.value ρ b'.1 :=
      value_mono (hlt b' (mem_cons_of_mem b hb')) hg
    rw [hand] at hacc'
    have hrest := ih (hz.mono hg) (h.mono hg)
      (fun b' hb' => Nat.lt_of_lt_of_le (hlt b' (mem_cons_of_mem b hb')) hg.length_le)
      (fun hbin b' hb' => by rw [hval b' hb']; exact hkey hbin b' (mem_cons_of_mem b hb'))
      (fun b' hb' => hpat b' (mem_cons_of_mem b hb')) hacc'
    refine hrest.imp fun n g' _ hn => ?_
    rw [valuesOf_mono h.lt hg,
      map_congr_left (g := fun b => (g.value ρ b.1, b.2)) fun b' hb' => by rw [hval b' hb']] at hn
    rw [map_cons, bitsTaken, all_cons, ← Bool.and_assoc]
    exact hn

def keyOf (m : CompiledModule) (roots : List Nat) (values : List LogicT) : List LogicT :=
  if roots = [] then [.X] else roots.map fun root => evalExpr m root values

def itemTaken (m : CompiledModule) (ck : CaseKind) (roots : List Nat) (item : CaseItem) (values : List LogicT) : Bool :=
  item.matchRoots.length = (keyOf m roots values).length &&
    bitsTaken m ck values ((keyOf m roots values).zip item.matchRoots)

variable {item : CaseItem}

theorem itemMatches_eq {ck : CaseKind} {roots : List Nat} (st : ModuleState) :
    itemMatches m ck (keyBits m roots st) st item = (!item.isDefault && itemTaken m ck roots item st.values) := by
  rw [itemMatches, itemTaken, ← Bool.and_assoc]
  rfl

structure KeyHas (m : CompiledModule) (opt : StmtOptions) (ρ : Nat → LogicT) (roots : List Nat)
    (values : List LogicT) (g : GateNet) (key : List Nat) : Prop where
  lt : ∀ x ∈ key, x < g.nodes.length
  values : g.valuesOf ρ key = keyOf m roots values
  known : opt.assumeBinaryInputs = true → ∀ x ∈ key, (g.value ρ x).isUnknown = false

theorem KeyHas.mono {roots : List Nat} {values : List LogicT} {key : List Nat}
    (h : KeyHas m opt ρ roots values g key) (hg : g.nodes <+: g'.nodes) : KeyHas m opt ρ roots values g' key := by
  refine ⟨fun x hx => Nat.lt_of_lt_of_le (h.lt x hx) hg.length_le, ?_, fun hb x hx => ?_⟩
  · rw [valuesOf_mono h.lt hg]
    exact h.values
  · rw [value_mono (h.lt x hx) hg]
    exact h.known hb x hx

theorem gives_keyNodes (hρ : ∀ i, ρ i ≠ .Z) (h : Nodes m opt ρ g xs) {roots : List Nat}
    (hroots : ∀ r ∈ roots, condOk m opt r = true) (hne : opt.assumeBinaryInputs = true → roots ≠ []) :
    Gives g (keyNodes m opt roots xs) fun key g' => KeyHas m opt ρ roots (g.valuesOf ρ xs) g' key := by
  unfold keyNodes
  split_ifs with hnil
  · have hconst : Gives g (constNode .X) fun n g' => g'.Has ρ n .X := gives_constNode .X
    refine hconst.bind fun x g₁ _ hx => gives_pure ⟨?_, ?_, fun hb => absurd hnil (hne hb)⟩
    · intro y hy
      obtain rfl : y = x := by simpa using hy
      exact hx.1
    · rw [keyOf, if_pos hnil, ← hx.2]
      rfl
  · have hmap : Gives g (roots.mapM (Verilog.exprInEnv m opt.assumeBinaryInputs xs)) fun ns g' =>
        (∀ n ∈ ns, n < g'.nodes.length) ∧
          g'.valuesOf ρ ns = (roots.map fun root => evalExpr m root (g.valuesOf ρ xs)) ∧
          List.Forall₂ (fun _ _ => True) roots ns := by
      refine gives_mapM roots fun r hr g' hg' => ?_
      have hexpr := (h.mono hg').exprInEnv hρ (hroots r hr)
      rw [valuesOf_mono h.lt hg'] at hexpr
      exact hexpr.imp fun n g'' _ hn => ⟨hn, trivial⟩
    refine hmap.imp fun ns g' _ hns => ⟨hns.1, ?_, fun hb x hx => ?_⟩
    · rw [keyOf, if_neg hnil]
      exact hns.2.1
    · have hmem : g'.value ρ x ∈ g'.valuesOf ρ ns := mem_map_of_mem hx
      rw [hns.2.1] at hmem
      obtain ⟨r, hr, heq⟩ := mem_map.mp hmem
      rw [← heq]
      exact h.known_evalExpr (hroots r hr) hb

theorem gives_itemMatch (hρ : ∀ i, ρ i ≠ .Z) {ck : CaseKind} (hz : g.Has ρ z .Z) (h : Nodes m opt ρ g xs)
    {roots : List Nat} {values : List LogicT} (hvalues : g.valuesOf ρ xs = values) {key : List Nat}
    (hkey : KeyHas m opt ρ roots values g key)
    (hitem : ∀ r ∈ item.matchRoots, patternOk m opt ck r = true) :
    Gives g (itemMatch m opt ck z key xs item.matchRoots) fun n g' =>
      g'.Has ρ n (ofBool (itemTaken m ck roots item values)) := by
  have hlen : (keyOf m roots values).length = key.length := by
    rw [← hkey.values, GateNet.valuesOf, length_map]
  unfold itemMatch
  by_cases hne : item.matchRoots.length ≠ key.length
  · rw [if_pos hne, itemTaken, hlen, decide_eq_false hne]
    exact gives_constNode .L
  · rw [if_neg hne, itemTaken, hlen, decide_eq_true (not_not.mp hne), Bool.true_and]
    have hconst : Gives g (constNode .H) fun n g' => g'.Has ρ n .H := gives_constNode .H
    refine hconst.bind fun one g₁ hg₁ hone => ?_
    have hkey₁ := hkey.mono hg₁
    have hmatch := gives_matchBits hρ (hz.mono hg₁) (h.mono hg₁) (key.zip item.matchRoots)
      (fun b hb => hkey₁.lt b.1 (of_mem_zip hb).1)
      (fun hbin b hb => hkey₁.known hbin b.1 (of_mem_zip hb).1)
      (fun b hb => hitem b.2 (of_mem_zip hb).2) (c := true) hone
    refine hmatch.imp fun n g' _ hn => ?_
    have hzip : (key.zip item.matchRoots).map (fun b => (g₁.value ρ b.1, b.2)) =
        (keyOf m roots values).zip item.matchRoots := by
      rw [← hkey₁.values, GateNet.valuesOf, zip_map_left]
      rfl
    rw [hzip, Bool.true_and, valuesOf_mono h.lt hg₁, hvalues] at hn
    exact hn

def CaseItem.stmts : CaseItem → List Stmt
  | .mk _ _ ss => ss

def defaultRuns (m : CompiledModule) (limit : Nat) : List CaseItem → Behaviour
  | [] => .skip
  | item :: items =>
    if items.any CaseItem.isDefault then defaultRuns m limit items
    else if item.isDefault then Runs m limit (.seq item.stmts)
    else .skip

def itemsRun (m : CompiledModule) (limit : Nat) (ck : CaseKind) (roots : List Nat) (default : Behaviour) :
    List CaseItem → Behaviour
  | [] => default
  | item :: items =>
    if item.isDefault then itemsRun m limit ck roots default items
    else .choose (itemTaken m ck roots item) (Runs m limit (.seq item.stmts))
      (itemsRun m limit ck roots default items)

section

variable {limit : Nat} {ck : CaseKind} {roots : List Nat} {default : Behaviour} {st st' : ModuleState}
variable {log : List Write}

variable (items : List CaseItem)

theorem itemsRun_none
    (h : items.findIdx? (itemMatches m ck (keyBits m roots st) st) = none) (hd : default st log st') :
    itemsRun m limit ck roots default items st log st' := by
  induction items with
  | nil => exact hd
  | cons item items ih =>
    rw [findIdx?_cons] at h
    split_ifs at h with hm
    rw [itemMatches_eq] at hm
    have hrest := ih (Option.map_eq_none_iff.mp h)
    rw [itemsRun]
    split_ifs with hdef
    · exact hrest
    · have hno : itemTaken m ck roots item st.values = false := by simpa [hdef] using hm
      simpa [Behaviour.choose, hno] using hrest

theorem itemsRun_some {i : Nat} {d : Bool} {rs : List Nat} {ss : List Stmt}
    (h : items.findIdx? (itemMatches m ck (keyBits m roots st) st) = some i)
    (hi : items[i]? = some (.mk d rs ss)) (hrun : Runs m limit (.seq ss) st log st') :
    itemsRun m limit ck roots default items st log st' := by
  induction items generalizing i with
  | nil => cases h
  | cons item items ih =>
    rw [findIdx?_cons] at h
    rw [itemsRun]
    by_cases hm : itemMatches m ck (keyBits m roots st) st item = true
    · rw [if_pos hm] at h
      cases h
      obtain rfl : item = .mk d rs ss := by simpa using hi
      rw [itemMatches_eq, Bool.and_eq_true, Bool.not_eq_true'] at hm
      rw [hm.1, if_neg Bool.false_ne_true, Behaviour.choose, if_pos hm.2]
      exact hrun
    · rw [if_neg hm] at h
      obtain ⟨j, hj, rfl⟩ := Option.map_eq_some_iff.mp h
      have hrest := ih hj (by simpa using hi)
      rw [itemMatches_eq] at hm
      split_ifs with hdef
      · exact hrest
      · have hno : itemTaken m ck roots item st.values = false := by simpa [hdef] using hm
        simpa [Behaviour.choose, hno] using hrest

def lastDefault : Option Nat :=
  (items.reverse.findIdx? CaseItem.isDefault).map fun i => items.length - 1 - i

theorem lastDefault_eq_none {items : List CaseItem} :
    lastDefault items = none ↔ items.any CaseItem.isDefault = false := by
  rw [lastDefault, Option.map_eq_none_iff, findIdx?_eq_none_iff, any_eq_false]
  simp

theorem lastDefault_cons (item : CaseItem) (items : List CaseItem) :
    lastDefault (item :: items) =
      ((lastDefault items).map (· + 1)).or (if item.isDefault then some 0 else none) := by
  rw [lastDefault, reverse_cons, findIdx?_append]
  cases hf : items.reverse.findIdx? CaseItem.isDefault with
  | some i =>
    obtain ⟨hlt, -⟩ := findIdx?_eq_some_iff_getElem.mp hf
    rw [length_reverse] at hlt
    have : items.length - i = items.length - 1 - i + 1 := by omega
    simp [lastDefault, hf, this]
  | none =>
    cases hd : item.isDefault <;> simp [lastDefault, hf, hd, findIdx?_cons]

theorem defaultRuns_of_lastDefault
    (hnone : lastDefault items = none → Behaviour.skip st log st')
    (hsome : ∀ i d rs ss, lastDefault items = some i → items[i]? = some (.mk d rs ss) →
      Runs m limit (.seq ss) st log st') : defaultRuns m limit items st log st' := by
  induction items with
  | nil => exact hnone rfl
  | cons item items ih =>
    rw [defaultRuns]
    cases hl : lastDefault items with
    | some i =>
      have hany : items.any CaseItem.isDefault = true := by
        by_contra h
        rw [lastDefault_eq_none.mpr (by simpa using h)] at hl
        cases hl
      rw [if_pos hany]
      apply ih
      · intro h
        rw [hl] at h
        cases h
      · intro j d rs ss hj hi
        refine hsome (j + 1) d rs ss ?_ hi
        rw [lastDefault_cons, hj]
        rfl
    | none =>
      rw [if_neg (by simp [lastDefault_eq_none.mp hl])]
      split_ifs with hd
      · obtain ⟨d, rs, ss⟩ := item
        refine hsome 0 d rs ss ?_ rfl
        rw [lastDefault_cons, hl, if_pos hd]
        rfl
      · apply hnone
        rw [lastDefault_cons, hl, if_neg hd]
        rfl

theorem itemsRun_of_runs {items : List CaseItem} (h : Runs m limit (.one (.caseStmt ck roots items)) st log st') :
    itemsRun m limit ck roots (defaultRuns m limit items) items st log st' := by
  have hchosen : chosenItem m ck roots items st =
      (items.findIdx? (itemMatches m ck (keyBits m roots st) st)).or (lastDefault items) := rfl
  cases hf : items.findIdx? (itemMatches m ck (keyBits m roots st) st) with
  | none =>
    rw [hf, Option.none_or] at hchosen
    refine itemsRun_none items hf ?_
    cases h with
    | caseNone hnone =>
      refine defaultRuns_of_lastDefault items (fun _ => ⟨rfl, rfl⟩) fun i d rs ss hi => ?_
      rw [← hchosen, hnone] at hi
      cases hi
    | caseSome hsome hitem hrun =>
      refine defaultRuns_of_lastDefault items (fun hnone => ?_) fun i d rs ss hi hitem' => ?_
      · rw [← hchosen, hsome] at hnone
        cases hnone
      · rw [← hchosen, hsome] at hi
        cases hi
        rw [hitem] at hitem'
        cases hitem'
        exact hrun
  | some i =>
    rw [hf, Option.some_or] at hchosen
    cases h with
    | caseNone hnone =>
      rw [hnone] at hchosen
      cases hchosen
    | caseSome hsome hitem hrun =>
      rw [hchosen] at hsome
      cases hsome
      exact itemsRun_some items hf hitem hrun

end

theorem runs_single {limit : Nat} {s : Stmt} {st st' : ModuleState} {log : List Write}
    (h : Runs m limit (.seq [s]) st log st') : Runs m limit (.one s) st log st' := by
  cases h with
  | cons hs hnil =>
    cases hnil
    rw [append_nil]
    exact hs

theorem runs_pair {limit : Nat} {s s' : Stmt} {st st' : ModuleState} {log : List Write}
    (h : Runs m limit (.seq [s, s']) st log st') :
    (Behaviour.andThen (Runs m limit (.one s)) (Runs m limit (.one s'))) st log st' := by
  cases h with
  | @cons _ _ _ log₁ st₁ log₂ _ hs hrest => exact ⟨log₁, st₁, log₂, rfl, hs, runs_single hrest⟩

mutual

theorem sim_synthStmt (law : ops.Lawful m opt ρ targets auxVal assignOk) (hρ : ∀ i, ρ i ≠ .Z) :
    ∀ s, stmtOk m opt assignOk s = true →
      Sim m opt ρ targets auxVal (Runs m opt.loopUnrollLimit (.one s)) (synthStmt m opt ops s)
  | .empty, _ => by
    refine Sim.imp sim_pure fun st log st' h => ?_
    cases h
    exact ⟨rfl, rfl⟩
  | .block ss, hok => by
    refine Sim.imp (sim_synthStmts law hρ ss (by simpa [stmtOk] using hok)) fun st log st' h => ?_
    cases h with
    | block h => exact h
  | .subprogramBlock ss, hok => by
    refine Sim.imp (sim_synthStmts law hρ ss (by simpa [stmtOk] using hok)) fun st log st' h => ?_
    cases h with
    | subprogram h => exact h
  | .assign a, hok => law.assign a (by simpa [stmtOk] using hok)
  | .ifStmt cond ts es, hok => by
    simp only [stmtOk, Bool.and_eq_true] at hok
    intro g env henv
    rw [synthStmt]
    refine (gives_condNode hρ henv hok.1.1).bind fun c g₁ hg₁ hc => ?_
    refine (sim_synthStmts law hρ ts hok.1.2 g₁ env (henv.mono hg₁)).bind fun t g₂ hg₂ ht => ?_
    have hg := hg₁.trans hg₂
    refine (sim_synthStmts law hρ es hok.2 g₂ env (henv.mono hg)).bind fun e g₃ hg₃ he => ?_
    refine (law.gives_merge (hc.mono (hg₂.trans hg₃)) (henv.mono (hg.trans hg₃)) (Frame.refl env)
      (he.start henv hg) ((ht.start henv hg₁).mono hg₃)).imp fun env' g' _ h => ?_
    refine h.imp fun st _ log st' _ hrun => ?_
    cases hrun with
    | ifThen hc hrun =>
      have hc : taken m cond st.values = true := hc
      rw [Behaviour.choose, if_pos hc]
      exact hrun
    | ifElse hc hrun =>
      have hc : taken m cond st.values = false := hc
      rw [Behaviour.choose, hc, if_neg Bool.false_ne_true]
      exact hrun
  | .caseStmt ck roots items, hok => by
    simp only [stmtOk, Bool.and_eq_true, all_eq_true, Bool.or_eq_true, Bool.not_eq_true',
      decide_eq_true_eq] at hok
    have hne : opt.assumeBinaryInputs = true → roots ≠ [] := by
      intro hb
      simpa [hb] using hok.1.2
    intro g env henv
    rw [synthStmt]
    refine (gives_keyNodes hρ henv.cur hok.1.1 hne).bind fun key g₁ hg₁ hkey => ?_
    have hconst : Gives g₁ (constNode .Z) fun n g' => g'.Has ρ n .Z := gives_constNode .Z
    refine hconst.bind fun z g₂ hg₂ hz => ?_
    have hg := hg₁.trans hg₂
    refine (sim_synthDefault law hρ ck items hok.2 g₂ env (henv.mono hg)).bind fun agg g₃ hg₃ hagg => ?_
    refine (sim_synthItems law hρ ck items hok.2 henv (hg.trans hg₃) (hz.mono hg₃) (hkey.mono (hg₂.trans hg₃))
      (hagg.start henv hg)).imp fun env' g' _ h => ?_
    exact h.imp fun st _ log st' _ hrun => itemsRun_of_runs hrun
  | .forStmt init cond step body, hok => by
    simp only [stmtOk, Bool.and_eq_true, decide_eq_true_eq] at hok
    obtain ⟨⟨⟨⟨hlimit, hcond⟩, hinit⟩, hstep⟩, hbody⟩ := hok
    have hround := Sim.imp ((sim_synthStmt law hρ body hbody).bind (sim_synthStmt law hρ step hstep))
      fun st log st' h => runs_pair h
    have hloop := (sim_synthStmt law hρ init hinit).bind (sim_unroll law hρ hcond hround opt.loopUnrollLimit)
    intro g env henv
    rw [synthStmt, if_neg (Nat.ne_of_gt hlimit)]
    refine (hloop g env henv).imp fun env' g' _ h => h.imp fun st _ log st' _ hrun => ?_
    cases hrun with
    | @forStmt _ _ _ _ _ log₁ st₁ log₂ _ hinit hrest =>
      exact ⟨log₁, st₁, log₂, rfl, hinit, maxRounds opt.loopUnrollLimit, Nat.min_le_left _ _, hrest⟩
  | .whileStmt cond body, hok => by
    simp only [stmtOk, Bool.and_eq_true, decide_eq_true_eq] at hok
    obtain ⟨⟨hlimit, hcond⟩, hbody⟩ := hok
    have hround := Sim.imp (sim_synthStmt law hρ body hbody) fun st log st' h => runs_single h
    intro g env henv
    rw [synthStmt, if_neg (Nat.ne_of_gt hlimit)]
    refine (sim_unroll law hρ hcond hround opt.loopUnrollLimit g env henv).imp fun env' g' _ h => ?_
    refine h.imp fun st _ log st' _ hrun => ?_
    cases hrun with
    | whileStmt hrun => exact ⟨maxRounds opt.loopUnrollLimit, Nat.min_le_left _ _, hrun⟩
  | .doWhileStmt cond body, hok => by
    simp only [stmtOk, Bool.and_eq_true, decide_eq_true_eq] at hok
    obtain ⟨⟨hlimit, hcond⟩, hbody⟩ := hok
    have hround := Sim.imp (sim_synthStmt law hρ body hbody) fun st log st' h => runs_single h
    have hloop := (sim_synthStmt law hρ body hbody).bind (sim_unroll law hρ hcond hround (opt.loopUnrollLimit - 1))
    intro g env henv
    rw [synthStmt, if_neg (Nat.ne_of_gt hlimit)]
    refine (hloop g env henv).imp fun env' g' _ h => h.imp fun st _ log st' _ hrun => ?_
    cases hrun with
    | @doWhileStmt _ _ _ log₁ st₁ log₂ _ _ hfirst hrest =>
      refine ⟨log₁, st₁, log₂, rfl, hfirst, maxRounds opt.loopUnrollLimit - 1, ?_, hrest⟩
      exact Nat.sub_le_sub_right (Nat.min_le_left _ _) 1
  | .returnStmt, hok => by simp [stmtOk] at hok
  | .breakStmt, hok => by simp [stmtOk] at hok
  | .continueStmt, hok => by simp [stmtOk] at hok

theorem sim_synthStmts (law : ops.Lawful m opt ρ targets auxVal assignOk) (hρ : ∀ i, ρ i ≠ .Z) :
    ∀ ss, stmtsOk m opt assignOk ss = true →
      Sim m opt ρ targets auxVal (Runs m opt.loopUnrollLimit (.seq ss)) (synthStmts m opt ops ss)
  | [], _ => by
    refine Sim.imp sim_pure fun st log st' h => ?_
    cases h
    exact ⟨rfl, rfl⟩
  | s :: ss, hok => by
    simp only [stmtsOk, Bool.and_eq_true] at hok
    refine Sim.imp ((sim_synthStmt law hρ s hok.1).bind (sim_synthStmts law hρ ss hok.2)) fun st log st' h => ?_
    cases h with
    | @cons _ _ _ log₁ st₁ log₂ _ hs hss => exact ⟨log₁, st₁, log₂, rfl, hs, hss⟩

theorem sim_synthDefault (law : ops.Lawful m opt ρ targets auxVal assignOk) (hρ : ∀ i, ρ i ≠ .Z)
    (ck : CaseKind) :
    ∀ items, itemsOk m opt assignOk ck items = true →
      Sim m opt ρ targets auxVal (defaultRuns m opt.loopUnrollLimit items) (synthDefault m opt ops items)
  | [], _ => sim_pure
  | item :: items, hok => by
    simp only [itemsOk, Bool.and_eq_true] at hok
    intro g env henv
    rw [synthDefault, defaultRuns]
    split_ifs
    · exact sim_synthDefault law hρ ck items hok.2 g env henv
    · exact sim_synthItem law hρ ck item hok.1 g env henv
    · exact sim_pure g env henv

theorem sim_synthItems (law : ops.Lawful m opt ρ targets auxVal assignOk) (hρ : ∀ i, ρ i ≠ .Z)
    (ck : CaseKind) :
    ∀ items, itemsOk m opt assignOk ck items = true →
      ∀ {g g₁ : GateNet} {env : SynthEnv}, EnvOk m opt ρ g env → g.nodes <+: g₁.nodes →
    ∀ {z : Nat}, g₁.Has ρ z .Z → ∀ {roots key : List Nat}, KeyHas m opt ρ roots (g.valuesOf ρ env.cur) g₁ key →
    ∀ {agg : SynthEnv} {default : Behaviour}, Reaches m opt ρ targets auxVal g env g₁ agg default →
    Gives g₁ (synthItems m opt ops ck z key env items agg) fun env' g' => Reaches m opt ρ targets auxVal g env g' env'
      (itemsRun m opt.loopUnrollLimit ck roots default items)
  | [], _, _, _, _, _, _, _, _, _, _, _, _, _, hagg => gives_pure hagg
  | item :: items, hok, g, g₁, env, henv, hg, z, hz, roots, key, hkey, agg, default, hagg => by
    simp only [itemsOk, Bool.and_eq_true] at hok
    rw [synthItems, itemsRun]
    refine (sim_synthItems law hρ ck items hok.2 henv hg hz hkey hagg).bind fun agg' g₂ hg₂ hagg' => ?_
    split_ifs with hd
    · exact gives_pure hagg'
    · have hpat : ∀ r ∈ item.matchRoots, patternOk m opt ck r = true := by
        obtain ⟨d, rs, ss⟩ := item
        simp only [itemOk, Bool.and_eq_true, all_eq_true] at hok
        exact hok.1.1
      have hg' := hg.trans hg₂
      refine (gives_itemMatch hρ (hz.mono hg₂) (henv.mono hg').cur (valuesOf_mono henv.cur.lt hg')
        (hkey.mono hg₂) hpat).bind fun mt g₃ hg₃ hmt => ?_
      refine (sim_synthItem law hρ ck item hok.1 g₃ env (henv.mono (hg'.trans hg₃))).bind fun t g₄ hg₄ ht => ?_
      have hagg₄ := hagg'.mono (hg₃.trans hg₄)
      exact law.gives_merge (hmt.mono hg₄) hagg₄.ok hagg₄.frame hagg₄ (ht.start henv (hg'.trans hg₃))

theorem sim_synthItem (law : ops.Lawful m opt ρ targets auxVal assignOk) (hρ : ∀ i, ρ i ≠ .Z)
    (ck : CaseKind) :
    ∀ item, itemOk m opt assignOk ck item = true →
      Sim m opt ρ targets auxVal (Runs m opt.loopUnrollLimit (.seq item.stmts)) (synthItem m opt ops item)
  | .mk _ _ ss, hok => by
    simp only [itemOk, Bool.and_eq_true] at hok
    exact sim_synthStmts law hρ ss hok.2

end

end

end PhyEngine.Verilog
