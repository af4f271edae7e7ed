import PhyEngine.Synth.AsyncReset
import PhyEngine.Verilog.ExprSound

/-!
# The pins of flip-flops with an asynchronous reset

A block with a clock edge and then a reset edge, whose body is one `if` on the reset signal. The
synthesis finds the reset branch and its values, and the pins of the flip-flops have the values
that the simulator gives.
-/

namespace PhyEngine.Verilog

open LogicT ModuleState List

/-- For a known reset signal, the condition is true exactly when the signal is `one`. -/
def CondReads (m : CompiledModule) (cond rst : Nat) (one : Bool) : Prop :=
  ∀ values : List LogicT, (values.getD rst .X).isUnknown = false →
    taken m cond values = (values.getD rst .X == ofBool one)

variable {a : Assign} {s rst cond : Nat} {v : LogicT} {one : Bool} {roots : List Stmt}

theorem matchSigLit_cases {m : CompiledModule} {a b : Nat} (h : matchSigLit m a b = some (s, v)) :
    (m.exprNodes[a]? = some (.signal s) ∧ m.exprNodes[b]? = some (.literal v)) ∨
      (m.exprNodes[a]? = some (.literal v) ∧ m.exprNodes[b]? = some (.signal s)) := by
  unfold matchSigLit at h
  split at h
  · rename_i ha hb
    obtain ⟨rfl, rfl⟩ := Prod.mk.inj (Option.some.inj h)
    exact .inl ⟨ha, hb⟩
  · rename_i ha hb
    obtain ⟨rfl, rfl⟩ := Prod.mk.inj (Option.some.inj h)
    exact .inr ⟨ha, hb⟩
  · cases h

theorem evalExpr_signal {m : CompiledModule} {root : Nat} (h : m.exprNodes[root]? = some (.signal s))
    (values : List LogicT) : evalExpr m root values = values.getD s .X := evalExpr_eq m values h

theorem evalExpr_literal {m : CompiledModule} {root : Nat} (h : m.exprNodes[root]? = some (.literal v))
    (values : List LogicT) : evalExpr m root values = v := evalExpr_eq m values h

theorem litIsOne_eq_some (h : litIsOne v = some one) : v = ofBool one := by
  cases v <;> cases one <;> first | rfl | cases h

theorem matchSigLit_values {m : CompiledModule} {a b : Nat} (h : matchSigLit m a b = some (s, v))
    (values : List LogicT) :
    (evalExpr m a values = values.getD s .X ∧ evalExpr m b values = v) ∨
      (evalExpr m a values = v ∧ evalExpr m b values = values.getD s .X) := by
  rcases matchSigLit_cases h with ⟨ha, hb⟩ | ⟨ha, hb⟩
  · exact .inl ⟨evalExpr_signal ha values, evalExpr_literal hb values⟩
  · exact .inr ⟨evalExpr_literal ha values, evalExpr_signal hb values⟩

theorem exists_lit {m : CompiledModule} {a b : Nat} {f : Bool → Bool}
    (h : ((matchSigLit m a b).bind fun p => (litIsOne p.2).map fun lit => (p.1, f lit)) = some (rst, one)) :
    ∃ lit, matchSigLit m a b = some (rst, ofBool lit) ∧ f lit = one := by
  obtain ⟨⟨s, v⟩, hlit, hone⟩ := Option.bind_eq_some_iff.mp h
  obtain ⟨lit, hv, heq⟩ := Option.map_eq_some_iff.mp hone
  obtain ⟨rfl, rfl⟩ := Prod.mk.inj heq
  obtain rfl := litIsOne_eq_some hv
  exact ⟨lit, hlit, rfl⟩

theorem compare_lit {m : CompiledModule} (f : LogicT → LogicT → LogicT) (g : Bool → Bool → Bool)
    (hf : ∀ v w, f (ofBool v) (ofBool w) = ofBool (g v w)) (hsymm : ∀ v w, g v w = g w v) {a b : Nat} {lit : Bool}
    (h : matchSigLit m a b = some (rst, ofBool lit)) {values : List LogicT} {now : Bool}
    (hnow : values.getD rst .X = ofBool now) : f (evalExpr m a values) (evalExpr m b values) = ofBool (g now lit) := by
  rcases matchSigLit_values h values with ⟨ha, hb⟩ | ⟨ha, hb⟩
  · rw [ha, hb, hnow, hf]
  · rw [ha, hb, hnow, hf, hsymm]

theorem exists_ofBool (h : v.isUnknown = false) : ∃ c, v = ofBool c := by
  cases v
  · exact ⟨false, rfl⟩
  · exact ⟨true, rfl⟩
  · cases h
  · cases h

theorem condReads_of_matchCond {m : CompiledModule} (h : matchCond m cond = some (rst, one)) :
    CondReads m cond rst one := by
  intro values hknown
  obtain ⟨now, hnow⟩ := exists_ofBool hknown
  suffices heval : evalExpr m cond values = ofBool (now == one) by
    rw [taken, heval, hnow]
    cases now <;> cases one <;> decide
  unfold matchCond at h
  split at h
  · rename_i s hn
    obtain ⟨rfl, rfl⟩ := Prod.mk.inj (Option.some.inj h)
    rw [evalExpr_signal hn, hnow]
    cases now <;> rfl
  · rename_i a hn
    split at h
    · rename_i s ha
      obtain ⟨rfl, rfl⟩ := Prod.mk.inj (Option.some.inj h)
      rw [evalExpr_eq m values hn, ExprNode.combine, evalExpr_signal ha, hnow]
      cases now <;> rfl
    · cases h
  · rename_i a b hn
    obtain ⟨lit, hlit, rfl⟩ := exists_lit h
    rw [evalExpr_eq m values hn, ExprNode.combine, compare_lit logicEq (· == ·) (by decide) (by decide) hlit hnow]
  · rename_i a b hn
    obtain ⟨lit, hlit, rfl⟩ := exists_lit h
    rw [evalExpr_eq m values hn, ExprNode.combine, compare_lit caseEq (· == ·) (by decide) (by decide) hlit hnow]
  · rename_i a b hn
    obtain ⟨lit, hlit, rfl⟩ := exists_lit h
    rw [evalExpr_eq m values hn, ExprNode.combine, compare_lit logicNeq (· != ·) (by decide) (by decide) hlit hnow]
    cases now <;> cases lit <;> rfl
  · cases h

section

variable {m : CompiledModule} {limit : Nat} {st st' : ModuleState} {log : List Write}

variable {s : Stmt} {ss ts es : List Stmt}

theorem Stmt.eq_empty_of_isEmpty (h : s.isEmpty = true) : s = .empty := by
  cases s <;> first | rfl | cases h

theorem runs_empties (h : ss.filter (fun s => !s.isEmpty) = []) (hrun : Runs m limit (.seq ss) st log st') :
    log = [] ∧ st' = st := by
  induction ss generalizing log st with
  | nil =>
    cases hrun
    exact ⟨rfl, rfl⟩
  | cons t ss ih =>
    rw [filter_eq_nil_iff] at h
    obtain rfl := Stmt.eq_empty_of_isEmpty (by simpa using h t mem_cons_self)
    cases hrun with
    | cons ht hrest =>
      cases ht
      refine ih ?_ hrest
      rw [filter_eq_nil_iff]
      exact fun s hs => h s (mem_cons_of_mem _ hs)

theorem runs_of_filter (h : ss.filter (fun s => !s.isEmpty) = [s]) (hrun : Runs m limit (.seq ss) st log st') :
    Runs m limit (.one s) st log st' := by
  induction ss generalizing log st with
  | nil => cases h
  | cons t ss ih =>
    rw [filter_cons] at h
    cases hrun with
    | cons ht hrest =>
      split at h
      · obtain ⟨rfl, hnil⟩ := List.cons.inj h
        obtain ⟨rfl, rfl⟩ := runs_empties hnil hrest
        rw [append_nil]
        exact ht
      · rename_i hempty
        obtain rfl := Stmt.eq_empty_of_isEmpty (s := t) (by simpa using hempty)
        cases ht
        exact ih h hrest

theorem exists_filter_of_find (h : findAsyncResetIfStmt roots = some (cond, ts, es)) :
    ∃ ss, ss.filter (fun s => !s.isEmpty) = [.ifStmt cond ts es] ∧ (roots = ss ∨ roots = [.block ss]) := by
  unfold findAsyncResetIfStmt at h
  split at h
  · obtain ⟨rfl, rfl, rfl⟩ : _ ∧ _ ∧ _ := by simpa using h
    exact ⟨_, rfl, .inl rfl⟩
  · rename_i ss
    split at h
    · rename_i hfilter
      obtain ⟨rfl, rfl, rfl⟩ : _ ∧ _ ∧ _ := by simpa using h
      exact ⟨ss, hfilter, .inr rfl⟩
    · cases h
  · cases h

theorem runs_if_of_find (h : findAsyncResetIfStmt roots = some (cond, ts, es))
    (hrun : Runs m limit (.seq roots) st log st') :
    Runs m limit (.seq (if holds m cond st then ts else es)) st log st' := by
  have hif : Runs m limit (.one (.ifStmt cond ts es)) st log st' := by
    obtain ⟨ss, hfilter, rfl | rfl⟩ := exists_filter_of_find h
    · exact runs_of_filter hfilter hrun
    · cases runs_single hrun with
      | block hblock => exact runs_of_filter hfilter hblock
  cases hif with
  | ifThen hc hts => rwa [if_pos hc]
  | ifElse hc hes => rwa [if_neg (by rw [hc]; exact Bool.false_ne_true)]

theorem mem_assignsOfList (hs : s ∈ ss) (ha : a ∈ s.assigns) :
    a ∈ Stmt.assignsOfList ss := by
  induction ss with
  | nil => cases hs
  | cons t ss ih =>
    rw [Stmt.assignsOfList, mem_append]
    rcases mem_cons.mp hs with rfl | hs
    · exact .inl ha
    · exact .inr (ih hs)

theorem assigns_of_find (h : findAsyncResetIfStmt roots = some (cond, ts, es))
    (ha : a ∈ Stmt.assignsOfList ts ∨ a ∈ Stmt.assignsOfList es) : a ∈ Stmt.assignsOfList roots := by
  obtain ⟨ss, hfilter, hroots⟩ := exists_filter_of_find h
  have hmem : Stmt.ifStmt cond ts es ∈ ss := mem_of_mem_filter (hfilter ▸ mem_singleton_self _)
  have hss : a ∈ Stmt.assignsOfList ss := mem_assignsOfList hmem (mem_append.mpr ha)
  rcases hroots with rfl | rfl
  · exact hss
  · exact mem_assignsOfList (mem_singleton_self _) hss

theorem stmtOk_of_mem {opt : StmtOptions} {p : Assign → Bool} (h : stmtsOk m opt p ss = true) (hs : s ∈ ss) :
    stmtOk m opt p s = true := by
  induction ss with
  | nil => cases hs
  | cons t ss ih =>
    rw [stmtsOk, Bool.and_eq_true] at h
    rcases mem_cons.mp hs with rfl | hs
    · exact h.1
    · exact ih h.2 hs

theorem condOk_of_find {opt : StmtOptions} {p : Assign → Bool} (h : findAsyncResetIfStmt roots = some (cond, ts, es))
    (hok : stmtsOk m opt p roots = true) :
    condOk m opt cond = true := by
  obtain ⟨ss, hfilter, hroots⟩ := exists_filter_of_find h
  have hmem : Stmt.ifStmt cond ts es ∈ ss := mem_of_mem_filter (hfilter ▸ mem_singleton_self _)
  have hss : stmtsOk m opt p ss = true := by
    rcases hroots with rfl | rfl
    · exact hok
    · exact stmtOk_of_mem hok (mem_singleton_self _)
  have hif : (condOk m opt cond && stmtsOk m opt p ts && stmtsOk m opt p es) = true := stmtOk_of_mem hss hmem
  rw [Bool.and_eq_true, Bool.and_eq_true] at hif
  exact hif.1.1

end

section

variable {b : InstanceBuilder} {targets : List Bool} {st st' : ModuleState} {log : List Write}

theorem foldlM_noteReset {ps : List (Nat × Nat)} {resets resets' : ResetValues}
    (h : ps.foldlM (noteReset b targets) resets = some resets') (hst : b.KeepsConsts st)
    (hlen : resets.length = st.values.length)
    (htargets : ∀ p ∈ ps, p.1 < st.values.length → targets.getD p.1 false = true) :
    resets'.length = resets.length ∧ ∀ s v,
      written (existing st (ps.map fun p => (p.1, evalExpr b.inst.mod p.2 st.values))) s ((resets.getD s none).getD v) =
        (resets'.getD s none).getD v := by
  induction ps generalizing resets with
  | nil =>
    obtain rfl := Option.some.inj h
    exact ⟨rfl, fun s v => rfl⟩
  | cons p ps ih =>
    rw [foldlM_cons, Option.bind_eq_bind, Option.bind_eq_some_iff] at h
    obtain ⟨mid, hmid, hrest⟩ := h
    rw [forall_mem_cons] at htargets
    unfold noteReset at hmid
    rw [map_cons, existing, filter_cons]
    split_ifs at hmid with hout htarget
    · obtain rfl := Option.some.inj hmid
      rw [if_neg (by simpa [← hlen] using hout)]
      exact ih hrest hlen htargets.2
    · rw [htargets.1 (by omega)] at htarget
      cases htarget
    · obtain ⟨c, hc, rfl⟩ := Option.map_eq_some_iff.mp hmid
      obtain ⟨hlen', hwritten⟩ := ih hrest (by rw [length_set, hlen]) htargets.2
      rw [length_set] at hlen'
      refine ⟨hlen', fun s v => ?_⟩
      rw [if_pos (by simpa [← hlen] using hout), written_cons, ← hwritten s v, evalExpr_of_const hst hc]
      by_cases hs : p.1 = s
      · subst hs
        rw [if_pos rfl, getD_eq_getElem _ _ (by rw [length_set]; omega), getElem_set_self]
        rfl
      · rw [if_neg hs, getD_eq_getElem?_getD, getD_eq_getElem?_getD, getElem?_set_ne hs]
        rfl

def AssignFits (b : InstanceBuilder) (targets : List Bool) (a : Assign) : Prop :=
  ∀ s ∈ a.lhs, b.constSignal s = none ∧ (s < b.inst.mod.signalNames.length → targets.getD s false = true)

theorem get_perform_of_not_mem (h : s ∉ log.map Write.signal) : (st.perform log).get s = st.get s := by
  have hframe : StateFrame (fun t => t ∈ log.map Write.signal) (fun _ => True) st
      (st.assignAll (Write.entries false log)).1 := by
    refine StateFrame.assignAll st fun w hw => ?_
    obtain ⟨e, he, -, hs⟩ := Write.mem_entries (mem_map_of_mem hw)
    rw [← hs]
    exact mem_map_of_mem he
  exact hframe.get s h

variable {m : CompiledModule}

theorem signal_logged (h : s ∈ (a.logged m st).map Write.signal) :
    s ∈ a.lhs := by
  obtain ⟨w, hw, rfl⟩ := mem_map.mp h
  unfold Assign.logged at hw
  split at hw
  · cases hw
  · obtain ⟨e, he, rfl⟩ := mem_map.mp hw
    exact mem_sampleWrites (mem_of_mem_filter he)

theorem entries_of_logged (h : a.lhs.length = a.rhs.length) :
    (a.logged m st).map Write.entry = existing st ((a.lhs.zip a.rhs).map fun p => (p.1, evalExpr m p.2 st.values)) := by
  rw [Assign.logged, if_neg (not_not.mpr h), List.map_map, sampleWrites, zip_map_right]
  exact map_id _

theorem keepsConsts_perform (ha : AssignFits b targets a) (hst : b.KeepsConsts st) :
    b.KeepsConsts (st.perform (a.logged m st)) := by
  intro s v hs
  rw [get_perform_of_not_mem]
  · exact hst s v hs
  · intro hmem
    rw [(ha s (signal_logged hmem)).1] at hs
    cases hs

/-- What a reset branch leaves: the constants have their values, and the last writes are the
collected values. -/
structure Collected (b : InstanceBuilder) (resets resets' : ResetValues) (st' : ModuleState)
    (log : List Write) : Prop where
  length : resets'.length = resets.length
  values : st'.values.length = resets.length
  consts : b.KeepsConsts st'
  written : ∀ s v, written (log.map Write.entry) s ((resets.getD s none).getD v) = (resets'.getD s none).getD v

variable {limit : Nat}

mutual

theorem collected_stmt : ∀ (s : Stmt) {resets resets' : ResetValues} {st st' : ModuleState} {log : List Write},
    tryCollectAsyncResetValues b targets s resets = some resets' → Runs b.inst.mod limit (.one s) st log st' →
    (∀ a ∈ s.assigns, AssignFits b targets a) → b.KeepsConsts st → resets.length = st.values.length →
    st.values.length = b.inst.mod.signalNames.length → Collected b resets resets' st' log
  | .empty, resets, resets', st, st', log, h, hrun, _, hst, hlen, _ => by
    cases hrun
    obtain rfl := Option.some.inj h
    exact ⟨rfl, hlen.symm, hst, fun s v => rfl⟩
  | .block ss, resets, resets', st, st', log, h, hrun, hok, hst, hlen, hn => by
    cases hrun with
    | block hss => exact collected_all ss h hss hok hst hlen hn
  | .assign a, resets, resets', st, st', log, h, hrun, hok, hst, hlen, hn => by
    cases hrun
    have ha : AssignFits b targets a := hok a (by simp [Stmt.assigns])
    have hvalues : (st.perform (a.logged b.inst.mod st)).values.length = resets.length := by
      rw [length_perform, hlen]
    unfold tryCollectAsyncResetValues at h
    split_ifs at h with hsides
    · obtain rfl := Option.some.inj h
      refine ⟨rfl, hvalues, keepsConsts_perform ha hst, fun s v => ?_⟩
      rw [Assign.logged_of_length (.inl hsides)]
      rfl
    · obtain ⟨hlength, hwritten⟩ := foldlM_noteReset h hst hlen fun p hp hlt =>
        (ha p.1 (of_mem_zip hp).1).2 (hn ▸ hlt)
      refine ⟨hlength, hvalues, keepsConsts_perform ha hst, ?_⟩
      rw [entries_of_logged (not_not.mp hsides)]
      exact hwritten
  | .subprogramBlock _, _, _, _, _, _, h, _, _, _, _, _ => by cases h
  | .ifStmt _ _ _, _, _, _, _, _, h, _, _, _, _, _ => by cases h
  | .caseStmt _ _ _, _, _, _, _, _, h, _, _, _, _, _ => by cases h
  | .forStmt _ _ _ _, _, _, _, _, _, h, _, _, _, _, _ => by cases h
  | .whileStmt _ _, _, _, _, _, _, h, _, _, _, _, _ => by cases h
  | .doWhileStmt _ _, _, _, _, _, _, h, _, _, _, _, _ => by cases h
  | .returnStmt, _, _, _, _, _, h, _, _, _, _, _ => by cases h
  | .breakStmt, _, _, _, _, _, h, _, _, _, _, _ => by cases h
  | .continueStmt, _, _, _, _, _, h, _, _, _, _, _ => by cases h

theorem collected_all : ∀ (ss : List Stmt) {resets resets' : ResetValues} {st st' : ModuleState} {log : List Write},
    tryCollectAll b targets ss resets = some resets' → Runs b.inst.mod limit (.seq ss) st log st' →
    (∀ a ∈ Stmt.assignsOfList ss, AssignFits b targets a) → b.KeepsConsts st → resets.length = st.values.length →
    st.values.length = b.inst.mod.signalNames.length → Collected b resets resets' st' log
  | [], resets, resets', st, st', log, h, hrun, _, hst, hlen, _ => by
    cases hrun
    obtain rfl := Option.some.inj h
    exact ⟨rfl, hlen.symm, hst, fun s v => rfl⟩
  | s :: ss, resets, resets', st, st', log, h, hrun, hok, hst, hlen, hn => by
    obtain ⟨mid, hmid, hrest⟩ := Option.bind_eq_some_iff.mp h
    rw [Stmt.assignsOfList, forall_mem_append] at hok
    cases hrun with
    | cons hs hss =>
      have hfirst := collected_stmt s hmid hs hok.1 hst hlen hn
      have hsecond := collected_all ss hrest hss hok.2 hfirst.consts (by rw [hfirst.length, hfirst.values])
        (by rw [hfirst.values, hlen, hn])
      refine ⟨hsecond.length.trans hfirst.length, hsecond.values.trans hfirst.length, hsecond.consts, fun t v => ?_⟩
      rw [map_append, written_append, hfirst.written, hsecond.written]

end

end

def edgeKind (rises : Bool) : EdgeKind := if rises then .posedge else .negedge

theorem isEdge_edgeKind (rises : Bool) : (edgeKind rises).isEdge = true := by
  cases rises <;> rfl

/-- The signals that a block assigns, as `synth_instance` collects them. -/
abbrev AlwaysFf.targetFlags (ff : AlwaysFf) (m : CompiledModule) : List Bool := collectAssignedSignals m ff.roots

/-- A block with a clock edge and then a reset edge, whose body is one `if` on the reset signal.
The condition is true when the reset signal is `one`, so the reset branch is the first one if that
is the active level. Where `match_cond` does not read the condition, the reset branch is the first
one or the first one is not constant. -/
structure ResetBlock (b : InstanceBuilder) (opt : StmtOptions) (ff : AlwaysFf) where
  clk : Nat
  rst : Nat
  clkRises : Bool
  rstRises : Bool
  cond : Nat
  one : Bool
  ts : List Stmt
  es : List Stmt
  resets : ResetValues
  events : ff.events = [⟨edgeKind clkRises, clk⟩, ⟨edgeKind rstRises, rst⟩]
  body : findAsyncResetIfStmt ff.roots = some (cond, ts, es)
  constant : tryCollectAll b (ff.targetFlags b.inst.mod) (if one = rstRises then ts else es)
    (List.replicate b.inst.mod.signalNames.length none) = some resets
  reads : matchCond b.inst.mod cond = some (rst, one) ∨
    matchCond b.inst.mod cond = none ∧ CondReads b.inst.mod cond rst one ∧
      (one = rstRises ∨ tryCollectAll b (ff.targetFlags b.inst.mod) ts
        (List.replicate b.inst.mod.signalNames.length none) = none)
  plain : stmtsOk b.inst.mod opt (plainAssign b.inst.mod opt) ff.roots = true
  runs : ∀ st : ModuleState, st.values.length = b.inst.mod.signalNames.length → (∀ v ∈ st.values, Fine opt v) →
    ∃ log st', Runs b.inst.mod opt.loopUnrollLimit (.seq ff.roots) st log st' ∧ ∀ s, Ordered s log
  isReg : ∀ s ∈ Stmt.targets ff.roots, b.inst.mod.isReg s = true
  unassigned : ∀ s ∈ Stmt.targets ff.roots, b.constSignal s = none
  clk_lt : clk < b.inst.mod.signalNames.length
  rst_lt : rst < b.inst.mod.signalNames.length
  clk_ne_rst : clk ≠ rst
  clk_input : clk ∉ Stmt.targets ff.roots
  rst_input : rst ∉ Stmt.targets ff.roots

theorem getD_collectAssignedSignals {m : CompiledModule} :
    (collectAssignedSignals m roots).getD s false = true ↔ s < m.signalNames.length ∧ s ∈ Stmt.targets roots := by
  rw [collectAssignedSignals, getD_eq_getElem?_getD, getElem?_map]
  by_cases hs : s < m.signalNames.length
  · rw [getElem?_range hs]
    simp [hs]
  · simp [hs]

namespace ResetBlock

variable {b : InstanceBuilder} {opt : StmtOptions} {ff : AlwaysFf} (blk : ResetBlock b opt ff)

/-- The level of the clock pin, which rises at the active edge. -/
def clkLevel (v : LogicT) : LogicT := if blk.clkRises then v else logicNot v

def active (st : ModuleState) : Bool := st.get blk.rst == ofBool blk.rstRises

theorem condReads : CondReads b.inst.mod blk.cond blk.rst blk.one := by
  rcases blk.reads with h | h
  · exact condReads_of_matchCond h
  · exact h.2.1

include blk in
theorem clkIdx_events : clkIdx ff.events = 0 := by
  rw [clkIdx, blk.events, findIdx?_cons, isEdge_edgeKind]
  rfl

theorem inferResetIsThen_eq (h : matchCond b.inst.mod blk.cond = some (blk.rst, blk.one)) :
    inferResetIsThen b.inst.mod ff.events blk.cond = some (blk.one == blk.rstRises) := by
  have hkind : (edgeKind blk.rstRises == EdgeKind.posedge) = blk.rstRises := by
    cases blk.rstRises <;> rfl
  have hfind : (ff.events.zipIdx.find? fun e => e.2 ≠ clkIdx ff.events && e.1.signal = blk.rst && e.1.k.isEdge) =
      some (⟨edgeKind blk.rstRises, blk.rst⟩, 1) := by
    rw [blk.clkIdx_events, blk.events]
    simp [isEdge_edgeKind]
  rw [inferResetIsThen, h, Option.bind_some, hfind, Option.map_some, hkind]

theorem resetBranch_eq : resetBranch b ff blk.cond blk.ts blk.es = some (blk.one == blk.rstRises, blk.resets) := by
  have hconst := blk.constant
  have hreads := blk.reads
  unfold resetBranch
  dsimp only
  by_cases hone : blk.one = blk.rstRises
  · have hthen : (inferResetIsThen b.inst.mod ff.events blk.cond).getD true = true := by
      rcases hreads with h | ⟨h, -⟩
      · rw [blk.inferResetIsThen_eq h, hone]
        simp
      · rw [inferResetIsThen, h]
        rfl
    rw [if_pos hone] at hconst
    rw [hconst, hone, beq_self_eq_true]
    cases tryCollectAll b (collectAssignedSignals b.inst.mod ff.roots) blk.es
        (replicate b.inst.mod.signalNames.length none) with
    | none => rfl
    | some resets' => exact if_pos hthen
  · rw [if_neg hone] at hconst
    rw [hconst, beq_false_of_ne hone]
    cases hts : tryCollectAll b (collectAssignedSignals b.inst.mod ff.roots) blk.ts
        (replicate b.inst.mod.signalNames.length none) with
    | none => rfl
    | some resets' =>
      have hmatch : matchCond b.inst.mod blk.cond = some (blk.rst, blk.one) := by
        rcases hreads with h | ⟨-, -, h | h⟩
        · exact h
        · exact absurd h hone
        · rw [hts] at h
          cases h
      have helse : (inferResetIsThen b.inst.mod ff.events blk.cond).getD true = false := by
        rw [blk.inferResetIsThen_eq hmatch, Option.getD_some, beq_false_of_ne hone]
      exact if_neg (by rw [helse]; exact Bool.false_ne_true)

def registers (_ : ResetBlock b opt ff) : List Nat :=
  (List.range b.inst.mod.signalNames.length).filter fun s => (ff.targetFlags b.inst.mod).getD s false

theorem mem_registers : s ∈ blk.registers ↔ s < b.inst.mod.signalNames.length ∧ s ∈ Stmt.targets ff.roots := by
  rw [registers, mem_filter, mem_range, getD_collectAssignedSignals]
  exact and_iff_right_of_imp And.left

/-- A flip-flop that reads and holds what its register needs: its pins have the values that the
signals of the state give. -/
structure Fits (sig : List Nat) (g : GateNet) (ρ : Nat → LogicT) (st : ModuleState) (f : FlipFlop) : Prop where
  q : f.q = sig.getD f.signal 0
  clk : g.value ρ f.clk = blk.clkLevel (st.get blk.clk)
  resets : f.arst.map Prod.snd = blk.resets.getD f.signal none
  arst : ∀ a ∈ f.arst, g.value ρ a.1 = ofBool !blk.active st
  d : ∀ log st', Runs b.inst.mod opt.loopUnrollLimit (.seq ff.roots) st log st' →
    g.value ρ f.d = written (log.map Write.entry) f.signal (st.get f.signal)
  fine : Fine opt (g.value ρ f.d)

theorem taken_cond {st : ModuleState} (hrst : (st.get blk.rst).isUnknown = false) :
    taken b.inst.mod blk.cond st.values = (blk.active st == (blk.one == blk.rstRises)) := by
  obtain ⟨now, hnow⟩ := exists_ofBool hrst
  have hget : st.values.getD blk.rst .X = ofBool now := hnow
  rw [blk.condReads st.values hrst, active, hnow, hget]
  cases now <;> cases blk.one <;> cases blk.rstRises <;> decide

section

variable {g : GateNet} {ρ : Nat → LogicT} {sig : List Nat} {st : ModuleState}

theorem value_signal (hnodes : Nodes b.inst.mod opt ρ g sig) (hvalues : g.valuesOf ρ sig = st.values)
    (hs : s < b.inst.mod.signalNames.length) : g.Has ρ (sig.getD s 0) (st.get s) := by
  have hlt : s < sig.length := by rwa [hnodes.length]
  refine ⟨hnodes.lt _ ?_, ?_⟩
  · rw [getD_eq_getElem _ _ hlt]
    exact getElem_mem hlt
  · rw [value_getD hlt, hvalues]
    rfl

theorem gives_clockNode (hnodes : Nodes b.inst.mod opt ρ g sig) (hvalues : g.valuesOf ρ sig = st.values) :
    Gives g (clockNode sig ⟨edgeKind blk.clkRises, blk.clk⟩) fun n g' =>
      g'.Has ρ n (blk.clkLevel (st.get blk.clk)) := by
  have hhas := value_signal hnodes hvalues blk.clk_lt
  have hlen : ¬sig.length ≤ blk.clk := by
    rw [hnodes.length]
    exact Nat.not_le.mpr blk.clk_lt
  unfold clockNode clkLevel
  rw [if_neg hlen]
  cases blk.clkRises with
  | true => exact gives_pure hhas
  | false => exact gives_gateNot hhas

theorem gives_asyncReset (hρ : ∀ i, ρ i ≠ .Z) (hnodes : Nodes b.inst.mod opt ρ g sig)
    (hvalues : g.valuesOf ρ sig = st.values) (hrst : (st.get blk.rst).isUnknown = false) :
    Gives g (asyncReset b opt ff sig) fun r g' => g'.Has ρ r.1 (blk.clkLevel (st.get blk.clk)) ∧
      g'.Has ρ r.2.1 (ofBool !blk.active st) ∧ r.2.2 = blk.resets := by
  have hevent : ff.events[clkIdx ff.events]? = some ⟨edgeKind blk.clkRises, blk.clk⟩ := by
    rw [blk.clkIdx_events, blk.events]
    rfl
  unfold asyncReset
  rw [blk.body, hevent]
  dsimp only
  refine (blk.gives_clockNode hnodes hvalues).bind fun clk g₁ hg₁ hclk => ?_
  have hnodes₁ := hnodes.mono hg₁
  have henv : EnvOk b.inst.mod opt ρ g₁ { cur := sig, aux := sig } := ⟨hnodes₁, hnodes₁⟩
  refine (gives_condNode hρ henv (condOk_of_find blk.body blk.plain)).bind fun cond g₂ hg₂ hcond => ?_
  rw [GateNet.valuesOf_mono hnodes.lt hg₁, hvalues, blk.taken_cond hrst] at hcond
  rw [blk.resetBranch_eq]
  dsimp only
  have hfinish (act : Nat) (g₃ : GateNet) (hg₃ : g₂.nodes <+: g₃.nodes) (hact : g₃.Has ρ act (ofBool (blk.active st))) :
      Gives g₃ (gateNot act >>= fun arstN => pure (clk, arstN, blk.resets)) fun r g' =>
        g'.Has ρ r.1 (blk.clkLevel (st.get blk.clk)) ∧ g'.Has ρ r.2.1 (ofBool !blk.active st) ∧ r.2.2 = blk.resets := by
    refine (gives_gateNot hact).bind fun arstN g₄ hg₄ harst => gives_pure ⟨?_, ?_, rfl⟩
    · exact ((hclk.mono hg₂).mono hg₃).mono hg₄
    · rwa [logicNot_ofBool] at harst
  cases hone : blk.one == blk.rstRises with
  | true =>
    rw [hone, beq_true] at hcond
    exact hfinish cond g₂ prefix_rfl hcond
  | false =>
    rw [hone, beq_false] at hcond
    refine (gives_gateNot hcond).bind fun act g₃ hg₃ hact => hfinish act g₃ hg₃ ?_
    rwa [logicNot_ofBool, Bool.not_not] at hact

theorem gives_synthFlipFlops (hρ : ∀ i, ρ i ≠ .Z) (hnodes : Nodes b.inst.mod opt ρ g sig)
    (hvalues : g.valuesOf ρ sig = st.values) (hrst : (st.get blk.rst).isUnknown = false) :
    Gives g (synthFlipFlops b opt ff sig) fun ffs g' =>
      ffs.map FlipFlop.signal = blk.registers ∧ ∀ f ∈ ffs, blk.Fits sig g' ρ st f := by
  have hreg : ¬(blk.registers.any fun s => !b.inst.mod.isReg s) = true := by
    rw [any_eq_true]
    rintro ⟨s, hs, hnot⟩
    rw [blk.isReg s (blk.mem_registers.mp hs).2] at hnot
    cases hnot
  rw [registers] at hreg
  unfold synthFlipFlops
  dsimp only
  rw [if_neg hreg, blk.events]
  dsimp only
  refine (blk.gives_asyncReset hρ hnodes hvalues hrst).bind fun r g₁ hg₁ hr => ?_
  have hvalues₁ : g₁.valuesOf ρ sig = st.values := (GateNet.valuesOf_mono hnodes.lt hg₁).trans hvalues
  refine (gives_synthAlwaysFf hρ (hnodes.mono hg₁) hvalues₁ blk.plain).bind fun env g₂ hg₂ henv => ?_
  refine gives_pure ⟨?_, fun f hf => ?_⟩
  · rw [List.map_map]
    exact map_id _
  · obtain ⟨s, hs, rfl⟩ := mem_map.mp hf
    have hlt : s < b.inst.mod.signalNames.length := (blk.mem_registers.mp hs).1
    refine ⟨rfl, ?_, ?_, ?_, ?_, ?_⟩
    · exact (hr.1.mono hg₂).2
    · rw [← hr.2.2]
      exact (Option.map_map _ _ _).trans (congrFun Option.map_id _)
    · intro a ha
      obtain ⟨v, -, rfl⟩ := Option.map_eq_some_iff.mp ha
      exact (hr.2.1.mono hg₂).2
    · exact fun log st' hrun => henv.2 log st' hrun s hlt
    · refine henv.1.fine _ ?_
      change env.aux.getD s 0 ∈ env.aux
      rw [getD_eq_getElem _ _ (by rw [henv.1.length]; exact hlt)]
      exact getElem_mem _

end

end ResetBlock

namespace FlipFlop

variable (f : FlipFlop) (value : Nat → LogicT) (clip : Clip)

def nextQ (rises : Bool) : LogicT :=
  let clocked := if rises then (value f.d).normalizeZToX else clip.q
  match f.arst with
  | none => clocked
  | some a =>
    match (value a.1).normalizeZToX with
    | .L => clip.resetValue
    | .H => clocked
    | _ => .X

theorem updated_eq :
    f.updated value clip =
      { clip with q := f.nextQ value clip (clip.risingEdge (value f.clk).normalizeZToX) }.seeClk
        (value f.clk).normalizeZToX := by
  obtain ⟨signal, d, clk, q, arst⟩ := f
  cases arst <;> rfl

variable {f value clip} {level : Bool}

theorem normalizeZToX_ofBool (level : Bool) : (ofBool level).normalizeZToX = ofBool level := by
  cases level <;> rfl

theorem updated_of_level (h : value f.clk = ofBool level) :
    f.updated value clip =
      { clip with q := f.nextQ value clip (clip.risingEdge (ofBool level)), lastClk := ofBool level } := by
  rw [updated_eq, h, normalizeZToX_ofBool]
  cases level <;> rfl

variable {rises : Bool}

theorem nextQ_of_clock (hd : value f.d ≠ .Z) (h : ∀ a ∈ f.arst, value a.1 = .H) :
    f.nextQ value clip rises = if rises then value f.d else clip.q := by
  have hnormal : (value f.d).normalizeZToX = value f.d := by
    cases hv : value f.d <;> first | rfl | exact absurd hv hd
  unfold nextQ
  rw [hnormal]
  cases harst : f.arst with
  | none => rfl
  | some a =>
    dsimp only
    rw [h a harst]
    rfl

theorem nextQ_of_reset {a : Nat × LogicT} (harst : f.arst = some a) (ha : value a.1 = .L) :
    f.nextQ value clip rises = clip.resetValue := by
  unfold nextQ
  rw [harst]
  dsimp only
  rw [ha]
  rfl

end FlipFlop

end PhyEngine.Verilog
