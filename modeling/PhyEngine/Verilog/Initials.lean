import PhyEngine.Verilog.ClockEdges
import PhyEngine.Verilog.Flags
import PhyEngine.Verilog.StmtRuns

/-!
# Initial blocks

The first sequential pass queues the assignments of an initial block as events until a statement
does not fit; then it executes the block from its start, and what is queued stays queued. Where
nothing is queued before, the blocks do what their text says, once.
-/

namespace PhyEngine.Verilog

open ModuleState List RoseTree

mutual

/-- Whether `try_schedule_linear` accepts a statement. -/
def Stmt.fits : Stmt → Bool
  | .empty | .assign _ => true
  | .block ss | .subprogramBlock ss => Stmt.fitsAll ss
  | _ => false

def Stmt.fitsAll : List Stmt → Bool
  | [] => true
  | s :: ss => s.fits && Stmt.fitsAll ss

end

mutual

/-- The assignments that come before the first statement that does not fit. -/
def Stmt.leading : Stmt → List Assign
  | .assign a => [a]
  | .block ss | .subprogramBlock ss => Stmt.leadingAll ss
  | _ => []

def Stmt.leadingAll : List Stmt → List Assign
  | [] => []
  | s :: ss => s.leading ++ if s.fits then Stmt.leadingAll ss else []

end

def dueNow (tick : UInt64) (as : List Assign) : List ScheduledEvent := as.map (·.event tick)

theorem dueNow_append (tick : UInt64) (as as' : List Assign) :
    dueNow tick (as ++ as') = dueNow tick as ++ dueNow tick as' :=
  map_append

section Schedule

variable {tick : UInt64}

mutual

theorem scheduleStmt_eq (s : Stmt) (h : ∀ a ∈ s.assigns, a.delayTicks = 0) (evs : List ScheduledEvent) :
    scheduleStmt tick s { events := evs } = { ok := s.fits, events := evs ++ dueNow tick s.leading } := by
  match s with
  | .empty => simp [scheduleStmt, Stmt.fits, Stmt.leading, dueNow]
  | .block ss => exact scheduleStmts_eq ss h evs
  | .subprogramBlock ss => exact scheduleStmts_eq ss h evs
  | .assign a =>
    have ha : a.delayTicks = 0 := h a (by simp [Stmt.assigns])
    simp [scheduleStmt, Stmt.fits, Stmt.leading, dueNow, ha]
  | .ifStmt _ _ _ => simp [scheduleStmt, Stmt.fits, Stmt.leading, dueNow]
  | .caseStmt _ _ _ => simp [scheduleStmt, Stmt.fits, Stmt.leading, dueNow]
  | .forStmt _ _ _ _ => simp [scheduleStmt, Stmt.fits, Stmt.leading, dueNow]
  | .whileStmt _ _ => simp [scheduleStmt, Stmt.fits, Stmt.leading, dueNow]
  | .doWhileStmt _ _ => simp [scheduleStmt, Stmt.fits, Stmt.leading, dueNow]
  | .returnStmt => simp [scheduleStmt, Stmt.fits, Stmt.leading, dueNow]
  | .breakStmt => simp [scheduleStmt, Stmt.fits, Stmt.leading, dueNow]
  | .continueStmt => simp [scheduleStmt, Stmt.fits, Stmt.leading, dueNow]

theorem scheduleStmts_eq (ss : List Stmt) (h : ∀ a ∈ Stmt.assignsOfList ss, a.delayTicks = 0)
    (evs : List ScheduledEvent) :
    scheduleStmts tick ss { events := evs } =
      { ok := Stmt.fitsAll ss, events := evs ++ dueNow tick (Stmt.leadingAll ss) } := by
  match ss with
  | [] => simp [scheduleStmts, Stmt.fitsAll, Stmt.leadingAll, dueNow]
  | s :: ss =>
    have hs := scheduleStmt_eq s (fun a ha => h a (by simp [Stmt.assignsOfList, ha])) evs
    have hss := scheduleStmts_eq ss (fun a ha => h a (by simp [Stmt.assignsOfList, ha])) (evs ++ dueNow tick s.leading)
    rw [scheduleStmts, hs]
    dsimp only
    rw [Stmt.fitsAll, Stmt.leadingAll]
    cases s.fits with
    | false => simp
    | true =>
      rw [if_pos rfl, if_pos rfl, hss, dueNow_append, append_assoc, Bool.true_and]

end

end Schedule

section Fire

variable {m : CompiledModule}

theorem fireEvent_event (a : Assign) (due : UInt64) (st : ModuleState) :
    fireEvent m st (a.event due) = st.perform (a.logged m st) := by
  rw [fireEvent_of_assign]
  by_cases hlen : a.lhs.length ≠ a.rhs.length
  · rw [if_pos hlen, Assign.logged_of_length (Or.inl hlen), perform_nil]
  · rw [if_neg hlen, perform, Assign.entries_logged hlen, Assign.entries_logged hlen]
    cases a.nonblocking with
    | false =>
      rw [if_neg Bool.false_ne_true, if_pos rfl, if_neg Bool.false_ne_true, append_nil]
      rw [← (sameBut_assignAll st (existing st (sampleWrites m st a.lhs a.rhs))).nbaQueue]
    | true =>
      rw [if_pos rfl, if_neg Bool.false_ne_true.symm, if_pos rfl]
      rfl

theorem assignAll_events (st : ModuleState) (evs : List ScheduledEvent) (ws : List (Nat × LogicT)) :
    ({ st with events := evs } : ModuleState).assignAll ws =
      ({ (st.assignAll ws).1 with events := evs }, (st.assignAll ws).2) := by
  induction ws generalizing st with
  | nil => rfl
  | cons w ws ih =>
    have hone : ({ st with events := evs } : ModuleState).assignSignal w.1 w.2 =
        ({ (st.assignSignal w.1 w.2).1 with events := evs }, (st.assignSignal w.1 w.2).2) := by
      unfold assignSignal ModuleState.get
      dsimp only
      split_ifs <;> rfl
    rw [ModuleState.assignAll, hone, ModuleState.assignAll]
    dsimp only
    rw [ih]

theorem fireEvents_events (evs evs' : List ScheduledEvent) (st : ModuleState) :
    evs'.foldl (fireEvent m) { st with events := evs } = { evs'.foldl (fireEvent m) st with events := evs } := by
  induction evs' generalizing st with
  | nil => rfl
  | cons ev evs' ih =>
    have hone : fireEvent m { st with events := evs } ev = { fireEvent m st ev with events := evs } := by
      have hsides (lhs rhs : List Nat) :
          (if lhs.length ≠ rhs.length then ({ st with events := evs } : ModuleState)
            else if ev.nonblocking then
              { st with events := evs, nbaQueue := st.nbaQueue ++ existing st (sampleWrites m st lhs rhs) }
            else (({ st with events := evs } : ModuleState).assignAll (existing st (sampleWrites m st lhs rhs))).1) =
          { (if lhs.length ≠ rhs.length then st
            else if ev.nonblocking then
              { st with nbaQueue := st.nbaQueue ++ existing st (sampleWrites m st lhs rhs) }
            else (st.assignAll (existing st (sampleWrites m st lhs rhs))).1) with events := evs } := by
        split_ifs
        · rfl
        · rfl
        · exact congrArg Prod.fst (assignAll_events st evs _)
      exact hsides _ _
    rw [foldl_cons, hone, ih]
    rfl

variable {limit : Nat}

def Task.leading : Task → List Assign
  | .one s => s.leading
  | .seq ss => Stmt.leadingAll ss
  | .loop _ _ _ => []

def Task.fits : Task → Bool
  | .one s => s.fits
  | .seq ss => Stmt.fitsAll ss
  | .loop _ _ _ => false

variable {st st' : ModuleState} {log : List Write} {t : Task}

theorem Runs.fire (h : Runs m limit t st log st')
    (ht : t.fits = true) (tick : UInt64) : st' = (dueNow tick t.leading).foldl (fireEvent m) st := by
  induction h with
  | empty | nil => rfl
  | block _ ih | subprogram _ ih => exact ih ht
  | assign _ => exact (fireEvent_event _ tick _).symm
  | @cons s ss st log st₁ log' st' _ _ ih ih' =>
    obtain ⟨hs, hss⟩ : s.fits = true ∧ Stmt.fitsAll ss = true := Bool.and_eq_true_iff.mp ht
    have hleading : Task.leading (.seq (s :: ss)) = s.leading ++ Stmt.leadingAll ss := by
      rw [Task.leading, Stmt.leadingAll, if_pos hs]
    rw [hleading, dueNow_append, foldl_append]
    exact (ih' hss).trans (congrArg (List.foldl (fireEvent m) · _) (ih hs))
  | ifThen | ifElse | caseNone | caseSome | forStmt | whileStmt | doWhileStmt | loopDone | loopRound => cases ht

theorem Runs.events (h : Runs m limit t st log st') :
    st'.events = st.events := by
  rw [h.perform]
  exact (sameBut_assignAll st _).events

end Fire

/-- The initial blocks one after the other, statement by statement: every loop ends within
the bound of `exec_stmt`. -/
inductive InitialsRun (m : CompiledModule) : List InitialBlock → ModuleState → ModuleState → Prop where
  | nil {st} : InitialsRun m [] st st
  | cons {ib ibs st log st₁ st'} : Runs m loopLimit (.seq ib.roots) st log st₁ → InitialsRun m ibs st₁ st' →
      InitialsRun m (ib :: ibs) st st'

namespace InitialBlock

def fits (ib : InitialBlock) : Bool := Stmt.fitsAll ib.roots

def leading (ib : InitialBlock) : List Assign := Stmt.leadingAll ib.roots

end InitialBlock

/-- Nothing is queued before a block that does not fit is executed, by its own attempt or by
an earlier block. -/
structure Undisturbed (ibs : List InitialBlock) : Prop where
  own : ∀ ib ∈ ibs, ib.fits = false → ib.leading = []
  earlier : ibs.Pairwise fun ib ib' => ib'.fits = false → ib.leading = []

/-- Initial blocks without delays and without non-blocking assignments. -/
structure PlainInitials (ibs : List InitialBlock) : Prop where
  undelayed : ∀ ib ∈ ibs, ∀ a ∈ Stmt.assignsOfList ib.roots, a.delayTicks = 0
  blocking : ∀ ib ∈ ibs, ∀ a ∈ Stmt.assignsOfList ib.roots, a.nonblocking = false

section First

variable {m : CompiledModule} {tick : UInt64}

theorem with_events_eq {st : ModuleState} {evs : List ScheduledEvent} (h : evs = st.events) :
    ({ st with events := evs } : ModuleState) = st := by
  subst h
  rfl

theorem runInitialBlock_eq {ib : InitialBlock} (h : ∀ a ∈ Stmt.assignsOfList ib.roots, a.delayTicks = 0)
    (st : ModuleState) :
    runInitialBlock m tick st ib =
      if ib.fits then { st with events := st.events ++ dueNow tick ib.leading }
      else (execRoots m tick ib.roots { st with events := st.events ++ dueNow tick ib.leading }).1 := by
  rw [runInitialBlock, scheduleStmts_eq _ h]
  rfl

theorem processDueEvents_dueNow (as : List Assign) {st : ModuleState} (hst : st.events = []) :
    processDueEvents m tick { st with events := dueNow tick as } = (dueNow tick as).foldl (fireEvent m) st := by
  have hdue : ∀ ev ∈ dueNow tick as, ev.dueTick = tick := by
    intro ev hev
    obtain ⟨a, -, rfl⟩ := mem_map.mp hev
    rw [Assign.event]
    split_ifs <;> rfl
  have hall : (dueNow tick as).filter (fun ev => ev.dueTick ≤ tick) = dueNow tick as :=
    filter_eq_self.mpr fun ev hev => decide_eq_true (hdue ev hev ▸ UInt64.le_refl _)
  have hnone : (dueNow tick as).filter (fun ev => tick < ev.dueTick) = [] :=
    filter_eq_nil_iff.mpr fun ev hev h => UInt64.lt_irrefl _ (hdue ev hev ▸ of_decide_eq_true h)
  rw [processDueEvents]
  dsimp only
  rw [hall, hnone, fireEvents_events, ← hst]
  exact fireEvents_events st.events (dueNow tick as) st |>.symm

/-- The blocks and the events of the tick, with assignments queued already: they come first
if all blocks fit, and else there are none. -/
theorem processDueEvents_runInitials {ibs : List InitialBlock} {as : List Assign} {st st' : ModuleState}
    (hplain : ∀ ib ∈ ibs, ∀ a ∈ Stmt.assignsOfList ib.roots, a.delayTicks = 0) (hun : Undisturbed ibs)
    (has : as ≠ [] → ∀ ib ∈ ibs, ib.fits = true) (hst : st.events = [])
    (hrun : InitialsRun m ibs ((dueNow tick as).foldl (fireEvent m) st) st') :
    processDueEvents m tick (ibs.foldl (runInitialBlock m tick) { st with events := dueNow tick as }) = st' := by
  induction ibs generalizing as st with
  | nil =>
    cases hrun
    exact processDueEvents_dueNow as hst
  | cons ib ibs ih =>
    cases hrun with
    | @cons _ _ _ log st₁ _ hblock hrest =>
      have hun' : Undisturbed ibs :=
        ⟨fun b hb => hun.own b (mem_cons_of_mem _ hb), (pairwise_cons.mp hun.earlier).2⟩
      have hplain' : ∀ b ∈ ibs, ∀ a ∈ Stmt.assignsOfList b.roots, a.delayTicks = 0 :=
        fun b hb => hplain b (mem_cons_of_mem _ hb)
      rw [foldl_cons, runInitialBlock_eq (hplain ib mem_cons_self)]
      cases hfits : ib.fits with
      | true =>
        have hqueue : st₁ = (dueNow tick (as ++ ib.leading)).foldl (fireEvent m) st := by
          rw [dueNow_append, foldl_append]
          exact hblock.fire hfits tick
        have hlater : as ++ ib.leading ≠ [] → ∀ b ∈ ibs, b.fits = true := by
          intro hne b hb
          by_contra hb'
          have hnone := (pairwise_cons.mp hun.earlier).1 b hb (Bool.eq_false_iff.mpr hb')
          have has' : as = [] := by
            by_contra hne'
            exact hb' (has hne' b (mem_cons_of_mem _ hb))
          exact hne (by rw [has', hnone]; rfl)
        rw [if_pos rfl]
        dsimp only
        rw [← dueNow_append]
        exact ih hplain' hun' hlater hst (hqueue ▸ hrest)
      | false =>
        have has' : as = [] := by
          by_contra hne
          exact Bool.false_ne_true (hfits.symm.trans (has hne ib mem_cons_self))
        have hnone : ib.leading = [] := hun.own ib mem_cons_self hfits
        subst has'
        have hexec : (execRoots m tick ib.roots st).1 = st₁ := hblock.execRoots tick
        have hev : st₁.events = [] := hblock.events.trans hst
        have hstart : ({ st with events := dueNow tick [] ++ dueNow tick ib.leading } : ModuleState) = st := by
          rw [hnone]
          exact with_events_eq hst.symm
        rw [if_neg Bool.false_ne_true]
        dsimp only
        rw [hstart, hexec, ← @with_events_eq st₁ (dueNow tick []) hev.symm]
        exact ih hplain' hun' (fun h => absurd rfl h) hev hrest

end First

/-- A relation between an instance and its later self that no step of a settle loop breaks. -/
structure PassRel (tick : UInt64) (R : InstanceNode → InstanceNode → Prop) : Prop where
  refl : ∀ n, R n n
  trans : ∀ a b c, R a b → R b c → R a c
  start : ∀ n, R n { n with state := (beginCombResolve n.state).1 }
  epoch : ∀ n, R n { n with state := n.state.beginChangeEpoch }
  snapshot : ∀ n, R n { n with state := { n.state with combPrevValues := n.state.values } }
  enter : ∀ parent n, R n (propagateParentToChild parent n).1
  prepare : ∀ n, R n (prepareNetDrives n)
  root : ∀ token any n kids, R n (settleRoot tick token any n kids).1

namespace PassRel

variable {tick : UInt64} {R : InstanceNode → InstanceNode → Prop} {resolve : InstanceState → InstanceState × Bool}

section

variable (hR : PassRel tick R)
include hR

theorem rel_root {t u : InstanceState} {n : InstanceNode} (h : R t.value n)
    (hu : RoseTree.Rel R (t.withValue n) u) : RoseTree.Rel R t u := by
  obtain ⟨m, cs⟩ := t
  obtain ⟨value, length, children⟩ := hu
  exact .node (hR.trans _ _ _ h value) length children

theorem settlePass (hres : ∀ c, RoseTree.Rel R c (resolve c).1) (token : UInt32) (any : Bool)
    (t : InstanceState) : RoseTree.Rel R t (settlePass resolve tick token any t).1 := by
  obtain ⟨n, cs⟩ := t
  rw [settlePass_fst]
  refine .node (hR.trans _ _ _ (hR.prepare n) (hR.root _ _ _ _)) (by simp [settledKids]) fun j c c' hc hc' => ?_
  rw [getElem?_settledKids hc hc']
  exact hR.rel_root (hR.enter n c.value) (hres _)

theorem settleLoop (hres : ∀ c, RoseTree.Rel R c (resolve c).1) (iters : Nat) (token : UInt32)
    (any : Bool) (t : InstanceState) : RoseTree.Rel R t (settleLoop resolve tick iters token any t).inst := by
  induction iters generalizing token any t with
  | zero => exact RoseTree.Rel.refl hR.refl t
  | succ iters ih =>
    have hpass := hR.rel_root (hR.epoch t.value) (hR.settlePass hres token any _)
    rw [Verilog.settleLoop]
    dsimp only
    split_ifs
    · exact hpass
    · exact RoseTree.Rel.trans hpass (ih _ _ _) hR.trans

theorem combResolve (height : Nat) (t : InstanceState) :
    RoseTree.Rel R t (combResolve tick height t).1 := by
  induction height generalizing t with
  | zero => exact RoseTree.Rel.refl hR.refl t
  | succ height ih =>
    have hloop := hR.settleLoop ih maxIter (beginCombResolve t.value.state).1.changeToken
      (beginCombResolve t.value.state).2
      (t.withValue { t.value with state := (beginCombResolve t.value.state).1 })
    rw [Verilog.combResolve, combResolveWith]
    generalize Verilog.settleLoop (Verilog.combResolve tick height) tick maxIter
      (beginCombResolve t.value.state).1.changeToken
      (beginCombResolve t.value.state).2 (t.withValue { t.value with state := (beginCombResolve t.value.state).1 }) =
        s at hloop
    obtain ⟨⟨n, cs⟩, changed, settled⟩ := s
    have hend : RoseTree.Rel R (node n cs)
        (node { n with state := { n.state with combPrevValues := n.state.values } } cs) :=
      hR.rel_root (hR.snapshot n) (RoseTree.Rel.refl hR.refl _)
    exact RoseTree.Rel.trans (hR.rel_root (hR.start t.value) hloop) hend hR.trans

end

end PassRel

/-- From `n` to `n'` the initial blocks have not run, and no event for `s` was added. -/
structure Carried (s : Nat) (n n' : InstanceNode) : Prop where
  mod : n'.mod = n.mod
  ran : n'.state.initialRan = n.state.initialRan
  events : s ∉ n.mod.combTargets → EventsIn (· ≠ s) n.state → EventsIn (· ≠ s) n'.state

namespace Carried

variable {s : Nat}

theorem of_events {n n' : InstanceNode} (hmod : n'.mod = n.mod) (hran : n'.state.initialRan = n.state.initialRan)
    (hev : n'.state.events = n.state.events) : Carried s n n' :=
  ⟨hmod, hran, fun _ h ev hmem => h ev (hev ▸ hmem)⟩

theorem settleRoot (tick : UInt64) (token : UInt32) (any : Bool) (n : InstanceNode) (kids : List InstanceState) :
    Carried s n (settleRoot tick token any n kids).1 := by
  refine ⟨(static_settleRoot tick token any n kids).mod, (flags_settleRoot token any n kids).initialRan,
    fun hs hev => ?_⟩
  intro ev hmem
  rcases events_settleRoot tick token any n kids ev hmem with hmem | ⟨ac, hac, a, ha, -, due, rfl⟩
  · exact hev ev hmem
  · rintro q hq rfl
    exact hs (mem_flatMap.mpr ⟨ac, hac, mem_flatMap.mpr ⟨a, ha, targets_event hq⟩⟩)

theorem passRel (tick : UInt64) : PassRel tick (Carried s) where
  refl := fun _ => of_events rfl rfl rfl
  trans := fun a b c h h' =>
    ⟨h'.mod.trans h.mod, h'.ran.trans h.ran, fun hs hev => h'.events (h.mod ▸ hs) (h.events hs hev)⟩
  start := fun n => by
    refine of_events rfl ?_ (events_beginCombResolve n.state)
    unfold beginCombResolve
    dsimp only
    split <;> rfl
  epoch := fun _ => of_events rfl rfl rfl
  snapshot := fun _ => of_events rfl rfl rfl
  enter := fun parent n =>
    of_events rfl (sameBut_propagateParentToChild parent n).initialRan (sameBut_propagateParentToChild parent n).events
  prepare := fun _ => of_events rfl rfl rfl
  root := settleRoot tick

end Carried

def CompiledModule.InputSignal (m : CompiledModule) (s : Nat) : Prop := ∃ q ∈ m.ports, q.dir ≠ .output ∧ q.signal = s

inductive Reserved : SignalSets → InstanceState → Prop where
  | node {K : SignalSets} {n : InstanceNode} {cs : List InstanceState}
      (ff : ∀ s, K [] s → s ∉ n.mod.ffTargets)
      (urandom : ∀ s, K [] s → s ∉ n.mod.urandomTargets)
      (settle : ∀ s, K [] s → ¬ SettleTarget n cs s)
      (input : ∀ s, K [] s → ¬ n.mod.InputSignal s)
      (children : ∀ (j : Nat) c, cs[j]? = some c → Reserved (K.child j) c) : Reserved K (.node n cs)

theorem inputSignal_of_binding {c : InstanceNode} {b : Nat × PortBinding} (hb : b ∈ c.inputBindings) :
    c.mod.InputSignal b.1 := by
  unfold InstanceNode.inputBindings at hb
  split at hb
  · cases hb
  · obtain ⟨q, hq, rfl⟩ := mem_map.mp hb
    obtain ⟨hmem, hdir⟩ := mem_filter.mp hq
    exact ⟨q.1, (of_mem_zip hmem).1, of_decide_eq_true hdir, rfl⟩

namespace Reserved

variable {K : SignalSets}

variable {t : InstanceState}

theorem of_sameDesign {t' : InstanceState} (h : Reserved K t) (hsame : SameDesign t t') : Reserved K t' := by
  induction h generalizing t' with
  | @node K n cs ff urandom settle input children ih =>
    obtain ⟨n', cs'⟩ := t'
    have hmod : n'.mod = n.mod := hsame.value.mod
    refine .node (hmod ▸ ff) (hmod ▸ urandom) ?_ (hmod ▸ input) ?_
    · rw [hsame.settleTarget]
      exact settle
    · intro j c' hc'
      obtain ⟨c, hc, hcc⟩ := hsame.exists_child hc'
      exact ih j c hc hcc

theorem steady (h : Reserved K t) (ht : Tidy t) : Steady K t := by
  induction h with
  | @node K n cs ff urandom settle input children ih =>
    obtain ⟨driven, events, kids⟩ := ht
    have hport {j : Nat} {c : InstanceState} (hc : cs[j]? = some c) {b : Nat × PortBinding}
        (hb : b ∈ c.value.inputBindings) : ¬ K [j] b.1 := by
      have hkid := children j c hc
      cases hkid with
      | node _ _ _ input' _ => exact fun hK => input' b.1 hK (inputSignal_of_binding hb)
    refine .node (fun s hs h => settle s hs h.target) driven ?_ ?_ fun j c hc => ih j c hc (kids j c hc)
    · exact fun j c hc b hb hK => absurd hK (hport hc hb)
    · intro j c hc s hs _
      refine written_of_not_mem (fun hmem => ?_) _
      obtain ⟨w, hw, rfl⟩ := mem_map.mp hmem
      obtain ⟨b, hb, rfl⟩ := mem_map.mp hw
      exact hport hc hb hs

theorem get? {p : List Nat} {n : InstanceNode} (h : Reserved K t) (hn : t.get? p = some n) {s : Nat}
    (hs : K p s) : s ∉ n.mod.ffTargets ∧ s ∉ n.mod.urandomTargets ∧ s ∉ n.mod.combTargets ∧ ¬ n.mod.InputSignal s := by
  induction p generalizing K t with
  | nil =>
    cases hn
    obtain ⟨ff, urandom, settle, input, _⟩ := h
    exact ⟨ff s hs, urandom s hs, fun hc => settle s hs (Or.inl hc), input s hs⟩
  | cons j p ih =>
    obtain ⟨c, hc, hcn⟩ := Option.bind_eq_some_iff.mp hn
    obtain ⟨_, _, _, _, children⟩ := h
    exact ih (children j c hc) hcn hs

end Reserved

/-- New values at the ports, and nothing else. -/
structure PortsSet (n n' : InstanceNode) : Prop where
  mod : n'.mod = n.mod
  state : SameBut n.state n'.state
  get : ∀ s, ¬ n.mod.InputSignal s → n'.get s = n.get s

theorem PortsSet.refl (n : InstanceNode) : PortsSet n n := ⟨rfl, SameBut.refl _, fun _ _ => rfl⟩

theorem PortsSet.trans {a b c : InstanceNode} (h : PortsSet a b) (h' : PortsSet b c) : PortsSet a c :=
  ⟨h'.mod.trans h.mod, h.state.trans h'.state, fun s hs => (h'.get s (h.mod ▸ hs)).trans (h.get s hs)⟩

theorem portsSet_entered (parent : Option (InstanceNode × List Nat)) (n : InstanceNode) :
    PortsSet n (entered parent n) := by
  cases parent with
  | none => exact PortsSet.refl n
  | some r =>
    refine ⟨rfl, sameBut_propagateParentToChild r.1 n, fun s hs => ?_⟩
    have hnot : s ∉ (portWrites r.1 n).map Prod.fst := by
      intro hmem
      obtain ⟨w, hw, rfl⟩ := mem_map.mp hmem
      obtain ⟨b, hb, rfl⟩ := mem_map.mp hw
      exact hs (inputSignal_of_binding hb)
    refine (get_propagateParentToChild r.1 n s).trans ?_
    rw [written_of_not_mem hnot]
    by_cases hlt : s < n.state.values.length
    · rw [if_pos hlt]
    · rw [if_neg hlt, InstanceNode.get, ModuleState.get, getD_eq_default _ _ (by omega)]

theorem portsSet_sampleInputs (pins : List (Option LogicT)) (t : InstanceState) :
    RoseTree.Rel PortsSet t (sampleInputs pins t) := by
  obtain ⟨n, cs⟩ := t
  refine .node ⟨rfl, ?_, fun s hs => ?_⟩ rfl fun j c c' hc hc' => ?_
  · exact ⟨length_foldl_set _ _, rfl, rfl, rfl, rfl, rfl, rfl, rfl, rfl, rfl⟩
  · refine getD_foldl_set _ fun w hw heq => hs ?_
    obtain ⟨pv, hpv, hv⟩ := mem_filterMap.mp hw
    obtain ⟨v, -, rfl⟩ := Option.map_eq_some_iff.mp hv
    obtain ⟨hmem, hdir⟩ := mem_filter.mp hpv
    exact ⟨pv.1, (of_mem_zip hmem).1, of_decide_eq_true hdir, heq⟩
  · cases hc.symm.trans hc'
    exact RoseTree.Rel.refl PortsSet.refl c

section Visit

variable {n : InstanceNode} {tick : UInt64} {s : Nat}

variable {m : CompiledModule}

theorem frame_runSequential_apart (hff : s ∉ m.ffTargets) (hrnd : s ∉ m.urandomTargets) (st : ModuleState) :
    StateFrame (· ≠ s) (· ≠ s) st (runSequential m tick st).1 := by
  have hin {ff : AlwaysFf × Nat} (hmem : ff ∈ m.alwaysFfs.zipIdx) : ff.1 ∈ m.alwaysFfs :=
    (mem_zipIdx hmem).2.2 ▸ getElem_mem _
  refine (frame_updateUrandom (fun q hq (heq : q = s) => hrnd (heq ▸ hq)) st).trans (frame_runAlwaysFfs ?_ ?_ _)
  · exact fun ff hmem q hq heq => hff (mem_flatMap.mpr ⟨ff.1, hin hmem, heq ▸ Stmt.targets_of_immediate hq⟩)
  · exact fun ff hmem q hq heq => hff (mem_flatMap.mpr ⟨ff.1, hin hmem, heq ▸ mem_targets_of_delayed hq⟩)

/-- The value of the signal, with the initial blocks over and nothing pending for it. -/
structure Finished (s : Nat) (v : LogicT) (n : InstanceNode) : Prop where
  ran : n.state.initialRan = true
  events : EventsIn (· ≠ s) n.state
  get : n.get s = v

variable {v : LogicT}

theorem finished_sequentialStep (seq : Bool) (hff : s ∉ n.mod.ffTargets) (hrnd : s ∉ n.mod.urandomTargets)
    (hev : EventsIn (· ≠ s) (beforeEdge n.mod tick n.state)) (hget : (beforeEdge n.mod tick n.state).get s = v)
    (hnba : s ∉ (beforeEdge n.mod tick n.state).nbaQueue.map Prod.fst) :
    Finished s v (sequentialStep tick seq n).1 ∧ ¬ Queued (sequentialStep tick seq n).1 s := by
  have hran : (sequentialStep tick seq n).1.state.initialRan = true := (flags_sequentialStep seq n).initialRan
  have hframe : StateFrame (· ≠ s) (· ≠ s) (beforeEdge n.mod tick n.state) (sequentialStep tick seq n).1.state := by
    rw [sequentialStep_eq]
    cases seq with
    | false => exact StateFrame.refl _
    | true => exact frame_runSequential_apart hff hrnd _
  refine ⟨⟨hran, hev.of_frame hframe, (hframe.get s fun h => h rfl).trans hget⟩, fun hq => ?_⟩
  obtain ⟨ws, hws, hne⟩ := hframe.nba
  rw [Queued, hws, map_append] at hq
  rcases mem_append.mp hq with hq | hq
  · exact hnba hq
  · obtain ⟨w, hw, heq⟩ := mem_map.mp hq
    exact hne w hw heq

def initialStart (tick : UInt64) (n : InstanceNode) : ModuleState :=
  { n.state with nbaQueue := [], initialRan := true, initialBaseTick := tick }

theorem nba_execRoots {ss : List Stmt} (h : ∀ a ∈ Stmt.assignsOfList ss, a.delayTicks = 0 ∧ a.nonblocking = false)
    (st : ModuleState) : (execRoots m tick ss st).1.nbaQueue = st.nbaQueue := by
  have hrel : StepRel fun x y : Exec => y.st.nbaQueue = x.st.nbaQueue :=
    ⟨fun _ => rfl, fun _ _ _ h h' => h'.trans h, fun _ _ => rfl⟩
  have hassign (a : Assign) (ha : a.delayTicks = 0 ∧ a.nonblocking = false) (x : Exec) :
      (execAssign m tick a x).st.nbaQueue = x.st.nbaQueue := by
    unfold execAssign
    split_ifs with h₁ h₂ h₃ h₄
    · rfl
    · rfl
    · rfl
    · exact absurd (ha.2.symm.trans h₄) Bool.false_ne_true
    · exact (sameBut_assignAll _ _).nbaQueue
  induction ss generalizing st with
  | nil => rfl
  | cons s ss ih =>
    have hs : (execStmt m tick s { st }).st.nbaQueue = st.nbaQueue :=
      hrel.execStmt s (fun a ha => hassign a (h a (by simp [Stmt.assignsOfList, ha]))) { st }
    exact (ih (fun a ha => h a (by simp [Stmt.assignsOfList, ha])) _).trans hs

theorem InitialsRun.queues {ibs : List InitialBlock} {st st' : ModuleState} (h : InitialsRun m ibs st st')
    (hplain : PlainInitials ibs) : st'.nbaQueue = st.nbaQueue ∧ st'.events = st.events := by
  induction h with
  | nil => exact ⟨rfl, rfl⟩
  | @cons ib ibs st log st₁ st' hblock _ ih =>
    obtain ⟨hnba, hev⟩ := ih ⟨fun b hb => hplain.undelayed b (mem_cons_of_mem _ hb),
      fun b hb => hplain.blocking b (mem_cons_of_mem _ hb)⟩
    have hexec : (execRoots m 0 ib.roots st).1 = st₁ := hblock.execRoots 0
    have hqueue : st₁.nbaQueue = st.nbaQueue := by
      rw [← hexec]
      exact nba_execRoots (fun a ha =>
        ⟨hplain.undelayed ib mem_cons_self a ha, hplain.blocking ib mem_cons_self a ha⟩) st
    exact ⟨hnba.trans hqueue, hev.trans hblock.events⟩

theorem finished_first {st' : ModuleState} (seq : Bool) (hff : s ∉ n.mod.ffTargets) (hrnd : s ∉ n.mod.urandomTargets)
    (hplain : PlainInitials n.mod.initials) (hun : Undisturbed n.mod.initials) (hran : n.state.initialRan = false)
    (hev : n.state.events = []) (hrun : InitialsRun n.mod n.mod.initials (initialStart tick n) st') :
    Finished s (st'.get s) (sequentialStep tick seq n).1 ∧ ¬ Queued (sequentialStep tick seq n).1 s := by
  have hstart : ({ initialStart tick n with events := dueNow tick [] } : ModuleState) = initialStart tick n :=
    with_events_eq hev.symm
  have hedge : beforeEdge n.mod tick n.state = st' := by
    have hblocks := @processDueEvents_runInitials n.mod tick n.mod.initials [] (initialStart tick n) st'
      hplain.undelayed hun (fun h => absurd rfl h) hev hrun
    rw [hstart] at hblocks
    rw [beforeEdge, runInitialBlocks]
    dsimp only
    rw [hran, if_neg Bool.false_ne_true]
    exact hblocks
  obtain ⟨hnba, hevents⟩ := hrun.queues hplain
  refine finished_sequentialStep seq hff hrnd ?_ (by rw [hedge]) ?_
  · rw [hedge]
    intro ev hmem
    rw [hevents.trans hev] at hmem
    cases hmem
  · rw [hedge, hnba]
    exact not_mem_nil

theorem finished_later (seq : Bool) (hff : s ∉ n.mod.ffTargets) (hrnd : s ∉ n.mod.urandomTargets)
    (h : Finished s v n) :
    Finished s v (sequentialStep tick seq n).1 ∧ ¬ Queued (sequentialStep tick seq n).1 s := by
  have hedge : beforeEdge n.mod tick n.state = processDueEvents n.mod tick { n.state with nbaQueue := [] } := by
    rw [beforeEdge, runInitialBlocks]
    dsimp only
    rw [h.ran, if_pos rfl]
  have hframe : StateFrame (· ≠ s) (· ≠ s) { n.state with nbaQueue := [] } (beforeEdge n.mod tick n.state) := by
    rw [hedge]
    exact frame_processDueEvents h.events
  refine finished_sequentialStep seq hff hrnd ?_ ((hframe.get s fun h => h rfl).trans h.get) ?_
  · exact EventsIn.of_frame hframe h.events
  · obtain ⟨ws, hws, hne⟩ := hframe.nba
    rw [hws]
    intro hq
    obtain ⟨w, hw, heq⟩ := mem_map.mp hq
    exact hne w hw heq

end Visit

variable {p : List Nat} {t : InstanceState}

theorem exists_visit (tick : UInt64) (seq : Bool) {n : InstanceNode} (hn : t.get? p = some n) :
    ∃ parent, (afterSequential tick seq none t).get? p = some (sequentialStep tick seq (entered parent n)).1 := by
  have hvisit : RoseTree.Rel (fun n (r : InstanceNode × List Nat) => SameStatic n r.1) t
      (t.topDown (sequentialVisit tick seq) none) :=
    RoseTree.Rel.topDown_right (static_sequentialVisit tick seq) t none
  obtain ⟨r, hr, -⟩ := hvisit.exists_get? hn
  obtain ⟨parent, n', hn', rfl⟩ := get?_topDown hr
  cases hn.symm.trans hn'
  refine ⟨parent, ?_⟩
  rw [afterSequential, get?_map, hr, ← sequentialVisit_eq]
  rfl

variable {v : LogicT}

theorem finished_settled {K : SignalSets} (hK : Reserved K t) (ht : Tidy t) {s : Nat}
    (hs : K p s) {tick : UInt64} {seq : Bool} {n : InstanceNode}
    (hn : (afterSequential tick seq none t).get? p = some n) (h : Finished s v n ∧ ¬ Queued n s) :
    ∃ n', (simulate tick seq t).get? p = some n' ∧ Finished s v n' := by
  have hK' := hK.of_sameDesign (sameDesign_afterSequential tick seq none t)
  have hkept := kept_settled tick seq (hK'.steady (ht.afterSequential tick seq none))
  obtain ⟨n₁, hn₁, hcarried⟩ := ((Carried.passRel (s := s) tick).combResolve t.height _).exists_get? hn
  obtain ⟨n', hn', hget⟩ := hkept.get? hn₁
  cases hn.symm.trans hn'
  have hcomb := (hK'.get? hn hs).2.2.1
  have hvalue : n₁.get s = v := by
    rw [hget s hs, get_applyNba_of_not_queued h.2]
    exact h.1.get
  have hend := get?_map
    (fun n : InstanceNode => { n with state :=
    { n.state with prevValues := n.state.values, combPrevValues := n.state.values } })
    p (combResolve tick t.height (afterSequential tick seq none t)).1
  rw [hn₁] at hend
  exact ⟨_, hend, ⟨hcarried.ran.trans h.1.ran, hcarried.events hcomb h.1.events, hvalue⟩⟩

theorem finished_runCalls {K : SignalSets} {s : Nat} (hs : K p s) (calls : List Call)
    (hK : Reserved K t) (ht : Tidy t) {n : InstanceNode} (hn : t.get? p = some n) (h : Finished s v n) :
    valueAt (runCalls calls t) p s = v := by
  induction calls generalizing t n with
  | nil =>
    rw [runCalls_nil, valueAt, hn]
    exact h.get
  | cons c calls ih =>
    have hsample := sameDesign_sampleInputs c.pins t
    have hK₁ := hK.of_sameDesign hsample
    obtain ⟨n₁, hn₁, hports⟩ := (portsSet_sampleInputs c.pins t).exists_get? hn
    obtain ⟨parent, hvisit⟩ := exists_visit c.tick c.processSequential hn₁
    have hset := hports.trans (portsSet_entered parent n₁)
    obtain ⟨hff, hrnd, -, hinput⟩ := hK.get? hn hs
    have hstart : Finished s v (entered parent n₁) := by
      refine ⟨hset.state.initialRan.trans h.ran, ?_, (hset.get s hinput).trans h.get⟩
      intro ev hev
      rw [hset.state.events] at hev
      exact h.events ev hev
    have hstep := @finished_later _ c.tick s v c.processSequential (hset.mod ▸ hff) (hset.mod ▸ hrnd) hstart
    obtain ⟨n', hn', hdone⟩ := finished_settled hK₁ (tidy_sampleInputs c.pins ht) hs hvisit hstep
    exact ih (hK.of_sameDesign (sameDesign_run c ht)) (tidy_run c ht) hn' hdone

theorem forall_elaborateChildren {P : InstanceNode → Prop}
    (hdriven : ∀ n driven, P n → P { n with drivenNets := driven })
    (hchild : ∀ pm cm idef, P (makeChild pm cm idef)) (d : CompiledDesign) (levels : Nat) {n : InstanceNode} (h : P n)
    {n' : InstanceNode} (hp : (elaborateChildren d levels n).get? p = some n') : P n' := by
  induction levels generalizing n p with
  | zero =>
    cases p with
    | nil =>
      cases hp
      exact h
    | cons j p => simp [elaborateChildren, get?] at hp
  | succ levels ih =>
    cases p with
    | nil =>
      cases hp
      exact hdriven n _ h
    | cons j p =>
      obtain ⟨c, hc, hp⟩ := Option.bind_eq_some_iff.mp hp
      simp only [elaborateChildren, children_node, getElem?_map] at hc
      obtain ⟨k, hk, rfl⟩ := Option.map_eq_some_iff.mp hc
      obtain ⟨idef, -, hk⟩ := mem_filterMap.mp (List.mem_of_getElem? hk)
      obtain ⟨cm, -, rfl⟩ := Option.map_eq_some_iff.mp hk
      exact ih (hchild _ cm idef) hp

theorem new_elaborate {d : CompiledDesign} {top : CompiledModule} {n : InstanceNode}
    (hn : (elaborate d top).get? p = some n) : n.state.events = [] ∧ n.state.initialRan = false := by
  refine forall_elaborateChildren (P := fun n => n.state.events = [] ∧ n.state.initialRan = false) (fun _ _ h =>
    h) ?_ d 65
    ⟨rfl, rfl⟩ hn
  intro pm cm idef
  have hfold (params : List (String × UInt64)) (st : ModuleState) (h : st.events = [] ∧ st.initialRan = false) :
      (params.foldl (applyParamValue cm) st).events = [] ∧ (params.foldl (applyParamValue cm) st).initialRan =
        false := by
    induction params generalizing st with
    | nil => exact h
    | cons q params ih =>
      refine ih _ ?_
      unfold applyParamValue
      split
      · exact h
      split
      · exact h
      · exact h
  exact hfold _ _ ⟨rfl, rfl⟩

/-- The initial blocks of an instance start in the state that elaboration made, with the
ports as the first call has set them. If nothing is queued before a block that does not fit,
then after the first call and after every later one their variables have the values that
the blocks give them, run once in their order. -/
theorem initials_run_once (d : CompiledDesign) (top : CompiledModule) (K : SignalSets)
    (hK : Reserved K (elaborate d top))
    (p : List Nat) (n : InstanceNode) (hn : (elaborate d top).get? p = some n) (hplain : PlainInitials n.mod.initials)
    (hun : Undisturbed n.mod.initials) (c : Call) :
    ∃ st₀ : ModuleState, st₀.values.length = n.state.values.length ∧
      (∀ s, ¬ n.mod.InputSignal s → st₀.get s = n.get s) ∧
      ∀ st', InitialsRun n.mod n.mod.initials st₀ st' → ∀ (calls : List Call) (s : Nat), K p s →
        valueAt (runCalls (c :: calls) (elaborate d top)) p s = st'.get s := by
  have htidy := tidy_elaborate d top
  obtain ⟨hevents, hran⟩ := new_elaborate hn
  generalize elaborate d top = t at hK hn htidy ⊢
  have hK₁ := hK.of_sameDesign (sameDesign_sampleInputs c.pins t)
  obtain ⟨n₁, hn₁, hports⟩ := (portsSet_sampleInputs c.pins t).exists_get? hn
  obtain ⟨parent, hvisit⟩ := exists_visit c.tick c.processSequential hn₁
  have hset := hports.trans (portsSet_entered parent n₁)
  refine ⟨initialStart c.tick (entered parent n₁), hset.state.length, hset.get, fun st' hrun calls s hs => ?_⟩
  obtain ⟨hff, hrnd, -, -⟩ := hK.get? hn hs
  have hmod := hset.mod
  have hstep := @finished_first (entered parent n₁) c.tick s st' c.processSequential (hmod ▸ hff) (hmod ▸ hrnd)
    (hmod ▸ hplain) (hmod ▸ hun) (hset.state.initialRan.trans hran) (hset.state.events.trans hevents) (hmod ▸ hrun)
  obtain ⟨n', hn', hdone⟩ := finished_settled hK₁ (tidy_sampleInputs c.pins htidy) hs hvisit hstep
  exact finished_runCalls hs calls (hK.of_sameDesign (sameDesign_run c htidy)) (tidy_run c htidy) hn' hdone

namespace Initials

def topSignals : SignalSets := fun p _ => p = []

theorem reserved_top {m : CompiledModule} (hff : m.ffTargets = []) (hrnd : m.urandomTargets = [])
    (hcomb : m.combTargets = [])
    (hassign : m.assignTargets = []) (hports : m.ports = []) (hkids : m.instances = []) :
    Reserved topSignals (elaborate ⟨[]⟩ m) := by
  rw [elaborate, elaborateChildren, hkids]
  refine .node (fun s _ hs => ?_) (fun s _ hs => ?_) (fun s _ hs => ?_) (fun s _ hs => ?_) fun j c hc => ?_
  · rw [hff] at hs
    cases hs
  · rw [hrnd] at hs
    cases hs
  · rw [SettleTarget, hcomb, hassign] at hs
    rcases hs with hs | hs | hs
    · cases hs
    · cases hs
    · cases hs
  · obtain ⟨q, hq, -⟩ := hs
    rw [hports] at hq
    cases hq
  · cases hc

theorem scalar_second : false = false → [1].length = 1 ∧ [1].length = 1 := by decide

def twoBlocks : CompiledModule where
  signalNames := ["a", "b"]
  signalIsReg := [true, true]
  exprNodes := [.literal .H, .signal 0]
  initials := [⟨[.ifStmt 0 [.assign { nonblocking := false, lhs := [0], rhs := [0] }] []]⟩,
    ⟨[.assign { nonblocking := false, lhs := [1], rhs := [1], scalar := scalar_second }]⟩]

theorem plain_twoBlocks : PlainInitials twoBlocks.initials := by
  refine ⟨?_, ?_⟩ <;> decide

theorem undisturbed_twoBlocks : Undisturbed twoBlocks.initials := by
  refine ⟨by decide, pairwise_cons.mpr ⟨by decide, pairwise_singleton _ _⟩⟩

theorem initialsRun_twoBlocks {st₀ : ModuleState} (hlen : st₀.values.length = 2) :
    ∃ st', InitialsRun twoBlocks twoBlocks.initials st₀ st' ∧ st'.get 1 = .H := by
  have hfirst : Assign.logged twoBlocks { nonblocking := false, lhs := [0], rhs := [0] } st₀ = [⟨false, 0, .H⟩] := by
    simp [Assign.logged, sampleWrites, existing, hlen, evalExpr, evalNode, twoBlocks]
  have hlen' : (st₀.perform [⟨false, 0, .H⟩]).values.length = 2 := (length_perform _ _).trans hlen
  have hread : evalExpr twoBlocks 1 (st₀.perform [⟨false, 0, .H⟩]).values = .H :=
    get_perform st₀ [⟨false, 0, .H⟩] (by omega)
  have hsecond : Assign.logged twoBlocks { nonblocking := false, lhs := [1], rhs :=
    [1] } (st₀.perform [⟨false, 0, .H⟩]) =
      [⟨false, 1, .H⟩] := by
    simp [Assign.logged, sampleWrites, existing, hlen', hread]
  refine ⟨(st₀.perform [⟨false, 0, .H⟩]).perform [⟨false, 1, .H⟩], ?_, get_perform _ [⟨false, 1, .H⟩] (by omega)⟩
  have hone := @Runs.assign twoBlocks loopLimit { nonblocking := false, lhs := [0], rhs := [0] } st₀ rfl
  have htwo := @Runs.assign twoBlocks loopLimit { nonblocking := false, lhs := [1], rhs := [1] }
    (st₀.perform [⟨false, 0, .H⟩]) rfl
  rw [hfirst] at hone
  rw [hsecond] at htwo
  exact .cons (.cons (.ifThen rfl (.cons hone .nil)) .nil) (.cons (.cons htwo .nil) .nil)

theorem initials_run_once_twoBlocks :
    valueAt (runCalls [{ pins := [], tick := 5 }, { pins := [], tick := 6 }] (elaborate ⟨[]⟩ twoBlocks)) [] 1 = .H := by
  obtain ⟨st₀, hlen, -, hvalue⟩ := initials_run_once ⟨[]⟩ twoBlocks topSignals (reserved_top rfl rfl rfl rfl rfl rfl)
    [] _ rfl
    plain_twoBlocks undisturbed_twoBlocks { pins := [], tick := 5 }
  obtain ⟨st', hrun, hget⟩ := initialsRun_twoBlocks hlen
  exact (hvalue st' hrun [{ pins := [], tick := 6 }] 1 rfl).trans hget

def loopBlock : CompiledModule where
  signalNames := ["i"]
  signalIsReg := [true]
  exprNodes := [.literal .L, .literal .H, .signal 0, .unaryNot 2]
  initials := [⟨[.block [.assign { nonblocking := false, lhs := [0], rhs := [0] },
    .whileStmt 3 (.assign { nonblocking := false, lhs := [0], rhs := [1] })]]⟩]

theorem initialsRun_loopBlock : ∃ st', InitialsRun loopBlock loopBlock.initials (initState loopBlock) st' ∧
    st'.get 0 = .H := by
  have hround : Runs loopBlock loopLimit
      (.loop (4095 + 1) 3 [.assign { nonblocking := false, lhs := [0], rhs := [1] }])
      ((initState loopBlock).perform [⟨false, 0, .L⟩]) ([⟨false, 0, .H⟩] ++ [] ++ [])
      (((initState loopBlock).perform [⟨false, 0, .L⟩]).perform [⟨false, 0, .H⟩]) :=
    .loopRound (by decide) (.cons (.assign rfl) .nil) (.loopDone (by decide))
  have hloop : Runs loopBlock loopLimit (.one (.whileStmt 3 (.assign { nonblocking := false, lhs := [0], rhs := [1] })))
      ((initState loopBlock).perform [⟨false, 0, .L⟩]) ([⟨false, 0, .H⟩] ++ [] ++ [])
      (((initState loopBlock).perform [⟨false, 0, .L⟩]).perform [⟨false, 0, .H⟩]) := .whileStmt hround
  exact ⟨_, .cons (.cons (.block (.cons (.assign rfl) (.cons hloop .nil))) .nil) .nil, by decide⟩

/-- The loop ends with `i = 1`; then the assignment before it, still queued, is carried out. -/
theorem initial_loop_undone : Reserved topSignals (elaborate ⟨[]⟩ loopBlock) ∧ PlainInitials loopBlock.initials ∧
    ∃ st', InitialsRun loopBlock loopBlock.initials (initState loopBlock) st' ∧
      valueAt (runCalls [{ pins := [], tick := 1 }] (elaborate ⟨[]⟩ loopBlock)) [] 0 ≠ st'.get 0 := by
  obtain ⟨st', hrun, hget⟩ := initialsRun_loopBlock
  refine ⟨reserved_top rfl rfl rfl rfl rfl rfl, ⟨by decide, by decide⟩, st', hrun, ?_⟩
  rw [hget]
  decide

end Initials

end PhyEngine.Verilog
