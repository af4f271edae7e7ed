import PhyEngine.Verilog.Elaborate

/-!
# What each step of a pass may write

For every step of the sequential pass and of the settle loop: which signals of an instance
it may write, queue or schedule. Everything else keeps its value.
-/

namespace PhyEngine.Verilog

open List ModuleState

namespace CompiledModule

variable (m : CompiledModule)

/-- The signals that the `always_ff` blocks may write. -/
def ffTargets : List Nat := m.alwaysFfs.flatMap fun ff => Stmt.targets ff.roots

/-- The signals that the `always_comb` and `always @(...)` blocks may write. -/
def combTargets : List Nat := m.alwaysCombs.flatMap fun ac => Stmt.targets ac.roots

def initialTargets : List Nat := m.initials.flatMap fun ib => Stmt.targets ib.roots

/-- The signals that events may write: those that initial blocks write and those of delayed
assignments. -/
def scheduledTargets : List Nat :=
  m.initialTargets ++ (m.alwaysFfs.flatMap fun ff => Stmt.delayed ff.roots) ++
    m.alwaysCombs.flatMap fun ac => Stmt.delayed ac.roots

/-- The signals that they write in settling. -/
def combWrites : List Nat := m.alwaysCombs.flatMap fun ac => Stmt.immediate ac.roots

variable {m} in
theorem combTargets_of_writes {s : Nat} (h : s ∈ m.combWrites) : s ∈ m.combTargets := by
  obtain ⟨ac, hac, hs⟩ := mem_flatMap.mp h
  exact mem_flatMap.mpr ⟨ac, hac, Stmt.targets_of_immediate hs⟩

/-- The events of the delayed assignments of these blocks. -/
def CombEvent (ev : ScheduledEvent) : Prop :=
  ∃ ac ∈ m.alwaysCombs, ∃ a ∈ Stmt.assignsOfList ac.roots, a.delayTicks ≠ 0 ∧ ∃ due, ev = a.event due

def assignTargets : List Nat := m.assigns.map (·.lhsSignal)

def urandomTargets : List Nat := m.urandomBits.getD []

end CompiledModule

def driveTargets (cs : List InstanceState) : List Nat :=
  cs.flatMap fun c => c.value.outputDrives.map (·.parentSignal)

structure SameStatic (n n' : InstanceNode) : Prop where
  mod : n'.mod = n.mod
  bindings : n'.bindings = n.bindings
  outputDrives : n'.outputDrives = n.outputDrives
  isDriven : ∀ s, n'.isDriven s = n.isDriven s
  length : n'.state.values.length = n.state.values.length

/-- From `n` to `n'`, only signals in `T` were written or queued, and only signals in `E`
scheduled. -/
structure NodeFrame (T E : Nat → Prop) (n n' : InstanceNode) : Prop where
  static : SameStatic n n'
  state : StateFrame T E n.state n'.state

theorem SameStatic.refl (n : InstanceNode) : SameStatic n n := ⟨rfl, rfl, rfl, fun _ => rfl, rfl⟩

theorem SameStatic.trans {a b c : InstanceNode} (h : SameStatic a b) (h' : SameStatic b c) :
    SameStatic a c :=
  ⟨h'.mod.trans h.mod, h'.bindings.trans h.bindings, h'.outputDrives.trans h.outputDrives,
    fun s => (h'.isDriven s).trans (h.isDriven s), h'.length.trans h.length⟩

variable {n : InstanceNode} {st : ModuleState} {s : Nat}

namespace NodeFrame

variable {T E : Nat → Prop}

theorem refl (n : InstanceNode) : NodeFrame T E n n := ⟨SameStatic.refl n, StateFrame.refl _⟩

theorem trans {a b c : InstanceNode} (h : NodeFrame T E a b) (h' : NodeFrame T E b c) : NodeFrame T E a c :=
  ⟨h.static.trans h'.static, h.state.trans h'.state⟩

theorem ofState (h : StateFrame T E n.state st) :
    NodeFrame T E n { n with state := st } :=
  ⟨⟨rfl, rfl, rfl, fun _ => rfl, h.length⟩, h⟩

theorem foldl {β : Type} {f : InstanceNode → β → InstanceNode} {xs : List β}
    (h : ∀ x ∈ xs, ∀ n', SameStatic n n' → NodeFrame T E n' (f n' x)) : NodeFrame T E n (xs.foldl f n) := by
  suffices H : ∀ n', NodeFrame T E n n' → NodeFrame T E n (xs.foldl f n') from H n (refl n)
  induction xs with
  | nil => exact fun n' hn => hn
  | cons x xs ih =>
    intro n' hn
    have hx := h x mem_cons_self n' hn.static
    exact ih (fun y hy => h y (mem_cons_of_mem _ hy)) _ (hn.trans hx)

end NodeFrame

section Sequential

variable {m : CompiledModule} {tick : UInt64} {T E : Nat → Prop}

theorem length_foldl_set (values : List LogicT) (ws : List (Nat × LogicT)) :
    (ws.foldl (fun values w => values.set w.1 w.2) values).length = values.length := by
  induction ws generalizing values with
  | nil => rfl
  | cons w ws ih => rw [foldl_cons, ih, length_set]

theorem getD_foldl_set {values : List LogicT} {ws : List (Nat × LogicT)} (v : LogicT) (h : ∀ w ∈ ws, w.1 ≠ s) :
    (ws.foldl (fun values w => values.set w.1 w.2) values).getD s v = values.getD s v := by
  induction ws generalizing values with
  | nil => rfl
  | cons w ws ih =>
    have hw := h w mem_cons_self
    rw [foldl_cons, ih fun w' hw' => h w' (mem_cons_of_mem _ hw')]
    rw [getD_eq_getElem?_getD, getD_eq_getElem?_getD, getElem?_set_ne hw]

theorem frame_setBus {bits : List Nat} (h : ∀ s ∈ bits, T s) (st : ModuleState) (vs : List LogicT) :
    StateFrame T E st (setBus st bits vs) := by
  refine ⟨length_foldl_set _ _, rfl, ?_, ⟨[], by simp [setBus]⟩, fun _ hev => Or.inl hev⟩
  intro s hs
  refine getD_foldl_set _ fun w hw heq => hs ?_
  have hmem := (of_mem_zip hw).1
  rw [heq] at hmem
  exact h s hmem

theorem frame_updateUrandom (h : ∀ s ∈ m.urandomTargets, T s) (st : ModuleState) :
    StateFrame T E st (updateUrandom m st) := by
  unfold updateUrandom
  split
  · exact StateFrame.refl st
  · rename_i bits hbits
    have hT : ∀ s ∈ bits, T s := by
      intro s hs
      exact h s (by simp [CompiledModule.urandomTargets, hbits, hs])
    dsimp only
    split
    · exact frame_setBus hT st _
    split
    · exact frame_setBus hT st _
    split
    · exact StateFrame.refl st
    split
    · split
      · exact frame_setBus hT st _
      · exact frame_setBus hT st _
    · exact StateFrame.refl st

theorem frame_runAlwaysFfs {ffs : List (AlwaysFf × Nat)}
    (h : ∀ ff ∈ ffs, ∀ s ∈ Stmt.immediate ff.1.roots, T s)
    (hE : ∀ ff ∈ ffs, ∀ s ∈ Stmt.delayed ff.1.roots, E s) (st : ModuleState) :
    StateFrame T E st (runAlwaysFfs m tick ffs st).1 := by
  induction ffs generalizing st with
  | nil => exact StateFrame.refl st
  | cons ff ffs ih =>
    have hrest := ih (fun ff' hff' => h ff' (mem_cons_of_mem _ hff'))
      fun ff' hff' => hE ff' (mem_cons_of_mem _ hff')
    unfold runAlwaysFfs
    split
    · exact (frame_execRoots (h ff mem_cons_self) (hE ff mem_cons_self) st).trans (hrest _)
    · exact hrest st

theorem frame_runSequential (hff : ∀ s ∈ m.ffTargets, T s) (hrnd : ∀ s ∈ m.urandomTargets, T s)
    (hE : ∀ s ∈ m.scheduledTargets, E s) (st : ModuleState) :
    StateFrame T E st (runSequential m tick st).1 := by
  have hin {ff : AlwaysFf × Nat} (hmem : ff ∈ m.alwaysFfs.zipIdx) : ff.1 ∈ m.alwaysFfs :=
    (mem_zipIdx hmem).2.2 ▸ getElem_mem _
  refine (frame_updateUrandom hrnd st).trans (frame_runAlwaysFfs ?_ ?_ _)
  · intro ff hmem s hs
    exact hff s (mem_flatMap.mpr ⟨ff.1, hin hmem, Stmt.targets_of_immediate hs⟩)
  · intro ff hmem s hs
    refine hE s (mem_append_left _ (mem_append_right _ ?_))
    exact mem_flatMap.mpr ⟨ff.1, hin hmem, hs⟩

variable {P : ScheduledEvent → Prop}

mutual

theorem events_scheduleStmt (base : UInt64) (s : Stmt) (h : ∀ a ∈ s.assigns, ∀ due, P (a.event due))
    (l : Linear) :
    ∀ ev ∈ (scheduleStmt base s l).events, ev ∈ l.events ∨ P ev := by
  match s with
  | .empty => exact fun ev hev => Or.inl hev
  | .block ss => exact events_scheduleStmts base ss h l
  | .subprogramBlock ss => exact events_scheduleStmts base ss h l
  | .assign a =>
    intro ev hev
    rcases mem_append.mp hev with hev | hev
    · exact Or.inl hev
    · right
      rw [mem_singleton] at hev
      subst hev
      exact h a (by simp [Stmt.assigns]) _
  | .ifStmt _ _ _ => exact fun ev hev => Or.inl hev
  | .caseStmt _ _ _ => exact fun ev hev => Or.inl hev
  | .forStmt _ _ _ _ => exact fun ev hev => Or.inl hev
  | .whileStmt _ _ => exact fun ev hev => Or.inl hev
  | .doWhileStmt _ _ => exact fun ev hev => Or.inl hev
  | .returnStmt => exact fun ev hev => Or.inl hev
  | .breakStmt => exact fun ev hev => Or.inl hev
  | .continueStmt => exact fun ev hev => Or.inl hev

theorem events_scheduleStmts (base : UInt64) (ss : List Stmt)
    (h : ∀ a ∈ Stmt.assignsOfList ss, ∀ due, P (a.event due)) (l : Linear) :
    ∀ ev ∈ (scheduleStmts base ss l).events, ev ∈ l.events ∨ P ev := by
  match ss with
  | [] => exact fun ev hev => Or.inl hev
  | s :: ss =>
    have hs := events_scheduleStmt base s (fun a ha => h a (by simp [Stmt.assignsOfList, ha])) l
    have hss := events_scheduleStmts base ss (fun a ha => h a (by simp [Stmt.assignsOfList, ha]))
      (scheduleStmt base s l)
    simp only [scheduleStmts]
    split
    · intro ev hev
      rcases hss ev hev with hev | hev
      · exact hs ev hev
      · exact Or.inr hev
    · exact hs

end

theorem frame_runInitialBlock {ib : InitialBlock} (h : ∀ s ∈ Stmt.targets ib.roots, T s)
    (hE : ∀ s ∈ Stmt.targets ib.roots, E s) (st : ModuleState) :
    StateFrame T E st (runInitialBlock m tick st ib) := by
  have hev := events_scheduleStmts tick ib.roots
    (P := fun ev => ∀ t ∈ ev.targets, E t)
    (fun a ha due t ht => hE t (mem_flatMap.mpr ⟨a, ha, targets_event ht⟩)) { events := st.events }
  have hdelayed : ∀ s ∈ Stmt.delayed ib.roots, E s := by
    intro s hs
    obtain ⟨a, ha, hs⟩ := mem_flatMap.mp hs
    exact hE s (mem_flatMap.mpr ⟨a, mem_of_mem_filter ha, hs⟩)
  have hsched : StateFrame T E st
      { st with events := (scheduleStmts tick ib.roots { events := st.events }).events } :=
    ⟨rfl, rfl, fun _ _ => rfl, ⟨[], by simp⟩, hev⟩
  unfold runInitialBlock
  dsimp only
  split
  · exact hsched
  · exact hsched.trans (frame_execRoots (fun s hs => h s (Stmt.targets_of_immediate hs)) hdelayed _)

theorem frame_runInitialBlocks (h : ∀ s ∈ m.initialTargets, T s)
    (hE : ∀ s ∈ m.scheduledTargets, E s) (st : ModuleState) :
    StateFrame T E st (runInitialBlocks m tick st) := by
  unfold runInitialBlocks
  split
  · exact StateFrame.refl st
  · have hstart : StateFrame T E st { st with initialRan := true, initialBaseTick := tick } :=
      ⟨rfl, rfl, fun _ _ => rfl, ⟨[], by simp⟩, fun _ hev => Or.inl hev⟩
    refine hstart.trans (StateFrame.foldl ?_ _)
    intro ib hib st'
    have hmem : ∀ s ∈ Stmt.targets ib.roots, s ∈ m.initialTargets :=
      fun s hs => mem_flatMap.mpr ⟨ib, hib, hs⟩
    refine frame_runInitialBlock (fun s hs => h s (hmem s hs)) (fun s hs => hE s ?_) st'
    exact mem_append_left _ (mem_append_left _ (hmem s hs))

def clearNba (n : InstanceNode) : InstanceNode := { n with state := { n.state with nbaQueue := [] } }

def beforeEdge (m : CompiledModule) (tick : UInt64) (st : ModuleState) : ModuleState :=
  processDueEvents m tick (runInitialBlocks m tick { st with nbaQueue := [] })

theorem sequentialStep_eq (tick : UInt64) (seq : Bool) (n : InstanceNode) :
    sequentialStep tick seq n =
      ({ n with state := (if seq then runSequential n.mod tick (beforeEdge n.mod tick n.state)
          else (beforeEdge n.mod tick n.state, [])).1 },
        (if seq then runSequential n.mod tick (beforeEdge n.mod tick n.state)
          else (beforeEdge n.mod tick n.state, [])).2) := rfl

/-- Whatever an instance has scheduled writes signals of `T`. -/
def EventsIn (T : Nat → Prop) (st : ModuleState) : Prop := ∀ ev ∈ st.events, ∀ s ∈ ev.targets, T s

theorem EventsIn.of_frame {st' : ModuleState} (h : StateFrame T E st st') (hev : EventsIn E st) :
    EventsIn E st' := by
  intro ev hmem
  exact (h.events ev hmem).elim (hev ev) id

theorem EventsIn.mono (h : EventsIn E st) (hET : ∀ s, E s → T s) : EventsIn T st :=
  fun ev hev s hs => hET s (h ev hev s hs)

theorem frame_beforeEdge (h : ∀ s ∈ m.initialTargets, T s) (hE : ∀ s ∈ m.scheduledTargets, E s) (hET : ∀ s, E s → T s)
    (hev : EventsIn E st) :
    StateFrame T E { st with nbaQueue := [] } (beforeEdge m tick st) := by
  have hinit : StateFrame T E { st with nbaQueue := [] }
      (runInitialBlocks m tick { st with nbaQueue := [] }) := frame_runInitialBlocks h hE _
  have hstart : EventsIn E { st with nbaQueue := [] } := hev
  exact hinit.trans (frame_processDueEvents ((hstart.of_frame hinit).mono hET))

theorem frame_sequentialStep (hinit : ∀ s ∈ n.mod.initialTargets, T s) (hff : ∀ s ∈ n.mod.ffTargets, T s)
    (hrnd : ∀ s ∈ n.mod.urandomTargets, T s) (hE : ∀ s ∈ n.mod.scheduledTargets, E s) (hET : ∀ s, E s → T s)
    (hev : EventsIn E n.state) (seq : Bool) :
    NodeFrame T E (clearNba n) (sequentialStep tick seq n).1 := by
  have hedge : StateFrame T E (clearNba n).state (beforeEdge n.mod tick n.state) :=
    frame_beforeEdge hinit hE hET hev
  rw [sequentialStep_eq]
  cases seq with
  | false => exact NodeFrame.ofState hedge
  | true => exact NodeFrame.ofState (hedge.trans (frame_runSequential hff hrnd hE _))

end Sequential

section Settle

variable {tick : UInt64} {T E : Nat → Prop}

variable {β : Type}

theorem getD_grow (xs : List β) (len : Nat) (x : β) (s : Nat) :
    (grow xs len x).getD s x = xs.getD s x := by
  unfold grow
  by_cases hs : s < xs.length
  · rw [getD_append _ _ _ _ hs]
  · rw [getD_append_right _ _ _ _ (by omega), getD_eq_default xs _ (by omega)]
    by_cases hr : s - xs.length < len - xs.length
    · rw [getD_eq_getElem _ _ (by simpa using hr), getElem_replicate]
    · rw [getD_eq_default _ _ (by rw [length_replicate]; omega)]

theorem frame_prepareNetDrives (n : InstanceNode) : NodeFrame T E n (prepareNetDrives n) := by
  refine ⟨⟨rfl, rfl, rfl, ?_, rfl⟩, rfl, rfl, fun _ _ => rfl, ⟨[], by simp [prepareNetDrives]⟩,
    fun _ hev => Or.inl hev⟩
  exact fun s => getD_grow _ _ _ s

theorem frame_beginChangeEpoch (st : ModuleState) : StateFrame T E st st.beginChangeEpoch :=
  ⟨rfl, rfl, fun _ _ => rfl, ⟨[], by simp [beginChangeEpoch]⟩, fun _ hev => Or.inl hev⟩

theorem frame_beginCombResolve (st : ModuleState) : StateFrame T E st (beginCombResolve st).1 := by
  unfold beginCombResolve
  dsimp only
  split <;>
    exact ⟨rfl, rfl, fun _ _ => rfl, ⟨[], by simp [beginChangeEpoch]⟩, fun _ hev => Or.inl hev⟩

theorem quiet_beginCombResolve (st : ModuleState) :
    StateFrame (fun _ => False) (fun _ => False) st (beginCombResolve st).1 :=
  frame_beginCombResolve st

theorem events_beginCombResolve (st : ModuleState) : (beginCombResolve st).1.events = st.events := by
  unfold beginCombResolve
  dsimp only
  split <;> rfl

theorem frame_assignSignal (h : T s) (st : ModuleState) (v : LogicT) :
    StateFrame T E st (st.assignSignal s v).1 := by
  have hone : StateFrame T E st (st.assignAll [(s, v)]).1 :=
    StateFrame.assignAll st (by simpa using h)
  simpa [assignAll] using hone

theorem frame_driveSignalNext (h : T s) (v : LogicT) :
    NodeFrame T E n (driveSignalNext n s v) := by
  unfold driveSignalNext
  split
  · exact NodeFrame.refl n
  split
  · exact NodeFrame.ofState (frame_assignSignal h _ v)
  split
  · exact NodeFrame.ofState (frame_assignSignal h _ v)
  · exact NodeFrame.ofState ⟨rfl, rfl, fun _ _ => rfl, ⟨[], by simp⟩, fun _ hev => Or.inl hev⟩

theorem static_driveSignalNext (n : InstanceNode) (s : Nat) (v : LogicT) : SameStatic n (driveSignalNext n s v) := by
  have hframe : NodeFrame (fun _ => True) (fun _ => True) n (driveSignalNext n s v) := frame_driveSignalNext trivial v
  exact hframe.static

theorem frame_runAssigns {as : List ContinuousAssign} (h : ∀ a ∈ as, T a.lhsSignal) :
    NodeFrame T E n (runAssigns n as) := by
  refine NodeFrame.foldl fun a ha n' _ => ?_
  split
  · exact NodeFrame.refl n'
  · exact frame_driveSignalNext (h a ha) _

theorem frame_propagateChildToParent {child : InstanceNode} (h : ∀ d ∈ child.outputDrives, T d.parentSignal) :
    NodeFrame T E n (propagateChildToParent child n) := by
  refine NodeFrame.foldl fun d hd n' _ => ?_
  split
  · exact NodeFrame.refl n'
  · exact frame_driveSignalNext (h d hd) _

variable {m : CompiledModule} {acs : List AlwaysComb} {token : UInt32} {any : Bool}

theorem frame_runAlwaysCombs
    (h : ∀ ac ∈ acs, ∀ s ∈ Stmt.immediate ac.roots, T s)
    (hE : ∀ ac ∈ acs, ∀ s ∈ Stmt.delayed ac.roots, E s) (st : ModuleState) :
    StateFrame T E st (runAlwaysCombs m tick token any acs st).1 := by
  induction acs generalizing st with
  | nil => exact StateFrame.refl st
  | cons ac acs ih =>
    have hrest := ih (fun ac' hac' => h ac' (mem_cons_of_mem _ hac'))
      fun ac' hac' => hE ac' (mem_cons_of_mem _ hac')
    unfold runAlwaysCombs
    split
    · exact (frame_execRoots (h ac mem_cons_self) (hE ac mem_cons_self) st).trans (hrest _)
    · exact hrest st

theorem frame_runCombLocal (hcomb : ∀ s ∈ n.mod.combWrites, T s)
    (hassign : ∀ s ∈ n.mod.assignTargets, T s) :
    NodeFrame T (fun _ => True) n (runCombLocal tick token any n).1 := by
  have hacs : StateFrame T (fun _ => True) n.state
      (runAlwaysCombs n.mod tick token any n.mod.alwaysCombs n.state).1 := by
    refine frame_runAlwaysCombs (fun ac hac s hs => ?_) (fun _ _ _ _ => trivial) n.state
    exact hcomb s (mem_flatMap.mpr ⟨ac, hac, hs⟩)
  refine (NodeFrame.ofState hacs).trans (frame_runAssigns ?_)
  exact fun a ha => hassign _ (mem_map_of_mem ha)

theorem events_driveSignalNext (n : InstanceNode) (s : Nat) (v : LogicT) :
    (driveSignalNext n s v).state.events = n.state.events := by
  unfold driveSignalNext
  split
  · rfl
  split
  · exact (sameBut_assignAll n.state [(s, v)]).events
  split
  · exact (sameBut_assignAll n.state [(s, v)]).events
  · rfl

theorem events_foldl {f : InstanceNode → β → InstanceNode}
    (h : ∀ n x, (f n x).state.events = n.state.events) (xs : List β) (n : InstanceNode) :
    (xs.foldl f n).state.events = n.state.events := by
  induction xs generalizing n with
  | nil => rfl
  | cons x xs ih => exact (ih (f n x)).trans (h n x)

theorem events_propagateChildToParent (child n : InstanceNode) :
    (propagateChildToParent child n).state.events = n.state.events := by
  refine events_foldl (fun n d => ?_) _ n
  split
  · rfl
  · exact events_driveSignalNext n _ _

theorem events_runAssigns (n : InstanceNode) (as : List ContinuousAssign) :
    (runAssigns n as).state.events = n.state.events := by
  refine events_foldl (fun n a => ?_) as n
  split
  · rfl
  · exact events_driveSignalNext n _ _

theorem events_applyNetDrives (n : InstanceNode) : (applyNetDrives n).1.state.events = n.state.events := by
  unfold applyNetDrives
  dsimp only
  split
  · rfl
  · exact (sameBut_assignAll _ _).events

/-- Settling schedules events of the combinational blocks only. -/
theorem events_runAlwaysCombs
    (h : ∀ ac ∈ acs, ac ∈ m.alwaysCombs) (st : ModuleState) :
    ∀ ev ∈ (runAlwaysCombs m tick token any acs st).1.events, ev ∈ st.events ∨ m.CombEvent ev := by
  induction acs generalizing st with
  | nil => exact fun ev hev => .inl hev
  | cons ac acs ih =>
    rw [forall_mem_cons] at h
    unfold runAlwaysCombs
    split
    · intro ev hev
      refine (ih h.2 _ ev hev).elim (fun hev => ?_) .inr
      exact events_execRoots (fun a ha hdelay due => ⟨ac, h.1, a, ha, hdelay, due, rfl⟩) st ev hev
    · exact ih h.2 st

theorem events_settleRoot (tick : UInt64) (token : UInt32) (any : Bool) (n : InstanceNode) (kids : List InstanceState) :
    ∀ ev ∈ (settleRoot tick token any n kids).1.state.events, ev ∈ n.state.events ∨ n.mod.CombEvent ev := by
  have hkids : NodeFrame (fun _ => True) (fun _ => True) n
    (kids.foldl (fun n c => propagateChildToParent c.value n) n) :=
    NodeFrame.foldl fun c _ n' _ => frame_propagateChildToParent fun _ _ => trivial
  generalize hn₁ : kids.foldl (fun n c => propagateChildToParent c.value n) n = n₁ at hkids
  have hlast (n₂ : InstanceNode) : (applyNba (applyNetDrives n₂).1.state).1.events = n₂.state.events :=
    (sameBut_assignAll _ (applyNetDrives n₂).1.state.nbaQueue).events.trans (events_applyNetDrives n₂)
  have hlocal := (hlast (runCombLocal tick token any n₁).1).trans (events_runAssigns _ n₁.mod.assigns)
  intro ev hev
  rw [settleRoot, hn₁] at hev
  rw [← hkids.static.mod, ← events_foldl (fun n c => events_propagateChildToParent c.value n) kids n, hn₁]
  exact events_runAlwaysCombs (fun _ h => h) n₁.state ev (hlocal ▸ hev)

theorem frame_applyNetDrives (h : ∀ s, n.isDriven s = true → n.mod.isReg s = false → T s) :
    NodeFrame T E n (applyNetDrives n).1 := by
  unfold applyNetDrives
  dsimp only
  split
  · exact NodeFrame.refl n
  · refine NodeFrame.ofState (StateFrame.assignAll _ ?_)
    intro w hw
    obtain ⟨s, hs, rfl⟩ := mem_map.mp hw
    have hnet := (mem_filter.mp hs).2
    simp only [Bool.and_eq_true, Bool.not_eq_true'] at hnet
    exact h s hnet.1 hnet.2

end Settle

end PhyEngine.Verilog
