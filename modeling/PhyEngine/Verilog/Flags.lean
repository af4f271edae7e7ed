import PhyEngine.Verilog.Frame

/-!
# The flags of a first run

No assignment, block or event touches `comb_initialized`, `initial_ran` or the snapshot of
the last resolution, and the marks of changes never run ahead of the token.
-/

namespace PhyEngine.Verilog

namespace ModuleState

def MarksLe (st : ModuleState) : Prop := ∀ k, st.changeMark.getD k 0 ≤ st.changeToken

structure SameFlags (st st' : ModuleState) : Prop where
  combInitialized : st'.combInitialized = st.combInitialized
  initialRan : st'.initialRan = st.initialRan
  combPrevValues : st'.combPrevValues = st.combPrevValues
  marks : MarksLe st → MarksLe st'

namespace SameFlags

variable (st : ModuleState)

theorem refl : SameFlags st st := ⟨rfl, rfl, rfl, id⟩

theorem trans {a b c : ModuleState} (h : SameFlags a b) (h' : SameFlags b c) : SameFlags a c :=
  ⟨h'.combInitialized.trans h.combInitialized, h'.initialRan.trans h.initialRan,
    h'.combPrevValues.trans h.combPrevValues, fun hm => h'.marks (h.marks hm)⟩

theorem foldl {β : Type} {f : ModuleState → β → ModuleState} {xs : List β}
    (h : ∀ x ∈ xs, ∀ st, SameFlags st (f st x)) (st : ModuleState) : SameFlags st (xs.foldl f st) := by
  induction xs generalizing st with
  | nil => exact refl st
  | cons x xs ih =>
    exact (h x List.mem_cons_self st).trans (ih (fun y hy => h y (List.mem_cons_of_mem _ hy)) _)

theorem assignSignal (s : Nat) (v : LogicT) : SameFlags st (st.assignSignal s v).1 := by
  have hbut := sameBut_assignSignal st s v
  refine ⟨hbut.combInitialized, hbut.initialRan, hbut.combPrevValues, fun hm k => ?_⟩
  have hgrow : (grow st.changeMark st.values.length 0).getD k 0 ≤ st.changeToken := by
    rw [getD_grow]
    exact hm k
  unfold ModuleState.assignSignal
  split
  · exact hm k
  dsimp only
  split
  · exact hgrow
  · rw [List.getD_eq_getElem?_getD, List.getElem?_set]
    split
    · split
      · exact UInt32.le_refl _
      · exact UInt32.zero_le
    · rw [← List.getD_eq_getElem?_getD]
      exact hgrow

theorem assignAll (ws : List (Nat × LogicT)) : SameFlags st (st.assignAll ws).1 := by
  induction ws generalizing st with
  | nil => exact refl st
  | cons w ws ih => exact (assignSignal st w.1 w.2).trans (ih _)

end SameFlags

end ModuleState

open ModuleState

section Steps

variable {m : CompiledModule} {tick : UInt64}

theorem stepRel_flags : StepRel fun x y => SameFlags x.st y.st where
  refl := fun x => SameFlags.refl x.st
  trans := fun _ _ _ h h' => h.trans h'
  flow := fun x _ => SameFlags.refl x.st

theorem flags_execAssign (a : Assign) (x : Exec) : SameFlags x.st (execAssign m tick a x).st := by
  unfold execAssign
  split
  · exact SameFlags.refl _
  split
  · exact SameFlags.refl _
  split
  · exact ⟨rfl, rfl, rfl, id⟩
  split
  · exact ⟨rfl, rfl, rfl, id⟩
  · exact SameFlags.assignAll _ _

theorem flags_execRoots (ss : List Stmt) (st : ModuleState) : SameFlags st (execRoots m tick ss st).1 := by
  induction ss generalizing st with
  | nil => exact SameFlags.refl st
  | cons s ss ih =>
    have hs : SameFlags st (execStmt m tick s { st }).st :=
      stepRel_flags.execStmt s (fun a _ x => flags_execAssign a x) { st }
    exact hs.trans (ih _)

section

variable (st : ModuleState)
include st

theorem flags_fireEvent (ev : ScheduledEvent) : SameFlags st (fireEvent m st ev) := by
  obtain ⟨rhs, heq⟩ := exists_fireEvent m st ev
  rw [heq]
  split
  · exact SameFlags.refl st
  split
  · exact ⟨rfl, rfl, rfl, id⟩
  · exact SameFlags.assignAll _ _

theorem flags_processDueEvents : SameFlags st (processDueEvents m tick st) := by
  have hfold : SameFlags st ((st.events.filter fun ev => ev.dueTick ≤ tick).foldl (fireEvent m) st) :=
    SameFlags.foldl (fun ev _ st => flags_fireEvent st ev) st
  obtain ⟨hc, hi, hp, hm⟩ := hfold
  exact ⟨hc, hi, hp, hm⟩

theorem flags_runInitialBlock (ib : InitialBlock) :
    SameFlags st (runInitialBlock m tick st ib) := by
  have hsched : SameFlags st
      { st with events := (scheduleStmts tick ib.roots { events := st.events }).events } :=
    ⟨rfl, rfl, rfl, id⟩
  unfold runInitialBlock
  dsimp only
  split
  · exact hsched
  · exact hsched.trans (flags_execRoots ib.roots _)

theorem flags_runInitialBlocks :
    SameFlags { st with initialRan := true } (runInitialBlocks m tick st) := by
  have hstart : SameFlags { st with initialRan := true }
      { st with initialRan := true, initialBaseTick := tick } := ⟨rfl, rfl, rfl, id⟩
  unfold runInitialBlocks
  split
  · rename_i hran
    exact ⟨rfl, hran, rfl, id⟩
  · exact hstart.trans (SameFlags.foldl (fun ib _ st => flags_runInitialBlock st ib) _)

theorem flags_updateUrandom : SameFlags st (updateUrandom m st) := by
  unfold updateUrandom
  split
  · exact SameFlags.refl st
  dsimp only
  split
  · exact ⟨rfl, rfl, rfl, id⟩
  split
  · exact ⟨rfl, rfl, rfl, id⟩
  split
  · exact SameFlags.refl st
  split
  · split
    · exact ⟨rfl, rfl, rfl, id⟩
    · exact ⟨rfl, rfl, rfl, id⟩
  · exact SameFlags.refl st

end

theorem flags_runAlwaysFfs (ffs : List (AlwaysFf × Nat)) (st : ModuleState) :
    SameFlags st (runAlwaysFfs m tick ffs st).1 := by
  induction ffs generalizing st with
  | nil => exact SameFlags.refl st
  | cons ff ffs ih =>
    unfold runAlwaysFfs
    split
    · exact (flags_execRoots ff.1.roots st).trans (ih _)
    · exact ih st

theorem flags_sequentialStep (seq : Bool) (n : InstanceNode) :
    SameFlags { n.state with initialRan := true } (sequentialStep tick seq n).1.state := by
  have hstart : SameFlags { n.state with initialRan := true } (beforeEdge n.mod tick n.state) := by
    have hclear : SameFlags { n.state with initialRan := true }
        { n.state with initialRan := true, nbaQueue := [] } := ⟨rfl, rfl, rfl, id⟩
    exact hclear.trans ((flags_runInitialBlocks { n.state with nbaQueue := [] }).trans
      (flags_processDueEvents _))
  rw [sequentialStep_eq]
  cases seq with
  | false => exact hstart
  | true => exact hstart.trans ((flags_updateUrandom _).trans (flags_runAlwaysFfs _ _))

theorem flags_runAlwaysCombs (token : UInt32) (any : Bool) (acs : List AlwaysComb) (st : ModuleState) :
    SameFlags st (runAlwaysCombs m tick token any acs st).1 := by
  induction acs generalizing st with
  | nil => exact SameFlags.refl st
  | cons ac acs ih =>
    unfold runAlwaysCombs
    split
    · exact (flags_execRoots ac.roots st).trans (ih _)
    · exact ih st

variable (n : InstanceNode)

theorem flags_driveSignalNext (s : Nat) (v : LogicT) :
    SameFlags n.state (driveSignalNext n s v).state := by
  unfold driveSignalNext
  split
  · exact SameFlags.refl _
  split
  · exact SameFlags.assignSignal _ _ _
  split
  · exact SameFlags.assignSignal _ _ _
  · exact ⟨rfl, rfl, rfl, id⟩

theorem flags_foldl_node {β : Type} {f : InstanceNode → β → InstanceNode} {xs : List β}
    (h : ∀ x ∈ xs, ∀ n, SameFlags n.state (f n x).state) (n : InstanceNode) :
    SameFlags n.state (xs.foldl f n).state := by
  induction xs generalizing n with
  | nil => exact SameFlags.refl _
  | cons x xs ih =>
    exact (h x List.mem_cons_self n).trans (ih (fun y hy => h y (List.mem_cons_of_mem _ hy)) _)

theorem flags_propagateChildToParent (child n : InstanceNode) :
    SameFlags n.state (propagateChildToParent child n).state := by
  refine flags_foldl_node (fun d _ n => ?_) n
  split
  · exact SameFlags.refl _
  · exact flags_driveSignalNext n _ _

theorem flags_runAssigns (as : List ContinuousAssign) :
    SameFlags n.state (runAssigns n as).state := by
  refine flags_foldl_node (fun a _ n => ?_) n
  split
  · exact SameFlags.refl _
  · exact flags_driveSignalNext n _ _

theorem flags_applyNetDrives : SameFlags n.state (applyNetDrives n).1.state := by
  unfold applyNetDrives
  dsimp only
  split
  · exact SameFlags.refl _
  · exact SameFlags.assignAll _ _

theorem flags_applyNba (st : ModuleState) : SameFlags st (applyNba st).1 := by
  obtain ⟨hc, hi, hp, hm⟩ := SameFlags.assignAll st st.nbaQueue
  exact ⟨hc, hi, hp, hm⟩

theorem flags_settleRoot (token : UInt32) (any : Bool) (n : InstanceNode) (kids : List InstanceState) :
    SameFlags n.state (settleRoot tick token any n kids).1.state := by
  have hkids : SameFlags n.state (kids.foldl (fun n c => propagateChildToParent c.value n) n).state :=
    flags_foldl_node (fun c _ n => flags_propagateChildToParent c.value n) n
  have hlocal (n : InstanceNode) : SameFlags n.state (runCombLocal tick token any n).1.state :=
    (flags_runAlwaysCombs token any n.mod.alwaysCombs n.state).trans
      (flags_runAssigns { n with state := _ } n.mod.assigns)
  exact hkids.trans ((hlocal _).trans ((flags_applyNetDrives _).trans (flags_applyNba _)))

end Steps

end PhyEngine.Verilog
