import PhyEngine.Verilog.NetDrives

/-!
# Explicit sensitivity lists

A change marks the signal with the current epoch, and a block with a sensitivity list runs if a
signal of the list has the mark of the epoch before. A mark is lost when the signal changes again
before the turn of the block, and when the epoch counter wraps.
-/

namespace PhyEngine.Verilog

open ModuleState List InstanceNode

/-! ## Marks -/

variable {st st' : ModuleState} {token : UInt32} {any : Bool}

namespace ModuleState

def mark (st : ModuleState) (s : Nat) : UInt32 := st.changeMark.getD s 0

/-- The signal changed in the current epoch. -/
def MarkedNow (st : ModuleState) (s : Nat) : Prop := s < st.changeMark.length ∧ st.mark s = st.changeToken

/-- Neither the signal nor its mark changes. -/
structure Untouched (s : Nat) (st st' : ModuleState) : Prop where
  token : st'.changeToken = st.changeToken
  room : st.changeMark.length ≤ st'.changeMark.length
  get : st'.get s = st.get s
  mark : st'.mark s = st.mark s
  listed : s ∈ st'.changedSignals ↔ s ∈ st.changedSignals

/-- A signal that `assign_signal` has changed has the mark of the epoch, and is listed since its
first change in the epoch. -/
structure Tracked (s : Nat) (st st' : ModuleState) : Prop where
  token : st'.changeToken = st.changeToken
  room : st.changeMark.length ≤ st'.changeMark.length
  grows : s ∈ st.changedSignals → s ∈ st'.changedSignals
  cases : Untouched s st st' ∨ st'.MarkedNow s ∧ (st.mark s ≠ st.changeToken → s ∈ st'.changedSignals)

variable {s : Nat}

theorem Untouched.refl (st : ModuleState) : Untouched s st st := ⟨rfl, Nat.le_refl _, rfl, rfl, Iff.rfl⟩

variable {a b c : ModuleState}

theorem Untouched.trans (h : Untouched s a b) (h' : Untouched s b c) : Untouched s a c :=
  ⟨h'.token.trans h.token, h.room.trans h'.room, h'.get.trans h.get, h'.mark.trans h.mark, h'.listed.trans h.listed⟩

theorem Untouched.marked (h : Untouched s st st') (hm : st.MarkedNow s) : st'.MarkedNow s :=
  ⟨lt_of_lt_of_le hm.1 h.room, by rw [h.mark, hm.2, h.token]⟩

theorem Untouched.tracked (h : Untouched s st st') : Tracked s st st' := ⟨h.token, h.room, h.listed.mpr, .inl h⟩

theorem Tracked.refl (st : ModuleState) : Tracked s st st := (Untouched.refl st).tracked

theorem Tracked.trans (h : Tracked s a b) (h' : Tracked s b c) : Tracked s a c := by
  refine ⟨h'.token.trans h.token, h.room.trans h'.room, fun hs => h'.grows (h.grows hs), ?_⟩
  rcases h'.cases with hq' | ⟨hm', hl'⟩
  · rcases h.cases with hq | ⟨hm, hl⟩
    · exact .inl (hq.trans hq')
    · exact .inr ⟨hq'.marked hm, fun hne => hq'.listed.mpr (hl hne)⟩
  · refine .inr ⟨hm', fun hne => ?_⟩
    rcases h.cases with hq | ⟨-, hl⟩
    · exact hl' (by rwa [hq.mark, hq.token])
    · exact h'.grows (hl hne)

theorem length_grow_le {β : Type} (xs : List β) (n : Nat) (x : β) : xs.length ≤ (grow xs n x).length := by
  rw [grow, length_append]
  omega

theorem changeMark_assignSignal (st : ModuleState) (sig : Nat) (v : LogicT) :
    (st.assignSignal sig v).1 = st ∨
      sig < st.values.length ∧ ∃ listed, (st.assignSignal sig v).1.changeMark =
        (grow st.changeMark st.values.length 0).set sig st.changeToken ∧
      (st.assignSignal sig v).1.changedSignals = st.changedSignals ++ listed ∧ (∀ q ∈ listed, q = sig) ∧
      (st.mark sig ≠ st.changeToken → sig ∈ listed) := by
  have hgrow : (grow st.changeMark st.values.length 0).getD sig 0 = st.mark sig := getD_grow _ _ _ _
  rw [assignSignal]
  by_cases hsame : st.values.length ≤ sig ∨ st.get sig = v
  · rw [if_pos hsame]
    exact .inl rfl
  · rw [if_neg hsame]
    push Not at hsame
    have hlt : sig < (grow st.changeMark st.values.length 0).length := lt_of_lt_of_le hsame.1 (length_grow _ _ _)
    refine .inr ⟨hsame.1, ?_⟩
    by_cases hmark : (grow st.changeMark st.values.length 0).getD sig 0 = st.changeToken
    · -- A second change in one epoch keeps the mark.
      refine ⟨[], ?_⟩
      dsimp only
      rw [if_pos hmark]
      refine ⟨?_, (append_nil _).symm, fun q hq => absurd hq not_mem_nil, fun hne =>
        absurd (hgrow.symm.trans hmark) hne⟩
      dsimp only
      rw [← hmark, getD_eq_getElem _ _ hlt, set_getElem_self]
    · refine ⟨[sig], ?_⟩
      dsimp only
      rw [if_neg hmark]
      exact ⟨rfl, rfl, fun q hq => mem_singleton.mp hq, fun _ => mem_singleton.mpr rfl⟩

theorem untouched_assignSignal (st : ModuleState) {sig : Nat} (hne : sig ≠ s) (v : LogicT) :
    Untouched s st (st.assignSignal sig v).1 := by
  rcases changeMark_assignSignal st sig v with hsame | ⟨-, listed, hmark, hlisted, hsig, -⟩
  · rw [hsame]
    exact Untouched.refl st
  · refine ⟨(sameBut_assignSignal st sig v).changeToken, ?_, ?_, ?_, ?_⟩
    · rw [hmark, length_set]
      exact length_grow_le _ _ _
    · rw [get_assignSignal, if_neg fun h => hne h.1.symm]
    · rw [mark, hmark, getD_eq_getElem?_getD, getElem?_set_ne hne, ← getD_eq_getElem?_getD]
      exact getD_grow _ _ _ _
    · rw [hlisted, mem_append]
      exact or_iff_left fun h => hne (hsig s h).symm

theorem tracked_assignSignal (st : ModuleState) (sig : Nat) (v : LogicT) : Tracked s st (st.assignSignal sig v).1 := by
  by_cases hne : sig = s
  · subst hne
    rcases changeMark_assignSignal st sig v with hsame | ⟨hlt, listed, hmark, hlisted, -, hfresh⟩
    · rw [hsame]
      exact Tracked.refl st
    · have hroom : sig < (grow st.changeMark st.values.length 0).length := lt_of_lt_of_le hlt (length_grow _ _ _)
      have htoken := (sameBut_assignSignal st sig v).changeToken
      refine ⟨htoken, ?_, fun hs => ?_, .inr ⟨⟨?_, ?_⟩, fun hne => ?_⟩⟩
      · rw [hmark, length_set]
        exact length_grow_le _ _ _
      · rw [hlisted]
        exact mem_append_left _ hs
      · rw [hmark, length_set]
        exact hroom
      · rw [mark, hmark, htoken, getD_eq_getElem?_getD, getElem?_set_self hroom, Option.getD_some]
      · rw [hlisted]
        exact mem_append_right _ (hfresh hne)
  · exact (untouched_assignSignal st hne v).tracked

theorem untouched_assignAll (st : ModuleState) {ws : List (Nat × LogicT)} (h : ∀ w ∈ ws, w.1 ≠ s) :
    Untouched s st (st.assignAll ws).1 := by
  induction ws generalizing st with
  | nil => exact Untouched.refl st
  | cons w ws ih =>
    rw [forall_mem_cons] at h
    exact (untouched_assignSignal st h.1 w.2).trans (ih _ h.2)

theorem tracked_assignAll (st : ModuleState) (ws : List (Nat × LogicT)) : Tracked s st (st.assignAll ws).1 := by
  induction ws generalizing st with
  | nil => exact Tracked.refl st
  | cons w ws ih => exact (tracked_assignSignal st w.1 w.2).trans (ih _)

end ModuleState

/-! ## Statements -/

section Blocks

variable {m : CompiledModule} {tick : UInt64} {s : Nat}

def Assign.WritesAtOnce (a : Assign) (s : Nat) : Prop := a.nonblocking = false ∧ a.delayTicks = 0 ∧ s ∈ a.lhs

theorem untouched_state (hv : st'.values = st.values) (hm : st'.changeMark = st.changeMark)
    (ht : st'.changeToken = st.changeToken) (hl : st'.changedSignals = st.changedSignals) : Untouched s st st' :=
  ⟨ht, by rw [hm], by rw [ModuleState.get, ModuleState.get, hv], by rw [mark, mark, hm], by rw [hl]⟩

theorem untouched_execAssign {a : Assign} (h : ¬ a.WritesAtOnce s) (x : Exec) :
    Untouched s x.st (execAssign m tick a x).st := by
  rw [execAssign]
  split_ifs with hlen hout hdelay hnb
  · exact Untouched.refl _
  · exact Untouched.refl _
  · exact untouched_state rfl rfl rfl rfl
  · exact untouched_state rfl rfl rfl rfl
  · refine untouched_assignAll x.st fun w hw heq => h ⟨Bool.eq_false_iff.mpr hnb, not_not.mp hdelay, ?_⟩
    rw [← heq]
    exact mem_sampleWrites hw

theorem tracked_execAssign (a : Assign) (x : Exec) : Tracked s x.st (execAssign m tick a x).st := by
  by_cases h : a.WritesAtOnce s
  · rw [execAssign]
    split_ifs with hlen hout hdelay hnb
    · exact Tracked.refl _
    · exact Tracked.refl _
    · exact absurd h.2.1 hdelay
    · rw [h.1] at hnb
      cases hnb
    · exact tracked_assignAll x.st _
  · exact (untouched_execAssign h x).tracked

structure Reported (s : Nat) (x y : Exec) : Prop where
  untouched : y.changed = false → x.changed = false ∧ Untouched s x.st y.st

theorem reported_execAssign (a : Assign) (x : Exec) : Reported s x (execAssign m tick a x) := by
  constructor
  rw [execAssign]
  split_ifs with hlen hout hdelay hnb
  · exact fun h => ⟨h, Untouched.refl _⟩
  · exact fun h => ⟨h, Untouched.refl _⟩
  · exact fun h => ⟨h, untouched_state rfl rfl rfl rfl⟩
  · exact fun h => ⟨h, untouched_state rfl rfl rfl rfl⟩
  · intro h
    rw [Bool.or_eq_false_iff] at h
    refine ⟨h.2, ?_⟩
    dsimp only
    rw [(assignAll_of_not_changed h.1).1]
    exact Untouched.refl _

theorem stepRel_untouched : StepRel fun x y => Untouched s x.st y.st where
  refl := fun x => Untouched.refl x.st
  trans := fun _ _ _ h h' => h.trans h'
  flow := fun x _ => Untouched.refl x.st

theorem stepRel_tracked : StepRel fun x y => Tracked s x.st y.st where
  refl := fun x => Tracked.refl x.st
  trans := fun _ _ _ h h' => h.trans h'
  flow := fun x _ => Tracked.refl x.st

theorem stepRel_reported : StepRel (Reported s) where
  refl := fun x => ⟨fun h => ⟨h, Untouched.refl x.st⟩⟩
  trans := by
    intro x y z h h'
    refine ⟨fun hz => ?_⟩
    obtain ⟨hy, hq'⟩ := h'.untouched hz
    obtain ⟨hx, hq⟩ := h.untouched hy
    exact ⟨hx, hq.trans hq'⟩
  flow := fun x _ => ⟨fun h => ⟨h, Untouched.refl x.st⟩⟩

variable {ss : List Stmt}

theorem untouched_execRoots (h : ∀ a ∈ Stmt.assignsOfList ss, ¬ a.WritesAtOnce s) (st : ModuleState) :
    Untouched s st (execRoots m tick ss st).1 := by
  induction ss generalizing st with
  | nil => exact Untouched.refl st
  | cons root roots ih =>
    have hmem {a : Assign} : a ∈ root.assigns ∨ a ∈ Stmt.assignsOfList roots →
      a ∈ Stmt.assignsOfList (root :: roots) := by
      rw [Stmt.assignsOfList, mem_append]
      exact id
    have hroot : Untouched s st (execStmt m tick root { st }).st :=
      stepRel_untouched.execStmt root (fun a ha x => untouched_execAssign (h a (hmem (Or.inl ha))) x) { st }
    exact hroot.trans (ih (fun a ha => h a (hmem (Or.inr ha))) _)

theorem tracked_execRoots (ss : List Stmt) (st : ModuleState) : Tracked s st (execRoots m tick ss st).1 := by
  induction ss generalizing st with
  | nil => exact Tracked.refl st
  | cons root roots ih =>
    have hroot : Tracked s st (execStmt m tick root { st }).st :=
      stepRel_tracked.execStmt root (fun a _ x => tracked_execAssign a x) { st }
    exact hroot.trans (ih _)

theorem untouched_execRoots_of_not_changed (h : (execRoots m tick ss st).2 = false) :
    Untouched s st (execRoots m tick ss st).1 := by
  induction ss generalizing st with
  | nil => exact Untouched.refl st
  | cons root roots ih =>
    have hboth : ((execRoots m tick roots (execStmt m tick root { st }).st).2 ||
      (execStmt m tick root { st }).changed) = false := h
    rw [Bool.or_eq_false_iff] at hboth
    have hroot : Reported s { st } (execStmt m tick root { st }) :=
      stepRel_reported.execStmt root (fun a _ x => reported_execAssign a x) { st }
    exact (hroot.untouched hboth.2).2.trans (ih hboth.1)

theorem tracked_runAlwaysCombs (token : UInt32) (any : Bool) (acs : List AlwaysComb) (st : ModuleState) :
    Tracked s st (runAlwaysCombs m tick token any acs st).1 := by
  induction acs generalizing st with
  | nil => exact Tracked.refl st
  | cons ac acs ih =>
    rw [runAlwaysCombs]
    split_ifs
    · exact (tracked_execRoots ac.roots st).trans (ih _)
    · exact ih st

variable {acs : List AlwaysComb}

/-- Blocks leave the signal alone if they do not write it at once, or wait for signals none of
which had the trigger mark at the start. -/
theorem untouched_runAlwaysCombs {start : ModuleState} (htoken : start.changeToken ≠ token)
    (h : ∀ ac ∈ acs, (∀ a ∈ Stmt.assignsOfList ac.roots, ¬ a.WritesAtOnce s) ∨
      ac.isStar = false ∧ ∀ q ∈ ac.sensSignals, start.mark q ≠ token)
    (st : ModuleState) (hst : ∀ q, Tracked q start st) : Untouched s st (runAlwaysCombs m tick token any acs st).1 := by
  induction acs generalizing st with
  | nil => exact Untouched.refl st
  | cons ac acs ih =>
    rw [forall_mem_cons] at h
    rw [runAlwaysCombs]
    split_ifs with htriggered
    · rcases h.1 with hwrites | ⟨hstar, hmarks⟩
      · exact (untouched_execRoots hwrites st).trans (ih h.2 _ fun q => (hst q).trans (tracked_execRoots ac.roots st))
      · rw [AlwaysComb.triggered, hstar, if_neg Bool.false_ne_true, any_eq_true] at htriggered
        obtain ⟨q, hq, hmark⟩ := htriggered
        have hturn := of_decide_eq_true (Bool.and_eq_true_iff.mp hmark).2
        rw [← mark] at hturn
        rcases (hst q).cases with huntouched | ⟨hmarked, -⟩
        · exact absurd (huntouched.mark.symm.trans hturn) (hmarks q hq)
        · exact absurd ((hst q).token.symm.trans (hmarked.2.symm.trans hturn)) htoken
    · exact ih h.2 st hst

theorem untouched_runAlwaysCombs_of_not_changed
    (h : (runAlwaysCombs m tick token any acs st).2 = false) :
    Untouched s st (runAlwaysCombs m tick token any acs st).1 := by
  induction acs generalizing st with
  | nil => exact Untouched.refl st
  | cons ac acs ih =>
    revert h
    rw [runAlwaysCombs]
    split_ifs
    · intro h
      have hboth := Bool.or_eq_false_iff.mp h
      exact (untouched_execRoots_of_not_changed hboth.2).trans (ih hboth.1)
    · exact fun h => ih h

end Blocks

section Drives

variable {tick : UInt64} {s : Nat}

variable {n : InstanceNode}

theorem untouched_driveSignalNext {sig : Nat} (h : sig = s → n.resolved s = true) (v : LogicT) :
    Untouched s n.state (driveSignalNext n sig v).state := by
  by_cases hr : n.resolved sig = true
  · rw [driveSignalNext_resolved hr]
    exact untouched_state rfl rfl rfl rfl
  · rw [driveSignalNext_direct (Bool.eq_false_iff.mpr hr)]
    refine untouched_assignSignal n.state (fun heq => hr ?_) v
    rw [heq]
    exact h heq

theorem tracked_driveSignalNext (n : InstanceNode) (sig : Nat) (v : LogicT) :
    Tracked s n.state (driveSignalNext n sig v).state := by
  by_cases hr : n.resolved sig = true
  · rw [driveSignalNext_resolved hr]
    exact Untouched.tracked (untouched_state rfl rfl rfl rfl)
  · rw [driveSignalNext_direct (Bool.eq_false_iff.mpr hr)]
    exact tracked_assignSignal n.state sig v

variable {β : Type} {f : InstanceNode → β → InstanceNode}

theorem untouched_foldl {xs : List β}
    (hstatic : ∀ n x, SameStatic n (f n x))
    (h : ∀ x ∈ xs, ∀ n', SameStatic n n' → Untouched s n'.state (f n' x).state) :
    Untouched s n.state (xs.foldl f n).state := by
  induction xs generalizing n with
  | nil => exact Untouched.refl _
  | cons x xs ih =>
    rw [forall_mem_cons] at h
    exact (h.1 n (SameStatic.refl n)).trans (ih fun y hy n' hn' => h.2 y hy n' ((hstatic n x).trans hn'))

theorem tracked_foldl (h : ∀ n x, Tracked s n.state (f n x).state)
    (xs : List β) (n : InstanceNode) : Tracked s n.state (xs.foldl f n).state := by
  induction xs generalizing n with
  | nil => exact Tracked.refl _
  | cons x xs ih => exact (h n x).trans (ih _)

theorem static_propagateChildToParent (c n : InstanceNode) : SameStatic n (propagateChildToParent c n) := by
  have hframe : NodeFrame (fun _ => True) (fun _ => True) n (propagateChildToParent c n) :=
    frame_propagateChildToParent fun _ _ => trivial
  exact hframe.static

theorem static_propagateKids (kids : List InstanceState) (n : InstanceNode) :
    SameStatic n (kids.foldl (fun n c => propagateChildToParent c.value n) n) := by
  induction kids generalizing n with
  | nil => exact SameStatic.refl n
  | cons c kids ih => exact (static_propagateChildToParent c.value n).trans (ih _)

theorem untouched_propagateChildToParent {c : InstanceNode}
    (h : ∀ d ∈ c.outputDrives, d.parentSignal = s → n.resolved s = true) :
    Untouched s n.state (propagateChildToParent c n).state := by
  refine untouched_foldl (fun n d => ?_) fun d hd n' hn' => ?_
  · cases d.source c with
    | none => exact SameStatic.refl n
    | some v => exact static_driveSignalNext n _ v
  · cases d.source c with
    | none => exact Untouched.refl _
    | some v => exact untouched_driveSignalNext (fun heq => (resolved_congr hn' s).trans (h d hd heq)) v

theorem tracked_propagateChildToParent (c n : InstanceNode) : Tracked s n.state (propagateChildToParent c n).state := by
  refine tracked_foldl (fun n d => ?_) _ n
  cases d.source c with
  | none => exact Tracked.refl _
  | some v => exact tracked_driveSignalNext n _ v

variable {kids : List InstanceState}

theorem untouched_propagateKids (h : s ∈ driveTargets kids → n.resolved s = true) :
    Untouched s n.state (kids.foldl (fun n c => propagateChildToParent c.value n) n).state := by
  refine untouched_foldl (fun n (c : InstanceState) => static_propagateChildToParent c.value n) fun c hc n' hn' => ?_
  refine untouched_propagateChildToParent fun d hd heq => (resolved_congr hn' s).trans (h ?_)
  exact mem_flatMap.mpr ⟨c, hc, mem_map.mpr ⟨d, hd, heq⟩⟩

theorem untouched_runAssigns {n : InstanceNode} {as : List ContinuousAssign}
    (h : ∀ a ∈ as, a.lhsSignal = s → n.resolved s = true) : Untouched s n.state (runAssigns n as).state := by
  refine untouched_foldl (fun n a => ?_) fun a ha n' hn' => ?_
  · cases a.drive n.mod n.state.values with
    | none => exact SameStatic.refl n
    | some v => exact static_driveSignalNext n _ v
  · cases a.drive n'.mod n'.state.values with
    | none => exact Untouched.refl _
    | some v => exact untouched_driveSignalNext (fun heq => (resolved_congr hn' s).trans (h a ha heq)) v

theorem tracked_runAssigns (n : InstanceNode) (as : List ContinuousAssign) :
    Tracked s n.state (runAssigns n as).state := by
  refine tracked_foldl (fun n a => ?_) _ n
  cases a.drive n.mod n.state.values with
  | none => exact Tracked.refl _
  | some v => exact tracked_driveSignalNext n _ v

theorem tracked_applyNetDrives (n : InstanceNode) : Tracked s n.state (applyNetDrives n).1.state := by
  rw [applyNetDrives]
  split_ifs
  · exact Tracked.refl _
  · exact tracked_assignAll n.state _

theorem untouched_applyNetDrives_of_not_changed (h : (applyNetDrives n).2 = false) :
    Untouched s n.state (applyNetDrives n).1.state := by
  revert h
  rw [applyNetDrives]
  split_ifs
  · exact fun _ => Untouched.refl _
  · intro h
    dsimp only
    rw [(assignAll_of_not_changed h).1]
    exact Untouched.refl _

theorem tracked_applyNba (st : ModuleState) : Tracked s st (applyNba st).1 := by
  have hqueue : Untouched s (st.assignAll st.nbaQueue).1 (applyNba st).1 := untouched_state rfl rfl rfl rfl
  exact (tracked_assignAll st _).trans hqueue.tracked

theorem untouched_applyNba_of_not_changed (h : (applyNba st).2 = false) : Untouched s st (applyNba st).1 := by
  have hsame : (st.assignAll st.nbaQueue).1 = st := (assignAll_of_not_changed h).1
  rw [applyNba]
  dsimp only
  rw [hsame]
  exact untouched_state rfl rfl rfl rfl

theorem tracked_settleRoot (token : UInt32) (any : Bool) (n : InstanceNode) (kids : List InstanceState) :
    Tracked s n.state (settleRoot tick token any n kids).1.state := by
  have hkids : Tracked s n.state (kids.foldl (fun n c => propagateChildToParent c.value n) n).state :=
    tracked_foldl (fun n c => tracked_propagateChildToParent c.value n) kids n
  have hlocal (n : InstanceNode) : Tracked s n.state (runCombLocal tick token any n).1.state :=
    (tracked_runAlwaysCombs token any n.mod.alwaysCombs n.state).trans
    (tracked_runAssigns { n with state := _ } n.mod.assigns)
  exact hkids.trans ((hlocal _).trans ((tracked_applyNetDrives _).trans (tracked_applyNba _)))

/-- The signal is written past the net resolution, and the loop does not hear of it. -/
def DirectlyDriven (n : InstanceNode) (cs : List InstanceState) (s : Nat) : Prop :=
  n.resolved s = false ∧ (s ∈ n.mod.assignTargets ∨ s ∈ driveTargets cs)

theorem untouched_settleRoot_of_not_changed (hdirect : ¬ DirectlyDriven n kids s)
    (h : (settleRoot tick token any n kids).2 = false) :
    Untouched s n.state (settleRoot tick token any n kids).1.state := by
  have hresolved (hs : s ∈ n.mod.assignTargets ∨ s ∈ driveTargets kids) : n.resolved s = true := by
    by_contra hr
    exact hdirect ⟨Bool.eq_false_iff.mpr hr, hs⟩
  have hstatic := static_propagateKids kids n
  have hkids := untouched_propagateKids fun hs => hresolved (Or.inr hs)
  revert h
  rw [settleRoot]
  generalize kids.foldl (fun n c => propagateChildToParent c.value n) n = n₁ at hstatic hkids
  intro h
  obtain ⟨hnba, hrest⟩ := Bool.or_eq_false_iff.mp h
  obtain ⟨hnets, hlocal⟩ := Bool.or_eq_false_iff.mp hrest
  have hcomb : Untouched s n₁.state (runAlwaysCombs n₁.mod tick token any n₁.mod.alwaysCombs n₁.state).1 :=
    untouched_runAlwaysCombs_of_not_changed hlocal
  have hassigns : Untouched s (runAlwaysCombs n₁.mod tick token any n₁.mod.alwaysCombs n₁.state).1
      (runCombLocal tick token any n₁).1.state := by
    refine @untouched_runAssigns s { n₁ with state :=
      (runAlwaysCombs n₁.mod tick token any n₁.mod.alwaysCombs n₁.state).1 }
      n₁.mod.assigns fun a ha heq => ?_
    have hlen : (runAlwaysCombs n₁.mod tick token any n₁.mod.alwaysCombs n₁.state).1.values.length =
        n₁.state.values.length := by
      have hframe : StateFrame (fun _ => True) (fun _ => True) n₁.state
          (runAlwaysCombs n₁.mod tick token any n₁.mod.alwaysCombs n₁.state).1 :=
        frame_runAlwaysCombs (fun _ _ _ _ => trivial) (fun _ _ _ _ => trivial) n₁.state
      exact hframe.length
    have hmem : s ∈ n.mod.assignTargets := by
      rw [← hstatic.mod]
      exact mem_map.mpr ⟨a, ha, heq⟩
    rw [← hresolved (Or.inl hmem), ← resolved_congr hstatic s, resolved, resolved]
    dsimp only
    rw [hlen]
    rfl
  exact hkids.trans (hcomb.trans (hassigns.trans
    ((untouched_applyNetDrives_of_not_changed hnets).trans (untouched_applyNba_of_not_changed hnba))))

end Drives

def nextEpoch (token : UInt32) : UInt32 := if token + 1 = 0 then 1 else token + 1

theorem changeToken_beginChangeEpoch (st : ModuleState) :
    st.beginChangeEpoch.changeToken = nextEpoch st.changeToken := by
  rw [beginChangeEpoch, nextEpoch]
  split_ifs <;> rfl

theorem mark_beginChangeEpoch {st : ModuleState} (h : st.changeToken + 1 ≠ 0) (s : Nat) :
    st.beginChangeEpoch.mark s = st.mark s ∧ st.changeMark.length ≤ st.beginChangeEpoch.changeMark.length := by
  have hmarks : st.beginChangeEpoch.changeMark = grow st.changeMark st.values.length 0 := by
    rw [beginChangeEpoch]
    dsimp only
    rw [if_neg h]
  rw [mark, hmarks]
  exact ⟨getD_grow _ _ _ _, length_grow_le _ _ _⟩

theorem mark_beginChangeEpoch_of_wrap {st : ModuleState} (h : st.changeToken + 1 = 0) (s : Nat) :
    st.beginChangeEpoch.mark s = 0 ∧ st.beginChangeEpoch.changeToken = 1 := by
  have hmarks : st.beginChangeEpoch.changeMark = grow (st.changeMark.map fun _ => 0) st.values.length 0 := by
    rw [beginChangeEpoch]
    dsimp only
    rw [if_pos h]
  rw [changeToken_beginChangeEpoch, nextEpoch, if_pos h, mark, hmarks, getD_grow]
  refine ⟨?_, rfl⟩
  rw [getD_eq_getElem?_getD, getElem?_map]
  cases st.changeMark[s]? with
  | none => rfl
  | some t => rfl

/-! ## The rounds of a settle loop -/

/-- What one iteration of the settle loop begins with. -/
structure Round where
  triggerToken : UInt32
  anyTriggered : Bool
  inst : InstanceState

section Rounds

variable (resolve : InstanceState → InstanceState × Bool) (tick : UInt64)

namespace Round

variable (r : Round)

def begun : InstanceNode := { r.inst.value with state := r.inst.value.state.beginChangeEpoch }

def pass : InstanceState × Bool :=
  settlePass resolve tick r.triggerToken r.anyTriggered (r.inst.withValue r.begun)

def localStart : InstanceNode :=
  (settledKids resolve r.begun r.inst.children).foldl (fun n c => propagateChildToParent c.value n)
    (prepareNetDrives r.begun)

/-- The state at the turn of block `j`, after the outputs of the children and the blocks before
it. -/
def atTurn (j : Nat) : ModuleState :=
  let n := r.localStart resolve
  (runAlwaysCombs n.mod tick r.triggerToken r.anyTriggered (n.mod.alwaysCombs.take j) n.state).1

/-- Whether block `j` is executed: it is triggered at its turn. -/
def executes (j : Nat) : Bool :=
  ((r.localStart resolve).mod.alwaysCombs[j]?).any fun ac =>
    ac.triggered r.triggerToken r.anyTriggered (r.atTurn resolve tick j)

/-- The signal changes in a round before the turn of block `j`. -/
def ChangesBefore (j s : Nat) : Prop :=
  (r.atTurn resolve tick j).get s ≠ r.inst.value.get s ∨ s ∈ (r.atTurn resolve tick j).changedSignals

/-- A signal of the list has the mark of the round before and does not change before the turn
of block `j`, and the epoch counter does not wrap. -/
def Sees (ac : AlwaysComb) (j : Nat) : Prop :=
  r.triggerToken + 1 ≠ 0 ∧
    ∃ s ∈ ac.sensSignals, r.inst.value.state.MarkedNow s ∧ ¬ r.ChangesBefore resolve tick j s

/-- What the state before the round and the design say: the counter does not wrap, the signal is
on the list and not driven directly, and each block before block `j` leaves it alone or has no
signal with the mark of the round before in its list. -/
def Undisturbed (ac : AlwaysComb) (j s : Nat) : Prop :=
  r.triggerToken + 1 ≠ 0 ∧ s ∈ ac.sensSignals ∧ ¬ DirectlyDriven r.inst.value r.inst.children s ∧
    ∀ b ∈ r.inst.value.mod.alwaysCombs.take j, (∀ a ∈ Stmt.assignsOfList b.roots, ¬ a.WritesAtOnce s) ∨
      b.isStar = false ∧ ∀ q ∈ b.sensSignals, ¬ r.inst.value.state.MarkedNow q

/-- The signal changes during a round: it has another value afterwards, or `assign_signal` has
recorded a change. -/
def Changes (s : Nat) : Prop :=
  (r.pass resolve tick).1.value.get s ≠ r.inst.value.get s ∨ s ∈ (r.pass resolve tick).1.value.state.changedSignals

def next : Round :=
  ⟨r.begun.state.changeToken, (r.pass resolve tick).1.value.state.changedSignals ≠ [], (r.pass resolve tick).1⟩

end Round

def settleRounds : Nat → Round → List Round
  | 0, _ => []
  | iters + 1, r => r :: if (r.pass resolve tick).2 then settleRounds iters (r.next resolve tick) else []

def combStart (t : InstanceState) : Round :=
  let b := beginCombResolve t.value.state
  ⟨b.1.changeToken, b.2, t.withValue { t.value with state := b.1 }⟩

/-- The iterations of `comb_resolve`, the first one first. -/
def combRounds (t : InstanceState) : List Round := settleRounds resolve tick maxIter (combStart t)

theorem settleLoop_eq_rounds (iters : Nat) (r : Round) :
    (settleLoop resolve tick iters r.triggerToken r.anyTriggered r.inst).inst =
      ((settleRounds resolve tick iters r).getLast?.map fun r => (r.pass resolve tick).1).getD r.inst := by
  induction iters generalizing r with
  | zero => rfl
  | succ iters ih =>
    rw [settleLoop, settleRounds]
    dsimp only
    cases hchanged : (r.pass resolve tick).2 with
    | false =>
      rw [Round.pass, Round.begun] at hchanged
      rw [hchanged]
      rfl
    | true =>
      have hnext := ih (r.next resolve tick)
      have hlast : ((r :: settleRounds resolve tick iters (r.next resolve tick)).getLast?.map fun r =>
          (r.pass resolve tick).1).getD r.inst =
            ((settleRounds resolve tick iters (r.next resolve tick)).getLast?.map fun r =>
            (r.pass resolve tick).1).getD (r.next resolve tick).inst := by
        cases hrest : settleRounds resolve tick iters (r.next resolve tick) with
        | nil => rfl
        | cons r' rs =>
          rw [getLast?_cons_cons]
          rw [getLast?_eq_some_getLast (cons_ne_nil r' rs)]
          rfl
      rw [if_pos rfl, hlast, ← hnext]
      rw [Round.pass, Round.begun] at hchanged
      rw [hchanged]
      rfl

end Rounds

/-! ## The design does not change -/

section Static

variable {resolve : InstanceState → InstanceState × Bool} {tick : UInt64}

theorem static_begun (r : Round) : SameStatic r.inst.value r.begun := ⟨rfl, rfl, rfl, fun _ => rfl, rfl⟩

theorem static_prepareNetDrives (n : InstanceNode) : SameStatic n (prepareNetDrives n) := by
  have hframe : NodeFrame (fun _ => True) (fun _ => True) n (prepareNetDrives n) := frame_prepareNetDrives n
  exact hframe.static

theorem pass_fst (r : Round) : (r.pass resolve tick).1 =
    .node (settleRoot tick r.triggerToken r.anyTriggered (prepareNetDrives r.begun)
      (settledKids resolve r.begun r.inst.children)).1 (settledKids resolve r.begun r.inst.children) :=
  settlePass_fst resolve tick r.triggerToken r.anyTriggered r.begun r.inst.children

theorem static_pass (r : Round) : SameStatic r.inst.value (r.pass resolve tick).1.value := by
  rw [pass_fst]
  exact (static_begun r).trans ((static_prepareNetDrives _).trans (static_settleRoot tick _ _ _ _))

theorem static_settleLoop (iters : Nat) (r : Round) :
    SameStatic r.inst.value (settleLoop resolve tick iters r.triggerToken r.anyTriggered r.inst).inst.value := by
  induction iters generalizing r with
  | zero => exact SameStatic.refl _
  | succ iters ih =>
    have hpass : SameStatic r.inst.value (r.pass resolve tick).1.value := static_pass r
    rw [settleLoop]
    dsimp only
    split_ifs
    · exact hpass
    · exact hpass.trans (ih (r.next resolve tick))

theorem static_combResolve (height : Nat) (t : InstanceState) :
    SameStatic t.value (combResolve tick height t).1.value := by
  cases height with
  | zero => exact SameStatic.refl _
  | succ height =>
    have hframe := quiet_beginCombResolve t.value.state
    have hstart : SameStatic t.value { t.value with state := (beginCombResolve t.value.state).1 } :=
      (NodeFrame.ofState hframe).static
    have hloop := @static_settleLoop (combResolve tick height) tick maxIter
      ⟨(beginCombResolve t.value.state).1.changeToken, (beginCombResolve t.value.state).2,
        t.withValue { t.value with state := (beginCombResolve t.value.state).1 }⟩
    rw [combResolve, combResolveWith]
    generalize settleLoop (combResolve tick height) tick maxIter (beginCombResolve t.value.state).1.changeToken
      (beginCombResolve t.value.state).2 (t.withValue { t.value with state := (beginCombResolve t.value.state).1 }) =
        s at hloop
    have hfull := hstart.trans hloop
    exact ⟨hfull.mod, hfull.bindings, hfull.outputDrives, hfull.isDriven, hfull.length⟩

variable (hres : ∀ c, SameStatic c.value (resolve c).1.value)

include hres

theorem driveTargets_settledKids (n : InstanceNode) (cs : List InstanceState) :
    driveTargets (settledKids resolve n cs) = driveTargets cs := by
  rw [driveTargets, driveTargets, settledKids, flatMap_map]
  refine flatMap_congr fun c _ => ?_
  have hchild : SameStatic (c.withValue (propagateParentToChild n c.value).1).value
      (resolve (c.withValue (propagateParentToChild n c.value).1)).1.value := hres _
  rw [hchild.outputDrives]
  rfl

theorem directlyDriven_pass (r : Round) (s : Nat) :
    DirectlyDriven (r.pass resolve tick).1.value (r.pass resolve tick).1.children s ↔
      DirectlyDriven r.inst.value r.inst.children s := by
  have hstatic : SameStatic r.inst.value (r.pass resolve tick).1.value := static_pass r
  have hkids : driveTargets (r.pass resolve tick).1.children = driveTargets r.inst.children := by
    rw [pass_fst]
    exact driveTargets_settledKids hres _ _
  rw [DirectlyDriven, DirectlyDriven, resolved_congr hstatic, hstatic.mod, hkids]

end Static

section Missed

variable {resolve : InstanceState → InstanceState × Bool} {tick : UInt64} {r : Round} {j s : Nat} {ac : AlwaysComb}

theorem untouched_prepareNetDrives (n : InstanceNode) : Untouched s n.state (prepareNetDrives n).state :=
  untouched_state rfl rfl rfl rfl

theorem tracked_localStart (s : Nat) : Tracked s r.begun.state (r.localStart resolve).state :=
  (untouched_prepareNetDrives _).tracked.trans
    (tracked_foldl (fun n (c : InstanceState) => tracked_propagateChildToParent c.value n) _ _)

theorem tracked_atTurn (j s : Nat) : Tracked s r.begun.state (r.atTurn resolve tick j) :=
  (tracked_localStart s).trans (tracked_runAlwaysCombs _ _ _ _)

theorem tracked_pass (s : Nat) : Tracked s r.begun.state (r.pass resolve tick).1.value.state := by
  rw [pass_fst]
  exact (untouched_prepareNetDrives _).tracked.trans (tracked_settleRoot _ _ _ _)

theorem mod_localStart : (r.localStart resolve).mod = r.inst.value.mod :=
  (static_propagateKids (settledKids resolve r.begun r.inst.children) (prepareNetDrives r.begun)).mod

section

variable (htoken : r.inst.value.state.changeToken = r.triggerToken)
include htoken

theorem begun_token : r.begun.state.changeToken = nextEpoch r.triggerToken := by
  rw [← htoken]
  exact changeToken_beginChangeEpoch _

variable (hzero : r.triggerToken ≠ 0)
include hzero

theorem begun_mark (hwrap : r.triggerToken + 1 ≠ 0) :
    r.begun.state.changeToken ≠ r.triggerToken ∧
      ∀ q, r.begun.state.mark q = r.triggerToken ↔ r.inst.value.state.MarkedNow q := by
  refine ⟨fun h => ?_, fun q => ?_⟩
  · rw [begun_token htoken, nextEpoch, if_neg hwrap] at h
    have hone : (1 : UInt32) = 0 := by
      rw [← add_right_inj r.triggerToken, h, add_zero]
    exact absurd hone (by decide)
  · have hmark : r.begun.state.mark q = r.inst.value.state.mark q :=
      (@mark_beginChangeEpoch r.inst.value.state (by rw [htoken]; exact hwrap) q).1
    rw [hmark, ← htoken]
    refine ⟨fun hq => ⟨?_, hq⟩, And.right⟩
    by_contra hlen
    rw [mark, getD_eq_default _ _ (Nat.le_of_not_lt hlen), htoken] at hq
    exact hzero hq.symm

/-- After a wrap no signal has the trigger mark at the turn of a block. -/
theorem mark_atTurn_of_wrap (hwrap : r.triggerToken + 1 = 0) (q : Nat) :
    (r.atTurn resolve tick j).mark q ≠ r.triggerToken := by
  intro hmark
  obtain ⟨hbegun, hone⟩ := @mark_beginChangeEpoch_of_wrap r.inst.value.state (by rw [htoken]; exact hwrap) q
  rcases (@tracked_atTurn resolve tick r j q).cases with huntouched | ⟨hmarked, -⟩
  · rw [huntouched.mark] at hmark
    exact hzero (hmark.symm.trans hbegun)
  · rw [hmarked.2, (tracked_atTurn j q).token] at hmark
    have htrigger : r.triggerToken = 1 := hmark.symm.trans hone
    rw [htrigger] at hwrap
    cases hwrap

/-- Without a wrap the signals with the trigger mark at the turn of a block are those that had
it and have not changed since. -/
theorem mark_atTurn (hwrap : r.triggerToken + 1 ≠ 0) (q : Nat) :
    (r.atTurn resolve tick j).mark q = r.triggerToken ↔
      r.inst.value.state.MarkedNow q ∧ ¬ r.ChangesBefore resolve tick j q := by
  obtain ⟨hne, hbegun⟩ := begun_mark htoken hzero hwrap
  have htracked : Tracked q r.begun.state (r.atTurn resolve tick j) := tracked_atTurn j q
  rcases htracked.cases with huntouched | ⟨hmarked, hlisted⟩
  · rw [huntouched.mark, hbegun]
    refine (and_iff_left ?_).symm
    rintro (hget | hmem)
    · exact hget huntouched.get
    · exact absurd (huntouched.listed.mp hmem) not_mem_nil
  · rw [hmarked.2, htracked.token]
    refine ⟨fun h => absurd h hne, fun ⟨hq, hbefore⟩ => absurd (.inr (hlisted ?_)) hbefore⟩
    rw [(hbegun q).mpr hq]
    exact hne.symm

theorem executes_iff (hac : r.inst.value.mod.alwaysCombs[j]? = some ac) (hstar : ac.isStar = false) :
    r.executes resolve tick j = true ↔ r.Sees resolve tick ac j := by
  rw [Round.executes, mod_localStart, hac, Option.any_some, AlwaysComb.triggered, hstar, if_neg Bool.false_ne_true,
    any_eq_true, Round.Sees]
  constructor
  · rintro ⟨q, hq, hmark⟩
    have hturn := of_decide_eq_true (Bool.and_eq_true_iff.mp hmark).2
    rw [← mark] at hturn
    have hwrap : r.triggerToken + 1 ≠ 0 := fun hwrap => mark_atTurn_of_wrap htoken hzero hwrap q hturn
    exact ⟨hwrap, q, hq, (mark_atTurn htoken hzero hwrap q).mp hturn⟩
  · rintro ⟨hwrap, q, hq, hmarked⟩
    have hturn := (mark_atTurn htoken hzero hwrap q).mpr hmarked
    have hroom : q < (r.atTurn resolve tick j).changeMark.length := by
      have hlen := (@mark_beginChangeEpoch r.inst.value.state (by rw [htoken]; exact hwrap) q).2
      exact lt_of_lt_of_le hmarked.1.1 (hlen.trans (tracked_atTurn j q).room)
    rw [mark] at hturn
    exact ⟨q, hq, Bool.and_eq_true_iff.mpr ⟨decide_eq_true hroom, decide_eq_true hturn⟩⟩

end

/-- A change in a round leaves the mark of the round. -/
theorem marked_of_changes (hchange : r.Changes resolve tick s) :
    ¬ Untouched s r.begun.state (r.pass resolve tick).1.value.state ∧
      (r.pass resolve tick).1.value.state.MarkedNow s := by
  have htouched : ¬ Untouched s r.begun.state (r.pass resolve tick).1.value.state := by
    intro hq
    rcases hchange with hget | hlisted
    · exact hget hq.get
    · exact absurd (hq.listed.mp hlisted) not_mem_nil
  exact ⟨htouched, ((tracked_pass s).cases.resolve_left htouched).1⟩

variable (hres : ∀ c, SameStatic c.value (resolve c).1.value)

include hres

/-- The loop hears of every change that is not driven past the net resolution. -/
theorem reports_of_changes (hdirect : ¬ DirectlyDriven r.inst.value r.inst.children s)
    (hchange : r.Changes resolve tick s) : (r.pass resolve tick).2 = true := by
  by_contra hpass
  refine (marked_of_changes hchange).1 ?_
  have hroot : (settleRoot tick r.triggerToken r.anyTriggered (prepareNetDrives r.begun)
      (settledKids resolve r.begun r.inst.children)).2 = false := by
    have hnot := Bool.eq_false_iff.mpr hpass
    rw [Round.pass, settlePass] at hnot
    have hleft := (Bool.or_eq_false_iff.mp hnot).1
    rw [List.map_map] at hleft
    exact hleft
  have hdirect' : ¬ DirectlyDriven (prepareNetDrives r.begun) (settledKids resolve r.begun r.inst.children) s := by
    have hsame := (static_begun r).trans (static_prepareNetDrives r.begun)
    rw [DirectlyDriven, resolved_congr hsame, hsame.mod, driveTargets_settledKids hres]
    exact hdirect
  rw [pass_fst]
  exact (untouched_prepareNetDrives _).trans (untouched_settleRoot_of_not_changed hdirect' hroot)

/-- A marked signal that nothing touches before the turn of the block is seen by it. -/
theorem sees_of_undisturbed (htoken : r.inst.value.state.changeToken = r.triggerToken) (hzero : r.triggerToken ≠ 0)
    (hmarked : r.inst.value.state.MarkedNow s) (h : r.Undisturbed ac j s) : r.Sees resolve tick ac j := by
  obtain ⟨hwrap, hlist, hdirect, hearlier⟩ := h
  refine ⟨hwrap, s, hlist, hmarked, ?_⟩
  obtain ⟨hne, hbegun⟩ := begun_mark htoken hzero hwrap
  have hstart : Untouched s r.begun.state (r.localStart resolve).state := by
    refine (untouched_prepareNetDrives _).trans (untouched_propagateKids fun hmem => ?_)
    rw [driveTargets_settledKids hres] at hmem
    rw [resolved_congr ((static_begun r).trans (static_prepareNetDrives r.begun))]
    by_contra hr
    exact hdirect ⟨Bool.eq_false_iff.mpr hr, .inr hmem⟩
  have hturn : Untouched s r.begun.state (r.atTurn resolve tick j) := by
    refine hstart.trans (untouched_runAlwaysCombs hne (fun ac hac => ?_) _ tracked_localStart)
    rw [mod_localStart] at hac
    refine (hearlier ac hac).imp_right fun ⟨hstar, hmarks⟩ => ⟨hstar, fun q hq hmark => ?_⟩
    exact hmarks q hq ((hbegun q).mp hmark)
  rintro (hget | hmem)
  · exact hget hturn.get
  · exact absurd (hturn.listed.mp hmem) not_mem_nil

/-- The rounds keep the design, and their trigger epochs follow the counter. -/
theorem round_of_settleRounds {iters k : Nat} {r' : Round} (htoken : r.inst.value.state.changeToken = r.triggerToken)
    (hr' : (settleRounds resolve tick iters r)[k]? = some r') :
    r'.inst.value.state.changeToken = r'.triggerToken ∧ r'.triggerToken = nextEpoch^[k] r.triggerToken ∧
      SameStatic r.inst.value r'.inst.value ∧
      (∀ s, DirectlyDriven r'.inst.value r'.inst.children s ↔ DirectlyDriven r.inst.value r.inst.children s) ∧
      (k + 1 < iters → (settleRounds resolve tick iters r)[k + 1]? =
        if (r'.pass resolve tick).2 then some (r'.next resolve tick) else none) := by
  induction k generalizing iters r with
  | zero =>
    cases iters with
    | zero => cases hr'
    | succ iters =>
      rw [settleRounds, getElem?_cons_zero, Option.some.injEq] at hr'
      subst hr'
      refine ⟨htoken, rfl, .refl _, fun _ => Iff.rfl, fun hk => ?_⟩
      obtain ⟨iters, rfl⟩ : ∃ i, iters = i + 1 := ⟨iters - 1, by omega⟩
      rw [settleRounds, getElem?_cons_succ]
      split
      · rfl
      · rfl
  | succ k ih =>
    cases iters with
    | zero => cases hr'
    | succ iters =>
      rw [settleRounds, getElem?_cons_succ] at hr' ⊢
      by_cases hpass : (r.pass resolve tick).2 = true
      · rw [if_pos hpass] at hr' ⊢
        obtain ⟨htok, htrigger, hsame, hdirect, hnext⟩ := ih (r := r.next resolve tick) (tracked_pass 0).token hr'
        refine ⟨htok, ?_, (static_pass r).trans hsame, fun s => (hdirect s).trans (directlyDriven_pass hres r s),
          fun hk => hnext (by omega)⟩
        rw [htrigger, Function.iterate_succ_apply]
        exact congrArg _ (begun_token htoken)
      · rw [if_neg hpass, getElem?_nil] at hr'
        exact absurd hr' (by simp)

end Missed

def ModuleState.lastResolved (st : ModuleState) : List LogicT :=
  if st.combPrevValues.length ≠ st.values.length then st.prevValues else st.combPrevValues

theorem changeToken_beginCombResolve (st : ModuleState) :
    (beginCombResolve st).1.changeToken = nextEpoch st.changeToken := by
  rw [beginCombResolve]
  dsimp only
  rw [changeToken_beginChangeEpoch]
  split_ifs <;> rfl

theorem marked_beginCombResolve {s : Nat} (hs : s < st.values.length) (hlen : s < st.lastResolved.length)
    (hne : st.get s ≠ st.lastResolved.getD s .X) : (beginCombResolve st).1.MarkedNow s := by
  obtain ⟨st₁, hst₁, hvalues, hprev⟩ : ∃ st₁ : ModuleState, (if st.combPrevValues.length ≠ st.values.length then
      { st with combPrevValues := st.prevValues } else st) = st₁ ∧ st₁.values = st.values ∧
      st₁.combPrevValues = st.lastResolved := by
    refine ⟨_, rfl, ?_, ?_⟩
    · split_ifs <;> rfl
    · rw [lastResolved]
      split_ifs <;> rfl
  rw [beginCombResolve, hst₁]
  dsimp only
  have hroom : s < ({ st₁ with changeMark := grow st₁.changeMark st₁.values.length 0 } :
    ModuleState).beginChangeEpoch.changeMark.length := by
    rw [beginChangeEpoch]
    exact lt_of_lt_of_le (by rw [hvalues]; exact hs) (length_grow _ _ _)
  have hget : st₁.get s = st.get s := by rw [ModuleState.get, ModuleState.get, hvalues]
  have hdiffers : s < st₁.values.length ∧ s < st₁.combPrevValues.length ∧ st₁.get s ≠ st₁.combPrevValues.getD s .X := by
    rw [hget, hvalues, hprev]
    exact ⟨hs, hlen, hne⟩
  refine ⟨?_, ?_⟩
  · rw [length_map, length_zipIdx]
    exact hroom
  · rw [mark, getD_eq_getElem?_getD, getElem?_map, getElem?_zipIdx, getElem?_eq_getElem hroom]
    simp only [Option.map_some, Option.getD_some, Nat.zero_add]
    exact if_pos hdiffers

theorem nextEpoch_ne (token : UInt32) : nextEpoch token ≠ 0 := by
  rw [nextEpoch]
  split
  · decide
  · assumption

theorem scalar_listed : false = false → [1].length = 1 ∧ [0].length = 1 := by decide

theorem operandsFirst_listed : ∀ p ∈ [ExprNode.signal 0].zipIdx, ∀ c ∈ p.1.children, c < p.2 := by decide

def listedModule : CompiledModule where
  signalNames := ["a", "q"]
  signalIsReg := [false, true]
  exprNodes := [.signal 0]
  alwaysCombs := [{ isStar := false, sensSignals := [0]
                    roots := [.assign { nonblocking := false, lhs := [1], rhs := [0], scalar := scalar_listed }] }]
  operands_first := operandsFirst_listed

def listedTree (token : UInt32) : InstanceState :=
  .node { mod := listedModule
          state := { values := [.H, .L], combPrevValues := [.L, .L], combInitialized := true, changeToken := token } }
            []

def directModule : CompiledModule where
  signalNames := ["a", "r", "q"]
  signalIsReg := [false, true, true]
  exprNodes := [.signal 0, .signal 1]
  assigns := [{ lhsSignal := 1, exprRoot := 0 }]
  alwaysCombs := [{ isStar := false, sensSignals := [1], roots :=
    [.assign { nonblocking := false, lhs := [2], rhs := [1] }] }]

def directTree : InstanceState :=
  .node { mod := directModule
          state := { values := [.H, .L, .L], combPrevValues := [.L, .L, .L], combInitialized := true } } []

theorem scalar_relay : false = false → [2].length = 1 ∧ [1].length = 1 := by decide

/-- `always @(b) s = b;` before `always @(s) q = s;`. -/
def relayModule : CompiledModule where
  signalNames := ["b", "s", "q"]
  signalIsReg := [false, true, true]
  exprNodes := [.signal 0, .signal 1]
  alwaysCombs := [{ isStar := false, sensSignals := [0]
                    roots := [.assign { nonblocking := false, lhs := [1], rhs := [0], scalar := scalar_listed }] },
                  { isStar := false, sensSignals := [1]
                    roots := [.assign { nonblocking := false, lhs := [2], rhs := [1], scalar := scalar_relay }] }]

def relayTree : InstanceState :=
  .node { mod := relayModule
          state := { values := [.H, .L, .L], combPrevValues := [.L, .L, .L], combInitialized := true } } []

end PhyEngine.Verilog
