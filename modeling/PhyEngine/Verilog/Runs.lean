import PhyEngine.Verilog.Steady

/-!
# Invariants of runs

What holds in every state that a run of an elaborated design reaches: the nets marked as
driven have a driver, and everything scheduled writes a signal that the module writes. A
run changes neither the modules nor the connections of the instances.
-/

namespace PhyEngine.Verilog

open ModuleState List RoseTree

/-- The signals that something inside an instance may write. -/
def AnyTarget (n : InstanceNode) (cs : List InstanceState) (s : Nat) : Prop :=
  s ∈ n.mod.ffTargets ∨ s ∈ n.mod.initialTargets ∨ s ∈ n.mod.urandomTargets ∨ SettleTarget n cs s

instance (n : InstanceNode) (cs : List InstanceState) (s : Nat) : Decidable (AnyTarget n cs s) :=
  inferInstanceAs (Decidable (_ ∨ _ ∨ _ ∨ _ ∨ _ ∨ _))

variable {s : Nat} {n n' : InstanceNode} {cs cs' : List InstanceState} {c t t' : InstanceState} {K : SignalSets}
  {pm : CompiledModule}

theorem mem_targets_of_delayed {ss : List Stmt} (h : s ∈ Stmt.delayed ss) :
    s ∈ Stmt.targets ss := by
  obtain ⟨a, ha, hs⟩ := mem_flatMap.mp h
  exact mem_flatMap.mpr ⟨a, mem_of_mem_filter ha, hs⟩

theorem anyTarget_of_scheduled (h : s ∈ n.mod.scheduledTargets) : AnyTarget n cs s := by
  simp only [CompiledModule.scheduledTargets, mem_append, mem_flatMap] at h
  rcases h with (h | ⟨ff, hff, hs⟩) | ⟨ac, hac, hs⟩
  · exact Or.inr (Or.inl h)
  · exact Or.inl (mem_flatMap.mpr ⟨ff, hff, mem_targets_of_delayed hs⟩)
  · exact Or.inr (Or.inr (Or.inr (Or.inl (mem_flatMap.mpr ⟨ac, hac, mem_targets_of_delayed hs⟩))))

inductive Tidy : InstanceState → Prop where
  | node {n : InstanceNode} {cs : List InstanceState}
      (driven : ∀ s, n.isDriven s = true → n.mod.isReg s = false → SettleWrites n cs s)
      (events : EventsIn (· ∈ n.mod.scheduledTargets) n.state)
      (children : ∀ (j : Nat) c, cs[j]? = some c → Tidy c) : Tidy (.node n cs)

abbrev SameDesign : InstanceState → InstanceState → Prop := RoseTree.Rel SameStatic

section

variable (h : SameDesign (.node n cs) (.node n' cs'))
include h

theorem SameDesign.driveTargets : driveTargets cs' = driveTargets cs := by
  obtain ⟨_, length, children⟩ := h
  exact driveTargets_congr length fun j c c' hc hc' => (children j c c' hc hc').value.outputDrives

theorem SameDesign.settleTarget :
    SettleTarget n' cs' = SettleTarget n cs := by
  have hmod : n'.mod = n.mod := h.value.mod
  funext s
  rw [SettleTarget, SettleTarget, h.driveTargets, hmod]

theorem SameDesign.settleWrites :
    SettleWrites n' cs' = SettleWrites n cs := by
  have hmod : n'.mod = n.mod := h.value.mod
  funext s
  rw [SettleWrites, SettleWrites, h.driveTargets, hmod]

theorem SameDesign.anyTarget : AnyTarget n' cs' = AnyTarget n cs := by
  have hmod : n'.mod = n.mod := h.value.mod
  funext s
  rw [AnyTarget, AnyTarget, h.settleTarget, hmod]

omit h in
theorem SameDesign.refl (t : InstanceState) : SameDesign t t := RoseTree.Rel.refl SameStatic.refl t

omit h in
theorem SameDesign.trans {a b : InstanceState} (h : SameDesign a b) (h' : SameDesign b c) :
    SameDesign a c := RoseTree.Rel.trans h h' fun _ _ _ => SameStatic.trans

omit h in
theorem SameStatic.symm (h : SameStatic n n') : SameStatic n' n :=
  ⟨h.mod.symm, h.bindings.symm, h.outputDrives.symm, fun s => (h.isDriven s).symm, h.length.symm⟩

omit h in
theorem SameDesign.symm (h : SameDesign t t') : SameDesign t' t :=
  RoseTree.Rel.symm h fun _ _ => SameStatic.symm

theorem SameDesign.exists_child {j : Nat} {c' : InstanceState}
    (hc' : cs'[j]? = some c') :
    ∃ c, cs[j]? = some c ∧ SameDesign c c' := RoseTree.Rel.exists_child h hc'

theorem SameDesign.root : SameStatic n n' := RoseTree.Rel.value h

end

theorem Kept.sameDesign (h : Kept K t t') : SameDesign t t' := by
  induction h with
  | node static prev empty events get length children ih => exact .node static length ih

/-- The instance when its sequential step starts: its parent has set its ports. -/
def entered (parent : Option (InstanceNode × List Nat)) (n : InstanceNode) : InstanceNode :=
  match parent with
  | none => n
  | some p => (propagateParentToChild p.1 n).1

theorem sequentialVisit_eq (tick : UInt64) (seq : Bool) (parent : Option (InstanceNode × List Nat))
    (n : InstanceNode) : sequentialVisit tick seq parent n = sequentialStep tick seq (entered parent n) := by
  cases parent <;> rfl

theorem static_entered (parent : Option (InstanceNode × List Nat)) (n : InstanceNode) :
    SameStatic n (entered parent n) := by
  cases parent with
  | none => exact SameStatic.refl n
  | some p => exact static_propagateParentToChild p.1 n

theorem sameBut_entered (parent : Option (InstanceNode × List Nat)) (n : InstanceNode) :
    SameBut n.state (entered parent n).state := by
  cases parent with
  | none => exact SameBut.refl _
  | some p => exact sameBut_propagateParentToChild p.1 n

theorem static_clearNba (n : InstanceNode) : SameStatic n (clearNba n) := ⟨rfl, rfl, rfl, fun _ => rfl, rfl⟩

theorem static_sequentialVisit (tick : UInt64) (seq : Bool) (parent : Option (InstanceNode × List Nat))
    (n : InstanceNode) : SameStatic n (sequentialVisit tick seq parent n).1 := by
  have hstep : NodeFrame (fun _ => True) (fun _ => True) (clearNba (entered parent n))
      (sequentialStep tick seq (entered parent n)).1 :=
    frame_sequentialStep (fun _ _ => trivial) (fun _ _ => trivial) (fun _ _ => trivial)
      (fun _ _ => trivial) (fun _ _ => trivial) (fun _ _ _ _ => trivial) seq
  rw [sequentialVisit_eq]
  exact (static_entered parent n).trans ((static_clearNba _).trans hstep.static)

variable {E T : Nat → Prop}

theorem frame_sequentialVisit (tick : UInt64) (seq : Bool)
    (parent : Option (InstanceNode × List Nat)) (hinit : ∀ s ∈ n.mod.initialTargets, T s)
    (hff : ∀ s ∈ n.mod.ffTargets, T s) (hrnd : ∀ s ∈ n.mod.urandomTargets, T s) (hE : ∀ s ∈ n.mod.scheduledTargets, E s)
    (hET : ∀ s, E s → T s) (hev : EventsIn E n.state) :
    NodeFrame T E (clearNba (entered parent n)) (sequentialVisit tick seq parent n).1 := by
  have hmod := (static_entered parent n).mod
  rw [sequentialVisit_eq]
  refine frame_sequentialStep (hmod ▸ hinit) (hmod ▸ hff) (hmod ▸ hrnd) (hmod ▸ hE) hET ?_ seq
  intro ev hmem
  rw [(sameBut_entered parent n).events] at hmem
  exact hev ev hmem

theorem not_queued_of_frame (h : NodeFrame T E (clearNba n) n') (hs : ¬ T s) : ¬ Queued n' s := by
  obtain ⟨ws, hws, hT⟩ := h.state.nba
  intro hmem
  rw [Queued, hws] at hmem
  obtain ⟨w, hw, rfl⟩ := mem_map.mp hmem
  exact hs (hT w (by simpa [clearNba] using hw))

def afterSequential (tick : UInt64) (seq : Bool) (parent : Option (InstanceNode × List Nat))
    (t : InstanceState) : InstanceState :=
  (t.topDown (sequentialVisit tick seq) parent).map Prod.fst

section

variable (tick : UInt64) (seq : Bool) (parent : Option (InstanceNode × List Nat))

include tick seq parent

theorem afterSequential_node (n : InstanceNode) (cs : List InstanceState) :
    afterSequential tick seq parent (.node n cs) =
      .node (sequentialVisit tick seq parent n).1
        (cs.map (afterSequential tick seq (some (sequentialVisit tick seq parent n)))) := by
  simp [afterSequential, Function.comp_def]

theorem value_afterSequential (t : InstanceState) :
    (afterSequential tick seq parent t).value = (sequentialVisit tick seq parent t.value).1 := by
  obtain ⟨n, cs⟩ := t
  rw [afterSequential_node]
  rfl

theorem height_afterSequential (t : InstanceState) : (afterSequential tick seq parent t).height = t.height := by
  rw [afterSequential, height_map, height_topDown]

theorem sameDesign_afterSequential (t : InstanceState) :
    SameDesign t (afterSequential tick seq parent t) := by
  have hvisit : RoseTree.Rel (fun n (r : InstanceNode × List Nat) => SameStatic n r.1) t
      (t.topDown (sequentialVisit tick seq) parent) :=
    RoseTree.Rel.topDown_right (static_sequentialVisit tick seq) t parent
  have hfst : RoseTree.Rel (fun (r : InstanceNode × List Nat) n => r.1 = n)
      (t.topDown (sequentialVisit tick seq) parent) (afterSequential tick seq parent t) :=
    RoseTree.Rel.map_right (f := Prod.fst) (fun _ => rfl) _
  exact RoseTree.Rel.trans hvisit hfst fun _ _ _ h he => he ▸ h

end

namespace Tidy

theorem steady (h : Tidy t) : Steady (fun _ _ => False) t := by
  induction h with
  | node driven events children ih =>
    exact .node (fun _ hs => hs.elim) driven (fun _ _ _ _ _ hs => hs.elim)
      (fun _ _ _ _ hs => hs.elim) ih

theorem of_kept (h : Tidy t) (hk : Kept K t t') : Tidy t' := by
  have hsame := hk.sameDesign
  induction hk with
  | @node K n n' cs cs' static prev empty events' get length hkids ih =>
    obtain ⟨driven, events, children⟩ := h
    refine .node ?_ ?_ ?_
    · intro s hd hr
      rw [hsame.settleWrites]
      exact driven s (static.isDriven s ▸ hd) (static.mod ▸ hr)
    · rw [static.mod]
      intro ev hev
      rcases events' ev hev with hev | ⟨ac, hac, a, ha, hdelay, due, rfl⟩
      · exact events ev hev
      · refine fun s hs => mem_append_right _
          (mem_flatMap.mpr ⟨ac, hac, mem_flatMap.mpr ⟨a, mem_filter.mpr ⟨ha, ?_⟩, targets_event hs⟩⟩)
        exact decide_eq_true hdelay
    · intro j c' hc'
      obtain ⟨c, hc, hcc⟩ := hsame.exists_child hc'
      exact ih j c c' hc hc' (children j c hc) hcc

theorem afterSequential (h : Tidy t) (tick : UInt64) (seq : Bool) (parent : Option (InstanceNode × List Nat)) :
    Tidy (afterSequential tick seq parent t) := by
  induction h generalizing parent with
  | @node n cs driven events children ih =>
    have hsame := sameDesign_afterSequential tick seq parent (.node n cs)
    have hframe : NodeFrame (AnyTarget n cs) (· ∈ n.mod.scheduledTargets)
        (clearNba (entered parent n)) (sequentialVisit tick seq parent n).1 :=
      frame_sequentialVisit tick seq parent (fun s hs => Or.inr (Or.inl hs)) (fun s hs => Or.inl hs)
        (fun s hs => Or.inr (Or.inr (Or.inl hs))) (fun s hs => hs) (fun s => anyTarget_of_scheduled) events
    rw [afterSequential_node] at hsame ⊢
    refine .node ?_ ?_ ?_
    · intro s hd hr
      rw [hsame.settleWrites]
      exact driven s (hsame.value.isDriven s ▸ hd) (hsame.value.mod ▸ hr)
    · rw [show (sequentialVisit tick seq parent n).1.mod = n.mod from hsame.root.mod]
      intro ev hev s hs
      rcases hframe.state.events ev hev with hev | hev
      · rw [show (clearNba (entered parent n)).state.events = n.state.events from
          (sameBut_entered parent n).events] at hev
        exact events ev hev s hs
      · exact hev s hs
    · intro j c' hc'
      rw [getElem?_map] at hc'
      obtain ⟨c, hc, rfl⟩ := Option.map_eq_some_iff.mp hc'
      exact ih j c hc _

end Tidy

theorem tidy_withValue (h : Tidy c) (hstatic : SameStatic c.value n) (hn : n.state.events = c.value.state.events) :
    Tidy (c.withValue n) := by
  obtain ⟨cn, ccs⟩ := c
  have hmod : n.mod = cn.mod := hstatic.mod
  obtain ⟨driven, events, children⟩ := h
  refine .node ?_ ?_ children
  · intro s hd hr
    rw [SettleWrites, hmod]
    exact driven s (hstatic.isDriven s ▸ hd) (hmod ▸ hr)
  · intro ev hev s hs
    rw [hmod]
    exact events ev (hn ▸ hev) s hs

theorem sameDesign_withValue (h : SameStatic c.value n) :
    SameDesign c (c.withValue n) := by
  obtain ⟨cn, ccs⟩ := c
  refine .node h rfl fun j d d' hd hd' => ?_
  cases hd.symm.trans hd'
  exact SameDesign.refl d

theorem simulate_eq (tick : UInt64) (seq : Bool) (t : InstanceState) :
    simulate tick seq t =
      updatePrevRecursive (combResolve tick t.height (afterSequential tick seq none t)).1 := rfl

theorem kept_settled (tick : UInt64) (seq : Bool) (h : Steady K (afterSequential tick seq none t)) :
    Kept K (afterSequential tick seq none t)
      (combResolve tick t.height (afterSequential tick seq none t)).1 :=
  kept_combResolve t.height (height_afterSequential tick seq none t).le h

theorem sameDesign_updatePrev (t : InstanceState) : SameDesign t (updatePrevRecursive t) :=
  RoseTree.Rel.map_right (fun _ => ⟨rfl, rfl, rfl, fun _ => rfl, rfl⟩) t

theorem tidy_updatePrev (h : Tidy t) : Tidy (updatePrevRecursive t) := by
  induction h with
  | @node n cs driven events children ih =>
    have hsame := sameDesign_updatePrev (.node n cs)
    simp only [updatePrevRecursive, map_node] at hsame ih ⊢
    refine .node ?_ ?_ ?_
    · rw [hsame.settleWrites]
      exact driven
    · exact events
    · intro j c' hc'
      rw [getElem?_map] at hc'
      obtain ⟨c, hc, rfl⟩ := Option.map_eq_some_iff.mp hc'
      exact ih j c hc

theorem sameDesign_simulate (tick : UInt64) (seq : Bool) (h : Tidy t) :
    SameDesign t (simulate tick seq t) :=
  (sameDesign_afterSequential tick seq none t).trans
    ((kept_settled tick seq (h.afterSequential tick seq none).steady).sameDesign.trans
      (sameDesign_updatePrev _))

theorem tidy_simulate (tick : UInt64) (seq : Bool) (h : Tidy t) :
    Tidy (simulate tick seq t) := by
  have hseq := h.afterSequential tick seq none
  exact tidy_updatePrev (hseq.of_kept (kept_settled tick seq hseq.steady))

variable (pins : List (Option LogicT))

theorem static_sampleInputs (t : InstanceState) :
    SameStatic t.value (sampleInputs pins t).value :=
  ⟨rfl, rfl, rfl, fun _ => rfl, length_foldl_set _ _⟩

theorem sameDesign_sampleInputs (t : InstanceState) :
    SameDesign t (sampleInputs pins t) := by
  obtain ⟨n, cs⟩ := t
  refine .node (static_sampleInputs pins (.node n cs)) rfl fun j c d hc hd => ?_
  cases hc.symm.trans hd
  exact SameDesign.refl c

theorem tidy_sampleInputs (h : Tidy t) :
    Tidy (sampleInputs pins t) := by
  obtain ⟨driven, events, children⟩ := h
  exact .node driven events children

theorem sameDesign_run (c : Call) (h : Tidy t) : SameDesign t (c.run t) :=
  (sameDesign_sampleInputs c.pins t).trans (sameDesign_simulate _ _ (tidy_sampleInputs c.pins h))

theorem tidy_run (c : Call) (h : Tidy t) : Tidy (c.run t) :=
  tidy_simulate _ _ (tidy_sampleInputs c.pins h)

theorem runCalls_tidy (calls : List Call) (h : Tidy t) :
    Tidy (runCalls calls t) ∧ SameDesign t (runCalls calls t) := by
  induction calls generalizing t with
  | nil => exact ⟨h, SameDesign.refl t⟩
  | cons c calls ih =>
    obtain ⟨htidy, hsame⟩ := ih (tidy_run c h)
    exact ⟨htidy, (sameDesign_run c h).trans hsame⟩

theorem mem_assignTargets_of_driven {m : CompiledModule} (h : (initDrivenNetsFromAssigns m).getD s false = true) :
    s ∈ m.assignTargets := by
  by_cases hs : s < m.signalNames.length
  · rw [getD_eq_getElem _ _ (by simpa [initDrivenNetsFromAssigns] using hs)] at h
    simp only [initDrivenNetsFromAssigns, getElem_map, getElem_range, Bool.and_eq_true,
      any_eq_true, decide_eq_true_eq] at h
    obtain ⟨-, a, ha, rfl⟩ := h
    exact mem_map_of_mem ha
  · rw [getD_eq_default _ _ (by simpa [initDrivenNetsFromAssigns] using hs)] at h
    cases h

variable {driven : List Bool}

theorem driven_of_markDriven {child : InstanceNode}
    (h : (markDriven pm driven child).getD s false = true) :
    driven.getD s false = true ∨ s ∈ child.outputDrives.map (·.parentSignal) := by
  unfold markDriven at h
  generalize child.outputDrives = ds at h ⊢
  induction ds generalizing driven with
  | nil => exact Or.inl h
  | cons d ds ih =>
    rw [foldl_cons] at h
    rcases ih h with h | h
    · split at h
      · exact Or.inl h
      · by_cases hs : d.parentSignal = s
        · exact Or.inr (by simp [hs])
        · rw [getD_eq_getElem?_getD, getElem?_set_ne hs, ← getD_eq_getElem?_getD] at h
          exact Or.inl h
    · exact Or.inr (by simp [h])

theorem driven_of_markDrivens {kids : List InstanceNode}
    (h : (kids.foldl (markDriven pm) driven).getD s false = true) :
    driven.getD s false = true ∨ s ∈ kids.flatMap fun k => k.outputDrives.map (·.parentSignal) := by
  induction kids generalizing driven with
  | nil => exact Or.inl h
  | cons k kids ih =>
    rcases ih h with h | h
    · exact (driven_of_markDriven h).imp_right fun h => by
        rw [flatMap_cons]
        exact mem_append_left _ h
    · right
      rw [flatMap_cons]
      exact mem_append_right _ h

variable (d : CompiledDesign)

variable (levels : Nat)

theorem value_elaborateChildren (n : InstanceNode) :
    ∃ driven, (elaborateChildren d levels n).value = { n with drivenNets := driven } := by
  cases levels with
  | zero => exact ⟨n.drivenNets, rfl⟩
  | succ levels => exact ⟨_, rfl⟩

theorem driveTargets_elaborateChildren (kids : List InstanceNode) :
    driveTargets (kids.map (elaborateChildren d levels)) =
      kids.flatMap fun k => k.outputDrives.map (·.parentSignal) := by
  rw [driveTargets, flatMap_map]
  congr 1
  funext k
  obtain ⟨driven, hk⟩ := value_elaborateChildren d levels k
  rw [hk]

/-- What elaboration makes of one instance: no events, no pending changes, and driven nets
from the assignments. -/
structure NewNode (n : InstanceNode) : Prop where
  events : n.state.events = []
  prevValues : n.state.prevValues = n.state.values
  driven : n.drivenNets = initDrivenNetsFromAssigns n.mod

theorem newNode_makeChild (pm cm : CompiledModule) (idef : InstanceDef) : NewNode (makeChild pm cm idef) := by
  have hfold (params : List (String × UInt64)) (st : ModuleState)
      (h : st.events = [] ∧ st.prevValues = st.values) :
      (params.foldl (applyParamValue cm) st).events = [] ∧
        (params.foldl (applyParamValue cm) st).prevValues =
          (params.foldl (applyParamValue cm) st).values := by
    induction params generalizing st with
    | nil => exact h
    | cons p params ih =>
      refine ih _ ?_
      unfold applyParamValue
      split
      · exact h
      split
      · exact h
      · exact ⟨h.1, by simp [h.2]⟩
  obtain ⟨hev, hprev⟩ := hfold (paramOverrides cm idef) (initState cm) ⟨rfl, rfl⟩
  exact ⟨hev, hprev, rfl⟩

theorem newNode_of_mem {d : CompiledDesign} {k : InstanceNode}
    (h : k ∈ pm.instances.filterMap fun idef => (d.findModule idef.moduleName).map fun cm => makeChild pm cm idef) :
    NewNode k := by
  obtain ⟨idef, -, hk⟩ := mem_filterMap.mp h
  obtain ⟨cm, -, rfl⟩ := Option.map_eq_some_iff.mp hk
  exact newNode_makeChild pm cm idef

theorem tidy_elaborateChildren (h : NewNode n) :
    Tidy (elaborateChildren d levels n) := by
  induction levels generalizing n with
  | zero =>
    refine .node ?_ (fun ev hev => by simp [h.events] at hev) fun _ _ hc => by simp at hc
    intro s hd _
    rw [InstanceNode.isDriven, h.driven] at hd
    exact Or.inr (Or.inl (mem_assignTargets_of_driven hd))
  | succ levels ih =>
    rw [elaborateChildren]
    refine .node ?_ (fun ev hev => by simp [h.events] at hev) ?_
    · intro s hd _
      rcases driven_of_markDrivens hd with hd | hd
      · rw [h.driven] at hd
        exact Or.inr (Or.inl (mem_assignTargets_of_driven hd))
      · rw [← driveTargets_elaborateChildren d levels] at hd
        exact Or.inr (Or.inr hd)
    · intro j c hc
      rw [getElem?_map] at hc
      obtain ⟨k, hk, rfl⟩ := Option.map_eq_some_iff.mp hc
      exact ih (newNode_of_mem (List.mem_of_getElem? hk))

theorem newNode_top (top : CompiledModule) : NewNode
    { mod := top, instanceName := top.name, state := initState top
      drivenNets := initDrivenNetsFromAssigns top } := ⟨rfl, rfl, rfl⟩

theorem tidy_elaborate (top : CompiledModule) : Tidy (elaborate d top) :=
  tidy_elaborateChildren d 65 (newNode_top top)

/-- Before the first call and after each call the previous values are the current ones. -/
def PrevCurrent (t : InstanceState) : Prop :=
  ∀ p n, t.get? p = some n → n.state.prevValues = n.state.values

theorem state_elaborateChildren (h : NewNode n) {p : List Nat}
    (hp : (elaborateChildren d levels n).get? p = some n') :
    n'.state.events = [] ∧ n'.state.prevValues = n'.state.values := by
  induction levels generalizing n p with
  | zero =>
    cases p with
    | nil =>
      cases hp
      exact ⟨h.events, h.prevValues⟩
    | cons j p => simp [elaborateChildren, get?] at hp
  | succ levels ih =>
    cases p with
    | nil =>
      cases hp
      exact ⟨h.events, h.prevValues⟩
    | cons j p =>
      obtain ⟨c, hc, hp⟩ := Option.bind_eq_some_iff.mp hp
      simp only [elaborateChildren, children_node, getElem?_map] at hc
      obtain ⟨k, hk, rfl⟩ := Option.map_eq_some_iff.mp hc
      exact ih (newNode_of_mem (List.mem_of_getElem? hk)) hp

theorem prevCurrent_updatePrev (t : InstanceState) : PrevCurrent (updatePrevRecursive t) := by
  intro p n hp
  rw [updatePrevRecursive, get?_map] at hp
  obtain ⟨m, -, rfl⟩ := Option.map_eq_some_iff.mp hp
  rfl

end PhyEngine.Verilog
