import PhyEngine.Verilog.Settle

/-!
# Acyclic designs settle in one call

The settle loops of all instances of a design with at most 64 levels reach the values that
the equations of the design determine, from every state that a run reaches. With a level
more the loop ends before the last net has its value.
-/

namespace PhyEngine.Verilog

open ModuleState InstanceNode List RoseTree

variable {t : InstanceState} {n : InstanceNode} {N s : Nat}

theorem Settled.withValue (h : Settled t) (hmod : n.mod = t.value.mod)
    (hvalues : n.state.values = t.value.state.values) :
    Settled (t.withValue n) := by
  obtain ⟨n₀, cs⟩ := t
  have hmod : n.mod = n₀.mod := hmod
  have hget (s : Nat) : n.get s = n₀.get s := by
    rw [InstanceNode.get, InstanceNode.get, ModuleState.get, ModuleState.get, hvalues]
    rfl
  obtain ⟨assigns, inputs, outputs, children⟩ := h
  refine .node ?_ ?_ ?_ children
  · intro a ha
    rw [hget, hmod, hvalues]
    exact assigns a (hmod ▸ ha)
  · intro j c hc b hb
    rw [inputs j c hc b hb]
    exact (bindingValue_congr hmod fun r _ => hget r).symm
  · intro j c hc d hd
    rw [hget]
    exact outputs j c hc d hd

theorem loopState_begin {level : Nat → Nat} {cs : List InstanceState} (h : LoopState N level n cs) :
    LoopState N level { n with state := (beginCombResolve n.state).1 } cs := by
  have hframe := quiet_beginCombResolve n.state
  have hstatic := (NodeFrame.ofState hframe).static
  have hsame : SameDesign (.node n cs) (.node { n with state := (beginCombResolve n.state).1 } cs) :=
    sameDesign_withValue hstatic
  have hnba : (beginCombResolve n.state).1.nbaQueue = n.state.nbaQueue := by
    obtain ⟨ws, hws, hT⟩ := hframe.nba
    rw [hws, eq_nil_iff_forall_not_mem.mpr hT, append_nil]
  exact ⟨h.root.of_sameDesign hsame, h.wired,
    tidy_withValue h.tidy hstatic (events_beginCombResolve n.state), idle_withValue h.idle hnba⟩

theorem settled_combResolve (tick : UInt64) (height : Nat) (hheight : t.height ≤ height) (hw : Wired maxIter t)
    (ht : Tidy t) (hi : Idle t) :
    Settled (combResolve tick height t).1 := by
  induction height generalizing t with
  | zero =>
    obtain ⟨n, cs⟩ := t
    simp [RoseTree.height] at hheight
  | succ height ih =>
    obtain ⟨n, cs⟩ := t
    have hres : Resolves maxIter (combResolve tick height)
        (node { n with state := (beginCombResolve n.state).1 } cs).height := by
      simp only [RoseTree.height] at hheight ⊢
      refine ⟨fun K c hc hs => ?_, fun c hc => ?_⟩
      · exact kept_combResolve height (by omega) hs
      · exact ih (by omega)
    obtain ⟨level, root, wired⟩ := hw
    have hloop := loopState_begin ⟨root, wired, ht, hi⟩
    have hsettled := settled_settleLoop 63 (k := 0) rfl tick
      (beginCombResolve n.state).1.changeToken (beginCombResolve n.state).2 hres hloop hloop.stable_zero
    exact hsettled.withValue rfl rfl

theorem frame_combinationalVisit (noFf : n.mod.alwaysFfs = []) (noComb : n.mod.alwaysCombs = [])
    (noInitial : n.mod.initials = []) (noRandom : n.mod.urandomBits = none)
    (hev : EventsIn (· ∈ n.mod.scheduledTargets) n.state) (tick : UInt64) (seq : Bool)
    (parent : Option (InstanceNode × List Nat)) :
    NodeFrame (fun _ => False) (fun _ => False) (clearNba (entered parent n))
      (sequentialVisit tick seq parent n).1 := by
  have hsched : n.mod.scheduledTargets = [] := by
    simp [CompiledModule.scheduledTargets, CompiledModule.initialTargets, noFf, noComb, noInitial]
  rw [hsched] at hev
  refine frame_sequentialVisit tick seq parent ?_ ?_ ?_ ?_ (fun _ hs => hs) ?_
  · simp [CompiledModule.initialTargets, noInitial]
  · simp [CompiledModule.ffTargets, noFf]
  · simp [CompiledModule.urandomTargets, noRandom]
  · simp [hsched]
  · exact hev.mono fun s hs => not_mem_nil hs

theorem Combinational.idle_afterSequential {t₀ : InstanceState} (h : Combinational t₀) (hsame : SameDesign t₀ t)
    (ht : Tidy t) (tick : UInt64) (seq : Bool) (parent : Option (InstanceNode × List Nat)) :
    Idle (afterSequential tick seq parent t) := by
  induction h generalizing t parent with
  | @node n₀ cs₀ noFf noComb noInitial noRandom single wires ports sources children ih =>
    obtain ⟨n, cs⟩ := t
    have hmod : n.mod = n₀.mod := hsame.root.mod
    obtain ⟨driven, events, kids⟩ := ht
    have hframe := frame_combinationalVisit (hmod ▸ noFf) (hmod ▸ noComb) (hmod ▸ noInitial)
      (hmod ▸ noRandom) events tick seq parent
    obtain ⟨ws, hws, hT⟩ := hframe.state.nba
    rw [afterSequential_node]
    refine .node ?_ ?_
    · rw [hws, eq_nil_iff_forall_not_mem.mpr hT]
      rfl
    · intro j c' hc'
      rw [getElem?_map] at hc'
      obtain ⟨c, hc, rfl⟩ := Option.map_eq_some_iff.mp hc'
      obtain ⟨c₀, hc₀, hcc⟩ := hsame.exists_child hc
      exact ih j c₀ hc₀ hcc (kids j c hc) _

inductive Marked : InstanceState → Prop where
  | node {n : InstanceNode} {cs : List InstanceState}
      (marked : ∀ s ∈ driveTargets cs ++ n.mod.assignTargets, s < n.state.values.length →
        n.mod.isReg s = false → n.isDriven s = true)
      (children : ∀ (j : Nat) c, cs[j]? = some c → Marked c) : Marked (.node n cs)

theorem initDriven_of_assign {m : CompiledModule} (hs : s ∈ m.assignTargets) (hlt : s < m.signalNames.length)
    (hreg : m.isReg s = false) :
    (initDrivenNetsFromAssigns m).getD s false = true := by
  obtain ⟨a, ha, rfl⟩ := mem_map.mp hs
  rw [getD_eq_getElem _ _ (by simpa [initDrivenNetsFromAssigns] using hlt)]
  simp only [initDrivenNetsFromAssigns, getElem_map, getElem_range, hreg, Bool.not_false,
    Bool.true_and, any_eq_true, decide_eq_true_eq]
  exact ⟨a, ha, rfl⟩

theorem getD_set_true {driven : List Bool} {q : Nat} (h : driven.getD s false = true) :
    (driven.set q true).getD s false = true := by
  rw [getD_eq_getElem?_getD, getElem?_set]
  rw [getD_eq_getElem?_getD] at h
  by_cases hq : q = s
  · subst hq
    have hlt : q < driven.length := by
      by_contra hge
      simp [getElem?_eq_none (Nat.le_of_not_lt hge)] at h
    simp [hlt]
  · simpa [hq] using h

theorem markDriven_spec (pm : CompiledModule) (driven : List Bool) (child : InstanceNode) :
    (markDriven pm driven child).length = driven.length ∧
      (∀ s, driven.getD s false = true → (markDriven pm driven child).getD s false = true) ∧
      ∀ d ∈ child.outputDrives, d.parentSignal < driven.length → pm.isReg d.parentSignal = false →
        (markDriven pm driven child).getD d.parentSignal false = true := by
  unfold markDriven
  generalize child.outputDrives = ds
  induction ds generalizing driven with
  | nil => exact ⟨rfl, fun _ h => h, fun _ hd => by cases hd⟩
  | cons d ds ih =>
    rw [foldl_cons]
    generalize hstep : (if pm.isReg d.parentSignal then driven else driven.set d.parentSignal true) = step
    have hlen : step.length = driven.length := by
      rw [← hstep]
      split
      · rfl
      · exact length_set
    have hkeep : ∀ s, driven.getD s false = true → step.getD s false = true := by
      intro s h
      rw [← hstep]
      split
      · exact h
      · exact getD_set_true h
    obtain ⟨hl, hk, hm⟩ := ih step
    refine ⟨hl.trans hlen, fun s h => hk s (hkeep s h), ?_⟩
    intro d' hd' hlt hreg
    rcases mem_cons.mp hd' with rfl | hd'
    · refine hk _ ?_
      rw [← hstep, if_neg (by simp [hreg]), getD_eq_getElem _ _ (by simpa using hlt)]
      exact getElem_set_self _
    · exact hm d' hd' (hlen ▸ hlt) hreg

theorem markDrivens_spec (pm : CompiledModule) (kids : List InstanceNode) (driven : List Bool) :
    (∀ s, driven.getD s false = true → (kids.foldl (markDriven pm) driven).getD s false = true) ∧
      ∀ s ∈ kids.flatMap (fun k => k.outputDrives.map (·.parentSignal)), s < driven.length →
        pm.isReg s = false → (kids.foldl (markDriven pm) driven).getD s false = true := by
  induction kids generalizing driven with
  | nil => exact ⟨fun _ h => h, fun _ hs => by cases hs⟩
  | cons k kids ih =>
    obtain ⟨hlen, hkeep, hmark⟩ := markDriven_spec pm driven k
    obtain ⟨hkeep', hmark'⟩ := ih (markDriven pm driven k)
    refine ⟨fun s h => hkeep' s (hkeep s h), ?_⟩
    intro s hs hlt hreg
    rw [flatMap_cons] at hs
    rcases mem_append.mp hs with hs | hs
    · obtain ⟨d, hd, rfl⟩ := mem_map.mp hs
      exact hkeep' _ (hmark d hd hlt hreg)
    · exact hmark' s hs (hlen ▸ hlt) hreg

theorem length_makeChild (pm cm : CompiledModule) (idef : InstanceDef) :
    (makeChild pm cm idef).state.values.length = (makeChild pm cm idef).mod.signalNames.length := by
  have hstep (st : ModuleState) (param : String × UInt64) :
      (applyParamValue cm st param).values.length = st.values.length := by
    unfold applyParamValue
    split
    · rfl
    split
    · rfl
    · exact length_foldl_set _ _
  have hfold (params : List (String × UInt64)) (st : ModuleState) :
      (params.foldl (applyParamValue cm) st).values.length = st.values.length := by
    induction params generalizing st with
    | nil => rfl
    | cons p params ih => rw [foldl_cons, ih, hstep]
  refine (hfold _ _).trans ?_
  simp [initState, initialValues, makeChild]

variable (d : CompiledDesign)

theorem marked_elaborateChildren (levels : Nat) (h : NewNode n)
    (hlen : n.state.values.length = n.mod.signalNames.length) : Marked (elaborateChildren d levels n) := by
  induction levels generalizing n with
  | zero =>
    refine .node ?_ fun _ _ hc => by simp at hc
    intro s hs hlt hreg
    rw [InstanceNode.isDriven, h.driven]
    exact initDriven_of_assign (by simpa [driveTargets] using hs) (hlen ▸ hlt) hreg
  | succ levels ih =>
    rw [elaborateChildren]
    refine .node ?_ ?_
    · intro s hs hlt hreg
      obtain ⟨hkeep, hmark⟩ := markDrivens_spec n.mod
        (n.mod.instances.filterMap fun idef =>
          (d.findModule idef.moduleName).map fun cm => makeChild n.mod cm idef) n.drivenNets
      rw [driveTargets_elaborateChildren] at hs
      have hlt : s < n.mod.signalNames.length := hlen ▸ hlt
      rcases mem_append.mp hs with hs | hs
      · exact hmark s hs (by simpa [h.driven, initDrivenNetsFromAssigns] using hlt) hreg
      · refine hkeep s ?_
        rw [h.driven]
        exact initDriven_of_assign hs hlt hreg
    · intro j c hc
      rw [getElem?_map] at hc
      obtain ⟨k, hk, rfl⟩ := Option.map_eq_some_iff.mp hc
      have hmem := List.mem_of_getElem? hk
      refine ih (newNode_of_mem hmem) ?_
      obtain ⟨idef, -, hk⟩ := mem_filterMap.mp hmem
      obtain ⟨cm, -, rfl⟩ := Option.map_eq_some_iff.mp hk
      exact length_makeChild n.mod cm idef

theorem marked_elaborate (top : CompiledModule) : Marked (elaborate d top) :=
  marked_elaborateChildren d 65 (newNode_top top) (by simp [initState, initialValues])

theorem Combinational.wired (h : Combinational t) (hl : Levelled N t) (ht : Tidy t) (hm : Marked t) : Wired N t := by
  induction h with
  | @node n cs noFf noComb noInitial noRandom single wires ports sources children ih =>
    obtain ⟨level, range, assigns, drives, inputs, levelled⟩ := hl
    obtain ⟨driven, events, tidy⟩ := ht
    obtain ⟨marked, kids⟩ := hm
    have hmem {s : Nat} : s ∈ driveTargets cs ++ n.mod.assignTargets ↔
        s ∈ n.mod.assignTargets ++ driveTargets cs := by
      rw [mem_append, mem_append, or_comm]
    obtain ⟨htargets, hports, hdisjoint⟩ := nodup_append'.mp single
    have hplain : PlainNode n cs := by
      refine ⟨noComb, nodup_append_comm.mp htargets, fun s => ⟨?_, ?_⟩⟩
      · intro hs
        simp only [resolved, Bool.and_eq_true, Bool.not_eq_true', decide_eq_true_eq] at hs
        rcases driven s hs.1.2 hs.2 with hcomb | hassign | hdrive
        · simp [CompiledModule.combWrites, noComb] at hcomb
        · exact mem_append_right _ hassign
        · exact mem_append_left _ hdrive
      · intro hs
        obtain ⟨hlt, hreg⟩ := wires s (hmem.mp hs)
        simp [resolved, hlt, hreg, marked s hs hlt hreg]
    refine .node level ⟨hplain, fun s hs => range s (hmem.mp hs), assigns, drives, inputs, ?_, hports,
      ports, sources⟩ fun j c hc => ih j c hc (levelled j c hc) (tidy j c hc) (kids j c hc)
    exact fun s hs hin => hdisjoint (hmem.mp hin) hs

theorem Settled.updatePrev (h : Settled t) : Settled (updatePrevRecursive t) := by
  induction h with
  | @node n cs assigns inputs outputs children ih =>
    simp only [updatePrevRecursive, map_node] at ih ⊢
    have hkid {j : Nat} {c' : InstanceState} (hc' : (cs.map updatePrevRecursive)[j]? = some c') :
        ∃ c, cs[j]? = some c ∧ c' = updatePrevRecursive c := by
      rw [getElem?_map] at hc'
      obtain ⟨c, hc, rfl⟩ := Option.map_eq_some_iff.mp hc'
      exact ⟨c, hc, rfl⟩
    refine .node assigns ?_ ?_ ?_
    · intro j c' hc' b hb
      obtain ⟨c, hc, rfl⟩ := hkid hc'
      obtain ⟨cn, ccs⟩ := c
      exact inputs j _ hc b hb
    · intro j c' hc' d hd
      obtain ⟨c, hc, rfl⟩ := hkid hc'
      obtain ⟨cn, ccs⟩ := c
      exact outputs j _ hc d hd
    · intro j c' hc'
      obtain ⟨c, hc, rfl⟩ := hkid hc'
      exact ih j c hc

/-- After every call of every run of an acyclic combinational design with at most 64 levels
the equations of all instances hold. -/
theorem settled_after_call (top : CompiledModule)
    (hcomb : Combinational (elaborate d top)) (hlevel : Levelled maxIter (elaborate d top))
    (calls : List Call) (c : Call) : Settled (c.run (runCalls calls (elaborate d top))) := by
  have hwired := hcomb.wired hlevel (tidy_elaborate d top) (marked_elaborate d top)
  obtain ⟨htidy, hsame⟩ := runCalls_tidy calls (tidy_elaborate d top)
  generalize runCalls calls (elaborate d top) = t at htidy hsame ⊢
  have htidy' := tidy_sampleInputs c.pins htidy
  have hsame' := hsame.trans (sameDesign_sampleInputs c.pins t)
  rw [Call.run, simulate_eq]
  refine (settled_combResolve c.tick _ ?_ ?_ (htidy'.afterSequential _ _ none) ?_).updatePrev
  · exact (height_afterSequential _ _ _ _).le
  · exact hwired.of_sameDesign (hsame'.trans (sameDesign_afterSequential _ _ _ _))
  · exact hcomb.idle_afterSequential hsame' htidy' _ _ none

namespace Acyclic

def inverter : CompiledModule where
  name := "inv"
  ports := [⟨"a", .input, 0⟩, ⟨"y", .output, 1⟩]
  portOrder := ["a", "y"]
  portDecls := [("a", { dir := .input }), ("y", { dir := .output })]
  signalNames := ["a", "y"]
  exprNodes := [.signal 0, .unaryNot 0]
  assigns := [{ lhsSignal := 1, exprRoot := 1 }]

def hazard : CompiledModule where
  ports := [⟨"i", .input, 0⟩, ⟨"o", .output, 2⟩]
  signalNames := ["i", "n", "o"]
  exprNodes := [.signal 1, .signal 0, .binaryXor 0 1]
  assigns := [{ lhsSignal := 2, exprRoot := 2 }]
  instances := [{ moduleName := "inv", instanceName := "u"
                  connections := [("a", .scalar (some 0)), ("y", .scalar (some 1))] }]

def rise : Call := { pins := [some .H], tick := 1 }

theorem only_child {j : Nat} {c d : InstanceState} (hc : [d][j]? = some c) : c = d := by
  cases j with
  | zero => exact (Option.some.inj hc).symm
  | succ j => cases hc

theorem combinational_hazard : Combinational (elaborate ⟨[inverter]⟩ hazard) := by
  show Combinational (.node _ [.node _ []])
  refine .node rfl rfl rfl rfl (by decide) (by decide) (by decide) ?_ ?_
  · intro j c hc
    rw [only_child hc]
    decide
  · intro j c hc
    rw [only_child hc]
    exact .node rfl rfl rfl rfl (by decide) (by decide) (by decide) (fun _ _ hc => by cases hc)
      fun _ _ hc => by cases hc

theorem levelled_hazard : Levelled maxIter (elaborate ⟨[inverter]⟩ hazard) := by
  show Levelled _ (.node _ [.node _ []])
  refine .node id (by decide) (by decide) ?_ ?_ ?_
  · intro j c hc d hd hsrc b hb _
    rw [only_child hc] at hd hb
    obtain rfl : d = { parentSignal := 1, childSignal := 1 } := mem_singleton.mp hd
    obtain rfl : b = (0, .parentSignal 0) := mem_singleton.mp hb
    decide
  · intro j c hc b hb
    rw [only_child hc] at hb
    obtain rfl : b = (0, .parentSignal 0) := mem_singleton.mp hb
    decide
  · intro j c hc
    rw [only_child hc]
    exact .node id (by decide) (by decide) (fun _ _ hc => by cases hc) (fun _ _ hc => by cases hc)
      fun _ _ hc => by cases hc

theorem settled_after_call_hazard :
    Settled (rise.run (runCalls [{ pins := [some .L, none], tick := 0 }] (elaborate ⟨[inverter]⟩ hazard))) :=
  settled_after_call ⟨[inverter]⟩ hazard combinational_hazard levelled_hazard _ rise

def bufferChain (len : Nat) : CompiledModule where
  ports := [⟨"i", .input, 0⟩]
  signalNames := (List.range (len + 1)).map fun k => "n" ++ toString k
  exprNodes := (List.range len).map .signal
  assigns := (List.range len).map fun k => { lhsSignal := k + 1, exprRoot := k }
  operands_first := by
    intro p hp c hc
    obtain ⟨k, -, hk⟩ := List.mem_map.mp (List.fst_mem_of_mem_zipIdx hp)
    rw [← hk] at hc
    cases hc

section

variable {len : Nat}

variable {k : Nat}

theorem getElem?_exprNodes (hk : k < len) : (bufferChain len).exprNodes[k]? = some (.signal k) := by
  simp [bufferChain, hk]

theorem mem_assigns {a : ContinuousAssign} (h : a ∈ (bufferChain len).assigns) :
    ∃ k < len, a = { lhsSignal := k + 1, exprRoot := k } := by
  obtain ⟨k, hk, rfl⟩ := mem_map.mp h
  exact ⟨k, mem_range.mp hk, rfl⟩

theorem mem_assignTargets : s ∈ (bufferChain len).assignTargets ↔ 0 < s ∧ s ≤ len := by
  simp only [CompiledModule.assignTargets, bufferChain, List.map_map, mem_map, mem_range,
    Function.comp_apply]
  constructor
  · rintro ⟨k, hk, rfl⟩
    omega
  · rintro ⟨hpos, hle⟩
    exact ⟨s - 1, by omega, by omega⟩

theorem drive_buffer (hk : k < len) (values : List LogicT) :
    ContinuousAssign.drive (bufferChain len) { lhsSignal := k + 1, exprRoot := k } values =
      some (values.getD k .X) := by
  simp [ContinuousAssign.drive, evalExpr, evalNode, getElem?_exprNodes hk]

theorem reads_buffer (hk : k < len) :
    ContinuousAssign.reads (bufferChain len) { lhsSignal := k + 1, exprRoot := k } = [k] := by
  simp [ContinuousAssign.reads, exprReads, readsNode, getElem?_exprNodes hk]

def chainNode (len : Nat) : InstanceNode :=
  { mod := bufferChain len, state := initState (bufferChain len)
    drivenNets := initDrivenNetsFromAssigns (bufferChain len) }

theorem elaborate_bufferChain (len : Nat) :
    elaborate ⟨[]⟩ (bufferChain len) = .node (chainNode len) [] := rfl

theorem length_values (len : Nat) : (chainNode len).state.values.length = len + 1 := by
  simp [chainNode, initState, initialValues, bufferChain]

theorem combinational_bufferChain : Combinational (elaborate ⟨[]⟩ (bufferChain len)) := by
  have hassigns : (bufferChain len).assignTargets.Nodup := by
    simp only [CompiledModule.assignTargets, bufferChain, List.map_map]
    exact nodup_range.map fun a b h => by simpa using h
  have htargets : (bufferChain len).assignTargets ++ driveTargets [] = (bufferChain len).assignTargets :=
    append_nil _
  rw [elaborate_bufferChain]
  refine .node rfl rfl rfl rfl ?_ ?_ ?_ (fun _ _ hc => by cases hc) fun _ _ hc => by cases hc
  · refine nodup_append'.mpr ⟨htargets.symm ▸ hassigns, nodup_singleton 0, ?_⟩
    intro s hs h0
    have hpos := (mem_assignTargets.mp (htargets ▸ hs)).1
    have hzero : s = 0 := mem_singleton.mp h0
    omega
  · intro s hs
    have hle := (mem_assignTargets.mp (htargets ▸ hs)).2
    have hlen := length_values len
    exact ⟨by omega, rfl⟩
  · intro s hs
    have hlen := length_values len
    obtain rfl : s = 0 := mem_singleton.mp hs
    omega

theorem levelled_bufferChain : Levelled len (elaborate ⟨[]⟩ (bufferChain len)) := by
  rw [elaborate_bufferChain]
  refine .node id ?_ ?_ (fun _ _ hc => by cases hc) (fun _ _ hc => by cases hc) fun _ _ hc => by cases hc
  · intro s hs
    have hs : s ∈ (bufferChain len).assignTargets ++ driveTargets [] := hs
    exact mem_assignTargets.mp (by simpa [driveTargets] using hs)
  · intro a ha r hr
    obtain ⟨k, hk, rfl⟩ := mem_assigns ha
    have hr : r ∈ ContinuousAssign.reads (bufferChain len) { lhsSignal := k + 1, exprRoot := k } := hr
    rw [reads_buffer hk, mem_singleton] at hr
    simp [hr]

theorem get_settleLoop {level : Nat → Nat} {resolve : InstanceState → InstanceState × Bool} (tick : UInt64)
    (iters : Nat) {j : Nat} (token : UInt32) (any : Bool) (h : LoopState N level n []) (hres : Resolves N resolve 1)
    (hmod : n.mod = bufferChain len) (hlag : ∀ s, j < s → n.get s = .X) :
    (settleLoop resolve tick iters token any (.node n [])).inst.value.get 0 = n.get 0 ∧
      ∀ s, j + iters < s → (settleLoop resolve tick iters token any (.node n [])).inst.value.get s = .X := by
  induction iters generalizing n token any j with
  | zero => exact ⟨rfl, hlag⟩
  | succ iters ih =>
    obtain ⟨token', any', hloop⟩ := settleLoop_succ resolve tick iters token any n []
    obtain ⟨hpass, -⟩ := h.isPass hres tick token any
    have hnext (n' : InstanceNode) (hn : (settlePass resolve tick token any (.node (epoch n) [])).1 =
        .node n' []) : LoopState N level n' [] := h.next hres tick token any hn
    rw [settlePass_fst] at hpass hloop hnext
    have h' := hnext _ rfl
    have hkids : settledKids resolve (epoch n) [] = [] := rfl
    rw [hkids] at hpass hloop h'
    generalize (settleRoot tick token any (prepareNetDrives (epoch n)) []).1 = n' at hpass hloop h'
    have hmod' : n'.mod = bufferChain len := hpass.static.mod.trans hmod
    have hzero : n'.get 0 = n.get 0 := by
      refine hpass.others 0 fun hmem => ?_
      have hmem : 0 ∈ driveTargets [] ++ n.mod.assignTargets := hmem
      rw [hmod] at hmem
      have hpos := (mem_assignTargets.mp (by simpa [driveTargets] using hmem)).1
      omega
    have hlag' : ∀ s, j + 1 < s → n'.get s = .X := by
      intro s hs
      by_cases hmem : s ∈ n.mod.assignTargets
      · obtain ⟨a, ha, rfl⟩ := mem_map.mp hmem
        have hget : n'.get a.lhsSignal = (a.drive n.mod n.state.values).getD .Z := hpass.assigns a ha
        rw [hmod] at ha hget
        obtain ⟨k, hk, rfl⟩ := mem_assigns ha
        rw [hget, drive_buffer hk]
        exact hlag k (by simpa using hs)
      · refine (hpass.others s ?_).trans (hlag s (by omega))
        simpa [driveTargets] using hmem
    obtain ⟨ih0, ihlag⟩ := ih token' any' h' hmod' hlag'
    rw [hloop]
    split
    · exact ⟨hzero, fun s hs => hlag' s (by omega)⟩
    · exact ⟨ih0.trans hzero, fun s hs => ihlag s (by omega)⟩

theorem get_of_settled (h : Settled t) (hmod : t.value.mod = bufferChain len) (k : Nat) (hk : k ≤ len) :
    t.value.get k = t.value.get 0 := by
  induction k with
  | zero => rfl
  | succ k ih =>
    cases h with
    | @node n cs assigns inputs outputs children =>
      have hmod : n.mod = bufferChain len := hmod
      have hget := assigns { lhsSignal := k + 1, exprRoot := k } (by
        rw [hmod]
        exact mem_map_of_mem (mem_range.mpr hk))
      rw [hmod, drive_buffer hk] at hget
      exact hget.trans (ih (by omega))

theorem get_updatePrev (t : InstanceState) (s : Nat) :
    (updatePrevRecursive t).value.get s = t.value.get s := by
  obtain ⟨n, cs⟩ := t
  rw [updatePrevRecursive, map_node]
  rfl

theorem get_combResolve (tick : UInt64) (height : Nat) (n : InstanceNode) (cs : List InstanceState) (s : Nat) :
    (combResolve tick (height + 1) (.node n cs)).1.value.get s =
      (settleLoop (combResolve tick height) tick maxIter (beginCombResolve n.state).1.changeToken
        (beginCombResolve n.state).2
        (.node { n with state := (beginCombResolve n.state).1 } cs)).inst.value.get s := by
  simp only [combResolve, combResolveWith, value_node, withValue_node]
  generalize settleLoop _ _ _ _ _ _ = r
  rfl

theorem get_afterSequential (s : Nat) :
    (sequentialVisit 1 true none (sampleInputs rise.pins (.node (chainNode len) [])).value).1.get s =
      if s = 0 then .H else .X := by
  have hev : EventsIn (· ∈ (bufferChain len).scheduledTargets)
      (sampleInputs rise.pins (.node (chainNode len) [])).value.state := fun _ hev => by cases hev
  have hframe := frame_combinationalVisit (n := (sampleInputs rise.pins (.node (chainNode len) [])).value)
    rfl rfl rfl rfl hev 1 true none
  have hX (q : Nat) : (initialValues (bufferChain len)).getD q .X = .X := by
    simp [initialValues, bufferChain, getD_eq_getElem?_getD]
  refine (hframe.state.get s id).trans ?_
  show ((initialValues (bufferChain len)).set 0 .H).getD s .X = _
  have hlen := length_values len
  by_cases hs : s = 0
  · subst hs
    rw [getD_eq_getElem _ _ (by rw [length_set]; exact hlen ▸ Nat.succ_pos len)]
    simp
  · rw [getD_eq_getElem?_getD, getElem?_set_ne (Ne.symm hs), ← getD_eq_getElem?_getD, hX,
      if_neg hs]

theorem not_settled_bufferChain (hlen : maxIter < len) :
    ¬ Settled (rise.run (elaborate ⟨[]⟩ (bufferChain len))) := by
  intro hsettled
  have htidy := tidy_elaborate ⟨[]⟩ (bufferChain len)
  have hmod := (sameDesign_run rise htidy).value.mod
  have hequal := get_of_settled hsettled hmod (maxIter + 1) hlen
  -- the state when the settle loop starts
  have hwired : Wired len (elaborate ⟨[]⟩ (bufferChain len)) :=
    combinational_bufferChain.wired levelled_bufferChain htidy (marked_elaborate _ _)
  have htidy' := tidy_sampleInputs rise.pins htidy
  have hsame := sameDesign_sampleInputs rise.pins (elaborate ⟨[]⟩ (bufferChain len))
  have hidle := combinational_bufferChain.idle_afterSequential hsame htidy' 1 true none
  have hwired' := hwired.of_sameDesign (hsame.trans (sameDesign_afterSequential 1 true none _))
  have htidy'' := htidy'.afterSequential 1 true none
  have hstart (s : Nat) : (sequentialVisit 1 true none (sampleInputs rise.pins
      (.node (chainNode len) [])).value).1.get s = if s = 0 then .H else .X := get_afterSequential s
  have hchain := (static_sequentialVisit 1 true none
    (sampleInputs rise.pins (.node (chainNode len) [])).value).mod
  have hseq : afterSequential 1 true none (sampleInputs rise.pins (elaborate ⟨[]⟩ (bufferChain len))) =
    .node (sequentialVisit 1 true none (sampleInputs rise.pins (.node (chainNode len) [])).value).1 [] := rfl
  have hrun (s : Nat) : (rise.run (elaborate ⟨[]⟩ (bufferChain len))).value.get s =
      (combResolve 1 1 (afterSequential 1 true none
        (sampleInputs rise.pins (elaborate ⟨[]⟩ (bufferChain len))))).1.value.get s := get_updatePrev _ s
  rw [hrun, hrun] at hequal
  rw [hseq] at hequal hidle hwired' htidy''
  rw [get_combResolve, get_combResolve] at hequal
  generalize (sequentialVisit 1 true none (sampleInputs rise.pins (.node (chainNode len) [])).value).1 = n
    at hequal hidle hwired' htidy'' hstart hchain
  obtain ⟨level, root, wired⟩ := hwired'
  have hres : Resolves len (combResolve 1 0) 1 := by
    have hheight (c : InstanceState) : ¬ c.height < 1 := by
      obtain ⟨n, cs⟩ := c
      simp [RoseTree.height]
    exact ⟨fun _ c hc => absurd hc (hheight c), fun c hc => absurd hc (hheight c)⟩
  have hbegin := quiet_beginCombResolve n.state
  have hget (s : Nat) : (beginCombResolve n.state).1.get s = n.get s := hbegin.get s id
  obtain ⟨hzero, hlag⟩ := get_settleLoop (j := 0) 1 maxIter (beginCombResolve n.state).1.changeToken
    (beginCombResolve n.state).2 (loopState_begin ⟨root, wired, htidy'', hidle⟩) hres hchain
    fun s hs => by
      rw [InstanceNode.get, hget, hstart, if_neg (by omega)]
  have hlast := hlag (maxIter + 1) (by omega)
  have hinput := hzero.trans ((hget 0).trans ((hstart 0).trans (if_pos rfl)))
  have hboth : LogicT.X = LogicT.H := hlast.symm.trans (hequal.trans hinput)
  cases hboth

end

/-- Without a bound on the levels the equations need not hold after a call. -/
theorem bufferChain_not_settled : ¬ ∀ (d : CompiledDesign) (top : CompiledModule),
    Combinational (elaborate d top) → PhyEngine.Verilog.Acyclic (elaborate d top) → ∀ c : Call,
      Settled (c.run (elaborate d top)) := by
  intro h
  have hlong : ¬ Settled (rise.run (elaborate ⟨[]⟩ (bufferChain 65))) :=
    not_settled_bufferChain (by decide)
  exact hlong (h ⟨[]⟩ (bufferChain 65) combinational_bufferChain ⟨65, levelled_bufferChain⟩ rise)

end Acyclic

end PhyEngine.Verilog
