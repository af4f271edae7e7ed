import PhyEngine.Verilog.NetDrives
import PhyEngine.Verilog.Runs

/-!
# Settling of acyclic designs

Where continuous assignments to wires and port connections are the only drivers, one pass
computes every net from the values before it: after `k` passes every net of level at most `k` is
stable. The loop of every instance has 64 passes.
-/

namespace PhyEngine.Verilog

open ModuleState InstanceNode List RoseTree

variable (m : CompiledModule)

def ContinuousAssign.reads (a : ContinuousAssign) : List Nat :=
  exprReads m a.exprRoot ++ (a.guardRoot.map (exprReads m)).getD []

theorem drive_congr {m : CompiledModule} {a : ContinuousAssign} {v w : List LogicT}
    (h : ∀ s ∈ a.reads m, v.getD s .X = w.getD s .X) : a.drive m v = a.drive m w := by
  have hexpr : evalExpr m a.exprRoot v = evalExpr m a.exprRoot w :=
    evalExpr_congr fun s hs => h s (mem_append_left _ hs)
  unfold ContinuousAssign.drive
  cases hg : a.guardRoot with
  | none => simp only [hexpr]
  | some g =>
    have hguard : evalExpr m g v = evalExpr m g w :=
      evalExpr_congr fun s hs => h s (by simp [ContinuousAssign.reads, hg, hs])
    simp only [hexpr, hguard]

def CompiledModule.inputPorts : List Nat :=
  (m.ports.filter fun p => p.dir ≠ .output).map (·.signal)

/-- `Combinational t`: every net of `t` has one driver, a continuous assignment or an output
of a child or the connection of an input port, and all of them are wires that exist. -/
inductive Combinational : InstanceState → Prop where
  | node {n : InstanceNode} {cs : List InstanceState}
      (noFf : n.mod.alwaysFfs = []) (noComb : n.mod.alwaysCombs = []) (noInitial : n.mod.initials = [])
      (noRandom : n.mod.urandomBits = none)
      (single : (n.mod.assignTargets ++ driveTargets cs ++ n.mod.inputPorts).Nodup)
      (wires : ∀ s ∈ n.mod.assignTargets ++ driveTargets cs,
        s < n.state.values.length ∧ n.mod.isReg s = false)
      (ports : ∀ s ∈ n.mod.inputPorts, s < n.state.values.length)
      (sources : ∀ (j : Nat) c, cs[j]? = some c → ∀ d ∈ c.value.outputDrives,
        d.srcIsLiteral = false → d.childSignal < c.value.state.values.length)
      (children : ∀ (j : Nat) c, cs[j]? = some c → Combinational c) : Combinational (.node n cs)

inductive Feeds : InstanceState → Nat → Nat → Prop where
  | refl (t : InstanceState) (s : Nat) : Feeds t s s
  | assign {n : InstanceNode} {cs : List InstanceState} {p r : Nat} {a : ContinuousAssign}
      (ha : a ∈ n.mod.assigns) (hr : r ∈ a.reads n.mod) (h : Feeds (.node n cs) p r) :
      Feeds (.node n cs) p a.lhsSignal
  | child {n : InstanceNode} {cs : List InstanceState} {p r j : Nat} {c : InstanceState}
      {d : PortDrive} {b : Nat × PortBinding} (hc : cs[j]? = some c) (hd : d ∈ c.value.outputDrives)
      (hsrc : d.srcIsLiteral = false) (hb : b ∈ c.value.inputBindings)
      (hfeeds : Feeds c b.1 d.childSignal) (hr : r ∈ bindingReads n.mod b.2)
      (h : Feeds (.node n cs) p r) : Feeds (.node n cs) p d.parentSignal

/-- `Levelled N t`: the nets of every instance have levels from 1 to `N`, above those of the
signals they depend on, and the connections of child ports read levels below `N`. -/
inductive Levelled (N : Nat) : InstanceState → Prop where
  | node {n : InstanceNode} {cs : List InstanceState} (level : Nat → Nat)
      (range : ∀ s ∈ n.mod.assignTargets ++ driveTargets cs, 0 < level s ∧ level s ≤ N)
      (assigns : ∀ a ∈ n.mod.assigns, ∀ r ∈ a.reads n.mod, level r < level a.lhsSignal)
      (drives : ∀ (j : Nat) c, cs[j]? = some c → ∀ d ∈ c.value.outputDrives, d.srcIsLiteral = false →
        ∀ b ∈ c.value.inputBindings, Feeds c b.1 d.childSignal →
        ∀ r ∈ bindingReads n.mod b.2, level r < level d.parentSignal)
      (inputs : ∀ (j : Nat) c, cs[j]? = some c → ∀ b ∈ c.value.inputBindings,
        ∀ r ∈ bindingReads n.mod b.2, level r < N)
      (children : ∀ (j : Nat) c, cs[j]? = some c → Levelled N c) : Levelled N (.node n cs)

/-- The dependencies have no cycle: some levels exist. -/
def Acyclic (t : InstanceState) : Prop := ∃ N, Levelled N t

/-- `Settled t`: every assigned net holds the value of its right-hand side, or floats while
its guard is not high, every child input the value of its connection, and every net on a
child output the value of the output. -/
inductive Settled : InstanceState → Prop where
  | node {n : InstanceNode} {cs : List InstanceState}
      (assigns : ∀ a ∈ n.mod.assigns, n.get a.lhsSignal = (a.drive n.mod n.state.values).getD .Z)
      (inputs : ∀ (j : Nat) c, cs[j]? = some c → ∀ b ∈ c.value.inputBindings,
        c.value.get b.1 = bindingValue n b.2)
      (outputs : ∀ (j : Nat) c, cs[j]? = some c → ∀ d ∈ c.value.outputDrives,
        d.source c.value = some (n.get d.parentSignal))
      (children : ∀ (j : Nat) c, cs[j]? = some c → Settled c) : Settled (.node n cs)

variable (n : InstanceNode)

variable (kids : List InstanceState)

def drivers : List (Nat × LogicT) :=
  kids.flatMap (fun c => childWrites c.value) ++ assignWrites n.mod n.mod.assigns n.state.values

theorem map_fst_childWrites (c : InstanceNode) :
    ((childWrites c).map Prod.fst).Sublist (c.outputDrives.map (·.parentSignal)) := by
  unfold childWrites
  generalize c.outputDrives = ds
  induction ds with
  | nil => exact List.Sublist.slnil
  | cons d ds ih =>
    rw [filterMap_cons]
    cases d.source c with
    | none => exact List.Sublist.cons _ ih
    | some v => exact List.Sublist.cons_cons _ ih

theorem map_fst_assignWrites (as : List ContinuousAssign) (values : List LogicT) :
    ((assignWrites m as values).map Prod.fst).Sublist (as.map (·.lhsSignal)) := by
  unfold assignWrites
  induction as with
  | nil => exact List.Sublist.slnil
  | cons a as ih =>
    rw [filterMap_cons]
    cases a.drive m values with
    | none => exact List.Sublist.cons _ ih
    | some v => exact List.Sublist.cons_cons _ ih

theorem map_fst_drivers :
    ((drivers n kids).map Prod.fst).Sublist (driveTargets kids ++ n.mod.assignTargets) := by
  rw [drivers, map_append]
  refine List.Sublist.append ?_ (map_fst_assignWrites _ _ _)
  unfold driveTargets
  induction kids with
  | nil => exact List.Sublist.slnil
  | cons c kids ih =>
    rw [flatMap_cons, flatMap_cons, map_append]
    exact List.Sublist.append (map_fst_childWrites c.value) ih

/-- The static conditions at one instance that make a pass a plain copy of driver values. -/
structure PlainNode (n : InstanceNode) (kids : List InstanceState) : Prop where
  noComb : n.mod.alwaysCombs = []
  single : (driveTargets kids ++ n.mod.assignTargets).Nodup
  resolved : ∀ s, n.resolved s = true ↔ s ∈ driveTargets kids ++ n.mod.assignTargets

def afterDrives : InstanceNode :=
  driveAll (prepareNetDrives n) (drivers n kids)

variable {c t t' : InstanceState} {d : PortDrive} {s j : Nat} {n' : InstanceNode}

section Root

variable {n : InstanceNode} {kids : List InstanceState}

theorem PlainNode.resolved_drivers (h : PlainNode n kids) :
    ∀ w ∈ drivers n kids, (prepareNetDrives n).resolved w.1 = true := by
  intro w hw
  have hstatic : SameStatic n (prepareNetDrives n) :=
    (frame_prepareNetDrives (T := fun _ => True) (E := fun _ => True) n).static
  rw [resolved_congr hstatic]
  exact (h.resolved w.1).mpr ((map_fst_drivers n kids).subset (mem_map_of_mem hw))

theorem state_afterDrives (h : PlainNode n kids) :
    (afterDrives n kids).state = { (prepareNetDrives n).state with
      nextNetValues := (afterDrives n kids).state.nextNetValues } := values_driveAll h.resolved_drivers

theorem static_afterDrives : SameStatic n (afterDrives n kids) :=
  (frame_prepareNetDrives (T := fun _ => True) (E := fun _ => True) n).static.trans (frame_driveAll _ _).static

theorem runCombLocal_of_noComb {n : InstanceNode} (h : n.mod.alwaysCombs = []) (tick : UInt64)
    (token : UInt32) (any : Bool) :
    runCombLocal tick token any n = (runAssigns n n.mod.assigns, false) := by
  unfold runCombLocal
  rw [h]
  rfl

theorem runCombLocal_plain (h : PlainNode n kids) (tick : UInt64) (token : UInt32) (any : Bool) :
    runCombLocal tick token any
        (kids.foldl (fun n c => propagateChildToParent c.value n) (prepareNetDrives n)) =
      (afterDrives n kids, false) := by
  have hres := h.resolved_drivers
  have hresKids : ∀ w ∈ kids.flatMap fun c => childWrites c.value,
      (prepareNetDrives n).resolved w.1 = true := fun w hw => hres w (mem_append_left _ hw)
  have hkids := values_driveAll hresKids
  have hstatic := (frame_driveAll (prepareNetDrives n) (kids.flatMap fun c => childWrites c.value)).static
  rw [propagateKids_eq, afterDrives, drivers, driveAll_append]
  generalize driveAll (prepareNetDrives n) (kids.flatMap fun c => childWrites c.value) = n₁ at hkids hstatic ⊢
  have hmod : n₁.mod = n.mod := hstatic.mod
  have hvalues : n₁.state.values = n.state.values := by
    rw [hkids]
    rfl
  have hassigns : ∀ a ∈ n.mod.assigns, n₁.resolved a.lhsSignal = true := by
    intro a ha
    rw [resolved_congr hstatic, resolved_congr
      (frame_prepareNetDrives (T := fun _ => True) (E := fun _ => True) n).static]
    exact (h.resolved _).mpr (mem_append_right _ (mem_map_of_mem ha))
  rw [runCombLocal_of_noComb (hmod ▸ h.noComb), hmod, runAssigns_eq hassigns, hmod, hvalues]

theorem nbaQueue_applyNetDrives (n : InstanceNode) :
    (applyNetDrives n).1.state.nbaQueue = n.state.nbaQueue := by
  unfold applyNetDrives
  dsimp only
  split
  · rfl
  · exact (sameBut_assignAll _ _).nbaQueue

section

variable (h : PlainNode n kids) (hnba : n.state.nbaQueue = [])

include h hnba

theorem get_settleRoot (tick : UInt64) (token : UInt32) (any : Bool) (s : Nat) :
    (settleRoot tick token any (prepareNetDrives n) kids).1.get s =
      if n.resolved s then driverValue (drivers n kids) s .Z else n.get s := by
  have hempty : (applyNetDrives (afterDrives n kids)).1.state.nbaQueue = [] := by
    rw [nbaQueue_applyNetDrives, state_afterDrives h]
    exact hnba
  have hroom : HasRoom (afterDrives n kids) := hasRoom_driveAll (hasRoom_prepareNetDrives n) _
  simp only [settleRoot, runCombLocal_plain h]
  refine (get_applyNba_of_not_queued (not_queued_of_empty hempty s)).trans ?_
  rw [get_applyNetDrives hroom, resolved_congr static_afterDrives]
  split
  · rename_i hs
    rw [afterDrives, nextNet_driveAll h.resolved_drivers, nextNet_prepareNetDrives hs]
  · rw [InstanceNode.get, state_afterDrives h]
    rfl

theorem get_settleRoot_of_not_changed {tick : UInt64} {token : UInt32} {any : Bool}
    (hchanged : (settleRoot tick token any (prepareNetDrives n) kids).2 = false) (s : Nat) :
    (settleRoot tick token any (prepareNetDrives n) kids).1.get s = n.get s := by
  have hempty : (applyNetDrives (afterDrives n kids)).1.state.nbaQueue = [] := by
    rw [nbaQueue_applyNetDrives, state_afterDrives h]
    exact hnba
  simp only [settleRoot, runCombLocal_plain h, Bool.or_false, Bool.or_eq_false_iff] at hchanged ⊢
  refine (get_applyNba_of_not_queued (not_queued_of_empty hempty s)).trans ?_
  have hsame : (applyNetDrives (afterDrives n kids)).1.state = (afterDrives n kids).state := by
    have hnets := hchanged.2
    unfold applyNetDrives at hnets ⊢
    dsimp only at hnets ⊢
    split at hnets
    · rename_i hroom
      rw [if_pos hroom]
    · rename_i hroom
      rw [if_neg hroom]
      exact (assignAll_of_not_changed hnets).1
  rw [InstanceNode.get, hsame, state_afterDrives h]
  rfl

theorem get_settleRoot_assign (tick : UInt64) (token : UInt32) (any : Bool) {a : ContinuousAssign}
    (ha : a ∈ n.mod.assigns) :
    (settleRoot tick token any (prepareNetDrives n) kids).1.get a.lhsSignal =
      (a.drive n.mod n.state.values).getD .Z := by
  have hres : n.resolved a.lhsSignal = true :=
    (h.resolved _).mpr (mem_append_right _ (mem_map_of_mem ha))
  have hnodup := (map_fst_drivers n kids).nodup h.single
  rw [get_settleRoot h hnba, if_pos hres]
  cases hd : a.drive n.mod n.state.values with
  | some v =>
    refine driverValue_of_mem hnodup (mem_append_right _ ?_)
    exact mem_filterMap.mpr ⟨a, ha, by simp [hd]⟩
  | none =>
    refine driverValue_of_not_mem (fun hmem => ?_) _
    obtain ⟨-, hassigns, hdisjoint⟩ := nodup_append'.mp h.single
    rw [drivers, map_append] at hmem
    rcases mem_append.mp hmem with hmem | hmem
    · have hkids : a.lhsSignal ∈ driveTargets kids := by
        obtain ⟨w, hw, heq⟩ := mem_map.mp hmem
        obtain ⟨c, hc, hwc⟩ := mem_flatMap.mp hw
        rw [← heq]
        exact mem_flatMap.mpr ⟨c, hc, (map_fst_childWrites c.value).subset (mem_map_of_mem hwc)⟩
      exact hdisjoint hkids (mem_map_of_mem ha)
    · obtain ⟨w, hw, heq⟩ := mem_map.mp hmem
      obtain ⟨a', ha', hdrive⟩ := mem_filterMap.mp hw
      obtain ⟨v, hv, rfl⟩ := Option.map_eq_some_iff.mp hdrive
      cases inj_on_of_nodup_map hassigns ha' ha heq
      rw [hd] at hv
      cases hv

theorem get_settleRoot_output (tick : UInt64) (token : UInt32) (any : Bool) (hc : c ∈ kids)
    (hd : d ∈ c.value.outputDrives) {v : LogicT} (hv : d.source c.value = some v) :
    (settleRoot tick token any (prepareNetDrives n) kids).1.get d.parentSignal = v := by
  have hres : n.resolved d.parentSignal = true :=
    (h.resolved _).mpr (mem_append_left _
      (mem_flatMap.mpr ⟨c, hc, mem_map_of_mem hd⟩))
  rw [get_settleRoot h hnba, if_pos hres]
  refine driverValue_of_mem ((map_fst_drivers n kids).nodup h.single) (mem_append_left _ ?_)
  exact mem_flatMap.mpr ⟨c, hc, mem_filterMap.mpr ⟨d, hd, by simp [hv]⟩⟩

end

end Root

/-- Everything about one instance that the argument uses, with the levels of its signals. -/
structure WiredRoot (N : Nat) (level : Nat → Nat) (n : InstanceNode) (cs : List InstanceState) : Prop where
  plain : PlainNode n cs
  range : ∀ s ∈ driveTargets cs ++ n.mod.assignTargets, 0 < level s ∧ level s ≤ N
  assigns : ∀ a ∈ n.mod.assigns, ∀ r ∈ a.reads n.mod, level r < level a.lhsSignal
  drives : ∀ (j : Nat) c, cs[j]? = some c → ∀ d ∈ c.value.outputDrives, d.srcIsLiteral = false →
    ∀ b ∈ c.value.inputBindings, Feeds c b.1 d.childSignal →
    ∀ r ∈ bindingReads n.mod b.2, level r < level d.parentSignal
  inputs : ∀ (j : Nat) c, cs[j]? = some c → ∀ b ∈ c.value.inputBindings,
    ∀ r ∈ bindingReads n.mod b.2, level r < N
  fixed : ∀ s ∈ n.mod.inputPorts, s ∉ driveTargets cs ++ n.mod.assignTargets
  unique : n.mod.inputPorts.Nodup
  ports : ∀ s ∈ n.mod.inputPorts, s < n.state.values.length
  sources : ∀ (j : Nat) c, cs[j]? = some c → ∀ d ∈ c.value.outputDrives,
    d.srcIsLiteral = false → d.childSignal < c.value.state.values.length

inductive Wired (N : Nat) : InstanceState → Prop where
  | node {n : InstanceNode} {cs : List InstanceState} (level : Nat → Nat)
      (root : WiredRoot N level n cs) (children : ∀ (j : Nat) c, cs[j]? = some c → Wired N c) :
      Wired N (.node n cs)

theorem Feeds.of_sameDesign {p : Nat} (h : Feeds t p s) (hsame : SameDesign t t') : Feeds t' p s := by
  induction h generalizing t' with
  | refl t s => exact .refl t' s
  | @assign n cs p r a ha hr h ih =>
    have hrest := ih hsame
    obtain ⟨n', cs'⟩ := t'
    have hmod : n'.mod = n.mod := hsame.value.mod
    exact .assign (hmod ▸ ha) (hmod ▸ hr) hrest
  | @child n cs p r j c d b hc hd hsrc hb hfeeds hr h ihc ih =>
    have hrest := ih hsame
    obtain ⟨n', cs'⟩ := t'
    have hmod : n'.mod = n.mod := hsame.value.mod
    obtain ⟨c', hc', hcc⟩ := hsame.symm.exists_child hc
    have hstatic := hcc.symm.value
    exact .child hc' (hstatic.outputDrives ▸ hd) hsrc (inputBindings_congr hstatic ▸ hb) (ihc hcc.symm)
      (hmod ▸ hr) hrest

theorem PlainNode.of_sameDesign {n : InstanceNode} {cs cs' : List InstanceState} (h : PlainNode n cs)
    (hsame : SameDesign (.node n cs) (.node n' cs')) : PlainNode n' cs' := by
  have hmod : n'.mod = n.mod := hsame.value.mod
  refine ⟨hmod ▸ h.noComb, ?_, ?_⟩
  · rw [hsame.driveTargets, hmod]
    exact h.single
  · intro s
    rw [hsame.driveTargets, hmod, resolved_congr hsame.root]
    exact h.resolved s

theorem WiredRoot.of_sameDesign {N : Nat} {level : Nat → Nat} {n : InstanceNode} {cs cs' : List InstanceState}
    (h : WiredRoot N level n cs) (hsame : SameDesign (.node n cs) (.node n' cs')) : WiredRoot N level n' cs' := by
  have hmod : n'.mod = n.mod := hsame.value.mod
  have hlen : n'.state.values.length = n.state.values.length := hsame.value.length
  refine ⟨h.plain.of_sameDesign hsame, ?_, ?_, ?_, ?_, ?_, ?_, ?_, ?_⟩
  · rw [hsame.driveTargets, hmod]
    exact h.range
  · rw [hmod]
    exact h.assigns
  · intro j c' hc' d hd hsrc b hb hfeeds r hr
    obtain ⟨c, hc, hcc⟩ := hsame.exists_child hc'
    rw [hcc.value.outputDrives] at hd
    rw [inputBindings_congr hcc.value] at hb
    exact h.drives j c hc d hd hsrc b hb (hfeeds.of_sameDesign hcc.symm) r (hmod ▸ hr)
  · intro j c' hc' b hb r hr
    obtain ⟨c, hc, hcc⟩ := hsame.exists_child hc'
    rw [inputBindings_congr hcc.value] at hb
    exact h.inputs j c hc b hb r (hmod ▸ hr)
  · rw [hsame.driveTargets, hmod]
    exact h.fixed
  · rw [hmod]
    exact h.unique
  · rw [hmod, hlen]
    exact h.ports
  · intro j c' hc' d hd hsrc
    obtain ⟨c, hc, hcc⟩ := hsame.exists_child hc'
    rw [hcc.value.outputDrives] at hd
    rw [hcc.value.length]
    exact h.sources j c hc d hd hsrc

theorem Wired.of_sameDesign {N : Nat} (h : Wired N t) (hsame : SameDesign t t') : Wired N t' := by
  induction h generalizing t' with
  | @node n cs level root children ih =>
    obtain ⟨n', cs'⟩ := t'
    refine .node level (root.of_sameDesign hsame) fun j c' hc' => ?_
    obtain ⟨c, hc, hcc⟩ := hsame.exists_child hc'
    exact ih j c hc hcc

inductive Idle : InstanceState → Prop where
  | node {n : InstanceNode} {cs : List InstanceState} (empty : n.state.nbaQueue = [])
      (children : ∀ (j : Nat) c, cs[j]? = some c → Idle c) : Idle (.node n cs)

theorem Idle.of_kept {K : SignalSets} (h : Kept K t t') : Idle t' := by
  induction h with
  | @node K n n' cs cs' static prev empty events get length children ih =>
    refine .node empty fun j c' hc' => ?_
    have hj : j < cs.length := by
      rw [← length]
      exact (List.getElem?_eq_some_iff.mp hc').1
    exact ih j cs[j] c' (getElem?_eq_getElem hj) hc'

/-- The signals of the instance at a path that nothing below the root writes. -/
def internal (root : Bool) (t : InstanceState) : SignalSets
  | [], s => ¬ SettleTarget t.value t.children s ∧ (root = true ∨ s ∉ t.value.inputBindings.map Prod.fst)
  | j :: p, s => ∃ c, t.children[j]? = some c ∧ internal false c p s

theorem internal_child (root : Bool) {n : InstanceNode} {cs : List InstanceState} (hc : cs[j]? = some c) :
    (internal root (.node n cs)).child j = internal false c := by
  funext p s
  simp [SignalSets.child, internal, hc]

theorem steady_internal (root : Bool) (h : Tidy t) : Steady (internal root t) t := by
  induction h generalizing root with
  | @node n cs driven events children ih =>
    have hport {j : Nat} {c : InstanceState} (hc : cs[j]? = some c) {s : Nat}
        (hs : internal root (.node n cs) [j] s) : s ∉ c.value.inputBindings.map Prod.fst := by
      obtain ⟨c', hc', -, hnot⟩ := hs
      cases hc.symm.trans hc'
      exact hnot.resolve_left (by simp)
    refine .node (fun s hs h => hs.1 h.target) driven ?_ ?_ ?_
    · intro j c hc b hb hs
      exact absurd (mem_map_of_mem hb) (hport hc hs)
    · intro j c hc s hs _
      refine written_of_not_mem ?_ _
      have hnot := hport hc hs
      simpa [portWrites, Function.comp_def] using hnot
    · intro j c hc
      rw [internal_child root hc]
      exact ih j c hc false

/-- Below the root, the signals without a driver agree. -/
inductive SameInternals : InstanceState → InstanceState → Prop where
  | node {n n' : InstanceNode} {cs cs' : List InstanceState}
      (internals : ∀ (j : Nat) c c', cs[j]? = some c → cs'[j]? = some c' →
        ∀ s, internal false c [] s → c'.value.get s = c.value.get s)
      (children : ∀ (j : Nat) c c', cs[j]? = some c → cs'[j]? = some c' → SameInternals c c') :
      SameInternals (.node n cs) (.node n' cs')

theorem sameInternals_of_kept {root : Bool} (h : Kept (internal root t) t t') (hidle : Idle t) :
    SameInternals t t' := by
  induction t using induction generalizing root t' with
  | node n cs ih =>
    cases h with
    | @node _ _ n' _ cs' static prev empty events get length children =>
      obtain ⟨_, idle⟩ := hidle
      have hkid {j : Nat} {c c' : InstanceState} (hc : cs[j]? = some c) (hc' : cs'[j]? = some c') :
          Kept (internal false c) c c' := internal_child root hc ▸ children j c c' hc hc'
      refine .node ?_ ?_
      · intro j c c' hc hc' s hs
        have hempty : c.value.state.nbaQueue = [] := by
          cases idle j c hc with
          | node empty _ => exact empty
        rw [(hkid hc hc').get_value s hs, get_applyNba_of_not_queued (not_queued_of_empty hempty s)]
      · intro j c c' hc hc'
        exact ih c (List.mem_of_getElem? hc) (hkid hc hc') (idle j c hc)

theorem WiredRoot.settleTarget_iff {N : Nat} {level : Nat → Nat} {n : InstanceNode}
    {cs : List InstanceState} (h : WiredRoot N level n cs) (s : Nat) :
    SettleTarget n cs s ↔ s ∈ driveTargets cs ++ n.mod.assignTargets := by
  simp only [SettleTarget, CompiledModule.combTargets, h.plain.noComb, flatMap_nil,
    not_mem_nil, false_or, mem_append]
  exact or_comm

theorem source_eq {c : InstanceNode} (hsrc : d.srcIsLiteral = false) (hlt : d.childSignal < c.state.values.length) :
    d.source c = some (c.get d.childSignal) := by
  rw [PortDrive.source, hsrc, if_neg (by simp), if_neg (by omega)]

theorem Settled.agree {N : Nat} (hw : Wired N t) (hsame : SameDesign t t') (h : Settled t) (h' : Settled t')
    (hint : SameInternals t t')
    (hfeeds : ∀ p, ¬ SettleTarget t.value t.children p → Feeds t p s → t'.value.get p = t.value.get p) :
    t'.value.get s = t.value.get s := by
  induction t using induction generalizing t' s with
  | node n cs ihtree =>
    obtain ⟨n', cs'⟩ := t'
    obtain ⟨level, root, wired⟩ := hw
    obtain ⟨assigns, inputs, outputs, settled⟩ := h
    obtain ⟨assigns', inputs', outputs', settled'⟩ := h'
    obtain ⟨internals, kids⟩ := hint
    -- on the level of the signal: what it depends on has a smaller one
    suffices H : ∀ k s, level s ≤ k → (∀ p, ¬ SettleTarget n cs p → Feeds (.node n cs) p s →
        n'.get p = n.get p) → n'.get s = n.get s from H (level s) s le_rfl hfeeds
    have hmod : n'.mod = n.mod := hsame.root.mod
    intro k
    induction k with
    | zero =>
      intro s hs hfeeds
      refine hfeeds s (fun htarget => ?_) (.refl _ s)
      have hpos := (root.range s ((root.settleTarget_iff s).mp htarget)).1
      omega
    | succ k ih =>
      intro s hs hfeeds
      by_cases htarget : SettleTarget n cs s
      · rcases mem_append.mp ((root.settleTarget_iff s).mp htarget) with hdrive | hassign
        · obtain ⟨c, hmem, hds⟩ := mem_flatMap.mp hdrive
          obtain ⟨d, hd, rfl⟩ := mem_map.mp hds
          obtain ⟨j, hc⟩ := mem_iff_getElem?.mp hmem
          obtain ⟨c', hc', hcc⟩ := hsame.symm.exists_child hc
          have hstatic : SameStatic c.value c'.value := hcc.symm.value
          have hout := outputs j c hc d hd
          have hout' := outputs' j c' hc' d (hstatic.outputDrives ▸ hd)
          suffices hsource : d.source c'.value = d.source c.value by
            rw [hsource, hout] at hout'
            exact (Option.some.inj hout').symm
          by_cases hsrc : d.srcIsLiteral = true
          · simp [PortDrive.source, hsrc]
          have hsrc : d.srcIsLiteral = false := by simpa using hsrc
          have hlt := root.sources j c hc d hd hsrc
          rw [source_eq hsrc hlt, source_eq hsrc (hstatic.length ▸ hlt)]
          congr 1
          refine ihtree c hmem (wired j c hc) hcc.symm (settled j c hc) (settled' j c' hc')
            (kids j c c' hc hc') fun p hp hpd => ?_
          by_cases hport : p ∈ c.value.inputBindings.map Prod.fst
          · obtain ⟨b, hb, rfl⟩ := mem_map.mp hport
            rw [inputs j c hc b hb, inputs' j c' hc' b (inputBindings_congr hstatic ▸ hb)]
            refine bindingValue_congr hmod fun r hr => ?_
            have hlt := root.drives j c hc d hd hsrc b hb hpd r hr
            exact ih r (by omega) fun q hq hqr => hfeeds q hq (.child hc hd hsrc hb hpd hr hqr)
          · exact internals j c c' hc hc' p ⟨hp, Or.inr hport⟩
        · obtain ⟨a, ha, rfl⟩ := mem_map.mp hassign
          have hdrive : a.drive n.mod n'.state.values = a.drive n.mod n.state.values := by
            refine drive_congr fun r hr => ?_
            have hlt := root.assigns a ha r hr
            exact ih r (by omega) fun p hp hpr => hfeeds p hp (.assign ha hr hpr)
          rw [assigns a ha, assigns' a (hmod ▸ ha), hmod, hdrive]
      · exact hfeeds s htarget (.refl _ s)

structure Resolves (N : Nat) (resolve : InstanceState → InstanceState × Bool) (height : Nat) : Prop where
  kept : ∀ (K : SignalSets) c, c.height < height → Steady K c → Kept K c (resolve c).1
  settled : ∀ c, c.height < height → Wired N c → Tidy c → Idle c → Settled (resolve c).1

structure IsPass (resolve : InstanceState → InstanceState × Bool) (t t' : InstanceState) : Prop where
  children : t'.children = settledKids resolve t.value t.children
  static : SameStatic t.value t'.value
  assigns : ∀ a ∈ t.value.mod.assigns,
    t'.value.get a.lhsSignal = (a.drive t.value.mod t.value.state.values).getD .Z
  outputs : ∀ c ∈ t'.children, ∀ d ∈ c.value.outputDrives, ∀ v, d.source c.value = some v →
    t'.value.get d.parentSignal = v
  others : ∀ s, s ∉ driveTargets t.children ++ t.value.mod.assignTargets →
    t'.value.get s = t.value.get s

theorem idle_withValue (h : Idle c) {n : InstanceNode} (hn : n.state.nbaQueue = c.value.state.nbaQueue) :
    Idle (c.withValue n) := by
  obtain ⟨empty, children⟩ := h
  exact .node (hn.trans empty) children

structure LoopState (N : Nat) (level : Nat → Nat) (n : InstanceNode) (cs : List InstanceState) : Prop where
  root : WiredRoot N level n cs
  wired : ∀ (j : Nat) c, cs[j]? = some c → Wired N c
  tidy : Tidy (.node n cs)
  idle : Idle (.node n cs)

section Pass

variable {N : Nat} {level : Nat → Nat} {resolve : InstanceState → InstanceState × Bool}
  {n : InstanceNode} {cs : List InstanceState}

variable {c' : InstanceState} {k : Nat}

theorem LoopState.kid (h : LoopState N level n cs) (hres : Resolves N resolve (node n cs).height)
    (hc : cs[j]? = some c) (hc' : (settledKids resolve n cs)[j]? = some c') :
    Settled c' ∧ Kept (internal true (c.withValue (propagateParentToChild n c.value).1))
      (c.withValue (propagateParentToChild n c.value).1) c' ∧ SameDesign c c' := by
  have hstatic := static_propagateParentToChild n c.value
  have hbut := sameBut_propagateParentToChild n c.value
  have hlt : c.height < (node n cs).height :=
    height_lt_of_mem (List.mem_of_getElem? hc)
  have hidle : Idle c := by
    obtain ⟨_, children⟩ := h.idle
    exact children j c hc
  have htidy : Tidy c := by
    obtain ⟨_, _, children⟩ := h.tidy
    exact children j c hc
  have hsame : SameDesign c (c.withValue (propagateParentToChild n c.value).1) :=
    sameDesign_withValue hstatic
  have hlt' : (c.withValue (propagateParentToChild n c.value).1).height < (node n cs).height := by
    simpa using hlt
  have htidy' := tidy_withValue htidy hstatic hbut.events
  have hkept := hres.kept _ _ hlt' (steady_internal true htidy')
  rw [getElem?_settledKids hc hc']
  refine ⟨?_, hkept, hsame.trans hkept.sameDesign⟩
  exact hres.settled _ hlt' ((h.wired j c hc).of_sameDesign hsame) htidy'
    (idle_withValue hidle hbut.nbaQueue)

theorem map_fst_inputBindings (c : InstanceNode) :
    (c.inputBindings.map Prod.fst).Sublist c.mod.inputPorts := by
  unfold InstanceNode.inputBindings
  split
  · exact nil_sublist _
  · rename_i hlen
    have hports : (c.mod.ports.zip c.bindings).map Prod.fst = c.mod.ports :=
      List.map_fst_zip (by omega)
    have hfilter : ((c.mod.ports.zip c.bindings).filter fun pb => pb.1.dir ≠ .output).map Prod.fst =
        c.mod.ports.filter fun p => p.dir ≠ .output := by
      rw [← hports, filter_map, hports]
      rfl
    rw [CompiledModule.inputPorts, ← hfilter, List.map_map, List.map_map]
    exact List.Sublist.refl _

theorem written_of_mem {ws : List (Nat × LogicT)} {v : LogicT} (hnodup : (ws.map Prod.fst).Nodup) (h : (s, v) ∈ ws)
    (x : LogicT) : written ws s x = v := by
  induction ws generalizing x with
  | nil => cases h
  | cons w ws ih =>
    obtain ⟨hnew, hrest⟩ := nodup_cons.mp hnodup
    rw [written_cons]
    rcases mem_cons.mp h with rfl | h
    · rw [if_pos rfl]
      exact written_of_not_mem hnew v
    · exact ih hrest h _

section

variable (h : LoopState N level n cs) (hres : Resolves N resolve (node n cs).height)

include h hres

theorem LoopState.kid_input (hc : cs[j]? = some c) (hc' : (settledKids resolve n cs)[j]? = some c')
    {b : Nat × PortBinding} (hb : b ∈ c.value.inputBindings) : c'.value.get b.1 = bindingValue n b.2 := by
  obtain ⟨-, hkept, -⟩ := h.kid hres hc hc'
  have hport : b.1 ∈ c.value.mod.inputPorts :=
    (map_fst_inputBindings c.value).subset (mem_map_of_mem hb)
  have hidle : c.value.state.nbaQueue = [] := by
    obtain ⟨_, children⟩ := h.idle
    cases children j c hc with
    | node empty _ => exact empty
  have hbut := sameBut_propagateParentToChild n c.value
  have hwired := h.wired j c hc
  obtain ⟨cn, ccs⟩ := c
  obtain ⟨level', croot, _⟩ := hwired
  have hinternal : internal true (.node (propagateParentToChild n cn).1 ccs) [] b.1 :=
    ⟨fun htarget => croot.fixed b.1 hport ((croot.settleTarget_iff b.1).mp htarget), Or.inl rfl⟩
  have hempty : (propagateParentToChild n cn).1.state.nbaQueue = [] := hbut.nbaQueue.trans hidle
  have hget : c'.value.get b.1 = (propagateParentToChild n cn).1.get b.1 :=
    (hkept.get_value b.1 hinternal).trans
      (get_applyNba_of_not_queued (not_queued_of_empty hempty b.1))
  have hnodup : ((portWrites n cn).map Prod.fst).Nodup := by
    have hsub := (map_fst_inputBindings cn).nodup croot.unique
    simpa [portWrites, Function.comp_def] using hsub
  rw [hget, get_propagateParentToChild, if_pos (croot.ports b.1 hport)]
  exact written_of_mem hnodup (mem_map_of_mem hb) _

theorem LoopState.sameDesign_kids (hn : SameStatic n n') :
    SameDesign (.node n cs) (.node n' (settledKids resolve n cs)) :=
  .node hn (by simp [settledKids]) fun _ _ _ hc hc' => (h.kid hres hc hc').2.2

theorem LoopState.resolves_kids (hn : SameStatic n n') :
    Resolves N resolve (node n' (settledKids resolve n cs)).height := by
  rw [RoseTree.Rel.height (h.sameDesign_kids hres hn)]
  exact hres

end

def epoch (n : InstanceNode) : InstanceNode := { n with state := n.state.beginChangeEpoch }

theorem static_epoch (n : InstanceNode) : SameStatic n (epoch n) := ⟨rfl, rfl, rfl, fun _ => rfl, rfl⟩

theorem LoopState.isPass (h : LoopState N level n cs)
    (hres : Resolves N resolve (node n cs).height) (tick : UInt64) (token : UInt32) (any : Bool) :
    IsPass resolve (.node n cs) (settlePass resolve tick token any (.node (epoch n) cs)).1 ∧
      ((settlePass resolve tick token any (.node (epoch n) cs)).2 = false →
        ∀ s, (settlePass resolve tick token any (.node (epoch n) cs)).1.value.get s = n.get s) := by
  have hkids : settledKids resolve (epoch n) cs = settledKids resolve n cs := rfl
  have hplain : PlainNode (epoch n) (settledKids resolve n cs) :=
    h.root.plain.of_sameDesign (h.sameDesign_kids hres (static_epoch n))
  have hempty : (epoch n).state.nbaQueue = [] := by
    obtain ⟨empty, _⟩ := h.idle
    exact empty
  have hdrives := (h.sameDesign_kids hres (static_epoch n)).driveTargets
  rw [settlePass_fst, hkids]
  constructor
  · refine ⟨rfl, ?_, ?_, ?_, ?_⟩
    · have hprep : SameStatic (epoch n) (prepareNetDrives (epoch n)) :=
        (frame_prepareNetDrives (T := fun _ => True) (E := fun _ => True) (epoch n)).static
      exact (static_epoch n).trans (hprep.trans (static_settleRoot tick token any _ _))
    · intro a ha
      exact get_settleRoot_assign hplain hempty tick token any ha
    · intro c hc d hd v hv
      exact get_settleRoot_output hplain hempty tick token any hc hd hv
    · intro s hs
      have hnot : (epoch n).resolved s = false := by
        rw [resolved_congr (static_epoch n), ← Bool.not_eq_true, h.root.plain.resolved]
        exact hs
      exact (get_settleRoot hplain hempty tick token any s).trans (by rw [hnot]; rfl)
  · intro hchanged s
    have hroot : (settleRoot tick token any (prepareNetDrives (epoch n)) (settledKids resolve n cs)).2 =
        false := by
      simp only [settlePass, Bool.or_eq_false_iff] at hchanged
      have hkids' : (cs.map fun c => resolve (c.withValue
          (propagateParentToChild (prepareNetDrives (epoch n)) c.value).1)).map Prod.fst =
          settledKids resolve n cs := by
        simp only [settledKids, List.map_map]
        rfl
      rw [← hkids']
      exact hchanged.1
    exact get_settleRoot_of_not_changed hplain hempty hroot s

/-- `Stable resolve level k t`: one more pass over `t` changes no signal up to level `k`. -/
def Stable (resolve : InstanceState → InstanceState × Bool) (level : Nat → Nat) (k : Nat)
    (t : InstanceState) : Prop :=
  ∀ t', IsPass resolve t t' → ∀ s, level s ≤ k → t'.value.get s = t.value.get s

theorem LoopState.stable_zero (h : LoopState N level n cs) : Stable resolve level 0 (.node n cs) := by
  intro t' hpass s hs
  refine hpass.others s fun hmem => ?_
  have hpos := (h.root.range s hmem).1
  omega

theorem WiredRoot.source_isSome (h : WiredRoot N level n cs) (hc : cs[j]? = some c) (hd : d ∈ c.value.outputDrives) :
    (d.source c.value).isSome := by
  by_cases hsrc : d.srcIsLiteral = true
  · simp [PortDrive.source, hsrc]
  · have hsrc : d.srcIsLiteral = false := by simpa using hsrc
    rw [source_eq hsrc (h.sources j c hc d hd hsrc)]
    rfl

section

variable (h : LoopState N level n cs) (hres : Resolves N resolve (node n cs).height)

include h hres

/-- An output of a child does not change in the second of two passes, when the first of
them left the signals of smaller level alone. -/
theorem LoopState.kid_agree (hstep : ∀ s, level s ≤ k → n'.get s = n.get s) (hstatic : SameStatic n n')
    (h' : LoopState N level n' (settledKids resolve n cs)) {c'' : InstanceState}
    (hc' : (settledKids resolve n cs)[j]? = some c')
    (hc'' : (settledKids resolve n' (settledKids resolve n cs))[j]? = some c'') (hd : d ∈ c'.value.outputDrives)
    (hs : level d.parentSignal ≤ k + 1) :
    SameDesign c' c'' ∧ d.source c''.value = d.source c'.value := by
  have hsame := h.sameDesign_kids hres hstatic
  have hres' := h.resolves_kids hres hstatic
  obtain ⟨c, hc, -⟩ := hsame.exists_child hc'
  obtain ⟨hsettled, -, hcc⟩ := h.kid hres hc hc'
  obtain ⟨hsettled', hkept, hcc'⟩ := h'.kid hres' hc' hc''
  refine ⟨hcc', ?_⟩
  by_cases hsrc : d.srcIsLiteral = true
  · simp [PortDrive.source, hsrc]
  have hsrc : d.srcIsLiteral = false := by simpa using hsrc
  have hlt := h'.root.sources j c' hc' d hd hsrc
  rw [source_eq hsrc hlt, source_eq hsrc (hcc'.value.length ▸ hlt)]
  congr 1
  have hidle : Idle c' := by
    obtain ⟨_, children⟩ := h'.idle
    exact children j c' hc'
  have hbut := sameBut_propagateParentToChild n' c'.value
  have hidle' := idle_withValue hidle hbut.nbaQueue
  have hint : SameInternals c' c'' := by
    have hint' := sameInternals_of_kept hkept hidle'
    obtain ⟨cn, ccs⟩ := c'
    obtain ⟨internals, children⟩ := hint'
    exact .node internals children
  refine Settled.agree (h'.wired j c' hc') hcc' hsettled hsettled' hint fun p hp hpd => ?_
  by_cases hport : p ∈ c'.value.inputBindings.map Prod.fst
  · obtain ⟨b, hb, rfl⟩ := mem_map.mp hport
    have hb' : b ∈ c.value.inputBindings := inputBindings_congr hcc.value ▸ hb
    rw [h.kid_input hres hc hc' hb', h'.kid_input hres' hc' hc'' hb]
    refine bindingValue_congr hstatic.mod fun r hr => hstep r ?_
    have hlevel := h'.root.drives j c' hc' d hd hsrc b hb hpd r (hstatic.mod ▸ hr)
    omega
  · have hinternal : internal true (c'.withValue (propagateParentToChild n' c'.value).1) [] p :=
      ⟨hp, Or.inl rfl⟩
    have hempty : (propagateParentToChild n' c'.value).1.state.nbaQueue = [] := by
      obtain ⟨cn, ccs⟩ := c'
      obtain ⟨empty, _⟩ := hidle'
      exact empty
    have hnot : p ∉ (portWrites n' c'.value).map Prod.fst := by
      simpa [portWrites, Function.comp_def] using hport
    refine (hkept.get_value p hinternal).trans
      ((get_applyNba_of_not_queued (not_queued_of_empty hempty p)).trans ?_)
    rw [get_propagateParentToChild, written_of_not_mem hnot]
    by_cases hlen : p < c'.value.state.values.length
    · rw [if_pos hlen]
    · simp [hlen, InstanceNode.get, ModuleState.get]

theorem LoopState.stable_succ (hstable : Stable resolve level k (.node n cs))
    (hpass : IsPass resolve (.node n cs) (.node n' (settledKids resolve n cs)))
    (h' : LoopState N level n' (settledKids resolve n cs)) :
    Stable resolve level (k + 1) (.node n' (settledKids resolve n cs)) := by
  intro t'' hpass' s hs
  have hstep := hstable _ hpass
  have hmod : n'.mod = n.mod := hpass.static.mod
  have hsame := h.sameDesign_kids hres hpass.static
  by_cases hmem : s ∈ driveTargets (settledKids resolve n cs) ++ n'.mod.assignTargets
  · rcases mem_append.mp hmem with hdrive | hassign
    · obtain ⟨c', hmem', hds⟩ := mem_flatMap.mp hdrive
      obtain ⟨d, hd, rfl⟩ := mem_map.mp hds
      obtain ⟨j, hc'⟩ := mem_iff_getElem?.mp hmem'
      have hlt : j < (settledKids resolve n' (settledKids resolve n cs)).length := by
        have hj := (List.getElem?_eq_some_iff.mp hc').1
        simpa [settledKids] using hj
      have hc'' := getElem?_eq_getElem hlt
      have hmem'' : (settledKids resolve n' (settledKids resolve n cs))[j] ∈ t''.children := by
        rw [hpass'.children]
        exact List.mem_of_getElem? hc''
      obtain ⟨hdesign, hagree⟩ := h.kid_agree hres hstep hpass.static h' hc' hc'' hd hs
      obtain ⟨v, hv⟩ := Option.isSome_iff_exists.mp (h'.root.source_isSome hc' hd)
      have hbefore := hpass.outputs c' hmem' d hd v hv
      have hnow := hpass'.outputs _ hmem'' d (hdesign.value.outputDrives ▸ hd) v (hagree.trans hv)
      exact hnow.trans hbefore.symm
    · obtain ⟨a, ha, rfl⟩ := mem_map.mp hassign
      have hdrive : a.drive n.mod n'.state.values = a.drive n.mod n.state.values := by
        refine drive_congr fun r hr => ?_
        have hlt := h.root.assigns a (hmod ▸ ha) r hr
        exact hstep r (by omega)
      have hnow := hpass'.assigns a ha
      have hbefore := hpass.assigns a (hmod ▸ ha)
      simp only [value_node] at hnow hbefore ⊢
      rw [hnow, hbefore, hmod, hdrive]
  · exact hpass'.others s hmem

theorem LoopState.settled_of_pass (hpass : IsPass resolve (.node n cs) (.node n' (settledKids resolve n cs)))
    (hsame : ∀ s, level s < N → n'.get s = n.get s) :
    Settled (.node n' (settledKids resolve n cs)) := by
  have hmod : n'.mod = n.mod := hpass.static.mod
  have hdesign := h.sameDesign_kids hres hpass.static
  refine .node ?_ ?_ ?_ ?_
  · intro a ha
    rw [hmod] at ha
    have hdrive : a.drive n.mod n'.state.values = a.drive n.mod n.state.values := by
      refine drive_congr fun r hr => hsame r ?_
      have hlt := h.root.assigns a ha r hr
      have hrange := (h.root.range a.lhsSignal
        (mem_append_right _ (mem_map_of_mem ha))).2
      omega
    have hget := hpass.assigns a ha
    simp only [value_node] at hget
    rw [hget, hmod, hdrive]
  · intro j c' hc' b hb
    obtain ⟨c, hc, hcc⟩ := hdesign.exists_child hc'
    rw [inputBindings_congr hcc.value] at hb
    rw [h.kid_input hres hc hc' hb]
    exact (bindingValue_congr hmod fun r hr => hsame r (h.root.inputs j c hc b hb r hr)).symm
  · intro j c' hc' d hd
    obtain ⟨c, hc, hcc⟩ := hdesign.exists_child hc'
    have hsome := (h.root.of_sameDesign hdesign).source_isSome hc' hd
    obtain ⟨v, hv⟩ := Option.isSome_iff_exists.mp hsome
    have hget := hpass.outputs c' (List.mem_of_getElem? hc') d hd v hv
    simp only [value_node] at hget
    rw [hv, hget]
  · intro j c' hc'
    obtain ⟨c, hc, -⟩ := hdesign.exists_child hc'
    exact (h.kid hres hc hc').1

theorem LoopState.next (tick : UInt64) (token : UInt32) (any : Bool)
    (hn : (settlePass resolve tick token any (.node (epoch n) cs)).1 = .node n' (settledKids resolve n cs)) :
    LoopState N level n' (settledKids resolve n cs) := by
  have hkept : Kept (fun _ _ => False) (.node n cs)
      (settlePass resolve tick token any (.node (epoch n) cs)).1 :=
    kept_settlePass_epoch tick token any hres.kept h.tidy.steady
  rw [hn] at hkept
  have hsame := hkept.sameDesign
  refine ⟨h.root.of_sameDesign hsame, ?_, h.tidy.of_kept hkept, Idle.of_kept hkept⟩
  intro j c' hc'
  obtain ⟨c, hc, hcc⟩ := hsame.exists_child hc'
  exact (h.wired j c hc).of_sameDesign hcc

end

theorem settleLoop_succ (resolve : InstanceState → InstanceState × Bool) (tick : UInt64) (iters : Nat)
    (token : UInt32) (any : Bool) (n : InstanceNode) (cs : List InstanceState) :
    ∃ token' any', (settleLoop resolve tick (iters + 1) token any (.node n cs)).inst =
      if (settlePass resolve tick token any (.node (epoch n) cs)).2 = false
        then (settlePass resolve tick token any (.node (epoch n) cs)).1
        else (settleLoop resolve tick iters token' any'
          (settlePass resolve tick token any (.node (epoch n) cs)).1).inst := by
  refine ⟨(epoch n).state.changeToken, (settlePass resolve tick token any
    (.node (epoch n) cs)).1.value.state.changedSignals ≠ [], ?_⟩
  rw [settleLoop]
  simp only [value_node, withValue_node, Bool.not_eq_true']
  change (if (settlePass resolve tick token any (.node (epoch n) cs)).2 = false then _ else _ : Settling).inst = _
  split
  · rfl
  · rfl

theorem settled_settleLoop (iters : Nat) (hk : k + (iters + 1) = N) (tick : UInt64) (token : UInt32) (any : Bool)
    (hres : Resolves N resolve (node n cs).height) (h : LoopState N level n cs)
    (hstable : Stable resolve level k (.node n cs)) :
    Settled (settleLoop resolve tick (iters + 1) token any (.node n cs)).inst := by
  induction iters generalizing k token any n cs with
  | zero =>
    obtain ⟨token', any', hloop⟩ := settleLoop_succ resolve tick 0 token any n cs
    obtain ⟨hpass, -⟩ := h.isPass hres tick token any
    have hinst : (settleLoop resolve tick (0 + 1) token any (.node n cs)).inst =
        (settlePass resolve tick token any (.node (epoch n) cs)).1 := by
      rw [hloop]
      split <;> rfl
    have hlast := hstable _ hpass
    rw [hinst]
    rw [settlePass_fst] at hpass hlast ⊢
    exact h.settled_of_pass hres hpass fun s hs => hlast s (by omega)
  | succ iters ih =>
    obtain ⟨token', any', hloop⟩ := settleLoop_succ resolve tick (iters + 1) token any n cs
    obtain ⟨hpass, hunchanged⟩ := h.isPass hres tick token any
    have hnext (n' : InstanceNode) (hn : (settlePass resolve tick token any (.node (epoch n) cs)).1 =
        .node n' (settledKids resolve n cs)) : LoopState N level n' (settledKids resolve n cs) :=
      h.next hres tick token any hn
    rw [hloop]
    split
    · rename_i hchanged
      have hall := hunchanged hchanged
      rw [settlePass_fst] at hpass hall ⊢
      exact h.settled_of_pass hres hpass fun s _ => hall s
    · rw [settlePass_fst] at hpass hnext ⊢
      have h' := hnext _ rfl
      exact ih (by omega) token' any' (h.resolves_kids hres hpass.static) h'
        (h.stable_succ hres hstable hpass h')

end Pass

end PhyEngine.Verilog
