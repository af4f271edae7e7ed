import PhyEngine.Verilog.Frame

/-!
# Signals that settling does not move

In a tree that is `Steady` for `K`, settling leaves the signals of `K` alone, except that it
applies the pending non-blocking assignments: nothing else writes them in the call, and a port
among them reads signals of `K` of the parent and is in place already.
-/

namespace PhyEngine.Verilog

open ModuleState List RoseTree

/-- A set of signals for every instance, named by its path. -/
abbrev SignalSets := List Nat → Nat → Prop

def SignalSets.child (K : SignalSets) (j : Nat) : SignalSets := fun p => K (j :: p)

def bindingReads (m : CompiledModule) : PortBinding → List Nat
  | .unconnected | .literal _ => []
  | .parentSignal s => [s]
  | .parentExprRoot root => exprReads m root

variable {n : InstanceNode} {s : Nat} {cs : List InstanceState} {t t' c : InstanceState}

theorem bindingValue_congr {n' : InstanceNode} (hmod : n'.mod = n.mod) {b : PortBinding}
    (h : ∀ s ∈ bindingReads n.mod b, n'.get s = n.get s) : bindingValue n' b = bindingValue n b := by
  cases b with
  | unconnected => rfl
  | literal v => rfl
  | parentSignal s => exact h s (by simp [bindingReads])
  | parentExprRoot root =>
    simp only [bindingValue, hmod]
    exact evalExpr_congr h

/-- The signals that settling writes at an instance, apart from its ports. -/
def SettleTarget (n : InstanceNode) (cs : List InstanceState) (s : Nat) : Prop :=
  s ∈ n.mod.combTargets ∨ s ∈ n.mod.assignTargets ∨ s ∈ driveTargets cs

/-- Those that it writes in the same call. -/
def SettleWrites (n : InstanceNode) (cs : List InstanceState) (s : Nat) : Prop :=
  s ∈ n.mod.combWrites ∨ s ∈ n.mod.assignTargets ∨ s ∈ driveTargets cs

instance (n : InstanceNode) (cs : List InstanceState) (s : Nat) : Decidable (SettleWrites n cs s) :=
  inferInstanceAs (Decidable (_ ∨ _ ∨ _))

theorem SettleWrites.target (h : SettleWrites n cs s) : SettleTarget n cs s :=
  h.imp_left CompiledModule.combTargets_of_writes

/-- The signals that have a pending non-blocking assignment. -/
def Queued (n : InstanceNode) (s : Nat) : Prop := s ∈ n.state.nbaQueue.map Prod.fst

/-- `Steady K t`: settling `t` leaves the signals of `K` to the pending assignments. -/
inductive Steady : SignalSets → InstanceState → Prop where
  | node {K : SignalSets} {n : InstanceNode} {cs : List InstanceState}
      (apart : ∀ s, K [] s → ¬ SettleWrites n cs s)
      (driven : ∀ s, n.isDriven s = true → n.mod.isReg s = false → SettleWrites n cs s)
      (ports : ∀ j c, cs[j]? = some c → ∀ b ∈ c.value.inputBindings, K [j] b.1 →
        ¬ Queued c.value b.1 ∧ ∀ r ∈ bindingReads n.mod b.2, K [] r ∧ ¬ Queued n r)
      (inPlace : ∀ j c, cs[j]? = some c → ∀ s, K [j] s → s < c.value.state.values.length →
        written (portWrites n c.value) s (c.value.get s) = c.value.get s)
      (children : ∀ j c, cs[j]? = some c → Steady (K.child j) c) : Steady K (.node n cs)

/-- `Kept K t t'`: `t'` differs from `t` in no signal of `K`, but for the pending
assignments, which have been applied. -/
inductive Kept : SignalSets → InstanceState → InstanceState → Prop where
  | node {K : SignalSets} {n n' : InstanceNode} {cs cs' : List InstanceState}
      (static : SameStatic n n')
      (prev : n'.state.prevValues = n.state.prevValues)
      (empty : n'.state.nbaQueue = [])
      (events : ∀ ev ∈ n'.state.events, ev ∈ n.state.events ∨ n.mod.CombEvent ev)
      (get : ∀ s, K [] s → n'.get s = (applyNba n.state).1.get s)
      (length : cs'.length = cs.length)
      (children : ∀ j c c', cs[j]? = some c → cs'[j]? = some c' → Kept (K.child j) c c') :
      Kept K (.node n cs) (.node n' cs')

theorem get_applyNba (st : ModuleState) (s : Nat) :
    (applyNba st).1.get s = if s < st.values.length then written st.nbaQueue s (st.get s) else .X :=
  get_assignAll st st.nbaQueue s

theorem get_applyNba_of_not_queued (h : ¬ Queued n s) :
    (applyNba n.state).1.get s = n.get s := by
  rw [get_applyNba, written_of_not_mem h]
  by_cases hlt : s < n.state.values.length
  · simp [hlt, InstanceNode.get]
  · simp [hlt, InstanceNode.get, ModuleState.get]

theorem not_queued_of_empty (h : n.state.nbaQueue = []) (s : Nat) : ¬ Queued n s := by
  simp [Queued, h]

/-- The queue has the same effect on a signal when the signal is untouched and the queue
was only extended by assignments to other signals. -/
theorem get_applyNba_of_frame {T E : Nat → Prop} {st st' : ModuleState} (h : StateFrame T E st st') (hs : ¬ T s) :
    (applyNba st').1.get s = (applyNba st).1.get s := by
  obtain ⟨ws, hws, hT⟩ := h.nba
  have hnot : s ∉ ws.map Prod.fst := by
    intro hmem
    obtain ⟨w, hw, rfl⟩ := mem_map.mp hmem
    exact hs (hT w hw)
  rw [get_applyNba, get_applyNba, h.length, hws, written_append, written_of_not_mem hnot, h.get s hs]

theorem driveTargets_congr {cs' : List InstanceState} (hlen : cs'.length = cs.length)
    (h : ∀ (j : Nat) (c c' : InstanceState), cs[j]? = some c → cs'[j]? = some c' →
      c'.value.outputDrives = c.value.outputDrives) :
    driveTargets cs' = driveTargets cs := by
  induction cs generalizing cs' with
  | nil => rw [length_eq_zero_iff.mp hlen]
  | cons c cs ih =>
    obtain ⟨c', cs', rfl⟩ := exists_cons_of_length_eq_add_one hlen
    have hrest := ih (by simpa using hlen) fun j d d' hd hd' => h (j + 1) d d' hd hd'
    simp only [driveTargets, flatMap_cons] at hrest ⊢
    rw [h 0 c c' rfl rfl, hrest]

namespace Kept

variable {K : SignalSets}

theorem static_value (h : Kept K t t') : SameStatic t.value t'.value := by
  obtain ⟨static, _, _, _, _, _, _⟩ := h
  exact static

theorem trans {a b : InstanceState} (h : Kept K a b) (h' : Kept K b c) : Kept K a c := by
  induction h generalizing c with
  | @node K n n' cs cs' static prev empty events get length children ih =>
    cases h' with
    | @node _ _ n'' _ cs'' static' prev' empty' events' get' length' children' =>
      refine .node (static.trans static') (prev'.trans prev) empty' ?_ ?_ (length'.trans length) ?_
      · intro ev hev
        rcases events' ev hev with hev | hev
        · exact events ev hev
        · exact Or.inr (static.mod ▸ hev)
      · intro s hs
        rw [get' s hs, get_applyNba_of_not_queued (not_queued_of_empty empty s), get s hs]
      · intro j c c'' hc hc''
        have hj : j < cs'.length := by
          rw [length]
          exact (List.getElem?_eq_some_iff.mp hc).1
        have hc' : cs'[j]? = some cs'[j] := getElem?_eq_getElem hj
        exact ih j c _ hc hc' (children' j _ c'' hc' hc'')

theorem get_value (h : Kept K t t') (s : Nat) (hs : K [] s) :
    t'.value.get s = (applyNba t.value.state).1.get s := by
  obtain ⟨_, _, _, _, get, _, _⟩ := h
  exact get s hs

theorem set_combPrev {values : List LogicT} (h : Kept K t t') :
    Kept K t (t'.withValue { t'.value with state := { t'.value.state with combPrevValues := values } }) := by
  obtain ⟨static, prev, empty, events, get, length, children⟩ := h
  obtain ⟨hmod, hbind, hout, hdr, hlen⟩ := static
  exact .node ⟨hmod, hbind, hout, hdr, hlen⟩ prev empty events get length children

theorem of_root {n₁ : InstanceNode} (h : Kept K (.node n₁ cs) t') (static : SameStatic n n₁)
    (hprev : n₁.state.prevValues = n.state.prevValues) (hnba : n₁.state.nbaQueue = n.state.nbaQueue)
    (hevents : n₁.state.events = n.state.events) (hget : ∀ s, K [] s → n₁.get s = n.get s) :
    Kept K (.node n cs) t' := by
  obtain ⟨static', prev, empty, events, get, length, children⟩ := h
  refine .node (static.trans static') (prev.trans hprev) empty ?_ ?_ length children
  · simpa only [static.mod, hevents] using events
  intro s hs
  have hsame : n₁.state.get s = n.state.get s := hget s hs
  rw [get s hs, get_applyNba, get_applyNba, hnba, static.length, hsame]

theorem height (h : Kept K t t') : t'.height = t.height := by
  induction h with
  | @node K n n' cs cs' static prev empty events get length children ih =>
    exact height_node_congr length ih

end Kept

theorem inputBindings_congr {c c' : InstanceNode} (h : SameStatic c c') :
    c'.inputBindings = c.inputBindings := by
  simp only [InstanceNode.inputBindings, h.mod, h.bindings]

theorem get_propagateParentToChild (n c : InstanceNode) (s : Nat) :
    (propagateParentToChild n c).1.get s =
      if s < c.state.values.length then written (portWrites n c) s (c.get s) else .X :=
  get_assignAll _ _ s

theorem static_propagateParentToChild (n c : InstanceNode) :
    SameStatic c (propagateParentToChild n c).1 :=
  ⟨rfl, rfl, rfl, fun _ => rfl, (sameBut_assignAll _ _).length⟩

theorem sameBut_propagateParentToChild (n c : InstanceNode) :
    SameBut c.state (propagateParentToChild n c).1.state := sameBut_assignAll _ _

theorem written_map_congr {β : Type} {bs : List (Nat × β)} {f g : Nat × β → LogicT} (h : ∀ b ∈ bs, b.1 = s → f b = g b)
    (v : LogicT) :
    written (bs.map fun b => (b.1, f b)) s v = written (bs.map fun b => (b.1, g b)) s v := by
  induction bs generalizing v with
  | nil => rfl
  | cons b bs ih =>
    have hrest := ih fun b' hb' => h b' (mem_cons_of_mem _ hb')
    rw [map_cons, map_cons, written_cons, written_cons, hrest]
    by_cases hb : b.1 = s
    · simp only [hb, if_true, h b mem_cons_self hb]
    · simp only [hb, if_false]

namespace Steady

variable {K : SignalSets}

theorem of_root {n' : InstanceNode} (h : Steady K (.node n cs)) (static : SameStatic n n')
    (hnba : n'.state.nbaQueue = n.state.nbaQueue) (hget : ∀ s, K [] s → n'.get s = n.get s) :
    Steady K (.node n' cs) := by
  have hqueued (s : Nat) : Queued n' s ↔ Queued n s := by rw [Queued, Queued, hnba]
  obtain ⟨apart, driven, ports, inPlace, children⟩ := h
  refine .node ?_ ?_ ?_ ?_ children
  · intro s hs
    rw [SettleWrites, static.mod]
    exact apart s hs
  · intro s hd hr
    rw [SettleWrites, static.mod]
    exact driven s (static.isDriven s ▸ hd) (static.mod ▸ hr)
  · intro j c hc b hb hK
    obtain ⟨hq, hreads⟩ := ports j c hc b hb hK
    refine ⟨hq, fun r hr => ?_⟩
    rw [static.mod] at hr
    rw [hqueued]
    exact hreads r hr
  · intro j c hc s hs hlt
    have hsame : written (portWrites n' c.value) s (c.value.get s) =
        written (portWrites n c.value) s (c.value.get s) := by
      refine written_map_congr ?_ _
      intro b hb heq
      have hreads := (ports j c hc b hb (heq ▸ hs)).2
      exact bindingValue_congr static.mod fun r hr => hget r (hreads r hr).1
    rw [hsame]
    exact inPlace j c hc s hs hlt

theorem enter (h : Steady K (.node n cs)) {j : Nat} (hc : cs[j]? = some c) :
    Steady (K.child j) (c.withValue (propagateParentToChild n c.value).1) ∧
      ∀ s, K [j] s → (propagateParentToChild n c.value).1.get s = c.value.get s := by
  obtain ⟨apart, driven, ports, inPlace, children⟩ := h
  have hget : ∀ s, K [j] s → (propagateParentToChild n c.value).1.get s = c.value.get s := by
    intro s hs
    rw [get_propagateParentToChild]
    by_cases hlt : s < c.value.state.values.length
    · simp [hlt, inPlace j c hc s hs hlt]
    · simp [hlt, InstanceNode.get, ModuleState.get]
  refine ⟨?_, hget⟩
  have hsteady := children j c hc
  obtain ⟨cn, ccs⟩ := c
  exact hsteady.of_root (static_propagateParentToChild n cn)
    (sameBut_propagateParentToChild n cn).nbaQueue hget

theorem of_kept (h : Steady K t) (hk : Kept K t t') : Steady K t' := by
  induction hk with
  | @node K n n' cs cs' static prev empty events get length hkids ih =>
    obtain ⟨apart, driven, ports, inPlace, children⟩ := h
    have hkid {j : Nat} {c' : InstanceState} (hc' : cs'[j]? = some c') :
        ∃ c, cs[j]? = some c ∧ Kept (K.child j) c c' := by
      have hj : j < cs.length := by
        rw [← length]
        exact (List.getElem?_eq_some_iff.mp hc').1
      exact ⟨cs[j], getElem?_eq_getElem hj, hkids j _ c' (getElem?_eq_getElem hj) hc'⟩
    have hdrives : driveTargets cs' = driveTargets cs :=
      driveTargets_congr length fun j c c' hc hc' => (hkids j c c' hc hc').static_value.outputDrives
    refine .node ?_ ?_ ?_ ?_ ?_
    · intro s hs
      rw [SettleWrites, static.mod, hdrives]
      exact apart s hs
    · intro s hd hr
      rw [SettleWrites, static.mod, hdrives]
      exact driven s (static.isDriven s ▸ hd) (static.mod ▸ hr)
    · intro j c' hc' b hb hK
      obtain ⟨c, hc, hcc⟩ := hkid hc'
      rw [inputBindings_congr hcc.static_value] at hb
      obtain ⟨-, hreads⟩ := ports j c hc b hb hK
      refine ⟨?_, fun r hr => ⟨(hreads r (static.mod ▸ hr)).1, not_queued_of_empty empty r⟩⟩
      cases hcc with
      | node _ _ empty' _ _ _ _ => exact not_queued_of_empty empty' _
    · intro j c' hc' s hs hlt
      obtain ⟨c, hc, hcc⟩ := hkid hc'
      rw [hcc.static_value.length] at hlt
      have hbs := inputBindings_congr hcc.static_value
      by_cases hport : ∃ b ∈ c.value.inputBindings, b.1 = s
      · obtain ⟨b₀, hb₀, rfl⟩ := hport
        have hsame : c'.value.get b₀.1 = c.value.get b₀.1 := by
          rw [hcc.get_value _ hs, get_applyNba_of_not_queued (ports j c hc b₀ hb₀ hs).1]
        have hwrites : written (portWrites n' c'.value) b₀.1 (c.value.get b₀.1) =
            written (portWrites n c.value) b₀.1 (c.value.get b₀.1) := by
          rw [portWrites, hbs]
          refine written_map_congr ?_ _
          intro b hb heq
          refine bindingValue_congr static.mod fun r hr => ?_
          obtain ⟨hr', hq⟩ := (ports j c hc b hb (heq ▸ hs)).2 r hr
          rw [get r hr', get_applyNba_of_not_queued hq]
        rw [hsame, hwrites]
        exact inPlace j c hc _ hs hlt
      · refine written_of_not_mem (fun hmem => hport ?_) _
        obtain ⟨w, hw, rfl⟩ := mem_map.mp hmem
        obtain ⟨b, hb, rfl⟩ := mem_map.mp hw
        exact ⟨b, hbs ▸ hb, rfl⟩
    · intro j c' hc'
      obtain ⟨c, hc, hcc⟩ := hkid hc'
      exact ih j c c' hc hc' (children j c hc)

end Steady

section Passes

variable {K : SignalSets} {resolve : InstanceState → InstanceState × Bool} {tick : UInt64}

variable {token : UInt32} {any : Bool}

theorem settleRoot_spec {kids : List InstanceState} {T : Nat → Prop} (hcomb : ∀ s ∈ n.mod.combWrites, T s)
    (hassign : ∀ s ∈ n.mod.assignTargets, T s) (hdrive : ∀ s ∈ driveTargets kids, T s)
    (hdriven : ∀ s, n.isDriven s = true → n.mod.isReg s = false → T s) :
    ∃ n₁, NodeFrame T (fun _ => True) n n₁ ∧
      (settleRoot tick token any n kids).1 = { n₁ with state := (applyNba n₁.state).1 } := by
  have hkids : NodeFrame T (fun _ => True) n (kids.foldl (fun n c => propagateChildToParent c.value n) n) := by
    refine NodeFrame.foldl fun c hc n' _ => frame_propagateChildToParent fun d hd => hdrive _ ?_
    exact mem_flatMap.mpr ⟨c, hc, mem_map_of_mem hd⟩
  have hlocal : NodeFrame T (fun _ => True) n (runCombLocal tick token any
      (kids.foldl (fun n c => propagateChildToParent c.value n) n)).1 := by
    refine hkids.trans (frame_runCombLocal ?_ ?_)
    · rw [hkids.static.mod]
      exact hcomb
    · rw [hkids.static.mod]
      exact hassign
  refine ⟨_, hlocal.trans (frame_applyNetDrives ?_), rfl⟩
  intro s hd hr
  rw [hlocal.static.isDriven] at hd
  rw [hlocal.static.mod] at hr
  exact hdriven s hd hr

theorem static_settleRoot (tick : UInt64) (token : UInt32) (any : Bool) (n : InstanceNode)
    (kids : List InstanceState) : SameStatic n (settleRoot tick token any n kids).1 := by
  have hspec : ∃ n₁, NodeFrame (fun _ => True) (fun _ => True) n n₁ ∧
      (settleRoot tick token any n kids).1 = { n₁ with state := (applyNba n₁.state).1 } :=
    settleRoot_spec (fun _ _ => trivial) (fun _ _ => trivial) (fun _ _ => trivial) fun _ _ _ => trivial
  obtain ⟨n₁, ⟨⟨hmod, hbind, hout, hdriven, hlen⟩, -⟩, hroot⟩ := hspec
  rw [hroot]
  exact ⟨hmod, hbind, hout, hdriven, (sameBut_assignAll _ _).length.trans hlen⟩

def settledKids (resolve : InstanceState → InstanceState × Bool) (n : InstanceNode)
    (cs : List InstanceState) : List InstanceState :=
  cs.map fun c => (resolve (c.withValue (propagateParentToChild n c.value).1)).1

theorem settlePass_fst (resolve : InstanceState → InstanceState × Bool) (tick : UInt64) (token : UInt32)
    (any : Bool) (n : InstanceNode) (cs : List InstanceState) :
    (settlePass resolve tick token any (.node n cs)).1 =
      .node (settleRoot tick token any (prepareNetDrives n) (settledKids resolve n cs)).1
        (settledKids resolve n cs) := by
  simp only [settlePass, settledKids, map_map]
  rfl

theorem getElem?_settledKids {j : Nat} {c' : InstanceState} (hc : cs[j]? = some c)
    (hc' : (settledKids resolve n cs)[j]? = some c') :
    c' = (resolve (c.withValue (propagateParentToChild n c.value).1)).1 := by
  rw [settledKids, getElem?_map, hc] at hc'
  exact (Option.some.inj hc').symm

theorem kept_settlePass (h : Steady K t)
    (hres : ∀ (K' : SignalSets) c, c.height < t.height → Steady K' c → Kept K' c (resolve c).1) :
    Kept K t (settlePass resolve tick token any t).1 := by
  obtain ⟨n, cs⟩ := t
  have hlen : (settledKids resolve n cs).length = cs.length := by simp [settledKids]
  have hkid {j : Nat} {c c' : InstanceState} (hc : cs[j]? = some c)
      (hc' : (settledKids resolve n cs)[j]? = some c') : Kept (K.child j) c c' := by
    obtain ⟨hsteady, hget⟩ := h.enter hc
    have hlt : c.height < (node n cs).height :=
      height_lt_of_mem (List.mem_of_getElem? hc)
    have hkept := hres _ (c.withValue (propagateParentToChild n c.value).1) (by simpa using hlt) hsteady
    rw [getElem?_settledKids hc hc']
    obtain ⟨cn, ccs⟩ := c
    have hsame := sameBut_propagateParentToChild n cn
    exact hkept.of_root (static_propagateParentToChild n cn) hsame.prevValues hsame.nbaQueue hsame.events hget
  have hdrives : driveTargets (settledKids resolve n cs) = driveTargets cs :=
    driveTargets_congr hlen fun j c c' hc hc' => (hkid hc hc').static_value.outputDrives
  rw [settlePass_fst]
  obtain ⟨apart, driven, ports, inPlace, children⟩ := h
  have hprep : NodeFrame (SettleWrites n cs) (fun _ => True) n (prepareNetDrives n) :=
    frame_prepareNetDrives n
  have hspec : ∃ n₁, NodeFrame (SettleWrites n cs) (fun _ => True) (prepareNetDrives n) n₁ ∧
      (settleRoot tick token any (prepareNetDrives n) (settledKids resolve n cs)).1 =
        { n₁ with state := (applyNba n₁.state).1 } := by
    refine settleRoot_spec (fun s hs => Or.inl hs) (fun s hs => Or.inr (Or.inl hs)) ?_ ?_
    · intro s hs
      rw [hdrives] at hs
      exact Or.inr (Or.inr hs)
    · intro s hd hr
      rw [hprep.static.isDriven] at hd
      exact driven s hd hr
  obtain ⟨n₁, hframe, hroot⟩ := hspec
  have hfull := hprep.trans hframe
  have hnba := sameBut_assignAll n₁.state n₁.state.nbaQueue
  refine .node (hprep.static.trans (static_settleRoot tick token any _ _)) ?_ ?_ ?_ ?_ hlen
    fun j c c' => hkid
  · rw [hroot]
    exact hnba.prevValues.trans hfull.state.prevValues
  · rw [hroot]
    rfl
  · exact events_settleRoot tick token any (prepareNetDrives n) _
  · rw [hroot]
    intro s hs
    exact get_applyNba_of_frame hfull.state (apart s hs)

theorem kept_settlePass_epoch (tick : UInt64) (token : UInt32) (any : Bool)
    (hres : ∀ (K' : SignalSets) c, c.height < t.height → Steady K' c → Kept K' c (resolve c).1) (h : Steady K t) :
    Kept K t (settlePass resolve tick token any
      (t.withValue { t.value with state := t.value.state.beginChangeEpoch })).1 := by
  obtain ⟨n, cs⟩ := t
  have hframe : StateFrame (fun _ => False) (fun _ => False) n.state n.state.beginChangeEpoch :=
    frame_beginChangeEpoch n.state
  have hnode := NodeFrame.ofState hframe
  have hsteady : Steady K (.node { n with state := n.state.beginChangeEpoch } cs) :=
    h.of_root hnode.static rfl fun s _ => hframe.get s id
  have hpass : Kept K (.node { n with state := n.state.beginChangeEpoch } cs)
      (settlePass resolve tick token any (.node { n with state := n.state.beginChangeEpoch } cs)).1 :=
    kept_settlePass hsteady hres
  exact hpass.of_root hnode.static hframe.prevValues rfl rfl fun s _ => hframe.get s id

theorem kept_settleLoop (iters : Nat)
    (hres : ∀ (K' : SignalSets) c, c.height < t.height → Steady K' c → Kept K' c (resolve c).1) (h : Steady K t) :
    Kept K t (settleLoop resolve tick (iters + 1) token any t).inst := by
  induction iters generalizing token any t with
  | zero =>
    have hpass := kept_settlePass_epoch tick token any hres h
    simp only [settleLoop]
    split
    · exact hpass
    · exact hpass
  | succ iters ih =>
    have hpass := kept_settlePass_epoch tick token any hres h
    rw [settleLoop]
    dsimp only
    split
    · exact hpass
    · refine hpass.trans (ih ?_ (h.of_kept hpass))
      rw [hpass.height]
      exact hres

theorem kept_combResolve (height : Nat) (hheight : t.height ≤ height) (h : Steady K t) :
    Kept K t (combResolve tick height t).1 := by
  induction height generalizing K t with
  | zero =>
    obtain ⟨n, cs⟩ := t
    simp [RoseTree.height] at hheight
  | succ height ih =>
    obtain ⟨n, cs⟩ := t
    have hframe := quiet_beginCombResolve n.state
    have hnode := NodeFrame.ofState hframe
    have hnba : (beginCombResolve n.state).1.nbaQueue = n.state.nbaQueue := by
      obtain ⟨ws, hws, hT⟩ := hframe.nba
      rw [hws, eq_nil_iff_forall_not_mem.mpr hT, append_nil]
    have hstart : Steady K (.node { n with state := (beginCombResolve n.state).1 } cs) :=
      h.of_root hnode.static hnba fun s _ => hframe.get s id
    have hloop : Kept K (.node { n with state := (beginCombResolve n.state).1 } cs)
        (settleLoop (combResolve tick height) tick 64 (beginCombResolve n.state).1.changeToken
          (beginCombResolve n.state).2 (.node { n with state := (beginCombResolve n.state).1 } cs)).inst := by
      refine kept_settleLoop 63 (fun K' c hc hs => ih ?_ hs) hstart
      simp only [RoseTree.height] at hc hheight
      omega
    have hfull := hloop.of_root hnode.static hframe.prevValues hnba (events_beginCombResolve n.state)
      fun s _ => hframe.get s id
    simp only [combResolve, combResolveWith, value_node, withValue_node, maxIter]
    exact hfull.set_combPrev

end Passes

end PhyEngine.Verilog
