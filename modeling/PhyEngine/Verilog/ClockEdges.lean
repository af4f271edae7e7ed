import PhyEngine.Verilog.Runs

/-!
# Clock edges

`run_sequential` compares the values at the turn of a block with those at the end of the previous
call, before anything settles. No edge of a signal is lost that is not written any more between
that turn and the end of the call.
-/

namespace PhyEngine.Verilog

open ModuleState List RoseTree

def Stmt.queued (ss : List Stmt) : List Nat := ((Stmt.assignsOfList ss).filter (·.nonblocking)).flatMap (·.lhs)

/-- The signals that non-blocking assignments write. -/
def CompiledModule.queuedTargets (m : CompiledModule) : List Nat :=
  (m.initials.flatMap fun ib => Stmt.queued ib.roots) ++ (m.alwaysFfs.flatMap fun ff => Stmt.queued ff.roots) ++
    m.alwaysCombs.flatMap fun ac => Stmt.queued ac.roots

/-- `Early K t`: neither settling nor a non-blocking assignment writes a signal of `K`. A port
in `K` is written by its parent alone, and connected to signals of `K` of the parent. -/
inductive Early : SignalSets → InstanceState → Prop where
  | node {K : SignalSets} {n : InstanceNode} {cs : List InstanceState}
      (apart : ∀ s, K [] s → ¬ SettleWrites n cs s ∧ s ∉ n.mod.queuedTargets)
      (ports : ∀ (j : Nat) c, cs[j]? = some c → ∀ b ∈ c.value.inputBindings, K [j] b.1 →
        ¬ AnyTarget c.value c.children b.1 ∧ ∀ r ∈ bindingReads n.mod b.2, K [] r)
      (children : ∀ (j : Nat) c, cs[j]? = some c → Early (K.child j) c) : Early K (.node n cs)

variable {K : SignalSets} {t t' : InstanceState} {n : InstanceNode} {tick : UInt64} {b s : Nat} {ff : AlwaysFf}
  {p : List Nat}

theorem Early.of_sameDesign (h : Early K t) (hsame : SameDesign t t') : Early K t' := by
  induction h generalizing t' with
  | @node K n cs apart ports children ih =>
    obtain ⟨n', cs'⟩ := t'
    have hmod : n'.mod = n.mod := hsame.value.mod
    refine .node ?_ ?_ ?_
    · rw [hsame.settleWrites, hmod]
      exact apart
    · intro j c' hc' b hb hK
      obtain ⟨c, hc, hcc⟩ := hsame.exists_child hc'
      rw [inputBindings_congr hcc.value] at hb
      obtain ⟨hport, hreads⟩ := ports j c hc b hb hK
      obtain ⟨cn, ccs⟩ := c
      obtain ⟨cn', ccs'⟩ := c'
      refine ⟨?_, hmod ▸ hreads⟩
      rw [value, RoseTree.children, hcc.anyTarget]
      exact hport
    · intro j c' hc'
      obtain ⟨c, hc, hcc⟩ := hsame.exists_child hc'
      exact ih j c hc hcc

theorem Early.get? (h : Early K t) (hn : t.get? p = some n) :
    ∃ cs, ∀ s, K p s → ¬ SettleWrites n cs s ∧ s ∉ n.mod.queuedTargets := by
  induction p generalizing K t with
  | nil =>
    cases hn
    obtain ⟨apart, ports, children⟩ := h
    exact ⟨_, apart⟩
  | cons j p ih =>
    obtain ⟨c, hc, hcn⟩ := Option.bind_eq_some_iff.mp hn
    obtain ⟨apart, ports, children⟩ := h
    exact ih (children j c hc) hcn

/-- No non-blocking assignment to the signal is pending or scheduled. -/
structure Unqueued (s : Nat) (st : ModuleState) : Prop where
  queue : s ∉ st.nbaQueue.map Prod.fst
  events : ∀ ev ∈ st.events, ev.nonblocking = true → s ∉ ev.targets

section Unqueued

variable {m : CompiledModule} {st st' : ModuleState}

theorem Unqueued.congr (h : Unqueued s st) (hq : st'.nbaQueue = st.nbaQueue) (hev : st'.events = st.events) :
    Unqueued s st' := ⟨hq ▸ h.queue, hev ▸ h.events⟩

theorem Unqueued.assignAll (h : Unqueued s st) (ws : List (Nat × LogicT)) : Unqueued s (st.assignAll ws).1 :=
  h.congr (sameBut_assignAll st ws).nbaQueue (sameBut_assignAll st ws).events

theorem Unqueued.push (h : Unqueued s st) {ws : List (Nat × LogicT)} (hws : ∀ w ∈ ws, w.1 ≠ s) :
    Unqueued s { st with nbaQueue := st.nbaQueue ++ ws } := by
  refine ⟨fun hs => ?_, h.events⟩
  rw [map_append, mem_append] at hs
  rcases hs with hs | hs
  · exact h.queue hs
  · obtain ⟨w, hw, heq⟩ := mem_map.mp hs
    exact hws w hw heq

theorem unqueued_event {a : Assign} (ha : a.nonblocking = true → s ∉ a.lhs) (due : UInt64)
    (hnb : (a.event due).nonblocking = true) : s ∉ (a.event due).targets := by
  refine fun hs => ha ?_ (targets_event hs)
  revert hnb
  rw [Assign.event]
  split <;> exact id

theorem unqueued_execAssign {a : Assign} (ha : a.nonblocking = true → s ∉ a.lhs) (x : Exec) (h : Unqueued s x.st) :
    Unqueued s (execAssign m tick a x).st := by
  rw [execAssign]
  split_ifs with hlen hout hdelay hnb
  · exact h
  · exact h
  · refine ⟨h.queue, fun ev hev hnb => ?_⟩
    rcases mem_append.mp hev with hev | hev
    · exact h.events ev hev hnb
    · obtain rfl := mem_singleton.mp hev
      exact unqueued_event ha _ hnb
  · exact h.push fun w hw heq => ha hnb (heq ▸ mem_sampleWrites (mem_of_mem_filter hw))
  · exact h.assignAll _

theorem stepRel_unqueued : StepRel fun x y => Unqueued s x.st → Unqueued s y.st where
  refl := fun _ => id
  trans := fun _ _ _ h h' hx => h' (h hx)
  flow := fun _ _ => id

theorem unqueued_execRoots {ss : List Stmt} (hs : s ∉ Stmt.queued ss) (h : Unqueued s st) :
    Unqueued s (execRoots m tick ss st).1 := by
  have ha : ∀ a ∈ Stmt.assignsOfList ss, a.nonblocking = true → s ∉ a.lhs :=
    fun a ha hnb hmem => hs (mem_flatMap.mpr ⟨a, mem_filter.mpr ⟨ha, hnb⟩, hmem⟩)
  clear hs
  induction ss generalizing st with
  | nil => exact h
  | cons root roots ih =>
    simp only [Stmt.assignsOfList, mem_append] at ha
    have hroot : Unqueued s (execStmt m tick root { st }).st :=
      stepRel_unqueued.execStmt root (fun a hmem x => unqueued_execAssign (ha a (.inl hmem)) x) { st } h
    exact ih hroot fun a hmem => ha a (.inr hmem)

theorem unqueued_runAlwaysFfs {ffs : List (AlwaysFf × Nat)} (hs : ∀ ff ∈ ffs, s ∉ Stmt.queued ff.1.roots)
    (h : Unqueued s st) : Unqueued s (runAlwaysFfs m tick ffs st).1 := by
  induction ffs generalizing st with
  | nil => exact h
  | cons ff ffs ih =>
    rw [forall_mem_cons] at hs
    unfold runAlwaysFfs
    split
    · exact ih hs.2 (unqueued_execRoots hs.1 h)
    · exact ih hs.2 h

theorem unqueued_runInitialBlock {ib : InitialBlock} (hs : s ∉ Stmt.queued ib.roots) (h : Unqueued s st) :
    Unqueued s (runInitialBlock m tick st ib) := by
  have hev := events_scheduleStmts (P := fun ev => ev.nonblocking = true → s ∉ ev.targets) tick ib.roots
    (fun a ha due => unqueued_event (fun hnb hmem => hs (mem_flatMap.mpr ⟨a, mem_filter.mpr ⟨ha, hnb⟩, hmem⟩)) due)
    { events := st.events }
  have hsched : Unqueued s { st with events := (scheduleStmts tick ib.roots { events := st.events }).events } :=
    ⟨h.queue, fun ev hmem => (hev ev hmem).elim (h.events ev) id⟩
  unfold runInitialBlock
  dsimp only
  split
  · exact hsched
  · exact unqueued_execRoots hs hsched

theorem unqueued_fireEvent {ev : ScheduledEvent} (hev : ev.nonblocking = true → s ∉ ev.targets) (h : Unqueued s st) :
    Unqueued s (fireEvent m st ev) := by
  obtain ⟨rhs, heq⟩ := exists_fireEvent m st ev
  rw [heq]
  split_ifs with hlen hnb
  · exact h
  · exact h.push fun w hw heq => hev hnb (heq ▸ mem_sampleWrites (mem_of_mem_filter hw))
  · exact h.assignAll _

theorem unqueued_beforeEdge (hs : ∀ ib ∈ m.initials, s ∉ Stmt.queued ib.roots)
    (hev : ∀ ev ∈ st.events, ev.nonblocking = true → s ∉ ev.targets) : Unqueued s (beforeEdge m tick st) := by
  have hclear : Unqueued s { st with nbaQueue := [] } := ⟨not_mem_nil, hev⟩
  have hinit : Unqueued s (runInitialBlocks m tick { st with nbaQueue := [] }) := by
    unfold runInitialBlocks
    split
    · exact hclear
    · have hfold {ibs : List InitialBlock} (hibs : ∀ ib ∈ ibs, s ∉ Stmt.queued ib.roots) :
          ∀ {st : ModuleState}, Unqueued s st → Unqueued s (ibs.foldl (runInitialBlock m tick) st) := by
        induction ibs with
        | nil => exact id
        | cons ib ibs ih =>
          rw [forall_mem_cons] at hibs
          exact fun h => ih hibs.2 (unqueued_runInitialBlock hibs.1 h)
      exact hfold hs (hclear.congr rfl rfl)
  have hfire {evs : List ScheduledEvent} (hevs : ∀ ev ∈ evs, ev.nonblocking = true → s ∉ ev.targets) :
      ∀ {st : ModuleState}, Unqueued s st → Unqueued s (evs.foldl (fireEvent m) st) := by
    induction evs with
    | nil => exact id
    | cons ev evs ih =>
      rw [forall_mem_cons] at hevs
      exact fun h => ih hevs.2 (unqueued_fireEvent hevs.1 h)
  exact ⟨(hfire (fun ev hmem => hinit.events ev (mem_of_mem_filter hmem)) hinit).queue,
    fun ev hmem => hinit.events ev (mem_of_mem_filter hmem)⟩

theorem unqueued_updateUrandom (h : Unqueued s st) : Unqueued s (updateUrandom m st) := by
  unfold updateUrandom
  split
  · exact h
  · dsimp only
    split
    · exact h.congr rfl rfl
    split
    · exact h.congr rfl rfl
    split
    · exact h
    split
    · split
      · exact h.congr rfl rfl
      · exact h.congr rfl rfl
    · exact h

theorem unqueued_sequentialVisit (parent : Option (InstanceNode × List Nat)) (hs : s ∉ n.mod.queuedTargets)
    (hev : ∀ ev ∈ n.state.events, ev.nonblocking = true → s ∉ ev.targets) (tick : UInt64) (seq : Bool) :
    Unqueued s (sequentialVisit tick seq parent n).1.state := by
  rw [CompiledModule.queuedTargets, mem_append, mem_append, not_or, not_or] at hs
  have hedge : Unqueued s (beforeEdge (entered parent n).mod tick (entered parent n).state) := by
    refine unqueued_beforeEdge ?_ ((sameBut_entered parent n).events ▸ hev)
    rw [(static_entered parent n).mod]
    exact fun ib hib hmem => hs.1.1 (mem_flatMap.mpr ⟨ib, hib, hmem⟩)
  rw [sequentialVisit_eq, sequentialStep_eq]
  cases seq with
  | false => exact hedge
  | true =>
    refine unqueued_runAlwaysFfs (fun ff hff hmem => hs.1.2 (mem_flatMap.mpr ⟨ff.1, ?_, hmem⟩))
      (unqueued_updateUrandom hedge)
    rw [← (static_entered parent n).mod]
    exact (mem_zipIdx hff).2.2 ▸ getElem_mem _

end Unqueued

/-- No event of the tree writes a signal of `K` without blocking. -/
def Unscheduled (K : SignalSets) (t : InstanceState) : Prop :=
  ∀ p n, t.get? p = some n → ∀ s, K p s → ∀ ev ∈ n.state.events, ev.nonblocking = true → s ∉ ev.targets

theorem Unscheduled.child {cs : List InstanceState} (h : Unscheduled K (.node n cs)) {j : Nat} {c : InstanceState}
    (hc : cs[j]? = some c) : Unscheduled (K.child j) c :=
  fun p n' hn s hs => h (j :: p) n' (by simp [get?, hc, hn]) s hs

theorem Unscheduled.afterSequential (h : Unscheduled K t) (hK : Early K t) (tick : UInt64) (seq : Bool)
    (parent : Option (InstanceNode × List Nat)) : Unscheduled K (afterSequential tick seq parent t) := by
  intro p n' hn' s hs
  rw [PhyEngine.Verilog.afterSequential, get?_map] at hn'
  obtain ⟨r, hr, rfl⟩ := Option.map_eq_some_iff.mp hn'
  obtain ⟨parent, n, hn, rfl⟩ := get?_topDown hr
  obtain ⟨cs, hapart⟩ := hK.get? hn
  exact (unqueued_sequentialVisit parent (hapart s hs).2 (h p n hn s hs) tick seq).events

theorem Unscheduled.of_kept (h : Unscheduled K t) (hK : Early K t) (hk : Kept K t t') : Unscheduled K t' := by
  induction hk with
  | @node K n n' cs cs' static prev empty events get length hkids ih =>
    intro p n₁ hn₁ s hs ev hev hnb
    obtain ⟨apart, ports, children⟩ := hK
    cases p with
    | nil =>
      cases hn₁
      rcases events ev hev with hev | ⟨ac, hac, a, ha, -, due, rfl⟩
      · exact h [] n rfl s hs ev hev hnb
      · refine unqueued_event (fun hnb hmem => (apart s hs).2 ?_) due hnb
        exact mem_append_right _ (mem_flatMap.mpr ⟨ac, hac, mem_flatMap.mpr ⟨a, mem_filter.mpr ⟨ha, hnb⟩, hmem⟩⟩)
    | cons j p =>
      obtain ⟨c', hc', hcn⟩ := Option.bind_eq_some_iff.mp hn₁
      have hj : j < cs.length := by
        rw [← length]
        exact (List.getElem?_eq_some_iff.mp hc').1
      have hc : cs[j]? = some cs[j] := getElem?_eq_getElem hj
      exact ih j _ c' hc hc' (h.child hc) (children j _ hc) p n₁ hcn s hs ev hev hnb

/-- Settling leaves early signals alone. -/
theorem steady_afterSequential (h : Early K t) (ht : Tidy t) (hu : Unscheduled K t) (tick : UInt64) (seq : Bool)
    (parent : Option (InstanceNode × List Nat)) :
    Steady K (afterSequential tick seq parent t) := by
  induction h generalizing parent with
  | @node K n cs apart ports children ih =>
    have hsame := sameDesign_afterSequential tick seq parent (.node n cs)
    obtain ⟨driven, events, kids⟩ := ht
    have hqueue (s : Nat) (hs : K [] s) : ¬ Queued (sequentialVisit tick seq parent n).1 s :=
      (unqueued_sequentialVisit parent (apart s hs).2 (hu [] n rfl s hs) tick seq).queue
    rw [afterSequential_node] at hsame ⊢
    generalize sequentialVisit tick seq parent n = r at hsame hqueue ⊢
    have hkid {j : Nat} {c' : InstanceState}
        (hc' : (cs.map (afterSequential tick seq (some r)))[j]? = some c') :
        ∃ c, cs[j]? = some c ∧ c' = afterSequential tick seq (some r) c := by
      rw [getElem?_map] at hc'
      obtain ⟨c, hc, rfl⟩ := Option.map_eq_some_iff.mp hc'
      exact ⟨c, hc, rfl⟩
    have hframe {j : Nat} {c : InstanceState} (hc : cs[j]? = some c) :
        NodeFrame (AnyTarget c.value c.children) (AnyTarget c.value c.children) (clearNba (entered (some r) c.value))
          (afterSequential tick seq (some r) c).value := by
      rw [value_afterSequential]
      refine frame_sequentialVisit tick seq (some r) (fun s hs => .inr (.inl hs)) (fun s hs => .inl hs)
        (fun s hs => .inr (.inr (.inl hs))) (fun s hs => anyTarget_of_scheduled hs) (fun s hs => hs) ?_
      cases kids j c hc with
      | node _ events _ => exact events.mono fun s hs => anyTarget_of_scheduled hs
    refine .node ?_ ?_ ?_ ?_ ?_
    · intro s hs
      rw [hsame.settleWrites]
      exact (apart s hs).1
    · intro s hd hr
      rw [hsame.settleWrites]
      exact driven s (hsame.value.isDriven s ▸ hd) (hsame.value.mod ▸ hr)
    · intro j c' hc' b hb hK
      obtain ⟨c, hc, rfl⟩ := hkid hc'
      rw [inputBindings_congr (sameDesign_afterSequential tick seq (some r) c).value] at hb
      obtain ⟨hport, hreads⟩ := ports j c hc b hb hK
      refine ⟨not_queued_of_frame (hframe hc) hport, fun q hq => ?_⟩
      have hmod : r.1.mod = n.mod := hsame.value.mod
      rw [hmod] at hq
      exact ⟨hreads q hq, hqueue q (hreads q hq)⟩
    · intro j c' hc' s hs hlt
      obtain ⟨c, hc, rfl⟩ := hkid hc'
      have hstatic := (sameDesign_afterSequential tick seq (some r) c).value
      rw [hstatic.length] at hlt
      rw [portWrites, inputBindings_congr hstatic]
      change written (portWrites r.1 c.value) s _ = _
      by_cases hport : ∃ b ∈ c.value.inputBindings, b.1 = s
      · obtain ⟨b, hb, rfl⟩ := hport
        have hget : (afterSequential tick seq (some r) c).value.get b.1 =
            written (portWrites r.1 c.value) b.1 (c.value.get b.1) := by
          refine ((hframe hc).state.get b.1 (ports j c hc b hb hs).1).trans ?_
          exact (get_propagateParentToChild r.1 c.value b.1).trans (by simp [hlt])
        rw [hget]
        exact written_idem _ b.1 _
      · refine written_of_not_mem (fun hmem => hport ?_) _
        obtain ⟨w, hw, rfl⟩ := mem_map.mp hmem
        obtain ⟨b, hb, rfl⟩ := mem_map.mp hw
        exact ⟨b, hb, rfl⟩
    · intro j c' hc'
      obtain ⟨c, hc, rfl⟩ := hkid hc'
      exact ih j c hc (kids j c hc) (hu.child hc) _

theorem mem_runAlwaysFfs {m : CompiledModule} {ffs : List (AlwaysFf × Nat)} {st : ModuleState}
    (h : b ∈ (runAlwaysFfs m tick ffs st).2) : b ∈ ffs.map Prod.snd := by
  induction ffs generalizing st with
  | nil => cases h
  | cons ff ffs ih =>
    unfold runAlwaysFfs at h
    split at h
    · rcases mem_cons.mp h with rfl | h
      · exact mem_cons_self
      · exact mem_cons_of_mem _ (ih h)
    · exact mem_cons_of_mem _ (ih h)

theorem isPosedge_iff {prev now : LogicT} : isPosedge prev now = true ↔ prev = .L ∧ now = .H := by
  cases prev <;> cases now <;> decide

theorem fires_posedge (hev : ff.events = [⟨.posedge, s⟩]) (st : ModuleState) :
    ff.fires st = true ↔ st.prevValues.getD s .X = .L ∧ st.get s = .H := by
  simp only [AlwaysFf.fires, hev, any_cons, any_nil, Bool.or_false, eventOccurs]
  split
  · rename_i hlen
    rcases hlen with hlen | hlen
    · rw [ModuleState.get, getD_eq_default st.values _ hlen]
      simp
    · rw [getD_eq_default st.prevValues _ hlen]
      simp
  · exact isPosedge_iff

theorem runAlwaysFfs_append {m : CompiledModule} (ffs ffs' : List (AlwaysFf × Nat)) (st : ModuleState) :
    runAlwaysFfs m tick (ffs ++ ffs') st =
      ((runAlwaysFfs m tick ffs' (runAlwaysFfs m tick ffs st).1).1,
        (runAlwaysFfs m tick ffs st).2 ++ (runAlwaysFfs m tick ffs' (runAlwaysFfs m tick ffs st).1).2) := by
  induction ffs generalizing st with
  | nil => rfl
  | cons ff ffs ih =>
    rw [cons_append, runAlwaysFfs, runAlwaysFfs]
    split
    · dsimp only
      rw [ih]
      rfl
    · exact ih st

/-- A block on one edge of a signal that no block writes from its turn on runs once if the edge
is there after the blocks, and else not at all. -/
theorem count_runAlwaysFfs {m : CompiledModule} (hff : m.alwaysFfs[b]? = some ff) (hev : ff.events = [⟨.posedge, s⟩])
    (hs : ∀ ff' ∈ m.alwaysFfs.drop b, s ∉ Stmt.immediate ff'.roots) (st : ModuleState) :
    (runAlwaysFfs m tick m.alwaysFfs.zipIdx st).2.count b =
      if st.prevValues.getD s .X = .L ∧ (runAlwaysFfs m tick m.alwaysFfs.zipIdx st).1.get s = .H then 1 else 0 := by
  obtain ⟨hlt, rfl⟩ := List.getElem?_eq_some_iff.mp hff
  rw [drop_eq_getElem_cons hlt, forall_mem_cons] at hs
  have hsplit : m.alwaysFfs.zipIdx = (m.alwaysFfs.take b).zipIdx ++
      (m.alwaysFfs[b], b) :: (m.alwaysFfs.drop (b + 1)).zipIdx (b + 1) := by
    conv_lhs => rw [← take_append_drop b m.alwaysFfs]
    rw [zipIdx_append, drop_eq_getElem_cons hlt, zipIdx_cons, length_take_of_le hlt.le, Nat.zero_add]
  have hbefore : StateFrame (fun _ => True) (fun _ => True) st (runAlwaysFfs m tick (m.alwaysFfs.take b).zipIdx st).1 :=
    frame_runAlwaysFfs (fun _ _ _ _ => trivial) (fun _ _ _ _ => trivial) st
  have hfirst : (runAlwaysFfs m tick (m.alwaysFfs.take b).zipIdx st).2.count b = 0 := by
    refine count_eq_zero.mpr fun h => ?_
    have hmem := mem_runAlwaysFfs h
    rw [zipIdx_map_snd, mem_range', length_take_of_le hlt.le] at hmem
    omega
  have hlast (st' : ModuleState) :
      (runAlwaysFfs m tick ((m.alwaysFfs.drop (b + 1)).zipIdx (b + 1)) st').2.count b = 0 ∧
        (runAlwaysFfs m tick ((m.alwaysFfs.drop (b + 1)).zipIdx (b + 1)) st').1.get s = st'.get s := by
    constructor
    · refine count_eq_zero.mpr fun h => ?_
      have hmem := mem_runAlwaysFfs h
      rw [zipIdx_map_snd, mem_range'] at hmem
      omega
    · have hframe : StateFrame (· ≠ s) (fun _ => True) st'
          (runAlwaysFfs m tick ((m.alwaysFfs.drop (b + 1)).zipIdx (b + 1)) st').1 :=
        frame_runAlwaysFfs (fun ff' hff' q hq (heq : q = s) => ?_) (fun _ _ _ _ => trivial) st'
      · exact hframe.get s fun h => h rfl
      · have hmem : ff'.1 ∈ m.alwaysFfs.drop (b + 1) := (mem_zipIdx hff').2.2 ▸ getElem_mem _
        exact hs.2 ff'.1 hmem (heq ▸ hq)
  rw [hsplit, runAlwaysFfs_append, ← hbefore.prevValues]
  dsimp only
  rw [count_append, hfirst, Nat.zero_add]
  generalize (runAlwaysFfs m tick (m.alwaysFfs.take b).zipIdx st).1 = st'
  rw [runAlwaysFfs]
  have hexec : StateFrame (· ≠ s) (fun _ => True) st' (execRoots m tick m.alwaysFfs[b].roots st').1 :=
    frame_execRoots (fun q hq (heq : q = s) => hs.1 (heq ▸ hq)) (fun _ _ => trivial) st'
  by_cases hedge : m.alwaysFfs[b].fires st' = true
  · rw [if_pos hedge]
    dsimp only
    rw [count_cons_self, (hlast _).1, (hlast _).2, hexec.get s fun h => h rfl,
      if_pos ((fires_posedge hev st').mp hedge)]
  · rw [if_neg hedge, (hlast _).1, (hlast _).2, if_neg fun h => hedge ((fires_posedge hev st').mpr h)]

/-- The visit of an instance: the edge a block sees is the one between the previous values and
the values the visit leaves. -/
theorem count_sequentialVisit (parent : Option (InstanceNode × List Nat)) (hff : n.mod.alwaysFfs[b]? = some ff)
    (hev : ff.events = [⟨.posedge, s⟩]) (hs : ∀ ff' ∈ n.mod.alwaysFfs.drop b, s ∉ Stmt.immediate ff'.roots) :
    (sequentialVisit tick true parent n).2.count b =
      if n.state.prevValues.getD s .X = .L ∧ (sequentialVisit tick true parent n).1.get s = .H
        then 1 else 0 := by
  have hmod := (static_entered parent n).mod
  have hframe : StateFrame (fun _ => True) (fun _ => True) { (entered parent n).state with nbaQueue := [] }
      (updateUrandom (entered parent n).mod (beforeEdge (entered parent n).mod tick (entered parent n).state)) :=
    (frame_beforeEdge (fun _ _ => trivial) (fun _ _ => trivial) (fun _ _ => trivial) fun _ _ _ _ => trivial).trans
      (frame_updateUrandom (fun _ _ => trivial) _)
  have hcount := @count_runAlwaysFfs tick b s ff _ (hmod ▸ hff) hev (hmod ▸ hs)
    (updateUrandom (entered parent n).mod (beforeEdge (entered parent n).mod tick (entered parent n).state))
  have hprev : (entered parent n).state.prevValues = n.state.prevValues := (sameBut_entered parent n).prevValues
  rw [hframe.prevValues, hprev] at hcount
  rw [sequentialVisit_eq]
  exact hcount

/-- How often a call runs block `b` of the instance at path `p`. -/
def Call.executions (c : Call) (t : InstanceState) (p : List Nat) (b : Nat) : Nat :=
  (((firedBlocks c.tick c.processSequential (sampleInputs c.pins t)).get? p).getD []).count b

def valueAt (t : InstanceState) (p : List Nat) (s : Nat) : LogicT :=
  ((t.get? p).map fun n => n.get s).getD .X

theorem prevValues_sampleInputs (pins : List (Option LogicT)) (t : InstanceState) :
    RoseTree.Rel (fun n n' : InstanceNode => n'.state.prevValues = n.state.prevValues) t
      (sampleInputs pins t) := by
  obtain ⟨n, cs⟩ := t
  refine .node rfl rfl fun j c d hc hd => ?_
  cases hc.symm.trans hd
  exact RoseTree.Rel.refl (R := fun n n' => n'.state.prevValues = n.state.prevValues) (fun _ => rfl) c

theorem Kept.get? {t' : InstanceState} {p : List Nat} {n' : InstanceNode} (h : Kept K t t') (hn : t'.get? p = some n') :
    ∃ n, t.get? p = some n ∧ ∀ s, K p s → n'.get s = (applyNba n.state).1.get s := by
  induction p generalizing K t t' with
  | nil =>
    cases hn
    exact ⟨t.value, rfl, h.get_value⟩
  | cons j p ih =>
    obtain ⟨c', hc', hcn⟩ := Option.bind_eq_some_iff.mp hn
    cases h with
    | @node _ n₀ _ cs cs' static prev empty events get length children =>
      have hj : j < cs.length := by
        rw [← length]
        exact (List.getElem?_eq_some_iff.mp hc').1
      have hc : cs[j]? = some cs[j] := getElem?_eq_getElem hj
      obtain ⟨n, hn, hget⟩ := ih (children j _ c' hc hc') hcn
      exact ⟨n, by simp [get?, hc, hn], hget⟩

/-- What calls keep of a design with early signals. -/
structure Running (K : SignalSets) (t : InstanceState) : Prop where
  early : Early K t
  tidy : Tidy t
  unscheduled : Unscheduled K t
  prev : PrevCurrent t

theorem Running.sampleInputs (h : Running K t) (pins : List (Option LogicT)) :
    Early K (sampleInputs pins t) ∧ Tidy (sampleInputs pins t) ∧ Unscheduled K (sampleInputs pins t) := by
  refine ⟨h.early.of_sameDesign (sameDesign_sampleInputs pins t), tidy_sampleInputs pins h.tidy, ?_⟩
  obtain ⟨n, cs⟩ := t
  intro p n' hn' s hs
  cases p with
  | nil =>
    cases hn'
    exact h.unscheduled [] n rfl s hs
  | cons j p => exact h.unscheduled (j :: p) n' hn' s hs

theorem Running.run (h : Running K t) (c : Call) : Running K (c.run t) := by
  obtain ⟨hearly, htidy, hunscheduled⟩ := h.sampleInputs c.pins
  have hkept := kept_settled c.tick c.processSequential
    (steady_afterSequential hearly htidy hunscheduled c.tick c.processSequential none)
  refine ⟨h.early.of_sameDesign (sameDesign_run c h.tidy), tidy_run c h.tidy, ?_, prevCurrent_updatePrev _⟩
  have hafter := (hunscheduled.afterSequential hearly c.tick c.processSequential none).of_kept
    (hearly.of_sameDesign (sameDesign_afterSequential _ _ _ _)) hkept
  intro p n hn s hs
  rw [Call.run, simulate_eq, updatePrevRecursive, get?_map] at hn
  obtain ⟨n', hn', rfl⟩ := Option.map_eq_some_iff.mp hn
  exact hafter p n' hn' s hs

theorem Running.runCalls (h : Running K t) (calls : List Call) : Running K (runCalls calls t) := by
  induction calls generalizing t with
  | nil => exact h
  | cons c calls ih => exact ih (h.run c)

/-- A block on the rising edge of an early signal that no block writes from this one on runs
exactly once in every call over which the settled value of the signal rises, and in no other
call. -/
theorem posedge_executed_once (d : CompiledDesign) (top : CompiledModule) (K : SignalSets)
    (hK : Early K (elaborate d top)) (calls : List Call) (c : Call) (hc : c.processSequential = true)
    (p : List Nat) (n : InstanceNode) (hn : (elaborate d top).get? p = some n) (b s : Nat)
    (ff : AlwaysFf) (hff : n.mod.alwaysFfs[b]? = some ff) (hev : ff.events = [⟨.posedge, s⟩])
    (hs : K p s) (hlater : ∀ ff' ∈ n.mod.alwaysFfs.drop b, s ∉ Stmt.immediate ff'.roots) :
    c.executions (runCalls calls (elaborate d top)) p b =
      if valueAt (runCalls calls (elaborate d top)) p s = .L ∧
          valueAt (c.run (runCalls calls (elaborate d top))) p s = .H then 1 else 0 := by
  have hstart : Running K (elaborate d top) := ⟨hK, tidy_elaborate d top,
    fun p n hn s _ ev hev => absurd ((state_elaborateChildren d 65 (newNode_top top) hn).1 ▸ hev) not_mem_nil,
    fun p n hn => (state_elaborateChildren d 65 (newNode_top top) hn).2⟩
  have hrun := hstart.runCalls calls
  have hsame := (runCalls_tidy calls (tidy_elaborate d top)).2
  generalize runCalls calls (elaborate d top) = t at hrun hsame ⊢
  obtain ⟨hearly₁, htidy₁, hunscheduled₁⟩ := hrun.sampleInputs c.pins
  -- the instance before the call, and with the inputs set
  obtain ⟨n₀, hn₀, hstatic₀⟩ := hsame.exists_get? hn
  obtain ⟨n₁, hn₁, hprev⟩ := (prevValues_sampleInputs c.pins t).exists_get? hn₀
  have hmod : n₁.mod = n.mod := by
    obtain ⟨n₁', hn₁', hstatic⟩ := (sameDesign_sampleInputs c.pins t).exists_get? hn₀
    cases hn₁.symm.trans hn₁'
    exact hstatic.mod.trans hstatic₀.mod
  -- after the sequential pass
  have hvisit : RoseTree.Rel (fun n (r : InstanceNode × List Nat) => SameStatic n r.1)
      (sampleInputs c.pins t) (sequentialPass c.tick true (sampleInputs c.pins t)) :=
    RoseTree.Rel.topDown_right (static_sequentialVisit c.tick true) _ none
  obtain ⟨r, hr, -⟩ := hvisit.exists_get? hn₁
  obtain ⟨parent, n₁', hn₁', rfl⟩ := get?_topDown hr
  cases hn₁.symm.trans hn₁'
  obtain ⟨cs, hapart⟩ := hearly₁.get? hn₁
  have hcount : (sequentialVisit c.tick true parent n₁).2.count b = _ :=
    count_sequentialVisit parent (hmod ▸ hff) hev (hmod ▸ hlater)
  -- after settling
  have hkept := kept_settled c.tick true (steady_afterSequential hearly₁ htidy₁ hunscheduled₁ c.tick true none)
  have hseq : (afterSequential c.tick true none (sampleInputs c.pins t)).get? p =
      some (sequentialVisit c.tick true parent n₁).1 := by
    rw [afterSequential, get?_map]
    exact congrArg (Option.map Prod.fst) hr
  obtain ⟨n₂, hn₂, -⟩ := hkept.sameDesign.exists_get? hseq
  obtain ⟨n₂', hn₂', hget⟩ := hkept.get? hn₂
  cases hseq.symm.trans hn₂'
  have hqueue := (unqueued_sequentialVisit parent (hapart s hs).2 (hunscheduled₁ p n₁ hn₁ s hs) c.tick true).queue
  have hfinal : n₂.get s = (sequentialVisit c.tick true parent n₁).1.get s := by
    rw [hget s hs, get_applyNba_of_not_queued hqueue]
  have hbefore : valueAt t p s = n₁.state.prevValues.getD s .X := by
    rw [valueAt, hn₀, hprev, hrun.prev p n₀ hn₀]
    rfl
  have hafter : valueAt (c.run t) p s = (sequentialVisit c.tick true parent n₁).1.get s := by
    rw [valueAt, Call.run, hc, simulate_eq, updatePrevRecursive, get?_map, hn₂]
    exact hfinal
  have hexec : c.executions t p b = (sequentialVisit c.tick true parent n₁).2.count b := by
    rw [Call.executions, hc, firedBlocks, get?_map, hr]
    rfl
  rw [hexec, hbefore, hafter, hcount]

namespace ClockEdges

theorem scalar_q : false = false → [1].length = 1 ∧ [0].length = 1 := by decide

def flipFlop : CompiledModule where
  name := "ff"
  ports := [⟨"clk", .input, 0⟩]
  portOrder := ["clk"]
  portDecls := [("clk", { dir := .input })]
  signalNames := ["clk", "q"]
  signalIsReg := [false, true]
  exprNodes := [.literal .H]
  alwaysFfs := [{ events := [⟨.posedge, 0⟩]
                  roots := [.assign { nonblocking := true, lhs := [1], rhs := [0], scalar := scalar_q }] }]

theorem scalar_div : false = false → [1].length = 1 ∧ [2].length = 1 := by decide

/-- A clock divider, `initial div = 0; always @(posedge clk) div = ~div;`, with a flip-flop that
`div` clocks. -/
def divider : CompiledModule where
  ports := [⟨"clk", .input, 0⟩]
  signalNames := ["clk", "div"]
  signalIsReg := [false, true]
  exprNodes := [.literal .L, .signal 1, .unaryNot 1]
  initials := [{ roots := [.assign { nonblocking := false, lhs := [1], rhs := [0], scalar := scalar_q }] }]
  alwaysFfs := [{ events := [⟨.posedge, 0⟩]
                  roots := [.assign { nonblocking := false, lhs := [1], rhs := [2], scalar := scalar_div }] }]
  instances := [{ moduleName := "ff", instanceName := "u", connections := [("clk", .scalar (some 1))] }]

def low : Call := { pins := [some .L], tick := 1 }
def high : Call := { pins := [some .H], tick := 2 }

/-- `clk` and `div` of the divider and the clock port of its flip-flop. -/
def clocks : SignalSets := fun p s => p = [] ∧ s < 2 ∨ p = [0] ∧ s = 0

theorem early_divider : Early clocks (elaborate ⟨[flipFlop]⟩ divider) := by
  show Early _ (.node _ [.node _ []])
  have hchild {j : Nat} {c d : InstanceState} (hc : [d][j]? = some c) : j = 0 ∧ c = d := by
    cases j with
    | zero => exact ⟨rfl, (Option.some.inj hc).symm⟩
    | succ j => cases hc
  refine .node ?_ ?_ ?_
  · rintro s (⟨-, hs⟩ | ⟨hp, -⟩)
    · revert s
      decide
    · cases hp
  · intro j c hc b hb _
    obtain ⟨rfl, rfl⟩ := hchild hc
    obtain rfl : b = (0, .parentSignal 1) := mem_singleton.mp hb
    refine ⟨by decide, fun r hr => ?_⟩
    obtain rfl : r = 1 := mem_singleton.mp hr
    exact .inl ⟨rfl, by decide⟩
  · intro j c hc
    obtain ⟨rfl, rfl⟩ := hchild hc
    refine .node ?_ (fun _ _ hc => by cases hc) fun _ _ hc => by cases hc
    rintro s (⟨hp, -⟩ | ⟨-, rfl⟩)
    · cases hp
    · decide

/-- The flip-flop sees the rise of `div`, which the divider's own block has just made. -/
theorem posedge_executed_once_child :
    high.executions (runCalls [low] (elaborate ⟨[flipFlop]⟩ divider)) [0] 0 =
      if valueAt (runCalls [low] (elaborate ⟨[flipFlop]⟩ divider)) [0] 0 = .L ∧
        valueAt (high.run (runCalls [low] (elaborate ⟨[flipFlop]⟩ divider))) [0] 0 = .H then 1 else 0 :=
  posedge_executed_once _ _ _ early_divider [low] high rfl [0] _ rfl 0 0 _ rfl rfl (.inr ⟨rfl, rfl⟩) (by decide)

example : high.executions (runCalls [low] (elaborate ⟨[flipFlop]⟩ divider)) [0] 0 = 1 := by decide

theorem scalar_gated : false = false → [3].length = 1 ∧ [3].length = 1 := by decide

def gatedClock : CompiledModule where
  ports := [⟨"clk", .input, 0⟩, ⟨"en", .input, 1⟩]
  signalNames := ["clk", "en", "g", "q"]
  signalIsReg := [false, false, false, true]
  exprNodes := [.signal 0, .signal 1, .binaryAnd 0 1, .literal .H]
  assigns := [{ lhsSignal := 2, exprRoot := 2 }]
  alwaysFfs := [{ events := [⟨.posedge, 2⟩]
                  roots := [.assign { nonblocking := true, lhs := [3], rhs := [3], scalar := scalar_gated }] }]

/-- No edge is lost: over a call that raises the settled value of `s`, the block runs in that
call or in the next one. -/
def NoEdgeLost (d : CompiledDesign) (top : CompiledModule) (p : List Nat) (b s : Nat) : Prop :=
  ∀ (calls : List Call) (c c' : Call), c.processSequential = true → c'.processSequential = true →
    valueAt (runCalls calls (elaborate d top)) p s = .L →
    valueAt (c.run (runCalls calls (elaborate d top))) p s = .H →
    c.executions (runCalls calls (elaborate d top)) p b +
      c'.executions (c.run (runCalls calls (elaborate d top))) p b = 1

theorem gatedClock_edge_lost : ¬ NoEdgeLost ⟨[]⟩ gatedClock [] 0 2 := by
  intro h
  have hedge := h [{ pins := [some .L, some .H], tick := 1 }] { pins := [some .H, some .H], tick := 2 }
    { pins := [some .H, some .H], tick := 3 } rfl rfl (by decide) (by decide)
  exact absurd hedge (by decide)

end ClockEdges

end PhyEngine.Verilog
