import PhyEngine.Verilog.Acyclic

/-!
# Nets with several drivers

A pass gives a driven net the resolution of what its drivers contribute: floating
contributions are ignored, agreement is kept and a conflict is unknown. Resolution is a
join: what adds nothing to the resolution is what adds nothing to any contribution.
-/

namespace PhyEngine.Verilog

open ModuleState InstanceNode List RoseTree

def Absorbs (a b : LogicT) : Prop := resolveNetDrivers a b = b

instance (a b : LogicT) : Decidable (Absorbs a b) := inferInstanceAs (Decidable (_ = _))

theorem absorbs_refl (a : LogicT) : Absorbs a a := by
  cases a <;> decide

variable {a b : LogicT} {n : InstanceNode} {kids cs : List InstanceState} {tick : UInt64} {height : Nat}

theorem absorbs_antisymm (h : Absorbs a b) (h' : Absorbs b a) : a = b := by
  revert h h'
  cases a <;> cases b <;> decide

theorem absorbs_resolve_iff {c : LogicT} : Absorbs (resolveNetDrivers a b) c ↔ Absorbs a c ∧ Absorbs b c := by
  cases a <;> cases b <;> cases c <;> decide

variable {vs : List LogicT}

theorem absorbs_joined_iff {c : LogicT} : Absorbs (joined vs) c ↔ ∀ v ∈ vs, Absorbs v c := by
  have hfold (a : LogicT) : Absorbs (vs.foldl resolveNetDrivers a) c ↔ Absorbs a c ∧ ∀ v ∈ vs, Absorbs v c := by
    induction vs generalizing a with
    | nil => simp
    | cons v vs ih => rw [foldl_cons, ih, absorbs_resolve_iff, forall_mem_cons, and_assoc]
  have hbot : Absorbs .Z c := by
    cases c <;> decide
  rw [joined, hfold]
  exact ⟨fun h => h.2, fun h => ⟨hbot, h⟩⟩

theorem eq_of_absorbs_iff (h : ∀ c, Absorbs a c ↔ Absorbs b c) : a = b :=
  absorbs_antisymm ((h b).mpr (absorbs_refl b)) ((h a).mp (absorbs_refl a))

theorem joined_eq (vs : List LogicT) : joined vs =
    if ∀ v ∈ vs, v = .Z then .Z
    else if ∀ v ∈ vs, v = .Z ∨ v = .L then .L
    else if ∀ v ∈ vs, v = .Z ∨ v = .H then .H else .X := by
  have hZ (v : LogicT) : Absorbs v .Z ↔ v = .Z := by
    cases v <;> decide
  have hL (v : LogicT) : Absorbs v .L ↔ v = .Z ∨ v = .L := by
    cases v <;> decide
  have hH (v : LogicT) : Absorbs v .H ↔ v = .Z ∨ v = .H := by
    cases v <;> decide
  have hz := (@absorbs_joined_iff vs .Z).trans (forall₂_congr fun v _ => hZ v)
  have hl := (@absorbs_joined_iff vs .L).trans (forall₂_congr fun v _ => hL v)
  have hh := (@absorbs_joined_iff vs .H).trans (forall₂_congr fun v _ => hH v)
  simp only [← hz, ← hl, ← hh]
  cases joined vs <;> decide

def contributions (ws : List (Nat × LogicT)) (s : Nat) : List LogicT := (ws.filter fun w => w.1 = s).map Prod.snd

theorem contributions_append (ws ws' : List (Nat × LogicT)) (s : Nat) :
    contributions (ws ++ ws') s = contributions ws s ++ contributions ws' s := by
  simp [contributions]

theorem contributions_eq_nil {ws : List (Nat × LogicT)} {s : Nat} (h : s ∉ ws.map Prod.fst) :
    contributions ws s = [] := by
  refine map_eq_nil_iff.mpr (filter_eq_nil_iff.mpr fun w hw heq => h ?_)
  exact mem_map.mpr ⟨w, hw, of_decide_eq_true heq⟩

def ownDrives (n : InstanceNode) (s : Nat) : List LogicT :=
  contributions (assignWrites n.mod n.mod.assigns n.state.values) s

theorem contributions_assignWrites_congr {m : CompiledModule} {as : List ContinuousAssign}
    {values values' : List LogicT} {s : Nat}
    (h : ∀ a ∈ as, a.lhsSignal = s → a.drive m values' = a.drive m values) :
    contributions (assignWrites m as values') s = contributions (assignWrites m as values) s := by
  induction as with
  | nil => rfl
  | cons a as ih =>
    have hrest := ih fun a' ha' => h a' (mem_cons_of_mem _ ha')
    have hcons (vs : List LogicT) : assignWrites m (a :: as) vs = assignWrites m [a] vs ++ assignWrites m as vs := by
      rw [assignWrites, ← singleton_append, filterMap_append]
      rfl
    have hhead : contributions (assignWrites m [a] values') s = contributions (assignWrites m [a] values) s := by
      by_cases hs : a.lhsSignal = s
      · rw [assignWrites, filterMap_cons, h a mem_cons_self hs]
        rfl
      · have hnone (vs : List LogicT) : contributions (assignWrites m [a] vs) s = [] := by
          refine contributions_eq_nil fun hmem => ?_
          obtain ⟨w, hw, heq⟩ := mem_map.mp hmem
          obtain ⟨a', ha', hw⟩ := mem_filterMap.mp hw
          obtain ⟨v, -, rfl⟩ := Option.map_eq_some_iff.mp hw
          obtain rfl := mem_singleton.mp ha'
          exact hs heq
        rw [hnone, hnone]
    rw [hcons, hcons, contributions_append, contributions_append, hhead, hrest]

theorem ownDrives_congr {n' : InstanceNode} {s : Nat} (hmod : n'.mod = n.mod)
    (h : ∀ a ∈ n.mod.assigns, a.lhsSignal = s → ∀ r ∈ a.reads n.mod, n'.get r = n.get r) :
    ownDrives n' s = ownDrives n s := by
  rw [ownDrives, ownDrives, hmod]
  exact contributions_assignWrites_congr fun a ha hs => drive_congr (h a ha hs)

theorem nextNet_driveAll_net {s : Nat} (h : n.resolved s = true) (ws : List (Nat × LogicT)) :
    (driveAll n ws).nextNet s = (contributions ws s).foldl resolveNetDrivers (n.nextNet s) := by
  induction ws generalizing n with
  | nil => rfl
  | cons w ws ih =>
    have hrest := @ih (driveSignalNext n w.1 w.2) ((resolved_congr (static_driveSignalNext n w.1 w.2) s).trans h)
    rw [driveAll, foldl_cons, ← driveAll, hrest, nextNet_driveSignalNext, contributions, contributions, filter_cons]
    by_cases hs : w.1 = s
    · rw [if_pos ⟨hs.symm, hs ▸ h⟩, if_pos (decide_eq_true hs), hs]
      rfl
    · rw [if_neg fun hc => hs hc.1.symm, if_neg fun hc => hs (of_decide_eq_true hc)]

theorem nextNet_runAssigns {n : InstanceNode} {as : List ContinuousAssign} {s : Nat} {C : Nat → Prop}
    {values : List LogicT}
    (h : n.resolved s = true) (hreads : ∀ a ∈ as, a.lhsSignal = s → ∀ r ∈ a.reads n.mod, C r)
    (hapart : ∀ a ∈ as, ¬ C a.lhsSignal) (hvalues : ∀ r, C r → n.get r = values.getD r .X) :
    (runAssigns n as).nextNet s = (contributions (assignWrites n.mod as values) s).foldl resolveNetDrivers
    (n.nextNet s) := by
  induction as generalizing n with
  | nil => rfl
  | cons a as ih =>
    have hreads' : ∀ a ∈ as, a.lhsSignal = s → ∀ r ∈ a.reads n.mod, C r :=
      fun a' ha' => hreads a' (mem_cons_of_mem _ ha')
    have hapart' : ∀ a ∈ as, ¬ C a.lhsSignal := fun a' ha' => hapart a' (mem_cons_of_mem _ ha')
    have hskip (n' : InstanceNode) : runAssigns n' (a :: as) =
        runAssigns ((a.drive n'.mod n'.state.values).elim n' (driveSignalNext n' a.lhsSignal)) as := by
      unfold runAssigns
      rw [foldl_cons]
      cases a.drive n'.mod n'.state.values <;> rfl
    have hcons (v : Option LogicT) (hv : a.drive n.mod values = v) :
      contributions (assignWrites n.mod (a :: as) values) s =
        (if a.lhsSignal = s then v.toList else []) ++ contributions (assignWrites n.mod as values) s := by
      rw [assignWrites, filterMap_cons, hv, assignWrites]
      cases v with
      | none => simp
      | some v =>
        rw [Option.map_some]
        by_cases hs : a.lhsSignal = s
        · simp [contributions, hs]
        · simp [contributions, hs]
    rw [hskip, hcons _ rfl]
    cases hd : a.drive n.mod n.state.values with
    | none =>
      rw [Option.elim_none, ih h hreads' hapart' hvalues]
      by_cases hs : a.lhsSignal = s
      · have hsame : a.drive n.mod values = none := by
          rw [← hd]
          exact drive_congr fun r hr => (hvalues r (hreads a mem_cons_self hs r hr)).symm
        rw [if_pos hs, hsame]
        rfl
      · rw [if_neg hs, nil_append]
    | some v =>
      rw [Option.elim_some]
      have hframe : NodeFrame (fun q => ¬ C q) (fun _ => True) n (driveSignalNext n a.lhsSignal v) :=
        frame_driveSignalNext (hapart a mem_cons_self) v
      have hstatic := hframe.static
      have hrec := @ih (driveSignalNext n a.lhsSignal v) ((resolved_congr hstatic s).trans h) (hstatic.mod ▸ hreads')
        hapart'
        fun r hr => (hframe.state.get r fun hn => hn hr).trans (hvalues r hr)
      rw [hrec, hstatic.mod, nextNet_driveSignalNext, foldl_append]
      by_cases hs : a.lhsSignal = s
      · have hsame : a.drive n.mod values = some v := by
          rw [← hd]
          exact drive_congr fun r hr => (hvalues r (hreads a mem_cons_self hs r hr)).symm
        rw [if_pos ⟨hs.symm, hs ▸ h⟩, if_pos hs, hsame, hs]
        rfl
      · rw [if_neg fun hc => hs hc.1.symm, if_neg hs]
        rfl

theorem nextNetValues_execRoots (m : CompiledModule) (tick : UInt64) (ss : List Stmt) (st : ModuleState) :
    (execRoots m tick ss st).1.nextNetValues = st.nextNetValues := by
  have hrel : StepRel fun x y : Exec => y.st.nextNetValues = x.st.nextNetValues :=
    ⟨fun _ => rfl, fun _ _ _ h h' => h'.trans h, fun _ _ => rfl⟩
  have hassign (a : Assign) (x : Exec) : (execAssign m tick a x).st.nextNetValues = x.st.nextNetValues := by
    unfold execAssign
    split_ifs
    · rfl
    · rfl
    · rfl
    · rfl
    · exact (sameBut_assignAll _ _).nextNetValues
  induction ss generalizing st with
  | nil => rfl
  | cons s ss ih => exact (ih _).trans (hrel.execStmt s (fun a _ => hassign a) { st })

theorem nextNetValues_runAlwaysCombs (m : CompiledModule) (tick : UInt64) (token : UInt32) (any : Bool)
    (acs : List AlwaysComb)
    (st : ModuleState) : (runAlwaysCombs m tick token any acs st).1.nextNetValues = st.nextNetValues := by
  induction acs generalizing st with
  | nil => rfl
  | cons ac acs ih =>
    unfold runAlwaysCombs
    split
    · exact (ih _).trans (nextNetValues_execRoots m tick ac.roots st)
    · exact ih st

theorem nbaQueue_driveSignalNext (n : InstanceNode) (s : Nat) (v : LogicT) :
    (driveSignalNext n s v).state.nbaQueue = n.state.nbaQueue := by
  unfold driveSignalNext
  split_ifs
  · rfl
  · exact (sameBut_assignSignal _ _ _).nbaQueue
  · exact (sameBut_assignSignal _ _ _).nbaQueue
  · rfl

theorem keeps_runAssigns (as : List ContinuousAssign) (h : HasRoom n) :
    (runAssigns n as).state.nbaQueue = n.state.nbaQueue ∧ HasRoom (runAssigns n as) := by
  induction as generalizing n with
  | nil => exact ⟨rfl, h⟩
  | cons a as ih =>
    rw [runAssigns, foldl_cons]
    cases a.drive n.mod n.state.values with
    | none => exact ih h
    | some v =>
      obtain ⟨hqueue, hroom⟩ := ih (hasRoom_driveSignalNext h a.lhsSignal v)
      exact ⟨hqueue.trans (nbaQueue_driveSignalNext n _ v), hroom⟩

theorem nbaQueue_driveAll (n : InstanceNode) (ws : List (Nat × LogicT)) :
    (driveAll n ws).state.nbaQueue = n.state.nbaQueue := by
  induction ws generalizing n with
  | nil => rfl
  | cons w ws ih => exact (ih _).trans (nbaQueue_driveSignalNext n w.1 w.2)

theorem get_driveSignalNext_net {s : Nat} (h : n.resolved s = true) (q : Nat) (v : LogicT) :
    (driveSignalNext n q v).get s = n.get s := by
  by_cases hq : q = s
  · rw [InstanceNode.get, ModuleState.get, hq, values_driveSignalNext_resolved h]
    rfl
  · have hframe : NodeFrame (· ≠ s) (fun _ => True) n (driveSignalNext n q v) := frame_driveSignalNext hq v
    exact hframe.state.get s fun hs => hs rfl

theorem get_driveAll_net {s : Nat} (h : n.resolved s = true) (ws : List (Nat × LogicT)) :
    (driveAll n ws).get s = n.get s := by
  induction ws generalizing n with
  | nil => rfl
  | cons w ws ih =>
    have hres := (resolved_congr (static_driveSignalNext n w.1 w.2) s).trans h
    exact (ih hres).trans (get_driveSignalNext_net h w.1 w.2)

theorem get_runAssigns_net {s : Nat} (h : n.resolved s = true) (as : List ContinuousAssign) :
    (runAssigns n as).get s = n.get s := by
  induction as generalizing n with
  | nil => rfl
  | cons a as ih =>
    rw [runAssigns, foldl_cons]
    cases a.drive n.mod n.state.values with
    | none => exact ih h
    | some v =>
      have hres := (resolved_congr (static_driveSignalNext n a.lhsSignal v) s).trans h
      exact (ih hres).trans (get_driveSignalNext_net h a.lhsSignal v)

def beforeCopy (tick : UInt64) (token : UInt32) (any : Bool) (n : InstanceNode) (kids : List InstanceState) :
    InstanceNode :=
  (runCombLocal tick token any (kids.foldl (fun n c => propagateChildToParent c.value n) (prepareNetDrives n))).1

structure Ready (s : Nat) (v : LogicT) (n n' : InstanceNode) : Prop where
  room : HasRoom n'
  resolved : n'.resolved s = true
  idle : ¬ Queued n' s
  get : n'.get s = n.get s
  next : n'.nextNet s = v

/-- The next value of a net is the resolution of its drivers, where no assignment to it
reads a signal that the pass writes. -/
theorem ready_beforeCopy {s : Nat} {C : Nat → Prop} (tick : UInt64) (token : UInt32) (any : Bool)
    (h : n.resolved s = true) (hcomb : s ∉ n.mod.combWrites) (hq : ¬ Queued n s)
    (hreads : ∀ a ∈ n.mod.assigns, a.lhsSignal = s → ∀ r ∈ a.reads n.mod, C r)
    (hC : ∀ r, C r → r ∉ n.mod.combWrites ∧ r ∉ n.mod.assignTargets ∧ r ∉ driveTargets kids) :
    Ready s (joined (contributions (kids.flatMap fun c => childWrites c.value) s ++ ownDrives n s)) n
      (beforeCopy tick token any n kids) := by
  have hprep : NodeFrame (fun q => ¬ C q) (fun _ => True) n (prepareNetDrives n) := frame_prepareNetDrives n
  have hkids : NodeFrame (fun q => ¬ C q) (fun _ => True) (prepareNetDrives n)
      (kids.foldl (fun n c => propagateChildToParent c.value n) (prepareNetDrives n)) := by
    refine NodeFrame.foldl fun c hc n' _ => frame_propagateChildToParent fun d hd hr => (hC _ hr).2.2 ?_
    exact mem_flatMap.mpr ⟨c, hc, mem_map_of_mem hd⟩
  have hres₁ := (resolved_congr hprep.static s).trans h
  have hroom := hasRoom_driveAll (hasRoom_prepareNetDrives n) (kids.flatMap fun c => childWrites c.value)
  have hqueue := nbaQueue_driveAll (prepareNetDrives n) (kids.flatMap fun c => childWrites c.value)
  have hget₁ := get_driveAll_net hres₁ (kids.flatMap fun c => childWrites c.value)
  have hnext := nextNet_driveAll_net hres₁ (kids.flatMap fun c => childWrites c.value)
  rw [nextNet_prepareNetDrives h] at hnext
  rw [beforeCopy]
  rw [← propagateKids_eq] at hroom hqueue hnext hget₁
  have hframe := hprep.trans hkids
  generalize kids.foldl (fun n c => propagateChildToParent c.value n) (prepareNetDrives n) =
    n₁ at hroom hqueue hnext hget₁ hframe
  have hmod : n₁.mod = n.mod := hframe.static.mod
  -- the procedural blocks
  have hcombs : StateFrame (· ∈ n.mod.combWrites) (fun _ => True) n₁.state
      (runAlwaysCombs n₁.mod tick token any n₁.mod.alwaysCombs n₁.state).1 := by
    refine frame_runAlwaysCombs (fun ac hac q hq => ?_) (fun _ _ _ _ => trivial) n₁.state
    rw [hmod] at hac
    exact mem_flatMap.mpr ⟨ac, hac, hq⟩
  have hkeep := nextNetValues_runAlwaysCombs n₁.mod tick token any n₁.mod.alwaysCombs n₁.state
  rw [runCombLocal]
  dsimp only
  generalize runAlwaysCombs n₁.mod tick token any n₁.mod.alwaysCombs n₁.state = r at hcombs hkeep
  have hstatic₂ : SameStatic n₁ { n₁ with state := r.1 } := (NodeFrame.ofState hcombs).static
  have hres₂ : InstanceNode.resolved { n₁ with state := r.1 } s = true :=
    (resolved_congr (hframe.static.trans hstatic₂) s).trans h
  have hroom₂ : HasRoom { n₁ with state := r.1 } := by
    refine ⟨?_, ?_⟩
    · dsimp only
      rw [hcombs.length, hkeep]
      exact hroom.1
    · dsimp only
      rw [hcombs.length]
      exact hroom.2
  have hnext₂ : InstanceNode.nextNet { n₁ with state := r.1 } s =
      (contributions (kids.flatMap fun c => childWrites c.value) s).foldl resolveNetDrivers .Z := by
    rw [← hnext, nextNet, nextNet, hkeep]
  have hheld₂ (q : Nat) (hq : C q) : InstanceNode.get { n₁ with state := r.1 } q = n.get q :=
    (hcombs.get q (hC q hq).1).trans (hframe.state.get q fun hn => hn hq)
  have hget₂ : InstanceNode.get { n₁ with state := r.1 } s = n.get s := (hcombs.get s hcomb).trans hget₁
  have hqueue₂ : s ∉ (InstanceNode.state { n₁ with state := r.1 }).nbaQueue.map Prod.fst := by
    obtain ⟨ws, hws, hT⟩ := hcombs.nba
    have hfirst : n₁.state.nbaQueue = n.state.nbaQueue := hqueue
    dsimp only
    rw [hws, hfirst, map_append]
    intro hmem
    rcases mem_append.mp hmem with hmem | hmem
    · exact hq hmem
    · obtain ⟨w, hw, heq⟩ := mem_map.mp hmem
      exact hcomb (heq ▸ hT w hw)
  have hmod₂ : InstanceNode.mod { n₁ with state := r.1 } = n.mod := hmod
  have hlist : n₁.mod.assigns = n.mod.assigns := congrArg CompiledModule.assigns hmod
  rw [hlist]
  generalize ({ n₁ with state := r.1 } : InstanceNode) = n₂ at hres₂ hroom₂ hnext₂ hheld₂ hget₂ hqueue₂ hmod₂
  -- the continuous assignments
  have hnets := @nextNet_runAssigns n₂ n.mod.assigns s C n.state.values hres₂ (hmod₂ ▸ hreads)
    (fun a ha hr => (hC _ hr).2.1 (mem_map_of_mem ha)) hheld₂
  obtain ⟨hqueue₃, hroom₃⟩ := keeps_runAssigns n.mod.assigns hroom₂
  have hassigns : NodeFrame (fun _ => True) (fun _ => True) n₂ (runAssigns n₂ n.mod.assigns) :=
    frame_runAssigns fun _ _ => trivial
  refine ⟨hroom₃, (resolved_congr hassigns.static s).trans hres₂, ?_, (get_runAssigns_net hres₂ _).trans hget₂, ?_⟩
  · rw [Queued, hqueue₃]
    exact hqueue₂
  · rw [hnets, hnext₂, hmod₂, joined, foldl_append]
    rfl

variable {token : UInt32} {any : Bool} {v : LogicT}

theorem Ready.get_settleRoot {s : Nat}
    (h : Ready s v n (beforeCopy tick token any n kids)) :
    (settleRoot tick token any (prepareNetDrives n) kids).1.get s = v := by
  have hidle : ¬ Queued (applyNetDrives (beforeCopy tick token any n kids)).1 s := by
    rw [Queued, nbaQueue_applyNetDrives]
    exact h.idle
  refine (get_applyNba_of_not_queued hidle).trans ?_
  rw [get_applyNetDrives h.room, if_pos h.resolved, h.next]

theorem Ready.get_of_not_changed {s : Nat}
    (h : Ready s v n (beforeCopy tick token any n kids))
    (hchanged : (settleRoot tick token any (prepareNetDrives n) kids).2 = false) : v = n.get s := by
  have hnets : (applyNetDrives (beforeCopy tick token any n kids)).2 = false :=
    (Bool.or_eq_false_iff.mp (Bool.or_eq_false_iff.mp hchanged).2).1
  have hsame : (applyNetDrives (beforeCopy tick token any n kids)).1.state =
    (beforeCopy tick token any n kids).state := by
    unfold applyNetDrives at hnets ⊢
    dsimp only at hnets ⊢
    split at hnets
    · rename_i hroom
      rw [if_pos hroom]
    · rename_i hroom
      rw [if_neg hroom]
      exact (assignAll_of_not_changed hnets).1
  have hcopied := get_applyNetDrives h.room s
  rw [if_pos h.resolved, h.next] at hcopied
  rw [← hcopied, InstanceNode.get, hsame]
  exact h.get

/-- What every pass of a loop keeps holds at its end, and what every pass brings about holds
there too, since the loop makes a pass. -/
theorem settleLoop_rule {resolve : InstanceState → InstanceState × Bool} {tick : UInt64} {P Q : InstanceState → Prop}
    (hpass : ∀ token any n cs, P (.node n cs) →
      P (settlePass resolve tick token any (.node (epoch n) cs)).1 ∧
        Q (settlePass resolve tick token any (.node (epoch n) cs)).1)
    (iters : Nat) (token : UInt32) (any : Bool) {t : InstanceState} (h : P t) :
    P (settleLoop resolve tick (iters + 1) token any t).inst ∧
      Q (settleLoop resolve tick (iters + 1) token any t).inst := by
  induction iters generalizing token any t with
  | zero =>
    obtain ⟨n, cs⟩ := t
    obtain ⟨token', any', heq⟩ := settleLoop_succ resolve tick 0 token any n cs
    rw [heq, settleLoop, ite_self]
    exact hpass token any n cs h
  | succ iters ih =>
    obtain ⟨n, cs⟩ := t
    obtain ⟨token', any', heq⟩ := settleLoop_succ resolve tick (iters + 1) token any n cs
    have hnext := hpass token any n cs h
    rw [heq]
    split_ifs
    · exact hnext
    · exact ih token' any' hnext.1

structure NetState (K : SignalSets) (s : Nat) (t : InstanceState) : Prop where
  steady : Steady K t
  resolved : t.value.resolved s = true
  comb : s ∉ t.value.mod.combTargets
  held : ∀ a ∈ t.value.mod.assigns, a.lhsSignal = s → ∀ r ∈ a.reads t.value.mod, K [] r
  idle : ∀ q, q = s ∨ K [] q → ¬ Queued t.value q

namespace NetState

variable {K : SignalSets} {s : Nat} {t t' : InstanceState}

theorem of_kept (h : NetState K s t) (hk : Kept K t t') :
    NetState K s t' ∧ ownDrives t'.value s = ownDrives t.value s := by
  have hstatic := hk.static_value
  have hempty : t'.value.state.nbaQueue = [] := by
    obtain ⟨_, _, empty, _, _, _, _⟩ := hk
    exact empty
  refine ⟨⟨h.steady.of_kept hk, (resolved_congr hstatic s).trans h.resolved, ?_, ?_, fun q _ =>
    not_queued_of_empty hempty q⟩, ?_⟩
  · rw [hstatic.mod]
    exact h.comb
  · rw [hstatic.mod]
    exact h.held
  · refine ownDrives_congr hstatic.mod fun a ha hs r hr => ?_
    have hr := h.held a ha hs r hr
    exact (hk.get_value r hr).trans (get_applyNba_of_not_queued (h.idle r (Or.inr hr)))

section

variable (h : NetState K s (.node n cs))
include h

theorem of_root {n' : InstanceNode} (static : SameStatic n n')
    (hnba : n'.state.nbaQueue = n.state.nbaQueue) (hget : ∀ q, K [] q → n'.get q = n.get q) :
    NetState K s (.node n' cs) ∧ ownDrives n' s = ownDrives n s := by
  refine ⟨⟨h.steady.of_root static hnba hget, (resolved_congr static s).trans h.resolved, ?_, ?_, fun q hq => ?_⟩, ?_⟩
  · rw [value_node, static.mod]
    exact h.comb
  · rw [value_node, static.mod]
    exact h.held
  · rw [value_node, Queued, hnba]
    exact h.idle q hq
  · exact ownDrives_congr static.mod fun a ha hs r hr => hget r (h.held a ha hs r hr)

theorem epoch :
    NetState K s (.node (epoch n) cs) ∧ ownDrives (Verilog.epoch n) s = ownDrives n s :=
  h.of_root (static_epoch n) rfl fun _ _ => rfl

theorem get_settlePass {resolve : InstanceState → InstanceState × Bool}
    (hkids : driveTargets (settledKids resolve (Verilog.epoch n) cs) = driveTargets cs) (tick : UInt64) (token : UInt32)
    (any : Bool) :
    (settlePass resolve tick token any (.node (Verilog.epoch n) cs)).1.value.get s =
        joined (contributions ((settledKids resolve (Verilog.epoch n) cs).flatMap fun c => childWrites c.value) s ++
          ownDrives n s) ∧
      ((settlePass resolve tick token any (.node (Verilog.epoch n) cs)).2 = false →
        (settlePass resolve tick token any (.node (Verilog.epoch n) cs)).1.value.get s = n.get s) := by
  obtain ⟨hnet, hown⟩ := h.epoch
  have hapart (r : Nat) (hr : K [] r) : r ∉ n.mod.combWrites ∧ r ∉ n.mod.assignTargets ∧
      r ∉ driveTargets (settledKids resolve (Verilog.epoch n) cs) := by
    rw [hkids]
    obtain ⟨apart, _, _, _, _⟩ := h.steady
    have hr := apart r hr
    exact ⟨fun hs => hr (Or.inl hs), fun hs => hr (Or.inr (Or.inl hs)), fun hs => hr (Or.inr (Or.inr hs))⟩
  have hready := ready_beforeCopy tick token any hnet.resolved (fun hs =>
    hnet.comb (CompiledModule.combTargets_of_writes hs))
    (hnet.idle s (Or.inl rfl)) hnet.held hapart
  have hget := hready.get_settleRoot
  rw [settlePass_fst]
  refine ⟨hget.trans (by rw [value_node, hown]), fun hchanged => hget.trans ?_⟩
  have hroot : (settleRoot tick token any (prepareNetDrives (Verilog.epoch n))
    (settledKids resolve (Verilog.epoch n) cs)).2 = false := by
    simp only [settlePass, value_node, children_node, Bool.or_eq_false_iff, List.map_map] at hchanged
    exact hchanged.1
  exact hready.get_of_not_changed hroot

end

end NetState

def opened (n : InstanceNode) : InstanceNode := { n with state := (beginCombResolve n.state).1 }

def snapshot (n : InstanceNode) : InstanceNode := { n with state := { n.state with combPrevValues := n.state.values } }

theorem get_opened (n : InstanceNode) (s : Nat) : (opened n).get s = n.get s := by
  have hframe := quiet_beginCombResolve n.state
  exact hframe.get s id

theorem static_opened (n : InstanceNode) : SameStatic n (opened n) := by
  have hframe := quiet_beginCombResolve n.state
  exact (NodeFrame.ofState hframe).static

theorem nbaQueue_opened (n : InstanceNode) : (opened n).state.nbaQueue = n.state.nbaQueue := by
  have hframe := quiet_beginCombResolve n.state
  obtain ⟨ws, hws, hT⟩ := hframe.nba
  rw [opened, hws, eq_nil_iff_forall_not_mem.mpr hT, append_nil]

theorem combResolve_rule {tick : UInt64} {height : Nat} {P Q : InstanceState → Prop}
    (hstart : ∀ n cs, P (.node n cs) → P (.node (opened n) cs))
    (hloop : ∀ token any t, P t → Q (settleLoop (combResolve tick height) tick maxIter token any t).inst)
    (hend : ∀ n cs, Q (.node n cs) → Q (.node (snapshot n) cs)) {t : InstanceState} (h : P t) :
    Q (combResolve tick (height + 1) t).1 := by
  obtain ⟨n, cs⟩ := t
  have hq := hloop (beginCombResolve n.state).1.changeToken (beginCombResolve n.state).2 _ (hstart n cs h)
  rw [combResolve, combResolveWith]
  dsimp only [value_node, withValue_node]
  rw [opened] at hq
  generalize settleLoop (combResolve tick height) tick maxIter (beginCombResolve n.state).1.changeToken
    (beginCombResolve n.state).2 (node { n with state := (beginCombResolve n.state).1 } cs) = s at hq ⊢
  obtain ⟨⟨n', cs'⟩, changed, settled⟩ := s
  exact hend n' cs' hq

theorem kept_kids (tick : UInt64) {t : InstanceState} (hheight : t.height ≤ height + 1) (K : SignalSets)
    (c : InstanceState) (hc : c.height < t.height) (hs : Steady K c) : Kept K c (combResolve tick height c).1 :=
  kept_combResolve height (by omega) hs

structure OwnNet (K : SignalSets) (s : Nat) (vs : List LogicT) (height : Nat) (t : InstanceState) : Prop where
  net : NetState K s t
  alone : s ∉ driveTargets t.children
  drives : ownDrives t.value s = vs
  height : t.height ≤ height

theorem contributions_kids_eq_nil {s : Nat} (h : s ∉ driveTargets kids) :
    contributions (kids.flatMap fun c => childWrites c.value) s = [] := by
  refine contributions_eq_nil fun hmem => h ?_
  obtain ⟨w, hw, rfl⟩ := mem_map.mp hmem
  obtain ⟨c, hc, hwc⟩ := mem_flatMap.mp hw
  exact mem_flatMap.mpr ⟨c, hc, (map_fst_childWrites c.value).subset (mem_map_of_mem hwc)⟩

theorem OwnNet.settlePass {K : SignalSets} {s : Nat} (h : OwnNet K s vs (height + 1) (.node n cs))
    (tick : UInt64) (token : UInt32) (any : Bool) :
    OwnNet K s vs (height + 1) (settlePass (combResolve tick height) tick token any (.node (epoch n) cs)).1 ∧
      (settlePass (combResolve tick height) tick token any (.node (epoch n) cs)).1.value.get s = joined vs := by
  have hkept := kept_settlePass_epoch tick token any (kept_kids tick h.height) h.net.steady
  obtain ⟨hnet, hown⟩ := h.net.of_kept hkept
  have hsame := hkept.sameDesign
  rw [value_node, withValue_node, settlePass_fst] at hsame
  have hdrives : driveTargets (settledKids (combResolve tick height) (epoch n) cs) = driveTargets cs :=
    hsame.driveTargets
  have hget := (h.net.get_settlePass hdrives tick token any).1
  refine ⟨⟨hnet, ?_, hown.trans h.drives, hkept.height.trans_le h.height⟩, ?_⟩
  · rw [settlePass_fst, children_node, hdrives]
    exact h.alone
  · have hown : ownDrives n s = vs := h.drives
    rw [hget, contributions_kids_eq_nil (hdrives ▸ h.alone), hown, nil_append]

theorem NetState.get_combResolve {K : SignalSets} {s : Nat} {t : InstanceState} (h : NetState K s t)
    (halone : s ∉ driveTargets t.children) (tick : UInt64) (hheight : t.height ≤ height) :
    (combResolve tick height t).1.value.get s = joined (ownDrives t.value s) := by
  obtain _ | height := height
  · obtain ⟨n, cs⟩ := t
    simp [height] at hheight
  generalize hvs : ownDrives t.value s = vs
  have hrule := @combResolve_rule tick height (OwnNet K s vs (height + 1)) (fun t => t.value.get s = joined vs)
  refine hrule ?_ ?_ (fun n cs hq => hq) ⟨h, halone, hvs, hheight⟩
  · intro n cs h
    obtain ⟨hnet, hown⟩ := h.net.of_root (static_opened n) (nbaQueue_opened n) fun q _ => get_opened n q
    exact ⟨hnet, h.alone, hown.trans h.drives, h.height⟩
  · intro token any t h
    have hloop := @settleLoop_rule (combResolve tick height) tick (OwnNet K s vs (height + 1)) (fun t =>
      t.value.get s = joined vs)
    exact (hloop (fun token any n cs h => h.settlePass tick token any) 63 token any h).2

end PhyEngine.Verilog
