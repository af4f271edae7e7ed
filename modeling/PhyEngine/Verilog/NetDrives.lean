import PhyEngine.Verilog.Steady

/-!
# The resolution of driven nets

A pass clears the next value of every driven net, lets the drivers combine theirs into it
and then copies the next values over the nets. With one driver a net gets the value of its
driver, and without one it floats.
-/

namespace PhyEngine.Verilog

open ModuleState List

theorem resolveNetDrivers_Z (v : LogicT) : resolveNetDrivers .Z v = v := by
  cases v <;> decide

variable {n : InstanceNode} {s : Nat} {ws : List (Nat × LogicT)}

namespace InstanceNode

def nextNet (n : InstanceNode) (s : Nat) : LogicT := n.state.nextNetValues.getD s .Z

/-- Whether a drive of the signal goes to the net resolution, and not to the signal. -/
def resolved (n : InstanceNode) (s : Nat) : Bool :=
  decide (s < n.state.values.length) && n.isDriven s && !n.mod.isReg s

theorem resolved_congr {n' : InstanceNode} (h : SameStatic n n') (s : Nat) :
    n'.resolved s = n.resolved s := by
  rw [resolved, resolved, h.length, h.isDriven, h.mod]

def HasRoom (n : InstanceNode) : Prop :=
  n.state.values.length ≤ n.state.nextNetValues.length ∧ n.state.values.length ≤ n.drivenNets.length

end InstanceNode

open InstanceNode

theorem length_grow {β : Type} (xs : List β) (len : Nat) (x : β) : len ≤ (grow xs len x).length := by
  rw [grow, length_append, length_replicate]
  omega

theorem hasRoom_prepareNetDrives (n : InstanceNode) : HasRoom (prepareNetDrives n) := by
  refine ⟨?_, length_grow _ _ _⟩
  simp only [prepareNetDrives, length_map, length_zipIdx]
  exact length_grow _ _ _

section

variable (h : n.resolved s = true)
include h

theorem nextNet_prepareNetDrives :
    (prepareNetDrives n).nextNet s = .Z := by
  simp only [resolved, Bool.and_eq_true, decide_eq_true_eq] at h
  have hlen := length_grow n.state.nextNetValues n.state.values.length LogicT.Z
  have hdriven : (grow n.drivenNets n.state.values.length false).getD s false = true := by
    rw [getD_grow]
    exact h.1.2
  rw [nextNet, getD_eq_getElem _ _ (by simp [prepareNetDrives]; omega)]
  simp only [prepareNetDrives, getElem_map, getElem_zipIdx, Nat.zero_add, h.1.1, hdriven,
    and_self, if_true]

theorem driveSignalNext_resolved (v : LogicT) :
    driveSignalNext n s v =
      { n with state := { n.state with
          nextNetValues := (grow n.state.nextNetValues n.state.values.length .Z).set s
            (resolveNetDrivers (n.nextNet s) v) } } := by
  simp only [resolved, Bool.and_eq_true, Bool.not_eq_true', decide_eq_true_eq] at h
  have hlt : ¬ n.state.values.length ≤ s := by omega
  simp only [driveSignalNext, hlt, if_false, h.2, Bool.false_eq_true, h.1.2, Bool.not_true,
    getD_grow, nextNet]

theorem values_driveSignalNext_resolved (v : LogicT) :
    (driveSignalNext n s v).state.values = n.state.values := by
  rw [driveSignalNext_resolved h]

end

theorem driveSignalNext_direct (h : n.resolved s = false) (v : LogicT) :
    driveSignalNext n s v = { n with state := (n.state.assignSignal s v).1 } := by
  unfold driveSignalNext
  split
  · rename_i hlen
    have hsame : n.state.assignSignal s v = (n.state, false) := by simp [assignSignal, hlen]
    rw [hsame]
  split
  · rfl
  split
  · rfl
  · rename_i hlen hreg hdriven
    simp only [resolved, Bool.and_eq_false_iff, decide_eq_false_iff_not] at h
    rcases h with (h | h) | h
    · omega
    · simp [h] at hdriven
    · exact absurd h (by simpa using hreg)

theorem nextNet_driveSignalNext (n : InstanceNode) (s : Nat) (v : LogicT) (q : Nat) :
    (driveSignalNext n s v).nextNet q =
      if q = s ∧ n.resolved s = true then resolveNetDrivers (n.nextNet s) v else n.nextNet q := by
  by_cases h : n.resolved s = true
  · rw [driveSignalNext_resolved h]
    have hlen := length_grow n.state.nextNetValues n.state.values.length LogicT.Z
    have hlt : s < n.state.values.length := by
      simp only [resolved, Bool.and_eq_true, decide_eq_true_eq] at h
      exact h.1.1
    by_cases hq : q = s
    · subst hq
      simp only [nextNet, h, and_self, if_true]
      rw [getD_eq_getElem _ _ (by simp; omega), getElem_set_self]
    · simp only [nextNet, hq, false_and, if_false]
      rw [getD_eq_getElem?_getD, getElem?_set_ne (Ne.symm hq), ← getD_eq_getElem?_getD,
        getD_grow]
  · rw [driveSignalNext_direct (by simpa using h)]
    have hnext := (sameBut_assignSignal n.state s v).nextNetValues
    simp [h, nextNet, hnext]

theorem hasRoom_driveSignalNext (h : HasRoom n) (s : Nat) (v : LogicT) :
    HasRoom (driveSignalNext n s v) := by
  by_cases hr : n.resolved s = true
  · rw [driveSignalNext_resolved hr]
    refine ⟨?_, h.2⟩
    simp only [length_set]
    exact length_grow _ _ _
  · rw [driveSignalNext_direct (by simpa using hr)]
    have hsame := sameBut_assignSignal n.state s v
    refine ⟨?_, ?_⟩
    · simp only [hsame.length, hsame.nextNetValues]
      exact h.1
    · simp only [hsame.length]
      exact h.2

def driveAll (n : InstanceNode) (ws : List (Nat × LogicT)) : InstanceNode :=
  ws.foldl (fun n w => driveSignalNext n w.1 w.2) n

theorem driveAll_append (n : InstanceNode) (ws ws' : List (Nat × LogicT)) :
    driveAll n (ws ++ ws') = driveAll (driveAll n ws) ws' := foldl_append

def childWrites (c : InstanceNode) : List (Nat × LogicT) :=
  c.outputDrives.filterMap fun d => (d.source c).map fun v => (d.parentSignal, v)

theorem propagateChildToParent_eq (c n : InstanceNode) :
    propagateChildToParent c n = driveAll n (childWrites c) := by
  unfold propagateChildToParent driveAll childWrites
  generalize c.outputDrives = ds
  induction ds generalizing n with
  | nil => rfl
  | cons d ds ih =>
    rw [foldl_cons, filterMap_cons]
    cases hd : d.source c with
    | none => exact ih n
    | some v => exact ih _

theorem propagateKids_eq (kids : List InstanceState) (n : InstanceNode) :
    kids.foldl (fun n c => propagateChildToParent c.value n) n =
      driveAll n (kids.flatMap fun c => childWrites c.value) := by
  induction kids generalizing n with
  | nil => rfl
  | cons c kids ih =>
    rw [foldl_cons, ih, flatMap_cons, driveAll_append, propagateChildToParent_eq]

def assignWrites (m : CompiledModule) (as : List ContinuousAssign) (values : List LogicT) :
    List (Nat × LogicT) :=
  as.filterMap fun a => (a.drive m values).map fun v => (a.lhsSignal, v)

theorem frame_driveAll (n : InstanceNode) (ws : List (Nat × LogicT)) :
    NodeFrame (fun _ => True) (fun _ => True) n (driveAll n ws) :=
  NodeFrame.foldl fun _ _ _ _ => frame_driveSignalNext trivial _

theorem values_driveAll (h : ∀ w ∈ ws, n.resolved w.1 = true) :
    (driveAll n ws).state = { n.state with nextNetValues := (driveAll n ws).state.nextNetValues } := by
  induction ws generalizing n with
  | nil => rfl
  | cons w ws ih =>
    have hw := h w mem_cons_self
    have hstatic : SameStatic n (driveSignalNext n w.1 w.2) :=
      (frame_driveSignalNext (T := fun _ => True) (E := fun _ => True) trivial w.2).static
    have hrest := ih (n := driveSignalNext n w.1 w.2) fun w' hw' =>
      (resolved_congr hstatic w'.1).trans (h w' (mem_cons_of_mem _ hw'))
    have hhead : (driveSignalNext n w.1 w.2).state =
        { n.state with nextNetValues := (driveSignalNext n w.1 w.2).state.nextNetValues } := by
      rw [driveSignalNext_resolved hw]
    rw [hhead] at hrest
    exact hrest

theorem runAssigns_eq {as : List ContinuousAssign} (h : ∀ a ∈ as, n.resolved a.lhsSignal = true) :
    runAssigns n as = driveAll n (assignWrites n.mod as n.state.values) := by
  induction as generalizing n with
  | nil => rfl
  | cons a as ih =>
    have ha := h a mem_cons_self
    rw [runAssigns, foldl_cons, assignWrites, filterMap_cons]
    cases hd : a.drive n.mod n.state.values with
    | none => exact ih fun a' ha' => h a' (mem_cons_of_mem _ ha')
    | some v =>
      have hstatic : SameStatic n (driveSignalNext n a.lhsSignal v) :=
        (frame_driveSignalNext (T := fun _ => True) (E := fun _ => True) trivial v).static
      have hrest := ih (n := driveSignalNext n a.lhsSignal v) fun a' ha' =>
        (resolved_congr hstatic _).trans (h a' (mem_cons_of_mem _ ha'))
      rw [hstatic.mod, values_driveSignalNext_resolved ha] at hrest
      exact hrest

def driverValue (ws : List (Nat × LogicT)) (s : Nat) (v : LogicT) : LogicT :=
  ws.foldl (fun v w => if w.1 = s then resolveNetDrivers v w.2 else v) v

theorem nextNet_driveAll (h : ∀ w ∈ ws, n.resolved w.1 = true) (s : Nat) :
    (driveAll n ws).nextNet s = driverValue ws s (n.nextNet s) := by
  induction ws generalizing n with
  | nil => rfl
  | cons w ws ih =>
    have hstatic : SameStatic n (driveSignalNext n w.1 w.2) :=
      (frame_driveSignalNext (T := fun _ => True) (E := fun _ => True) trivial w.2).static
    have hrest := ih (n := driveSignalNext n w.1 w.2) fun w' hw' =>
      (resolved_congr hstatic w'.1).trans (h w' (mem_cons_of_mem _ hw'))
    rw [driveAll, foldl_cons, driverValue, foldl_cons]
    rw [driveAll, driverValue, nextNet_driveSignalNext, h w mem_cons_self] at hrest
    rw [hrest]
    by_cases hs : w.1 = s
    · simp [hs]
    · simp [hs, Ne.symm hs]

theorem hasRoom_driveAll (h : HasRoom n) (ws : List (Nat × LogicT)) :
    HasRoom (driveAll n ws) := by
  induction ws generalizing n with
  | nil => exact h
  | cons w ws ih => exact ih (hasRoom_driveSignalNext h w.1 w.2)

theorem driverValue_of_not_mem (h : s ∉ ws.map Prod.fst) (v : LogicT) : driverValue ws s v = v := by
  induction ws generalizing v with
  | nil => rfl
  | cons w ws ih =>
    simp only [map_cons, mem_cons, not_or] at h
    rw [driverValue, foldl_cons, if_neg (Ne.symm h.1)]
    exact ih h.2 v

theorem driverValue_of_mem {v : LogicT} (hnodup : (ws.map Prod.fst).Nodup) (h : (s, v) ∈ ws) :
    driverValue ws s .Z = v := by
  induction ws with
  | nil => cases h
  | cons w ws ih =>
    obtain ⟨hnew, hrest⟩ := nodup_cons.mp hnodup
    rw [driverValue, foldl_cons]
    rcases mem_cons.mp h with rfl | h
    · rw [if_pos rfl, resolveNetDrivers_Z]
      exact driverValue_of_not_mem hnew v
    · have hne : w.1 ≠ s := fun heq => hnew (heq ▸ mem_map_of_mem (f := Prod.fst) h)
      rw [if_neg hne]
      exact ih hrest h

theorem written_map_self {nets : List Nat} {f : Nat → LogicT} (v : LogicT) :
    written (nets.map fun s => (s, f s)) s v = if s ∈ nets then f s else v := by
  induction nets generalizing v with
  | nil => rfl
  | cons q nets ih =>
    rw [map_cons, written_cons, ih]
    by_cases hs : s ∈ nets
    · simp [hs]
    · by_cases hq : q = s
      · simp [hq, hs]
      · simp [hq, hs, Ne.symm hq]

theorem get_applyNetDrives (h : HasRoom n) (s : Nat) :
    (applyNetDrives n).1.get s = if n.resolved s then n.nextNet s else n.get s := by
  have hroom : ¬ (n.state.nextNetValues.length < n.state.values.length ∨
      n.drivenNets.length < n.state.values.length) := by
    obtain ⟨h1, h2⟩ := h
    omega
  rw [applyNetDrives, if_neg hroom]
  refine (get_assignAll _ _ s).trans ?_
  rw [written_map_self]
  by_cases hlt : s < n.state.values.length
  · simp only [hlt, if_true, mem_filter, mem_range, true_and, resolved, decide_true,
      Bool.true_and]
    rfl
  · simp [hlt, resolved, InstanceNode.get, ModuleState.get]

end PhyEngine.Verilog
