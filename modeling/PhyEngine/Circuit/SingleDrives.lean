import PhyEngine.Circuit.TickDelay

/-!
# One drive in each tick

An analog node that a single output pin drives has at most one entry in `digital_out` as long as
its driver cannot drive it twice in a tick (`Once`): the model is called once, or drives in one
call only, or drives when its output changes and reads the same throughout.
-/

namespace PhyEngine

open List

/-! ## Models that drive when their output changes -/

def ModelKind.drivesChange : ModelKind → Bool
  | .caseEq | .isUnknown | .schmittTrigger => true
  | _ => false

section Calls

variable {view view' : NodeId → NodeView} {trDuration trDuration' : Float} {m : Model} {clip : Clip} {o : NodeId}

theorem changeOutput_clip (v : LogicT) : (changeOutput view clip 0 o v).clip = clip.setLast 0 v := by
  simp only [changeOutput]
  split
  · split
    · rename_i hlast
      rw [Clip.setLast, ← hlast, Function.update_eq_self]
    · rfl
  · rfl

theorem changeOutput_again (ho : (view o).analog = true) {v : LogicT} (hlast : clip.last 0 = v) :
    changeOutput view clip 0 o v = ⟨clip, [], none⟩ := by
  simp only [changeOutput, ho, hlast, if_true]

/-- The second of two calls that read the same does nothing. A trigger with overlapping
thresholds would toggle. -/
theorem updateDigitalClk_again (hkind : m.kind.drivesChange = true)
    (hins : ∀ j i, m.pin j = some i → j ∉ m.outPins clip → view' i = view i)
    (houts : ∀ k ∈ m.outPins clip, ∀ o, m.pin k = some o → (view' o).analog = true)
    (hlevels : m.kind = .schmittTrigger → ∀ i, m.pin 0 = some i → (view i).analog = true →
      ¬ ((view i).voltage ≥ clip.vthHigh ∧ (view i).voltage ≤ clip.vthLow)) (method method' : DigitalUpdateMethod) :
    updateDigitalClk view' trDuration' method' m (updateDigitalClk view trDuration method m clip).clip =
      ⟨(updateDigitalClk view trDuration method m clip).clip, [], none⟩ := by
  have hread (clip' : Clip) {i : NodeId} (hi : view' i = view i) : readDn view' clip' i = readDn view clip' i := by
    simp only [readDn, hi]
  cases hk : m.kind <;> simp only [hk, ModelKind.drivesChange, Bool.false_eq_true] at hkind
  all_goals simp only [updateDigitalClk, hk]
  case caseEq =>
    have hpins : m.outPins clip = [2] := by simp only [Model.outPins, hk]
    rw [hpins] at hins houts
    cases ha : m.pin 0 <;> cases hb : m.pin 1 <;> cases ho : m.pin 2 <;> simp only [updateCaseEq, ha, hb, ho]
    rw [changeOutput_clip, hread _ (hins 0 _ ha (by decide)), hread _ (hins 1 _ hb (by decide))]
    exact changeOutput_again (houts 2 mem_cons_self _ ho) (Clip.last_setLast _ _ _)
  case isUnknown =>
    have hpins : m.outPins clip = [1] := by simp only [Model.outPins, hk]
    rw [hpins] at hins houts
    cases hi : m.pin 0 <;> cases ho : m.pin 1 <;> simp only [updateIsUnknown, hi, ho]
    rw [changeOutput_clip, hread _ (hins 0 _ hi (by decide))]
    exact changeOutput_again (houts 1 mem_cons_self _ ho) (Clip.last_setLast _ _ _)
  case schmittTrigger =>
    have hpins : m.outPins clip = [1] := by simp only [Model.outPins, hk]
    rw [hpins] at hins houts
    cases hi : m.pin 0 <;> cases ho : m.pin 1 <;> simp only [updateSchmittTrigger, hi, ho]
    rename_i i o
    have hanalog := houts 1 mem_cons_self _ ho
    rw [changeOutput_clip, hins 0 _ hi (by decide)]
    by_cases ha : (view i).analog = true
    · have hlevels := hlevels hk i hi ha
      by_cases hhigh : (view i).voltage ≥ clip.vthHigh
      · have hlow : ¬ (view i).voltage ≤ clip.vthLow := fun h => hlevels ⟨hhigh, h⟩
        cases clip.schmittOut <;>
          simp only [ha, hhigh, hlow, Clip.setLast, if_true, if_false] <;> exact changeOutput_again hanalog (by simp)
      · by_cases hlow : (view i).voltage ≤ clip.vthLow
        · cases clip.schmittOut <;>
            simp only [ha, hhigh, hlow, Clip.setLast, if_true, if_false] <;> exact changeOutput_again hanalog (by simp)
        · cases clip.schmittOut <;>
            simp only [ha, hhigh, hlow, Clip.setLast, if_true, if_false] <;> exact changeOutput_again hanalog (by simp)
    · simp only [ha, Bool.false_eq_true, if_false, Clip.setLast]
      exact changeOutput_again hanalog (by simp)

end Calls

/-- The value of an `INPUT` is written by nothing but `set_input`. -/
theorem outputA_updateInput {view : NodeId → NodeView} {trDuration : Float} {m : Model} {clip : Clip}
    (method : DigitalUpdateMethod) (hk : m.kind = .input) :
    (updateDigitalClk view trDuration method m clip).clip.outputA = clip.outputA := by
  simp only [updateDigitalClk, hk, updateInput]
  split
  · simp only [gateOutput]
    split
    · rfl
    · rfl
  · rfl

namespace Circult

/-! ## One tick -/

/-- The output pins on a node. -/
def drivers (c : Circult) (n : NodeId) : List PinRef :=
  c.board.nl.bases.flatMap fun x =>
    ((x.model.outPins (c.clip x.id)).filter fun k => decide (x.model.pin k = some n)).map fun k => ⟨x.id, k⟩

theorem mem_drivers {c : Circult} {n : NodeId} {x : ModelBase} (hx : x ∈ c.board.nl.bases) {k : Nat}
    (hk : k ∈ x.model.outPins (c.clip x.id)) (hpin : x.model.pin k = some n) :
    ⟨x.id, k⟩ ∈ c.drivers n := by
  refine mem_flatMap.mpr ⟨x, hx, mem_map.mpr ⟨k, ?_, rfl⟩⟩
  exact mem_filter.mpr ⟨hk, by simpa using hpin⟩

/-- The nodes a tick may take out of the table: those that are pending or seeded, those the
models of the before phase have something new for, and from there on the digital nodes that
an attached model drives. -/
inductive Active (c : Circult) : NodeId → Prop
  | pending {n : NodeId} (h : n ∈ c.tables) : Active c n
  | always {n : NodeId} (h : n ∈ c.alwaysTables) : Active c n
  | before {x : ModelBase} (hx : x ∈ c.board.nl.bases) (hid : x.id ∈ c.beforeAllClk)
      (hnews : x.model.hasNews (c.clip x.id)) {k : Nat} (hk : k ∈ x.model.outPins (c.clip x.id))
      {n : NodeId} (hpin : x.model.pin k = some n) (hn : c.board.isAnalog n = false) : Active c n
  | spread {m : NodeId} (hm : Active c m) {x : ModelBase} (hx : x ∈ c.board.nl.bases) {j : Nat}
      (hj : x.model.pin j = some m) {k : Nat} (hk : k ∈ x.model.outPins (c.clip x.id)) {n : NodeId}
      (hpin : x.model.pin k = some n) (hn : c.board.isAnalog n = false) : Active c n

/-- The settle loop may call the model: one of its pins is on an active node. -/
def InLoop (c : Circult) (id : Nat) : Prop :=
  ∃ x ∈ c.board.nl.bases, x.id = id ∧ ∃ j m, x.model.pin j = some m ∧ c.Active m

/-- No call with this method drives `n`, whatever the digital nodes hold. -/
def Mute (c : Circult) (method : DigitalUpdateMethod) (x : ModelBase) (n : NodeId) : Prop :=
  ∀ (state : NodeId → LogicT) (clip : Clip), (x.model.kind = .input → clip.outputA = (c.clip x.id).outputA) →
    ∀ d, (updateDigitalClk (fun m => ⟨c.board.isAnalog m, c.voltage m, state m⟩) c.trDuration method x.model
      clip).drive = some d → d.node ≠ n

/-- The settle loop does not write the output nodes of the model. -/
def Still (c : Circult) (y : ModelBase) : Prop :=
  y.model.kind = .tickDelay ∨ (y.model.kind = .eightBitInput ∧ y.id ∈ c.beforeAllClk) ∨ ¬ c.InLoop y.id

/-- A node that reads the same in the whole settle loop: an analog one, one whose drivers the
loop leaves alone, or one that only `INPUT` models of one value drive. -/
def Steady (c : Circult) (p : NodeId) : Prop :=
  c.board.isAnalog p = true ∨
  (∀ y ∈ c.board.nl.bases, ∀ k ∈ y.model.outPins (c.clip y.id), y.model.pin k = some p → c.Still y) ∨
  ∃ v, ∀ y ∈ c.board.nl.bases, ∀ k ∈ y.model.outPins (c.clip y.id), y.model.pin k = some p →
    y.model.kind = .input ∧ y.id ∈ c.beforeAllClk ∧ (c.clip y.id).outputA = v

/-- The calls a tick can make of the model `x` do not drive `n`, the node of its output pin
`k`, more than once. -/
inductive Once (c : Circult) (x : ModelBase) (k : Nat) (n : NodeId) : Prop
  /-- One call outside of the settle loop; the loop does not call the model, or in vain. -/
  | outside (hcalls : c.beforeAllClk.count x.id + c.afterAllClk.count x.id ≤ 1)
      (hloop : c.Mute .updateTable x n ∨ ¬ c.InLoop x.id)
  /-- The settle loop calls the model for the node itself only. -/
  | loop (hbefore : x.id ∉ c.beforeAllClk) (hafter : x.id ∉ c.afterAllClk)
      (hpins : ∀ j m, x.model.pin j = some m → c.Active m → j = k)
  /-- The model drives when its output changes, and its input nodes do not. -/
  | steady (hbefore : x.id ∉ c.beforeAllClk) (hafter : x.id ∉ c.afterAllClk)
      (hkind : x.model.kind.drivesChange = true)
      (hins : ∀ j p, x.model.pin j = some p → j ∉ x.model.outPins (c.clip x.id) → c.Steady p)
      (hlevels : x.model.kind = .schmittTrigger → ∀ i, x.model.pin 0 = some i → c.board.isAnalog i = true →
        ¬ (c.voltage i ≥ (c.clip x.id).vthHigh ∧ c.voltage i ≤ (c.clip x.id).vthLow))

/-- Every analog node that a single output pin drives has at most one entry in
`digital_out`. -/
def SingleDrives (c : Circult) : Prop :=
  ∀ n, c.board.isAnalog n → (c.drivers n).length = 1 →
    c.digitalOut.countP (fun d => decide (d.node = n)) ≤ 1

/-- Each analog node with one driver is entered once. -/
def Quiet (c : Circult) : Prop :=
  ∀ n, c.board.isAnalog n → ∀ x ∈ c.board.nl.bases, ∀ k, c.drivers n = [⟨x.id, k⟩] → c.Once x k n

/-- What a tick that began in `c` leaves as it was. -/
structure Ticking (c c' : Circult) : Prop where
  setup : SameSetup c c'
  outPins : ∀ x ∈ c.board.nl.bases, x.model.outPins (c'.clip x.id) = x.model.outPins (c.clip x.id)
  news : ∀ x ∈ c.board.nl.bases, x.model.hasNews (c'.clip x.id) → x.model.hasNews (c.clip x.id)
  inputs : ∀ x ∈ c.board.nl.bases, x.model.kind = .input → (c'.clip x.id).outputA = (c.clip x.id).outputA

variable {c c' : Circult}

theorem drivers_congr (hboard : c'.board = c.board) (hout : ∀ x ∈ c.board.nl.bases,
    x.model.outPins (c'.clip x.id) = x.model.outPins (c.clip x.id)) (n : NodeId) :
    c'.drivers n = c.drivers n := by
  simp only [drivers, hboard]
  refine flatMap_congr fun x hx => ?_
  rw [hout x hx]

theorem exists_of_mem_drivers {n : NodeId} {p : PinRef} (h : p ∈ c.drivers n) :
    ∃ x ∈ c.board.nl.bases, ∃ k ∈ x.model.outPins (c.clip x.id), x.model.pin k = some n ∧
      p = ⟨x.id, k⟩ := by
  obtain ⟨x, hx, hp⟩ := mem_flatMap.mp h
  obtain ⟨k, hk, rfl⟩ := mem_map.mp hp
  obtain ⟨hout, hpin⟩ := mem_filter.mp hk
  exact ⟨x, hx, k, hout, by simpa using hpin, rfl⟩

theorem Ticking.refl (c : Circult) : Ticking c c :=
  ⟨.refl c, fun _ _ => rfl, fun _ _ h => h, fun _ _ _ => rfl⟩

/-- The table and `digital_out` may change. -/
theorem Ticking.congr (h : Ticking c c') {e : Circult} (hsetup : SameSetup c' e) (hclip : e.clip = c'.clip) :
    Ticking c e :=
  ⟨h.setup.trans hsetup, by simpa only [hclip] using h.outPins, by simpa only [hclip] using h.news,
    by simpa only [hclip] using h.inputs⟩

theorem Ticking.updateModel (hw : c.board.Wired) (h : Ticking c c') (method : DigitalUpdateMethod)
    (id : Nat) : Ticking c (c'.updateModel method id) := by
  have hsetup := h.setup.trans (sameSetup_updateModel method c' id)
  rcases updateModel_cases method c' id with hsame | ⟨x, hx, rfl, hcall⟩
  · rw [hsame]
    exact h
  · rw [h.setup.board] at hx
    have hother : ∀ y : ModelBase, y.id ≠ x.id → (c'.updateModel method x.id).clip y.id = c'.clip y.id :=
      fun y hid => clip_updateModel hid
    have hself : (c'.updateModel method x.id).clip x.id =
        (updateDigitalClk c'.view c'.trDuration method x.model (c'.clip x.id)).clip := by
      rw [hcall]
      exact Function.update_self _ _ _
    have hsame : ∀ y ∈ c.board.nl.bases, y.id = x.id → y = x := fun y hy hid =>
      inj_on_of_nodup_map hw.ids hy hx hid
    refine ⟨hsetup, fun y hy => ?_, fun y hy hnews => ?_, fun y hy hk => ?_⟩
    all_goals by_cases hid : y.id = x.id
    · obtain rfl := hsame y hy hid
      rw [hself, outPins_updateDigitalClk]
      exact h.outPins y hy
    · rw [hother y hid]
      exact h.outPins y hy
    · obtain rfl := hsame y hy hid
      rw [hself] at hnews
      exact h.news y hy (hasNews_updateDigitalClk method hnews)
    · rw [hother y hid] at hnews
      exact h.news y hy hnews
    · obtain rfl := hsame y hy hid
      rw [hself, outputA_updateInput method hk]
      exact h.inputs y hy hk
    · rw [hother y hid]
      exact h.inputs y hy hk

theorem Ticking.foldl (hw : c.board.Wired) (method : DigitalUpdateMethod) (ids : List Nat) :
    ∀ {c' : Circult}, Ticking c c' → Ticking c (ids.foldl (Circult.updateModel method) c') := by
  induction ids with
  | nil => exact fun h => h
  | cons id ids ih => exact fun h => ih (h.updateModel hw method id)

/-- What holds in the settle loop of a tick that began in `c`. -/
structure Looping (c c' : Circult) : Prop where
  ticking : Ticking c c'
  active : ∀ m ∈ c'.tables, c.Active m

/-- Calls of models that are called before the loop or in it enter active nodes only, none of
them analog. -/
theorem Looping.calls (hw : c.board.Wired) (method : DigitalUpdateMethod) (ids : List Nat) :
    ∀ {c' : Circult}, Looping c c' → (∀ id ∈ ids, id ∈ c.beforeAllClk ∨ c.InLoop id) →
      Looping c (ids.foldl (Circult.updateModel method) c') ∧
      ∀ n, c.board.isAnalog n → n ∈ (ids.foldl (Circult.updateModel method) c').tables →
        n ∈ c'.tables := by
  induction ids with
  | nil => exact fun h _ => ⟨h, fun _ _ hn => hn⟩
  | cons id ids ih =>
    intro c' h hids
    have hstep : ∀ m ∈ (c'.updateModel method id).tables, c.Active m := by
      intro m hm
      rcases tables_updateModel hm with hm | ⟨x, hx, rfl, hnews, hanalog, k, hk, hpin⟩
      · exact h.active m hm
      · rw [h.ticking.setup.board] at hx hanalog
        rw [h.ticking.outPins x hx] at hk
        rcases hids x.id mem_cons_self with hbefore | ⟨y, hy, hid, j, m', hj, hm'⟩
        · exact .before hx hbefore (h.ticking.news x hx hnews) hk hpin hanalog
        · obtain rfl : y = x := inj_on_of_nodup_map hw.ids hy hx hid
          exact .spread hm' hy hj hk hpin hanalog
    have hanalog : ∀ n, c.board.isAnalog n → n ∈ (c'.updateModel method id).tables → n ∈ c'.tables := by
      intro n hn hmem
      rcases tables_updateModel hmem with hmem | ⟨x, -, -, -, hdigital, -⟩
      · exact hmem
      · rw [h.ticking.setup.board, hn] at hdigital
        exact absurd hdigital (by simp)
    obtain ⟨hloop, hanalog'⟩ := ih ⟨h.ticking.updateModel hw method id, hstep⟩
      fun id' hid' => hids id' (mem_cons_of_mem _ hid')
    exact ⟨hloop, fun n hn hmem => hanalog n hn (hanalog' n hn hmem)⟩

theorem Looping.take (h : Looping c c') (m : NodeId) :
    Looping c { c' with tables := c'.tables.filter fun m' => m' ≠ m } where
  ticking := h.ticking.congr ⟨rfl, rfl, rfl, rfl, rfl, rfl, rfl, rfl⟩ rfl
  active := fun m' hm' => h.active m' (mem_filter.mp hm').1

theorem Looping.inLoop (hw : c.board.Wired) (h : Looping c c') {m : NodeId} (hm : m ∈ c'.tables) :
    ∀ id ∈ (c.board.pinOrder m).map (·.id), c.InLoop id := by
  intro id hid
  obtain ⟨p, hp, rfl⟩ := mem_map.mp hid
  obtain ⟨y, hy, hyid, hpoint⟩ := (hw.pins m p).mp hp
  exact ⟨y, hy, hyid, p.k, m, Option.join_eq_some_iff.mpr hpoint, h.active m hm⟩

theorem Looping.processNode_eq (h : Looping c c') (m : NodeId) :
    c'.processNode m = ((c.board.pinOrder m).map (·.id)).foldl (Circult.updateModel .updateTable)
      { c' with tables := c'.tables.filter fun m' => m' ≠ m } := by
  rw [← h.ticking.setup.board]
  exact processNode_eq_foldl c' m

/-- The rule of the settle loop: what taking a node preserves holds at its end. -/
theorem Looping.settle_rule (hw : c.board.Wired) {P : Circult → Prop}
    (hP : ∀ {c' : Circult} {m : NodeId}, Looping c c' → m ∈ c'.tables → P c' → P (c'.processNode m)) (i : Nat) :
    ∀ {c' : Circult}, Looping c c' → P c' → Looping c (settleLoop i c') ∧ P (settleLoop i c') := by
  induction i with
  | zero => exact fun h hp => ⟨h, hp⟩
  | succ i ih =>
    intro c' h hp
    rw [settleLoop]
    split
    · exact ⟨h, hp⟩
    · rename_i m rest htables
      have hm : m ∈ c'.tables := by
        rw [htables]
        exact mem_cons_self
      refine ih ?_ (hP h hm hp)
      rw [h.processNode_eq]
      exact ((h.take m).calls hw .updateTable _ fun id hid => Or.inr (h.inLoop hw hm id hid)).1

/-- The same, where what is preserved does not look at the table: it is enough that each call
the loop can make preserves it. -/
theorem Looping.call_rule (hw : c.board.Wired) {P : Circult → Prop}
    (htake : ∀ {c' : Circult} {ts : List NodeId}, P c' → P { c' with tables := ts })
    (hP : ∀ {c' : Circult} {id : Nat}, Ticking c c' → c.InLoop id → P c' → P (c'.updateModel .updateTable id))
    (i : Nat) {c' : Circult} (h : Looping c c') (hp : P c') :
    Looping c (settleLoop i c') ∧ P (settleLoop i c') := by
  refine Looping.settle_rule hw (fun {c'} {m} h hm hp => ?_) i h hp
  have hfold (ids : List Nat) (hids : ∀ id ∈ ids, c.InLoop id) : ∀ {e : Circult}, Ticking c e → P e →
      P (ids.foldl (Circult.updateModel .updateTable) e) := by
    induction ids with
    | nil => exact fun _ hp => hp
    | cons id ids ih =>
      intro e he hp
      exact ih (fun id' hid' => hids id' (mem_cons_of_mem _ hid')) (he.updateModel hw _ _)
        (hP he (hids id mem_cons_self) hp)
  rw [h.processNode_eq]
  exact hfold _ (h.inLoop hw hm) (h.take m).ticking (htake hp)

/-! ## Counting the drives -/

/-- How often `digital_out` names a node. -/
def drivesOf (n : NodeId) (c : Circult) : Nat := c.digitalOut.countP fun d => decide (d.node = n)

theorem drivesOf_eq_of_mute {method : DigitalUpdateMethod} {id : Nat} {n : NodeId} {d : Option AnalogDrive}
    (hout : (c'.updateModel method id).digitalOut = c'.digitalOut ++ d.toList)
    (hd : ∀ e, d = some e → e.node ≠ n) : drivesOf n (c'.updateModel method id) = drivesOf n c' := by
  rw [drivesOf, hout, countP_append, drivesOf]
  cases d with
  | none => simp
  | some e => simp [hd e rfl]

section Driver

variable (hw : c.board.Wired) {n : NodeId} {x : ModelBase} (hx : x ∈ c.board.nl.bases) {k : Nat}
  (hdrivers : c.drivers n = [⟨x.id, k⟩]) (h : Ticking c c') (method : DigitalUpdateMethod)

include hdrivers h

theorem drivesOf_updateModel_of_ne {id : Nat} (hid : id ≠ x.id) :
    drivesOf n (c'.updateModel method id) = drivesOf n c' := by
  obtain ⟨d, hout, hnode⟩ := digitalOut_updateModel method c' id
  refine drivesOf_eq_of_mute hout fun e he hn => hid ?_
  obtain ⟨y, hy, rfl, j, hj, hpin⟩ := hnode e he
  rw [h.setup.board] at hy
  rw [h.outPins y hy] at hj
  have hmem := mem_drivers hy hj (hpin.trans (by rw [hn]))
  rw [hdrivers, mem_singleton] at hmem
  exact congrArg PinRef.id hmem

theorem drivesOf_updateModel (id : Nat) :
    drivesOf n (c'.updateModel method id) ≤ drivesOf n c' + if id = x.id then 1 else 0 := by
  by_cases hid : id = x.id
  · obtain ⟨d, hout, -⟩ := digitalOut_updateModel method c' id
    rw [if_pos hid, drivesOf, hout, countP_append]
    refine Nat.add_le_add_left (countP_le_length.trans ?_) _
    cases d with
    | none => exact Nat.zero_le 1
    | some e => exact le_rfl
  · exact (drivesOf_updateModel_of_ne hdrivers h method hid).le.trans (Nat.le_add_right _ _)

include hw

/-- Of the calls of the driver in a tick, those that are mute for the node do not count. -/
theorem drivesOf_updateModel_of_mute (hx : x ∈ c.board.nl.bases) (hmute : c.Mute method x n) (id : Nat) :
    drivesOf n (c'.updateModel method id) = drivesOf n c' := by
  by_cases hid : id = x.id
  · subst hid
    rcases updateModel_cases method c' x.id with hsame | ⟨y, hy, hid, hcall⟩
    · rw [hsame]
    · rw [h.setup.board] at hy
      obtain rfl : y = x := inj_on_of_nodup_map hw.ids hy hx hid
      refine drivesOf_eq_of_mute (d := (updateDigitalClk c'.view c'.trDuration method y.model (c'.clip y.id)).drive) ?_
        fun e he => ?_
      · rw [hcall]
        simp only [afterCall, digitalOut_foldl_store]
      · refine hmute c'.state (c'.clip y.id) (h.inputs y hx) e ?_
        rw [← he, ← h.setup.board, ← h.setup.voltage, ← h.setup.trDuration]
        rfl
  · exact drivesOf_updateModel_of_ne hdrivers h method hid

theorem drivesOf_calls (ids : List Nat) :
    drivesOf n (ids.foldl (Circult.updateModel method) c') ≤ drivesOf n c' + ids.count x.id := by
  induction ids generalizing c' with
  | nil => exact le_rfl
  | cons id ids ih =>
    have hcount := ih (h.updateModel hw method id)
    have hstep := drivesOf_updateModel hdrivers h method id
    have hcons : (id :: ids).count x.id = ids.count x.id + if id = x.id then 1 else 0 := by
      rw [count_cons]
      simp
    rw [foldl_cons, hcons]
    omega

end Driver

/-! ## The state the settle loop begins with -/

section Start

theorem clip_atLoop {id : Nat} (hid : id ∉ c.beforeAllClk) : c.atLoop.clip id = c.clip id := by
  obtain ⟨ts, heq, -⟩ := atLoop_eq c
  have hfold (ids : List Nat) (h : id ∉ ids) : ∀ e : Circult,
      (ids.foldl (Circult.updateModel .beforeAllClk) e).clip id = e.clip id := by
    induction ids with
    | nil => exact fun e => rfl
    | cons i ids ih =>
      intro e
      rw [mem_cons, not_or] at h
      rw [foldl_cons, ih h.2, clip_updateModel h.1]
  rw [heq]
  exact hfold _ hid _

/-- The call of a model in the before phase, and those before and after it. -/
theorem atLoop_split {id : Nat} (hid : id ∈ c.beforeAllClk) : ∃ (pre post : List Nat) (ts : List NodeId), c.atLoop =
    { post.foldl (Circult.updateModel .beforeAllClk)
        ((pre.foldl (Circult.updateModel .beforeAllClk) { c with digitalOut := [] }).updateModel .beforeAllClk id) with
      tables := ts } := by
  obtain ⟨ts, heq, -⟩ := atLoop_eq c
  obtain ⟨pre, post, hsplit⟩ := append_of_mem hid
  have hfold (e : Circult) : c.beforeAllClk.foldl (Circult.updateModel .beforeAllClk) e = _ :=
    congrArg (foldl (Circult.updateModel .beforeAllClk) e) hsplit
  refine ⟨pre, post, ts, heq.trans (congrArg (fun e : Circult => { e with tables := ts }) ((hfold _).trans ?_))⟩
  rw [foldl_append, foldl_cons]

variable (hw : c.board.Wired)

theorem ticking_clear (c : Circult) : Ticking c { c with digitalOut := [] } :=
  (Ticking.refl c).congr ⟨rfl, rfl, rfl, rfl, rfl, rfl, rfl, rfl⟩ rfl

include hw

theorem looping_atLoop : Looping c c.atLoop := by
  have hbefore := (Looping.calls hw .beforeAllClk c.beforeAllClk ⟨ticking_clear c, fun _ hm => .pending hm⟩
    fun id hid => Or.inl hid).1
  obtain ⟨ts, heq, hts⟩ := atLoop_eq c
  rw [heq]
  refine ⟨hbefore.ticking.congr ⟨rfl, rfl, rfl, rfl, rfl, rfl, rfl, rfl⟩ rfl, fun m hm => ?_⟩
  rcases hts m hm with h | h
  · exact hbefore.active m h
  · exact .always h

theorem drivesOf_atLoop {n : NodeId} {x : ModelBase} {k : Nat} (hdrivers : c.drivers n = [⟨x.id, k⟩]) :
    drivesOf n c.atLoop ≤ c.beforeAllClk.count x.id := by
  obtain ⟨ts, heq, -⟩ := atLoop_eq c
  have hcount := drivesOf_calls hw hdrivers (ticking_clear c) .beforeAllClk c.beforeAllClk
  have hclear : drivesOf n { c with digitalOut := [] } = 0 := rfl
  rw [hclear, Nat.zero_add] at hcount
  rw [heq]
  exact hcount

variable {y : ModelBase} (hy : y ∈ c.board.nl.bases)

include hy

/-- Once called in the before phase, an `EIGHT_BIT_INPUT` has nothing new. -/
theorem not_hasNews_atLoop (hk : y.model.kind = .eightBitInput) (hid : y.id ∈ c.beforeAllClk) :
    ¬ y.model.hasNews (c.atLoop.clip y.id) := by
  obtain ⟨pre, post, ts, heq⟩ := atLoop_split hid
  have hpre := (ticking_clear c).foldl hw .beforeAllClk pre
  have hcalled := hpre.updateModel hw .beforeAllClk y.id
  have hw' := hcalled.setup.board.symm ▸ hw
  intro hnews
  rw [heq] at hnews
  have hfirst := ((Ticking.refl _).foldl hw' .beforeAllClk post).news y (hcalled.setup.board.symm ▸ hy) hnews
  rw [updateModel_of_mem .beforeAllClk (hpre.setup.board.symm ▸ hw) (hpre.setup.board.symm ▸ hy)
    (by rw [hk]; rfl)] at hfirst
  simp [afterCall, Model.hasNews, hk, updateDigitalClk, updateEightBitInput] at hfirst

variable {p : NodeId} (hp : c.board.isAnalog p = false)

include hp

theorem Ticking.state_input (h : Ticking c c') (method : DigitalUpdateMethod) (hk : y.model.kind = .input)
    (hpin : y.model.pin 0 = some p) : (c'.updateModel method y.id).state p = (c.clip y.id).outputA := by
  have hview : (c'.view p).analog = false := by
    rw [← hp, ← h.setup.board]
    rfl
  rw [updateModel_of_mem method (h.setup.board.symm ▸ hw) (h.setup.board.symm ▸ hy) (by rw [hk]; rfl),
    ← h.inputs y hy hk]
  simp only [afterCall, updateDigitalClk, hk, updateInput, hpin, gateOutput, hview, Bool.false_eq_true, if_false,
    foldl_cons, foldl_nil, store]
  split
  · exact Function.update_self _ _ _
  · exact Function.update_self _ _ _

omit hy

variable {v : LogicT} (hv : ∀ y ∈ c.board.nl.bases, ∀ k ∈ y.model.outPins (c.clip y.id), y.model.pin k = some p →
  y.model.kind = .input ∧ y.id ∈ c.beforeAllClk ∧ (c.clip y.id).outputA = v)

include hv

theorem Ticking.state_inputs (h : Ticking c c') (method : DigitalUpdateMethod) (id : Nat) (hstate : c'.state p = v) :
    (c'.updateModel method id).state p = v := by
  rcases updateModel_cases method c' id with hsame | ⟨y, hy, rfl, hcall⟩
  · rw [hsame, hstate]
  · have hy' := hy
    rw [h.setup.board] at hy'
    by_cases hdrives : ∃ k ∈ y.model.outPins (c'.clip y.id), y.model.pin k = some p
    · obtain ⟨k, hk, hpin⟩ := hdrives
      rw [h.outPins y hy'] at hk
      obtain ⟨hkind, -, hvalue⟩ := hv y hy' k hk hpin
      simp only [Model.outPins, hkind, mem_singleton] at hk
      subst hk
      rw [h.state_input hw hy' hp method hkind hpin, hvalue]
    · rw [hcall, ← hstate]
      refine state_foldl_store_of_ne _ fun w hw hn => hdrives ?_
      obtain ⟨k, hk, hpin, -⟩ := (drives_updateDigitalClk method).stores w hw
      exact ⟨k, hk, by rw [hpin, hn]⟩

theorem state_atLoop (hy : y ∈ c.board.nl.bases) {k : Nat} (hk : k ∈ y.model.outPins (c.clip y.id))
    (hpin : y.model.pin k = some p) : c.atLoop.state p = v := by
  obtain ⟨hkind, hid, hvalue⟩ := hv y hy k hk hpin
  simp only [Model.outPins, hkind, mem_singleton] at hk
  subst hk
  obtain ⟨pre, post, ts, heq⟩ := atLoop_split hid
  have hpre := (ticking_clear c).foldl hw .beforeAllClk pre
  have hrest (ids : List Nat) : ∀ {e : Circult}, Ticking c e → e.state p = v →
      (ids.foldl (Circult.updateModel .beforeAllClk) e).state p = v := by
    induction ids with
    | nil => exact fun _ he => he
    | cons id ids ih =>
      exact fun h he => ih (h.updateModel hw _ id) (h.state_inputs hw hp hv _ id he)
  rw [heq]
  refine hrest post (hpre.updateModel hw _ _) ?_
  rw [hpre.state_input hw hy hp .beforeAllClk hkind hpin, hvalue]

end Start

/-- A call the settle loop can make leaves a steady node as it was at the start of the loop. -/
theorem Steady.updateModel (hw : c.board.Wired) {p : NodeId} (hp : c.Steady p) (h : Ticking c c')
    (hs : Ticking c.atLoop c') {id : Nat} (hid : c.InLoop id) (hstate : c'.state p = c.atLoop.state p) :
    (c'.updateModel .updateTable id).state p = c.atLoop.state p := by
  rcases updateModel_cases .updateTable c' id with hsame | ⟨y, hy, rfl, hcall⟩
  · rw [hsame, hstate]
  have hboard := (looping_atLoop hw).ticking.setup.board
  rw [h.setup.board] at hy
  by_cases hwrites : ∃ w ∈ (updateDigitalClk c'.view c'.trDuration .updateTable y.model (c'.clip y.id)).stores,
    w.node = p
  · obtain ⟨w, hmem, rfl⟩ := hwrites
    obtain ⟨k, hk, hpin, hdigital⟩ := (drives_updateDigitalClk .updateTable).stores w hmem
    rw [h.outPins y hy] at hk
    replace hdigital : c.board.isAnalog w.node = false := by rw [← hdigital, ← h.setup.board]; rfl
    rcases hp with hanalog | hstill | ⟨v, hv⟩
    · exact absurd (hanalog.symm.trans hdigital) (by decide)
    · rcases hstill y hy k hk hpin with hkind | ⟨hkind, hbefore⟩ | hout
      · simp only [updateDigitalClk, hkind] at hmem
        rw [updateTickDelay_of_ne _ (by decide)] at hmem
        exact absurd hmem not_mem_nil
      · have hnews : y.model.hasNews (c'.clip y.id) := by
          refine hasNews_of_canEnter .updateTable hmem ?_
          simp only [updateDigitalClk, hkind, updateEightBitInput] at hmem
          split at hmem
          · obtain ⟨ov, -, rfl⟩ := mem_map.mp hmem
            rfl
          · exact absurd hmem not_mem_nil
        exact absurd (hs.news y (hboard.symm ▸ hy) hnews) (not_hasNews_atLoop hw hy hkind hbefore)
      · exact absurd hid hout
    · have hvalue := state_atLoop hw hdigital hv hy hk hpin
      rw [hvalue]
      exact h.state_inputs hw hdigital hv _ _ (hstate.trans hvalue)
  · rw [hcall, ← hstate]
    exact state_foldl_store_of_ne _ fun w hmem hn => hwrites ⟨w, hmem, hn⟩

/-! ## One drive for each of the three kinds of drivers -/

theorem drivesChange_outPins {m : Model} (hkind : m.kind.drivesChange = true) :
    ∃ k, (∀ clip, m.outPins clip = [k]) ∧ m.kind.deviceType = .digital := by
  cases hk : m.kind <;> simp only [hk, ModelKind.drivesChange, Bool.false_eq_true] at hkind
  · exact ⟨2, fun _ => by simp only [Model.outPins, hk], rfl⟩
  · exact ⟨1, fun _ => by simp only [Model.outPins, hk], rfl⟩
  · exact ⟨1, fun _ => by simp only [Model.outPins, hk], rfl⟩

/-- With steady inputs as at the start of the loop, a call of the model does nothing. -/
def Rest (c : Circult) (x : ModelBase) (clip : Clip) : Prop :=
  ∀ state : NodeId → LogicT, (∀ j p, x.model.pin j = some p → j ∉ x.model.outPins (c.clip x.id) →
    state p = c.atLoop.state p) →
    updateDigitalClk (fun m => ⟨c.board.isAnalog m, c.voltage m, state m⟩) c.trDuration .updateTable x.model clip =
      ⟨clip, [], none⟩

/-- What holds of a driver with steady inputs in the settle loop: it has not been called, or
it is at rest. -/
structure AtRest (c : Circult) (x : ModelBase) (n : NodeId) (c' : Circult) : Prop where
  start : Ticking c.atLoop c'
  inputs : ∀ j p, x.model.pin j = some p → j ∉ x.model.outPins (c.clip x.id) → c'.state p = c.atLoop.state p
  called : (c'.clip x.id = c.clip x.id ∧ drivesOf n c' = 0) ∨ (c.Rest x (c'.clip x.id) ∧ drivesOf n c' ≤ 1)

section Tick

variable (hw : c.board.Wired) {n : NodeId} (hn : c.board.isAnalog n) {x : ModelBase}
  (hx : x ∈ c.board.nl.bases) {k : Nat} (hdrivers : c.drivers n = [⟨x.id, k⟩]) (hpin : x.model.pin k = some n)

include hw hn hx hdrivers

theorem AtRest.updateModel (hkind : x.model.kind.drivesChange = true)
    (hins : ∀ j p, x.model.pin j = some p → j ∉ x.model.outPins (c.clip x.id) → c.Steady p)
    (hlevels : x.model.kind = .schmittTrigger → ∀ i, x.model.pin 0 = some i → c.board.isAnalog i = true →
      ¬ (c.voltage i ≥ (c.clip x.id).vthHigh ∧ c.voltage i ≤ (c.clip x.id).vthLow))
    (h : Ticking c c') {id : Nat} (hid : c.InLoop id) (hrest : AtRest c x n c') :
    AtRest c x n (c'.updateModel .updateTable id) := by
  have hwired : c.atLoop.board.Wired := (looping_atLoop hw).ticking.setup.board.symm ▸ hw
  refine ⟨hrest.start.updateModel hwired _ _, fun j p hj hout =>
    (hins j p hj hout).updateModel hw h hrest.start hid (hrest.inputs j p hj hout), ?_⟩
  by_cases hidx : id = x.id
  · subst hidx
    obtain ⟨k', houts, hdev⟩ := drivesChange_outPins hkind
    have hview (state : NodeId → LogicT) (m : NodeId) :
        (⟨c.board.isAnalog m, c.voltage m, state m⟩ : NodeView) =
          ⟨(c'.view m).analog, (c'.view m).voltage, state m⟩ := by
      rw [← h.setup.board, ← h.setup.voltage]
      rfl
    have hcall := updateModel_of_mem .updateTable (h.setup.board.symm ▸ hw) (h.setup.board.symm ▸ hx) hdev
    have hclip : (c'.updateModel .updateTable x.id).clip x.id =
        (updateDigitalClk c'.view c'.trDuration .updateTable x.model (c'.clip x.id)).clip := by
      rw [hcall]
      exact Function.update_self _ _ _
    rcases hrest.called with ⟨hfirst, hzero⟩ | ⟨hquiet, hone⟩
    · refine .inr ⟨fun state hstate => ?_, ?_⟩
      · rw [hclip]
        refine updateDigitalClk_again hkind (fun j i hj hout => ?_) (fun j hj o ho => ?_) (fun hk i hi ha => ?_) _ _
        · rw [houts] at hout
          rw [hview, hstate j i hj (by rwa [houts]), ← hrest.inputs j i hj (by rwa [houts])]
          rfl
        · obtain ⟨y, hy, l, hl, hlpin, he⟩ := exists_of_mem_drivers (hdrivers ▸ mem_cons_self : ⟨x.id, k⟩ ∈ c.drivers n)
          obtain rfl : y = x := inj_on_of_nodup_map hw.ids hy hx (congrArg PinRef.id he).symm
          rw [houts, mem_singleton] at hj hl
          rw [hj, ← hl, hlpin] at ho
          cases ho
          exact hn
        · have hlevels := hlevels hk i hi (by rw [← ha, ← h.setup.board]; rfl)
          rw [hfirst]
          rwa [← h.setup.voltage] at hlevels
      · have hcount := drivesOf_updateModel hdrivers h .updateTable x.id
        rw [hzero, if_pos rfl] at hcount
        exact hcount
    · have hnothing : updateDigitalClk c'.view c'.trDuration .updateTable x.model (c'.clip x.id) =
          ⟨c'.clip x.id, [], none⟩ := by
        have hcalled := hquiet c'.state hrest.inputs
        rw [← h.setup.trDuration, ← h.setup.board, ← h.setup.voltage] at hcalled
        exact hcalled
      refine .inr ⟨?_, ?_⟩
      · rw [hclip, hnothing]
        exact hquiet
      · rw [hcall, hnothing]
        simpa [afterCall, drivesOf] using hone
  · rw [clip_updateModel (Ne.symm hidx), drivesOf_updateModel_of_ne hdrivers h .updateTable hidx]
    exact hrest.called

omit hn in
/-- The settle loop adds no entry for a node whose driver it does not call, or calls in vain. -/
theorem drivesOf_settleLoop_of_outside (hloop : c.Mute .updateTable x n ∨ ¬ c.InLoop x.id) :
    drivesOf n (Circult.settleLoop iterBudget c.atLoop) = drivesOf n c.atLoop := by
  refine (Looping.call_rule hw (P := fun c' => drivesOf n c' = drivesOf n c.atLoop) (fun hp => hp)
    (fun {c'} {id} h hid hp => ?_) iterBudget (looping_atLoop hw) rfl).2
  rw [← hp]
  rcases hloop with hmute | hout
  · exact drivesOf_updateModel_of_mute hw hdrivers h .updateTable hx hmute id
  · refine drivesOf_updateModel_of_ne hdrivers h .updateTable ?_
    rintro rfl
    exact hout hid

variable (hnodup : ∀ m, (c.board.pinOrder m).Nodup) (hpins : ∀ j m, x.model.pin j = some m → c.Active m → j = k)

include hpin hnodup hpins

omit hn hdrivers in
/-- On a node the settle loop may process, the pins of the driving model are its output pin
or there are none. -/
theorem count_pinOrder {m : NodeId} (hm : c.Active m) :
    ((c.board.pinOrder m).map (·.id)).count x.id ≤ if m = n then 1 else 0 := by
  have hpins : ∀ p ∈ c.board.pinOrder m, p.id = x.id → p = ⟨x.id, k⟩ ∧ m = n := by
    intro p hp hid
    obtain ⟨y, hy, hyid, hpoint⟩ := (hw.pins m p).mp hp
    obtain rfl : y = x := inj_on_of_nodup_map hw.ids hy hx (hyid.trans hid)
    have hpin' : y.model.pin p.k = some m := Option.join_eq_some_iff.mpr hpoint
    have hk := hpins p.k m hpin' hm
    refine ⟨?_, ?_⟩
    · cases p
      simp only at hid hk
      rw [hid, hk]
    · rw [hk, hpin] at hpin'
      exact (Option.some.inj hpin').symm
  have hcount : ((c.board.pinOrder m).map (·.id)).count x.id =
      (c.board.pinOrder m).countP fun p => decide (p.id = x.id) := by
    rw [List.count, countP_map]
    exact countP_congr fun p _ => by simp
  rw [hcount]
  split
  · calc (c.board.pinOrder m).countP (fun p => decide (p.id = x.id))
        ≤ (c.board.pinOrder m).count ⟨x.id, k⟩ := by
          refine countP_mono_left fun p hp hid => ?_
          simpa using (hpins p hp (by simpa using hid)).1
      _ ≤ 1 := nodup_iff_count_le_one.mp (hnodup m) _
  · rename_i hne
    refine le_of_eq (countP_eq_zero.mpr fun p hp hid => ?_)
    exact hne (hpins p hp (by simpa using hid)).2

/-- An analog node with an entry is not pending any more. -/
theorem drivesOf_processNode (h : Looping c c') {m : NodeId} (hm : m ∈ c'.tables)
    (honce : drivesOf n c' + (if n ∈ c'.tables then 1 else 0) ≤ 1) :
    drivesOf n (c'.processNode m) + (if n ∈ (c'.processNode m).tables then 1 else 0) ≤ 1 := by
  rw [h.processNode_eq]
  have hanalog := ((h.take m).calls hw .updateTable _ fun id hid => Or.inr (h.inLoop hw hm id hid)).2 n hn
  have hcount := drivesOf_calls hw hdrivers (h.take m).ticking .updateTable ((c.board.pinOrder m).map (·.id))
  have hpins := count_pinOrder hw hx hpin hnodup hpins (h.active m hm)
  have hsame : drivesOf n { c' with tables := c'.tables.filter fun m' => m' ≠ m } = drivesOf n c' := rfl
  rw [hsame] at hcount
  by_cases hmn : m = n
  · subst hmn
    have hgone := fun hmem => (mem_filter.mp (hanalog hmem)).2
    rw [if_neg fun hmem => by simpa using hgone hmem]
    rw [if_pos hm] at honce
    rw [if_pos rfl] at hpins
    omega
  · rw [if_neg hmn] at hpins
    have hstays := fun hmem => (mem_filter.mp (hanalog hmem)).1
    split
    · rename_i hmem
      rw [if_pos (hstays hmem)] at honce
      omega
    · split at honce
      · omega
      · omega

omit hpins

theorem drivesOf_digitalClk (honce : c.Once x k n) : drivesOf n c.digitalClk ≤ 1 := by
  have hstart := looping_atLoop hw
  have hbefore := drivesOf_atLoop hw hdrivers
  have hsettled : Looping c (Circult.settleLoop iterBudget c.atLoop) :=
    (Looping.call_rule hw (P := fun _ => True) (fun _ => trivial) (fun _ _ _ => trivial) _ hstart trivial).1
  have hafter := drivesOf_calls hw hdrivers hsettled.ticking .afterAllClk c.afterAllClk
  rw [← digitalClk_eq] at hafter
  cases honce with
  | outside hcalls hloop =>
    rw [drivesOf_settleLoop_of_outside hw hx hdrivers hloop] at hafter
    omega
  | loop hnbefore hnafter hpins =>
    rw [count_eq_zero_of_not_mem hnbefore] at hbefore
    rw [count_eq_zero_of_not_mem hnafter] at hafter
    have hloop := (Looping.settle_rule hw (P := fun c' => drivesOf n c' + (if n ∈ c'.tables then 1 else 0) ≤ 1)
      (fun h hm => drivesOf_processNode hw hn hx hdrivers hpin hnodup hpins h hm) iterBudget hstart (by
        split
        · omega
        · omega)).2
    omega
  | steady hnbefore hnafter hkind hins hlevels =>
    rw [count_eq_zero_of_not_mem hnbefore] at hbefore
    rw [count_eq_zero_of_not_mem hnafter] at hafter
    have hrest := (Looping.call_rule hw (P :=
      AtRest c x n) (fun h => ⟨h.start.congr ⟨rfl, rfl, rfl, rfl, rfl, rfl, rfl, rfl⟩ rfl,
      h.inputs, h.called⟩) (fun h hid hrest => hrest.updateModel hw hn hx hdrivers hkind hins hlevels h hid)
        iterBudget hstart
      ⟨.refl _, fun _ _ _ _ => rfl, .inl ⟨clip_atLoop hnbefore, by omega⟩⟩).2
    have hone : drivesOf n (Circult.settleLoop iterBudget c.atLoop) ≤ 1 := by
      rcases hrest.called with ⟨-, hzero⟩ | ⟨-, hone⟩
      · omega
      · exact hone
    omega

end Tick

theorem ticking_digitalClk (hw : c.board.Wired) : Ticking c c.digitalClk := by
  have hloop := (Looping.call_rule hw (P := fun _ => True) (fun _ => trivial) (fun _ _ _ => trivial) iterBudget
    (looping_atLoop hw) trivial).1
  rw [digitalClk_eq]
  exact hloop.ticking.foldl hw .afterAllClk _

theorem Quiet.singleDrives (hw : c.board.Wired) (hnodup : ∀ m, (c.board.pinOrder m).Nodup)
    (hquiet : c.Quiet) : c.digitalClk.SingleDrives := by
  intro n hn hlen
  have htick : Ticking c c.digitalClk := ticking_digitalClk hw
  have hdrivers : c.digitalClk.drivers n = c.drivers n := drivers_congr htick.setup.board htick.outPins n
  rw [htick.setup.board] at hn
  rw [hdrivers] at hlen
  obtain ⟨p, hp⟩ := length_eq_one_iff.mp hlen
  obtain ⟨x, hx, k, -, hpin, rfl⟩ := exists_of_mem_drivers (hp ▸ mem_cons_self : p ∈ c.drivers n)
  exact drivesOf_digitalClk hw hn hx hp hpin hnodup (hquiet n hn x hx k hp)

/-! ## Drivers that are quiet in every circuit -/

theorem mute_tickDelay {x : ModelBase} (hk : x.model.kind = .tickDelay) (n : NodeId) : c.Mute .updateTable x n := by
  intro state clip _ d hd
  simp only [updateDigitalClk, hk] at hd
  rw [updateTickDelay_of_ne _ (by decide)] at hd
  exact absurd hd (by simp)

/-- An `INPUT` at high impedance. -/
theorem mute_input {x : ModelBase} (hk : x.model.kind = .input) (hz : (c.clip x.id).outputA = .Z)
    (method : DigitalUpdateMethod) (n : NodeId) : c.Mute method x n := by
  intro state clip hclip d hd
  have hvalue : clip.outputA = .Z := (hclip hk).trans hz
  simp only [updateDigitalClk, hk, updateInput, hvalue] at hd
  split at hd
  · simp only [gateOutput, gateDrive] at hd
    split at hd
    · exact absurd hd (by simp)
    · exact absurd hd (by simp)
  · exact absurd hd (by simp)

/-! ## Runs -/

def solved (c : Circult) (voltage : NodeId → Float) (trDuration : Float) : Circult :=
  { c with voltage := voltage, trDuration := trDuration }

/-- Runs that begin each `digital_clk` in a quiet circuit. -/
inductive QuietRun (c₀ : Circult) : Circult → Prop
  | start : QuietRun c₀ c₀
  | setInput {c : Circult} (h : QuietRun c₀ c) (id : Nat) (v : LogicT) : QuietRun c₀ (c.setInput id v)
  | prepare {c : Circult} (h : QuietRun c₀ c) : QuietRun c₀ c.prepare
  | reset {c : Circult} (h : QuietRun c₀ c) : QuietRun c₀ c.reset
  | solved {c : Circult} (h : QuietRun c₀ c) (voltage : NodeId → Float) (trDuration : Float) :
      QuietRun c₀ (c.solved voltage trDuration)
  | digitalClk {c : Circult} (h : QuietRun c₀ c) (hquiet : c.Quiet) : QuietRun c₀ c.digitalClk

/-- A step that changes neither `digital_out` nor the Verilog instances keeps the drives
single. -/
theorem SingleDrives.congr (h : c.SingleDrives) (hboard : c'.board = c.board)
    (hout : c'.digitalOut = c.digitalOut)
    (htop : ∀ id, (c'.clip id).topInstance = (c.clip id).topInstance) : c'.SingleDrives := by
  intro n hn hlen
  rw [hboard] at hn
  rw [drivers_congr hboard fun x _ => by simp only [Model.outPins, htop]] at hlen
  rw [hout]
  exact h n hn hlen

theorem singleDrives_setInput (h : c.SingleDrives) (id : Nat) (v : LogicT) :
    (c.setInput id v).board = c.board ∧ (c.setInput id v).SingleDrives := by
  simp only [setInput]
  split
  · split
    · refine ⟨rfl, h.congr rfl rfl fun id' => ?_⟩
      by_cases hid : id' = id
      · subst hid
        simp
      · simp [hid]
    · exact ⟨rfl, h⟩
  · exact ⟨rfl, h⟩

theorem singleDrives_prepare (h : c.SingleDrives) : c.prepare.SingleDrives := by
  refine h.congr rfl rfl fun id => ?_
  simp only [prepare]
  split
  · split
    · rfl
    · rfl
  · rfl

/-- In every run whose ticks all begin quiet, an analog node driven by a single output pin
has at most one entry in `digital_out`. -/
theorem singleDrives_of_quietRun {c₀ : Circult} (hw : c₀.board.Wired)
    (hnodup : ∀ m, (c₀.board.pinOrder m).Nodup) (hstart : c₀.digitalOut = []) {c : Circult}
    (hrun : QuietRun c₀ c) : c.SingleDrives := by
  suffices h : c.board = c₀.board ∧ c.SingleDrives from h.2
  induction hrun with
  | start =>
    refine ⟨rfl, fun n _ _ => ?_⟩
    rw [hstart]
    exact Nat.zero_le 1
  | @setInput c _ id v ih =>
    obtain ⟨hboard, hsingle⟩ := singleDrives_setInput ih.2 id v
    exact ⟨hboard.trans ih.1, hsingle⟩
  | @prepare c _ ih => exact ⟨ih.1, singleDrives_prepare ih.2⟩
  | @reset c _ ih =>
    refine ⟨ih.1, fun n _ _ => ?_⟩
    exact Nat.zero_le 1
  | @solved c _ voltage trDuration ih => exact ⟨ih.1, ih.2⟩
  | @digitalClk c _ hquiet ih =>
    have hboard := (sameSetup_digitalClk c).board
    refine ⟨hboard.trans ih.1, hquiet.singleDrives ?_ ?_⟩
    · rw [ih.1]
      exact hw
    · rw [ih.1]
      exact hnodup

/-- An `INPUT` on node 1, a model with one input from node 1 to node 0, and a linear device
between node 0 and ground. -/
def analogBuffer (kind : ModelKind) : Circult where
  board := .inOrder
    (.ofModels 2 [.port .input [1] "a" [], .on kind [1, 0],
      ⟨.linear 0, "r", [], [some (.node 0), some .ground]⟩])
  analyzeType := .TR
  state := fun _ => .X
  voltage := fun _ => 0.0
  clip := fun _ => {}

theorem bases_analogBuffer (kind : ModelKind) : (analogBuffer kind).board.nl.bases =
    [⟨0, .port .input [1] "a" []⟩, ⟨1, .on kind [1, 0]⟩,
      ⟨2, ⟨.linear 0, "r", [], [some (.node 0), some .ground]⟩⟩] := rfl

/-- `IS_UNKNOWN` is called for both nodes and reads the new value of the `INPUT` each time. -/
theorem quiet_analogBuffer : ((analogBuffer .isUnknown).setInput 0 .H).prepare.Quiet := by
  have hboard : ((analogBuffer .isUnknown).setInput 0 .H).prepare.board = (analogBuffer .isUnknown).board := rfl
  intro n hn x hx k hdrivers
  obtain ⟨y, hy, k', hk', hpin, he⟩ := exists_of_mem_drivers (hdrivers ▸ mem_cons_self :
    (⟨x.id, k⟩ : PinRef) ∈ ((analogBuffer .isUnknown).setInput 0 .H).prepare.drivers n)
  obtain ⟨hid, rfl⟩ := PinRef.mk.inj he
  rw [hboard, bases_analogBuffer] at hx hy
  simp only [mem_cons, not_mem_nil, or_false] at hx hy
  rcases hy with rfl | rfl | rfl
  · -- the node of the `INPUT` is digital
    obtain rfl := mem_singleton.mp hk'
    cases hpin
    exact absurd hn (by decide)
  · rcases hx with rfl | rfl | rfl
    · exact absurd hid (by decide)
    · refine .steady (by decide) (by decide) rfl (fun j p hj hout => .inr (.inr ⟨.H, fun y hy k hk hp => ?_⟩))
        fun hk => absurd hk (by decide)
      match j with
      | 0 =>
        cases hj
        rw [hboard, bases_analogBuffer] at hy
        simp only [mem_cons, not_mem_nil, or_false] at hy
        rcases hy with rfl | rfl | rfl
        · exact ⟨rfl, by decide, rfl⟩
        · obtain rfl := mem_singleton.mp hk
          exact absurd hp (by decide)
        · exact absurd hk not_mem_nil
      | 1 => exact absurd mem_cons_self hout
      | j + 2 => exact absurd hj (by simp [Model.pin, Model.on, Model.port])
    · exact absurd hid (by decide)
  · exact absurd hk' not_mem_nil

theorem singleDrives_analogBuffer :
    ((analogBuffer .isUnknown).setInput 0 .H).prepare.digitalClk.SingleDrives := by
  have hrun : QuietRun (analogBuffer .isUnknown) ((analogBuffer .isUnknown).setInput 0 .H).prepare.digitalClk :=
    .digitalClk (.prepare (.setInput .start 0 .H)) quiet_analogBuffer
  refine singleDrives_of_quietRun (Board.wired_inOrder (by decide)) (fun m => ?_) rfl hrun
  match m with
  | .ground => decide
  | .node 0 => decide
  | .node 1 => decide
  | .node (i + 2) => exact List.nodup_nil

/-- A `YES` gate is called for its output node and for its input node. -/
theorem not_singleDrives_analogBuffer :
    ¬ (((analogBuffer .yes).prepare.setInput 0 .H).digitalClk).SingleDrives := by
  intro hsingle
  have hcount := hsingle (.node 0) (by decide) (by decide)
  exact absurd hcount (by decide)

end Circult

end PhyEngine
