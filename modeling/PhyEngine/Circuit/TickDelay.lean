import PhyEngine.Circuit.AnalogDrives

/-!
# The delay line

`TICK_DELAY` shifts the input of every `before_all_clk` call through a line of `ticks` places,
filled with the first input. Between two calls other models may do anything but touch its fields.
-/

namespace PhyEngine

open List

/-- The value a line of `n` places gives at the `k`-th of the inputs `ins`. -/
def delayed (n : Nat) (ins : List LogicT) (k : Nat) : LogicT :=
  (if n ≤ k then ins[k - n]? else ins[0]?).getD .X

def lineAfter (n : Nat) (ins : List LogicT) : List LogicT :=
  (ins.reverse ++ List.replicate n (ins.headD .X)).take n

theorem length_lineAfter (n : Nat) (ins : List LogicT) : (lineAfter n ins).length = n := by
  simp [lineAfter]

variable {n : Nat}

theorem lineAfter_singleton (x : LogicT) : lineAfter n [x] = List.replicate n x := by
  have hcons : lineAfter n [x] = (replicate (n + 1) x).take n := by
    rw [lineAfter, replicate_succ]
    rfl
  rw [hcons, take_replicate, Nat.min_eq_left (by omega)]

theorem lineAfter_concat {ins : List LogicT} (hn : 1 ≤ n) (hins : ins ≠ []) (x : LogicT) :
    lineAfter n (ins ++ [x]) = (x :: lineAfter n ins).dropLast := by
  obtain ⟨y, ys, rfl⟩ := exists_cons_of_ne_nil hins
  obtain ⟨n, rfl⟩ := Nat.exists_eq_add_of_le' hn
  have hlen : (lineAfter (n + 1) (y :: ys)).length = n + 1 := length_lineAfter _ _
  rw [dropLast_eq_take, length_cons, hlen, Nat.add_sub_cancel, take_succ_cons, lineAfter, lineAfter]
  rw [take_take, Nat.min_eq_left (by omega)]
  simp

theorem getLastD_lineAfter {ins : List LogicT} (hn : 1 ≤ n) (hins : ins ≠ []) (x : LogicT) :
    (lineAfter n ins).getLastD .X = delayed n (ins ++ [x]) ins.length := by
  obtain ⟨y, ys, rfl⟩ := exists_cons_of_ne_nil hins
  have hlast : (lineAfter n (y :: ys)).getLastD .X = ((lineAfter n (y :: ys))[n - 1]?).getD .X := by
    rw [getLastD_eq_getLast?, getLast?_eq_getElem?, length_lineAfter]
  rw [hlast, lineAfter, getElem?_take_of_lt (by omega), delayed]
  by_cases hk : n ≤ (y :: ys).length
  · rw [if_pos hk, getElem?_append_left (by rw [length_reverse]; omega),
      getElem?_reverse (by omega), getElem?_append_left (by omega)]
    congr 2
    omega
  · rw [if_neg hk, getElem?_append_right (by rw [length_reverse]; omega),
      getElem?_replicate, if_pos (by rw [length_reverse]; omega)]
    rfl

theorem Clip.last_setLast (clip : Clip) (k : Nat) (v : LogicT) : (clip.setLast k v).last k = v := by
  simp [Clip.setLast]

namespace Circult

def delayInput (c : Circult) (id : Nat) (m : Model) : LogicT :=
  match m.pin 0 with
  | some i => readDn c.view (c.clip id) i
  | none => .X

structure DelayLine (c : Circult) (id : Nat) (m : Model) (o : NodeId) : Prop where
  model : c.board.modelAt id = some m
  kind : m.kind = .tickDelay
  output : m.pin 1 = some o
  digital : c.board.isAnalog o = false
  ticks : 1 ≤ (c.clip id).ticks

/-- A run seen from one model, with the inputs it has read in its `before_all_clk` calls. -/
inductive DelayRun (c₀ : Circult) (id : Nat) (m : Model) : List LogicT → Circult → Prop
  | start : DelayRun c₀ id m [] c₀
  | tick {ins : List LogicT} {c : Circult} : DelayRun c₀ id m ins c →
      DelayRun c₀ id m (ins ++ [c.delayInput id m]) (c.updateModel .beforeAllClk id)
  | call {ins : List LogicT} {c : Circult} {method : DigitalUpdateMethod} : DelayRun c₀ id m ins c →
      method ≠ .beforeAllClk → DelayRun c₀ id m ins (c.updateModel method id)
  | elsewhere {ins : List LogicT} {c c' : Circult} : DelayRun c₀ id m ins c → c'.board = c.board →
      c'.clip id = c.clip id → DelayRun c₀ id m ins c'

structure Delays (clip₀ clip : Clip) (ins : List LogicT) : Prop where
  ticks : clip.ticks = clip₀.ticks
  pipe : clip.pipe = if ins = [] then [] else lineAfter clip₀.ticks ins
  last : clip.last 0 = if ins = [] then .X else delayed clip₀.ticks ins (ins.length - 1)

variable {c₀ c : Circult} {id : Nat} {m : Model} {o : NodeId} {ins : List LogicT}

variable {method : DigitalUpdateMethod}

theorem updateTickDelay_of_ne (view : NodeId → NodeView)
    (hmethod : method ≠ .beforeAllClk) (m : Model) (clip : Clip) :
    updateTickDelay view method m clip = ⟨clip, [], none⟩ := by
  cases method with
  | beforeAllClk => exact absurd rfl hmethod
  | updateTable => rfl
  | afterAllClk => rfl

/-- The fields at the output part of a call that reads `x`: a line of another length than
`ticks` is filled with `x`, and the cached output starts over. -/
def refilled (clip : Clip) (x : LogicT) : Clip :=
  if clip.pipe.length ≠ clip.ticks then { clip.setLast 0 .X with pipe := List.replicate clip.ticks x }
  else clip

section

variable (hd : c.DelayLine id m o)
include hd

theorem updateTickDelay_eq :
    updateTickDelay c.view .beforeAllClk m (c.clip id) =
      let clip := refilled (c.clip id) (c.delayInput id m)
      let out := clip.pipe.getLastD .X
      ⟨Clip.setLast { clip with pipe := (c.delayInput id m :: clip.pipe).dropLast } 0 out,
        [.write o out (decide (clip.last 0 ≠ out))], none⟩ := by
  have hticks : ¬ (c.clip id).ticks = 0 := by have := hd.ticks; omega
  have hdig : (c.view o).analog = false := hd.digital
  simp only [PhyEngine.updateTickDelay, hd.output, hticks, delayOutput, hdig]
  rfl

variable {clip₀ : Clip}

theorem Delays.refilled (h : Delays clip₀ (c.clip id) ins) :
    let clip := Circult.refilled (c.clip id) (c.delayInput id m)
    clip.ticks = clip₀.ticks ∧ clip.last 0 = (c.clip id).last 0 ∧
      clip.pipe.getLastD .X = delayed clip₀.ticks (ins ++ [c.delayInput id m]) ins.length ∧
      (c.delayInput id m :: clip.pipe).dropLast = lineAfter clip₀.ticks (ins ++ [c.delayInput id m]) := by
  have hn : 1 ≤ clip₀.ticks := h.ticks ▸ hd.ticks
  intro clip
  by_cases hins : ins = []
  · subst hins
    have hpipe : (c.clip id).pipe = [] := by rw [h.pipe, if_pos rfl]
    have hlast : (c.clip id).last 0 = .X := by rw [h.last, if_pos rfl]
    have hfill : clip = { (c.clip id).setLast 0 .X with
        pipe := replicate clip₀.ticks (c.delayInput id m) } := by
      have hlen : (c.clip id).pipe.length ≠ (c.clip id).ticks := by
        have := hd.ticks
        rw [hpipe, length_nil]
        omega
      rw [← h.ticks]
      exact if_pos hlen
    rw [hfill]
    refine ⟨h.ticks, ?_, ?_, ?_⟩
    · rw [hlast]
      exact Clip.last_setLast (c.clip id) 0 .X
    · rw [getLastD_eq_getLast?, getLast?_replicate, if_neg (by omega), delayed,
        if_neg (by rw [length_nil]; omega)]
      rfl
    · rw [nil_append, lineAfter_singleton, dropLast_eq_take, ← replicate_succ]
      simp
  · have hpipe : (c.clip id).pipe = lineAfter clip₀.ticks ins := by rw [h.pipe, if_neg hins]
    have hfull : clip = c.clip id := by
      have hlen : ¬ (c.clip id).pipe.length ≠ (c.clip id).ticks := by
        rw [hpipe, length_lineAfter, h.ticks]
        exact fun hne => hne rfl
      exact if_neg hlen
    rw [hfull, hpipe]
    exact ⟨h.ticks, rfl, getLastD_lineAfter hn hins _, (lineAfter_concat hn hins _).symm⟩

theorem Delays.updateTickDelay
    (h : Delays clip₀ (c.clip id) ins) :
    let out := delayed clip₀.ticks (ins ++ [c.delayInput id m]) ins.length
    ∃ clip, updateTickDelay c.view .beforeAllClk m (c.clip id) =
      ⟨clip, [.write o out (decide ((c.clip id).last 0 ≠ out))], none⟩ ∧
      Delays clip₀ clip (ins ++ [c.delayInput id m]) := by
  intro out
  obtain ⟨hticks, hlast, hout, hpipe⟩ := h.refilled hd
  have hends : ins ++ [c.delayInput id m] ≠ [] := by simp
  rw [updateTickDelay_eq hd]
  simp only [hout, hlast, hpipe]
  refine ⟨_, rfl, ⟨hticks, ?_, ?_⟩⟩
  · rw [if_neg hends]
    rfl
  · rw [if_neg hends, length_append, length_singleton, Nat.add_sub_cancel]
    exact Clip.last_setLast _ 0 out

end

theorem updateModel_tickDelay (method : DigitalUpdateMethod) (hd : c.DelayLine id m o) :
    c.updateModel method id =
      c.afterCall id (PhyEngine.updateTickDelay c.view method m (c.clip id)) := by
  have hdev : ModelKind.tickDelay.deviceType = .digital := rfl
  simp only [updateModel, hd.model, updateDigitalClk, hd.kind, if_pos hdev, afterCall]

theorem DelayRun.delays (hd : c₀.DelayLine id m o) (hpipe : (c₀.clip id).pipe = [])
    (hlast : (c₀.clip id).last 0 = .X) (h : DelayRun c₀ id m ins c) :
    c.DelayLine id m o ∧ Delays (c₀.clip id) (c.clip id) ins := by
  induction h with
  | start => exact ⟨hd, rfl, by rw [hpipe, if_pos rfl], by rw [hlast, if_pos rfl]⟩
  | @tick ins c h ih =>
    obtain ⟨hline, hdel⟩ := ih
    obtain ⟨clip, hcall, hnext⟩ := hdel.updateTickDelay hline
    have hclip : (c.updateModel .beforeAllClk id).clip id = clip := by
      rw [updateModel_tickDelay _ hline, hcall]
      exact Function.update_self _ _ _
    have hboard := (sameSetup_updateModel .beforeAllClk c id).board
    refine ⟨⟨?_, hline.kind, hline.output, ?_, ?_⟩, hclip ▸ hnext⟩
    · rw [hboard, hline.model]
    · rw [hboard, hline.digital]
    · rw [hclip, hnext.ticks, ← hdel.ticks]
      exact hline.ticks
  | @call ins c method h hmethod ih =>
    obtain ⟨hline, hdel⟩ := ih
    have hboard := (sameSetup_updateModel method c id).board
    have hclip : (c.updateModel method id).clip id = c.clip id := by
      rw [updateModel_tickDelay _ hline, updateTickDelay_of_ne _ hmethod]
      exact Function.update_self _ _ _
    refine ⟨⟨?_, hline.kind, hline.output, ?_, ?_⟩, hclip ▸ hdel⟩
    · rw [hboard, hline.model]
    · rw [hboard, hline.digital]
    · rw [hclip]
      exact hline.ticks
  | elsewhere h hboard hclip ih =>
    obtain ⟨hline, hdel⟩ := ih
    refine ⟨⟨?_, hline.kind, hline.output, ?_, ?_⟩, hclip ▸ hdel⟩
    · rw [hboard, hline.model]
    · rw [hboard, hline.digital]
    · rw [hclip]
      exact hline.ticks

theorem DelayRun.others (method : DigitalUpdateMethod) (ids : List Nat) (hids : id ∉ ids) :
    ∀ {c : Circult}, DelayRun c₀ id m ins c → DelayRun c₀ id m ins (ids.foldl (updateModel method) c) := by
  induction ids with
  | nil => exact fun h => h
  | cons i ids ih =>
    intro c h
    rw [mem_cons, not_or] at hids
    exact ih hids.2 (h.elsewhere (sameSetup_updateModel method c i).board (clip_updateModel hids.1))

theorem DelayRun.calls (hmethod : method ≠ .beforeAllClk) (ids : List Nat) :
    ∀ {c : Circult}, DelayRun c₀ id m ins c → DelayRun c₀ id m ins (ids.foldl (updateModel method) c) := by
  induction ids with
  | nil => exact fun h => h
  | cons i ids ih =>
    intro c h
    by_cases hi : id = i
    · exact ih (hi ▸ h.call hmethod)
    · exact ih (h.elsewhere (sameSetup_updateModel method c i).board (clip_updateModel hi))

theorem clip_foldl_enter (ns : List NodeId) : ∀ c : Circult, (ns.foldl enter c).clip = c.clip := by
  induction ns with
  | nil => exact fun _ => rfl
  | cons n ns ih => exact fun c => ih (c.enter n)

theorem DelayRun.settleLoop (k : Nat) :
    ∀ {c : Circult}, DelayRun c₀ id m ins c → DelayRun c₀ id m ins (settleLoop k c) := by
  induction k with
  | zero => exact fun h => h
  | succ k ih =>
    intro c h
    simp only [Circult.settleLoop]
    split
    · exact h
    · rename_i n _ _
      rw [processNode_eq_foldl]
      have hleft : DelayRun c₀ id m ins { c with tables := c.tables.filter fun m => m ≠ n } :=
        h.elsewhere rfl rfl
      exact ih (hleft.calls (by decide) _)

/-- A tick of the engine is one `before_all_clk` call of a model of that phase. -/
theorem DelayRun.digitalClk (h : DelayRun c₀ id m ins c) (hbefore : id ∈ c.beforeAllClk)
    (hnodup : c.beforeAllClk.Nodup) : ∃ x, DelayRun c₀ id m (ins ++ [x]) c.digitalClk := by
  obtain ⟨pre, post, hsplit⟩ := append_of_mem hbefore
  rw [hsplit, nodup_append, nodup_cons] at hnodup
  have hpre : id ∉ pre := fun hid => hnodup.2.2 id hid id mem_cons_self rfl
  have hstart : DelayRun c₀ id m ins { c with digitalOut := [] } := h.elsewhere rfl rfl
  have hbefore := ((hstart.others .beforeAllClk pre hpre).tick).others .beforeAllClk post hnodup.2.1.1
  have hphase : { c with digitalOut := [] }.beforeDigitalClk =
      post.foldl (updateModel .beforeAllClk) ((pre.foldl (updateModel .beforeAllClk)
        { c with digitalOut := [] }).updateModel .beforeAllClk id) := by
    change c.beforeAllClk.foldl _ _ = _
    rw [hsplit, foldl_append, foldl_cons]
  rw [← hphase] at hbefore
  set d := { c with digitalOut := [] }.beforeDigitalClk
  have hseed : DelayRun c₀ id m _ d.seedTables := hbefore.elsewhere
    (SameSetup.foldl enter sameSetup_enter d.alwaysTables d).board (by rw [seedTables, clip_foldl_enter])
  have hafter : DigitalUpdateMethod.afterAllClk ≠ .beforeAllClk := by decide
  exact ⟨_, (hseed.settleLoop iterBudget).calls hafter _⟩

/-- The call of a delay line of `n` ticks after the inputs `ins` writes the input of the call
`n` before it, or the first input while there is none, and enters the output node in the
table when that differs from what the call before has written. -/
theorem updateModel_delayRun (hd : c₀.DelayLine id m o) (hpipe : (c₀.clip id).pipe = [])
    (hlast : (c₀.clip id).last 0 = .X) (h : DelayRun c₀ id m ins c) :
    let n := (c₀.clip id).ticks
    let out := delayed n (ins ++ [c.delayInput id m]) ins.length
    let before := if ins = [] then LogicT.X else delayed n ins (ins.length - 1)
    (c.updateModel .beforeAllClk id).state = Function.update c.state o out ∧
      (c.updateModel .beforeAllClk id).tables = if before ≠ out then (c.enter o).tables else c.tables := by
  intro n out before
  obtain ⟨hline, hdel⟩ := h.delays hd hpipe hlast
  obtain ⟨clip, hcall, -⟩ := hdel.updateTickDelay hline
  rw [updateModel_tickDelay _ hline, hcall, hdel.last]
  change (store c (.write o out (decide (before ≠ out)))).state = _ ∧
    (store c (.write o out (decide (before ≠ out)))).tables = _
  by_cases hne : before = out
  · simp [store, hne]
  · simp [store, hne, enter]

def delayCircuit : Circult where
  board := .inOrder (.ofModels 2 [.on .tickDelay [0, 1]])
  analyzeType := .TR
  state := fun n => if n = .node 0 then .L else .X
  voltage := fun _ => 0.0
  clip := fun _ => { ticks := 2 }
  beforeAllClk := [0]

def delayModel : Model := .on .tickDelay [0, 1]

theorem delayCircuit_delayLine : delayCircuit.DelayLine 0 delayModel (.node 1) :=
  ⟨rfl, rfl, rfl, by decide, by decide⟩

/-- The first call has read the low input; now the input is high. -/
def inputHigh : Circult :=
  { delayCircuit.updateModel .beforeAllClk 0 with
    state := fun n : NodeId => if n = .node 0 then .H else .L
    tables := [] }

theorem updateModel_delayRun_inputHigh :
    ((inputHigh.updateModel .beforeAllClk 0).updateModel .beforeAllClk 0).state (.node 1) = .L ∧
      ((inputHigh.updateModel .beforeAllClk 0).updateModel .beforeAllClk 0).tables = [] := by
  have hfirst : DelayRun delayCircuit 0 delayModel _ inputHigh :=
    (DelayRun.start.tick).elsewhere rfl rfl
  obtain ⟨hstate, htables⟩ := updateModel_delayRun delayCircuit_delayLine rfl rfl hfirst.tick
  rw [hstate, htables]
  decide

end Circult

end PhyEngine
