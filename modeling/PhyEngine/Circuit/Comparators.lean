import PhyEngine.Circuit.Combinational
import PhyEngine.Circuit.Termination
import PhyEngine.Circuit.SingleDrives

/-!
# Models that never output X

`CASE_EQ` and `IS_UNKNOWN` map indeterminate inputs to a definite value, so that the state after
`prepare` is not settled for them. Every change of a node enters it in the table
(`Announcing.changed`): such a model is right once one of its inputs has been known.
-/

namespace PhyEngine

open List

/-! ## Changes enter the table -/

/-- The output pin of the models that write in every call and enter the node only when the cached
output changes. -/
def ModelKind.cachePin : ModelKind → Option Nat
  | .input => some 0
  | .yes | .not | .tickDelay => some 1
  | .and | .or | .xor | .xnor | .nand | .nor | .imp | .nimp => some 2
  | _ => none

variable {k : Nat} {n : NodeId}

theorem cachePin_mem_outPins {m : Model} (hk : m.kind.cachePin = some k) (clip : Clip) : k ∈ m.outPins clip := by
  revert hk
  cases hkind : m.kind <;> simp [Model.outPins, hkind, ModelKind.cachePin] <;> omega

/-- A delay line that is still to be filled has not driven yet. -/
def DelayUnfilled (m : Model) (clip : Clip) : Prop :=
  m.kind = .tickDelay → clip.ticks ≠ 0 → clip.pipe.length ≠ clip.ticks → clip.last 0 = .X

section Calls

variable {view : NodeId → NodeView} {trDuration : Float} {m : Model} {clip : Clip}

variable {v : LogicT} {o : NodeId}

theorem canEnter_nodeOutput : ∀ w ∈ (nodeOutput view clip o v).stores, w.canEnter = true := by
  intro w hw
  simp only [nodeOutput] at hw
  split at hw
  · exact absurd hw not_mem_nil
  · obtain rfl := mem_singleton.mp hw
    rfl

theorem canEnter_changeOutput {j : Nat} :
    ∀ w ∈ (changeOutput view clip j o v).stores, w.canEnter = true := by
  intro w hw
  simp only [changeOutput] at hw
  split at hw
  · split at hw
    · exact absurd hw not_mem_nil
    · exact absurd hw not_mem_nil
  · obtain rfl := mem_singleton.mp hw
    rfl

theorem canEnter_cachedStores {outs : List (NodeId × LogicT)} :
    ∀ w ∈ cachedStores view clip outs, w.canEnter = true := by
  intro w hw
  obtain ⟨ok, -, hw⟩ := mem_filterMap.mp hw
  split at hw
  · cases hw
    rfl
  · cases hw

theorem canEnter_block {arity count : Nat} {f : List LogicT → List LogicT} :
    ∀ w ∈ (block view arity count f m clip).stores, w.canEnter = true := by
  intro w hw
  simp only [block] at hw
  split at hw
  · exact canEnter_cachedStores w hw
  · exact absurd hw not_mem_nil

theorem canEnter_bitOutputs : ∀ w ∈ (bitOutputs view m clip).stores, w.canEnter = true := by
  intro w hw
  obtain ⟨ov, -, rfl⟩ := mem_map.mp hw
  rfl

theorem canEnter_updateTri : ∀ w ∈ (updateTri view m clip).stores, w.canEnter = true := by
  intro w hw
  simp only [updateTri] at hw
  repeat' split at hw
  all_goals first
    | exact absurd hw not_mem_nil
    | (obtain rfl := mem_singleton.mp hw
       rfl)

variable (method : DigitalUpdateMethod)

theorem canEnter_updateVerilogModule :
    ∀ w ∈ (updateVerilogModule view method m clip).stores, w.canEnter = true := by
  intro w hw
  cases ht : clip.topInstance with
  | none =>
    simp only [updateVerilogModule, ht] at hw
    exact absurd hw not_mem_nil
  | some t =>
    simp only [updateVerilogModule, ht] at hw
    obtain ⟨ov, -, rfl⟩ := mem_map.mp hw
    rfl

theorem canEnter_of_cachePin (hk : m.kind.cachePin = none) :
    ∀ w ∈ (updateDigitalClk view trDuration method m clip).stores, w.canEnter = true := by
  have hnone : ∀ w ∈ (⟨clip, [], none⟩ : Outcome).stores, w.canEnter = true := fun w hw => absurd hw not_mem_nil
  cases hkind : m.kind <;> simp only [hkind, ModelKind.cachePin, reduceCtorEq] at hk <;>
    simp only [updateDigitalClk, hkind]
  case output =>
    simp only [updateOutput]
    split <;> exact fun w hw => absurd hw not_mem_nil
  case tri =>
    exact canEnter_updateTri
  case eightBitInput =>
    intro w hw
    simp only [updateEightBitInput] at hw
    split at hw
    · obtain ⟨ov, -, rfl⟩ := mem_map.mp hw
      rfl
    · exact absurd hw not_mem_nil
  case verilogModule =>
    exact canEnter_updateVerilogModule method
  case mul2 =>
    simp only [updateMul2]
    split
    · exact canEnter_cachedStores
    · exact hnone
  case caseEq =>
    simp only [updateCaseEq]
    split
    · exact canEnter_changeOutput
    · exact hnone
  case isUnknown =>
    simp only [updateIsUnknown]
    split
    · exact canEnter_changeOutput
    · exact hnone
  case schmittTrigger =>
    simp only [updateSchmittTrigger]
    split
    · exact canEnter_changeOutput
    · exact hnone
  case counter4 =>
    simp only [updateCounter4]
    split
    · exact hnone
    · exact canEnter_bitOutputs
  case randomGenerator4 =>
    simp only [updateRandomGenerator4]
    split
    · exact hnone
    · exact canEnter_bitOutputs
  case halfAdder => exact canEnter_block
  case fullAdder => exact canEnter_block
  case halfSub => exact canEnter_block
  case fullSub => exact canEnter_block
  case eightBitDisplay => exact fun w hw => absurd hw not_mem_nil
  case verilogPorts => exact hnone
  case linear => exact hnone
  case nonLinear => exact hnone
  -- the flip-flops, the latch and RESOLVE2 compare with the node
  all_goals
    simp only [updateResolve2, updateDff, updateDffArstn, updateDlatch, toggleFf, updateJkff]
    split
    · exact canEnter_nodeOutput
    · exact hnone

/-- What a call may do to the output node `n` of a model with a cache. -/
def CachedCall (view : NodeId → NodeView) (clip : Clip) (n : NodeId) (r : Outcome) : Prop :=
  (r.stores = [] ∧ r.clip.last 0 = clip.last 0) ∨
    ∃ v, r.stores = [.write n v (decide ((view n).state ≠ v))] ∧ r.clip.last 0 = v

section

variable (hdigital : (view n).analog = false)
include hdigital

variable {clip' : Clip}

theorem cachedCall_gateOutput (hlast : clip'.last = clip.last)
    (hcache : (view n).state = clip.last 0) (v : LogicT) :
    CachedCall view clip n (gateOutput view clip' n v) := by
  refine .inr ⟨v, ?_, ?_⟩
  · simp only [gateOutput, hdigital, Bool.false_eq_true, if_false, hlast, hcache]
  · simp only [gateOutput, hdigital, Bool.false_eq_true, if_false, Clip.last_setLast]

theorem cachedCall_delayOutput
    (hcache : (view n).state = clip'.last 0) (v : LogicT) : CachedCall view clip n (delayOutput view clip' n v) := by
  refine .inr ⟨v, ?_, ?_⟩
  · simp only [delayOutput, hdigital, Bool.false_eq_true, if_false, hcache]
  · simp only [delayOutput, hdigital, Bool.false_eq_true, if_false, Clip.last_setLast]

theorem cachedCall_updateTickDelay
    (hn : m.pin 1 = some n) (hcache : (view n).state = clip.last 0) (hkind : m.kind = .tickDelay)
    (hdelay : DelayUnfilled m clip) : DelayUnfilled m (updateTickDelay view method m clip).clip ∧
      CachedCall view clip n (updateTickDelay view method m clip) := by
  by_cases hmethod : method = .beforeAllClk
  · subst hmethod
    cases hi : m.pin 0 <;>
      simp only [updateTickDelay, hn, hi]
    all_goals
      by_cases hticks : clip.ticks = 0
      · rw [if_pos hticks]
        refine ⟨fun _ hne => absurd ?_ hne, cachedCall_delayOutput hdigital hcache _⟩
        simpa [delayOutput, hdigital, Clip.setLast] using hticks
      · rw [if_neg hticks]
        by_cases hfill : clip.pipe.length = clip.ticks
        · rw [if_neg (not_not.mpr hfill)]
          refine ⟨fun _ _ hne => absurd ?_ hne, cachedCall_delayOutput hdigital ?_ _⟩
          · simpa [delayOutput, hdigital, Clip.setLast] using hfill
          · exact hcache
        · rw [if_pos hfill]
          refine ⟨fun _ _ hne => absurd ?_ hne, cachedCall_delayOutput hdigital ?_ _⟩
          · simp [delayOutput, hdigital, Clip.setLast]
          · -- the line has not driven before, so that forgetting its cache changes nothing
            rw [hcache, hdelay hkind hticks hfill]
            exact (Clip.last_setLast clip 0 .X).symm
  · have hsame : updateTickDelay view method m clip = ⟨clip, [], none⟩ :=
      Circult.updateTickDelay_of_ne view hmethod m clip
    rw [hsame]
    exact ⟨hdelay, .inl ⟨rfl, rfl⟩⟩

end

theorem cached_updateDigitalClk (hk : m.kind.cachePin = some k) (hn : m.pin k = some n)
    (hdigital : (view n).analog = false) (hcache : (view n).state = clip.last 0) (hdelay : DelayUnfilled m clip) :
    DelayUnfilled m (updateDigitalClk view trDuration method m clip).clip ∧
      CachedCall view clip n (updateDigitalClk view trDuration method m clip) := by
  have hone (f : LogicT → LogicT) (hn : m.pin 1 = some n) :
    CachedCall view clip n (gate1 view trDuration f m clip) := by
    cases hi : m.pin 0 with
    | none =>
      simp only [gate1, hi]
      exact .inl ⟨rfl, rfl⟩
    | some i =>
      simp only [gate1, hi, hn]
      refine cachedCall_gateOutput hdigital ?_ hcache _
      rfl
  have htwo (f : LogicT → LogicT → LogicT) (hn : m.pin 2 = some n) :
      CachedCall view clip n (gate2 view trDuration f m clip) := by
    cases ha : m.pin 0 with
    | none =>
      simp only [gate2, ha]
      exact .inl ⟨rfl, rfl⟩
    | some a =>
      cases hb : m.pin 1 with
      | none =>
        simp only [gate2, ha, hb]
        exact .inl ⟨rfl, rfl⟩
      | some b =>
        simp only [gate2, ha, hb, hn]
        refine cachedCall_gateOutput hdigital ?_ hcache _
        rfl
  cases hkind : m.kind <;> simp only [hkind, ModelKind.cachePin, Option.some.injEq, reduceCtorEq] at hk <;>
    subst hk <;> simp only [updateDigitalClk, hkind]
  case tickDelay => exact cachedCall_updateTickDelay method hdigital hn hcache hkind hdelay
  all_goals refine ⟨fun h => absurd (hkind.symm.trans h) (by decide), ?_⟩
  case input =>
    simp only [updateInput, hn]
    exact cachedCall_gateOutput hdigital rfl hcache _
  case yes => exact hone _ hn
  case not => exact hone _ hn
  all_goals exact htwo _ hn

theorem stores_of_unconnected (hk : m.kind.cachePin = some k) (hn : m.pin k = none) :
    (updateDigitalClk view trDuration method m clip).stores = [] := by
  refine eq_nil_iff_forall_not_mem.mpr fun w hw => ?_
  obtain ⟨j, hj, hpin, -⟩ := (drives_updateDigitalClk method).stores w hw
  have hjk : j = k := by
    revert hk hj
    cases hkind : m.kind <;> simp [Model.outPins, hkind, ModelKind.cachePin] <;> omega
  rw [hjk, hn] at hpin
  cases hpin

end Calls

namespace Circult

/-! ## Runs of a digital circuit -/

/-- A circuit without analog nodes, in which no node has two driving pins and the nodes can be
ranked so that the outputs of every combinational model rank above its inputs. -/
structure PurelyDigital (c : Circult) : Prop where
  wired : c.board.Wired
  digital : ∀ n, c.board.isAnalog n = false
  single : ∀ x ∈ c.board.nl.bases, ∀ y ∈ c.board.nl.bases, ∀ k ∈ x.model.outPins (c.clip x.id),
    ∀ k' ∈ y.model.outPins (c.clip y.id), x.model.pin k ≠ none → x.model.pin k = y.model.pin k' → x.id = y.id ∧ k = k'
  acyclic : ∃ rank : NodeId → Nat, ∀ x ∈ c.board.nl.bases, (x.model.kind.gateFn .X).isSome →
    ∀ j < x.model.pins.length, j ∉ x.model.outPins (c.clip x.id) → ∀ k ∈ x.model.outPins (c.clip x.id),
      ∀ d ∈ x.model.pin j, ∀ t ∈ x.model.pin k, rank d < rank t

/-- The circuits reached by setting inputs and by ticks, whether or not a tick got through its
table, and the circuits these ticks began with. -/
inductive TickRun (c₀ : Circult) : List Circult → Circult → Prop
  | start : TickRun c₀ [] c₀
  | setInput {es : List Circult} {c : Circult} (h : TickRun c₀ es c) (id : Nat) (v : LogicT) :
      TickRun c₀ es (c.setInput id v)
  | digitalClk {es : List Circult} {c : Circult} (h : TickRun c₀ es c) : TickRun c₀ (es ++ [c]) c.digitalClk

/-- One of these ticks left a node of the model known. -/
def KnownOnce (x : ModelBase) (es : List Circult) : Prop :=
  ∃ e ∈ es, ∃ n, some n ∈ x.model.pins ∧ e.digitalClk.state n ≠ .X

/-- Only `INPUT` models drive the nodes of the other pins than the output pins. -/
def FedByInputs (c₀ : Circult) (x : ModelBase) : Prop :=
  ∀ j n, x.model.pin j = some n → j ∉ x.model.outPins (c₀.clip x.id) → ∀ y ∈ c₀.board.nl.bases,
    ∀ k ∈ y.model.outPins (c₀.clip y.id), y.model.pin k = some n → y.model.kind = .input

/-- At one of these ticks an `INPUT` on a node of the model was not X. -/
def SetOnce (c₀ : Circult) (x : ModelBase) (es : List Circult) : Prop :=
  ∃ e ∈ es, ∃ y ∈ c₀.board.nl.bases, y.model.kind = .input ∧
    ∃ n, y.model.pin 0 = some n ∧ some n ∈ x.model.pins ∧ (e.clip y.id).outputA ≠ .X

/-- The output nodes of the models with a cache show the cached value. -/
structure Announcing (c₀ c : Circult) : Prop where
  board : c.board = c₀.board
  outPins : ∀ x ∈ c₀.board.nl.bases, x.model.outPins (c.clip x.id) = x.model.outPins (c₀.clip x.id)
  cache : ∀ x ∈ c₀.board.nl.bases, ∀ k n, x.model.kind.cachePin = some k → x.model.pin k = some n →
    c.state n = (c.clip x.id).last 0
  delay : ∀ x ∈ c₀.board.nl.bases, DelayUnfilled x.model (c.clip x.id)

variable {c₀ c : Circult}

theorem entered_foldl_store (n : NodeId) (ws : List Store) : ∀ {c : Circult}, (∀ w ∈ ws, w.canEnter = true) →
    (ws.foldl store c).state n = c.state n ∨ n ∈ (ws.foldl store c).tables := by
  induction ws with
  | nil => exact fun _ => .inl rfl
  | cons w ws ih =>
    intro c h
    have hfirst : (c.store w).state n = c.state n ∨ n ∈ (c.store w).tables := by
      by_cases hw : w.node = n
      · have hcan := h w mem_cons_self
        cases w with
        | write m v e =>
          obtain rfl : m = n := hw
          obtain rfl : e = true := hcan
          exact .inr (mem_enter_tables.mpr (.inl rfl))
        | update m v =>
          obtain rfl : m = n := hw
          simp only [store]
          split
          · exact .inl rfl
          · exact .inr (mem_enter_tables.mpr (.inl rfl))
      · exact .inl (state_store_of_ne hw)
    rw [foldl_cons]
    rcases hfirst with hsame | hin
    · rw [← hsame]
      exact ih fun w' hw' => h w' (mem_cons_of_mem _ hw')
    · exact .inr (mem_tables_foldl_store ws hin)

theorem afterCall_state (c : Circult) (id : Nat) (r : Outcome) :
    (c.afterCall id r).state = (r.stores.foldl store c).state := rfl

theorem afterCall_tables (c : Circult) (id : Nat) (r : Outcome) :
    (c.afterCall id r).tables = (r.stores.foldl store c).tables := rfl

theorem afterCall_clip_self (c : Circult) (id : Nat) (r : Outcome) : (c.afterCall id r).clip id = r.clip :=
  Function.update_self _ _ _

theorem Announcing.frame (hd : c₀.PurelyDigital) (h : Announcing c₀ c) (method : DigitalUpdateMethod) {id : Nat}
    {x : ModelBase} (hx : x ∈ c₀.board.nl.bases) (hid : id ≠ x.id) (hk : k ∈ x.model.outPins (c₀.clip x.id))
    (hn : x.model.pin k = some n) : (c.updateModel method id).state n = c.state n := by
  rcases updateModel_cases method c id with hsame | ⟨y, hy, rfl, hcall⟩
  · rw [hsame]
  · rw [h.board] at hy
    rw [hcall, afterCall_state]
    refine state_foldl_store_of_ne _ fun w hw hwn => hid ?_
    obtain ⟨j, hj, hpin, -⟩ := (drives_updateDigitalClk method).stores w hw
    rw [h.outPins y hy] at hj
    exact (hd.single y hy x hx j hj k hk (by rw [hpin]; exact Option.some_ne_none _) (by rw [hpin, hwn, hn])).1

theorem Announcing.updateModel (hd : c₀.PurelyDigital) (h : Announcing c₀ c) (method : DigitalUpdateMethod) (id : Nat) :
    Announcing c₀ (c.updateModel method id) ∧ ∀ n, (c.updateModel method id).state n = c.state n ∨
      n ∈ (c.updateModel method id).tables := by
  rcases updateModel_cases method c id with hsame | ⟨x, hx, rfl, hcall⟩
  · rw [hsame]
    exact ⟨h, fun n => .inl rfl⟩
  · have hboard := h.board
    rw [hboard] at hx
    have hdigital : ∀ n, (c.view n).analog = false := fun n => by
      simp only [view, hboard]
      exact hd.digital n
    set r := updateDigitalClk c.view c.trDuration method x.model (c.clip x.id) with hr
    have hsame : ∀ y ∈ c₀.board.nl.bases, y.id = x.id → y = x := fun y hy hid =>
      inj_on_of_nodup_map hd.wired.ids hy hx hid
    have hother : ∀ y : ModelBase, y.id ≠ x.id → (c.updateModel method x.id).clip y.id = c.clip y.id :=
      fun y hid => clip_updateModel hid
    have hself : (c.updateModel method x.id).clip x.id = r.clip := by
      rw [hcall, afterCall_clip_self]
    have hstate : (c.updateModel method x.id).state = (r.stores.foldl store c).state := by
      rw [hcall, afterCall_state]
    have htables : (c.updateModel method x.id).tables = (r.stores.foldl store c).tables := by
      rw [hcall, afterCall_tables]
    -- the call of a model with a cache
    have hcached : ∀ k n, x.model.kind.cachePin = some k → x.model.pin k = some n →
        DelayUnfilled x.model r.clip ∧ CachedCall c.view (c.clip x.id) n r := fun k n hk hn =>
      cached_updateDigitalClk method hk hn (hdigital n) (h.cache x hx k n hk hn) (h.delay x hx)
    refine ⟨⟨(sameSetup_updateModel method c x.id).board.trans hboard, fun y hy => ?_, fun y hy k n hk hn => ?_,
      fun y hy => ?_⟩, fun n => ?_⟩
    · by_cases hid : y.id = x.id
      · obtain rfl := hsame y hy hid
        rw [hself, hr, outPins_updateDigitalClk, h.outPins y hy]
      · rw [hother y hid, h.outPins y hy]
    · by_cases hid : y.id = x.id
      · obtain rfl := hsame y hy hid
        rw [hself, hstate]
        rcases (hcached k n hk hn).2 with ⟨hstores, hlast⟩ | ⟨v, hstores, hlast⟩
        · rw [hstores, hlast]
          exact h.cache y hy k n hk hn
        · rw [hstores, hlast, foldl_cons, foldl_nil]
          simp only [store]
          split
          · exact Function.update_self _ _ _
          · exact Function.update_self _ _ _
      · rw [hother y hid, h.frame hd method hy (Ne.symm hid) (cachePin_mem_outPins hk _) hn]
        exact h.cache y hy k n hk hn
    · by_cases hid : y.id = x.id
      · obtain rfl := hsame y hy hid
        rw [hself]
        intro hkind
        have hk : y.model.kind.cachePin = some 1 := by rw [hkind]; rfl
        cases hn : y.model.pin 1 with
        | some n => exact (hcached 1 n hk hn).1 hkind
        | none =>
          have hclip : r.clip = c.clip y.id := by
            rw [hr]
            simp only [updateDigitalClk, hkind, updateTickDelay, hn]
          rw [hclip]
          exact h.delay y hy hkind
      · rw [hother y hid]
        exact h.delay y hy
    · rw [hstate, htables]
      cases hk : x.model.kind.cachePin with
      | none => exact entered_foldl_store n r.stores (canEnter_of_cachePin method hk)
      | some k =>
        cases ho : x.model.pin k with
        | none =>
          rw [hr, stores_of_unconnected method hk ho]
          exact .inl rfl
        | some o =>
          rcases (hcached k o hk ho).2 with ⟨hstores, -⟩ | ⟨v, hstores, -⟩
          · rw [hstores]
            exact .inl rfl
          · rw [hstores, foldl_cons, foldl_nil]
            by_cases hne : c.state o = v
            · refine .inl ?_
              have hview : (c.view o).state = v := hne
              simp only [store, hview, ne_eq, not_true_eq_false, decide_false, Bool.false_eq_true, if_false]
              rw [← hne, Function.update_eq_self]
            · have hview : (c.view o).state ≠ v := hne
              simp only [store, hview, ne_eq, not_false_eq_true, decide_true, if_true]
              by_cases hno : n = o
              · exact .inr (mem_enter_tables.mpr (.inl hno))
              · exact .inl (Function.update_of_ne hno _ _)

theorem Announcing.enter (h : Announcing c₀ c) (n : NodeId) : Announcing c₀ (c.enter n) :=
  ⟨h.board, h.outPins, h.cache, h.delay⟩

theorem Announcing.take (h : Announcing c₀ c) (n : NodeId) :
    Announcing c₀ { c with tables := c.tables.filter fun m => m ≠ n } :=
  ⟨h.board, h.outPins, h.cache, h.delay⟩

theorem setInput_cases (c : Circult) (id : Nat) (v : LogicT) : c.setInput id v = c ∨
    ∃ m, c.board.modelAt id = some m ∧ m.kind = .input ∧
      c.setInput id v = { c with clip := Function.update c.clip id { c.clip id with outputA := v } } := by
  cases hm : c.board.modelAt id with
  | none => exact .inl (by simp only [Circult.setInput, hm])
  | some m =>
    by_cases hk : m.kind = .input
    · exact .inr ⟨m, rfl, hk, by simp only [Circult.setInput, hm, hk, if_true]⟩
    · exact .inl (by simp only [Circult.setInput, hm, hk, if_false])

theorem last_setInput (c : Circult) (id : Nat) (v : LogicT) (id' : Nat) :
    ((c.setInput id v).clip id').last = (c.clip id').last := by
  rcases setInput_cases c id v with hsame | ⟨m, -, -, hset⟩
  · rw [hsame]
  · rw [hset]
    by_cases hid : id' = id
    · subst hid
      simp
    · simp [hid]

theorem sameSetup_setInput (c : Circult) (id : Nat) (v : LogicT) : SameSetup c (c.setInput id v) := by
  rcases setInput_cases c id v with hsame | ⟨m, -, -, hset⟩
  · rw [hsame]
    exact .refl c
  · rw [hset]
    exact ⟨rfl, rfl, rfl, rfl, rfl, rfl, rfl, rfl⟩

theorem state_setInput (c : Circult) (id : Nat) (v : LogicT) : (c.setInput id v).state = c.state := by
  rcases setInput_cases c id v with hsame | ⟨m, -, -, hset⟩
  · rw [hsame]
  · rw [hset]

theorem tables_setInput (c : Circult) (id : Nat) (v : LogicT) : (c.setInput id v).tables = c.tables := by
  rcases setInput_cases c id v with hsame | ⟨m, -, -, hset⟩
  · rw [hsame]
  · rw [hset]

/-- Only an `INPUT` is changed, whose pins and delay do not depend on its value. -/
theorem Announcing.setInput (hd : c₀.PurelyDigital) (h : Announcing c₀ c) (id : Nat) (v : LogicT) :
    Announcing c₀ (c.setInput id v) := by
  have hclip : ∀ x ∈ c₀.board.nl.bases, (c.setInput id v).clip x.id = c.clip x.id ∨ x.model.kind = .input := by
    intro x hx
    rcases setInput_cases c id v with hsame | ⟨m, hm, hk, hset⟩
    · rw [hsame]
      exact .inl rfl
    · by_cases hid : x.id = id
      · subst hid
        rw [h.board, Board.modelAt_of_mem hd.wired hx] at hm
        cases hm
        exact .inr hk
      · rw [hset]
        exact .inl (Function.update_of_ne hid _ _)
  refine ⟨(sameSetup_setInput c id v).board.trans h.board, fun x hx => ?_, fun x hx k n hk hn => ?_, fun x hx => ?_⟩
  · rcases hclip x hx with hsame | hinput
    · rw [hsame]
      exact h.outPins x hx
    · simp only [Model.outPins, hinput]
  · rw [state_setInput, last_setInput]
    exact h.cache x hx k n hk hn
  · rcases hclip x hx with hsame | hinput
    · rw [hsame]
      exact h.delay x hx
    · exact fun hkind => absurd (hinput.symm.trans hkind) (by decide)

theorem Fresh.announcing (hd : c₀.PurelyDigital) (h : c₀.Fresh) : Announcing c₀ c₀ where
  board := rfl
  outPins := fun _ _ => rfl
  cache := fun x hx k n _ hn => by
    rw [h.last]
    exact h.state n (ne_nil_of_mem (hd.wired.mem_pinOrder hx hn))
  delay := fun x _ _ _ _ => h.last x.id 0

end Circult

/-! ## Comparators -/

/-- A model that writes to `o` a definite value of the nodes `ins` in every call. -/
structure Model.Compares (m : Model) (ins : List NodeId) (o : NodeId) (answer : (NodeId → LogicT) → LogicT) : Prop where
  reads : ∀ st st' : NodeId → LogicT, (∀ i ∈ ins, st i = st' i) → answer st = answer st'
  definite : ∀ st, answer st ≠ .X
  inputs : ∀ i ∈ ins, some i ∈ m.pins
  apart : o ∉ ins
  output : ∀ clip, ∃ k ∈ m.outPins clip, m.pin k = some o
  digital : m.kind.deviceType = .digital
  method : m.kind.digitalUpdateMethod = .updateTable
  call : ∀ (view : NodeId → NodeView) trDuration method clip, (∀ n, (view n).analog = false) →
    updateDigitalClk view trDuration method m clip =
      ⟨clip.setLast 0 (answer fun n => (view n).state), [.update o (answer fun n => (view n).state)], none⟩

theorem mem_pins_of_pin {m : Model} (h : m.pin k = some n) : some n ∈ m.pins :=
  List.mem_of_getElem? (Option.join_eq_some_iff.mp h)

theorem exists_pin {m : Model} (h : some n ∈ m.pins) : ∃ j, m.pin j = some n := by
  obtain ⟨j, hj⟩ := mem_iff_getElem?.mp h
  exact ⟨j, Option.join_eq_some_iff.mpr hj⟩

theorem lt_length_of_pin {m : Model} (h : m.pin k = some n) : k < m.pins.length :=
  (List.getElem?_eq_some_iff.mp (Option.join_eq_some_iff.mp h)).1

namespace Circult

variable {c₀ c : Circult}

theorem PurelyDigital.compares_caseEq (hd : c₀.PurelyDigital) {x : ModelBase} (hx : x ∈ c₀.board.nl.bases)
    (hk : x.model.kind = .caseEq) {a b o : NodeId} (ha : x.model.pin 0 = some a) (hb : x.model.pin 1 = some b)
    (ho : x.model.pin 2 = some o) : x.model.Compares [a, b] o fun st => .ofBool (decide (st a = st b)) where
  reads := fun st st' h => by
    simp only [h a mem_cons_self, h b (mem_cons_of_mem _ mem_cons_self)]
  definite := fun st => by cases decide (st a = st b) <;> decide
  inputs := fun i hi => by
    rcases mem_cons.mp hi with rfl | hi
    · exact mem_pins_of_pin ha
    · obtain rfl := mem_singleton.mp hi
      exact mem_pins_of_pin hb
  apart := fun hmem => by
    obtain ⟨rank, hrank⟩ := hd.acyclic
    have hlow : ∀ j d, x.model.pin j = some d → j ≠ 2 → rank d < rank o := fun j d hj hne =>
      hrank x hx (by simp [hk, ModelKind.gateFn]) j (lt_length_of_pin hj) (by simpa [Model.outPins, hk] using hne) 2
        (by simp [Model.outPins, hk]) d hj o ho
    rcases mem_cons.mp hmem with rfl | hmem
    · exact lt_irrefl _ (hlow 0 o ha (by decide))
    · obtain rfl := mem_singleton.mp hmem
      exact lt_irrefl _ (hlow 1 o hb (by decide))
  output := fun clip => ⟨2, by simp [Model.outPins, hk], ho⟩
  digital := by rw [hk]; rfl
  method := by rw [hk]; rfl
  call := fun view trDuration method clip hdigital => by
    simp only [updateDigitalClk, hk, updateCaseEq, ha, hb, ho, readDn, hdigital, changeOutput, Bool.false_eq_true,
      if_false]

theorem PurelyDigital.compares_isUnknown (hd : c₀.PurelyDigital) {x : ModelBase} (hx : x ∈ c₀.board.nl.bases)
    (hk : x.model.kind = .isUnknown) {i o : NodeId} (hi : x.model.pin 0 = some i) (ho : x.model.pin 1 = some o) :
    x.model.Compares [i] o fun st => .ofBool (st i).isUnknown where
  reads := fun st st' h => by simp only [h i mem_cons_self]
  definite := fun st => by cases (st i).isUnknown <;> decide
  inputs := fun i' hi' => by
    obtain rfl := mem_singleton.mp hi'
    exact mem_pins_of_pin hi
  apart := fun hmem => by
    obtain ⟨rank, hrank⟩ := hd.acyclic
    obtain rfl := mem_singleton.mp hmem
    exact lt_irrefl _ (hrank x hx (by simp [hk, ModelKind.gateFn]) 0 (lt_length_of_pin hi)
      (by simp [Model.outPins, hk]) 1 (by simp [Model.outPins, hk]) o hi o ho)
  output := fun clip => ⟨1, by simp [Model.outPins, hk], ho⟩
  digital := by rw [hk]; rfl
  method := by rw [hk]; rfl
  call := fun view trDuration method clip hdigital => by
    simp only [updateDigitalClk, hk, updateIsUnknown, hi, ho, readDn, hdigital, changeOutput, Bool.false_eq_true,
      if_false]

section Watch

variable {x : ModelBase} {ins : List NodeId} {o : NodeId} {answer : (NodeId → LogicT) → LogicT}

section

variable (hd : c₀.PurelyDigital) (hx : x ∈ c₀.board.nl.bases)
include hd hx

section

variable (hcmp : x.model.Compares ins o answer)
include hcmp

theorem updateModel_compares (hboard : c.board = c₀.board) (method : DigitalUpdateMethod) :
    ((c.updateModel method x.id).clip x.id).last 0 = answer c.state ∧
      (c.updateModel method x.id).state = Function.update c.state o (answer c.state) := by
  have hmodel : c.board.modelAt x.id = some x.model := by rw [hboard, Board.modelAt_of_mem hd.wired hx]
  have hdigital : ∀ n, (c.view n).analog = false := fun n => by
    simp only [view, hboard]
    exact hd.digital n
  have hcall := hcmp.call c.view c.trDuration method (c.clip x.id) hdigital
  simp only [updateModel, hmodel, hcmp.digital, if_true, hcall, foldl_cons, foldl_nil, store, view]
  refine ⟨by rw [Function.update_self, Clip.last_setLast], ?_⟩
  split
  · rename_i hsame
    rw [← hsame, Function.update_eq_self]
  · rfl

omit hcmp in
theorem mem_ids_pinOrder (n : NodeId) :
    x.id ∈ (c₀.board.pinOrder n).map (·.id) ↔ some n ∈ x.model.pins := by
  constructor
  · intro h
    obtain ⟨p, hp, hid⟩ := mem_map.mp h
    obtain ⟨y, hy, hyid, hpin⟩ := (hd.wired.pins n p).mp hp
    obtain rfl : y = x := inj_on_of_nodup_map hd.wired.ids hy hx (hyid.trans hid)
    exact List.mem_of_getElem? hpin
  · intro h
    obtain ⟨k, hk⟩ := mem_iff_getElem?.mp h
    exact mem_map.mpr ⟨⟨x.id, k⟩, (hd.wired.pins n ⟨x.id, k⟩).mpr ⟨x, hx, rfl, hk⟩, rfl⟩

end

theorem not_mem_modelsWith {method : DigitalUpdateMethod}
    (hne : x.model.kind.digitalUpdateMethod ≠ method) : x.id ∉ c₀.board.modelsWith method := by
  intro h
  obtain ⟨y, hy, hid⟩ := mem_map.mp h
  rw [mem_filter, Bool.and_eq_true, decide_eq_true_eq, decide_eq_true_eq] at hy
  obtain rfl : y = x := inj_on_of_nodup_map hd.wired.ids hy.1 hx hid
  exact hne hy.2.2

end

/-- A comparator that still shows the initial state, or its answer unless the change of an input
waits in the table or `due` says why not. As soon as one of its nodes is or was `known`, it has
been called or one of its nodes waits. -/
structure Watched (c₀ : Circult) (x : ModelBase) (ins : List NodeId) (o : NodeId)
    (answer : (NodeId → LogicT) → LogicT) (known due : Prop) (c : Circult) : Prop extends Announcing c₀ c where
  silent : (c.clip x.id).last 0 = .X → c.state o = .X
  answered : (c.clip x.id).last 0 ≠ .X → c.state o = answer c.state ∨ (∃ i ∈ ins, i ∈ c.tables) ∨ due
  noticed : (known ∨ ∃ n, some n ∈ x.model.pins ∧ c.state n ≠ .X) →
    (c.clip x.id).last 0 ≠ .X ∨ (∃ n, some n ∈ x.model.pins ∧ n ∈ c.tables) ∨ due

variable {known due : Prop}

theorem Watched.mono (h : Watched c₀ x ins o answer known due c) {due' : Prop} (hdue : due → due') :
    Watched c₀ x ins o answer known due' c :=
  ⟨h.toAnnouncing, h.silent, fun hlast => (h.answered hlast).imp_right (Or.imp_right hdue),
    fun hk => (h.noticed hk).imp_right (Or.imp_right hdue)⟩

section

variable (hd : c₀.PurelyDigital)
include hd

section

variable (hx : x ∈ c₀.board.nl.bases)
include hx

section

variable (hcmp : x.model.Compares ins o answer)
include hcmp

theorem Watched.call
    (h : Watched c₀ x ins o answer known due c) (method : DigitalUpdateMethod) :
    Watched c₀ x ins o answer known False (c.updateModel method x.id) := by
  obtain ⟨hlast, hstate⟩ := updateModel_compares hd hx hcmp h.board method
  have hcalled : ((c.updateModel method x.id).clip x.id).last 0 ≠ .X := by
    rw [hlast]
    exact hcmp.definite _
  refine ⟨(h.toAnnouncing.updateModel hd method x.id).1, fun hX => absurd hX hcalled, fun _ => .inl ?_, fun _ =>
    .inl hcalled⟩
  · rw [hstate, Function.update_self]
    exact hcmp.reads _ _ fun i hi => (Function.update_of_ne (ne_of_mem_of_not_mem hi hcmp.apart) _ _).symm

theorem Watched.updateModel (h : Watched c₀ x ins o answer known due c) (method : DigitalUpdateMethod)
    (id : Nat) : Watched c₀ x ins o answer known due (c.updateModel method id) := by
  by_cases hid : x.id = id
  · subst hid
    exact (h.call hd hx hcmp method).mono False.elim
  · obtain ⟨hann, hchanged⟩ := h.toAnnouncing.updateModel hd method id
    obtain ⟨k, hk, ho⟩ := hcmp.output (c₀.clip x.id)
    have hstate : (c.updateModel method id).state o = c.state o :=
      h.toAnnouncing.frame hd method hx (Ne.symm hid) hk ho
    refine ⟨hann, ?_, ?_, ?_⟩
    · rw [clip_updateModel hid, hstate]
      exact h.silent
    · rw [clip_updateModel hid, hstate]
      intro hlast
      by_cases hins : ∀ i ∈ ins, c.state i = (c.updateModel method id).state i
      · rw [← hcmp.reads _ _ hins]
        refine (h.answered hlast).imp_right (Or.imp_left ?_)
        exact fun ⟨i, hi, hin⟩ => ⟨i, hi, mem_tables_updateModel hin method id⟩
      · push Not at hins
        obtain ⟨i, hi, hne⟩ := hins
        exact .inr (.inl ⟨i, hi, (hchanged i).resolve_left (Ne.symm hne)⟩)
    · rw [clip_updateModel hid]
      intro hknown
      by_cases hold : known ∨ ∃ n, some n ∈ x.model.pins ∧ c.state n ≠ .X
      · refine (h.noticed hold).imp_right (Or.imp_left ?_)
        exact fun ⟨n, hn, hin⟩ => ⟨n, hn, mem_tables_updateModel hin method id⟩
      · rw [not_or, not_exists] at hold
        obtain ⟨n, hn, hne⟩ := hknown.resolve_left hold.1
        exact .inr (.inl ⟨n, hn, (hchanged n).resolve_left fun hsame => hold.2 n ⟨hn, hsame ▸ hne⟩⟩)

theorem Watched.foldl
    (method : DigitalUpdateMethod) (ids : List Nat) :
      ∀ {due : Prop} {c : Circult}, Watched c₀ x ins o answer known due c →
      Watched c₀ x ins o answer known (due ∧ x.id ∉ ids) (ids.foldl (Circult.updateModel method) c) := by
  induction ids with
  | nil => exact fun h => h.mono fun hdue => ⟨hdue, not_mem_nil⟩
  | cons id ids ih =>
    intro due c h
    rw [foldl_cons]
    by_cases hid : x.id = id
    · subst hid
      exact (ih (h.call hd hx hcmp method)).mono fun hdue => hdue.1.elim
    · refine (ih (h.updateModel hd hx hcmp method id)).mono fun hdue => ⟨hdue.1, fun hmem => ?_⟩
      exact (mem_cons.mp hmem).elim hid hdue.2

theorem Watched.processNode (h : Watched c₀ x ins o answer known False c) (n : NodeId) :
    Watched c₀ x ins o answer known False (c.processNode n) := by
  have htake : Watched c₀ x ins o answer known (some n ∈ x.model.pins)
      { c with tables := c.tables.filter fun m => m ≠ n } := by
    refine ⟨h.toAnnouncing.take n, h.silent, fun hlast => ?_, fun hknown => ?_⟩
    · rcases h.answered hlast with hans | ⟨i, hi, hin⟩ | hfalse
      · exact .inl hans
      · by_cases hin' : i = n
        · exact .inr (.inr (hcmp.inputs n (hin' ▸ hi)))
        · exact .inr (.inl ⟨i, hi, mem_filter.mpr ⟨hin, by simpa using hin'⟩⟩)
      · exact absurd hfalse not_false
    · rcases h.noticed hknown with hcalled | ⟨i, hi, hin⟩ | hfalse
      · exact .inl hcalled
      · by_cases hin' : i = n
        · exact .inr (.inr (hin' ▸ hi))
        · exact .inr (.inl ⟨i, hi, mem_filter.mpr ⟨hin, by simpa using hin'⟩⟩)
      · exact absurd hfalse not_false
  rw [processNode_eq_foldl]
  refine (htake.foldl hd hx hcmp .updateTable _).mono fun ⟨hn, hnot⟩ => hnot ?_
  rw [h.board]
  exact (mem_ids_pinOrder hd hx n).mpr hn

theorem Watched.settleLoop
    (k : Nat) : ∀ {c : Circult}, Watched c₀ x ins o answer known False c →
      Watched c₀ x ins o answer known False (Circult.settleLoop k c) := by
  induction k with
  | zero => exact fun h => h
  | succ k ih =>
    intro c h
    simp only [Circult.settleLoop]
    split
    · exact h
    · exact ih (h.processNode hd hx hcmp _)

end

end

omit hd in
theorem Watched.enter (h : Watched c₀ x ins o answer known due c) (n : NodeId) :
    Watched c₀ x ins o answer known due (c.enter n) := by
  have hstay {P : NodeId → Prop} : (∃ i, P i ∧ i ∈ c.tables) → ∃ i, P i ∧ i ∈ (c.enter n).tables :=
    fun ⟨i, hi, hin⟩ => ⟨i, hi, mem_enter_tables.mpr (.inr hin)⟩
  exact ⟨h.toAnnouncing.enter n, h.silent, fun hlast => (h.answered hlast).imp_right (Or.imp_left hstay),
    fun hknown => (h.noticed hknown).imp_right (Or.imp_left hstay)⟩

omit hd in
theorem Watched.enters (ns : List NodeId) : ∀ {c : Circult}, Watched c₀ x ins o answer known due c →
    Watched c₀ x ins o answer known due (ns.foldl Circult.enter c) := by
  induction ns with
  | nil => exact fun h => h
  | cons n ns ih => exact fun h => ih (h.enter n)

theorem Watched.digitalClk (hx : x ∈ c₀.board.nl.bases)
    (hcmp : x.model.Compares ins o answer) (h : Watched c₀ x ins o answer known False c) :
    Watched c₀ x ins o answer known False c.digitalClk := by
  have hstart : Watched c₀ x ins o answer known False { c with digitalOut := [] } :=
    ⟨⟨h.board, h.outPins, h.cache, h.delay⟩, h.silent, h.answered, h.noticed⟩
  have hbefore := (hstart.foldl hd hx hcmp .beforeAllClk c.beforeAllClk).mono And.left
  have htable := (hbefore.enters { c with digitalOut := [] }.beforeDigitalClk.alwaysTables).settleLoop hd hx hcmp
    iterBudget
  exact (htable.foldl hd hx hcmp .afterAllClk _).mono And.left

end

variable {es : List Circult}

theorem TickRun.exists_run (hrun : TickRun c₀ es c) {e : Circult} (he : e ∈ es) : ∃ fs, TickRun c₀ fs e := by
  induction hrun with
  | start => exact absurd he not_mem_nil
  | setInput _ _ _ ih => exact ih he
  | digitalClk hrun ih =>
    rcases mem_append.mp he with he | he
    · exact ih he
    · obtain rfl := mem_singleton.mp he
      exact ⟨_, hrun⟩

theorem TickRun.watched (hd : c₀.PurelyDigital) (hfresh : c₀.Fresh) (hx : x ∈ c₀.board.nl.bases)
    (hcmp : x.model.Compares ins o answer) (hrun : TickRun c₀ es c) :
    Watched c₀ x ins o answer (KnownOnce x es) False c := by
  induction hrun with
  | start =>
    obtain ⟨k, -, ho⟩ := hcmp.output (c₀.clip x.id)
    refine ⟨hfresh.announcing hd, fun _ => ?_, fun hne => absurd (hfresh.last x.id 0) hne, ?_⟩
    · exact hfresh.state o (ne_nil_of_mem (hd.wired.mem_pinOrder hx ho))
    · rintro (⟨e, he, -⟩ | ⟨n, hn, hne⟩)
      · exact absurd he not_mem_nil
      · exact absurd (hfresh.state n (ne_nil_of_mem (hd.wired.mem_pinOrder hx (exists_pin hn).choose_spec))) hne
  | setInput _ id v ih =>
    refine ⟨ih.toAnnouncing.setInput hd id v, ?_, ?_, ?_⟩
    · rw [last_setInput, state_setInput]
      exact ih.silent
    · rw [last_setInput, state_setInput, tables_setInput]
      exact ih.answered
    · rw [last_setInput, state_setInput, tables_setInput]
      exact ih.noticed
  | @digitalClk es c _ ih =>
    have htick := ih.digitalClk hd hx hcmp
    refine ⟨htick.toAnnouncing, htick.silent, htick.answered, ?_⟩
    rintro (⟨e, he, hknown⟩ | hknown)
    · rcases mem_append.mp he with he | he
      · exact htick.noticed (.inl ⟨e, he, hknown⟩)
      · obtain rfl := mem_singleton.mp he
        exact htick.noticed (.inr hknown)
    · exact htick.noticed (.inr hknown)

/-- A comparator one of whose nodes has been known shows its answer when the table is empty. -/
theorem Watched.answers (h : Watched c₀ x ins o answer known False c) (hknown : known) (hends : c.tables = []) :
    c.state o = answer c.state := by
  have hempty {n : NodeId} (hn : n ∈ c.tables) : False := by
    rw [hends] at hn
    exact not_mem_nil hn
  rcases h.noticed (.inl hknown) with hlast | ⟨n, -, hn⟩ | hfalse
  · rcases h.answered hlast with hans | ⟨i, -, hin⟩ | hfalse
    · exact hans
    · exact (hempty hin).elim
    · exact hfalse.elim
  · exact (hempty hn).elim
  · exact hfalse.elim

end Watch

/-! ## Models that only `INPUT` models feed -/

theorem Fresh.afterAllClk_eq (h : c₀.Fresh) (hsetup : SameSetup c₀ c) : c.afterAllClk = [] := by
  rw [hsetup.afterAllClk, h.afterAllClk, modelsWith_afterAllClk]

/-- A tick leaves a node that only one `INPUT` drives at its value. -/
theorem state_digitalClk_input (hd : c₀.PurelyDigital) (hann : Announcing c₀ c) (hsetup : SameSetup c₀ c)
    (hfresh : c₀.Fresh) {y : ModelBase} (hy : y ∈ c₀.board.nl.bases) (hk : y.model.kind = .input)
    (hpin : y.model.pin 0 = some n) : c.digitalClk.state n = (c.clip y.id).outputA := by
  have hw : c.board.Wired := hann.board.symm ▸ hd.wired
  have hdigital : c.board.isAnalog n = false := hann.board.symm ▸ hd.digital n
  have houts : y.model.outPins (c₀.clip y.id) = [0] := by simp only [Model.outPins, hk]
  have hbefore : y.id ∈ c.beforeAllClk := by
    rw [hsetup.beforeAllClk, hfresh.beforeAllClk]
    exact mem_map_of_mem (mem_filter.mpr ⟨hy, by simp [hk, ModelKind.deviceType, ModelKind.digitalUpdateMethod]⟩)
  have hv : ∀ z ∈ c.board.nl.bases, ∀ k ∈ z.model.outPins (c.clip z.id), z.model.pin k = some n →
      z.model.kind = .input ∧ z.id ∈ c.beforeAllClk ∧ (c.clip z.id).outputA = (c.clip y.id).outputA := by
    intro z hz k hkz hzn
    rw [hann.board] at hz
    rw [hann.outPins z hz] at hkz
    obtain ⟨hid, -⟩ := hd.single z hz y hy k hkz 0 (houts ▸ mem_cons_self) (by rw [hzn]; exact Option.some_ne_none _)
      (hzn.trans hpin.symm)
    obtain rfl := inj_on_of_nodup_map hd.wired.ids hz hy hid
    exact ⟨hk, hbefore, rfl⟩
  have hstart := state_atLoop hw hdigital hv (hann.board.symm ▸ hy) (k := 0) (by
    rw [hann.outPins y hy, houts]
    exact mem_cons_self) hpin
  rw [digitalClk_eq_settleLoop (hfresh.afterAllClk_eq hsetup)]
  exact (Looping.call_rule hw (P := fun c' => c'.state n = (c.clip y.id).outputA) (fun h => h)
    (fun h _ hstate => h.state_inputs hw hdigital hv _ _ hstate) iterBudget (looping_atLoop hw) hstart).2

/-- A comparator that has not been called: its nodes are unknown and do not wait. -/
structure Untouched (c₀ : Circult) (x : ModelBase) (c : Circult) : Prop extends Announcing c₀ c where
  last : (c.clip x.id).last 0 = .X
  pins : ∀ n, some n ∈ x.model.pins → n ∉ c.tables ∧ c.state n = .X

section Untouched

variable (hd : c₀.PurelyDigital) {x : ModelBase} (hx : x ∈ c₀.board.nl.bases) (hfed : FedByInputs c₀ x)
  {e : Circult} (he : Announcing c₀ e) (hunset : ¬ SetOnce c₀ x [e])

include hd hx hfed he hunset

theorem Untouched.updateModel (ht : Ticking e c) (h : Untouched c₀ x c) (method : DigitalUpdateMethod) {id : Nat}
    (hid : x.id ≠ id) : Untouched c₀ x (c.updateModel method id) := by
  obtain ⟨hann, hchanged⟩ := h.toAnnouncing.updateModel hd method id
  have hout : ∀ n, some n ∈ x.model.pins → n ∉ (c.updateModel method id).tables := by
    intro n hn hmem
    rcases tables_updateModel hmem with hmem | ⟨y, hy, rfl, hnews, -, k, hk, hpin⟩
    · exact (h.pins n hn).1 hmem
    · rw [h.board] at hy
      rw [h.outPins y hy] at hk
      obtain ⟨j, hj⟩ := exists_pin hn
      by_cases hjout : j ∈ x.model.outPins (c₀.clip x.id)
      · exact hid (hd.single x hx y hy j hjout k hk (by rw [hj]; exact Option.some_ne_none _) (hj.trans hpin.symm)).1
      · -- an INPUT that shows X and is set to X has nothing new
        have hkind := hfed j n hj hjout y hy k hk hpin
        simp only [Model.outPins, hkind, mem_singleton] at hk
        subst hk
        have hlast := h.cache y hy 0 n (by rw [hkind]; rfl) hpin
        rw [(h.pins n hn).2] at hlast
        have hset : (c.clip y.id).outputA = .X := by
          rw [ht.inputs y (he.board.symm ▸ hy) hkind]
          by_contra hne
          exact hunset ⟨e, mem_cons_self, y, hy, hkind, n, hpin, hn, hne⟩
        simp [Model.hasNews, hkind, ← hlast, hset] at hnews
  refine ⟨hann, by rw [clip_updateModel hid, h.last], fun n hn => ⟨hout n hn, ?_⟩⟩
  rw [(hchanged n).resolve_right (hout n hn), (h.pins n hn).2]

theorem Untouched.foldl (method : DigitalUpdateMethod) (ids : List Nat) (hids : x.id ∉ ids) : ∀ {c : Circult},
    Ticking e c → Untouched c₀ x c → Untouched c₀ x (ids.foldl (Circult.updateModel method) c) := by
  induction ids with
  | nil => exact fun _ h => h
  | cons id ids ih =>
    intro c ht h
    rw [mem_cons, not_or] at hids
    exact ih hids.2 (ht.updateModel (he.board.symm ▸ hd.wired) method id)
      (h.updateModel hd hx hfed he hunset ht method hids.1)

theorem Untouched.digitalClk (hsetup : SameSetup c₀ e) (hfresh : c₀.Fresh)
    (hmethod : x.model.kind.digitalUpdateMethod = .updateTable) (h : Untouched c₀ x e) :
    Untouched c₀ x e.digitalClk := by
  have hw : e.board.Wired := he.board.symm ▸ hd.wired
  have hbefore := Untouched.foldl hd hx hfed he hunset .beforeAllClk e.beforeAllClk (by
    rw [hsetup.beforeAllClk, hfresh.beforeAllClk]
    exact not_mem_modelsWith hd hx (by rw [hmethod]; decide)) (ticking_clear e)
    ⟨⟨h.board, h.outPins, h.cache, h.delay⟩, h.last, h.pins⟩
  have hstart : e.atLoop = { e with digitalOut := [] }.beforeDigitalClk := by
    have hsame : SameSetup { e with digitalOut := [] } { e with digitalOut := [] }.beforeDigitalClk :=
      .foldl _ (sameSetup_updateModel _) _ _
    have hnone : e.alwaysTables = [] := hsetup.alwaysTables.trans hfresh.alwaysTables
    rw [atLoop, seedTables, hsame.alwaysTables, hnone, foldl_nil]
  rw [digitalClk_eq_settleLoop (hfresh.afterAllClk_eq hsetup)]
  refine (Looping.settle_rule hw (P := Untouched c₀ x) (fun {c'} {m} hl hm hu => ?_) iterBudget (looping_atLoop hw)
    (hstart.symm ▸ hbefore)).2
  rw [hl.processNode_eq]
  refine Untouched.foldl hd hx hfed he hunset .updateTable _ (fun hmem => ?_) (hl.take m).ticking
    ⟨hu.toAnnouncing.take m, hu.last, fun n hn => ⟨fun hin => (hu.pins n hn).1 (mem_filter.mp hin).1, (hu.pins n hn).2⟩⟩
  rw [he.board] at hmem
  exact (hu.pins m ((mem_ids_pinOrder hd hx m).mp hmem)).1 hm

end Untouched

section Watch

variable {x : ModelBase} {ins : List NodeId} {o : NodeId} {answer : (NodeId → LogicT) → LogicT} {es : List Circult}

theorem TickRun.setup (hrun : TickRun c₀ es c) : SameSetup c₀ c := by
  induction hrun with
  | start => exact .refl c₀
  | setInput _ id v ih => exact ih.trans (sameSetup_setInput _ id v)
  | @digitalClk es c _ ih => exact ih.trans (sameSetup_digitalClk c)

theorem TickRun.untouched (hd : c₀.PurelyDigital) (hfresh : c₀.Fresh) (hx : x ∈ c₀.board.nl.bases)
    (hmethod : x.model.kind.digitalUpdateMethod = .updateTable) (hfed : FedByInputs c₀ x) (hrun : TickRun c₀ es c)
    (hunset : ¬ SetOnce c₀ x es) : Untouched c₀ x c := by
  induction hrun with
  | start =>
    refine ⟨hfresh.announcing hd, hfresh.last x.id 0, fun n hn => ⟨by rw [hfresh.tables]; exact not_mem_nil, ?_⟩⟩
    exact hfresh.state n (ne_nil_of_mem (hd.wired.mem_pinOrder hx (exists_pin hn).choose_spec))
  | setInput _ id v ih =>
    have h := ih hunset
    refine ⟨h.toAnnouncing.setInput hd id v, by rw [last_setInput, h.last], ?_⟩
    rw [state_setInput, tables_setInput]
    exact h.pins
  | @digitalClk es c hrun ih =>
    have h := ih fun ⟨e, he, hset⟩ => hunset ⟨e, mem_append_left _ he, hset⟩
    exact h.digitalClk hd hx hfed h.toAnnouncing (fun ⟨e, he, hset⟩ => hunset ⟨e, mem_append_right _ he, hset⟩)
      hrun.setup hfresh hmethod

/-- A comparator after a tick that empties the table. -/
theorem TickRun.answer_iff (hd : c₀.PurelyDigital) (hfresh : c₀.Fresh) (hx : x ∈ c₀.board.nl.bases)
    (hcmp : x.model.Compares ins o answer) (hrun : TickRun c₀ es c) (hends : c.digitalClk.tables = []) :
    (KnownOnce x (es ++ [c]) → c.digitalClk.state o = answer c.digitalClk.state) ∧
      (FedByInputs c₀ x → (c.digitalClk.state o = answer c.digitalClk.state ↔ SetOnce c₀ x (es ++ [c]))) := by
  have hknown : KnownOnce x (es ++ [c]) → c.digitalClk.state o = answer c.digitalClk.state := fun h =>
    (hrun.digitalClk.watched hd hfresh hx hcmp).answers h hends
  refine ⟨hknown, fun hfed => ⟨fun hans => ?_, fun ⟨e, he, y, hy, hk, n, hpin, hn, hset⟩ => hknown ⟨e, he, n, hn, ?_⟩⟩⟩
  · by_contra hunset
    have h := hrun.digitalClk.untouched hd hfresh hx hcmp.method hfed hunset
    obtain ⟨k, -, ho⟩ := hcmp.output (c₀.clip x.id)
    exact hcmp.definite _ (hans.symm.trans (h.pins o (mem_pins_of_pin ho)).2)
  · obtain ⟨fs, hfs⟩ := hrun.digitalClk.exists_run he
    rwa [state_digitalClk_input hd (hfs.watched hd hfresh hx hcmp).toAnnouncing hfs.setup hfresh hy hk hpin]

end Watch

/-- After a tick that empties the table, the outputs of `CASE_EQ` and `IS_UNKNOWN` are what
their inputs say once a tick has left a node of the model known; and where only `INPUT` models
feed the model, exactly when one of them has not been X at some tick. -/
theorem compare_iff_known (hd : c₀.PurelyDigital) (hfresh : c₀.Fresh) {es : List Circult} (hrun : TickRun c₀ es c)
    (hends : c.digitalClk.tables = []) :
    (∀ x ∈ c₀.board.nl.bases, ∀ a b o, x.model.kind = .caseEq → x.model.pin 0 = some a → x.model.pin 1 = some b →
      x.model.pin 2 = some o →
        (KnownOnce x (es ++ [c]) →
          c.digitalClk.state o = .ofBool (decide (c.digitalClk.state a = c.digitalClk.state b))) ∧
        (FedByInputs c₀ x →
          (c.digitalClk.state o = .ofBool (decide (c.digitalClk.state a = c.digitalClk.state b)) ↔
            SetOnce c₀ x (es ++ [c])))) ∧
      ∀ x ∈ c₀.board.nl.bases, ∀ i o, x.model.kind = .isUnknown → x.model.pin 0 = some i → x.model.pin 1 = some o →
        (KnownOnce x (es ++ [c]) → c.digitalClk.state o = .ofBool (c.digitalClk.state i).isUnknown) ∧
        (FedByInputs c₀ x →
          (c.digitalClk.state o = .ofBool (c.digitalClk.state i).isUnknown ↔ SetOnce c₀ x (es ++ [c]))) := by
  constructor
  · intro x hx a b o hk ha hb ho
    exact hrun.answer_iff hd hfresh hx (hd.compares_caseEq hx hk ha hb ho) hends
  · intro x hx i o hk hi ho
    exact hrun.answer_iff hd hfresh hx (hd.compares_isUnknown hx hk hi ho) hends

def comparatorNetlist : Netlist := .ofModels 3 [.port .input [0] "a" [], .port .input [1] "b" [],
  .on .caseEq [0, 1, 2]]

def comparatorCircuit : Circult where
  board := .inOrder comparatorNetlist
  analyzeType := .TR
  state := fun _ => .X
  voltage := fun _ => 0.0
  clip := fun _ => { outputA := .X }
  beforeAllClk := [0, 1]

theorem comparatorCircuit_fresh : comparatorCircuit.Fresh where
  state := fun _ _ => rfl
  last := fun _ _ => rfl
  tables := rfl
  alwaysTables := rfl
  beforeAllClk := by decide
  afterAllClk := by decide

theorem comparatorCircuit_purelyDigital : comparatorCircuit.PurelyDigital where
  wired := Board.wired_inOrder (by decide)
  digital := Board.isAnalog_eq_false (by decide) rfl
  single := by decide
  acyclic := ⟨fun n => if n = .node 2 then 1 else 0, by decide⟩

theorem fedByInputs_comparator : FedByInputs comparatorCircuit
    ⟨2, .on .caseEq [0, 1, 2]⟩ := by
  intro j n hj hout y hy k hk hpin
  have hlt := lt_length_of_pin hj
  have hall : ∀ j < 3, j ∉ [2] → ∀ y ∈ comparatorCircuit.board.nl.bases, ∀ k ∈ y.model.outPins {},
      y.model.pin k = [some (NodeId.node 0), some (.node 1), some (.node 2)].getD j none → y.model.kind = .input := by
    decide
  refine hall j hlt hout y hy k hk (hpin.trans ?_)
  rw [← hj]
  match j, hlt with
  | 0, _ => rfl
  | 1, _ => rfl
  | 2, _ => rfl

theorem compare_iff_known_inputHigh :
    (comparatorCircuit.setInput 0 .H).digitalClk.tables = [] ∧
      (comparatorCircuit.setInput 0 .H).digitalClk.state (.node 2) = .ofBool (decide
        ((comparatorCircuit.setInput 0 .H).digitalClk.state (.node 0) =
          (comparatorCircuit.setInput 0 .H).digitalClk.state (.node 1))) :=
  ⟨by decide, (((compare_iff_known comparatorCircuit_purelyDigital comparatorCircuit_fresh (.setInput .start 0 .H)
    (by decide)).1 ⟨2, .on .caseEq [0, 1, 2]⟩ (by decide) (.node 0) (.node 1)
      (.node 2) rfl rfl rfl rfl).2 fedByInputs_comparator).mpr
        ⟨_, mem_cons_self, ⟨0, .port .input [0] "a" []⟩, by decide, rfl, .node 0, rfl, by decide, by decide⟩⟩

/-- Two inputs that stay indeterminate have the same state, but `CASE_EQ` has not been called to
say so. -/
theorem not_compare_of_indeterminate : comparatorCircuit.PurelyDigital ∧ comparatorCircuit.Fresh ∧
    TickRun comparatorCircuit [] comparatorCircuit ∧ comparatorCircuit.digitalClk.tables = [] ∧
      comparatorCircuit.digitalClk.state (.node 0) = comparatorCircuit.digitalClk.state (.node 1) ∧
        comparatorCircuit.digitalClk.state (.node 2) = .X :=
  ⟨comparatorCircuit_purelyDigital, comparatorCircuit_fresh, .start, by decide, by decide, by decide⟩

end Circult

end PhyEngine
