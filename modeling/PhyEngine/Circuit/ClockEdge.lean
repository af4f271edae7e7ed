import PhyEngine.Circuit.SingleDrives

/-!
# Flip-flops at a clock edge

`DFF` models on one clock node are called one after the other, and a `DFF` writes `q` at once.
Whether all of them capture what their `d` nodes held before the edge depends on the order of the
pins.
-/

namespace PhyEngine

open List
open Option (ne_none_iff_exists' some)

variable {m : Model} {d q : NodeId}

theorem Model.outPins_eq (hk : m.kind ≠ .verilogModule) (clip clip' : Clip) :
    m.outPins clip = m.outPins clip' := by
  cases hkind : m.kind <;> simp only [Model.outPins, hkind]
  exact absurd hkind hk

namespace Board

def FlipFlop (b : Board) (clk : NodeId) (id : Nat) (d q : NodeId) : Prop :=
  ∃ m, b.modelAt id = some m ∧ m.kind = .dff ∧ m.pin 0 = some d ∧ m.pin 1 = some clk ∧ m.pin 2 = some q

def DrivesNode (b : Board) (id : Nat) (n : NodeId) : Prop :=
  ∃ m, b.modelAt id = some m ∧ ∃ k ∈ m.outPins {}, m.pin k = some n

/-- Netlists of combinational models and flip-flops on digital nodes with single drivers. All
flip-flops share the clock node, which none of them drives. -/
structure ClockNetlist (b : Board) (clk : NodeId) : Prop extends Wired b where
  digital : ∀ n, b.isAnalog n = false
  kinds : ∀ id m, b.modelAt id = some m → (∀ a, (m.kind.gateFn a).isSome) ∨ m.kind = .dff
  single : ∀ id id' n, b.DrivesNode id n → b.DrivesNode id' n → id = id'
  clocked : ∀ id m, b.modelAt id = some m → m.kind = .dff → ∀ n, m.pin 1 = some n → n = clk
  source : ∀ id m, b.modelAt id = some m → m.kind = .dff → ¬ b.DrivesNode id clk

variable {b : Board} {clk : NodeId}

variable {id : Nat}

theorem ClockNetlist.not_verilog (h : b.ClockNetlist clk) (hm : b.modelAt id = some m) :
    m.kind ≠ .verilogModule := by
  intro hk
  rcases h.kinds id m hm with hgate | hdff
  · have := hgate .X
    rw [hk] at this
    exact absurd this (by decide)
  · rw [hk] at hdff
    exact absurd hdff (by decide)

theorem FlipFlop.drives (h : b.FlipFlop clk id d q) : b.DrivesNode id q := by
  obtain ⟨m, hm, hk, -, -, hq⟩ := h
  exact ⟨m, hm, 2, by simp [Model.outPins, hk], hq⟩

end Board

theorem nodeOutput_clip (view : NodeId → NodeView) (clip : Clip) (o : NodeId) (v : LogicT) :
    (nodeOutput view clip o v).clip = clip := by
  simp only [nodeOutput]
  split
  · rfl
  · rfl

theorem seeClk_outputA (clip : Clip) (clk : LogicT) : (clip.seeClk clk).outputA = clip.outputA := by
  simp only [Clip.seeClk]
  split
  · rfl
  · rfl

namespace Circult

variable {n : NodeId} {method : DigitalUpdateMethod} {i k : Nat} {g : GateFn}

variable {v : LogicT}

theorem state_foldl_store_of_value (ws : List Store) : ∀ {c : Circult},
    (∀ w ∈ ws, w.node = n → (∃ e, w = .write n v e) ∨ w = .update n v) → c.state n = v →
      (ws.foldl store c).state n = v := by
  induction ws with
  | nil => exact fun _ hn => hn
  | cons w ws ih =>
    intro c h hn
    refine ih (fun w' hw' => h w' (mem_cons_of_mem _ hw')) ?_
    by_cases hw : w.node = n
    · rcases h w mem_cons_self hw with ⟨e, rfl⟩ | rfl
      · simp only [store]
        split
        · exact Function.update_self _ _ _
        · exact Function.update_self _ _ _
      · simp only [store, hn, if_true]
    · rw [state_store_of_ne hw, hn]

variable {c : Circult} {clk : NodeId} {id : Nat}

theorem state_updateModel (hb : c.board.ClockNetlist clk) (h : ¬ c.board.DrivesNode id n) :
    (c.updateModel method id).state n = c.state n := by
  rcases updateModel_cases method c id with hsame | ⟨x, hx, rfl, hcall⟩
  · rw [hsame]
  · rw [hcall]
    have hm := Board.modelAt_of_mem hb.toWired hx
    refine state_foldl_store_of_ne _ fun w hw hn => h ?_
    obtain ⟨k, hk, hpin, -⟩ := (drives_updateDigitalClk method).stores w hw
    rw [Model.outPins_eq (hb.not_verilog hm) _ {}] at hk
    exact ⟨x.model, hm, k, hk, by rw [hpin, hn]⟩

theorem flipFlop_updateModel (method : DigitalUpdateMethod) (hb : c.board.ClockNetlist clk)
    (hff : c.board.FlipFlop clk id d q) (hclk : c.state clk = .H)
    (hv : v = if (c.clip id).lastClk = .L then (c.state d).normalizeZToX else (c.clip id).q) :
    (c.updateModel method id).state q = v ∧ ((c.updateModel method id).clip id).q = v ∧
      ((c.updateModel method id).clip id).lastClk = .H := by
  obtain ⟨m, hm, hk, hd, hc, hq⟩ := hff
  have hview : ∀ n, (c.view n).analog = false := hb.digital
  have hread (clip : Clip) (n : NodeId) : readDnLogic c.view clip n = (c.state n).normalizeZToX := by
    rw [readDnLogic, readDn_digital hview]
    rfl
  have hdev : m.kind.deviceType = .digital := by rw [hk]; rfl
  have hcall : updateDigitalClk c.view c.trDuration method m (c.clip id) =
      ⟨{ c.clip id with q := v, lastClk := .H }, [.update q v], none⟩ := by
    simp only [updateDigitalClk, hk, updateDff, hd, hc, hq, hread, hclk, nodeOutput, hview]
    have hedge : (if (c.clip id).risingEdge LogicT.H.normalizeZToX = true then (c.state d).normalizeZToX
        else (c.clip id).q) = v := by
      rw [hv]
      simp [Clip.risingEdge, LogicT.normalizeZToX]
    rw [hedge]
    simp [Clip.seeClk, LogicT.normalizeZToX]
  simp only [updateModel, hm, hdev, if_true, hcall, foldl_cons, foldl_nil, Function.update_self]
  refine ⟨?_, trivial, trivial⟩
  simp only [store]
  split
  · rename_i h
    exact h
  · exact Function.update_self _ _ _

theorem outputs_updateModel (hb : c.board.ClockNetlist clk) :
    (c.updateModel method id).outputs = c.outputs := by
  rcases updateModel_cases method c id with hsame | ⟨x, hx, rfl, hcall⟩
  · rw [hsame]
  · rw [hcall]
    refine afterCall_outputs ?_
    have hview : ∀ n, (c.view n).analog = false := hb.digital
    rcases hb.kinds _ _ (Board.modelAt_of_mem hb.toWired hx) with hgate | hdff
    · obtain ⟨g, hg⟩ := Option.isSome_iff_exists.mp (hgate (c.clip x.id).outputA)
      by_cases hpins : x.model.pinNodes 0 g.arity = none ∨ x.model.pinNodes g.arity g.count = none
      · rw [updateDigitalClk_unconnected method hg hpins]
      · push Not at hpins
        obtain ⟨ins, hin⟩ := ne_none_iff_exists'.mp hpins.1
        obtain ⟨outs, hout⟩ := ne_none_iff_exists'.mp hpins.2
        exact (updateDigitalClk_spec hview method hg hin hout).outputA
    · simp only [updateDigitalClk, hdff, updateDff]
      split
      · rw [nodeOutput_clip, seeClk_outputA]
      · rfl

/-- The node keeps its level of `e` in the calls of the listed models, the last one first:
those of them that drive it are gates that give this level again and read nodes that have
kept theirs so far. -/
def Kept (e : Circult) : List Nat → NodeId → Prop
  | [], _ => True
  | i :: pre, n => Kept e pre n ∧ (e.board.DrivesNode i n →
      (∀ m, e.board.modelAt i = some m → m.kind ≠ .dff) ∧
      ∀ g ins outs, e.board.gateAt e.outputs i = some (g, ins, outs) →
        (∀ k : Nat, outs[k]? = some n → (g.fn (ins.map e.state))[k]? = some (e.state n)) ∧
        ∀ m ∈ ins, Kept e pre m)

variable {e : Circult} {pre : List Nat}

theorem kept_of_not_drives (h : ∀ i ∈ pre, ¬ e.board.DrivesNode i n) : e.Kept pre n := by
  induction pre with
  | nil => exact trivial
  | cons i pre ih =>
    exact ⟨ih fun j hj => h j (mem_cons_of_mem _ hj), fun hdrives => absurd hdrives (h i mem_cons_self)⟩

theorem Kept.updateModel (hb : e.board.ClockNetlist clk) (hboard : c.board = e.board)
    (houtputs : c.outputs = e.outputs) (h : ∀ m, e.Kept pre m → c.state m = e.state m)
    (hn : e.Kept (id :: pre) n) : (c.updateModel method id).state n = e.state n := by
  obtain ⟨hbefore, hdriven⟩ := hn
  have hc : c.board.ClockNetlist clk := hboard ▸ hb
  by_cases hdrives : e.board.DrivesNode id n
  · rcases updateModel_cases method c id with hsame | ⟨x, hx, rfl, hcall⟩
    · rw [hsame, h n hbefore]
    · rw [hcall]
      obtain ⟨hgate, hvalue⟩ := hdriven hdrives
      have hm := Board.modelAt_of_mem hc.toWired hx
      have hm' : e.board.modelAt x.id = some x.model := hboard ▸ hm
      have hview : ∀ n, (c.view n).analog = false := hc.digital
      obtain ⟨g, hg⟩ := Option.isSome_iff_exists.mp
        (((hb.kinds _ _ hm').resolve_right (hgate _ hm')) (c.clip x.id).outputA)
      by_cases hpins : x.model.pinNodes 0 g.arity = none ∨ x.model.pinNodes g.arity g.count = none
      · rw [updateDigitalClk_unconnected method hg hpins]
        exact h n hbefore
      · push Not at hpins
        obtain ⟨ins, hin⟩ := ne_none_iff_exists'.mp hpins.1
        obtain ⟨outs, hout⟩ := ne_none_iff_exists'.mp hpins.2
        obtain ⟨hvalue, hins⟩ := hvalue g ins outs (by
          rw [← hboard, ← houtputs]
          exact Board.gateAt_eq_some.mpr ⟨_, hm, hg, hin, hout⟩)
        have hspec : CallSpec g ins outs c.view (c.clip x.id)
            (updateDigitalClk c.view c.trDuration method x.model (c.clip x.id)) :=
          updateDigitalClk_spec hview method hg hin hout
        refine state_foldl_store_of_value _ (fun w hw hwn => ?_) (h n hbefore)
        rw [hspec.stores] at hw
        obtain ⟨ok, hok, hstore⟩ := mem_filterMap.mp hw
        obtain ⟨ho, hv⟩ := getElem?_zip_eq_some.mp (mem_zipIdx_iff_getElem?.mp hok)
        have hlevel (hnode : ok.1.1 = n) : ok.1.2 = e.state n := by
          have hold := hvalue ok.2 (hnode ▸ ho)
          have hread : ins.map (fun m => (c.view m).state) = ins.map e.state :=
            map_congr_left fun m hm => h m (hins m hm)
          rw [hread] at hv
          exact some.inj (hv.symm.trans hold)
        rcases g.rule.cases with hr | hr | hr <;> simp only [ruleStore, hr] at hstore
        · cases hstore
          have hnode : ok.1.1 = n := hwn
          exact .inl ⟨_, by rw [hnode, hlevel hnode]⟩
        · split at hstore
          · cases hstore
            have hnode : ok.1.1 = n := hwn
            exact .inl ⟨_, by rw [hnode, hlevel hnode]⟩
          · exact absurd hstore (by simp)
        · cases hstore
          have hnode : ok.1.1 = n := hwn
          exact .inr (by rw [hnode, hlevel hnode])
  · rw [state_updateModel hc (hboard ▸ hdrives), h n hbefore]

/-- The models the round of the clock node calls, in order. -/
def visits (c : Circult) (clk : NodeId) : List Nat := (c.board.pinOrder clk).map (·.id)

/-- The clock has risen, and no flip-flop has seen it high. -/
structure Edge (e : Circult) (clk : NodeId) : Prop where
  netlist : e.board.ClockNetlist clk
  high : e.state clk = .H
  lastClk : ∀ id d q, e.board.FlipFlop clk id d q → (e.clip id).lastClk = .L

/-- The clock node has kept its level whenever one of the called models is a flip-flop. -/
def ClockKept (e : Circult) (clk : NodeId) (ids : List Nat) : Prop :=
  ∀ id d q, e.board.FlipFlop clk id d q → ∀ pre post, ids = pre ++ id :: post → e.Kept pre.reverse clk

/-- What holds from the edge on after the models `pre` have been called. -/
structure Round (e : Circult) (clk : NodeId) (pre : List Nat) (c : Circult) : Prop where
  board : c.board = e.board
  outputs : c.outputs = e.outputs
  kept : ∀ n, e.Kept pre.reverse n → c.state n = e.state n
  fresh : ∀ id, id ∉ pre → c.clip id = e.clip id
  seen : ∀ id d q, e.board.FlipFlop clk id d q → id ∈ pre →
    (c.clip id).lastClk = .H ∧ c.state q = (c.clip id).q

theorem Round.start (ts : List NodeId) : Round e clk [] { e with tables := ts } where
  board := rfl
  outputs := rfl
  kept := fun _ _ => rfl
  fresh := fun _ _ => rfl
  seen := fun _ _ _ _ hid => absurd hid not_mem_nil

section

variable (he : e.Edge clk)

include he

/-- A flip-flop that has seen the clock high keeps what it captured. -/
theorem Round.keeps (h : Round e clk pre c) (hff : e.board.FlipFlop clk i d q) (hi : i ∈ pre) {id : Nat}
    (hclk : ∀ d q, e.board.FlipFlop clk id d q → e.Kept pre.reverse clk) :
    (c.updateModel .updateTable id).state q = c.state q ∧
      ((c.updateModel .updateTable id).clip i).q = (c.clip i).q ∧
      ((c.updateModel .updateTable id).clip i).lastClk = .H := by
  have hb : c.board.ClockNetlist clk := h.board ▸ he.netlist
  have hff' : c.board.FlipFlop clk i d q := h.board ▸ hff
  obtain ⟨hlast, hq⟩ := h.seen i d q hff hi
  by_cases hid : id = i
  · subst hid
    have hcall := flipFlop_updateModel .updateTable hb hff' ((h.kept clk (hclk d q hff)).trans he.high)
      (show (c.clip id).q = if (c.clip id).lastClk = .L then (c.state d).normalizeZToX else (c.clip id).q by
        simp [hlast])
    exact ⟨hcall.1.trans hq.symm, hcall.2⟩
  · rw [clip_updateModel (Ne.symm hid)]
    exact ⟨state_updateModel hb fun hdrives => hid (hb.single id i q hdrives hff'.drives), rfl, hlast⟩

theorem Round.step (h : Round e clk pre c) {id : Nat}
    (hclk : ∀ d q, e.board.FlipFlop clk id d q → e.Kept pre.reverse clk) :
    Round e clk (pre ++ [id]) (c.updateModel .updateTable id) := by
  have hb : c.board.ClockNetlist clk := h.board ▸ he.netlist
  refine ⟨(sameSetup_updateModel _ c id).board.trans h.board, (outputs_updateModel hb).trans h.outputs,
    fun n hn => ?_, ?_, ?_⟩
  · rw [reverse_append] at hn
    exact hn.updateModel he.netlist h.board h.outputs h.kept
  · intro i hi
    simp only [mem_append, mem_singleton, not_or] at hi
    rw [clip_updateModel hi.2, h.fresh i hi.1]
  · intro i d q hff hi
    by_cases hpre : i ∈ pre
    · obtain ⟨hstate, hq, hlast⟩ := h.keeps he hff hpre hclk
      exact ⟨hlast, by rw [hstate, hq, (h.seen i d q hff hpre).2]⟩
    · obtain rfl : i = id := by
        simpa [hpre] using hi
      have hcall := flipFlop_updateModel .updateTable hb (h.board ▸ hff)
        ((h.kept clk (hclk d q hff)).trans he.high) rfl
      exact ⟨hcall.2.2, hcall.1.trans hcall.2.1.symm⟩

theorem Round.calls (ids : List Nat) : ∀ {pre : List Nat} {c : Circult}, Round e clk pre c →
    e.ClockKept clk (pre ++ ids) → Round e clk (pre ++ ids) (ids.foldl (updateModel .updateTable) c) := by
  induction ids with
  | nil =>
    intro pre c h _
    rw [append_nil]
    exact h
  | cons id ids ih =>
    intro pre c h hclk
    have hrest := ih (h.step he fun d q hff => hclk id d q hff pre ids rfl) (by simpa using hclk)
    rwa [append_assoc] at hrest

theorem Round.keeps_calls (hff : e.board.FlipFlop clk i d q) (ids : List Nat) : ∀ {pre : List Nat} {c : Circult},
    Round e clk pre c → i ∈ pre → e.ClockKept clk (pre ++ ids) →
      (ids.foldl (updateModel .updateTable) c).state q = c.state q := by
  induction ids with
  | nil => exact fun _ _ _ => rfl
  | cons id ids ih =>
    intro pre c h hi hclk
    have hid : ∀ d q, e.board.FlipFlop clk id d q → e.Kept pre.reverse clk := fun d q hff =>
      hclk id d q hff pre ids rfl
    rw [foldl_cons, ih (h.step he hid) (mem_append_left _ hi) (by simpa using hclk)]
    exact (h.keeps he hff hi hid).1

end

/-- The circuit in the round of the clock node after the models `pre` have been called. -/
def afterVisits (e : Circult) (clk : NodeId) (pre : List Nat) : Circult :=
  pre.foldl (updateModel .updateTable) { e with tables := e.tables.filter fun m => m ≠ clk }

theorem processNode_eq_afterVisits (e : Circult) (clk : NodeId) :
    e.processNode clk = e.afterVisits clk (e.visits clk) := processNode_eq_foldl e clk

theorem ClockKept.start {pre post : List Nat} (h : e.ClockKept clk (pre ++ post)) : e.ClockKept clk pre := by
  rintro id d q hff p s rfl
  exact h id d q hff p (s ++ post) (by simp)

section

variable (he : e.Edge clk) (hclk : e.ClockKept clk (e.visits clk))
include he hclk

variable {post : List Nat}

theorem round_afterVisits (hsplit : e.visits clk = pre ++ post) :
    Round e clk pre (e.afterVisits clk pre) :=
  (Round.start _).calls he pre (ClockKept.start (hsplit ▸ hclk))

theorem state_afterVisits (hsplit : e.visits clk = pre ++ post)
    (hff : e.board.FlipFlop clk i d q) (hi : i ∈ pre) :
    (e.processNode clk).state q = (e.afterVisits clk pre).state q := by
  rw [processNode_eq_afterVisits, hsplit, afterVisits, foldl_append]
  exact Round.keeps_calls he hff post (round_afterVisits he hclk hsplit) hi (hsplit ▸ hclk)

theorem state_capture {id : Nat} (hff : e.board.FlipFlop clk id d q)
    (hsplit : e.visits clk = pre ++ id :: post) (hid : id ∉ pre) :
    (e.processNode clk).state q = ((e.afterVisits clk pre).state d).normalizeZToX := by
  have hround := round_afterVisits he hclk hsplit
  have hb : (e.afterVisits clk pre).board.ClockNetlist clk := hround.board ▸ he.netlist
  have hlast : ((e.afterVisits clk pre).clip id).lastClk = .L := by
    rw [hround.fresh id hid]
    exact he.lastClk id d q hff
  have hsplit' : e.visits clk = (pre ++ [id]) ++ post := by simpa using hsplit
  rw [state_afterVisits he hclk hsplit' hff (by simp : id ∈ pre ++ [id]), afterVisits, foldl_append]
  exact (flipFlop_updateModel .updateTable hb (hround.board ▸ hff)
    ((hround.kept clk (hclk id d q hff pre post hsplit)).trans he.high) (by simp [hlast])).1

omit hclk in
theorem mem_visits {id : Nat} (hff : e.board.FlipFlop clk id d q) : id ∈ e.visits clk := by
  obtain ⟨m, hm, -, -, hc, -⟩ := hff
  obtain ⟨x, hx, rfl, rfl⟩ := Board.mem_of_modelAt hm
  exact mem_map.mpr ⟨_, he.netlist.toWired.mem_pinOrder hx hc, rfl⟩

end

/-- In `c` every `q` node holds what its `d` node was in `old`, before the edge. -/
def Captures (e : Circult) (clk : NodeId) (old : NodeId → LogicT) (c : Circult) : Prop :=
  ∀ id d q, e.board.FlipFlop clk id d q → c.state q = (old d).normalizeZToX

/-- The models that are called in the round of the clock node before `j` is. -/
def visitedBefore (e : Circult) (clk : NodeId) (j : Nat) : List Nat :=
  (e.visits clk).takeWhile fun i => decide (i ≠ j)

theorem visitedBefore_eq {post : List Nat} {j : Nat} (hsplit : e.visits clk = pre ++ j :: post) (hj : j ∉ pre) :
    e.visitedBefore clk j = pre := by
  have hpre : ∀ i ∈ pre, decide (i ≠ j) = true := fun i hi => decide_eq_true (ne_of_mem_of_not_mem hi hj)
  rw [visitedBefore, hsplit, takeWhile_append_of_pos hpre, takeWhile_cons_of_neg (by simp), append_nil]

/-- A flip-flop reads the output of one that is called before it, or a node that has kept its
level so far. -/
def ReadsKept (e : Circult) (clk : NodeId) : Prop :=
  ∀ id d q, e.board.FlipFlop clk id d q → (∃ i ∈ e.visitedBefore clk id, ∃ d', e.board.FlipFlop clk i d' d) ∨
    e.Kept (e.visitedBefore clk id).reverse d

/-- Where a flip-flop reads the output of one that is called before it, the `d` nodes of both
held the same level before the edge. Any other `d` node holds its level of then. -/
def Aligned (e : Circult) (clk : NodeId) (old : NodeId → LogicT) : Prop :=
  ∀ id d q, e.board.FlipFlop clk id d q →
    (∀ i ∈ e.visitedBefore clk id, ∀ d', e.board.FlipFlop clk i d' d →
      (old d').normalizeZToX = (old d).normalizeZToX) ∧
    ((∀ i ∈ e.visitedBefore clk id, ∀ d', ¬ e.board.FlipFlop clk i d' d) →
      (e.state d).normalizeZToX = (old d).normalizeZToX)

theorem normalizeZToX_idem (v : LogicT) : v.normalizeZToX.normalizeZToX = v.normalizeZToX := by
  cases v <;> rfl

section

variable (he : e.Edge clk) (hclk : e.ClockKept clk (e.visits clk)) (hreads : e.ReadsKept clk)
  {old : NodeId → LogicT}

include he hclk hreads

theorem state_read {id : Nat} (hff : e.board.FlipFlop clk id d q) {post : List Nat}
    (hsplit : e.visits clk = pre ++ id :: post) (hid : id ∉ pre)
    (hnone : ∀ i ∈ pre, ∀ d', ¬ e.board.FlipFlop clk i d' d) : (e.afterVisits clk pre).state d = e.state d := by
  have hread := hreads id d q hff
  rw [visitedBefore_eq hsplit hid] at hread
  rcases hread with ⟨i, hi, d', hff'⟩ | hkept
  · exact absurd hff' (hnone i hi d')
  · exact (round_afterVisits he hclk hsplit).kept d hkept

theorem captures_of_aligned (h : e.Aligned clk old) : e.Captures clk old (e.processNode clk) := by
  -- the flip-flops are right in the order of their first calls
  suffices hsuff : ∀ (n : Nat) (pre post : List Nat), pre.length = n → ∀ id d q,
      e.board.FlipFlop clk id d q → e.visits clk = pre ++ id :: post → id ∉ pre →
      (e.processNode clk).state q = (old d).normalizeZToX by
    intro id d q hff
    obtain ⟨pre, post, hsplit, hid⟩ := eq_append_cons_of_mem (mem_visits he hff)
    exact hsuff _ pre post rfl id d q hff hsplit hid
  intro n
  induction n using Nat.strong_induction_on with
  | _ n ih =>
    intro pre post hlen id d q hff hsplit hid
    obtain ⟨hchain, hread⟩ := h id d q hff
    rw [visitedBefore_eq hsplit hid] at hchain hread
    rw [state_capture he hclk hff hsplit hid]
    by_cases hdriven : ∃ i ∈ pre, ∃ d', e.board.FlipFlop clk i d' d
    · obtain ⟨i, hi, d', hff'⟩ := hdriven
      have hsame := hchain i hi d' hff'
      obtain ⟨pre', post', rfl, hi'⟩ := eq_append_cons_of_mem hi
      have hcaptured := ih pre'.length (by rw [← hlen]; simp) pre' (post' ++ id :: post) rfl i d' d hff'
        (by simpa using hsplit) hi'
      rw [← state_afterVisits he hclk hsplit hff' hi, hcaptured, normalizeZToX_idem, hsame]
    · push Not at hdriven
      rw [state_read he hclk hreads hff hsplit hid hdriven]
      exact hread hdriven

theorem aligned_of_captures (h : e.Captures clk old (e.processNode clk)) : e.Aligned clk old := by
  intro id d q hff
  obtain ⟨pre, post, hsplit, hid⟩ := eq_append_cons_of_mem (mem_visits he hff)
  have hcapture := state_capture he hclk hff hsplit hid
  rw [h id d q hff] at hcapture
  rw [visitedBefore_eq hsplit hid]
  refine ⟨fun i hi d' hff' => ?_, fun hnone => ?_⟩
  · rw [← state_afterVisits he hclk hsplit hff' hi, h i d' d hff', normalizeZToX_idem] at hcapture
    exact hcapture.symm
  · rw [state_read he hclk hreads hff hsplit hid hnone] at hcapture
    exact hcapture.symm

end

/-- An `INPUT` set to `H` drives the clock. -/
def InputClock (e : Circult) (clk : NodeId) : Prop :=
  ∃ i m, e.board.modelAt i = some m ∧ m.kind = .input ∧ m.pin 0 = some clk ∧ e.outputs i = .H

/-- The node of an `INPUT` set to `H` keeps its level whatever is called. -/
theorem InputClock.kept (h : e.InputClock clk) (he : e.Edge clk) (pre : List Nat) : e.Kept pre clk := by
  obtain ⟨i, m, hm, hkind, hpin, hH⟩ := h
  have hdrives : e.board.DrivesNode i clk := ⟨m, hm, 0, by simp [Model.outPins, hkind], hpin⟩
  induction pre with
  | nil => exact trivial
  | cons j pre ih =>
    refine ⟨ih, fun hj => ⟨fun m' hm' hdff => he.netlist.source j m' hm' hdff hj, fun g ins outs hgate => ?_⟩⟩
    obtain rfl := he.netlist.single j i clk hj hdrives
    obtain ⟨m', hm', hg, hins, hout⟩ := Board.gateAt_eq_some.mp hgate
    obtain rfl : m = m' := some.inj (hm.symm.trans hm')
    rw [hkind, hH] at hg
    cases hg
    obtain rfl : ins = [] := length_eq_zero_iff.mp (length_pinNodes hins)
    refine ⟨fun k hk => ?_, fun n hn => absurd hn not_mem_nil⟩
    have hlt : k < outs.length := (List.getElem?_eq_some_iff.mp hk).1
    rw [length_pinNodes hout] at hlt
    obtain rfl : k = 0 := Nat.lt_one_iff.mp hlt
    rw [he.high]
    rfl

theorem settleLoop_of_empty (h : c.tables = []) (i : Nat) : settleLoop i c = c := by
  cases i with
  | zero => rfl
  | succ i => rw [settleLoop, h]

theorem settleLoop_add (i : Nat) (k : Nat) : ∀ c : Circult, settleLoop (k + i) c = settleLoop i (settleLoop k c) := by
  induction k with
  | zero =>
    intro c
    rw [Nat.zero_add]
    rfl
  | succ k ih =>
    intro c
    rw [Nat.succ_add, settleLoop, settleLoop]
    split
    · rename_i htables
      rw [settleLoop_of_empty htables]
    · exact ih _

/-- After the round of the clock node the loop changes no `q` node, as long as the clock keeps
its level. -/
theorem state_settleLoop_of_kept (he : e.Edge clk) (hclk : ∀ ids, (∀ j ∈ ids, e.InLoop j) → e.Kept ids clk)
    (hhead : e.tables.head? = some clk) (hff : e.board.FlipFlop clk i d q) (k : Nat) :
    (settleLoop (k + 1) e).state q = (e.processNode clk).state q := by
  obtain ⟨rest, htables⟩ := List.head?_eq_some_iff.mp hhead
  have hw := he.netlist.toWired
  have hstart : Looping e e := ⟨.refl e, fun _ hn => .pending hn⟩
  have hvisits : ∀ j ∈ e.visits clk, e.InLoop j := hstart.inLoop hw (by rw [htables]; exact mem_cons_self)
  have hround : Round e clk (e.visits clk) (e.processNode clk) := by
    rw [processNode_eq_afterVisits]
    refine (Round.start _).calls he _ fun id d q _ pre post hsplit => hclk _ fun j hj => hvisits j ?_
    replace hsplit : e.visits clk = pre ++ id :: post := hsplit
    rw [hsplit]
    exact mem_append_left _ (mem_reverse.mp hj)
  have hone : settleLoop 1 e = e.processNode clk := by
    rw [settleLoop, htables]
    rfl
  have hloop : Looping e (e.processNode clk) := by
    rw [← hone]
    exact (hstart.settle_rule hw (P := fun _ => True) (fun _ _ _ => trivial) 1 trivial).1
  rw [Nat.add_comm, settleLoop_add k 1, hone]
  refine (Looping.call_rule hw (P := fun c => (∃ pre, (∀ j ∈ pre, e.InLoop j) ∧ i ∈ pre ∧ Round e clk pre c) ∧
      c.state q = (e.processNode clk).state q) ?_ (fun {c'} {id} _ hid hp => ?_) k hloop
    ⟨⟨_, hvisits, mem_visits he hff, hround⟩, rfl⟩).2.2
  · rintro c' ts ⟨⟨pre, hpre, hi, h⟩, hq⟩
    exact ⟨⟨pre, hpre, hi, ⟨h.board, h.outputs, h.kept, h.fresh, h.seen⟩⟩, hq⟩
  · obtain ⟨⟨pre, hpre, hi, h⟩, hq⟩ := hp
    have hkept : ∀ d q, e.board.FlipFlop clk id d q → e.Kept pre.reverse clk := fun _ _ _ =>
      hclk _ fun j hj => hpre j (mem_reverse.mp hj)
    refine ⟨⟨pre ++ [id], fun j hj => ?_, mem_append_left _ hi, h.step he hkept⟩, (h.keeps he hff hi hkept).1.trans hq⟩
    rcases mem_append.mp hj with hj | hj
    · exact hpre j hj
    · rwa [mem_singleton.mp hj]

/-- `INPUT` models for the clock on node 0 and the data on node 1, and two flip-flops in a row
from node 1 over node 2 to node 3. -/
def shiftNetlist : Netlist := .ofModels 4 [.port .input [0] "clk" [], .port .input [1] "d" [],
  .on .dff [1, 0, 2], .on .dff [2, 0, 3]]

/-- The shift register at rest with the clock low and its `INPUT` just set to `H`, for an order
of the pins of the clock node. -/
def shiftRegister (order : List PinRef) : Circult where
  board := { Board.inOrder shiftNetlist with
    pinOrder := fun n => if n = .node 0 then order else Board.pinsOn shiftNetlist n }
  analyzeType := .TR
  state := fun n => if n = .node 1 then .H else .L
  voltage := fun _ => 0.0
  clip := fun id => match id with
    | 0 => { outputA := .H, last := fun _ => .L }
    | 1 => { outputA := .H, last := fun _ => .H }
    | _ => {}
  beforeAllClk := [0, 1]

section Shift

variable {order : List PinRef}

theorem bases_shift : (shiftRegister order).board.nl.bases =
    [⟨0, .port .input [0] "clk" []⟩, ⟨1, .port .input [1] "d" []⟩,
      ⟨2, .on .dff [1, 0, 2]⟩,
      ⟨3, .on .dff [2, 0, 3]⟩] := rfl

theorem modelAt_shift {id : Nat} (h : (shiftRegister order).board.modelAt id = some m) :
    (id = 0 ∧ m = ⟨.input, "clk", [], [some (.node 0)]⟩) ∨
      (id = 1 ∧ m = ⟨.input, "d", [], [some (.node 1)]⟩) ∨
      (id = 2 ∧ m = ⟨.dff, "", [], [some (.node 1), some (.node 0), some (.node 2)]⟩) ∨
      (id = 3 ∧ m = ⟨.dff, "", [], [some (.node 2), some (.node 0), some (.node 3)]⟩) := by
  match id with
  | 0 => exact Or.inl ⟨rfl, (some.inj h).symm⟩
  | 1 => exact Or.inr (Or.inl ⟨rfl, (some.inj h).symm⟩)
  | 2 => exact Or.inr (Or.inr (Or.inl ⟨rfl, (some.inj h).symm⟩))
  | 3 => exact Or.inr (Or.inr (Or.inr ⟨rfl, (some.inj h).symm⟩))
  | id + 4 => exact absurd h (by simp [Board.modelAt, bases_shift])

theorem drives_shift {id : Nat} (h : (shiftRegister order).board.DrivesNode id n) :
    n = .node id := by
  obtain ⟨m, hm, k, hk, hpin⟩ := h
  rcases modelAt_shift hm with ⟨rfl, rfl⟩ | ⟨rfl, rfl⟩ | ⟨rfl, rfl⟩ | ⟨rfl, rfl⟩
  all_goals
    obtain rfl := mem_singleton.mp hk
    exact (some.inj hpin).symm

theorem flipFlop_shift {id : Nat} (h : (shiftRegister order).board.FlipFlop (.node 0) id d q) :
    (id = 2 ∧ d = .node 1 ∧ q = .node 2) ∨ (id = 3 ∧ d = .node 2 ∧ q = .node 3) := by
  obtain ⟨m, hm, hk, hd, -, hq⟩ := h
  rcases modelAt_shift hm with ⟨rfl, rfl⟩ | ⟨rfl, rfl⟩ | ⟨rfl, rfl⟩ | ⟨rfl, rfl⟩
  · exact absurd hk (by decide)
  · exact absurd hk (by decide)
  · exact Or.inl ⟨rfl, (some.inj hd).symm, (some.inj hq).symm⟩
  · exact Or.inr ⟨rfl, (some.inj hd).symm, (some.inj hq).symm⟩

theorem clockNetlist_shift (horder : order.Perm [⟨0, 0⟩, ⟨2, 1⟩, ⟨3, 1⟩]) :
    (shiftRegister order).board.ClockNetlist (.node 0) where
  ids := by
    rw [bases_shift]
    decide
  pins := by
    intro n p
    by_cases hn : n = .node 0
    · subst hn
      have hpins : Board.pinsOn shiftNetlist (.node 0) = [⟨0, 0⟩, ⟨2, 1⟩, ⟨3, 1⟩] := by decide
      rw [show (shiftRegister order).board.pinOrder (.node 0) = order from rfl, horder.mem_iff, ← hpins]
      exact Board.mem_pinsOn
    · rw [show (shiftRegister order).board.pinOrder n = Board.pinsOn shiftNetlist n from if_neg hn]
      exact Board.mem_pinsOn
  digital := by
    have hnodes : ∀ nd ∈ shiftNetlist.nodes, nd.numOfAnalogNode = 0 := by decide
    exact Board.isAnalog_eq_false hnodes rfl
  kinds := by
    intro id m hm
    rcases modelAt_shift hm with ⟨rfl, rfl⟩ | ⟨rfl, rfl⟩ | ⟨rfl, rfl⟩ | ⟨rfl, rfl⟩
    · exact Or.inl fun _ => rfl
    · exact Or.inl fun _ => rfl
    · exact Or.inr rfl
    · exact Or.inr rfl
  single := by
    intro id id' n h h'
    exact NodeId.node.inj ((drives_shift h).symm.trans (drives_shift h'))
  clocked := by
    intro id m hm hk n hn
    rcases modelAt_shift hm with ⟨rfl, rfl⟩ | ⟨rfl, rfl⟩ | ⟨rfl, rfl⟩ | ⟨rfl, rfl⟩
    · exact absurd hk (by decide)
    · exact absurd hk (by decide)
    · exact (some.inj hn).symm
    · exact (some.inj hn).symm
  source := by
    intro id m hm hk h
    cases drives_shift h
    rcases modelAt_shift hm with ⟨-, rfl⟩ | ⟨h, -⟩ | ⟨h, -⟩ | ⟨h, -⟩
    · exact absurd hk (by decide)
    · exact absurd h (by decide)
    · exact absurd h (by decide)
    · exact absurd h (by decide)

theorem atLoop_shift : (shiftRegister order).atLoop =
    ((shiftRegister order).updateModel .beforeAllClk 0).updateModel .beforeAllClk 1 := by
  have hsetup : SameSetup (shiftRegister order) { shiftRegister order with digitalOut := [] }.beforeDigitalClk :=
    .foldl _ (sameSetup_updateModel _) _ _
  rw [atLoop, seedTables, hsetup.alwaysTables]
  rfl

theorem edge_shift (horder : order.Perm [⟨0, 0⟩, ⟨2, 1⟩, ⟨3, 1⟩]) :
    (shiftRegister order).atLoop.Edge (.node 0) where
  netlist := clockNetlist_shift horder
  high := rfl
  lastClk := by
    intro id d q hff
    have hclip (hid : id ≠ 0 ∧ id ≠ 1) :
        (shiftRegister order).atLoop.clip id = (shiftRegister order).clip id := by
      rw [atLoop_shift, clip_updateModel hid.2, clip_updateModel hid.1]
    rcases flipFlop_shift hff with ⟨rfl, -⟩ | ⟨rfl, -⟩
    · rw [hclip (by decide)]
      rfl
    · rw [hclip (by decide)]
      rfl

end Shift

end Circult

end PhyEngine
