import PhyEngine.Circuit.Combinational

/-!
# Restarting a simulation

After `reset` the next `prepare` makes all digital nodes indeterminate, but the outputs that
models cached stay. A restarted netlist runs like a fresh copy as long as no known output is
cached.
-/

namespace PhyEngine

structure Board.GateBoard (b : Board) : Prop where
  digital : ∀ n, b.isAnalog n = false
  kinds : ∀ x ∈ b.nl.bases, x.model.kind = .input ∨ x.model.kind.isGate

theorem ModelKind.gateFn_of_isGate {kind : ModelKind} (h : kind = .input ∨ kind.isGate)
    (outputA : LogicT) : ∃ g, kind.gateFn outputA = some g ∧ g.rule ≠ .compare := by
  rcases h with rfl | h
  · exact ⟨_, rfl, by simp⟩
  · cases kind <;> simp only [ModelKind.isGate, Bool.false_eq_true] at h <;> exact ⟨_, rfl, by simp⟩

namespace Circult

inductive Op where
  | setInput (id : Nat) (v : LogicT)
  | prepare
  | digitalClk

def apply (c : Circult) : Op → Circult
  | .setInput id v => c.setInput id v
  | .prepare => c.prepare
  | .digitalClk => c.digitalClk

def run (c : Circult) (ops : List Op) : Circult := ops.foldl apply c

/-- A circuit no call has been made on: nothing is cached and nothing is pending. -/
structure Built (c : Circult) : Prop where
  last : ∀ id k, (c.clip id).last k = .X
  tables : c.tables = []
  hasPrepare : c.hasPrepare = false

/-- The attributes of the `INPUT` models are set to given values. -/
def withOutputs (c : Circult) (outputs : Nat → LogicT) : Circult :=
  { c with clip := fun id => { c.clip id with outputA := outputs id } }

/-- After the history `h`, `reset` and `prepare` the sequence `s` leaves every digital node as
it does on a built copy with the same attributes. -/
def Restarts (c₀ : Circult) (h s : List Op) : Prop :=
  ∀ n, c₀.board.isDigital n → ((c₀.run h).reset.prepare.run s).state n =
    ((c₀.withOutputs (c₀.run h).outputs).prepare.run s).state n

/-- Two circuits that differ at most in what the gates remember of their inputs. -/
structure Alike (c d : Circult) : Prop where
  board : d.board = c.board
  state : d.state = c.state
  last : ∀ id, (d.clip id).last = (c.clip id).last
  outputs : d.outputs = c.outputs
  tables : d.tables = c.tables
  alwaysTables : d.alwaysTables = c.alwaysTables
  beforeAllClk : d.beforeAllClk = c.beforeAllClk
  afterAllClk : d.afterAllClk = c.afterAllClk
  hasPrepare : d.hasPrepare = c.hasPrepare

theorem updateDigitalClk_congr {view view' : NodeId → NodeView} (hview : ∀ n, (view n).analog = false)
    (hview' : ∀ n, (view' n).analog = false) (hstate : ∀ n, (view' n).state = (view n).state)
    {m : Model} (hk : m.kind = .input ∨ m.kind.isGate) {clip clip' : Clip}
    (hlast : clip'.last = clip.last) (hout : clip'.outputA = clip.outputA) (t t' : Float)
    (method : DigitalUpdateMethod) :
    (updateDigitalClk view' t' method m clip').stores = (updateDigitalClk view t method m clip).stores ∧
    (updateDigitalClk view' t' method m clip').clip.last =
      (updateDigitalClk view t method m clip).clip.last ∧
    (updateDigitalClk view' t' method m clip').clip.outputA =
      (updateDigitalClk view t method m clip).clip.outputA := by
  obtain ⟨g, hg, hrule⟩ := ModelKind.gateFn_of_isGate hk clip.outputA
  have hg' : m.kind.gateFn clip'.outputA = some g := by rw [hout, hg]
  by_cases hpins : m.pinNodes 0 g.arity = none ∨ m.pinNodes g.arity g.count = none
  · rw [updateDigitalClk_unconnected method hg hpins, updateDigitalClk_unconnected method hg' hpins]
    exact ⟨rfl, hlast, hout⟩
  · push Not at hpins
    obtain ⟨ins, hin⟩ := Option.ne_none_iff_exists'.mp hpins.1
    obtain ⟨outs, hout'⟩ := Option.ne_none_iff_exists'.mp hpins.2
    have hspec : CallSpec g ins outs view clip (updateDigitalClk view t method m clip) :=
      updateDigitalClk_spec hview method hg hin hout'
    have hspec' : CallSpec g ins outs view' clip' (updateDigitalClk view' t' method m clip') :=
      updateDigitalClk_spec hview' method hg' hin hout'
    have hins : (ins.map fun n => (view' n).state) = ins.map fun n => (view n).state :=
      List.map_congr_left fun n _ => hstate n
    refine ⟨?_, ?_, ?_⟩
    · rw [hspec.stores, hspec'.stores, hins, hlast]
    · funext k
      rw [hspec.last hrule, hspec'.last hrule, hins, hlast]
    · rw [hspec.outputA, hspec'.outputA, hout]

variable {c d : Circult}

theorem Alike.enter (h : Alike c d) (n : NodeId) : Alike (c.enter n) (d.enter n) where
  board := h.board
  state := h.state
  last := h.last
  outputs := h.outputs
  tables := by simp only [Circult.enter, h.tables, h.board]
  alwaysTables := h.alwaysTables
  beforeAllClk := h.beforeAllClk
  afterAllClk := h.afterAllClk
  hasPrepare := h.hasPrepare

theorem Alike.write (h : Alike c d) (n : NodeId) (v : LogicT) :
    Alike { c with state := Function.update c.state n v } { d with state := Function.update d.state n v } where
  board := h.board
  state := by rw [h.state]
  last := h.last
  outputs := h.outputs
  tables := h.tables
  alwaysTables := h.alwaysTables
  beforeAllClk := h.beforeAllClk
  afterAllClk := h.afterAllClk
  hasPrepare := h.hasPrepare

theorem Alike.store (h : Alike c d) (w : Store) : Alike (c.store w) (d.store w) := by
  cases w with
  | write n v e =>
    simp only [Circult.store]
    split
    · exact (h.write n v).enter n
    · exact h.write n v
  | update n v =>
    simp only [Circult.store, h.state]
    split
    · exact h
    · have hw := (h.write n v).enter n
      rw [h.state] at hw
      exact hw

theorem Alike.foldl {β : Type} {f : Circult → β → Circult} {P : Board → Prop}
    (hf : ∀ c d x, P c.board → Alike c d → Alike (f c x) (f d x))
    (hboard : ∀ c x, (f c x).board = c.board) (xs : List β) :
    ∀ {c d : Circult}, P c.board → Alike c d → Alike (xs.foldl f c) (xs.foldl f d) := by
  induction xs with
  | nil => exact fun _ h => h
  | cons x xs ih => exact fun hp h => ih (by rw [hboard]; exact hp) (hf _ _ x hp h)

theorem Alike.updateModel (hb : c.board.GateBoard) (h : Alike c d) (method : DigitalUpdateMethod) (id : Nat) :
    Alike (c.updateModel method id) (d.updateModel method id) := by
  cases hm : c.board.modelAt id with
  | none =>
    have hm' : d.board.modelAt id = none := by rw [h.board, hm]
    simp only [Circult.updateModel, hm, hm']
    exact h
  | some m =>
    have hm' : d.board.modelAt id = some m := by rw [h.board, hm]
    obtain ⟨x, hx, -, rfl⟩ := Board.mem_of_modelAt hm
    have hk := hb.kinds x hx
    obtain ⟨g, hg, -⟩ := ModelKind.gateFn_of_isGate hk .X
    simp only [Circult.updateModel, hm, hm', ModelKind.gateFn_digital hg, if_true]
    have hview : ∀ n, (c.view n).analog = false := hb.digital
    have hview' : ∀ n, (d.view n).analog = false := fun n => by
      rw [view, h.board]
      exact hb.digital n
    obtain ⟨hstores, hlast, hout⟩ := updateDigitalClk_congr hview hview' (fun n => congrFun h.state n)
      hk (h.last id) (congrFun h.outputs id) c.trDuration d.trDuration method
    rw [hstores]
    have hfold := Alike.foldl (f := Circult.store) (P := fun _ => True) (fun c d w _ h => h.store w)
      (fun c w => (sameSetup_store c w).board)
      (updateDigitalClk c.view c.trDuration method x.model (c.clip id)).stores trivial h
    refine ⟨hfold.board, hfold.state, ?_, ?_, hfold.tables, hfold.alwaysTables, hfold.beforeAllClk,
      hfold.afterAllClk, hfold.hasPrepare⟩
    · intro id'
      by_cases hid : id' = id
      · subst hid
        simpa using hlast
      · simpa [hid] using hfold.last id'
    · funext id'
      by_cases hid : id' = id
      · subst hid
        simpa [Circult.outputs] using hout
      · simpa [Circult.outputs, hid] using congrFun hfold.outputs id'

theorem Alike.calls (h : Alike c d) (hb : c.board.GateBoard) (method : DigitalUpdateMethod) {ids ids' : List Nat}
    (hids : ids' = ids) :
    Alike (ids.foldl (Circult.updateModel method) c) (ids'.foldl (Circult.updateModel method) d) := by
  subst hids
  exact Alike.foldl (P := Board.GateBoard) (fun c d id hp h => h.updateModel hp method id)
    (fun c id => (sameSetup_updateModel _ c id).board) _ hb h

theorem Alike.processNode (hb : c.board.GateBoard) (h : Alike c d) (n : NodeId) :
    Alike (c.processNode n) (d.processNode n) := by
  have herase : Alike { c with tables := c.tables.filter fun m => m ≠ n }
      { d with tables := d.tables.filter fun m => m ≠ n } :=
    ⟨h.board, h.state, h.last, h.outputs, by simp only [h.tables], h.alwaysTables, h.beforeAllClk,
      h.afterAllClk, h.hasPrepare⟩
  rw [processNode_eq_foldl, processNode_eq_foldl]
  exact herase.calls hb _ (by rw [h.board])

theorem Alike.settleLoop (k : Nat) :
    ∀ {c d : Circult}, c.board.GateBoard → Alike c d → Alike (settleLoop k c) (settleLoop k d) := by
  induction k with
  | zero => exact fun _ h => h
  | succ k ih =>
    intro c d hb h
    simp only [Circult.settleLoop, h.tables]
    split
    · exact h
    · exact ih (by rw [(sameSetup_processNode _ c).board]; exact hb) (h.processNode hb _)

theorem Alike.digitalClk {c d : Circult} (hb : c.board.GateBoard) (h : Alike c d) :
    Alike c.digitalClk d.digitalClk := by
  have hclear : Alike { c with digitalOut := [] } { d with digitalOut := [] } :=
    ⟨h.board, h.state, h.last, h.outputs, h.tables, h.alwaysTables, h.beforeAllClk, h.afterAllClk,
      h.hasPrepare⟩
  have hbefore : Alike { c with digitalOut := [] }.beforeDigitalClk
      { d with digitalOut := [] }.beforeDigitalClk := hclear.calls hb _ h.beforeAllClk
  have hboard : { c with digitalOut := [] }.beforeDigitalClk.board = c.board :=
    (SameSetup.foldl _ (sameSetup_updateModel _) _ _).board
  rw [← hboard] at hb
  rw [Circult.digitalClk, Circult.digitalClk]
  generalize { c with digitalOut := [] }.beforeDigitalClk = c₁ at hbefore hb
  generalize { d with digitalOut := [] }.beforeDigitalClk = d₁ at hbefore
  have hseed : Alike c₁.seedTables d₁.seedTables := by
    rw [seedTables, seedTables, hbefore.alwaysTables]
    exact Alike.foldl (P := fun _ => True) (fun c d n _ h => h.enter n) (fun c n => rfl) _ trivial hbefore
  rw [← (SameSetup.foldl _ sameSetup_enter c₁.alwaysTables c₁).board] at hb
  have hloop := Alike.settleLoop iterBudget hb hseed
  rw [← (sameSetup_settleLoop iterBudget _).board] at hb
  exact hloop.calls hb _ hloop.afterAllClk

theorem Alike.setInput {c d : Circult} (h : Alike c d) (id : Nat) (v : LogicT) :
    Alike (c.setInput id v) (d.setInput id v) := by
  cases hm : c.board.modelAt id with
  | none =>
    have hm' : d.board.modelAt id = none := by rw [h.board, hm]
    simpa only [Circult.setInput, hm, hm'] using h
  | some m =>
    have hm' : d.board.modelAt id = some m := by rw [h.board, hm]
    simp only [Circult.setInput, hm, hm']
    split
    · refine ⟨h.board, h.state, fun id' => ?_, ?_, h.tables, h.alwaysTables, h.beforeAllClk,
        h.afterAllClk, h.hasPrepare⟩
      · by_cases hid : id' = id
        · subst hid
          simpa using h.last id'
        · simpa [hid] using h.last id'
      · funext id'
        by_cases hid : id' = id
        · subst hid
          simp [Circult.outputs]
        · simpa [Circult.outputs, hid] using congrFun h.outputs id'
    · exact h

theorem prepare_clip (c : Circult) (id : Nat) : (c.prepare.clip id).last = (c.clip id).last ∧
    (c.prepare.clip id).outputA = (c.clip id).outputA := by
  simp only [prepare]
  split
  · split
    · exact ⟨rfl, rfl⟩
    · exact ⟨rfl, rfl⟩
  · exact ⟨rfl, rfl⟩

theorem prepare_alwaysTables (h : d.board = c.board) :
    d.prepare.alwaysTables = c.prepare.alwaysTables := by simp only [prepare, h]

theorem Alike.prepare {c d : Circult} (h : Alike c d) : Alike c.prepare d.prepare where
  board := h.board
  state := by simp only [Circult.prepare, h.board, h.state, h.hasPrepare]
  last := fun id => by rw [(prepare_clip c id).1, (prepare_clip d id).1, h.last]
  outputs := funext fun id => by
    rw [Circult.outputs, Circult.outputs, (prepare_clip c id).2, (prepare_clip d id).2]
    exact congrFun h.outputs id
  tables := rfl
  alwaysTables := prepare_alwaysTables h.board
  beforeAllClk := by simp only [Circult.prepare, h.board]
  afterAllClk := by simp only [Circult.prepare, h.board]
  hasPrepare := rfl

theorem apply_board (c : Circult) (op : Op) : (c.apply op).board = c.board := by
  cases op with
  | setInput id v =>
    simp only [apply, setInput]
    split
    · split
      · rfl
      · rfl
    · rfl
  | prepare => rfl
  | digitalClk => exact (sameSetup_digitalClk c).board

theorem run_board (ops : List Op) : ∀ c : Circult, (c.run ops).board = c.board := by
  induction ops with
  | nil => exact fun c => rfl
  | cons op ops ih => exact fun c => (ih (c.apply op)).trans (apply_board c op)

theorem Alike.run (hb : c.board.GateBoard) (h : Alike c d) (ops : List Op) :
    Alike (c.run ops) (d.run ops) := by
  refine Alike.foldl (P := Board.GateBoard) (fun c d op hp h => ?_) apply_board ops hb h
  cases op with
  | setInput id v => exact h.setInput id v
  | prepare => exact h.prepare
  | digitalClk => exact h.digitalClk hp

/-- What `reset` and `prepare` leave behind differs from a built copy only in the fields of
the models and in the nodes `prepare` does not write. -/
theorem alike_restart {c₀ : Circult} (hbuilt : c₀.Built) (hboard : c.board = c₀.board)
    (hlast : ∀ id k, (c.clip id).last k = .X) (hstate : ∀ n, c₀.board.isDigital n = false → c.state n = c₀.state n) :
    Alike c.reset.prepare (c₀.withOutputs c.outputs).prepare where
  board := hboard.symm
  state := by
    funext n
    simp only [prepare, reset, withOutputs, hbuilt.hasPrepare, hboard, true_and]
    split
    · rfl
    · rename_i hn
      exact (hstate n (by simpa using hn)).symm
  last := fun id => by
    rw [(prepare_clip _ id).1, (prepare_clip _ id).1]
    funext k
    exact (hbuilt.last id k).trans (hlast id k).symm
  outputs := funext fun id => by
    rw [Circult.outputs, Circult.outputs, (prepare_clip _ id).2, (prepare_clip _ id).2]
    rfl
  tables := rfl
  alwaysTables := prepare_alwaysTables hboard.symm
  beforeAllClk := by simp only [prepare, reset, withOutputs, hboard]
  afterAllClk := by simp only [prepare, reset, withOutputs, hboard]
  hasPrepare := rfl

/-- Every history at whose end no known output is cached, and the nodes that `prepare` does
not write are as they were built, is forgotten by a restart. -/
theorem restarts_of_unknown_cache {c₀ : Circult} (hb : c₀.board.GateBoard) (hbuilt : c₀.Built)
    (h : List Op) (hlast : ∀ id k, ((c₀.run h).clip id).last k = .X)
    (hstate : ∀ n, c₀.board.isDigital n = false → (c₀.run h).state n = c₀.state n) (s : List Op) :
    Restarts c₀ h s := by
  intro n _
  have halike := alike_restart hbuilt (run_board h c₀) hlast hstate
  have hboard : (c₀.run h).reset.prepare.board = c₀.board := run_board h c₀
  rw [← hboard] at hb
  exact (congrFun (halike.run hb s).state n).symm

def buffer : Circult where
  board := .inOrder (.ofModels 2 [.port .input [0] "a" [], .on .yes [0, 1]])
  analyzeType := .TR
  state := fun _ => .L
  voltage := fun _ => 0.0
  clip := fun _ => {}

theorem buffer_gateBoard : buffer.board.GateBoard :=
  ⟨Board.isAnalog_eq_false (by decide) rfl, by decide⟩

theorem buffer_built : buffer.Built := ⟨fun _ _ => rfl, rfl, rfl⟩

/-- A tick with an indeterminate input leaves nothing behind. -/
theorem restarts_buffer_after_unknown :
    Restarts buffer [.setInput 0 .X, .prepare, .digitalClk] [.setInput 0 .H, .digitalClk] := by
  refine restarts_of_unknown_cache buffer_gateBoard buffer_built _ ?_ ?_ _
  · intro id k
    match id, k with
    | 0, 0 => rfl
    | 0, k + 1 => rfl
    | 1, 0 => rfl
    | 1, k + 1 => rfl
    | id + 2, k => rfl
  · intro n hn
    match n with
    | .ground => rfl
    | .node 0 => exact absurd hn (by decide)
    | .node 1 => exact absurd hn (by decide)
    | .node (i + 2) => rfl

/-- After a tick with input `H` the `INPUT` does not enter its node again, so that node 1
stays indeterminate. -/
theorem not_restarts_buffer : buffer.board.GateBoard ∧ buffer.Built ∧
    ¬ Restarts buffer [.setInput 0 .H, .prepare, .digitalClk] [.digitalClk] := by
  refine ⟨buffer_gateBoard, buffer_built, fun hrestarts => ?_⟩
  have hnode := hrestarts (.node 1) (by decide)
  exact absurd hnode (by decide)

end Circult

end PhyEngine
