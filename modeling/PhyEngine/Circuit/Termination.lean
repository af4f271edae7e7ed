import PhyEngine.Circuit.Wiring

/-!
# The settle loop without its budget

On an acyclic netlist of gates, adders, `CASE_EQ`, `IS_UNKNOWN` and `RESOLVE2` the settle loop
empties the table by itself. `TRI` enters its output node in every call, so a connected `TRI`
keeps the loop running forever.
-/

namespace PhyEngine

open EventNet

/-- The input and output pins of the models of the settle loop: how many come first, and
how many follow. -/
def ModelKind.pinShape (kind : ModelKind) : Option (Nat × Nat) :=
  if kind = .tri then some (2, 1) else (kind.gateFn .X).map fun g => (g.arity, g.count)

/-- The nodes of the pins of a model, inputs and outputs, if all are connected. -/
def Model.wires (m : Model) : Option (List NodeId × List NodeId) :=
  m.kind.pinShape.bind fun sh =>
    (m.pinNodes 0 sh.1).bind fun ins => (m.pinNodes sh.1 sh.2).map fun outs => (ins, outs)

def Model.inNodes (m : Model) : List NodeId := m.wires.elim [] Prod.fst

def Model.outNodes (m : Model) : List NodeId := m.wires.elim [] Prod.snd

namespace Board

variable {b : Board}

/-- The netlists of the models that the settle loop evaluates, on digital nodes, with single
drivers and an acyclic gate graph. -/
structure SettleNetlist (b : Board) : Prop extends Wired b where
  digital : ∀ n, b.isAnalog n = false
  kinds : ∀ x ∈ b.nl.bases, x.model.kind.pinShape.isSome
  single : (b.nl.bases.flatMap fun x => x.model.outNodes).Nodup
  acyclic : ∃ rank : NodeId → Nat, ∀ x ∈ b.nl.bases, ∀ i ∈ x.model.inNodes, ∀ o ∈ x.model.outNodes,
    rank i < rank o

def HasTri (b : Board) : Prop := ∃ x ∈ b.nl.bases, x.model.kind = .tri ∧ x.model.wires.isSome

theorem wires_of_gateFn {m : Model} {outputA : LogicT} {g : GateFn} {ins outs : List NodeId}
    (hg : m.kind.gateFn outputA = some g) (hin : m.pinNodes 0 g.arity = some ins)
    (hout : m.pinNodes g.arity g.count = some outs) : m.wires = some (ins, outs) := by
  have hk : m.kind ≠ .tri := by
    intro hk
    simp [hk, ModelKind.gateFn] at hg
  obtain ⟨g', hg', -, harity, hcount, -⟩ := ModelKind.gateFn_outputA .X hg
  simp [Model.wires, ModelKind.pinShape, hk, hg', harity, hcount, hin, hout]

theorem SettleNetlist.ranked (h : b.SettleNetlist) :
    ∃ rank, (b.net fun _ => .X).Ranked rank := by
  obtain ⟨rank, hrank⟩ := h.acyclic
  refine ⟨rank, ?_⟩
  rintro ⟨id, k⟩ hs d hd
  obtain ⟨x, hx, rfl, g, ins, outs, hgate, hk, hg, hin, hout⟩ := gateAt_of_mem_slots h.toWired hs
  rw [net_deps hgate] at hd
  rw [← length_pinNodes hout] at hk
  rw [net_target hgate, List.getD_eq_getElem _ _ hk]
  have hwires := wires_of_gateFn hg hin hout
  refine hrank x hx d ?_ _ ?_
  · simpa [Model.inNodes, hwires] using hd
  · simp [Model.outNodes, hwires]

theorem SettleNetlist.singleDrivers (h : b.SettleNetlist) : b.SingleDrivers := by
  rintro ⟨id, j⟩ hs ⟨id', k⟩ ht he
  obtain ⟨x, hx, rfl, g, ins, outs, hgate, hj, hg, hin, hout⟩ := gateAt_of_mem_slots h.toWired hs
  obtain ⟨y, hy, rfl, g', ins', outs', hgate', hk, hg', hin', hout'⟩ :=
    gateAt_of_mem_slots h.toWired ht
  rw [← length_pinNodes hout] at hj
  rw [← length_pinNodes hout'] at hk
  rw [net_target hgate, net_target hgate', List.getD_eq_getElem _ _ hj, List.getD_eq_getElem _ _ hk] at he
  obtain ⟨hnodup, hdisjoint⟩ := List.nodup_flatMap.mp h.single
  have houts : x.model.outNodes = outs := by simp [Model.outNodes, wires_of_gateFn hg hin hout]
  have houts' : y.model.outNodes = outs' := by simp [Model.outNodes, wires_of_gateFn hg' hin' hout']
  by_cases hxy : x = y
  · subst hxy
    obtain rfl : outs = outs' := houts.symm.trans houts'
    have hnd := hnodup x hx
    rw [houts] at hnd
    rw [hnd.getElem_inj_iff] at he
    rw [he]
  · have : Std.Symm (Function.onFun List.Disjoint fun x : ModelBase => x.model.outNodes) :=
      ⟨fun _ _ h => List.Disjoint.symm h⟩
    have hdis := hdisjoint.forall hx hy hxy
    simp only [Function.onFun, houts, houts'] at hdis
    exact absurd (he ▸ List.getElem_mem hk) (hdis (List.getElem_mem hj))

theorem SettleNetlist.combinational (h : b.SettleNetlist) (htri : ¬ b.HasTri) : b.Combinational := by
  obtain ⟨rank, hrank⟩ := h.ranked
  refine ⟨h.digital, fun id m hm => ?_, noSelfDrive_of_ranked hrank⟩
  obtain ⟨x, hx, -, rfl⟩ := mem_of_modelAt hm
  by_cases hk : x.model.kind = .tri
  · left
    refine ⟨fun outputA => by rw [hk]; rfl, fun view trDuration method clip => ?_⟩
    have hwires : x.model.wires = none := by
      by_contra hne
      exact htri ⟨x, hx, hk, Option.isSome_iff_ne_none.mpr hne⟩
    simp only [updateDigitalClk, hk, updateTri]
    split
    · rename_i i en o hi hen ho
      simp [Model.wires, hk, ModelKind.pinShape, Model.pinNodes, List.range', hi, hen, ho] at hwires
    · rfl
  · right
    intro outputA
    have hshape := h.kinds x hx
    simp only [ModelKind.pinShape, hk, if_false, Option.isSome_map] at hshape
    obtain ⟨g, hg⟩ := Option.isSome_iff_exists.mp hshape
    obtain ⟨g', hg', -⟩ := ModelKind.gateFn_outputA outputA hg
    simp [hg']

end Board

namespace Circult

/-- The settle loop without budget: `k` rounds in which `order` says which of the pending
nodes is taken next. -/
def settleBy (order : Nat → List NodeId → NodeId) : Nat → Circult → Circult
  | 0, c => c
  | k + 1, c =>
    if c.tables = [] then c
    else settleBy (fun i => order (i + 1)) k (c.processNode (order 0 c.tables))

theorem settleLoop_eq_settleBy (k : Nat) :
    ∀ c, settleLoop k c = settleBy (fun _ ts => ts.headD .ground) k c := by
  induction k with
  | zero => exact fun c => rfl
  | succ k ih =>
    intro c
    rw [settleLoop, settleBy]
    split
    · rename_i h
      rw [if_pos h]
    · rename_i n rest h
      rw [if_neg (by simp [h]), ih, h]
      rfl

/-- Whatever the states, caches and pending nodes, and whatever the order, the table gets
empty. -/
def SettlesAlways (b : Board) : Prop :=
  ∀ c : Circult, c.board = b → ∀ order : Nat → List NodeId → NodeId,
    (∀ i ts, ts ≠ [] → order i ts ∈ ts) → ∃ k, (settleBy order k c).tables = []

variable {b : Board} {c : Circult} {n i en o : NodeId}

theorem exists_settleBy_of_acc (hb : b.Combinational) {N : Net NodeId (Nat × Nat) LogicT}
    {st : EventNet.State NodeId (Nat × Nat) LogicT}
    (hacc : Acc (fun st' st => ∃ n ∈ st.pending, st' = N.process n st) st) :
    ∀ (c : Circult), c.board = b → c.net = N → c.abs = st →
      ∀ order : Nat → List NodeId → NodeId, (∀ i ts, ts ≠ [] → order i ts ∈ ts) →
        ∃ k, (settleBy order k c).tables = [] := by
  induction hacc with
  | intro st _ ih =>
    intro c hboard hN hst order horder
    by_cases htables : c.tables = []
    · exact ⟨0, htables⟩
    · have hmem := horder 0 c.tables htables
      obtain ⟨houtputs, habs⟩ := abs_processNode (hboard ▸ hb) (order 0 c.tables)
      have hboard' := (sameSetup_processNode (order 0 c.tables) c).board
      have hnet' : (c.processNode (order 0 c.tables)).net = c.net := by
        rw [net, net, hboard', houtputs]
      obtain ⟨k, hk⟩ := ih _ ⟨order 0 c.tables, by rw [← hst]; exact List.mem_toFinset.mpr hmem, rfl⟩
        (c.processNode (order 0 c.tables)) (hboard'.trans hboard) (hnet'.trans hN)
        (by rw [habs, hN, hst]) (fun i => order (i + 1)) fun i => horder (i + 1)
      exact ⟨k + 1, by rw [settleBy, if_neg htables]; exact hk⟩

theorem mem_tables_store (h : n ∈ c.tables) (w : Store) :
    n ∈ (c.store w).tables := by
  cases w with
  | write m v e =>
    simp only [store]
    split
    · exact mem_enter_tables.mpr (Or.inr h)
    · exact h
  | update m v =>
    simp only [store]
    split
    · exact h
    · exact mem_enter_tables.mpr (Or.inr h)

theorem mem_tables_foldl_store (ws : List Store) :
    ∀ {c : Circult}, n ∈ c.tables → n ∈ (ws.foldl store c).tables := by
  induction ws with
  | nil => exact fun h => h
  | cons w ws ih => exact fun h => ih (mem_tables_store h w)

theorem mem_tables_updateModel (h : n ∈ c.tables) (method : DigitalUpdateMethod) (id : Nat) :
    n ∈ (c.updateModel method id).tables := by
  simp only [updateModel]
  split
  · exact h
  · split
    · exact mem_tables_foldl_store _ h
    · exact h

theorem mem_tables_updateTri (hdigital : ∀ n, c.board.isAnalog n = false) {id : Nat} {m : Model}
    (hm : c.board.modelAt id = some m) (hk : m.kind = .tri) (hi : m.pin 0 = some i) (hen : m.pin 1 = some en)
    (ho : m.pin 2 = some o) (method : DigitalUpdateMethod) : o ∈ (c.updateModel method id).tables := by
  have hanalog : (c.view o).analog = false := hdigital o
  have hstores : ∃ v, (updateDigitalClk c.view c.trDuration method m (c.clip id)).stores =
      [.write o v true] := by
    simp only [updateDigitalClk, hk, updateTri, hi, hen, ho, hanalog, Bool.false_eq_true, if_false]
    split <;> split <;> exact ⟨_, rfl⟩
  obtain ⟨v, hv⟩ := hstores
  have hdev : m.kind.deviceType = .digital := by rw [hk]; rfl
  simp only [updateModel, hm, hdev, if_true, hv, List.foldl_cons, List.foldl_nil, store]
  exact mem_enter_tables.mpr (Or.inl rfl)

theorem mem_tables_foldl_updateModel (ps : List PinRef) :
    ∀ {c : Circult}, n ∈ c.tables →
      n ∈ (ps.foldl (fun c p => c.updateModel .updateTable p.id) c).tables := by
  induction ps with
  | nil => exact fun h => h
  | cons p ps ih => exact fun h => ih (mem_tables_updateModel h _ _)

/-- The output node of a `TRI` is in the table after every round in which it was there
before. -/
theorem mem_tables_processNode (hw : c.board.Wired) (hdigital : ∀ n, c.board.isAnalog n = false) {x : ModelBase}
    (hx : x ∈ c.board.nl.bases) (hk : x.model.kind = .tri) (hi : x.model.pin 0 = some i) (hen : x.model.pin 1 = some en)
    (ho : x.model.pin 2 = some o) (h : o ∈ c.tables) (n : NodeId) :
    o ∈ (c.processNode n).tables := by
  by_cases hn : n = o
  · subst hn
    obtain ⟨front, back, hsplit⟩ := List.append_of_mem (hw.mem_pinOrder hx ho)
    rw [processNode, hsplit, List.foldl_append, List.foldl_cons]
    refine mem_tables_foldl_updateModel back ?_
    have hboard : (front.foldl (fun (c : Circult) (p : PinRef) => c.updateModel .updateTable p.id)
        { c with tables := c.tables.filter fun m => m ≠ n }).board = c.board :=
      (SameSetup.foldl _ (fun c (p : PinRef) => sameSetup_updateModel .updateTable c p.id) front
        { c with tables := c.tables.filter fun m => m ≠ n }).board
    refine mem_tables_updateTri ?_ ?_ hk hi hen ho .updateTable
    · rw [hboard]
      exact hdigital
    · rw [hboard]
      exact Board.modelAt_of_mem hw hx
  · refine mem_tables_foldl_updateModel _ ?_
    simp only [List.mem_filter, h, true_and, decide_eq_true_eq]
    exact fun he => hn he.symm

theorem mem_tables_settleBy (hw : b.Wired) (hdigital : ∀ n, b.isAnalog n = false) {x : ModelBase} (hx : x ∈ b.nl.bases)
    (hk : x.model.kind = .tri) (hi : x.model.pin 0 = some i) (hen : x.model.pin 1 = some en)
    (ho : x.model.pin 2 = some o) (k : Nat) :
    ∀ (order : Nat → List NodeId → NodeId) (c : Circult), c.board = b → o ∈ c.tables →
      o ∈ (settleBy order k c).tables := by
  induction k with
  | zero => exact fun order c _ h => h
  | succ k ih =>
    intro order c hboard h
    subst hboard
    rw [settleBy, if_neg (List.ne_nil_of_mem h)]
    exact ih _ _ (sameSetup_processNode _ c).board
      (mem_tables_processNode hw hdigital hx hk hi hen ho h _)

theorem not_settlesAlways_of_hasTri (hw : b.Wired) (hdigital : ∀ n, b.isAnalog n = false) (htri : b.HasTri) :
    ¬ SettlesAlways b := by
  obtain ⟨x, hx, hk, hwires⟩ := htri
  obtain ⟨⟨ins, outs⟩, hio⟩ := Option.isSome_iff_exists.mp hwires
  simp only [Model.wires, hk, ModelKind.pinShape, if_true, Option.bind_some, Option.bind_eq_some_iff,
    Option.map_eq_some_iff] at hio
  obtain ⟨_, hin, _, hout, -⟩ := hio
  obtain ⟨i, en, hi, hen, -⟩ := pinNodes_two hin
  obtain ⟨o, ho, -⟩ := pinNodes_one hout
  intro hsettles
  obtain ⟨k, hempty⟩ := hsettles
    { board := b, analyzeType := .TR, state := fun _ => .X, voltage := fun _ => 0.0,
      clip := fun _ => {}, tables := [o] } rfl (fun _ ts => ts.headD .ground) (fun i ts hts => by
        cases ts with
        | nil => exact absurd rfl hts
        | cons n ts => exact List.mem_cons_self)
  have hmem := mem_tables_settleBy hw hdigital hx hk hi hen ho k (fun _ ts => ts.headD .ground)
    { board := b, analyzeType := .TR, state := fun _ => .X, voltage := fun _ => 0.0,
      clip := fun _ => {}, tables := [o] } rfl List.mem_cons_self
  rw [hempty] at hmem
  exact absurd hmem List.not_mem_nil

/-- The settle loop without its budget empties the table, from all states and pending nodes
and in every order, exactly on the netlists without a connected `TRI`. -/
theorem settlesAlways_iff {b : Board} (h : b.SettleNetlist) : SettlesAlways b ↔ ¬ b.HasTri := by
  constructor
  · intro hsettles htri
    exact not_settlesAlways_of_hasTri h.toWired h.digital htri hsettles
  · intro htri c hboard order horder
    obtain ⟨rank, hrank⟩ := h.ranked
    have hacc := Net.acc_process (h.singleDrivers.net c.outputs) (Board.ranked_net hrank c.outputs)
      (h.toWired.attached c.outputs) c.abs
    refine exists_settleBy_of_acc (h.combinational htri) hacc c hboard ?_ rfl order horder
    rw [net, hboard]

def bufferNetlist : Netlist := .ofModels 2 [.port .input [0] "a" [], .on .yes [0, 1]]

theorem bufferNetlist_settleNetlist : (Board.inOrder bufferNetlist).SettleNetlist where
  toWired := Board.wired_inOrder (by decide)
  digital := Board.isAnalog_eq_false (by decide) rfl
  kinds := by decide
  single := by decide
  acyclic := ⟨fun n => if n = .node 1 then 1 else 0, by decide⟩

theorem settlesAlways_buffer : SettlesAlways (Board.inOrder bufferNetlist) := by
  refine (settlesAlways_iff bufferNetlist_settleNetlist).mpr ?_
  unfold Board.HasTri
  decide

def triNetlist : Netlist := .ofModels 3 [.port .input [0] "i" [], .port .input [1] "en" [],
  .on .tri [0, 1, 2]]

/-- The netlist is acyclic with single drivers, but once the enable node is pending the
table never gets empty. -/
theorem tri_never_settles : (Board.inOrder triNetlist).SettleNetlist ∧
    ¬ SettlesAlways (Board.inOrder triNetlist) := by
  have h : (Board.inOrder triNetlist).SettleNetlist :=
    { toWired := Board.wired_inOrder (by decide)
      digital := Board.isAnalog_eq_false (by decide) rfl
      kinds := by decide
      single := by decide
      acyclic := ⟨fun n => if n = .node 2 then 1 else 0, by decide⟩ }
  refine ⟨h, not_settlesAlways_of_hasTri h.toWired h.digital ?_⟩
  unfold Board.HasTri
  decide

end Circult

end PhyEngine
