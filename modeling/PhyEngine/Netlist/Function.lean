import PhyEngine.Netlist.Rewiring

/-!
# The function of a netlist across a pass

`PinFns` gives the output pins of a model as functions of its input pins. Moves between nodes of
one value leave a valuation a solution (`Rewired.solves`), and the netlist settles on the old
values if no reader is left on a node that lost its driver (`Rewired.sameFunction`).
-/

namespace PhyEngine

open Equations List Equation

/-- What the output pins of a model compute from the input pins, which come first. -/
structure PinFns (α : Type*) where
  arity : Nat
  fns : List (List α → α)

abbrev PinSemantics (α : Type*) := ModelBase → Option (PinFns α)

namespace Netlist

variable {α : Type*}

variable (S : PinSemantics α)

/-- One equation for each output pin. A model with an unconnected pin does nothing. -/
def pinEquations (b : ModelBase) : List (Equation NodeId α) :=
  match S b with
  | none => []
  | some g =>
    if none ∈ b.model.pins then []
    else
      ((b.model.pins.drop g.arity).reduceOption.zip g.fns).map fun nf =>
        apply nf.1 (b.model.pins.take g.arity).reduceOption nf.2

def system (nl : Netlist) : List (Equation NodeId α) :=
  nl.bases.flatMap (pinEquations S)

def IgnoresPins : Prop :=
  ∀ b ps, S { b with model := { b.model with pins := ps } } = S b

variable {β : Type*} {xs : List (Option β)}

theorem map_some_reduceOption (h : none ∉ xs) :
    xs.reduceOption.map some = xs := by
  induction xs with
  | nil => rfl
  | cons x xs ih =>
    rw [mem_cons, not_or] at h
    cases x with
    | none => exact absurd rfl h.1
    | some a => rw [reduceOption_cons_of_some, map_cons, ih h.2]

theorem getElem?_reduceOption (h : none ∉ xs) (k : Nat) (a : β) :
    xs.reduceOption[k]? = some a ↔ xs[k]? = some (some a) := by
  conv_rhs => rw [← map_some_reduceOption h]
  simp

variable {e : Equation NodeId α}

theorem mem_pinEquations {S : PinSemantics α} {b : ModelBase} :
    e ∈ pinEquations S b ↔ ∃ g, S b = some g ∧ none ∉ b.model.pins ∧ ∃ j n f,
      b.model.pins[g.arity + j]? = some (some n) ∧ g.fns[j]? = some f ∧
        e = apply n (b.model.pins.take g.arity).reduceOption f := by
  unfold pinEquations
  cases hg : S b with
  | none => simp
  | some g =>
    dsimp only
    by_cases hnone : none ∈ b.model.pins
    · simp [hnone]
    · have hdrop : none ∉ b.model.pins.drop g.arity := fun h => hnone (mem_of_mem_drop h)
      rw [if_neg hnone, mem_map]
      constructor
      · rintro ⟨⟨n, f⟩, hmem, rfl⟩
        obtain ⟨j, hj⟩ := mem_iff_getElem?.mp hmem
        rw [getElem?_zip_eq_some] at hj
        refine ⟨g, rfl, hnone, j, n, f, ?_, hj.2, rfl⟩
        have hn := (getElem?_reduceOption hdrop j n).mp hj.1
        rwa [getElem?_drop] at hn
      · rintro ⟨g', hg', -, j, n, f, hn, hf, rfl⟩
        cases hg'
        refine ⟨(n, f), mem_iff_getElem?.mpr ⟨j, ?_⟩, rfl⟩
        rw [getElem?_zip_eq_some]
        refine ⟨(getElem?_reduceOption hdrop j n).mpr ?_, hf⟩
        rwa [getElem?_drop]

theorem mem_system {S : PinSemantics α} {nl : Netlist} :
    e ∈ system S nl ↔ ∃ b ∈ nl.bases, e ∈ pinEquations S b := mem_flatMap

/-- The model is fully connected unless it is not connected at all, and its output pins are
those after its inputs. -/
structure WellPinned (S : PinSemantics α) (b : ModelBase) : Prop where
  connected : ∀ g, S b = some g → ∀ n, some n ∈ b.model.pins → none ∉ b.model.pins
  length : ∀ g, S b = some g → b.model.pins.length = g.arity + g.fns.length
  outputs : ∀ g, S b = some g → ∀ k < b.model.pins.length,
    isOutputPin b.model.kind k b.model.pins.length = decide (g.arity ≤ k)

theorem WellPinned.target {S : PinSemantics α} {b : ModelBase} (hb : WellPinned S b)
    (he : e ∈ pinEquations S b) :
    ∃ k, b.model.pins[k]? = some (some e.target) ∧
      isOutputPin b.model.kind k b.model.pins.length = true := by
  obtain ⟨g, hg, -, j, n, f, hn, -, rfl⟩ := mem_pinEquations.mp he
  refine ⟨g.arity + j, hn, ?_⟩
  rw [hb.outputs g hg _ (List.getElem?_eq_some_iff.mp hn).1]
  exact decide_eq_true (Nat.le_add_right _ _)

theorem WellPinned.dep {S : PinSemantics α} {b : ModelBase} (hb : WellPinned S b)
    (he : e ∈ pinEquations S b) {d : NodeId} (hd : d ∈ e.deps) :
    ∃ k, b.model.pins[k]? = some (some d) ∧
      isOutputPin b.model.kind k b.model.pins.length = false := by
  obtain ⟨g, hg, hnone, j, n, f, -, -, rfl⟩ := mem_pinEquations.mp he
  have htake : none ∉ b.model.pins.take g.arity := fun h => hnone (mem_of_mem_take h)
  obtain ⟨k, hk⟩ := mem_iff_getElem?.mp (show d ∈ (b.model.pins.take g.arity).reduceOption from hd)
  rw [getElem?_reduceOption htake, getElem?_take] at hk
  by_cases hlt : k < g.arity
  · rw [if_pos hlt] at hk
    refine ⟨k, hk, ?_⟩
    rw [hb.outputs g hg _ (List.getElem?_eq_some_iff.mp hk).1]
    exact decide_eq_false (by omega)
  · rw [if_neg hlt] at hk
    cases hk

variable {n : NodeId} {rank : NodeId → Nat}

theorem WellPinned.exists_equation {S : PinSemantics α} {b : ModelBase} (hb : WellPinned S b) {g : PinFns α}
    (hg : S b = some g) {k : Nat} (hk : b.model.pins[k]? = some (some n))
    (hout : isOutputPin b.model.kind k b.model.pins.length = true) :
    ∃ e ∈ pinEquations S b, e.target = n := by
  have hlt := (List.getElem?_eq_some_iff.mp hk).1
  have hlen := hb.length g hg
  rw [hb.outputs g hg k hlt, decide_eq_true_eq] at hout
  have hj : k - g.arity < g.fns.length := by omega
  refine ⟨apply n (b.model.pins.take g.arity).reduceOption g.fns[k - g.arity],
    mem_pinEquations.mpr ⟨g, hg, hb.connected g hg n (List.mem_of_getElem? hk), k - g.arity, n, _, ?_,
      getElem?_eq_getElem hj, rfl⟩, rfl⟩
  rw [Nat.add_sub_cancel' hout, hk]

theorem mem_pinEquations_of_pins {S : PinSemantics α} {b : ModelBase} {g : PinFns α} (hg : S b = some g)
    {ins outs : List NodeId} (hpins : b.model.pins = (ins ++ outs).map some) (hlen : ins.length = g.arity)
    : e ∈ pinEquations S b ↔ ∃ (j : Nat) (o : NodeId) (f : List α → α),
      outs[j]? = some o ∧ g.fns[j]? = some f ∧ e = apply o ins f := by
  have hnone : none ∉ b.model.pins := by simp [hpins]
  have htake : (b.model.pins.take g.arity).reduceOption = ins := by
    rw [hpins, ← map_take, take_left' hlen]
    exact (map_injective_iff.mpr (Option.some_injective _)) (map_some_reduceOption (by simp))
  have hdrop : ∀ (j : Nat) (n : NodeId), b.model.pins[g.arity + j]? = some (some n) ↔ outs[j]? = some n := by
    intro j n
    rw [hpins, getElem?_map, ← hlen, getElem?_append_right (Nat.le_add_right _ _),
      Nat.add_sub_cancel_left]
    simp
  rw [mem_pinEquations]
  constructor
  · rintro ⟨g', hg', -, j, n, f, hn, hf, rfl⟩
    cases hg.symm.trans hg'
    rw [htake]
    exact ⟨j, n, f, (hdrop j n).mp hn, hf, rfl⟩
  · rintro ⟨j, o, f, ho, hf, rfl⟩
    refine ⟨g, hg, hnone, j, o, f, (hdrop j o).mpr ho, hf, ?_⟩
    rw [htake]

section

variable {S : PinSemantics α} {nl : Netlist} {b : ModelBase} {g : PinFns α} (ins outs : List NodeId)
  (j : Nat) {o : NodeId} {f : List α → α}

theorem value_of_pins {v : NodeId → α} (hv : Solves (system S nl) v) (hb : b ∈ nl.bases)
    (hg : S b = some g) (hpins : b.model.pins = (ins ++ outs).map some) (hlen : ins.length = g.arity)
    (ho : outs[j]? = some o) (hf : g.fns[j]? = some f) : v o = f (ins.map v) :=
  hv (apply o ins f)
    (mem_system.mpr ⟨b, hb, (mem_pinEquations_of_pins hg hpins hlen).mpr ⟨j, o, f, ho, hf, rfl⟩⟩)

theorem rank_of_pins (hrank : Ranked (system S nl) rank) (hb : b ∈ nl.bases) (hg : S b = some g)
    (hpins : b.model.pins = (ins ++ outs).map some) (hlen : ins.length = g.arity) (ho : outs[j]? = some o)
    (hf : g.fns[j]? = some f) {d : NodeId} (hd : d ∈ ins) : rank d < rank o :=
  hrank (apply o ins f)
    (mem_system.mpr ⟨b, hb, (mem_pinEquations_of_pins hg hpins hlen).mpr ⟨j, o, f, ho, hf, rfl⟩⟩) d hd

end

/-- A rank of the nodes that grows from the input pins of every model to its output pins. -/
def RanksPins (rank : NodeId → Nat) (nl : Netlist) : Prop :=
  ∀ b ∈ nl.bases, ∀ d ∈ b.model.pins.zipIdx, ∀ t ∈ b.model.pins.zipIdx,
    isOutputPin b.model.kind d.2 b.model.pins.length = false →
    isOutputPin b.model.kind t.2 b.model.pins.length = true →
    ∀ x y, d.1 = some x → t.1 = some y → rank x < rank y

theorem RanksPins.ranked {nl : Netlist} (h : RanksPins rank nl) {S : PinSemantics α}
    (hpinned : ∀ b ∈ nl.bases, WellPinned S b) : Ranked (system S nl) rank := by
  intro e he d hd
  obtain ⟨b, hb, he⟩ := mem_system.mp he
  obtain ⟨j, hj, hout⟩ := (hpinned b hb).target he
  obtain ⟨k, hk, hin⟩ := (hpinned b hb).dep he hd
  exact h b hb (some d, k) (mem_zipIdx_iff_getElem?.mpr hk) (some e.target, j)
    (mem_zipIdx_iff_getElem?.mpr hj) hin hout d e.target rfl rfl

theorem isSome_of_mem_system {S : PinSemantics α} {nl : Netlist} (hs : Sound nl)
    (hpinned : ∀ b ∈ nl.bases, WellPinned S b) (he : e ∈ system S nl) :
    (nl.node? e.target).isSome ∧ ∀ d ∈ e.deps, (nl.node? d).isSome := by
  obtain ⟨b, hb, he⟩ := mem_system.mp he
  constructor
  · obtain ⟨k, hk, -⟩ := (hpinned b hb).target he
    exact hs.isSome_node? hb (List.mem_of_getElem? hk)
  · intro d hd
    obtain ⟨k, hk, -⟩ := (hpinned b hb).dep he hd
    exact hs.isSome_node? hb (List.mem_of_getElem? hk)

theorem solves_of_eq_on_nodes {S : PinSemantics α} {nl : Netlist} (hs : Sound nl)
    (hpinned : ∀ b ∈ nl.bases, WellPinned S b) {u v : NodeId → α} (hv : Solves (system S nl) v)
    (heq : ∀ n, (nl.node? n).isSome → u n = v n) : Solves (system S nl) u := by
  intro e he
  obtain ⟨htarget, hdeps⟩ := isSome_of_mem_system hs hpinned he
  rw [heq _ htarget, hv e he]
  exact e.reads v u fun d hd => (heq d (hdeps d hd)).symm

section Moves

variable {S : PinSemantics α} {nl : Netlist} {moves : List (NodeId × NodeId)} {b : ModelBase}

variable {g : PinFns α}

theorem pinOut_of_pinned (hs : Sound nl) (hb : b ∈ nl.bases) (hpinned : WellPinned S b)
    (hg : S b = some g) {k : Nat} (hk : k < b.model.pins.length) : nl.pinOut ⟨b.id, k⟩ = decide (g.arity ≤ k) := by
  rw [hs.pinOut_eq hb, decide_eq_true hk, Bool.true_and, hpinned.outputs g hg k hk]

theorem take_followPins (hs : Sound nl) (hb : b ∈ nl.bases) (hpinned : WellPinned S b)
    (hg : S b = some g) : (followPins nl.pinOut moves b).model.pins.take g.arity
      = (b.model.pins.take g.arity).map (Option.map (follow moves)) := by
  refine ext_getElem (by simp) fun k hk hk' => ?_
  simp only [length_take, length_map, lt_min_iff] at hk'
  simp only [followPins, getElem_take, getElem_mapIdx, getElem_map]
  rw [pinOut_of_pinned hs hb hpinned hg hk'.2, decide_eq_false (by omega)]
  rfl

variable {e : Equation NodeId α}

/-- An equation of a model whose consumer pins were moved is the old one with the moves on
what it reads. -/
theorem exists_of_mem_followPins (hs : Sound nl) (hS : IgnoresPins S) (hb : b ∈ nl.bases)
    (hpinned : WellPinned S b)
    (he : e ∈ pinEquations S (followPins nl.pinOut moves b)) :
    ∃ deps f, apply e.target deps f ∈ pinEquations S b ∧
      e = apply e.target (deps.map (follow moves)) f := by
  obtain ⟨g, hg, hnone, j, n, f, hn, hf, rfl⟩ := mem_pinEquations.mp he
  have hgb : S b = some g := by
    rw [← hg]
    exact (hS b _).symm
  have htarget : b.model.pins[g.arity + j]? = some (some n) := by
    rw [getElem?_followPins] at hn
    obtain ⟨p, hp, hn⟩ := Option.map_eq_some_iff.mp hn
    rw [pinOut_of_pinned hs hb hpinned hgb (List.getElem?_eq_some_iff.mp hp).1,
      decide_eq_true (Nat.le_add_right _ _), if_pos rfl] at hn
    rw [hp, hn]
  refine ⟨(b.model.pins.take g.arity).reduceOption, f, mem_pinEquations.mpr ⟨g, hgb,
    hpinned.connected g hgb n (List.mem_of_getElem? htarget), j, n, f, htarget, hf, rfl⟩, ?_⟩
  rw [take_followPins hs hb hpinned hgb, reduceOption_map_option]
  rfl

theorem exists_mem_followPins (moves : List (NodeId × NodeId)) (hs : Sound nl) (hS : IgnoresPins S) (hb : b ∈ nl.bases)
    (hpinned : WellPinned S b) (he : e ∈ pinEquations S b) :
    ∃ e' ∈ pinEquations S (followPins nl.pinOut moves b),
      e'.target = e.target ∧ e'.deps = e.deps.map (follow moves) := by
  obtain ⟨g, hg, hnone, j, n, f, hn, hf, rfl⟩ := mem_pinEquations.mp he
  have hg' : S (followPins nl.pinOut moves b) = some g := (hS b _).trans hg
  have hnone' : none ∉ (followPins nl.pinOut moves b).model.pins := by
    intro hmem
    obtain ⟨k, hk⟩ := mem_iff_getElem?.mp hmem
    rw [getElem?_followPins] at hk
    obtain ⟨p, hp, hk⟩ := Option.map_eq_some_iff.mp hk
    have hpnone : p = none := by
      split at hk
      · exact hk
      · simpa using hk
    exact hnone (hpnone ▸ List.mem_of_getElem? hp)
  have htarget : (followPins nl.pinOut moves b).model.pins[g.arity + j]? = some (some n) := by
    rw [getElem?_followPins, hn, pinOut_of_pinned hs hb hpinned hg (List.getElem?_eq_some_iff.mp hn).1,
      decide_eq_true (Nat.le_add_right _ _)]
    rfl
  refine ⟨_, mem_pinEquations.mpr ⟨g, hg', hnone', j, n, f, htarget, hf, rfl⟩, rfl, ?_⟩
  rw [take_followPins hs hb hpinned hg, reduceOption_map_option]
  rfl

end Moves

namespace Rewired

variable {S : PinSemantics α} {nl cur : Netlist} {moves : List (NodeId × NodeId)}
  {deleted : List Nat} {news : List ModelBase}

section

variable (hs : Sound nl) (hS : IgnoresPins S) (hpinned : ∀ b ∈ nl.bases, WellPinned S b)
  (h : Rewired nl moves deleted news cur)

include hs hS hpinned h

/-- The equations of the netlist are those of the models that are left, with the moves on
what they read, and those of the new models. -/
theorem system_cases {e : Equation NodeId α} (he : e ∈ system S cur) :
    (∃ b ∈ nl.bases, b.id ∉ deleted ∧ ∃ deps f, apply e.target deps f ∈ pinEquations S b ∧
      e = apply e.target (deps.map (follow moves)) f) ∨
    ∃ b ∈ news, e ∈ pinEquations S b := by
  obtain ⟨c, hc, he⟩ := mem_system.mp he
  rw [h.bases] at hc
  rcases mem_append.mp hc with hc | hc
  · obtain ⟨b, hb, rfl⟩ := mem_map.mp hc
    obtain ⟨hb, hd⟩ := mem_filter.mp hb
    exact .inl ⟨b, hb, by simpa using hd, exists_of_mem_followPins hs hS hb (hpinned b hb) he⟩
  · exact .inr ⟨c, hc, he⟩

variable {u : NodeId → α}

/-- Moves between nodes of one value leave a valuation a solution; of the old equations only
those that are left matter. -/
theorem solves_of_left
    (hu : ∀ b ∈ nl.bases, b.id ∉ deleted → ∀ e ∈ pinEquations S b, u e.target = e.fn u)
    (hmoves : ∀ m ∈ moves, u m.1 = u m.2) (hnews : ∀ b ∈ news, ∀ e ∈ pinEquations S b, u e.target = e.fn u) :
    Solves (system S cur) u := by
  intro e he
  rcases h.system_cases hs hS hpinned he with ⟨b, hb, hd, deps, f, hold, heq⟩ | ⟨b, hb, he⟩
  · have hval := hu b hb hd _ hold
    rw [heq]
    simp only [apply] at hval ⊢
    rw [hval, List.map_map]
    congr 1
    exact map_congr_left fun d _ => (apply_follow hmoves d).symm
  · exact hnews b hb e he

theorem solves (hu : Solves (system S nl) u) (hmoves : ∀ m ∈ moves, u m.1 = u m.2)
    (hnews : ∀ b ∈ news, ∀ e ∈ pinEquations S b, u e.target = e.fn u) : Solves (system S cur) u :=
  h.solves_of_left hs hS hpinned (fun b hb _ e he => hu e (mem_system.mpr ⟨b, hb, he⟩)) hmoves hnews

end

/-- Moves that do not raise a place leave the places growing along the equations; of the old
equations only those that are left matter. -/
theorem grows_of_left {β : Type*} [Preorder β] (hs : Sound nl) (hS : IgnoresPins S)
    (hpinned : ∀ b ∈ nl.bases, WellPinned S b) (h : Rewired nl moves deleted news cur) {place : NodeId → β}
    (hold : ∀ b ∈ nl.bases, b.id ∉ deleted → ∀ e ∈ pinEquations S b, ∀ d ∈ e.deps, place d < place e.target)
    (hmoves : ∀ m ∈ moves, place m.2 ≤ place m.1)
    (hnews : ∀ b ∈ news, ∀ e ∈ pinEquations S b, ∀ d ∈ e.deps, place d < place e.target) :
    ∀ e ∈ system S cur, ∀ d ∈ e.deps, place d < place e.target := by
  intro e he d hd
  rcases h.system_cases hs hS hpinned he with ⟨b, hb, hdel, deps, f, hmem, heq⟩ | ⟨b, hb, he⟩
  · rw [heq] at hd
    obtain ⟨d₀, hd₀, rfl⟩ := mem_map.mp (show d ∈ deps.map (follow moves) from hd)
    exact (rank_follow_le hmoves d₀).trans_lt (hold b hb hdel _ hmem d₀ hd₀)
  · exact hnews b hb e he d hd

/-- Moves that do not raise a rank leave the system ranked; of the old equations only those that
are left matter. -/
theorem ranked_of_left (hs : Sound nl) (hS : IgnoresPins S) (hpinned : ∀ b ∈ nl.bases, WellPinned S b)
    (h : Rewired nl moves deleted news cur)
    (hrank : ∀ b ∈ nl.bases, b.id ∉ deleted → ∀ e ∈ pinEquations S b, ∀ d ∈ e.deps, rank d < rank e.target)
    (hmoves : ∀ m ∈ moves, rank m.2 ≤ rank m.1)
    (hnews : ∀ b ∈ news, ∀ e ∈ pinEquations S b, ∀ d ∈ e.deps, rank d < rank e.target) :
    Ranked (system S cur) rank :=
  h.grows_of_left hs hS hpinned hrank hmoves hnews

theorem ranked (hs : Sound nl) (hS : IgnoresPins S) (hpinned : ∀ b ∈ nl.bases, WellPinned S b)
    (h : Rewired nl moves deleted news cur) (hrank : Ranked (system S nl) rank)
    (hmoves : ∀ m ∈ moves, rank m.2 ≤ rank m.1)
    (hnews : ∀ b ∈ news, ∀ e ∈ pinEquations S b, ∀ d ∈ e.deps, rank d < rank e.target) :
    Ranked (system S cur) rank :=
  h.ranked_of_left hs hS hpinned (fun b hb _ e he => hrank e (mem_system.mpr ⟨b, hb, he⟩)) hmoves hnews

end Rewired

/-- The netlist `nl'` settles, on one valuation, and on the values that `nl` settles on at
every observed node. -/
def SameFunction (background : NodeId → α) (nl nl' : Netlist)
    (observed : NodeId → Prop) : Prop :=
  ∀ v, Settled (system S nl) background v → ∃ v', Settled (system S nl') background v' ∧
    (∀ w, Settled (system S nl') background w → w = v') ∧ ∀ n, observed n → v' n = v n

def Observed (prot : List NodeId) (nl nl' : Netlist) (n : NodeId) : Prop :=
  (nl.node? n).isSome ∧ (n ∈ prot ∨ ∃ p, nl'.ConsumerPin p n)

section

variable {S : PinSemantics α} {nl cur : Netlist} {background : NodeId → α}

theorem driven_of_driverPin (hs : Sound nl) {b : ModelBase} (hb : b ∈ nl.bases) (hpinned : WellPinned S b)
    {g : PinFns α} (hg : S b = some g) {p : PinRef} (hid : b.id = p.id) (hp : nl.DriverPin p n) :
    Driven (system S nl) n := by
  have hpb : p = ⟨b.id, p.k⟩ := by rw [hid]
  obtain ⟨hout, hpoint⟩ := hp
  rw [hpb] at hout hpoint
  rw [hs.points_iff_pin hb] at hpoint
  rw [hs.pinOut_eq hb, Bool.and_eq_true] at hout
  obtain ⟨e, he, htarget⟩ := hpinned.exists_equation hg hpoint hout.2
  exact ⟨e, mem_system.mpr ⟨b, hb, he⟩, htarget⟩

theorem exists_driverPin_of_driven (hs : Sound nl) (hpinned : ∀ b ∈ nl.bases, WellPinned S b)
    (h : Driven (system S nl) n) :
    ∃ b ∈ nl.bases, ∃ k, (S b).isSome ∧ nl.DriverPin ⟨b.id, k⟩ n := by
  obtain ⟨e, he, rfl⟩ := h
  obtain ⟨b, hb, he⟩ := mem_system.mp he
  obtain ⟨k, hk, hout⟩ := (hpinned b hb).target he
  obtain ⟨g, hg, -⟩ := mem_pinEquations.mp he
  refine ⟨b, hb, k, by simp [hg], ?_, (hs.points_iff_pin hb k _).mpr hk⟩
  rw [hs.pinOut_eq hb, decide_eq_true (List.getElem?_eq_some_iff.mp hk).1, hout]
  rfl

end

theorem eq_of_target {S : PinSemantics α} {nl : Netlist} (hs : Sound nl) (hsingle : SingleDriverPins nl)
    (hpinned : ∀ b ∈ nl.bases, WellPinned S b) {e' : Equation NodeId α} (he : e ∈ system S nl)
    (he' : e' ∈ system S nl) (htarget : e.target = e'.target) : e = e' := by
  have hdriver : ∀ b ∈ nl.bases, ∀ g, S b = some g → ∀ j n, b.model.pins[g.arity + j]? = some (some n) →
      nl.DriverPin ⟨b.id, g.arity + j⟩ n := by
    intro b hb g hg j n hn
    have hlt := (List.getElem?_eq_some_iff.mp hn).1
    refine ⟨?_, (hs.points_iff_pin hb _ _).mpr hn⟩
    rw [hs.pinOut_eq hb, decide_eq_true hlt, (hpinned b hb).outputs g hg _ hlt, Bool.true_and]
    exact decide_eq_true (Nat.le_add_right _ _)
  obtain ⟨b, hb, heb⟩ := mem_system.mp he
  obtain ⟨c, hc, hec⟩ := mem_system.mp he'
  obtain ⟨g, hg, -, j, n, f, hn, hf, rfl⟩ := mem_pinEquations.mp heb
  obtain ⟨g', hg', -, j', n', f', hn', hf', rfl⟩ := mem_pinEquations.mp hec
  obtain rfl : n = n' := htarget
  have hpin := hsingle _ _ _ (hdriver b hb g hg j n hn) (hdriver c hc g' hg' j' n hn')
  obtain rfl := hs.eq_of_id hb hc (congrArg PinRef.id hpin)
  cases hg.symm.trans hg'
  have hj : j = j' := Nat.add_left_cancel (congrArg PinRef.k hpin)
  rw [hj] at hf
  cases hf.symm.trans hf'
  rfl

/-- After the pass every observed node still has a driver, or never had one. -/
def ReadersDriven (prot : List NodeId) (nl nl' : Netlist) : Prop :=
  ∀ n, Observed prot nl nl' n → (∃ p, nl.DriverPin p n) → ∃ p, nl'.DriverPin p n

namespace Rewired

variable {S : PinSemantics α} {nl cur : Netlist} {moves : List (NodeId × NodeId)}
  {deleted : List Nat} {news : List ModelBase} {background : NodeId → α}

theorem pinned (hS : IgnoresPins S) (hpinned : ∀ b ∈ nl.bases, WellPinned S b)
    (hnews : ∀ b ∈ news, WellPinned S b) (h : Rewired nl moves deleted news cur) :
    ∀ b ∈ cur.bases, WellPinned S b := by
  intro c hc
  rw [h.bases] at hc
  rcases mem_append.mp hc with hc | hc
  · obtain ⟨b, hb, rfl⟩ := mem_map.mp hc
    have hb := hpinned b (mem_of_mem_filter hb)
    have hSb : S (followPins nl.pinOut moves b) = S b := hS b _
    constructor
    · intro g hg n hn hnone
      obtain ⟨k, hk⟩ := mem_iff_getElem?.mp hnone
      obtain ⟨j, hj⟩ := mem_iff_getElem?.mp hn
      rw [getElem?_followPins] at hk hj
      obtain ⟨p, hp, hk⟩ := Option.map_eq_some_iff.mp hk
      obtain ⟨q, hq, hj⟩ := Option.map_eq_some_iff.mp hj
      have hpnone : p = none := by
        split at hk
        · exact hk
        · simpa using hk
      have hqsome : ∃ m, q = some m := by
        split at hj
        · exact ⟨n, hj⟩
        · obtain ⟨m, hm, -⟩ := Option.map_eq_some_iff.mp hj
          exact ⟨m, hm⟩
      obtain ⟨m, rfl⟩ := hqsome
      exact hb.connected g (hSb ▸ hg) m (List.mem_of_getElem? hq)
        (hpnone ▸ List.mem_of_getElem? hp)
    · intro g hg
      rw [length_followPins]
      exact hb.length g (hSb ▸ hg)
    · intro g hg
      rw [length_followPins]
      exact hb.outputs g (hSb ▸ hg)
  · exact hnews c hc

variable {b : ModelBase}

theorem mem_bases_old (h : Rewired nl moves deleted news cur) (hb : b ∈ nl.bases) (hd : b.id ∉ deleted) :
    followPins nl.pinOut moves b ∈ cur.bases := by
  rw [h.bases]
  exact mem_append_left _ (mem_map_of_mem (mem_filter.mpr ⟨hb, by simpa using hd⟩))

theorem mem_bases_new (h : Rewired nl moves deleted news cur) (hb : b ∈ news) :
    b ∈ cur.bases := by
  rw [h.bases]
  exact mem_append_right _ hb

section

variable (hs : Sound nl) (h : Rewired nl moves deleted news cur) (hb : b ∈ nl.bases) (hd : b.id ∉ deleted) (k : Nat)

include hs h hb hd k

theorem pinOut_old : cur.pinOut ⟨b.id, k⟩ = nl.pinOut ⟨b.id, k⟩ := by
  have hcur := h.sound.pinOut_eq (h.mem_bases_old hb hd) k
  rw [followPins_id, length_followPins, followPins_kind] at hcur
  rw [hcur, hs.pinOut_eq hb]

theorem driverPin_old (n : NodeId) :
    cur.DriverPin ⟨b.id, k⟩ n ↔ nl.DriverPin ⟨b.id, k⟩ n := by
  rw [DriverPin, DriverPin, h.pinOut_old hs hb hd]
  refine and_congr_right fun htrue => ?_
  rw [h.points_old hb hd, hs.points_iff_pin hb]
  constructor
  · rintro ⟨m, hm, heq⟩
    rw [if_pos htrue] at heq
    rw [hm, heq]
  · intro hk
    exact ⟨n, hk, by rw [if_pos htrue]⟩

theorem consumerPin_old (n : NodeId) :
    cur.ConsumerPin ⟨b.id, k⟩ n ↔ nl.pinOut ⟨b.id, k⟩ = false ∧
      ∃ m, b.model.pins[k]? = some (some m) ∧ follow moves m = n := by
  rw [ConsumerPin, h.pinOut_old hs hb hd, h.points_old hb hd]
  refine and_congr_right fun hfalse => ?_
  rw [hfalse]
  rfl

end

/-- A node loses its driver when the model of the driver is deleted and no new model drives
the node. -/
theorem lost_iff (hs : Sound nl) (hsingle : SingleDriverPins nl) (h : Rewired nl moves deleted news cur)
    (n : NodeId) : ((∃ p, nl.DriverPin p n) ∧ ¬ ∃ p, cur.DriverPin p n) ↔
      (∃ b ∈ nl.bases, b.id ∈ deleted ∧ ∃ k, nl.DriverPin ⟨b.id, k⟩ n) ∧
        ∀ b ∈ news, ∀ k, ¬ cur.DriverPin ⟨b.id, k⟩ n := by
  constructor
  · rintro ⟨⟨p, hp⟩, hlost⟩
    obtain ⟨b, hb, hid, -⟩ := hp.2
    have hpb : p = ⟨b.id, p.k⟩ := by rw [hid]
    rw [hpb] at hp
    refine ⟨⟨b, hb, ?_, p.k, hp⟩, fun c _ k hc => hlost ⟨_, hc⟩⟩
    by_contra hd
    exact hlost ⟨_, (h.driverPin_old hs hb hd _ _).mpr hp⟩
  · rintro ⟨⟨b, hb, hd, k, hp⟩, hnew⟩
    refine ⟨⟨_, hp⟩, ?_⟩
    rintro ⟨q, hq⟩
    rcases h.points_cases hq.2 with ⟨c, hc, hcd, hid⟩ | ⟨c, hc, hid, -⟩
    · have hqc : q = ⟨c.id, q.k⟩ := by rw [hid]
      rw [hqc] at hq
      have hsame := congrArg PinRef.id (hsingle _ _ n ((h.driverPin_old hs hc hcd _ _).mp hq) hp)
      exact hcd (by rw [show c.id = b.id from hsame]; exact hd)
    · have hqc : q = ⟨c.id, q.k⟩ := by rw [hid]
      rw [hqc] at hq
      exact hnew c hc q.k hq

variable {prot : List NodeId}

/-- The readers are driven when no pin of a model that is left, and none of a new model, is
on a node that lost its driver. -/
theorem readersDriven_iff (hs : Sound nl) (h : Rewired nl moves deleted news cur)
    {lost : NodeId → Prop}
    (hlost : ∀ n, ((∃ p, nl.DriverPin p n) ∧ ¬ ∃ p, cur.DriverPin p n) ↔ lost n)
    (hprot : ∀ n ∈ prot, ¬ lost n) :
    ReadersDriven prot nl cur ↔
      (∀ b ∈ nl.bases, b.id ∉ deleted → ∀ k n, b.model.pins[k]? = some (some n) →
        nl.pinOut ⟨b.id, k⟩ = false → ¬ lost (follow moves n)) ∧
      ∀ b ∈ news, ∀ k n, cur.ConsumerPin ⟨b.id, k⟩ n → ¬ lost n := by
  have hnode : ∀ n, lost n → (nl.node? n).isSome := by
    intro n hn
    obtain ⟨⟨p, -, b, hb, -, hk⟩, -⟩ := (hlost n).mpr hn
    exact hs.isSome_node? hb (List.mem_of_getElem? hk)
  have hno : ReadersDriven prot nl cur → ∀ p n, cur.ConsumerPin p n → ¬ lost n := by
    intro hdriven p n hp hn
    obtain ⟨hold, hgone⟩ := (hlost n).mpr hn
    exact hgone (hdriven n ⟨hnode n hn, .inr ⟨p, hp⟩⟩ hold)
  constructor
  · intro hdriven
    refine ⟨fun b hb hd k n hk hout => ?_, fun b _ k n hp => hno hdriven _ n hp⟩
    exact hno hdriven _ _ ((h.consumerPin_old hs hb hd k _).mpr ⟨hout, n, hk, rfl⟩)
  · rintro ⟨hold, hnew⟩ n ⟨-, hread⟩ hdriver
    by_contra hgone
    have hn : lost n := (hlost n).mp ⟨hdriver, hgone⟩
    rcases hread with hp | ⟨p, hp⟩
    · exact hprot n hp hn
    · rcases h.points_cases hp.2 with ⟨b, hb, hd, hid⟩ | ⟨b, hb, hid, -⟩
      · have hpb : p = ⟨b.id, p.k⟩ := by rw [hid]
        rw [hpb] at hp
        obtain ⟨hout, m, hm, rfl⟩ := (h.consumerPin_old hs hb hd _ _).mp hp
        exact hold b hb hd p.k m hm hout hn
      · have hpb : p = ⟨b.id, p.k⟩ := by rw [hid]
        rw [hpb] at hp
        exact hnew b hb p.k n hp hn

/-- A node that is read where it has a driver, or never had one, is driven in the new
system or has its background value. -/
theorem driven_or_background (hs : Sound nl) (hsingle : SingleDriverPins nl) (hS : IgnoresPins S)
    (hpinned : ∀ b ∈ nl.bases, WellPinned S b) (hnewsPinned : ∀ b ∈ news, WellPinned S b)
    (hnewsSome : ∀ b ∈ news, (S b).isSome) (h : Rewired nl moves deleted news cur) {v : NodeId → α}
    (hv : Settled (system S nl) background v) (hn : (∃ p, nl.DriverPin p n) → ∃ p, cur.DriverPin p n) :
    Driven (system S cur) n ∨ v n = background n := by
  have hpinned' := h.pinned hS hpinned hnewsPinned
  by_cases hdriven : Driven (system S nl) n
  · obtain ⟨b, hb, k, hsome, hpin⟩ := exists_driverPin_of_driven hs hpinned hdriven
    obtain ⟨p, hp⟩ := hn ⟨_, hpin⟩
    rcases h.points_cases hp.2 with ⟨c, hc, hcd, hid⟩ | ⟨c, hc, hid, -⟩
    · have hpc : p = ⟨c.id, p.k⟩ := by rw [hid]
      rw [hpc] at hp
      have hold := (h.driverPin_old hs hc hcd p.k n).mp hp
      have hsame := hsingle _ _ n hold hpin
      have hcb : c = b := hs.eq_of_id hc hb (congrArg PinRef.id hsame)
      subst hcb
      have hmem := h.mem_bases_old hc hcd
      obtain ⟨g, hg⟩ := Option.isSome_iff_exists.mp hsome
      have hSc : S (followPins nl.pinOut moves c) = some g := (hS c _).trans hg
      exact .inl (driven_of_driverPin h.sound hmem (hpinned' _ hmem) hSc rfl hp)
    · have hmem := h.mem_bases_new hc
      obtain ⟨g, hg⟩ := Option.isSome_iff_exists.mp (hnewsSome c hc)
      exact .inl (driven_of_driverPin h.sound hmem (hpinned' _ hmem) hg hid hp)
  · exact .inr (hv.rest n hdriven)

/-- A pass that moves readers between nodes of one value, and leaves no reader on a node
that lost its driver, keeps the function. `u` gives the new nodes a value as well. -/
theorem sameFunction (hs : Sound nl) (hsingle : SingleDriverPins nl) (hS : IgnoresPins S)
    (hpinned : ∀ b ∈ nl.bases, WellPinned S b) (hnewsPinned : ∀ b ∈ news, WellPinned S b)
    (hnewsSome : ∀ b ∈ news, (S b).isSome) (h : Rewired nl moves deleted news cur) (hrank : Ranked (system S cur) rank)
    (hreaders : ReadersDriven prot nl cur)
    (hval : ∀ v, Settled (system S nl) background v → ∃ u : NodeId → α, Solves (system S cur) u ∧
    (∀ n, Observed prot nl cur n → u n = v n) ∧ ∀ n, ¬ (nl.node? n).isSome → Driven (system S cur) n ∨
      u n = background n)
    :
    SameFunction S background nl cur (Observed prot nl cur) := by
  intro v hv
  obtain ⟨u, hu, hold, hnew⟩ := hval v hv
  have hread : ∀ n, (n ∈ prot ∨ ∃ p, cur.ConsumerPin p n) →
      Driven (system S cur) n ∨ u n = background n := by
    intro n hn
    by_cases hsome : (nl.node? n).isSome
    · rw [hold n ⟨hsome, hn⟩]
      exact h.driven_or_background hs hsingle hS hpinned hnewsPinned hnewsSome hv
        fun hdriver => hreaders n ⟨hsome, hn⟩ hdriver
    · exact hnew n hsome
  have hdeps : ∀ e ∈ system S cur, ∀ d ∈ e.deps, Driven (system S cur) d ∨ u d = background d := by
    intro e he d hd
    obtain ⟨c, hc, he⟩ := mem_system.mp he
    obtain ⟨k, hk, hout⟩ := (h.pinned hS hpinned hnewsPinned c hc).dep he hd
    refine hread d (.inr ⟨⟨c.id, k⟩, ?_, (h.sound.points_iff_pin hc k d).mpr hk⟩)
    rw [h.sound.pinOut_eq hc, hout, Bool.and_false]
  refine ⟨restrict (system S cur) background u, Settled.restrict hu hdeps,
    fun w hw => hw.unique hrank (Settled.restrict hu hdeps), ?_⟩
  rintro n ⟨hsome, hn⟩
  rw [← hold n ⟨hsome, hn⟩]
  rcases hread n hn with hdriven | heq
  · exact restrict_of_driven hdriven
  · by_cases hdriven : Driven (system S cur) n
    · exact restrict_of_driven hdriven
    · rw [restrict_of_not_driven hdriven, heq]

end Rewired

end Netlist

end PhyEngine
