import PhyEngine.Synth.Candidates

/-!
# Double inverters

`optimize_eliminate_double_not_in_pe_netlist`: the readers of an inverter `outer` go to the input
of `inner`, noted at the start, or a `YES` buffer drives a protected output. `plan` is the run on
the noted inverters alone and decides (`doubleNot_keepsStates_iff`).
-/

namespace PhyEngine

open Equations Netlist List

namespace DoubleNot

structure NotGate where
  pos : ModelPos
  inn : NodeId
  out : NodeId
  outPin : PinRef
  deriving DecidableEq

def notOf (m : ModelBase) (pos : ModelPos) : Option NotGate :=
  match m.model.kind, m.model.pins with
  | .not, [some a, some o] => some ⟨pos, a, o, ⟨m.id, 1⟩⟩
  | _, _ => none

def notGates (nl : Netlist) : List NotGate := nl.gather notOf

def notByOut (nots : List NotGate) (n : NodeId) : Option NotGate := nots.find? fun g => g.out = n

/-- The branch of a protected output: a `YES` buffer takes the place of the pair. -/
def collapse (st : Netlist × Bool) (outer inner : NotGate) : Netlist × Bool :=
  let nl := (st.1.deleteModel outer.pos).1
  let nl := (nl.deleteModel inner.pos).1
  let added := nl.addModel ⟨.yes, "", [], [none, none]⟩
  let first := added.1.addToNode added.2 0 inner.inn
  if first.2 = false then ((first.1.deleteModel added.2).1, st.2)
  else
    let second := first.1.addToNode added.2 1 outer.out
    if second.2 = false then ((second.1.deleteModel added.2).1, st.2) else (second.1, true)

/-- The body of the loop, with `changed`; `snap` is the netlist at the start. -/
def step (prot : List NodeId) (snap : Netlist) (nots : List NotGate) (st : Netlist × Bool)
    (outer : NotGate) : Netlist × Bool :=
  if st.1.hasUniqueDriverPin snap.pinOut outer.out outer.outPin = false then st
  else
    match notByOut nots outer.inn with
    | none => st
    | some inner =>
      if inner.out ∈ prot then st
      else if fanCount true snap inner.out ≠ 1 ∨ fanCount false snap inner.out ≠ 1 then st
      else if st.1.hasUniqueDriverPin snap.pinOut inner.out inner.outPin = false then st
      else if outer.out ∈ prot then collapse st outer inner
      else
        let moved := st.1.moveConsumers snap.pinOut prot outer.out inner.inn
        if moved.2 then ((((moved.1.deleteModel outer.pos).1).deleteModel inner.pos).1, true)
        else (moved.1, st.2)

def optimizeEliminateDoubleNot (prot : List NodeId) (nl : Netlist) : Netlist × Bool :=
  (notGates nl).foldl (step prot nl (notGates nl)) (nl, false)

/-- The moves of readers, the removed models, and the `YES` buffers with the place of their
input and their output. -/
structure Plan where
  moves : List (NodeId × NodeId) := []
  removed : List Nat := []
  yes : List (NodeId × NodeId) := []

section

variable (prot : List NodeId) (nl : Netlist) (nots : List NotGate)

def innerOf (removed : List Nat) (outer : NotGate) : Option NotGate :=
  if outer.outPin.id ∈ removed then none
  else (notByOut nots outer.inn).filter fun inner =>
    inner.out ∉ prot ∧ fanCount true nl inner.out = 1 ∧ fanCount false nl inner.out = 1 ∧
      inner.outPin.id ∉ removed

def planStep (p : Plan) (outer : NotGate) : Plan :=
  match innerOf prot nl nots p.removed outer with
  | none => p
  | some inner =>
    if outer.out ∈ prot then
      { p with
        removed := inner.outPin.id :: outer.outPin.id :: p.removed
        yes := p.yes ++ [(inner.inn, outer.out)] }
    else
      { moves := p.moves ++ [(outer.out, inner.inn)]
        removed := inner.outPin.id :: outer.outPin.id :: p.removed
        yes := p.yes.map fun y => (if y.1 = outer.out then inner.inn else y.1, y.2) }

def plan : Plan := (notGates nl).foldl (planStep prot nl (notGates nl)) {}

/-- The output of a removed inverter that got no `YES` buffer. -/
def Lost (p : Plan) (n : NodeId) : Prop :=
  n ∉ prot ∧ ∃ g ∈ nots, g.outPin.id ∈ p.removed ∧ g.out = n

/-- No reader that stays and no new buffer reads the output of a removed inverter. -/
def ReadersStayDriven : Prop :=
  (∀ m ∈ nl.bases, m.id ∉ (plan prot nl).removed →
    ∀ pk ∈ m.model.pins.zipIdx, nl.pinOut ⟨m.id, pk.2⟩ = false → ∀ n, pk.1 = some n →
      ¬ Lost prot (notGates nl) (plan prot nl)
        (follow (plan prot nl).moves n)) ∧
  ∀ y ∈ (plan prot nl).yes,
    ¬ Lost prot (notGates nl) (plan prot nl) y.1

end

structure Names (nl : Netlist) (g : NotGate) (m : ModelBase) : Prop where
  getModel : nl.getModel g.pos = some m
  kind : m.model.kind = .not
  pins : m.model.pins = [some g.inn, some g.out]
  outPin : g.outPin = ⟨m.id, 1⟩

theorem names_of_mem {nl : Netlist} {g : NotGate} (hg : g ∈ notGates nl) : ∃ m, Names nl g m := by
  obtain ⟨pos, m, hm, hrec⟩ := mem_gather.mp hg
  unfold notOf at hrec
  split at hrec
  · rename_i a o hkind hpins
    cases hrec
    exact ⟨m, hm, hkind, hpins, rfl⟩
  · cases hrec

theorem nodup_notGates {nl : Netlist} (h : Sound nl) : ((notGates nl).map fun g => g.outPin.id).Nodup := by
  refine h.nodup_gather notOf (fun g : NotGate => g.outPin.id) ?_
  intro m pos g hg
  unfold notOf at hg
  split at hg
  · cases hg
    rfl
  · cases hg

def Linked (nl : Netlist) (x y : NodeId) : Prop :=
  ∃ b ∈ nl.bases, ∃ c ∈ nl.bases, ∃ mid, b.model.kind = .not ∧ b.model.pins = [some x, some mid] ∧
    c.model.kind = .not ∧ c.model.pins = [some mid, some y]

section

variable {nl : Netlist} {g inner outer : NotGate} {m mi mo : ModelBase}

theorem Names.driver (h : LogicNetlist nl) (hg : Names nl g m) : nl.DriverPin g.outPin g.out := by
  have hmem := mem_bases hg.getModel
  rw [hg.outPin]
  refine ⟨?_, (h.sound.points_iff_pin hmem 1 _).mpr (by simp [hg.pins])⟩
  rw [h.sound.pinOut_eq hmem, hg.kind, hg.pins]
  rfl

theorem Names.isSome_inn (h : LogicNetlist nl) (hg : Names nl g m) : (nl.node? g.inn).isSome :=
  h.sound.isSome_node? (mem_bases hg.getModel) (by simp [hg.pins])

theorem Names.isSome_out (h : LogicNetlist nl) (hg : Names nl g m) : (nl.node? g.out).isSome :=
  h.sound.isSome_node? (mem_bases hg.getModel) (by simp [hg.pins])

theorem Names.linked (hi : Names nl inner mi) (ho : Names nl outer mo) (hmid : inner.out = outer.inn) :
    Linked nl inner.inn outer.out :=
  ⟨mi, mem_bases hi.getModel, mo, mem_bases ho.getModel, inner.out, hi.kind,
    hi.pins, ho.kind, by rw [ho.pins, hmid]⟩

variable {x y : NodeId}

theorem Linked.value (h : LogicNetlist nl) (hl : Linked nl x y) {σ : Nat → LogicT} (hσ : KnownInputs σ nl)
    {v : NodeId → LogicT} (hv : Settled (system (stateFns σ) nl) (fun _ => .X) v) : v y = v x := by
  obtain ⟨b, hb, c, hc, mid, hbk, hbp, hck, hcp⟩ := hl
  have hx := h.state_ne_Z hσ hv x
  rw [solves_one hv.solves hc (f := LogicT.logicNot) (by rw [hck]; rfl) hcp,
    solves_one hv.solves hb (f := LogicT.logicNot) (by rw [hbk]; rfl) hbp]
  cases hvx : v x <;> first | rfl | exact absurd hvx hx

theorem Linked.rank_lt {rank : NodeId → Nat} (hl : Linked nl x y)
    (hrank : Ranked (system (stateFns fun _ => .X) nl) rank) : rank x < rank y := by
  obtain ⟨b, hb, c, hc, mid, hbk, hbp, hck, hcp⟩ := hl
  have hone : ∀ d ∈ nl.bases, ∀ p q, d.model.kind = .not → d.model.pins = [some p, some q] → rank p < rank q := by
    intro d hd p q hk hp
    have heq := pinEquations_one (σ := fun _ => .X) (f := LogicT.logicNot) (by rw [hk]; rfl) hp
    exact hrank _ (mem_system.mpr ⟨d, hd, by rw [heq]; exact mem_singleton_self _⟩) p
      (by simp [Equation.apply])
  exact Nat.lt_trans (hone b hb x mid hbk hbp) (hone c hc mid y hck hcp)

theorem Linked.ne (h : LogicNetlist nl) (hl : Linked nl x y) : y ≠ x := by
  rintro rfl
  obtain ⟨rank, hrank⟩ := h.acyclic
  exact Nat.lt_irrefl _ (hl.rank_lt (hrank _))

end

structure Progress (prot : List NodeId) (nl : Netlist) (p : Plan) (cur : Netlist)
    (news : List ModelBase) : Prop where
  rewired : Rewired nl p.moves p.removed news cur
  news : List.Forall₂ (fun b y => b.model = ⟨.yes, "", [], [some y.1, some y.2]⟩) news p.yes
  moves : ∀ mv ∈ p.moves, Linked nl mv.2 mv.1
  yes : ∀ y ∈ p.yes, Relation.TransGen (Linked nl) y.1 y.2
  removed : ∀ id ∈ p.removed, ∃ g ∈ notGates nl, g.outPin.id = id
  buffered : ∀ y ∈ p.yes, y.2 ∈ prot ∧ ∃ g ∈ notGates nl, g.outPin.id ∈ p.removed ∧ g.out = y.2
  covered : ∀ g ∈ notGates nl, g.outPin.id ∈ p.removed → g.out ∈ prot → ∃ y ∈ p.yes, y.2 = g.out
  nodup : (p.yes.map Prod.snd).Nodup

section Run

variable {prot : List NodeId} {nl cur : Netlist} {p : Plan} {news : List ModelBase}
  {inner outer : NotGate} {mi mo : ModelBase}

theorem innerOf_eq_some {removed : List Nat} {nots : List NotGate}
    (h : innerOf prot nl nots removed outer = some inner) : outer.outPin.id ∉ removed ∧
      notByOut nots outer.inn = some inner ∧ inner.out = outer.inn ∧ inner.out ∉ prot ∧
      fanCount true nl inner.out = 1 ∧ fanCount false nl inner.out = 1 ∧ inner.outPin.id ∉ removed := by
  unfold innerOf at h
  split at h
  · cases h
  · rename_i hnew
    rw [Option.filter_eq_some_iff] at h
    have hfound : inner.out = outer.inn := by simpa using find?_some h.1
    have hcond := of_decide_eq_true h.2
    exact ⟨hnew, h.1, hfound, hcond⟩

section

variable (h : LogicNetlist nl)
include h

theorem Progress.unique_iff (hp : Progress prot nl p cur news)
    {g : NotGate} {m : ModelBase} (hg : Names nl g m) :
    cur.hasUniqueDriverPin nl.pinOut g.out g.outPin = true ↔ g.outPin.id ∉ p.removed := by
  have hmem := mem_bases hg.getModel
  have hdriver := hg.driver h
  rw [hg.outPin] at hdriver ⊢
  exact hp.rewired.hasUniqueDriverPin_iff h.sound h.single hmem hdriver.1
    ((h.sound.points_iff_pin hmem _ _).mp hdriver.2)

section

variable (hp : Progress prot nl p cur news)
include hp

omit h in
theorem Progress.removed_pair (hi : inner ∈ notGates nl)
    (ho : outer ∈ notGates nl) : ∀ id ∈ inner.outPin.id :: outer.outPin.id :: p.removed,
      ∃ g ∈ notGates nl, g.outPin.id = id := by
  intro id hid
  rcases mem_cons.mp hid with rfl | hid
  · exact ⟨inner, hi, rfl⟩
  rcases mem_cons.mp hid with rfl | hid
  · exact ⟨outer, ho, rfl⟩
  · exact hp.removed id hid

omit hp in
theorem eq_of_id {g g' : NotGate} (hg : g ∈ notGates nl) (hg' : g' ∈ notGates nl)
    (hid : g.outPin.id = g'.outPin.id) : g = g' :=
  inj_on_of_nodup_map (nodup_notGates h.sound) hg hg' hid

omit hp in
theorem eq_of_out {g g' : NotGate} (hg : g ∈ notGates nl) (hg' : g' ∈ notGates nl)
    (hout : g.out = g'.out) : g = g' := by
  obtain ⟨m, hm⟩ := names_of_mem hg
  obtain ⟨m', hm'⟩ := names_of_mem hg'
  have hpin := h.single _ _ _ (hm.driver h) (hout ▸ hm'.driver h)
  exact eq_of_id h hg hg' (congrArg PinRef.id hpin)

omit hp in
theorem pair_ne (hi : inner ∈ notGates nl) (ho : outer ∈ notGates nl) (hlink : Linked nl inner.inn outer.out)
    (hmid : inner.out = outer.inn) : inner.outPin.id ≠ outer.outPin.id := by
  intro heq
  rw [eq_of_id h hi ho heq] at hmid hlink
  exact hlink.ne h hmid

theorem Progress.collapse
    (hi : inner ∈ notGates nl) (ho : outer ∈ notGates nl)
    (hpair : innerOf prot nl (notGates nl) p.removed outer = some inner)
    (hprot : outer.out ∈ prot) (changed : Bool) :
    ∃ news', Progress prot nl (planStep prot nl (notGates nl) p outer)
      (DoubleNot.collapse (cur, changed) outer inner).1 news' := by
  obtain ⟨hnewo, -, hmid, hinnerprot, -, -, hnewi⟩ := innerOf_eq_some hpair
  obtain ⟨mi, hni⟩ := names_of_mem hi
  obtain ⟨mo, hno⟩ := names_of_mem ho
  have hidi : inner.outPin.id = mi.id := by rw [hni.outPin]
  have hido : outer.outPin.id = mo.id := by rw [hno.outPin]
  have hlink := hni.linked hno hmid
  have hne := pair_ne h hi ho hlink hmid
  have hdel₁ := hp.rewired.delete h.sound hno.getModel (hido ▸ hnewo)
  have hdel₂ := hdel₁.delete h.sound hni.getModel (by
    rw [mem_cons, not_or, ← hidi, ← hido]
    exact ⟨hne, hnewi⟩)
  set nl₂ := ((cur.deleteModel outer.pos).1.deleteModel inner.pos).1 with hnl₂
  have hc₀ := Connecting.start hdel₂.sound ⟨.yes, "", [], [none, none]⟩ 2 rfl
  obtain ⟨hok₁, hc₁⟩ := hc₀.step (hdel₂.isSome_node? (hni.isSome_inn h))
  obtain ⟨hok₂, hc₂⟩ := hc₁.step (hdel₂.isSome_node? (hno.isSome_out h))
  simp only [nil_append, length_nil, length_singleton, singleton_append] at hok₁ hc₁ hok₂ hc₂
  have hadd := hdel₂.addConnected rfl hc₂
  have hcollapse : (DoubleNot.collapse (cur, changed) outer inner).1 =
      (((nl₂.addModel ⟨.yes, "", [], [none, none]⟩).1.addToNode
        (nl₂.addModel ⟨.yes, "", [], [none, none]⟩).2 0 inner.inn).1.addToNode
          (nl₂.addModel ⟨.yes, "", [], [none, none]⟩).2 1 outer.out).1 := by
    unfold DoubleNot.collapse
    dsimp only
    rw [← hnl₂, if_neg (by simp [hok₁]), if_neg (by simp [hok₂])]
  have hplan : planStep prot nl (notGates nl) p outer =
      { p with
        removed := inner.outPin.id :: outer.outPin.id :: p.removed
        yes := p.yes ++ [(inner.inn, outer.out)] } := by
    unfold planStep
    rw [hpair]
    exact if_pos hprot
  rw [hcollapse, hplan]
  refine ⟨news ++ [⟨nl₂.nextId, ⟨.yes, "", [], [inner.inn, outer.out].map some⟩⟩], ?_, ?_, hp.moves, ?_,
    hp.removed_pair hi ho, ?_, ?_, ?_⟩
  · rw [hidi, hido]
    exact hadd
  · exact rel_append hp.news (.cons rfl .nil)
  · intro y hy
    rcases mem_append.mp hy with hy | hy
    · exact hp.yes y hy
    · rw [mem_singleton.mp hy]
      exact .single hlink
  · intro y hy
    rcases mem_append.mp hy with hy | hy
    · obtain ⟨hyp, g, hg, hgr, hgo⟩ := hp.buffered y hy
      exact ⟨hyp, g, hg, mem_cons_of_mem _ (mem_cons_of_mem _ hgr), hgo⟩
    · rw [mem_singleton.mp hy]
      exact ⟨hprot, outer, ho, by simp, rfl⟩
  · intro g hg hgr hgp
    rcases mem_cons.mp hgr with hid | hgr
    · rw [eq_of_id h hg hi hid] at hgp
      exact absurd hgp hinnerprot
    rcases mem_cons.mp hgr with hid | hgr
    · exact ⟨(inner.inn, outer.out), by simp, by rw [eq_of_id h hg ho hid]⟩
    · obtain ⟨y, hy, hyo⟩ := hp.covered g hg hgr hgp
      exact ⟨y, mem_append_left _ hy, hyo⟩
  · rw [map_append]
    refine nodup_append.mpr ⟨hp.nodup, by simp, ?_⟩
    intro a ha b hb hab
    obtain ⟨y, hy, rfl⟩ := mem_map.mp ha
    obtain ⟨-, g, hg, hgr, hgo⟩ := hp.buffered y hy
    have hb' : b = outer.out := by simpa using hb
    have hsame := eq_of_out h hg ho (by rw [hgo, hab, hb'])
    rw [hsame] at hgr
    exact hnewo hgr

theorem Progress.retarget_news
    {src : NodeId} (hsrc : src ∉ prot) (dst : NodeId) :
    List.Forall₂ (fun b y => b.model = ⟨.yes, "", [], [some y.1, some y.2]⟩)
      (news.map (retarget nl.pinOut src dst))
      (p.yes.map fun y => (if y.1 = src then dst else y.1, y.2)) := by
  have hfresh := hp.rewired.fresh
  have hbuf := hp.buffered
  have hnews := hp.news
  generalize p.yes = ys at hbuf hnews ⊢
  clear hp
  induction hnews with
  | nil => exact .nil
  | @cons b y news ys hby _ ih =>
    refine .cons ?_ (ih (fun c hc => hfresh c (mem_cons_of_mem _ hc))
      fun y' hy' => hbuf y' (mem_cons_of_mem _ hy'))
    have hout : ∀ k, nl.pinOut ⟨b.id, k⟩ = false := fun k =>
      h.sound.pinOut_eq_false (hfresh b mem_cons_self)
    have hprot := (hbuf y mem_cons_self).1
    have hne : y.2 ≠ src := by
      rintro rfl
      exact hsrc hprot
    simp only [retarget, hby, hout]
    by_cases hy : y.1 = src <;> simp [hy, hne]

theorem Progress.move
    (hi : inner ∈ notGates nl) (ho : outer ∈ notGates nl)
    (hpair : innerOf prot nl (notGates nl) p.removed outer = some inner)
    (hprot : outer.out ∉ prot) :
    (cur.moveConsumers nl.pinOut prot outer.out inner.inn).2 = true ∧
      ∃ news', Progress prot nl (planStep prot nl (notGates nl) p outer)
        ((((cur.moveConsumers nl.pinOut prot outer.out inner.inn).1.deleteModel
          outer.pos).1).deleteModel inner.pos).1 news' := by
  obtain ⟨hnewo, -, hmid, hinnerprot, -, -, hnewi⟩ := innerOf_eq_some hpair
  obtain ⟨mi, hni⟩ := names_of_mem hi
  obtain ⟨mo, hno⟩ := names_of_mem ho
  have hidi : inner.outPin.id = mi.id := by rw [hni.outPin]
  have hido : outer.outPin.id = mo.id := by rw [hno.outPin]
  have hlink := hni.linked hno hmid
  have hne := pair_ne h hi ho hlink hmid
  obtain ⟨htrue, hmoved⟩ := hp.rewired.moveDelete h.sound hno.getModel (hido ▸ hnewo) (hlink.ne h) hprot
    (hno.isSome_out h) (hp.rewired.isSome_node? (hni.isSome_inn h))
  have hdel := hmoved.delete h.sound hni.getModel (by
    rw [mem_cons, not_or, ← hidi, ← hido]
    exact ⟨hne, hnewi⟩)
  have hplan : planStep prot nl (notGates nl) p outer =
      { moves := p.moves ++ [(outer.out, inner.inn)]
        removed := inner.outPin.id :: outer.outPin.id :: p.removed
        yes := p.yes.map fun y => (if y.1 = outer.out then inner.inn else y.1, y.2) } := by
    unfold planStep
    rw [hpair]
    exact if_neg hprot
  have hsnd : (p.yes.map fun y => (if y.1 = outer.out then inner.inn else y.1, y.2)).map Prod.snd =
      p.yes.map Prod.snd := by
    rw [List.map_map]
    rfl
  rw [hplan]
  refine ⟨htrue, news.map (retarget nl.pinOut outer.out inner.inn), ?_, hp.retarget_news h hprot _, ?_, ?_,
    hp.removed_pair hi ho, ?_, ?_, ?_⟩
  · rw [hidi, hido]
    exact hdel
  · intro mv hmv
    rcases mem_append.mp hmv with hmv | hmv
    · exact hp.moves mv hmv
    · rw [mem_singleton.mp hmv]
      exact hlink
  · intro y hy
    obtain ⟨y', hy', rfl⟩ := mem_map.mp hy
    have htrans := hp.yes y' hy'
    dsimp only
    split
    · rename_i heq
      rw [heq] at htrans
      exact Relation.TransGen.head hlink htrans
    · exact htrans
  · intro y hy
    obtain ⟨y', hy', rfl⟩ := mem_map.mp hy
    obtain ⟨hyp, g, hg, hgr, hgo⟩ := hp.buffered y' hy'
    exact ⟨hyp, g, hg, mem_cons_of_mem _ (mem_cons_of_mem _ hgr), hgo⟩
  · intro g hg hgr hgp
    rcases mem_cons.mp hgr with hid | hgr
    · rw [eq_of_id h hg hi hid] at hgp
      exact absurd hgp hinnerprot
    rcases mem_cons.mp hgr with hid | hgr
    · rw [eq_of_id h hg ho hid] at hgp
      exact absurd hgp hprot
    · obtain ⟨y, hy, hyo⟩ := hp.covered g hg hgr hgp
      exact ⟨_, mem_map_of_mem hy, hyo⟩
  · rw [hsnd]
    exact hp.nodup

theorem Progress.step
    (ho : outer ∈ notGates nl) (changed : Bool) :
    ∃ news', Progress prot nl (planStep prot nl (notGates nl) p outer)
      (step prot nl (notGates nl) (cur, changed) outer).1 news' := by
  obtain ⟨mo, hno⟩ := names_of_mem ho
  have hskip : innerOf prot nl (notGates nl) p.removed outer = none →
      planStep prot nl (notGates nl) p outer = p := by
    intro hnone
    unfold planStep
    rw [hnone]
  have hunique := hp.unique_iff h hno
  unfold DoubleNot.step
  by_cases hnewo : outer.outPin.id ∈ p.removed
  · have hfalse : cur.hasUniqueDriverPin nl.pinOut outer.out outer.outPin = false := by
      rw [Bool.eq_false_iff]
      exact fun htrue => hunique.mp htrue hnewo
    rw [if_pos hfalse, hskip (by rw [innerOf, if_pos hnewo])]
    exact ⟨news, hp⟩
  rw [if_neg (by simp [hunique.mpr hnewo])]
  cases hfind : notByOut (notGates nl) outer.inn with
  | none =>
    rw [hskip (by rw [innerOf, if_neg hnewo, hfind]; rfl)]
    exact ⟨news, hp⟩
  | some inner =>
    have hi : inner ∈ notGates nl := mem_of_find?_eq_some hfind
    obtain ⟨mi, hni⟩ := names_of_mem hi
    have huniquei := hp.unique_iff h hni
    have hinner : innerOf prot nl (notGates nl) p.removed outer =
        (some inner).filter fun inner => inner.out ∉ prot ∧ fanCount true nl inner.out = 1 ∧
          fanCount false nl inner.out = 1 ∧ inner.outPin.id ∉ p.removed := by
      rw [innerOf, if_neg hnewo, hfind]
    dsimp only
    by_cases hprot : inner.out ∈ prot
    · rw [if_pos hprot, hskip (by rw [hinner]; simp [Option.filter, hprot])]
      exact ⟨news, hp⟩
    rw [if_neg hprot]
    by_cases hfan : fanCount true nl inner.out ≠ 1 ∨ fanCount false nl inner.out ≠ 1
    · rw [if_pos hfan, hskip (by rw [hinner]; rcases hfan with hfan | hfan <;> simp [Option.filter, hfan])]
      exact ⟨news, hp⟩
    rw [if_neg hfan]
    rw [not_or, not_not, not_not] at hfan
    by_cases hnewi : inner.outPin.id ∈ p.removed
    · have hfalse : cur.hasUniqueDriverPin nl.pinOut inner.out inner.outPin = false := by
        rw [Bool.eq_false_iff]
        exact fun htrue => huniquei.mp htrue hnewi
      rw [if_pos hfalse, hskip (by rw [hinner]; simp [Option.filter, hnewi])]
      exact ⟨news, hp⟩
    rw [if_neg (by simp [huniquei.mpr hnewi])]
    have hpair : innerOf prot nl (notGates nl) p.removed outer = some inner := by
      rw [hinner]
      simp [Option.filter, hprot, hfan, hnewi]
    by_cases houtp : outer.out ∈ prot
    · rw [if_pos houtp]
      exact hp.collapse h hi ho hpair houtp changed
    · rw [if_neg houtp]
      obtain ⟨htrue, news', hp'⟩ := hp.move h hi ho hpair houtp
      rw [if_pos htrue]
      exact ⟨news', hp'⟩

theorem exists_progress
    (todo : List NotGate) (htodo : ∀ g ∈ todo, g ∈ notGates nl) (changed : Bool) :
    ∃ news', Progress prot nl (todo.foldl (planStep prot nl (notGates nl)) p)
      (todo.foldl (DoubleNot.step prot nl (notGates nl)) (cur, changed)).1 news' := by
  induction todo generalizing p cur news changed with
  | nil => exact ⟨news, hp⟩
  | cons g todo ih =>
    obtain ⟨news', hp'⟩ := hp.step h (htodo g mem_cons_self) changed
    exact ih hp' (fun g' hg' => htodo g' (mem_cons_of_mem _ hg')) _

end

end

section Final

variable (h : LogicNetlist nl) (hp : Progress prot nl p cur news)

include h hp

omit h in
theorem buffer_of_new {b : ModelBase} (hb : b ∈ news) :
    ∃ y ∈ p.yes, b.model = ⟨.yes, "", [], [some y.1, some y.2]⟩ := by
  have hnews := hp.news
  generalize p.yes = ys at hnews ⊢
  clear hp
  induction hnews with
  | nil => cases hb
  | cons hby _ ih =>
    rcases mem_cons.mp hb with rfl | hb
    · exact ⟨_, mem_cons_self, hby⟩
    · obtain ⟨y, hy, heq⟩ := ih hb
      exact ⟨y, mem_cons_of_mem _ hy, heq⟩

variable {y : NodeId × NodeId}

omit h in
theorem new_of_buffer (hy : y ∈ p.yes) :
    ∃ b ∈ news, b.model = ⟨.yes, "", [], [some y.1, some y.2]⟩ := by
  have hnews := hp.news
  generalize p.yes = ys at hnews hy
  clear hp
  induction hnews with
  | nil => cases hy
  | cons hby _ ih =>
    rcases mem_cons.mp hy with rfl | hy
    · exact ⟨_, mem_cons_self, hby⟩
    · obtain ⟨b, hb, heq⟩ := ih hy
      exact ⟨b, mem_cons_of_mem _ hb, heq⟩

omit h in
theorem pin_new {b : ModelBase} (hb : b ∈ news) {k : Nat} {n : NodeId} (hk : b.model.pins[k]? = some (some n)) :
    ∃ y ∈ p.yes, b.model = ⟨.yes, "", [], [some y.1, some y.2]⟩ ∧
      ((k = 0 ∧ n = y.1 ∧ cur.pinOut ⟨b.id, k⟩ = false) ∨ (k = 1 ∧ n = y.2 ∧ cur.pinOut ⟨b.id, k⟩ = true)) := by
  obtain ⟨y, hy, hmodel⟩ := buffer_of_new hp hb
  refine ⟨y, hy, hmodel, ?_⟩
  have hout := hp.rewired.sound.pinOut_eq (hp.rewired.mem_bases_new hb) k
  rw [hmodel] at hout hk
  match k with
  | 0 => exact .inl ⟨rfl, by simpa [eq_comm] using hk, hout⟩
  | 1 => exact .inr ⟨rfl, by simpa [eq_comm] using hk, hout⟩
  | k + 2 => simp at hk

theorem lost_iff (n : NodeId) : ((∃ q, nl.DriverPin q n) ∧ ¬ ∃ q, cur.DriverPin q n) ↔
    Lost prot (notGates nl) p n := by
  rw [hp.rewired.lost_iff h.sound h.single]
  constructor
  · rintro ⟨⟨b, hb, hdel, k, hold⟩, hnone⟩
    obtain ⟨g, hg, hid⟩ := hp.removed _ hdel
    obtain ⟨m, hm⟩ := names_of_mem hg
    have hmid : m.id = b.id := by rw [← hid, hm.outPin]
    have hmb : m = b := h.sound.eq_of_id (mem_bases hm.getModel) hb hmid
    subst hmb
    have hdriver := hm.driver h
    rw [hm.outPin] at hdriver
    have hk := h.eq_of_pinOut hb (by rw [hm.kind]; rfl) hdriver.1 hold.1
    rw [hk] at hdriver
    have hout := h.sound.points_unique hdriver.2 hold.2
    refine ⟨fun hprot => ?_, g, hg, hid ▸ hdel, hout⟩
    obtain ⟨y, hy, hyo⟩ := hp.covered g hg (hid ▸ hdel) (hout ▸ hprot)
    obtain ⟨c, hc, hmodel⟩ := new_of_buffer hp hy
    have hpin : c.model.pins[1]? = some (some n) := by rw [hmodel, ← hout, ← hyo]; rfl
    obtain ⟨y', -, -, ⟨hk0, -⟩ | ⟨-, -, htrue⟩⟩ := pin_new hp hc hpin
    · cases hk0
    · exact hnone c hc 1 ⟨htrue, (hp.rewired.sound.points_iff_pin (hp.rewired.mem_bases_new hc) 1 n).mpr hpin⟩
  · rintro ⟨hprot, g, hg, hgr, rfl⟩
    obtain ⟨m, hm⟩ := names_of_mem hg
    have hdriver := hm.driver h
    have hid : g.outPin.id = m.id := by rw [hm.outPin]
    rw [hm.outPin] at hdriver
    refine ⟨⟨m, mem_bases hm.getModel, hid ▸ hgr, 1, hdriver⟩, fun b hb k hnew => ?_⟩
    have hpin := (hp.rewired.sound.points_iff_pin (hp.rewired.mem_bases_new hb) _ _).mp hnew.2
    obtain ⟨y, hy, -, ⟨-, -, hfalse⟩ | ⟨-, hyo, -⟩⟩ := pin_new hp hb hpin
    · rw [hnew.1] at hfalse
      cases hfalse
    · rw [hyo] at hprot
      exact hprot (hp.buffered y hy).1

theorem singleDriverPins : SingleDriverPins cur := by
  intro q q' n hq hq'
  have hcases : ∀ r, cur.DriverPin r n → (∃ b ∈ nl.bases, b.id ∉ p.removed ∧ b.id = r.id ∧ nl.DriverPin r n) ∨
      ∃ b ∈ news, r = ⟨b.id, 1⟩ ∧ ∃ y ∈ p.yes, b.model = ⟨.yes, "", [], [some y.1, some y.2]⟩ ∧ n = y.2 := by
    intro r hr
    rcases hp.rewired.points_cases hr.2 with ⟨b, hb, hd, hid⟩ | ⟨b, hb, hid, hk⟩
    · have hrb : r = ⟨b.id, r.k⟩ := by rw [hid]
      refine .inl ⟨b, hb, hd, hid, ?_⟩
      rw [hrb] at hr ⊢
      exact (hp.rewired.driverPin_old h.sound hb hd _ _).mp hr
    · obtain ⟨y, hy, hmodel, ⟨-, -, hfalse⟩ | ⟨hk1, hn, -⟩⟩ := pin_new hp hb hk
      · rw [hid, hr.1] at hfalse
        cases hfalse
      · exact .inr ⟨b, hb, by rw [hid, ← hk1], y, hy, hmodel, hn⟩
  have hmixed : ∀ r y, y ∈ p.yes → n = y.2 → ∀ b ∈ nl.bases, b.id ∉ p.removed → b.id = r.id →
      ¬ nl.DriverPin r n := by
    rintro r y hy rfl b hb hd hid hr
    obtain ⟨-, g, hg, hgr, hgo⟩ := hp.buffered y hy
    obtain ⟨m, hm⟩ := names_of_mem hg
    have hpin := h.single _ _ _ hr (hgo ▸ hm.driver h)
    rw [hid, hpin] at hd
    exact hd hgr
  rcases hcases q hq with ⟨b, hb, hd, hid, hold⟩ | ⟨b, hb, rfl, y, hy, hmodel, hn⟩ <;>
    rcases hcases q' hq' with ⟨b', hb', hd', hid', hold'⟩ | ⟨b', hb', rfl, y', hy', hmodel', hn'⟩
  · exact h.single _ _ _ hold hold'
  · exact absurd hold (hmixed q y' hy' hn' b hb hd hid)
  · exact absurd hold' (hmixed q' y hy hn b' hb' hd' hid')
  · -- Two buffers on one node are at one place of the plan.
    have hlen := hp.news.length_eq
    obtain ⟨i, hi, rfl⟩ := mem_iff_getElem.mp hb
    obtain ⟨j, hj, rfl⟩ := mem_iff_getElem.mp hb'
    have hmi := hp.news.get hi (by omega)
    have hmj := hp.news.get hj (by omega)
    simp only [get_eq_getElem] at hmi hmj
    have hiy : i < p.yes.length := by omega
    have hjy : j < p.yes.length := by omega
    have hi' : i < (p.yes.map Prod.snd).length := by simpa using hiy
    have hj' : j < (p.yes.map Prod.snd).length := by simpa using hjy
    have hsnd : (p.yes.map Prod.snd)[i] = (p.yes.map Prod.snd)[j] := by
      have hi2 : p.yes[i].2 = y.2 := by
        rw [hmi] at hmodel
        simp only [Model.mk.injEq, true_and, List.cons.injEq, Option.some.injEq, and_true] at hmodel
        exact hmodel.2
      have hj2 : p.yes[j].2 = y'.2 := by
        rw [hmj] at hmodel'
        simp only [Model.mk.injEq, true_and, List.cons.injEq, Option.some.injEq, and_true] at hmodel'
        exact hmodel'.2
      rw [getElem_map, getElem_map, hi2, hj2, ← hn, ← hn']
    have hij := (List.Nodup.getElem_inj_iff hp.nodup).mp hsnd
    subst hij
    rfl

theorem value_of_yes {σ : Nat → LogicT} (hσ : KnownInputs σ nl) {v : NodeId → LogicT}
    (hv : Settled (system (stateFns σ) nl) (fun _ => .X) v) (hy : y ∈ p.yes) :
    v y.2 = v y.1 := by
  have htrail := hp.yes y hy
  generalize y.2 = z at htrail ⊢
  induction htrail with
  | single hl => exact hl.value h hσ hv
  | tail _ hl ih => rw [hl.value h hσ hv, ih]

omit h in
theorem rank_of_yes {rank : NodeId → Nat} (hrank : Ranked (system (stateFns fun _ => .X) nl) rank) (hy : y ∈ p.yes) :
    rank y.1 < rank y.2 := by
  have htrail := hp.yes y hy
  generalize y.2 = z at htrail ⊢
  induction htrail with
  | single hl => exact hl.rank_lt hrank
  | tail _ hl ih => exact Nat.lt_trans ih (hl.rank_lt hrank)

theorem keepsStates (hreaders : ReadersDriven prot nl cur) : KeepsStates prot nl cur := by
  have hsingle := singleDriverPins h hp
  refine ⟨fun n hobs hdriver => ?_, fun σ hσ => ?_⟩
  · obtain ⟨q, hq⟩ := hreaders n hobs hdriver
    exact ⟨q, hq, fun q' hq' => hsingle q' q n hq' hq⟩
  · obtain ⟨rank, hrank⟩ := h.acyclic
    have hpinned : ∀ b ∈ nl.bases, WellPinned (stateFns σ) b := fun b hb => h.pinned hb
    have heqs : ∀ b ∈ news, ∃ y ∈ p.yes, pinEquations (stateFns σ) b =
        [Equation.apply y.2 [y.1] fun ins => (onOne id ins).getD 0 .X] := by
      intro b hb
      obtain ⟨y, hy, hmodel⟩ := buffer_of_new hp hb
      exact ⟨y, hy, pinEquations_one (by rw [hmodel]; rfl) (by rw [hmodel])⟩
    have hnewsPinned : ∀ b ∈ news, WellPinned (stateFns σ) b := by
      intro b hb
      obtain ⟨y, -, hmodel⟩ := buffer_of_new hp hb
      refine wellPinned_gate (.inr (.inr ?_)) ?_ fun _ => ?_ <;> rw [hmodel]
      · rfl
      · rfl
      · simp
    have hranked := hp.rewired.ranked h.sound (ignoresPins_stateFns σ) hpinned (hrank σ)
      (fun mv hmv => Nat.le_of_lt ((hp.moves mv hmv).rank_lt (hrank _))) (by
        intro b hb e he d hd
        obtain ⟨y, hy, heq⟩ := heqs b hb
        rw [heq, mem_singleton] at he
        subst he
        have hd : d = y.1 := by simpa [Equation.apply] using hd
        rw [hd]
        exact rank_of_yes hp (hrank _) hy)
    refine hp.rewired.sameFunction h.sound h.single (ignoresPins_stateFns σ) hpinned hnewsPinned ?_ hranked
      hreaders ?_
    · intro b hb
      obtain ⟨y, -, hmodel⟩ := buffer_of_new hp hb
      simp [stateFns, hmodel, ModelKind.gateFn]
    · intro v hv
      refine ⟨v, ?_, fun _ _ => rfl, fun n hn => .inr (hv.rest n ?_)⟩
      · refine hp.rewired.solves h.sound (ignoresPins_stateFns σ) hpinned hv.solves
          (fun mv hmv => (hp.moves mv hmv).value h hσ hv) ?_
        intro b hb e he
        obtain ⟨y, hy, heq⟩ := heqs b hb
        rw [heq, mem_singleton] at he
        rw [he]
        exact value_of_yes h hp hσ hv hy
      · rintro ⟨e, he, rfl⟩
        exact hn (isSome_of_mem_system h.sound hpinned he).1

end Final

variable (prot) in
theorem progress_plan (h : LogicNetlist nl) :
    ∃ news, Progress prot nl (plan prot nl) (optimizeEliminateDoubleNot prot nl).1 news :=
  exists_progress h ⟨.start h.sound h.digital, .nil, by simp, by simp, by simp, by simp, by simp, by simp⟩
    (notGates nl) (fun _ hg => hg) false

/-- The output of a removed inverter is protected, or its readers move, or only a removed inverter
reads it. -/
def RemovedOk (prot : List NodeId) (nl : Netlist) (p : Plan) : Prop :=
  ∀ id ∈ p.removed, ∃ g ∈ notGates nl, g.outPin.id = id ∧ (g.out ∈ prot ∨ (∃ mv ∈ p.moves, mv.1 = g.out) ∨
    fanCount false nl g.out = 1 ∧ ∃ outer ∈ notGates nl, outer.outPin.id ∈ p.removed ∧ outer.inn = g.out)

theorem removedOk_plan : RemovedOk prot nl (plan prot nl) := by
  refine foldlRecOn (notGates nl) _ (by simp [RemovedOk]) fun p hp outer ho => ?_
  unfold planStep
  split
  · exact hp
  · rename_i inner hinner
    obtain ⟨-, hfound, hout, -, -, hfan, -⟩ := innerOf_eq_some hinner
    have hkeep {p' : Plan} (hrem : p'.removed = inner.outPin.id :: outer.outPin.id :: p.removed)
        (hmoves : p.moves ⊆ p'.moves) (houter : outer.out ∈ prot ∨ ∃ mv ∈ p'.moves, mv.1 = outer.out) :
        RemovedOk prot nl p' := by
      rw [RemovedOk, hrem, forall_mem_cons, forall_mem_cons]
      refine ⟨⟨inner, mem_of_find?_eq_some hfound, rfl, .inr (.inr ⟨hfan, outer, ho, by simp, hout.symm⟩)⟩,
        ⟨outer, ho, rfl, houter.imp_right .inl⟩, fun id hid => ?_⟩
      obtain ⟨g, hg, hgid, hprot | ⟨mv, hmv, hsrc⟩ | ⟨hf, o, hmem, hgone, hread⟩⟩ := hp id hid
      · exact ⟨g, hg, hgid, .inl hprot⟩
      · exact ⟨g, hg, hgid, .inr (.inl ⟨mv, hmoves hmv, hsrc⟩)⟩
      · exact ⟨g, hg, hgid, .inr (.inr ⟨hf, o, hmem, by simp [hgone], hread⟩)⟩
    split_ifs with hprot
    · exact hkeep rfl (List.Subset.refl _) (.inl hprot)
    · exact hkeep rfl (subset_append_left _ _) (.inr ⟨_, mem_append_right _ (mem_singleton_self _), rfl⟩)

/-- The condition holds where no inverter stands in front of two in a row. -/
theorem readersStayDriven_of_apart (h : LogicNetlist nl) (hapart : ∀ x y w, Linked nl x y →
    ∀ b ∈ nl.bases, b.model.kind = .not → b.model.pins ≠ [some w, some x]) : ReadersStayDriven prot nl := by
  obtain ⟨news, hp⟩ := progress_plan prot h
  have hinput {x y : NodeId} (hl : Linked nl x y) {g : NotGate} (hg : g ∈ notGates nl) : g.out ≠ x := by
    rintro rfl
    obtain ⟨m, hm⟩ := names_of_mem hg
    exact hapart _ _ _ hl m (mem_bases hm.getModel) hm.kind hm.pins
  refine ⟨fun m hm hd pk hpk hpin n hn => ?_, fun y hy => ?_⟩
  · rintro ⟨hprot, g, hg, hid, hlost⟩
    obtain ⟨g', hg', hid', hcase⟩ := removedOk_plan _ hid
    obtain rfl := eq_of_id h hg' hg hid'
    rcases hcase with hcase | ⟨mv, hmv, hsrc⟩ | ⟨hfan, outer, ho, hgone, hread⟩
    · exact hprot (hlost ▸ hcase)
    · refine follow_ne_source (fun a ha c hc hac => ?_) n mv hmv (hsrc.trans hlost).symm
      obtain ⟨-, -, b, hb, mid, -, -, hk, hpins⟩ := hp.moves c hc
      exact hapart _ _ mid (hp.moves a ha) b hb hk (hac ▸ hpins)
    · rcases follow_eq_or_target (plan prot nl).moves n with heq | ⟨mv, hmv, heq⟩
      · -- the reader and the removed inverter are two readers of the node
        obtain ⟨mo, hmo⟩ := names_of_mem ho
        have hmem := mem_bases hmo.getModel
        have hown : nl.ConsumerPin ⟨m.id, pk.2⟩ g'.out := by
          refine ⟨hpin, (h.sound.points_iff_pin hm _ _).mpr ?_⟩
          rw [mem_zipIdx_iff_getElem?.mp hpk, hn, hlost, heq]
        have hother : nl.ConsumerPin ⟨mo.id, 0⟩ g'.out := by
          refine ⟨?_, (h.sound.points_iff_pin hmem _ _).mpr (by rw [hmo.pins, hread]; rfl)⟩
          rw [h.sound.pinOut_eq hmem, hmo.kind, hmo.pins]
          rfl
        have hsame : m.id = mo.id := congrArg PinRef.id (eq_of_fanCount_one hfan hown hother)
        rw [hmo.outPin] at hgone
        exact hd (hsame ▸ hgone)
      · exact hinput (hp.moves mv hmv) hg (hlost.trans heq.symm)
  · rintro ⟨-, g, hg, -, hout⟩
    obtain ⟨z, hz, -⟩ := Relation.TransGen.head'_iff.mp (hp.yes y hy)
    exact hinput hz hg hout

/-- The elimination of double inverters keeps the states if and only if neither a reader
that stays nor a new buffer is taken to the output of a removed inverter. -/
theorem doubleNot_keepsStates_iff (prot : List NodeId) (nl : Netlist) (h : LogicNetlist nl) :
    KeepsStates prot nl (optimizeEliminateDoubleNot prot nl).1 ↔
      ReadersStayDriven prot nl := by
  obtain ⟨news, hp⟩ := progress_plan prot h
  have hiff : ReadersDriven prot nl (optimizeEliminateDoubleNot prot nl).1 ↔
      ReadersStayDriven prot nl := by
    rw [hp.rewired.readersDriven_iff h.sound (lost_iff h hp) fun n hn hlost => hlost.1 hn]
    refine and_congr ⟨fun hold m hm hd pk hpk hout n hn => ?_, fun hold m hm hd k n hk hout => ?_⟩
      ⟨fun hnew y hy => ?_, fun hnew b hb k n hcons => ?_⟩
    · exact hold m hm hd pk.2 n (by rw [List.mem_zipIdx_iff_getElem?.mp hpk, hn]) hout
    · exact hold m hm hd (some n, k) (List.mem_zipIdx_iff_getElem?.mpr hk) hout n rfl
    · obtain ⟨b, hb, hmodel⟩ := new_of_buffer hp hy
      have hpin : b.model.pins[0]? = some (some y.1) := by rw [hmodel]; rfl
      obtain ⟨y', -, -, ⟨-, -, hfalse⟩ | ⟨hk, -⟩⟩ := pin_new hp hb hpin
      · exact hnew b hb 0 y.1 ⟨hfalse,
          (hp.rewired.sound.points_iff_pin (hp.rewired.mem_bases_new hb) 0 _).mpr hpin⟩
      · cases hk
    · have hpin := (hp.rewired.sound.points_iff_pin (hp.rewired.mem_bases_new hb) _ _).mp hcons.2
      obtain ⟨y, hy, -, ⟨-, hn, -⟩ | ⟨-, -, htrue⟩⟩ := pin_new hp hb hpin
      · rw [hn]
        exact hnew y hy
      · rw [hcons.1] at htrue
        cases htrue
  constructor
  · intro hkeeps
    exact hiff.mp fun n hobs hdriver => (hkeeps.driver n hobs hdriver).exists
  · intro hstay
    exact keepsStates h hp (hiff.mpr hstay)

end Run

/-- Four inverters in a row, in the order of the chain, with an `OUTPUT` at the end. -/
def fourNots : Netlist := .ofModels 5 [.port .input [0] "x" [.digital .L], .on .not [0, 1],
  .on .not [1, 2], .on .not [2, 3], .on .not [3, 4], .port .output [4] "y" []]

theorem logicNetlist_fourNots : LogicNetlist fourNots :=
  logicNetlist_of_check NodeId.index
    (by decide +kernel) (by decide +kernel) (by decide +kernel)

theorem doubleNot_keepsStates_fourNots :
    KeepsStates [.node 2] fourNots (optimizeEliminateDoubleNot [.node 2] fourNots).1 ↔
      ReadersStayDriven [.node 2] fourNots :=
  doubleNot_keepsStates_iff [.node 2] fourNots logicNetlist_fourNots

/-- The `OUTPUT` ends on the output of the second inverter, which the first pair removed. -/
theorem doubleNot_fourNots_undriven : LogicNetlist fourNots ∧
    ¬ KeepsStates [] fourNots (optimizeEliminateDoubleNot [] fourNots).1 := by
  refine ⟨logicNetlist_fourNots, fun hkeeps => ?_⟩
  have hpins : allPins (optimizeEliminateDoubleNot [] fourNots).1 =
      [(⟨0, 0⟩, .node 0), (⟨5, 0⟩, .node 2)] := by decide +kernel
  have hout : (optimizeEliminateDoubleNot [] fourNots).1.pinOut ⟨5, 0⟩ = false := by decide +kernel
  have hread : (optimizeEliminateDoubleNot [] fourNots).1.ConsumerPin ⟨5, 0⟩ (.node 2) :=
    ⟨hout, mem_allPins.mp (by rw [hpins]; simp)⟩
  have hdriver : fourNots.DriverPin ⟨2, 1⟩ (.node 2) :=
    ⟨by decide +kernel, mem_allPins.mp (by decide +kernel)⟩
  obtain ⟨q, hq, -⟩ := hkeeps.driver (.node 2) ⟨rfl, .inr ⟨_, hread⟩⟩ ⟨_, hdriver⟩
  have hmem := mem_allPins.mpr hq.2
  rw [hpins] at hmem
  have hq5 : q = ⟨5, 0⟩ := by simpa using hmem
  have hqout := hq.1
  rw [hq5, hout] at hqout
  cases hqout

end DoubleNot

end PhyEngine
