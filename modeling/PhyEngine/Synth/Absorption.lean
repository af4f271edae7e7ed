import PhyEngine.Synth.Candidates

/-!
# Absorption

`optimize_absorption_in_pe_netlist`: the readers of a parent `AND` or `OR` go to its plain input
or to the inner gate. The plain input is the one noted at the start. `plan` is the run on the
noted gates alone and decides (`absorption_keepsStates_iff`).
-/

namespace PhyEngine

open Equations Netlist

namespace Absorption

inductive Kind
  | andGate
  | orGate
  deriving DecidableEq

def Kind.modelKind : Kind → ModelKind
  | andGate => .and
  | orGate => .or

structure BinGate where
  k : Kind
  pos : ModelPos
  in0 : Option NodeId
  in1 : Option NodeId
  out : NodeId
  outPin : PinRef

def classify (m : ModelBase) (pos : ModelPos) : Option BinGate :=
  match m.model.kind, m.model.pins with
  | .and, [a, b, some o] => some ⟨.andGate, pos, a, b, o, ⟨m.id, 2⟩⟩
  | .or, [a, b, some o] => some ⟨.orGate, pos, a, b, o, ⟨m.id, 2⟩⟩
  | _, _ => none

def binGates (nl : Netlist) : List BinGate := nl.gather classify

def gateByOut (gates : List BinGate) (n : NodeId) : Option BinGate := gates.find? fun g => g.out = n

/-- The model at the noted position is there and has the noted name. -/
def stillThere (nl : Netlist) (g : BinGate) : Bool :=
  match nl.getModel g.pos with
  | none => false
  | some m => decide (m.model.kind = g.k.modelKind)

/-- `try_rewrite`, over the test whether a gate is still there. -/
def tryRewrite (there : BinGate → Bool) (gates : List BinGate) (pg : BinGate) (plain subexpr : NodeId) :
    Option NodeId :=
  match gateByOut gates subexpr with
  | none => none
  | some cg =>
    match cg.in0, cg.in1 with
    | some x, some y =>
      if there cg = false then none
      else if plain = x ∨ plain = y then some (if pg.k = cg.k then cg.out else plain)
      else none
    | _, _ => none

def rep (there : BinGate → Bool) (gates : List BinGate) (pg : BinGate) (in0 in1 : NodeId) : Option NodeId :=
  match tryRewrite there gates pg in0 in1 with
  | some n => some n
  | none => tryRewrite there gates pg in1 in0

variable (prot : List NodeId)

/-- The body of the loop, with `changed`; `snap` is the netlist at the start. -/
def step (snap : Netlist) (gates : List BinGate) (st : Netlist × Bool)
    (pg : BinGate) : Netlist × Bool :=
  match pg.in0, pg.in1 with
  | some in0, some in1 =>
    if pg.out ∈ prot then st
    else if st.1.hasUniqueDriverPin snap.pinOut pg.out pg.outPin = false then st
    else if stillThere st.1 pg = false then st
    else
      match rep (stillThere st.1) gates pg in0 in1 with
      | none => st
      | some n =>
        let moved := st.1.moveConsumers snap.pinOut prot pg.out n
        if moved.2 then ((moved.1.deleteModel pg.pos).1, true) else (moved.1, st.2)
  | _, _ => st

def optimizeAbsorption (nl : Netlist) : Netlist × Bool :=
  (binGates nl).foldl (step prot nl (binGates nl)) (nl, false)

structure Plan where
  moves : List (NodeId × NodeId) := []
  removed : List Nat := []

section

variable (prot : List NodeId) (nl : Netlist)

def repOf (gates : List BinGate) (removed : List Nat) (pg : BinGate) : Option NodeId :=
  match pg.in0, pg.in1 with
  | some in0, some in1 =>
    if pg.out ∈ prot ∨ pg.outPin.id ∈ removed then none
    else rep (fun g => g.outPin.id ∉ removed) gates pg in0 in1
  | _, _ => none

def planStep (gates : List BinGate) (p : Plan) (pg : BinGate) : Plan :=
  match repOf prot gates p.removed pg with
  | none => p
  | some n => { moves := p.moves ++ [(pg.out, n)], removed := pg.outPin.id :: p.removed }

def plan : Plan := (binGates nl).foldl (planStep prot (binGates nl)) {}

def Lost (p : Plan) (n : NodeId) : Prop :=
  ∃ g ∈ binGates nl, g.outPin.id ∈ p.removed ∧ g.out = n

/-- No reader that stays ends on the output of a removed parent. -/
def ReadersStayDriven : Prop :=
  ∀ m ∈ nl.bases, m.id ∉ (plan prot nl).removed →
    ∀ pk ∈ m.model.pins.zipIdx, nl.pinOut ⟨m.id, pk.2⟩ = false → ∀ n, pk.1 = some n →
      ¬ Lost nl (plan prot nl) (follow (plan prot nl).moves n)

end

structure Names (nl : Netlist) (g : BinGate) (m : ModelBase) : Prop where
  getModel : nl.getModel g.pos = some m
  kind : m.model.kind = g.k.modelKind
  pins : m.model.pins = [g.in0, g.in1, some g.out]
  outPin : g.outPin = ⟨m.id, 2⟩

theorem names_of_classify {nl : Netlist} {g : BinGate} {m : ModelBase} {pos : ModelPos}
    (hm : nl.getModel pos = some m) (hg : classify m pos = some g) : Names nl g m := by
  unfold classify at hg
  split at hg
  · rename_i a b o hkind hpins
    cases hg
    exact ⟨hm, hkind, hpins, rfl⟩
  · rename_i a b o hkind hpins
    cases hg
    exact ⟨hm, hkind, hpins, rfl⟩
  · cases hg

theorem names_of_mem {nl : Netlist} {g : BinGate} (hg : g ∈ binGates nl) : ∃ m, Names nl g m := by
  obtain ⟨pos, m, hm, hrec⟩ := mem_gather.mp hg
  exact ⟨m, names_of_classify hm hrec⟩

structure Absorbs (nl : Netlist) (pk ck : Kind) (plain subexpr x y : NodeId) (parent child : ModelBase) :
    Prop where
  parent_mem : parent ∈ nl.bases
  child_mem : child ∈ nl.bases
  parent_kind : parent.model.kind = pk.modelKind
  child_kind : child.model.kind = ck.modelKind
  parent_pins : parent.model.pins = [some plain, some subexpr, some y] ∨
    parent.model.pins = [some subexpr, some plain, some y]
  child_pins : ∃ a, child.model.pins = [some plain, some a, some subexpr] ∨
    child.model.pins = [some a, some plain, some subexpr]
  target : x = if pk = ck then subexpr else plain

def Absorbed (nl : Netlist) (x y : NodeId) : Prop :=
  ∃ pk ck plain subexpr parent child, Absorbs nl pk ck plain subexpr x y parent child

def Kind.fn : Kind → LogicT → LogicT → LogicT
  | andGate => LogicT.logicAnd
  | orGate => LogicT.logicOr

theorem twoInputFn_modelKind (k : Kind) : twoInputFn k.modelKind = some k.fn := by
  cases k <;> rfl

theorem Kind.fn_comm (k : Kind) (a b : LogicT) : k.fn a b = k.fn b a := by
  cases k <;> cases a <;> cases b <;> rfl

theorem fn_absorb (pk ck : Kind) {a b : LogicT} (ha : a ≠ .Z) (hb : b ≠ .Z) :
    pk.fn a (ck.fn a b) = if pk = ck then ck.fn a b else a := by
  cases pk <;> cases ck <;> cases a <;> cases b <;> first | rfl | contradiction

variable {n : NodeId}

section

variable {nl : Netlist} {g pg cg : BinGate} {m : ModelBase} {x y : NodeId}

variable {σ : Nat → LogicT} {k : Kind} {a b o : NodeId} {v : NodeId → LogicT}

theorem value_either
    (hv : Settled (system (stateFns σ) nl) (fun _ => .X) v) (hm : m ∈ nl.bases)
    (hk : m.model.kind = k.modelKind)
    (hpins : m.model.pins = [some a, some b, some o] ∨ m.model.pins = [some b, some a, some o]) :
    v o = k.fn (v a) (v b) := by
  have hf : twoInputFn m.model.kind = some k.fn := by rw [hk, twoInputFn_modelKind]
  rcases hpins with hpins | hpins
  · exact solves_two hv.solves hm hf hpins
  · rw [solves_two hv.solves hm hf hpins, k.fn_comm]

variable {rank : NodeId → Nat}

theorem rank_either (hrank : Ranked (system (stateFns fun _ => .X) nl) rank)
    (hm : m ∈ nl.bases) (hk : m.model.kind = k.modelKind)
    (hpins : m.model.pins = [some a, some b, some o] ∨ m.model.pins = [some b, some a, some o]) :
    rank a < rank o ∧ rank b < rank o := by
  have hf : twoInputFn m.model.kind = some k.fn := by rw [hk, twoInputFn_modelKind]
  have hlt : ∀ c d, m.model.pins = [some c, some d, some o] → rank c < rank o ∧ rank d < rank o := by
    intro c d hpins
    have heq := pinEquations_two (σ := fun _ => .X) hf hpins
    have hdep := hrank _ (mem_system.mpr ⟨m, hm, by rw [heq]; exact List.mem_singleton_self _⟩)
    exact ⟨hdep c (by simp [Equation.apply]), hdep d (by simp [Equation.apply])⟩
  rcases hpins with hpins | hpins
  · exact hlt a b hpins
  · exact (hlt b a hpins).symm

theorem Absorbed.value (h : LogicNetlist nl) (hab : Absorbed nl x y)
    (hσ : KnownInputs σ nl)
    (hv : Settled (system (stateFns σ) nl) (fun _ => .X) v) : v y = v x := by
  obtain ⟨pk, ck, plain, subexpr, parent, child, hab⟩ := hab
  obtain ⟨a, hchild⟩ := hab.child_pins
  have hy := value_either hv hab.parent_mem hab.parent_kind hab.parent_pins
  have hsub := value_either hv hab.child_mem hab.child_kind hchild
  rw [hy, hsub, fn_absorb pk ck (h.state_ne_Z hσ hv plain) (h.state_ne_Z hσ hv a), hab.target]
  split
  · exact hsub.symm
  · rfl

theorem Absorbed.rank_lt (hab : Absorbed nl x y)
    (hrank : Ranked (system (stateFns fun _ => .X) nl) rank) : rank x < rank y := by
  obtain ⟨pk, ck, plain, subexpr, parent, child, hab⟩ := hab
  have hlt := rank_either hrank hab.parent_mem hab.parent_kind hab.parent_pins
  rw [hab.target]
  split
  · exact hlt.2
  · exact hlt.1

theorem Absorbed.ne (h : LogicNetlist nl) (hab : Absorbed nl x y) : y ≠ x := by
  rintro rfl
  obtain ⟨rank, hrank⟩ := h.acyclic
  exact Nat.lt_irrefl _ (hab.rank_lt (hrank _))

theorem Absorbed.isSome (h : LogicNetlist nl) (hab : Absorbed nl x y) : (nl.node? x).isSome := by
  obtain ⟨pk, ck, plain, subexpr, parent, child, hab⟩ := hab
  refine h.sound.isSome_node? hab.parent_mem ?_
  rw [hab.target]
  rcases hab.parent_pins with hpins | hpins <;> rw [hpins] <;> split <;> simp

theorem Names.mem (hg : Names nl g m) : m ∈ nl.bases := mem_bases hg.getModel

theorem Names.driver (h : LogicNetlist nl) (hg : Names nl g m) : nl.DriverPin ⟨m.id, 2⟩ g.out := by
  refine ⟨?_, (h.sound.points_iff_pin hg.mem 2 _).mpr (by simp [hg.pins])⟩
  rw [h.sound.pinOut_eq hg.mem, hg.kind, hg.pins]
  cases g.k <;> rfl

variable {there : BinGate → Bool}

theorem absorbed_of_tryRewrite (hp : Names nl pg m) {plain subexpr : NodeId}
    (hpins : m.model.pins = [some plain, some subexpr, some pg.out] ∨
      m.model.pins = [some subexpr, some plain, some pg.out])
    (htry : tryRewrite there (binGates nl) pg plain subexpr = some n) : Absorbed nl n pg.out := by
  unfold tryRewrite at htry
  split at htry
  · cases htry
  · rename_i cg hfind
    have hout : cg.out = subexpr := by simpa using List.find?_some hfind
    obtain ⟨mc, hc⟩ := names_of_mem (List.mem_of_find?_eq_some hfind)
    have hcpins := hc.pins
    rw [hout] at hcpins
    split at htry
    · rename_i in0 in1 h0 h1
      rw [h0, h1] at hcpins
      split at htry
      · cases htry
      · split at htry
        · rename_i hhits
          rw [Option.some.injEq, hout] at htry
          refine ⟨pg.k, cg.k, plain, subexpr, m, mc, hp.mem, hc.mem, hp.kind, hc.kind, hpins, ?_, htry.symm⟩
          rcases hhits with rfl | rfl
          · exact ⟨in1, .inl hcpins⟩
          · exact ⟨in0, .inr hcpins⟩
        · cases htry
    · cases htry

theorem absorbed_of_rep (hp : Names nl pg m) {in0 in1 : NodeId} (h0 : pg.in0 = some in0) (h1 : pg.in1 = some in1)
    (hrep : rep there (binGates nl) pg in0 in1 = some n) : Absorbed nl n pg.out := by
  have hpins := hp.pins
  rw [h0, h1] at hpins
  unfold rep at hrep
  split at hrep
  · rename_i found hfound
    cases hrep
    exact absorbed_of_tryRewrite hp (.inl hpins) hfound
  · exact absorbed_of_tryRewrite hp (.inr hpins) hrep

variable {there' : BinGate → Bool}

theorem tryRewrite_congr {gates : List BinGate} (hthere : ∀ g ∈ gates, there g = there' g)
    (pg : BinGate) (plain subexpr : NodeId) :
    tryRewrite there gates pg plain subexpr = tryRewrite there' gates pg plain subexpr := by
  unfold tryRewrite
  cases hfind : gateByOut gates subexpr with
  | none => rfl
  | some cg =>
    dsimp only
    rw [hthere cg (List.mem_of_find?_eq_some hfind)]

theorem rep_congr {gates : List BinGate} (hthere : ∀ g ∈ gates, there g = there' g)
    (pg : BinGate) (in0 in1 : NodeId) :
    rep there gates pg in0 in1 = rep there' gates pg in0 in1 := by
  unfold rep
  rw [tryRewrite_congr hthere, tryRewrite_congr hthere]

end

theorem out_eq_of_id (h : LogicNetlist nl) {g g' : BinGate} (hg : g ∈ binGates nl) (hg' : g' ∈ binGates nl)
    (hid : g'.outPin.id = g.outPin.id) : g'.out = g.out := by
  obtain ⟨m, hm⟩ := names_of_mem hg
  obtain ⟨m', hm'⟩ := names_of_mem hg'
  rw [hm.outPin, hm'.outPin] at hid
  obtain rfl : m' = m := h.sound.eq_of_id hm'.mem hm.mem hid
  have hpins := hm'.pins.symm.trans hm.pins
  simp only [List.cons.injEq, Option.some.injEq, and_true] at hpins
  exact hpins.2.2

structure Progress (prot : List NodeId) (nl : Netlist) (p : Plan) (cur : Netlist) : Prop where
  rewired : Rewired nl p.moves p.removed [] cur
  moves : ∀ mv ∈ p.moves, Absorbed nl mv.2 mv.1
  removed : ∀ id ∈ p.removed, ∃ g ∈ binGates nl, g.outPin.id = id ∧ g.out ∉ prot ∧ ∃ mv ∈ p.moves, mv.1 = g.out

section Run

variable {prot : List NodeId} {nl cur : Netlist} {p : Plan} {g pg : BinGate} {m : ModelBase}

theorem Progress.stillThere_eq (hp : Progress prot nl p cur) (hg : Names nl g m) :
    stillThere cur g = decide (g.outPin.id ∉ p.removed) := by
  have hid : g.outPin.id = m.id := by rw [hg.outPin]
  unfold stillThere
  by_cases hd : m.id ∈ p.removed
  · have hnone : cur.getModel g.pos = none := by
      cases hcur : cur.getModel g.pos with
      | none => rfl
      | some c =>
        rcases hp.rewired.getModel_cases hcur with ⟨b, hb, hbd, -⟩ | hnew
        · rw [hg.getModel, Option.some.injEq] at hb
          exact absurd hd (hb ▸ hbd)
        · cases hnew
    rw [hnone, hid]
    exact (decide_eq_false (not_not.mpr hd)).symm
  · rw [hp.rewired.getModel g.pos m hg.getModel hd, hid]
    dsimp only
    rw [followPins_kind, hg.kind, decide_eq_true rfl, decide_eq_true hd]

section

variable (h : LogicNetlist nl) (hp : Progress prot nl p cur)

include h hp

theorem Progress.unique_iff (hg : Names nl g m) :
    cur.hasUniqueDriverPin nl.pinOut g.out g.outPin = true ↔ g.outPin.id ∉ p.removed := by
  rw [hg.outPin]
  exact hp.rewired.hasUniqueDriverPin_iff h.sound h.single hg.mem (hg.driver h).1
    ((h.sound.points_iff_pin hg.mem _ _).mp (hg.driver h).2)

theorem Progress.step (hg : pg ∈ binGates nl) (changed : Bool) :
    Progress prot nl (planStep prot (binGates nl) p pg)
      (step prot nl (binGates nl) (cur, changed) pg).1 := by
  obtain ⟨m, hm⟩ := names_of_mem hg
  have hid : pg.outPin.id = m.id := by rw [hm.outPin]
  have hthere : ∀ g ∈ binGates nl, stillThere cur g = decide (g.outPin.id ∉ p.removed) := by
    intro g hg
    obtain ⟨mg, hmg⟩ := names_of_mem hg
    exact hp.stillThere_eq hmg
  have hskip : repOf prot (binGates nl) p.removed pg = none →
      planStep prot (binGates nl) p pg = p := by
    intro hnone
    rw [planStep, hnone]
  unfold Absorption.step
  cases h0 : pg.in0 with
  | none =>
    rw [hskip (by rw [repOf, h0])]
    exact hp
  | some in0 =>
    cases h1 : pg.in1 with
    | none =>
      rw [hskip (by rw [repOf, h0, h1])]
      exact hp
    | some in1 =>
      dsimp only
      have hrepOf : repOf prot (binGates nl) p.removed pg =
          if pg.out ∈ prot ∨ pg.outPin.id ∈ p.removed then none
          else rep (stillThere cur) (binGates nl) pg in0 in1 := by
        rw [repOf, h0, h1, rep_congr hthere]
      by_cases hprot : pg.out ∈ prot
      · rw [if_pos hprot, hskip (by rw [hrepOf, if_pos (.inl hprot)])]
        exact hp
      rw [if_neg hprot]
      by_cases hgone : pg.outPin.id ∈ p.removed
      · have hfalse : cur.hasUniqueDriverPin nl.pinOut pg.out pg.outPin = false := by
          rw [Bool.eq_false_iff]
          exact fun htrue => (hp.unique_iff h hm).mp htrue hgone
        rw [if_pos hfalse, hskip (by rw [hrepOf, if_pos (.inr hgone)])]
        exact hp
      rw [if_neg (by simp [(hp.unique_iff h hm).mpr hgone]), if_neg (by simp [hp.stillThere_eq hm, hgone])]
      rw [if_neg (not_or.mpr ⟨hprot, hgone⟩)] at hrepOf
      cases hrep : rep (stillThere cur) (binGates nl) pg in0 in1 with
      | none =>
        rw [hskip (by rw [hrepOf, hrep])]
        exact hp
      | some n =>
        dsimp only
        have hab := absorbed_of_rep hm h0 h1 hrep
        obtain ⟨htrue, hrew⟩ := hp.rewired.moveDelete h.sound hm.getModel (hid ▸ hgone) (hab.ne h) hprot
          (h.sound.isSome_node? hm.mem (by simp [hm.pins])) (hp.rewired.isSome_node? (hab.isSome h))
        have hplan : planStep prot (binGates nl) p pg =
            { moves := p.moves ++ [(pg.out, n)], removed := pg.outPin.id :: p.removed } := by
          rw [planStep, hrepOf, hrep]
        rw [if_pos htrue, hplan]
        refine ⟨?_, fun mv hmv => ?_, fun id hmem => ?_⟩
        · rw [hid]
          exact hrew
        · rcases List.mem_append.mp hmv with hmv | hmv
          · exact hp.moves mv hmv
          · rw [List.mem_singleton.mp hmv]
            exact hab
        · rcases List.mem_cons.mp hmem with rfl | hmem
          · exact ⟨pg, hg, rfl, hprot, _, List.mem_append_right _ (List.mem_singleton_self _), rfl⟩
          · obtain ⟨g, hg, hid', hprot', mv, hmv, hout⟩ := hp.removed id hmem
            exact ⟨g, hg, hid', hprot', mv, List.mem_append_left _ hmv, hout⟩

theorem progress_foldl (todo : List BinGate) (htodo : ∀ g ∈ todo, g ∈ binGates nl) (changed : Bool) :
    Progress prot nl (todo.foldl (planStep prot (binGates nl)) p)
      (todo.foldl (Absorption.step prot nl (binGates nl)) (cur, changed)).1 := by
  induction todo generalizing p cur changed with
  | nil => exact hp
  | cons g todo ih =>
    exact ih (hp.step h (htodo g List.mem_cons_self) changed)
      (fun g' hg' => htodo g' (List.mem_cons_of_mem _ hg')) _

end

section Final

variable (h : LogicNetlist nl) (hp : Progress prot nl p cur)

include h hp

theorem lost_iff (n : NodeId) : ((∃ q, nl.DriverPin q n) ∧ ¬ ∃ q, cur.DriverPin q n) ↔ Lost nl p n := by
  rw [hp.rewired.lost_iff h.sound h.single]
  constructor
  · rintro ⟨⟨b, hb, hdel, k, hold⟩, -⟩
    obtain ⟨g, hg, hid, -⟩ := hp.removed _ hdel
    obtain ⟨m, hm⟩ := names_of_mem hg
    have hmb : m = b := h.sound.eq_of_id hm.mem hb (by rw [← hid, hm.outPin])
    subst hmb
    have hdriver := hm.driver h
    have hk := h.eq_of_pinOut hb (by rw [hm.kind]; cases g.k <;> rfl) hdriver.1 hold.1
    rw [hk] at hdriver
    exact ⟨g, hg, hid ▸ hdel, h.sound.points_unique hdriver.2 hold.2⟩
  · rintro ⟨g, hg, hgr, rfl⟩
    obtain ⟨m, hm⟩ := names_of_mem hg
    have hid : g.outPin.id = m.id := by rw [hm.outPin]
    exact ⟨⟨m, hm.mem, hid ▸ hgr, 2, hm.driver h⟩, by simp⟩

theorem not_lost_of_protected (hn : n ∈ prot) : ¬ Lost nl p n := by
  rintro ⟨g, hg, hgr, rfl⟩
  obtain ⟨g', hg', hid, hprot, -⟩ := hp.removed _ hgr
  exact hprot (out_eq_of_id h hg hg' hid ▸ hn)

theorem singleDriverPins : SingleDriverPins cur := by
  intro q q' n hq hq'
  have hold : ∀ r, cur.DriverPin r n → nl.DriverPin r n := by
    intro r hr
    rcases hp.rewired.points_cases hr.2 with ⟨b, hb, hd, hid⟩ | ⟨b, hb, -⟩
    · have hrb : r = ⟨b.id, r.k⟩ := by rw [hid]
      rw [hrb] at hr ⊢
      exact (hp.rewired.driverPin_old h.sound hb hd _ _).mp hr
    · cases hb
  exact h.single q q' n (hold q hq) (hold q' hq')

theorem keepsStates (hreaders : ReadersDriven prot nl cur) : KeepsStates prot nl cur := by
  have hsingle := singleDriverPins h hp
  refine ⟨fun n hobs hdriver => ?_, fun σ hσ => ?_⟩
  · obtain ⟨q, hq⟩ := hreaders n hobs hdriver
    exact ⟨q, hq, fun q' hq' => hsingle q' q n hq' hq⟩
  · obtain ⟨rank, hrank⟩ := h.acyclic
    have hpinned : ∀ b ∈ nl.bases, WellPinned (stateFns σ) b := fun b hb => h.pinned hb
    have hranked := hp.rewired.ranked h.sound (ignoresPins_stateFns σ) hpinned (hrank σ)
      (fun mv hmv => Nat.le_of_lt ((hp.moves mv hmv).rank_lt (hrank _))) (by simp)
    refine hp.rewired.sameFunction h.sound h.single (ignoresPins_stateFns σ) hpinned (by simp) (by simp)
      hranked hreaders fun v hv => ⟨v, ?_, fun _ _ => rfl, fun n hn => .inr (hv.rest n ?_)⟩
    · exact hp.rewired.solves h.sound (ignoresPins_stateFns σ) hpinned hv.solves
        (fun mv hmv => (hp.moves mv hmv).value h hσ hv) (by simp)
    · rintro ⟨e, he, rfl⟩
      exact hn (isSome_of_mem_system h.sound hpinned he).1

end Final

theorem progress_plan (h : LogicNetlist nl) : Progress prot nl (plan prot nl) (optimizeAbsorption prot nl).1 :=
  progress_foldl h ⟨.start h.sound h.digital, by simp, by simp⟩ (binGates nl) (fun _ hg => hg) false

/-- The condition holds where no gate is replaced by the output of one that can be replaced. -/
theorem readersStayDriven_of_apart (h : LogicNetlist nl) (hapart : ∀ x y z, Absorbed nl y x → ¬ Absorbed nl z y) :
    ReadersStayDriven prot nl := by
  have hp : Progress prot nl (plan prot nl) _ := progress_plan h
  rintro m _ _ pk _ _ n _ ⟨g, hg, hid, hlost⟩
  obtain ⟨g', hg', heq, -, mv, hmv, hsrc⟩ := hp.removed _ hid
  have hout := hsrc.trans (out_eq_of_id h hg hg' heq)
  refine follow_ne_source (fun a ha c hc hac => ?_) n mv hmv (hlost.symm.trans hout.symm)
  exact hapart _ _ _ (hp.moves a ha) (hac ▸ hp.moves c hc)

end Run

/-- Absorption keeps the states exactly when no reader that stays is taken to the output of a
removed parent. -/
theorem absorption_keepsStates_iff (nl : Netlist) (h : LogicNetlist nl) :
    KeepsStates prot nl (optimizeAbsorption prot nl).1 ↔
      ReadersStayDriven prot nl := by
  have hp : Progress prot nl (plan prot nl) _ := progress_plan h
  have hiff : ReadersDriven prot nl (optimizeAbsorption prot nl).1 ↔
      ReadersStayDriven prot nl := by
    rw [hp.rewired.readersDriven_iff h.sound (lost_iff h hp) fun n hn => not_lost_of_protected h hp hn]
    constructor
    · rintro ⟨hold, -⟩ m hm hd pk hpk hout n hn
      exact hold m hm hd pk.2 n (by rw [List.mem_zipIdx_iff_getElem?.mp hpk, hn]) hout
    · intro hstay
      exact ⟨fun m hm hd k n hk hout => hstay m hm hd (some n, k) (List.mem_zipIdx_iff_getElem?.mpr hk) hout n rfl,
        by simp⟩
  constructor
  · intro hkeeps
    exact hiff.mp fun n hobs hdriver => (hkeeps.driver n hobs hdriver).exists
  · intro hstay
    exact keepsStates h hp (hiff.mpr hstay)

def nestedAbsorption : Netlist := .ofModels 7 [.port .input [0] "a" [.digital .L],
  .port .input [1] "b" [.digital .L], .port .input [2] "c" [.digital .L], .on .or [0, 1, 3],
  .on .and [0, 3, 4], .on .or [4, 2, 5], .on .and [4, 5, 6], .port .output [6] "y" []]

theorem logicNetlist_nestedAbsorption : LogicNetlist nestedAbsorption :=
  logicNetlist_of_check NodeId.index
    (by decide +kernel) (by decide +kernel) (by decide +kernel)

theorem absorption_keepsStates_nested :
    KeepsStates [.node 4] nestedAbsorption (optimizeAbsorption [.node 4] nestedAbsorption).1 ↔
      ReadersStayDriven [.node 4] nestedAbsorption :=
  absorption_keepsStates_iff [.node 4] nestedAbsorption logicNetlist_nestedAbsorption

/-- The `OUTPUT` ends on the output of the first parent, which is gone by then. -/
theorem absorption_nested_undriven : LogicNetlist nestedAbsorption ∧
    ¬ KeepsStates [] nestedAbsorption (optimizeAbsorption [] nestedAbsorption).1 := by
  refine ⟨logicNetlist_nestedAbsorption, fun hkeeps => ?_⟩
  have hread : (optimizeAbsorption [] nestedAbsorption).1.ConsumerPin ⟨7, 0⟩ (.node 4) :=
    ⟨by decide +kernel, mem_allPins.mp (by decide +kernel)⟩
  have hdriver : nestedAbsorption.DriverPin ⟨4, 2⟩ (.node 4) :=
    ⟨by decide +kernel, mem_allPins.mp (by decide +kernel)⟩
  obtain ⟨q, hq, -⟩ := hkeeps.driver (.node 4) ⟨rfl, .inr ⟨_, hread⟩⟩ ⟨_, hdriver⟩
  have hundriven : ((allPins (optimizeAbsorption [] nestedAbsorption).1).all fun pn =>
      decide (pn.2 = .node 4 → (optimizeAbsorption [] nestedAbsorption).1.pinOut pn.1 = false)) = true := by
    decide +kernel
  rw [List.all_eq_true] at hundriven
  have hout := of_decide_eq_true (hundriven (q, .node 4) (mem_allPins.mpr hq.2)) rfl
  rw [hq.1] at hout
  cases hout

end Absorption

end PhyEngine
