import PhyEngine.Synth.Candidates

/-!
# Inverters at the gates

`optimize_fuse_inverters` replaces a gate that only an inverter reads by the complement gate,
`optimize_push_input_inverters` a gate behind inverters by one that reads their inputs. No pin
ever moves, and a new gate reads only nodes that are read already (`Replaced.driven`).
-/

namespace PhyEngine

open Equations Netlist List

namespace Inverters

structure NotGate where
  pos : ModelPos
  inn : Option NodeId
  out : NodeId
  outPin : PinRef

def classifyNot (m : ModelBase) (pos : ModelPos) : Option NotGate :=
  match m.model.kind, m.model.pins with
  | .not, [a, some o] => some ⟨pos, a, o, ⟨m.id, 1⟩⟩
  | _, _ => none

structure BinGate where
  k : ModelKind
  pos : ModelPos
  in0 : Option NodeId
  in1 : Option NodeId
  out : NodeId
  outPin : PinRef

def classifyBin (kinds : List ModelKind) (m : ModelBase) (pos : ModelPos) : Option BinGate :=
  if m.model.kind ∈ kinds then
    match m.model.pins with
    | [a, b, some o] => some ⟨m.model.kind, pos, a, b, o, ⟨m.id, 2⟩⟩
    | _ => none
  else none

def gateByOut (gates : List BinGate) (n : NodeId) : Option BinGate := gates.find? fun g => g.out = n

def notByOut (nots : List NotGate) (n : NodeId) : Option NotGate := nots.find? fun g => g.out = n

/-- `add_bin_gate` and `add_bin`: a gate whose inputs are connected, and whose output is not
yet. -/
def addInputs (nl : Netlist) (kind : ModelKind) (a b : NodeId) : Netlist × Option ModelPos :=
  let added := nl.addModel ⟨kind, "", [], [none, none, none]⟩
  let first := added.1.addToNode added.2 0 a
  if first.2 = false then ((first.1.deleteModel added.2).1, none)
  else
    let second := first.1.addToNode added.2 1 b
    if second.2 = false then ((second.1.deleteModel added.2).1, none) else (second.1, some added.2)

/-- The old models are deleted before the new gate gets its output. -/
def takeOver (nl : Netlist) (gone : List ModelPos) (pos : ModelPos) (out : NodeId) : Netlist × Bool :=
  let nl := gone.foldl (fun nl p => (nl.deleteModel p).1) nl
  match nl.getModel pos with
  | none => (nl, false)
  | some _ =>
    let connected := nl.addToNode pos 2 out
    if connected.2 then connected else ((connected.1.deleteModel pos).1, false)

def fusedKinds : List ModelKind := [.and, .or, .xor, .xnor, .nand, .nor, .imp, .nimp]

/-- The gate with the inverted output. -/
def complement : ModelKind → Option ModelKind
  | .and => some .nand
  | .nand => some .and
  | .or => some .nor
  | .nor => some .or
  | .xor => some .xnor
  | .xnor => some .xor
  | .imp => some .nimp
  | .nimp => some .imp
  | _ => none

variable (prot : List NodeId)

/-- The body of the loop over the inverters, with `changed`; `snap` is the netlist at the start. -/
def fuseStep (snap : Netlist) (gates : List BinGate) (st : Netlist × Bool)
    (n : NotGate) : Netlist × Bool :=
  match n.inn with
  | none => st
  | some inn =>
    if inn ∈ prot then st
    else
      match gateByOut gates inn with
      | none => st
      | some g =>
        match g.in0, g.in1, complement g.k with
        | some in0, some in1, some nk =>
          if fanCount true snap g.out ≠ 1 ∨ fanCount false snap g.out ≠ 1 then st
          else if st.1.hasUniqueDriverPin snap.pinOut g.out g.outPin = false ∨
              st.1.hasUniqueDriverPin snap.pinOut n.out n.outPin = false then st
          else
            match addInputs st.1 nk in0 in1 with
            | (nl, none) => (nl, st.2)
            | (nl, some pos) =>
              let taken := takeOver nl [n.pos, g.pos] pos n.out
              (taken.1, st.2 || taken.2)
        | _, _, _ => st

/-- A gate and an inverter on its output become the complement of the gate. -/
def optimizeFuseInverters (nl : Netlist) : Netlist × Bool :=
  (nl.gather classifyNot).foldl (fuseStep prot nl (nl.gather (classifyBin fusedKinds))) (nl, false)

def pushedKinds : List ModelKind := [.and, .or, .xor, .xnor]

/-- The gate that takes the place of one on `in0` and `in1`, and its inputs; `a` and `b` are the
inputs of the inverters in front of it. -/
def pushedGate (k : ModelKind) (in0 in1 : NodeId) (a b : Option NodeId) : Option (ModelKind × NodeId × NodeId) :=
  match k, a, b with
  | .and, some a, some b => some (.nor, a, b)
  | .and, some a, none => some (.nimp, in1, a)
  | .and, none, some b => some (.nimp, in0, b)
  | .or, some a, some b => some (.nand, a, b)
  | .or, some a, none => some (.imp, a, in1)
  | .or, none, some b => some (.imp, b, in0)
  | .xor, some a, some b => some (.xor, a, b)
  | .xor, some a, none => some (.xnor, a, in1)
  | .xor, none, some b => some (.xnor, in0, b)
  | .xnor, some a, some b => some (.xnor, a, b)
  | .xnor, some a, none => some (.xor, a, in1)
  | .xnor, none, some b => some (.xor, in0, b)
  | _, _, _ => none

/-- The gate may read the input of the inverter in its place. -/
def okNot (snap cur : Netlist) (n : NotGate) : Bool :=
  n.inn.isSome && decide (n.out ∉ prot) && decide (fanCount true snap n.out = 1) &&
    cur.hasUniqueDriverPin snap.pinOut n.out n.outPin

def stillThere (nl : Netlist) (g : BinGate) : Bool :=
  match nl.getModel g.pos with
  | none => false
  | some m => decide (m.model.kind ∈ pushedKinds)

/-- An inverter goes when nothing else reads its output. -/
def tryDeleteNot (snap cur : Netlist) (n : NotGate) : Netlist :=
  if n.out ∈ prot ∨ cur.hasUniqueDriverPin snap.pinOut n.out n.outPin = false then cur
  else
    match cur.node? n.out with
    | none => cur
    | some nd => if ∃ p ∈ nd.pins, p ≠ n.outPin ∧ snap.pinOut p = false then cur else (cur.deleteModel n.pos).1

/-- The body of the loop over the gates, with `changed`; `snap` is the netlist at the start. -/
def pushStep (snap : Netlist) (nots : List NotGate) (st : Netlist × Bool)
    (g : BinGate) : Netlist × Bool :=
  match g.in0, g.in1 with
  | some in0, some in1 =>
    if st.1.hasUniqueDriverPin snap.pinOut g.out g.outPin = false ∨ stillThere st.1 g = false then st
    else
      let n0 := notByOut nots in0
      let n1 := notByOut nots in1
      if (n0.toList ++ n1.toList).all (okNot prot snap st.1) = false then st
      else
        match pushedGate g.k in0 in1 (n0.bind NotGate.inn) (n1.bind NotGate.inn) with
        | none => st
        | some (name, na, nb) =>
          match addInputs st.1 name na nb with
          | (nl, none) => (nl, st.2)
          | (nl, some pos) =>
            let taken := takeOver nl [g.pos] pos g.out
            if taken.2 = false then (taken.1, st.2)
            else
              let unused := n0.toList ++ n1.toList.filter fun n => !n0.any fun n' => decide (n'.pos = n.pos)
              (unused.foldl (tryDeleteNot prot snap) taken.1, true)
  | _, _ => st

/-- The inverters in front of a gate become part of the gate. -/
def optimizePushInputInverters (nl : Netlist) : Netlist × Bool :=
  (nl.gather (classifyBin pushedKinds)).foldl (pushStep prot nl (nl.gather classifyNot)) (nl, false)

/-! ## What the passes keep -/

/-- Every observed node that had a driver has exactly one, and for every state of the inputs, high
impedance as well, the netlist settles on the old states. -/
structure KeepsEveryState (prot : List NodeId) (nl nl' : Netlist) : Prop where
  driver : ∀ n, Observed prot nl nl' n → (∃ p, nl.DriverPin p n) → ∃! p, nl'.DriverPin p n
  state : ∀ σ, SameFunction (stateFns σ) (fun _ => .X) nl nl' (Observed prot nl nl')

/-- In every solution `o` holds the function `f` of `x` and `y`, which come before it. -/
structure Computes (nl : Netlist) (f : LogicT → LogicT → LogicT) (x y o : NodeId) : Prop where
  value : ∀ σ v, Solves (system (stateFns σ) nl) v → v o = f (v x) (v y)
  rank : ∀ rank : NodeId → Nat, (∀ σ, Ranked (system (stateFns σ) nl) rank) → rank x < rank o ∧ rank y < rank o

structure IsGate (nl : Netlist) (reads : NodeId → Prop) (b : ModelBase) (x y o : NodeId) : Prop where
  pins : b.model.pins = [some x, some y, some o]
  reads : reads x ∧ reads y
  computes : ∃ f, twoInputFn b.model.kind = some f ∧ Computes nl f x y o

/-- The netlist after some of the rewrites; new gates read only nodes of `reads`. -/
structure Replaced (prot : List NodeId) (nl : Netlist) (reads : NodeId → Prop) (deleted : List Nat)
    (news : List ModelBase) (cur : Netlist) : Prop where
  rewired : Rewired nl [] deleted news cur
  gates : ∀ b ∈ news, ∃ x y o, IsGate nl reads b x y o
  driven : ∀ n, (n ∈ prot ∨ ∃ p, cur.ConsumerPin p n) → (∃ p, nl.DriverPin p n) → ∃ p, cur.DriverPin p n
  single : SingleDriverPins cur

section Run

variable {prot : List NodeId} {nl cur cur' : Netlist} {reads : NodeId → Prop} {deleted deleted' : List Nat}
  {news : List ModelBase} {b : ModelBase} {x y o : NodeId}

variable {kind : ModelKind} {f : LogicT → LogicT → LogicT} {k : Nat}

theorem isOutputPin_two (hf : twoInputFn kind = some f) (k : Nat) :
    isOutputPin kind k 3 = decide (k = 2) := by
  rw [Bool.eq_iff_iff]
  cases kind <;> simp only [twoInputFn, reduceCtorEq] at hf <;> simp [isOutputPin]

theorem IsGate.pin (h : IsGate nl reads b x y o) {n : NodeId} (hk : b.model.pins[k]? = some (some n)) :
    (isOutputPin b.model.kind k b.model.pins.length = true ∧ n = o) ∨
      (isOutputPin b.model.kind k b.model.pins.length = false ∧ (n = x ∨ n = y)) := by
  obtain ⟨f, hf, -⟩ := h.computes
  rw [h.pins] at hk ⊢
  rw [show [some x, some y, some o].length = 3 from rfl, isOutputPin_two hf]
  match k with
  | 0 => exact .inr ⟨rfl, .inl (by simpa [eq_comm] using hk)⟩
  | 1 => exact .inr ⟨rfl, .inr (by simpa [eq_comm] using hk)⟩
  | 2 => exact .inl ⟨rfl, by simpa [eq_comm] using hk⟩
  | k + 3 => simp at hk

theorem Replaced.start (h : LogicNetlist nl) : Replaced prot nl reads [] [] nl where
  rewired := .start h.sound h.digital
  gates := by simp
  driven _ _ hdriver := hdriver
  single := h.single

/-- Some models go and at most one gate comes: what went drove only the output of the new gate and
nodes that nothing reads any more. -/
theorem Replaced.next (hp : Replaced prot nl reads deleted news cur)
    {gone : Nat → Prop} {extra : Option ModelBase} (hr : Rewired nl [] deleted' (news ++ extra.toList) cur')
    (hdel : ∀ id, id ∈ deleted' ↔ id ∈ deleted ∨ gone id) (hgone : ∀ id, gone id → id < nl.nextId)
    (hgate : ∀ b ∈ extra, ∃ x y o, IsGate nl reads b x y o ∧ (∃ p, cur.ConsumerPin p x) ∧ (∃ p, cur.ConsumerPin p y) ∧
      ∀ q, cur.DriverPin q o → gone q.id)
    (hcover : ∀ q n, cur.DriverPin q n → gone q.id → (∃ b ∈ extra, b.model.pins[2]? = some (some n)) ∨
      n ∉ prot ∧ (∀ p, cur.ConsumerPin p n → gone p.id) ∧
        ∀ b ∈ extra, ∀ x y o, IsGate nl reads b x y o → n ≠ x ∧ n ≠ y) :
    Replaced prot nl reads deleted' (news ++ extra.toList) cur' := by
  have hmem : ∀ c, c ∈ cur'.bases ↔ (c ∈ cur.bases ∧ ¬ gone c.id) ∨ c ∈ extra := by
    intro c
    have hfresh : c ∈ news → ¬ gone c.id := fun hc hg => by
      have := hp.rewired.fresh c hc
      have := hgone _ hg
      omega
    rw [hr.bases, hp.rewired.bases]
    simp only [mem_append, mem_map, mem_filter, decide_eq_true_eq, followPins_nil, exists_eq_right, hdel,
      Option.mem_toList, not_or]
    tauto
  have hpin : ∀ out p n, (cur'.pinOut p = out ∧ cur'.Points p n) ↔
    ((cur.pinOut p = out ∧ cur.Points p n) ∧ ¬ gone p.id) ∨
      ∃ b ∈ extra, b.id = p.id ∧ b.model.pins[p.k]? = some (some n) ∧
        isOutputPin b.model.kind p.k b.model.pins.length = out := by
    intro out p n
    rw [hr.sound.pin_iff, hp.rewired.sound.pin_iff]
    constructor
    · rintro ⟨c, hc, hid, hk⟩
      rcases (hmem c).mp hc with ⟨hc, hg⟩ | hc
      · exact .inl ⟨⟨c, hc, hid, hk⟩, hid ▸ hg⟩
      · exact .inr ⟨c, hc, hid, hk⟩
    · rintro (⟨⟨c, hc, hid, hk⟩, hg⟩ | ⟨c, hc, hid, hk⟩)
      · exact ⟨c, (hmem c).mpr (.inl ⟨hc, hid ▸ hg⟩), hid, hk⟩
      · exact ⟨c, (hmem c).mpr (.inr hc), hid, hk⟩
  refine ⟨hr, fun b hb => ?_, fun n hn hdriver => ?_, fun p q n hp' hq' => ?_⟩
  · rcases mem_append.mp hb with hb | hb
    · exact hp.gates b hb
    · obtain ⟨x, y, o, hg, -⟩ := hgate b (Option.mem_toList.mp hb)
      exact ⟨x, y, o, hg⟩
  · have hread : n ∈ prot ∨ ∃ p, cur.ConsumerPin p n := by
      refine hn.imp_right fun ⟨p, hp'⟩ => ?_
      rcases (hpin false p n).mp hp' with ⟨hold, -⟩ | ⟨b, hb, -, hk, hin⟩
      · exact ⟨p, hold⟩
      · obtain ⟨x, y, o, hg, hx, hy, -⟩ := hgate b hb
        rcases hg.pin hk with ⟨hout, -⟩ | ⟨-, rfl | rfl⟩
        · rw [hin] at hout
          cases hout
        · exact hx
        · exact hy
    obtain ⟨q, hq⟩ := hp.driven n hread hdriver
    by_cases hgq : gone q.id
    · rcases hcover q n hq hgq with ⟨b, hb, hk⟩ | ⟨hprot, hall, hne⟩
      · obtain ⟨x, y, o, hg, -⟩ := hgate b hb
        refine ⟨⟨b.id, 2⟩, (hpin true _ n).mpr (.inr ⟨b, hb, rfl, hk, ?_⟩)⟩
        obtain ⟨f, hf, -⟩ := hg.computes
        rw [hg.pins]
        exact isOutputPin_two hf 2
      · rcases hn with hn | ⟨p, hp'⟩
        · exact absurd hn hprot
        · rcases (hpin false p n).mp hp' with ⟨hold, hg⟩ | ⟨b, hb, -, hk, hin⟩
          · exact absurd (hall p hold) hg
          · obtain ⟨x, y, o, hg, -⟩ := hgate b hb
            obtain ⟨hnx, hny⟩ := hne b hb x y o hg
            rcases hg.pin hk with ⟨hout, -⟩ | ⟨-, hxy⟩
            · rw [hin] at hout
              cases hout
            · exact absurd hxy (not_or.mpr ⟨hnx, hny⟩)
    · exact ⟨q, (hpin true q n).mpr (.inl ⟨hq, hgq⟩)⟩
  · -- the new gate has its node for itself
    have hnew : ∀ (r : PinRef) (b : ModelBase), b ∈ extra → b.id = r.id → b.model.pins[r.k]? = some (some n) →
        isOutputPin b.model.kind r.k b.model.pins.length = true → r = ⟨b.id, 2⟩ ∧
          ∀ r', cur.DriverPin r' n → gone r'.id := by
      intro r b hb hid hk hout
      obtain ⟨x, y, o, hg, -, -, hall⟩ := hgate b hb
      obtain ⟨f, hf, -⟩ := hg.computes
      have htwo : r.k = 2 := by
        rw [hg.pins, show [some x, some y, some o].length = 3 from rfl, isOutputPin_two hf] at hout
        exact of_decide_eq_true hout
      rcases hg.pin hk with ⟨-, rfl⟩ | ⟨hin, -⟩
      · exact ⟨by rw [hid, ← htwo], hall⟩
      · rw [hin] at hout
        cases hout
    rcases (hpin true p n).mp hp' with ⟨hold, hg⟩ | ⟨b, hb, hid, hk, hout⟩ <;>
      rcases (hpin true q n).mp hq' with ⟨hold', hg'⟩ | ⟨b', hb', hid', hk', hout'⟩
    · exact hp.single p q n hold hold'
    · exact absurd ((hnew q b' hb' hid' hk' hout').2 p hold) hg
    · exact absurd ((hnew p b hb hid hk hout).2 q hold') hg'
    · obtain rfl := Option.mem_unique hb hb'
      rw [(hnew p b hb hid hk hout).1, (hnew q b hb hid' hk' hout').1]

theorem isAnalog_two (hf : twoInputFn kind = some f) (ps : List (Option NodeId)) :
    (Model.mk kind "" [] ps).isAnalog = false := by
  cases kind <;> simp only [twoInputFn, reduceCtorEq] at hf <;> rfl

def inputsOnly (cur : Netlist) (kind : ModelKind) (x y : NodeId) : ModelBase :=
  ⟨cur.nextId, kind, "", [], [some x, some y, none]⟩

theorem addInputs_spec (hr : Rewired nl [] deleted news cur) (hf : twoInputFn kind = some f) (hx : (cur.node? x).isSome)
    (hy : (cur.node? y).isSome) :
    ∃ cur₁ pos, addInputs cur kind x y = (cur₁, some pos) ∧
      Rewired nl [] deleted (news ++ [inputsOnly cur kind x y]) cur₁ ∧
        cur₁.getModel pos = some (inputsOnly cur kind x y) ∧ ∀ pos' c, cur.getModel pos' = some c → pos' ≠ pos := by
  have hstart := Connecting.start hr.sound ⟨kind, "", [], [none, none, none]⟩ 3 rfl
  obtain ⟨htrue, hfirst⟩ := hstart.step hx
  obtain ⟨htrue', hsecond⟩ := hfirst.step hy
  refine ⟨_, _, ?_, hr.add hsecond.sound (isAnalog_two hf _) hsecond.bases (fun pos c hc => (hsecond.others pos c hc).2)
    (Nat.le_of_eq hsecond.length_nodes.symm) (hsecond.nextId.symm ▸ Nat.le_succ _) (Nat.le_refl _), hsecond.getModel,
    fun pos c hc => (hsecond.others pos c hc).1⟩
  rw [length_nil] at htrue htrue'
  simp only [addInputs, htrue]
  rw [if_neg (by simp), if_neg (by simpa using htrue')]
  rfl

section

variable (h : LogicNetlist nl)
include h

variable {gone : List ModelPos}

theorem takeOver_spec {b : ModelBase} (hr : Rewired nl [] deleted (news ++ [b]) cur)
    {pos : ModelPos} (hget : cur.getModel pos = some b) (hnodup : gone.Nodup)
    (hgone : ∀ pos' ∈ gone, pos' ≠ pos ∧ ∃ c, nl.getModel pos' = some c ∧ c.id ∉ deleted)
    (hfree : b.model.pins[2]? = some none) (ho : (nl.node? o).isSome) : ∃ cur' deleted',
      takeOver cur gone pos o = (cur', true) ∧ Rewired nl [] deleted' (news ++ [ModelBase.withPin b 2 (some o)]) cur' ∧
        ∀ id, id ∈ deleted' ↔ id ∈ deleted ∨ ∃ pos' ∈ gone, ∃ c, nl.getModel pos' = some c ∧ c.id = id := by
  obtain ⟨deleted', hr', hids⟩ := hr.deleteAll h.sound hnodup fun pos' hpos' => (hgone pos' hpos').2
  have hkept : ∀ (ps : List ModelPos) (cur : Netlist), (∀ pos' ∈ ps, pos' ≠ pos) → cur.getModel pos = some b →
      (ps.foldl (fun nl p => (nl.deleteModel p).1) cur).getModel pos = some b := by
    intro ps
    induction ps with
    | nil => exact fun _ _ hb => hb
    | cons p ps ih =>
      intro cur hne hb
      rw [forall_mem_cons] at hne
      exact ih _ hne.2 (getModel_deleteModel_of_ne (Ne.symm hne.1) hb)
  have hget' := hkept gone cur (fun pos' hpos' => (hgone pos' hpos').1) hget
  obtain ⟨htrue, hlast⟩ := hr'.connectLast h.sound hget' hfree (hr'.isSome_node? ho)
  refine ⟨_, deleted', ?_, hlast, hids⟩
  simp only [takeOver, hget', htrue, if_true]
  exact Prod.ext rfl htrue

theorem Replaced.replace (hp : Replaced prot nl reads deleted news cur)
    (hf : twoInputFn kind = some f) (hc : Computes nl f x y o) (hreads : reads x ∧ reads y)
    (hx : ∃ p, cur.ConsumerPin p x) (hy : ∃ p, cur.ConsumerPin p y) (hnodup : gone.Nodup)
    (hgone : ∀ pos ∈ gone, ∃ c, nl.getModel pos = some c ∧ c.id ∉ deleted)
    (hout : ∃ q, nl.DriverPin q o ∧ ∃ pos ∈ gone, ∃ c, nl.getModel pos = some c ∧ c.id = q.id)
    (hrest : ∀ pos ∈ gone, ∀ c, nl.getModel pos = some c → ∀ q n, nl.DriverPin q n → c.id = q.id →
      n = o ∨ n ∉ prot ∧ n ≠ x ∧ n ≠ y ∧
        ∀ p, cur.ConsumerPin p n → ∃ pos' ∈ gone, ∃ c', nl.getModel pos' = some c' ∧ c'.id = p.id) :
    ∃ cur₁ pos, addInputs cur kind x y = (cur₁, some pos) ∧ ∃ cur' deleted' news', takeOver cur₁ gone pos o =
      (cur', true) ∧
      Replaced prot nl reads deleted' news' cur' ∧
        ∀ id, id ∈ deleted' ↔ id ∈ deleted ∨ ∃ pos' ∈ gone, ∃ c, nl.getModel pos' = some c ∧ c.id = id := by
  have hsome : ∀ z, (∃ p, cur.ConsumerPin p z) → (cur.node? z).isSome := fun z ⟨_, _, _, hc, _, hk⟩ =>
    hp.rewired.sound.isSome_node? hc (List.mem_of_getElem? hk)
  obtain ⟨cur₁, pos, hadd, hr, hget, hne⟩ := addInputs_spec hp.rewired hf (hsome x hx) (hsome y hy)
  obtain ⟨q₀, hq₀, pos₀, hpos₀, c₀, hc₀, hid₀⟩ := hout
  have honode : (nl.node? o).isSome := by
    obtain ⟨-, c, hc, -, hk⟩ := hq₀
    exact h.sound.isSome_node? hc (List.mem_of_getElem? hk)
  obtain ⟨cur', deleted', htake, hr', hids⟩ := takeOver_spec h hr hget hnodup (fun pos' hpos' => by
    obtain ⟨c, hc, hd⟩ := hgone pos' hpos'
    exact ⟨hne pos' _ (hp.rewired.getModel pos' c hc hd), c, hc, hd⟩) rfl honode
  -- the old drivers of a node of a deleted model are its drivers at the start
  have hold : ∀ q n, cur.DriverPin q n → (∃ pos' ∈ gone, ∃ c, nl.getModel pos' = some c ∧ c.id = q.id) →
      ∃ pos' ∈ gone, ∃ c, nl.getModel pos' = some c ∧ nl.DriverPin q n ∧ c.id = q.id := by
    rintro q n hq ⟨pos', hpos', c, hc, hid⟩
    obtain ⟨c', hc', hd⟩ := hgone pos' hpos'
    cases hc.symm.trans hc'
    have hqc : q = ⟨c.id, q.k⟩ := by rw [hid]
    rw [hqc] at hq ⊢
    exact ⟨pos', hpos', c, hc, (hp.rewired.driverPin_old h.sound (mem_bases hc) hd _ _).mp hq, rfl⟩
  have hgate : IsGate nl reads (ModelBase.withPin (inputsOnly cur kind x y) 2 (some o)) x y o :=
    ⟨rfl, hreads, f, hf, hc⟩
  have hextra : Rewired nl [] deleted' (news ++
    (some (ModelBase.withPin (inputsOnly cur kind x y) 2 (some o))).toList) cur' := hr'
  refine ⟨cur₁, pos, hadd, cur', deleted', _, htake, hp.next hextra hids ?_ ?_ ?_, hids⟩
  · rintro id ⟨pos', -, c, hc, rfl⟩
    exact h.sound.lt c (mem_bases hc)
  · rintro b hb
    cases hb
    refine ⟨x, y, o, hgate, hx, hy, fun q hq => ⟨pos₀, hpos₀, c₀, hc₀, ?_⟩⟩
    -- the only driver of the node at the start is the one that goes
    rcases hp.rewired.points_cases hq.2 with ⟨c, hc, hd, hid⟩ | ⟨c, hc, hid, hk⟩
    · have hqc : q = ⟨c.id, q.k⟩ := by rw [hid]
      rw [hqc] at hq
      have hq' := (hp.rewired.driverPin_old h.sound hc hd _ _).mp hq
      rw [hid₀, ← h.single _ _ _ hq' hq₀, hid]
    · have halive : cur.DriverPin q₀ o := by
        obtain ⟨c', hc', hd⟩ := hgone pos₀ hpos₀
        cases hc₀.symm.trans hc'
        have hqc : q₀ = ⟨c₀.id, q₀.k⟩ := by rw [hid₀]
        rw [hqc] at hq₀ ⊢
        exact (hp.rewired.driverPin_old h.sound (mem_bases hc₀) hd _ _).mpr hq₀
      rw [hid₀, hp.single q q₀ o hq halive]
  · intro q n hq hgq
    obtain ⟨pos', hpos', c, hc, hq', hid⟩ := hold q n hq hgq
    rcases hrest pos' hpos' c hc q n hq' hid with rfl | ⟨hprot, hnx, hny, hall⟩
    · exact .inl ⟨_, rfl, rfl⟩
    · refine .inr ⟨hprot, hall, ?_⟩
      rintro b hb x' y' o' hg
      cases hb
      have hpins := hg.pins.symm.trans hgate.pins
      simp only [List.cons.injEq, Option.some.injEq, and_true] at hpins
      exact ⟨hpins.1 ▸ hnx, hpins.2.1 ▸ hny⟩

theorem Replaced.delete (hp : Replaced prot nl reads deleted news cur) {pos : ModelPos}
    {c : ModelBase} (hc : nl.getModel pos = some c) (hd : c.id ∉ deleted)
    (hquiet : ∀ q n, nl.DriverPin q n → q.id = c.id → n ∉ prot ∧ ∀ p, ¬ cur.ConsumerPin p n) :
    Replaced prot nl reads (c.id :: deleted) news (cur.deleteModel pos).1 := by
  have hr : Rewired nl [] (c.id :: deleted) (news ++ (none : Option ModelBase).toList) (cur.deleteModel pos).1 := by
    rw [Option.toList_none, append_nil]
    exact hp.rewired.delete h.sound hc hd
  have hdel : ∀ id, id ∈ c.id :: deleted ↔ id ∈ deleted ∨ id = c.id := fun id => by rw [mem_cons, or_comm]
  rw [← append_nil news]
  refine hp.next hr hdel ?_ (by simp) ?_
  · rintro id rfl
    exact h.sound.lt c (mem_bases hc)
  · intro q n hq hid
    have hqc : q = ⟨c.id, q.k⟩ := by rw [← hid]
    rw [hqc] at hq
    have hq' := (hp.rewired.driverPin_old h.sound (mem_bases hc) hd _ _).mp hq
    obtain ⟨hprot, hnone⟩ := hquiet _ n hq' rfl
    exact .inr ⟨hprot, fun p hp' => absurd hp' (hnone p), by simp⟩

omit h in
theorem isLogicGate_two (hf : twoInputFn kind = some f) :
    isLogicGate kind = true ∧ gatePinCount kind = 3 := by
  cases kind <;> simp only [twoInputFn, reduceCtorEq] at hf <;> exact ⟨rfl, rfl⟩

theorem Replaced.keepsEveryState (hp : Replaced prot nl reads deleted news cur) :
    KeepsEveryState prot nl cur := by
  refine ⟨fun n hobs hdriver => ?_, fun σ => ?_⟩
  · obtain ⟨q, hq⟩ := hp.driven n hobs.2 hdriver
    exact ⟨q, hq, fun q' hq' => hp.single q' q n hq' hq⟩
  · obtain ⟨rank, hrank⟩ := h.acyclic
    have hpinned : ∀ b ∈ nl.bases, WellPinned (stateFns σ) b := fun b hb => h.pinned hb
    have hnewsPinned : ∀ b ∈ news, WellPinned (stateFns σ) b := by
      intro b hb
      obtain ⟨x, y, o, hg⟩ := hp.gates b hb
      obtain ⟨f, hf, -⟩ := hg.computes
      obtain ⟨hlogic, hcount⟩ := isLogicGate_two hf
      refine wellPinned_gate (.inr (.inr hlogic)) ?_ fun _ => ?_ <;> rw [hg.pins]
      · exact hcount.symm
      · simp
    have hranked := hp.rewired.ranked h.sound (ignoresPins_stateFns σ) hpinned (hrank σ) (by simp) (by
      intro b hb e he d hd
      obtain ⟨x, y, o, hg⟩ := hp.gates b hb
      obtain ⟨f, hf, hc⟩ := hg.computes
      rw [pinEquations_two hf hg.pins, mem_singleton] at he
      subst he
      obtain ⟨hx, hy⟩ := hc.rank rank hrank
      have hd : d = x ∨ d = y := by simpa [Equation.apply] using hd
      rcases hd with rfl | rfl
      · exact hx
      · exact hy)
    refine hp.rewired.sameFunction h.sound h.single (ignoresPins_stateFns σ) hpinned hnewsPinned ?_ hranked
      (fun n hobs hdriver => hp.driven n hobs.2 hdriver) fun v hv =>
        ⟨v, ?_, fun _ _ => rfl, fun n hn => .inr (hv.rest n ?_)⟩
    · intro b hb
      obtain ⟨x, y, o, hg⟩ := hp.gates b hb
      obtain ⟨f, hf, -⟩ := hg.computes
      cases hkind : b.model.kind <;> rw [hkind] at hf <;> simp only [twoInputFn, reduceCtorEq] at hf <;>
        simp [stateFns, hkind, ModelKind.gateFn]
    · refine hp.rewired.solves h.sound (ignoresPins_stateFns σ) hpinned hv.solves (by simp) fun b hb e he => ?_
      obtain ⟨x, y, o, hg⟩ := hp.gates b hb
      obtain ⟨f, hf, hc⟩ := hg.computes
      rw [pinEquations_two hf hg.pins, mem_singleton] at he
      rw [he]
      exact hc.value σ v hv.solves
    · rintro ⟨e, he, rfl⟩
      exact hn (isSome_of_mem_system h.sound hpinned he).1

end

/-! ## The records -/

/-- What a record of an inverter says about its model. -/
structure NamesNot (nl : Netlist) (n : NotGate) (m : ModelBase) : Prop where
  getModel : nl.getModel n.pos = some m
  kind : m.model.kind = .not
  pins : m.model.pins = [n.inn, some n.out]
  outPin : n.outPin = ⟨m.id, 1⟩

structure NamesBin (nl : Netlist) (kinds : List ModelKind) (g : BinGate) (m : ModelBase) : Prop where
  getModel : nl.getModel g.pos = some m
  kind : m.model.kind = g.k
  known : g.k ∈ kinds
  pins : m.model.pins = [g.in0, g.in1, some g.out]
  outPin : g.outPin = ⟨m.id, 2⟩

variable {kinds : List ModelKind} {n : NotGate} {g : BinGate} {m : ModelBase} {pos : ModelPos}

theorem namesNot_of_mem (hn : n ∈ nl.gather classifyNot) : ∃ m, NamesNot nl n m := by
  obtain ⟨pos, m, hm, hrec⟩ := mem_gather.mp hn
  unfold classifyNot at hrec
  split at hrec
  · rename_i a o hkind hpins
    cases hrec
    exact ⟨m, hm, hkind, hpins, rfl⟩
  · cases hrec

theorem namesBin_of_mem (hg : g ∈ nl.gather (classifyBin kinds)) : ∃ m, NamesBin nl kinds g m := by
  obtain ⟨pos, m, hm, hrec⟩ := mem_gather.mp hg
  unfold classifyBin at hrec
  split at hrec
  · rename_i hkind
    split at hrec
    · rename_i a b o hpins
      cases hrec
      exact ⟨m, hm, rfl, hkind, hpins, rfl⟩
    · cases hrec
  · cases hrec

theorem pin_of_getElem? (hs : Sound nl) (hm : nl.getModel pos = some m) {x : NodeId}
    (hk : m.model.pins[k]? = some (some x)) {out : Bool} (hout : isOutputPin m.model.kind k m.model.pins.length = out) :
    nl.pinOut ⟨m.id, k⟩ = out ∧ nl.Points ⟨m.id, k⟩ x :=
  (hs.pin_iff out ⟨m.id, k⟩ x).mpr ⟨m, mem_bases hm, rfl, hk, hout⟩

theorem Replaced.pin_iff (h : LogicNetlist nl) (hp : Replaced prot nl reads deleted news cur)
    (hm : m ∈ nl.bases) (hd : m.id ∉ deleted) (k : Nat) (x : NodeId) :
    (cur.DriverPin ⟨m.id, k⟩ x ↔ nl.DriverPin ⟨m.id, k⟩ x) ∧
    (cur.ConsumerPin ⟨m.id, k⟩ x ↔ nl.ConsumerPin ⟨m.id, k⟩ x) := by
  refine ⟨hp.rewired.driverPin_old h.sound hm hd k x, ?_⟩
  rw [hp.rewired.consumerPin_old h.sound hm hd, ConsumerPin, h.sound.points_iff_pin hm]
  refine and_congr_right fun _ => ⟨?_, fun hk => ⟨x, hk, rfl⟩⟩
  rintro ⟨y, hy, heq⟩
  rw [hy, ← heq]
  rfl

theorem Replaced.consumer_cases (h : LogicNetlist nl) (hp : Replaced prot nl reads deleted news cur)
    {p : PinRef} {x : NodeId} (hx : cur.ConsumerPin p x) : nl.ConsumerPin p x ∨ reads x := by
  rcases hp.rewired.points_cases hx.2 with ⟨c, hc, hd, hid⟩ | ⟨c, hc, hid, hk⟩
  · have hpc : p = ⟨c.id, p.k⟩ := by rw [hid]
    rw [hpc] at hx ⊢
    exact .inl ((hp.pin_iff h hc hd _ _).2.mp hx)
  · obtain ⟨a, b, o, hg⟩ := hp.gates c hc
    have hout := hp.rewired.sound.pinOut_eq (hp.rewired.mem_bases_new hc) p.k
    rw [hid, decide_eq_true (List.getElem?_eq_some_iff.mp hk).1, Bool.true_and] at hout
    rcases hg.pin hk with ⟨htrue, -⟩ | ⟨-, rfl | rfl⟩
    · exact absurd (hx.1.symm.trans (hout.trans htrue)) (by decide)
    · exact .inr hg.reads.1
    · exact .inr hg.reads.2

section Names

variable (h : LogicNetlist nl)

include h

theorem NamesNot.driver (hn : NamesNot nl n m) : nl.DriverPin ⟨m.id, 1⟩ n.out :=
  pin_of_getElem? h.sound hn.getModel (by rw [hn.pins]; rfl) (by rw [hn.kind, hn.pins]; rfl)

theorem NamesNot.consumer (hn : NamesNot nl n m) {x : NodeId} (hx : n.inn = some x) : nl.ConsumerPin ⟨m.id, 0⟩ x :=
  pin_of_getElem? h.sound hn.getModel (by rw [hn.pins, hx]; rfl) (by rw [hn.kind, hn.pins]; rfl)

theorem NamesBin.driver (hg : NamesBin nl kinds g m) (hf : twoInputFn g.k = some f) :
    nl.DriverPin ⟨m.id, 2⟩ g.out :=
  pin_of_getElem? h.sound hg.getModel (by rw [hg.pins]; rfl) (by rw [hg.kind, hg.pins]; exact isOutputPin_two hf 2)

theorem NamesBin.consumer (hg : NamesBin nl kinds g m) (hf : twoInputFn g.k = some f) (hk : k < 2) {x : NodeId}
    (hx : m.model.pins[k]? = some (some x)) : nl.ConsumerPin ⟨m.id, k⟩ x :=
  pin_of_getElem? h.sound hg.getModel hx (by
    rw [hg.kind, hg.pins, show [g.in0, g.in1, some g.out].length = 3 from rfl, isOutputPin_two hf]
    exact decide_eq_false (by omega))

theorem Replaced.alive (hp : Replaced prot nl reads deleted news cur) (hm : nl.getModel pos = some m)
    {x : NodeId} (hdriver : nl.DriverPin ⟨m.id, k⟩ x) :
    cur.hasUniqueDriverPin nl.pinOut x ⟨m.id, k⟩ = true ↔ m.id ∉ deleted :=
  hp.rewired.hasUniqueDriverPin_iff h.sound h.single (mem_bases hm) hdriver.1
    ((h.sound.points_iff_pin (mem_bases hm) _ _).mp hdriver.2)

theorem eq_of_driverPin (hm : nl.getModel pos = some m) (hlogic : isLogicGate m.model.kind) {x y : NodeId}
    (hdriver : nl.DriverPin ⟨m.id, k⟩ x) {q : PinRef} (hq : nl.DriverPin q y) (hid : m.id = q.id) : y = x := by
  have hqm : q = ⟨m.id, q.k⟩ := by rw [hid]
  rw [hqm] at hq
  rw [h.eq_of_pinOut (mem_bases hm) hlogic hq.1 hdriver.1] at hq
  exact h.sound.points_unique hq.2 hdriver.2

omit h in
theorem NamesNot.value (hn : NamesNot nl n m) {x : NodeId} (hx : n.inn = some x) {σ : Nat → LogicT}
    {v : NodeId → LogicT}
    (hv : Solves (system (stateFns σ) nl) v) : v n.out = (v x).logicNot :=
  solves_one hv (mem_bases hn.getModel) (by rw [hn.kind]; rfl) (by rw [hn.pins, hx])

omit h in
theorem NamesNot.rank_lt (hn : NamesNot nl n m) {x : NodeId} (hx : n.inn = some x) {rank : NodeId → Nat}
    (hrank : ∀ σ, Ranked (system (stateFns σ) nl) rank) : rank x < rank n.out := by
  have heq := pinEquations_one (b := m) (σ := fun _ => .X) (f := LogicT.logicNot) (by rw [hn.kind]; rfl)
    (x := x) (o := n.out) (by rw [hn.pins, hx])
  exact hrank _ _ (mem_system.mpr ⟨m, mem_bases hn.getModel, by rw [heq]; exact mem_singleton_self _⟩) x
    (by simp [Equation.apply])

omit h in
theorem NamesBin.computes (hg : NamesBin nl kinds g m) (hf : twoInputFn g.k = some f) {x y : NodeId}
    (hx : g.in0 = some x) (hy : g.in1 = some y) : Computes nl f x y g.out := by
  have hfm : twoInputFn m.model.kind = some f := by rw [hg.kind, hf]
  have hpins : m.model.pins = [some x, some y, some g.out] := by rw [hg.pins, hx, hy]
  have hmem := mem_bases hg.getModel
  refine ⟨fun σ v hv => solves_two hv hmem hfm hpins, fun rank hrank => ?_⟩
  have hdep := hrank (fun _ => .X) _ (mem_system.mpr ⟨m, hmem, by
    rw [pinEquations_two hfm hpins]
    exact mem_singleton_self _⟩)
  exact ⟨hdep x (by simp [Equation.apply]), hdep y (by simp [Equation.apply])⟩

end Names

theorem complement_spec {k nk : ModelKind} (hk : complement k = some nk) : ∃ f f', twoInputFn k = some f ∧
    twoInputFn nk = some f' ∧ ∀ a b, f' a b = (f a b).logicNot := by
  cases k <;> simp only [complement, reduceCtorEq, Option.some.injEq] at hk <;> subst hk <;>
    exact ⟨_, _, rfl, rfl, fun a b => by cases a <;> cases b <;> rfl⟩

theorem pushedGate_spec {k name : ModelKind} {in0 in1 na nb : NodeId} {a b : Option NodeId}
    (hk : pushedGate k in0 in1 a b = some (name, na, nb)) : ∃ f f', twoInputFn k = some f ∧ twoInputFn name = some f' ∧
      (∀ v : NodeId → LogicT, (∀ x ∈ a, v in0 = (v x).logicNot) → (∀ y ∈ b, v in1 = (v y).logicNot) →
        f (v in0) (v in1) = f' (v na) (v nb)) ∧
      ∀ z, z = na ∨ z = nb → z = in0 ∨ z = in1 ∨ z ∈ a ∨ z ∈ b := by
  cases k <;> rcases a with - | x <;> rcases b with - | y <;>
    simp only [pushedGate, reduceCtorEq, Option.some.injEq, Prod.mk.injEq] at hk <;>
    obtain ⟨rfl, rfl, rfl⟩ := hk <;> refine ⟨_, _, rfl, rfl, fun v hx hy => ?_, by simp⟩
  all_goals first
  | (rw [hx x rfl, hy y rfl] <;> cases v x <;> cases v y <;> rfl)
  | (rw [hx x rfl] <;> cases v x <;> cases v in1 <;> rfl)
  | (rw [hy y rfl] <;> cases v in0 <;> cases v y <;> rfl)

/-! ## The steps -/

def ReadByGate (nl : Netlist) (x : NodeId) : Prop :=
  ∃ m ∈ nl.bases, m.model.kind ≠ .not ∧ ∃ k, nl.ConsumerPin ⟨m.id, k⟩ x

section

variable (h : LogicNetlist nl)
include h

variable {changed : Bool}

theorem fuseStep_spec (hn : n ∈ nl.gather classifyNot)
    (hp : Replaced prot nl (ReadByGate nl) deleted news cur) : ∃ deleted' news', Replaced prot nl
      (ReadByGate nl) deleted' news' (fuseStep prot nl (nl.gather (classifyBin fusedKinds)) (cur, changed) n).1 := by
  have hkeep : ∃ deleted' news', Replaced prot nl (ReadByGate nl) deleted' news' cur := ⟨_, _, hp⟩
  obtain ⟨mn, hn⟩ := namesNot_of_mem hn
  rw [fuseStep]
  split
  · exact hkeep
  rename_i inn hinn
  split_ifs with hprot
  · exact hkeep
  split
  · exact hkeep
  rename_i g hfind
  obtain ⟨mg, hg⟩ := namesBin_of_mem (mem_of_find?_eq_some hfind)
  have hgout : g.out = inn := by simpa using find?_some hfind
  split
  · rename_i in0 in1 nk hin0 hin1 hnk
    split_ifs with hfan hunique
    · exact hkeep
    · exact hkeep
    obtain ⟨f, f', hf, hf', hcompl⟩ := complement_spec hnk
    obtain ⟨hcount, hreader⟩ := not_or.mp hfan
    obtain ⟨hgalive, hnalive⟩ := not_or.mp hunique
    rw [Bool.not_eq_false, hg.outPin, hp.alive h hg.getModel (hg.driver h hf)] at hgalive
    rw [Bool.not_eq_false, hn.outPin, hp.alive h hn.getModel (hn.driver h)] at hnalive
    have hgc := hg.computes hf hin0 hin1
    have hmg := mem_bases hg.getModel
    have hgkind : mg.model.kind ≠ .not := by
      rw [hg.kind]
      rintro heq
      rw [heq] at hf
      cases hf
    have hread0 := hg.consumer h hf (by omega : 0 < 2) (by rw [hg.pins, hin0]; rfl)
    have hread1 := hg.consumer h hf (by omega : 1 < 2) (by rw [hg.pins, hin1]; rfl)
    have honly := fun p hp' => eq_of_fanCount_one (not_not.mp hreader) (p := p) hp' (hgout ▸ hn.consumer h hinn)
    have hc : Computes nl f' in0 in1 n.out := by
      refine ⟨fun σ v hv => ?_, fun rank hrank => ?_⟩
      · rw [hn.value hinn hv, ← hgout, hgc.value σ v hv, hcompl]
      · have hlt := hn.rank_lt hinn hrank
        obtain ⟨h0, h1⟩ := hgc.rank rank hrank
        rw [hgout] at h0 h1
        exact ⟨h0.trans hlt, h1.trans hlt⟩
    obtain ⟨rank, hrank⟩ := h.acyclic
    obtain ⟨hlt0, hlt1⟩ := hgc.rank rank hrank
    have hnodup : [n.pos, g.pos].Nodup := by
      rw [nodup_cons, mem_singleton]
      refine ⟨fun heq => hgkind ?_, nodup_singleton _⟩
      have hgetModel := hn.getModel
      rw [heq, hg.getModel] at hgetModel
      rw [Option.some.inj hgetModel]
      exact hn.kind
    have halive : ∀ pos ∈ [n.pos, g.pos], ∃ c, nl.getModel pos = some c ∧ c.id ∉ deleted := by
      intro pos hpos
      rcases mem_pair.mp hpos with rfl | rfl
      · exact ⟨mn, hn.getModel, hnalive⟩
      · exact ⟨mg, hg.getModel, hgalive⟩
    have hrest : ∀ pos ∈ [n.pos, g.pos], ∀ c, nl.getModel pos = some c → ∀ q y, nl.DriverPin q y → c.id = q.id →
        y = n.out ∨ y ∉ prot ∧ y ≠ in0 ∧ y ≠ in1 ∧ ∀ p, cur.ConsumerPin p y →
          ∃ pos' ∈ [n.pos, g.pos], ∃ c', nl.getModel pos' = some c' ∧ c'.id = p.id := by
      intro pos hpos c hc' q y hq hid
      rcases mem_pair.mp hpos with rfl | rfl
      · cases hn.getModel.symm.trans hc'
        exact .inl (eq_of_driverPin h hn.getModel (by rw [hn.kind]; rfl) (hn.driver h) hq hid)
      · cases hg.getModel.symm.trans hc'
        have hy := eq_of_driverPin h hg.getModel (by rw [hg.kind]; exact (isLogicGate_two hf).1) (hg.driver h hf) hq hid
        subst hy
        refine .inr ⟨hgout ▸ hprot, fun heq => ?_, fun heq => ?_, fun p hp' => ?_⟩
        · rw [heq] at hlt0
          omega
        · rw [heq] at hlt1
          omega
        · rcases hp.consumer_cases h hp' with hold | ⟨c, hc, hkind, k, hk⟩
          · rw [honly p hold]
            exact ⟨n.pos, mem_cons_self, mn, hn.getModel, rfl⟩
          · have heq := congrArg PinRef.id (honly _ hk)
            rw [h.sound.eq_of_id hc (mem_bases hn.getModel) heq] at hkind
            exact absurd hn.kind hkind
    obtain ⟨cur₁, pos, hadd, cur', deleted', news', htake, hnext, -⟩ := hp.replace h hf' hc
      ⟨⟨mg, hmg, hgkind, 0, hread0⟩, ⟨mg, hmg, hgkind, 1, hread1⟩⟩
      ⟨_, (hp.pin_iff h hmg hgalive 0 in0).2.mpr hread0⟩ ⟨_, (hp.pin_iff h hmg hgalive 1 in1).2.mpr hread1⟩
      hnodup halive ⟨_, hn.driver h, n.pos, mem_cons_self, mn, hn.getModel, rfl⟩ hrest
    rw [hadd]
    simp only [htake]
    exact ⟨_, _, hnext⟩
  · exact hkeep

theorem tryDeleteNot_spec (hn : NamesNot nl n m)
    (hp : Replaced prot nl reads deleted news cur) : ∃ deleted', Replaced prot nl reads deleted' news
      (tryDeleteNot prot nl cur n) := by
  rw [tryDeleteNot]
  split_ifs with hskip
  · exact ⟨_, hp⟩
  obtain ⟨hprot, halive⟩ := not_or.mp hskip
  rw [Bool.not_eq_false, hn.outPin, hp.alive h hn.getModel (hn.driver h)] at halive
  split
  · exact ⟨_, hp⟩
  rename_i nd hnd
  split_ifs with hread
  · exact ⟨_, hp⟩
  have hm := mem_bases hn.getModel
  refine ⟨_, hp.delete h hn.getModel halive fun q y hq hid => ?_⟩
  obtain rfl := eq_of_driverPin h hn.getModel (by rw [hn.kind]; rfl) (hn.driver h) hq hid.symm
  refine ⟨hprot, fun p hp' => hread ⟨p, (hp.rewired.sound.consistent.pins_exact _ nd hnd p).mpr hp'.2, ?_, ?_⟩⟩
  · rintro rfl
    rw [hn.outPin] at hp'
    exact absurd (hp'.1.symm.trans ((hp.pin_iff h hm halive 1 _).1.mpr (hn.driver h)).1) (by decide)
  · rcases hp.rewired.points_cases hp'.2 with ⟨c, hc, hd, hid⟩ | ⟨c, hc, hid, -⟩
    · have hpc : p = ⟨c.id, p.k⟩ := by rw [hid]
      rw [hpc] at hp' ⊢
      exact ((hp.pin_iff h hc hd _ _).2.mp hp').1
    · exact h.sound.pinOut_eq_false (hid ▸ hp.rewired.fresh c hc)

theorem okNot_spec (hn : NamesNot nl n m) (hp : Replaced prot nl reads deleted news cur)
    (hok : okNot prot nl cur n = true) : m.id ∉ deleted := by
  simp only [okNot, Bool.and_eq_true] at hok
  have hunique := hok.2
  rwa [hn.outPin, hp.alive h hn.getModel (hn.driver h)] at hunique

theorem tryDeleteNots_spec (ns : List NotGate) (hns : ∀ n ∈ ns, ∃ m, NamesNot nl n m)
    {cur : Netlist} {deleted : List Nat} (hp : Replaced prot nl reads deleted news cur) :
    ∃ deleted', Replaced prot nl reads deleted' news (ns.foldl (tryDeleteNot prot nl) cur) := by
  induction ns generalizing cur deleted with
  | nil => exact ⟨_, hp⟩
  | cons n ns ih =>
    rw [forall_mem_cons] at hns
    obtain ⟨m, hn⟩ := hns.1
    obtain ⟨deleted', hnext⟩ := tryDeleteNot_spec h hn hp
    exact ih hns.2 hnext

theorem pushStep_spec (hg : g ∈ nl.gather (classifyBin pushedKinds))
    (hp : Replaced prot nl (fun _ => True) deleted news cur) : ∃ deleted' news', Replaced prot nl
      (fun _ => True) deleted' news' (pushStep prot nl (nl.gather classifyNot) (cur, changed) g).1 := by
  have hkeep : ∃ deleted' news', Replaced prot nl (fun _ => True) deleted' news' cur := ⟨_, _, hp⟩
  obtain ⟨mg, hg⟩ := namesBin_of_mem hg
  rw [pushStep]
  split
  · rename_i in0 in1 hin0 hin1
    split_ifs with hskip
    · exact hkeep
    simp only
    split_ifs with hok
    · exact hkeep
    split
    · exact hkeep
    rename_i name na nb hpushed
    obtain ⟨f, f', hf, hf', hvalue, hsource⟩ := pushedGate_spec hpushed
    have hgalive := (not_or.mp hskip).1
    rw [Bool.not_eq_false, hg.outPin, hp.alive h hg.getModel (hg.driver h hf)] at hgalive
    rw [Bool.not_eq_false, all_eq_true] at hok
    have hmg := mem_bases hg.getModel
    have hgc := hg.computes hf hin0 hin1
    -- an inverter that is looked through is still there, and in front of the gate
    have hthrough : ∀ inn, inn = in0 ∨ inn = in1 → ∀ x ∈ (notByOut (nl.gather classifyNot) inn).bind NotGate.inn,
        (∀ σ v, Solves (system (stateFns σ) nl) v → v inn = (v x).logicNot) ∧ (∃ p, cur.ConsumerPin p x) ∧
          ∀ rank, (∀ σ, Ranked (system (stateFns σ) nl) rank) → rank x < rank inn := by
      intro inn hinn x hx
      obtain ⟨n, hfind, hin⟩ := Option.bind_eq_some_iff.mp hx
      obtain ⟨m, hn⟩ := namesNot_of_mem (mem_of_find?_eq_some hfind)
      obtain rfl : n.out = inn := by simpa using find?_some hfind
      have halive := okNot_spec h hn hp (hok n (by rcases hinn with rfl | rfl <;> simp [hfind]))
      have hpin := hp.pin_iff h (mem_bases hn.getModel) halive 0 x
      exact ⟨fun _ _ hv => hn.value hin hv, ⟨_, hpin.2.mpr (hn.consumer h hin)⟩, fun _ hrank => hn.rank_lt hin hrank⟩
    have hfront : ∀ z, z = na ∨ z = nb → (∃ p, cur.ConsumerPin p z) ∧
        ∀ rank, (∀ σ, Ranked (system (stateFns σ) nl) rank) → rank z < rank g.out := by
      intro z hz
      have hread : ∀ k < 2, ∀ x, mg.model.pins[k]? = some (some x) → ∃ p, cur.ConsumerPin p x := fun k hk x hx =>
        ⟨_, (hp.pin_iff h hmg hgalive k x).2.mpr (hg.consumer h hf hk hx)⟩
      rcases hsource z hz with rfl | rfl | hz | hz
      · exact ⟨hread 0 (by omega) _ (by rw [hg.pins, hin0]; rfl), fun rank hrank => (hgc.rank rank hrank).1⟩
      · exact ⟨hread 1 (by omega) _ (by rw [hg.pins, hin1]; rfl), fun rank hrank => (hgc.rank rank hrank).2⟩
      · obtain ⟨-, hx, hlt⟩ := hthrough in0 (.inl rfl) z hz
        exact ⟨hx, fun rank hrank => (hlt rank hrank).trans (hgc.rank rank hrank).1⟩
      · obtain ⟨-, hx, hlt⟩ := hthrough in1 (.inr rfl) z hz
        exact ⟨hx, fun rank hrank => (hlt rank hrank).trans (hgc.rank rank hrank).2⟩
    have hc : Computes nl f' na nb g.out := by
      refine ⟨fun σ v hv => ?_, fun rank hrank =>
        ⟨(hfront na (.inl rfl)).2 rank hrank, (hfront nb (.inr rfl)).2 rank hrank⟩⟩
      rw [hgc.value σ v hv]
      exact hvalue v (fun x hx => (hthrough in0 (.inl rfl) x hx).1 σ v hv) fun y hy =>
        (hthrough in1 (.inr rfl) y hy).1 σ v hv
    have hrest : ∀ pos ∈ [g.pos], ∀ c, nl.getModel pos = some c → ∀ q y, nl.DriverPin q y → c.id = q.id →
        y = g.out ∨ y ∉ prot ∧ y ≠ na ∧ y ≠ nb ∧ ∀ p, cur.ConsumerPin p y →
          ∃ pos' ∈ [g.pos], ∃ c', nl.getModel pos' = some c' ∧ c'.id = p.id := by
      intro pos hpos c hc' q y hq hid
      obtain rfl := mem_singleton.mp hpos
      cases hg.getModel.symm.trans hc'
      exact .inl (eq_of_driverPin h hg.getModel (by rw [hg.kind]; exact (isLogicGate_two hf).1) (hg.driver h hf) hq hid)
    have hnames : ∀ P : NotGate → Bool, ∀ n ∈ (notByOut (nl.gather classifyNot) in0).toList ++
        (notByOut (nl.gather classifyNot) in1).toList.filter P, ∃ m, NamesNot nl n m := by
      intro P n hn
      rcases mem_append.mp hn with hn | hn
      · exact namesNot_of_mem (mem_of_find?_eq_some (Option.mem_toList.mp hn))
      · exact namesNot_of_mem (mem_of_find?_eq_some (Option.mem_toList.mp (mem_of_mem_filter hn)))
    obtain ⟨cur₁, pos, hadd, cur', deleted', news', htake, hnext, -⟩ := hp.replace h hf' hc ⟨trivial, trivial⟩
      (hfront na (.inl rfl)).1 (hfront nb (.inr rfl)).1 (nodup_singleton g.pos)
      (fun pos hpos => mem_singleton.mp hpos ▸ ⟨mg, hg.getModel, hgalive⟩)
      ⟨_, hg.driver h hf, g.pos, mem_singleton_self _, mg, hg.getModel, rfl⟩ hrest
    rw [hadd]
    simp only [htake]
    rw [if_neg (by simp)]
    obtain ⟨deleted'', hlast⟩ := tryDeleteNots_spec h _ (hnames _) hnext
    exact ⟨_, _, hlast⟩
  · exact hkeep

end

/-- A pass over records: each of its steps goes from a netlist with the old states to another. -/
theorem Replaced.foldl {Record : Type} {step : Netlist × Bool → Record → Netlist × Bool} (rs : List Record)
    (st : Netlist × Bool) (hstep : ∀ r ∈ rs, ∀ cur changed deleted news, Replaced prot nl reads deleted news cur →
      ∃ deleted' news', Replaced prot nl reads deleted' news' (step (cur, changed) r).1)
    {deleted : List Nat} {news : List ModelBase} (hp : Replaced prot nl reads deleted news st.1) :
    ∃ deleted' news', Replaced prot nl reads deleted' news' (rs.foldl step st).1 := by
  induction rs generalizing st deleted news with
  | nil => exact ⟨_, _, hp⟩
  | cons r rs ih =>
    rw [forall_mem_cons] at hstep
    obtain ⟨deleted', news', hnext⟩ := hstep.1 st.1 st.2 deleted news hp
    exact ih _ hstep.2 hnext

/-- Both passes keep the state of every node that is protected or read, for every state of the
inputs. -/
theorem inverters_keepEveryState (prot : List NodeId) (nl : Netlist) (h : LogicNetlist nl) :
    KeepsEveryState prot nl (optimizeFuseInverters prot nl).1 ∧
      KeepsEveryState prot nl (optimizePushInputInverters prot nl).1 := by
  constructor
  · obtain ⟨_, _, hp⟩ := Replaced.foldl (nl.gather classifyNot) (nl, false)
      (fun n hn _ _ _ _ hp => fuseStep_spec h hn hp) (Replaced.start h)
    exact hp.keepsEveryState h
  · obtain ⟨_, _, hp⟩ := Replaced.foldl (nl.gather (classifyBin pushedKinds)) (nl, false)
      (fun g hg _ _ _ _ hp => pushStep_spec h hg hp) (Replaced.start h)
    exact hp.keepsEveryState h

end Run

/-- A conjunction between inverters, of which either pass removes one. -/
def invertedAnd : Netlist := .ofModels 5 [.port .input [0] "a" [.digital .L],
  .port .input [1] "b" [.digital .L], .on .not [0, 2], .on .and [2, 1, 3], .on .not [3, 4],
  .port .output [4] "y" []]

example : ((optimizeFuseInverters [] invertedAnd).1.bases.map fun b => b.model.kind) =
    [.input, .input, .not, .output, .nand] := by decide +kernel

example : ((optimizePushInputInverters [] invertedAnd).1.bases.map fun b => b.model.kind) =
    [.input, .input, .not, .output, .nimp] := by decide +kernel

theorem inverters_keepEveryState_invertedAnd :
    KeepsEveryState [.node 4] invertedAnd (optimizeFuseInverters [.node 4] invertedAnd).1 ∧
      KeepsEveryState [.node 4] invertedAnd (optimizePushInputInverters [.node 4] invertedAnd).1 :=
  inverters_keepEveryState [.node 4] invertedAnd
    (logicNetlist_of_check NodeId.index
      (by decide +kernel) (by decide +kernel) (by decide +kernel))

end Inverters

end PhyEngine
