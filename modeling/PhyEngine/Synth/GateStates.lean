import PhyEngine.Circuit.Slots
import PhyEngine.Netlist.Function
import PhyEngine.Synth.Options

/-!
# States of a netlist of gates

The nodes of a netlist of gates settle on four-valued states: a named `INPUT` has a state from
outside, and a node that nothing drives is indeterminate. `KeepsStates` is what a gate-level pass
owes to it.
-/

namespace PhyEngine

open Equations Equation

def inputState (σ : Nat → LogicT) (b : ModelBase) : LogicT :=
  if b.model.name = "" then
    match b.model.getAttribute 0 with
    | .digital v => v
    | _ => .X
  else σ b.id

def stateFns (σ : Nat → LogicT) : PinSemantics LogicT := fun b =>
  if b.model.kind = .output then none
  else
    (b.model.kind.gateFn (inputState σ b)).map fun g =>
      { arity := g.arity
        fns := (List.range g.count).map fun k ins => (g.fn ins).getD k .X }

def gatePinCount : ModelKind → Nat
  | .input | .output => 1
  | .yes | .not => 2
  | _ => 3

namespace Netlist

theorem ignoresPins_stateFns (σ : Nat → LogicT) : IgnoresPins (stateFns σ) := fun _ _ => rfl

/-- An acyclic netlist of `INPUT` and `OUTPUT` models and connected gates in which no node
has two drivers. -/
structure LogicNetlist (nl : Netlist) : Prop where
  sound : Sound nl
  kinds : ∀ b ∈ nl.bases, b.model.kind = .input ∨ b.model.kind = .output ∨ isLogicGate b.model.kind
  length : ∀ b ∈ nl.bases, b.model.pins.length = gatePinCount b.model.kind
  connected : ∀ b ∈ nl.bases, isLogicGate b.model.kind → none ∉ b.model.pins
  single : SingleDriverPins nl
  acyclic : ∃ rank : NodeId → Nat, ∀ σ, Ranked (system (stateFns σ) nl) rank

def KnownInputs (σ : Nat → LogicT) (nl : Netlist) : Prop :=
  ∀ b ∈ nl.bases, b.model.kind = .input → inputState σ b ≠ .Z

/-- What a pass owes to a netlist of gates: every observed node that had a driver has
exactly one, and for every state of the inputs the netlist settles on the old states. -/
structure KeepsStates (prot : List NodeId) (nl nl' : Netlist) : Prop where
  driver : ∀ n, Observed prot nl nl' n → (∃ p, nl.DriverPin p n) → ∃! p, nl'.DriverPin p n
  state : ∀ σ, KnownInputs σ nl →
    SameFunction (stateFns σ) (fun _ => .X) nl nl' (Observed prot nl nl')

def twoInputFn : ModelKind → Option (LogicT → LogicT → LogicT)
  | .and => some LogicT.logicAnd
  | .or => some LogicT.logicOr
  | .xor => some LogicT.logicXor
  | .xnor => some fun a b => (a.logicXor b).logicNot
  | .nand => some fun a b => (a.logicAnd b).logicNot
  | .nor => some fun a b => (a.logicOr b).logicNot
  | .imp => some fun a b => a.logicNot.logicOr b
  | .nimp => some fun a b => a.logicAnd b.logicNot
  | _ => none

def oneInputFn : ModelKind → Option (LogicT → LogicT)
  | .yes => some id
  | .not => some LogicT.logicNot
  | _ => none

variable {σ : Nat → LogicT} {nl : Netlist} {b : ModelBase}

variable {x o : NodeId} {v : NodeId → LogicT}

theorem pinEquations_two {f : LogicT → LogicT → LogicT} (hf : twoInputFn b.model.kind = some f) {y : NodeId}
    (hpins : b.model.pins = [some x, some y, some o]) :
    pinEquations (stateFns σ) b =
      [apply o [x, y] fun ins => (onTwo f ins).getD 0 .X] := by
  cases hkind : b.model.kind <;> rw [hkind] at hf <;> simp only [twoInputFn, reduceCtorEq] at hf <;>
    obtain rfl := Option.some.inj hf <;>
    simp [pinEquations, stateFns, hkind, ModelKind.gateFn, hpins, List.range_succ,
      List.reduceOption]

theorem pinEquations_one {f : LogicT → LogicT} (hf : oneInputFn b.model.kind = some f)
    (hpins : b.model.pins = [some x, some o]) :
    pinEquations (stateFns σ) b = [apply o [x] fun ins => (onOne f ins).getD 0 .X] := by
  cases hkind : b.model.kind <;> rw [hkind] at hf <;> simp only [oneInputFn, reduceCtorEq] at hf <;>
    obtain rfl := Option.some.inj hf <;>
    simp [pinEquations, stateFns, hkind, ModelKind.gateFn, hpins, List.range_succ,
      List.reduceOption]
  rfl

theorem pinEquations_input (hkind : b.model.kind = .input) (hpins : b.model.pins = [some o]) :
    pinEquations (stateFns σ) b = [apply o [] fun _ => inputState σ b] := by
  simp [pinEquations, stateFns, hkind, ModelKind.gateFn, hpins, List.range_succ, List.reduceOption]

section

variable (hv : Solves (system (stateFns σ) nl) v) (hb : b ∈ nl.bases)

include hv hb

theorem solves_two {f : LogicT → LogicT → LogicT} (hf : twoInputFn b.model.kind = some f) {y : NodeId}
    (hpins : b.model.pins = [some x, some y, some o]) :
    v o = f (v x) (v y) := by
  have he := hv _ (mem_system.mpr ⟨b, hb, by rw [pinEquations_two hf hpins]; exact List.mem_singleton_self _⟩)
  simpa [apply, onTwo] using he

theorem solves_one {f : LogicT → LogicT} (hf : oneInputFn b.model.kind = some f)
    (hpins : b.model.pins = [some x, some o]) : v o = f (v x) := by
  have he := hv _ (mem_system.mpr ⟨b, hb, by rw [pinEquations_one hf hpins]; exact List.mem_singleton_self _⟩)
  simpa [apply, onOne] using he

theorem solves_input (hkind : b.model.kind = .input) (hpins : b.model.pins = [some o]) :
    v o = inputState σ b := by
  have he := hv _ (mem_system.mpr ⟨b, hb, by rw [pinEquations_input hkind hpins]; exact List.mem_singleton_self _⟩)
  simpa [apply] using he

end

theorem isLogicGate_cases {kind : ModelKind} (h : isLogicGate kind) :
    (∃ f, oneInputFn kind = some f ∧ gatePinCount kind = 2) ∨
      ∃ f, twoInputFn kind = some f ∧ gatePinCount kind = 3 := by
  cases kind <;> simp_all [isLogicGate, oneInputFn, twoInputFn, gatePinCount]

variable {ps : List (Option NodeId)}

theorem exists_pins_two (hlen : ps.length = 2) (h : none ∉ ps) :
    ∃ x o, ps = [some x, some o] := by
  match ps, hlen with
  | [some x, some o], _ => exact ⟨x, o, rfl⟩
  | [none, _], _ => simp at h
  | [some _, none], _ => simp at h

theorem exists_pins_three (hlen : ps.length = 3) (h : none ∉ ps) :
    ∃ x y o, ps = [some x, some y, some o] := by
  match ps, hlen with
  | [some x, some y, some o], _ => exact ⟨x, y, o, rfl⟩
  | [none, _, _], _ => simp at h
  | [some _, none, _], _ => simp at h
  | [some _, some _, none], _ => simp at h

theorem wellPinned_gate (hkind : b.model.kind = .input ∨ b.model.kind = .output ∨ isLogicGate b.model.kind)
    (hlen : b.model.pins.length = gatePinCount b.model.kind)
    (hconn : isLogicGate b.model.kind → none ∉ b.model.pins) : WellPinned (stateFns σ) b := by
  constructor
  · intro g hg n hn
    rcases hkind with hk | hk | hk
    · rw [hk] at hlen
      match hps : b.model.pins, hlen with
      | [some x], _ => simp
      | [none], _ => simp [hps] at hn
    · simp [stateFns, hk] at hg
    · exact hconn hk
  · intro g hg
    rw [hlen]
    rcases hkind with hk | hk | hk
    · simp only [stateFns, hk, ModelKind.gateFn, reduceCtorEq, if_false, Option.map_some,
        Option.some.injEq] at hg
      simp [← hg, hk, gatePinCount]
    · simp [stateFns, hk] at hg
    · cases hkind : b.model.kind <;> simp only [hkind, isLogicGate, Bool.false_eq_true] at hk <;>
        simp only [stateFns, hkind, ModelKind.gateFn, reduceCtorEq, if_false, Option.map_some,
          Option.some.injEq] at hg <;>
        simp [← hg, gatePinCount]
  · intro g hg k hk
    rw [hlen] at hk ⊢
    rcases hkind with hk' | hk' | hk'
    · simp only [stateFns, hk', ModelKind.gateFn, reduceCtorEq, if_false, Option.map_some,
        Option.some.injEq] at hg
      simp only [hk', gatePinCount] at hk
      simp [← hg, hk', isOutputPin]
      omega
    · simp [stateFns, hk'] at hg
    · cases hkind : b.model.kind <;> simp only [hkind, isLogicGate, Bool.false_eq_true] at hk' <;>
        simp only [stateFns, hkind, ModelKind.gateFn, reduceCtorEq, if_false, Option.map_some,
          Option.some.injEq] at hg <;>
        simp only [hkind, gatePinCount] at hk <;>
        rw [Bool.eq_iff_iff] <;> simp [← hg, isOutputPin, gatePinCount] <;> omega

def gateCheck (rank : NodeId → Nat) (b : ModelBase) : Bool :=
  (decide (b.model.kind = .input) || decide (b.model.kind = .output) || isLogicGate b.model.kind) &&
    decide (b.model.pins.length = gatePinCount b.model.kind) &&
    (!isLogicGate b.model.kind || decide (none ∉ b.model.pins)) &&
    b.model.pins.zipIdx.all fun d => b.model.pins.zipIdx.all fun t =>
      isOutputPin b.model.kind d.2 b.model.pins.length || !isOutputPin b.model.kind t.2 b.model.pins.length ||
        match d.1, t.1 with
        | some x, some y => decide (rank x < rank y)
        | _, _ => true

theorem logicNetlist_of_check (rank : NodeId → Nat) (hsound : soundCheck nl = true)
    (hsingle : singleDriverCheck nl = true) (hgates : nl.bases.all (gateCheck rank) = true) :
    LogicNetlist nl := by
  rw [List.all_eq_true] at hgates
  have hgate : ∀ b ∈ nl.bases, ((b.model.kind = .input ∨ b.model.kind = .output ∨ isLogicGate b.model.kind) ∧
      b.model.pins.length = gatePinCount b.model.kind) ∧ (isLogicGate b.model.kind → none ∉ b.model.pins) := by
    intro b hb
    have hcheck := hgates b hb
    simp only [gateCheck, Bool.and_eq_true, Bool.or_eq_true, decide_eq_true_eq, Bool.not_eq_true',
      or_assoc] at hcheck
    refine ⟨hcheck.1.1, fun hlogic => ?_⟩
    rcases hcheck.1.2 with hno | hconn
    · rw [hlogic] at hno
      cases hno
    · exact hconn
  have hranks : RanksPins rank nl := by
    intro b hb d hd t ht hin hout x y hx hy
    have hcheck := hgates b hb
    simp only [gateCheck, Bool.and_eq_true, List.all_eq_true] at hcheck
    have hpair := hcheck.2 d hd t ht
    rw [hin, hout, hx, hy] at hpair
    simpa using hpair
  refine ⟨(sound_of_check hsound).1, fun b hb => (hgate b hb).1.1, fun b hb => (hgate b hb).1.2,
    fun b hb => (hgate b hb).2, singleDriverPins_of_check hsingle, rank, fun σ => ?_⟩
  exact hranks.ranked fun b hb => wellPinned_gate (hgate b hb).1.1 (hgate b hb).1.2 (hgate b hb).2

namespace LogicNetlist

section

variable (h : LogicNetlist nl)
include h

theorem pinned (hb : b ∈ nl.bases) : WellPinned (stateFns σ) b :=
  wellPinned_gate (h.kinds b hb) (h.length b hb) (h.connected b hb)

theorem digital : Digital nl := by
  intro b hb
  rcases h.kinds b hb with hk | hk | hk
  · simp [Model.isAnalog, hk, ModelKind.deviceType]
  · simp [Model.isAnalog, hk, ModelKind.deviceType]
  · cases hkind : b.model.kind <;> simp [hkind, isLogicGate] at hk <;>
      simp [Model.isAnalog, hkind, ModelKind.deviceType]

theorem eq_of_pinOut (hb : b ∈ nl.bases) (hgate : isLogicGate b.model.kind)
    {j k : Nat} (hj : nl.pinOut ⟨b.id, j⟩ = true) (hk : nl.pinOut ⟨b.id, k⟩ = true) : j = k := by
  have hlen := h.length b hb
  rw [h.sound.pinOut_eq hb, hlen, Bool.and_eq_true, decide_eq_true_eq] at hj hk
  cases hkind : b.model.kind <;> rw [hkind] at hgate hj hk <;>
    simp only [isLogicGate, Bool.false_eq_true] at hgate <;>
    simp [isOutputPin, gatePinCount] at hj hk <;> omega

theorem state_ne_Z (hσ : KnownInputs σ nl) (hv : Settled (system (stateFns σ) nl) (fun _ => .X) v)
    (n : NodeId) : v n ≠ .Z := by
  obtain ⟨rank, hrank⟩ := h.acyclic
  induction hr : rank n using Nat.strong_induction_on generalizing n with
  | _ r ih =>
    by_cases hdriven : Driven (system (stateFns σ) nl) n
    · obtain ⟨e, he, rfl⟩ := hdriven
      obtain ⟨b, hb, he'⟩ := mem_system.mp he
      obtain ⟨k, hk, -⟩ := (h.pinned hb (σ := σ)).target he'
      rcases h.kinds b hb with hkind | hkind | hkind
      · obtain ⟨o, ho⟩ : ∃ o, b.model.pins = [some o] := by
          have hlen := h.length b hb
          rw [hkind] at hlen
          match hps : b.model.pins, hlen with
          | [some x], _ => exact ⟨x, rfl⟩
          | [none], _ => cases k <;> simp [hps] at hk
        rw [pinEquations_input hkind ho, List.mem_singleton] at he'
        subst he'
        simp only [apply_target]
        rw [solves_input hv.solves hb hkind ho]
        exact hσ b hb hkind
      · obtain ⟨g, hg, -⟩ := mem_pinEquations.mp he'
        simp [stateFns, hkind] at hg
      · have hconn := h.connected b hb hkind
        have hlen := h.length b hb
        rcases isLogicGate_cases hkind with ⟨f, hf, hcount⟩ | ⟨f, hf, hcount⟩
        · obtain ⟨x, o, hpins⟩ := exists_pins_two (hlen.trans hcount) hconn
          rw [pinEquations_one hf hpins, List.mem_singleton] at he'
          subst he'
          simp only [apply_target] at hr ⊢
          have hx : rank x < rank o := hrank σ _ he x (by simp [apply])
          have hxZ := ih (rank x) (by omega) x rfl
          rw [solves_one hv.solves hb hf hpins]
          cases hk : b.model.kind <;> rw [hk] at hf <;>
            simp only [oneInputFn, reduceCtorEq, Option.some.injEq] at hf <;> subst hf
          · exact hxZ
          · cases v x <;> simp [LogicT.logicNot, LogicT.normalizeZToX]
        · obtain ⟨x, y, o, hpins⟩ := exists_pins_three (hlen.trans hcount) hconn
          rw [pinEquations_two hf hpins, List.mem_singleton] at he'
          subst he'
          simp only [apply_target]
          rw [solves_two hv.solves hb hf hpins]
          cases hk : b.model.kind <;> rw [hk] at hf <;>
            simp only [twoInputFn, reduceCtorEq, Option.some.injEq] at hf <;> subst hf <;>
            cases v x <;> cases v y <;> decide
    · rw [hv.rest n hdriven]
      exact LogicT.noConfusion

end

end LogicNetlist

end Netlist

end PhyEngine
