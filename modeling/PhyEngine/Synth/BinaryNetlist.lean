import PhyEngine.Synth.Candidates

/-!
# The binary function of a netlist

A combinational model computes what its device computes on `L` and `H`; every other node is free.
`KeepsFunction` is what a pass owes such a netlist for all values of the free nodes. A node that
loses its driver is free afterwards.
-/

namespace PhyEngine

open Equations LogicT

def boolFns : PinSemantics Bool := fun b =>
  match b.model.kind with
  | .output => none
  | .input =>
    if b.model.name = "" then
      match b.model.getAttribute 0 with
      | .digital .H => some ⟨0, [fun _ => true]⟩
      | .digital .L => some ⟨0, [fun _ => false]⟩
      | _ => none
    else none
  | kind => (kind.gateFn .X).map fun g =>
    { arity := g.arity
      fns := (List.range g.count).map fun k ins =>
        decide ((g.fn (ins.map ofBool)).getD k .X = .H) }

namespace Netlist

theorem ignoresPins_boolFns : IgnoresPins boolFns := fun _ _ => rfl

/-- An acyclic digital netlist in which the combinational models are connected and no node
has two drivers. -/
structure BinaryNetlist (nl : Netlist) : Prop where
  sound : Sound nl
  digital : Digital nl
  pinned : ∀ b ∈ nl.bases, WellPinned boolFns b
  single : SingleDriverPins nl
  acyclic : ∃ rank : NodeId → Nat, Ranked (system boolFns nl) rank

/-- For all values of the free nodes, every node that is a port or is still read has its old
value after the pass. -/
def KeepsFunction (ports : List NodeId) (nl nl' : Netlist) : Prop :=
  ∀ free : NodeId → Bool, SameFunction boolFns free nl nl' (Observed ports nl nl')

variable {nl nl' : Netlist} {b m : ModelBase}

/-- The functions of the symmetric gates that the passes look for. -/
def symmetricFn : ModelKind → Option (Bool → Bool → Bool)
  | .and => some (· && ·)
  | .or => some (· || ·)
  | .xor => some Bool.xor
  | _ => none

structure Gate2 (nl : Netlist) (kind : ModelKind) (x y o : NodeId) (m : ModelBase) : Prop where
  mem : m ∈ nl.bases
  kind_eq : m.model.kind = kind
  pins : m.model.pins = [some x, some y, some o] ∨ m.model.pins = [some y, some x, some o]

variable {kind : ModelKind} {f : Bool → Bool → Bool} {v : NodeId → Bool}

theorem symmetricFn_comm (hf : symmetricFn kind = some f) (x y : Bool) : f x y = f y x := by
  cases kind <;> simp only [symmetricFn, reduceCtorEq, Option.some.injEq] at hf <;> subst hf <;>
    cases x <;> cases y <;> rfl

theorem boolFns_symmetric (hf : symmetricFn m.model.kind = some f) :
    ∃ fn, boolFns m = some ⟨2, [fn]⟩ ∧ ∀ x y, fn [x, y] = f x y := by
  cases hkind : m.model.kind <;> rw [hkind] at hf <;> simp only [symmetricFn, reduceCtorEq] at hf <;>
    obtain rfl := Option.some.inj hf <;>
    refine ⟨_, by simp only [boolFns, hkind, ModelKind.gateFn, Option.map_some]; rfl, fun x y => ?_⟩ <;>
    cases x <;> cases y <;> rfl

theorem Gate2.value {x y o : NodeId} (hg : Gate2 nl kind x y o m) (hf : symmetricFn kind = some f)
    (hv : Solves (system boolFns nl) v) : v o = f (v x) (v y) := by
  obtain ⟨fn, hfn, heq⟩ := boolFns_symmetric (hg.kind_eq ▸ hf)
  rcases hg.pins with hpins | hpins
  · have hval := value_of_pins [x, y] [o] 0 hv hg.mem hfn hpins rfl rfl rfl
    rw [hval]
    exact heq _ _
  · have hval := value_of_pins [y, x] [o] 0 hv hg.mem hfn hpins rfl rfl rfl
    rw [hval, symmetricFn_comm hf]
    exact heq _ _

theorem Gate2.rank_lt {x y o : NodeId} (hg : Gate2 nl kind x y o m) (hf : symmetricFn kind = some f)
    {rank : NodeId → Nat} (hrank : Ranked (system boolFns nl) rank) : rank x < rank o ∧ rank y < rank o := by
  obtain ⟨fn, hfn, -⟩ := boolFns_symmetric (hg.kind_eq ▸ hf)
  rcases hg.pins with hpins | hpins
  · have hlt := fun d => rank_of_pins [x, y] [o] 0 (d := d) hrank hg.mem hfn hpins rfl rfl rfl
    exact ⟨hlt x (by simp), hlt y (by simp)⟩
  · have hlt := fun d => rank_of_pins [y, x] [o] 0 (d := d) hrank hg.mem hfn hpins rfl rfl rfl
    exact ⟨hlt x (by simp), hlt y (by simp)⟩

structure LowRank (nl : Netlist) (rank : NodeId → Nat) : Prop where
  ranked : Ranked (system boolFns nl) rank
  pos : ∀ e ∈ system boolFns nl, e.deps ≠ [] → 0 < rank e.target
  zero : ∀ n, (∀ e ∈ system boolFns nl, e.target = n → e.deps = []) → rank n = 0

theorem BinaryNetlist.exists_lowRank (h : BinaryNetlist nl) : ∃ rank, LowRank nl rank := by
  obtain ⟨rank, hrank⟩ := h.acyclic
  obtain ⟨low, hlow, hpos, hzero⟩ := hrank.exists_low
  exact ⟨low, hlow, hpos, hzero⟩

namespace BinaryNetlist

theorem eq_of_target (h : BinaryNetlist nl) {e e' : Equation NodeId Bool} (he : e ∈ system boolFns nl)
    (he' : e' ∈ system boolFns nl) (htarget : e.target = e'.target) : e = e' :=
  Netlist.eq_of_target h.sound h.single h.pinned he he' htarget

/-- An observed node that had a value of its own and has no driver after the pass does not
keep it. -/
theorem not_keepsFunction_of_lost (h : BinaryNetlist nl) {ports : List NodeId} {n : NodeId}
    (hobs : Observed ports nl nl' n) (hdriven : Driven (system boolFns nl) n)
    (hlost : ¬ Driven (system boolFns nl') n) : ¬ KeepsFunction ports nl nl' := by
  intro hkeeps
  obtain ⟨rank, hrank⟩ := h.acyclic
  obtain ⟨v, hv⟩ : ∃ v, Settled (system boolFns nl) (fun _ => true) v :=
    exists_settled hrank fun e he f hf => h.eq_of_target he hf
  -- The value the lost node had is not the one it is free to take.
  have hfree : Settled (system boolFns nl) (fun x => if x = n then !v n else true) v := by
    refine ⟨hv.solves, fun x hx => ?_⟩
    have hne : x ≠ n := by
      rintro rfl
      exact hx hdriven
    rw [if_neg hne]
    exact hv.rest x hx
  obtain ⟨v', hv', -, heq⟩ := hkeeps _ v hfree
  have hrest := hv'.rest n hlost
  rw [if_pos rfl, heq n hobs] at hrest
  simp at hrest

end BinaryNetlist

theorem boolFns_const {c : Bool} {n : NodeId} (hb : ConstInput b (ofBool c) n) :
    boolFns b = some ⟨0, [fun _ => c]⟩ := by
  unfold boolFns
  rw [hb.kind]
  dsimp only
  rw [if_pos hb.name, hb.attr]
  cases c <;> rfl

theorem pinEquations_const {c : Bool} {n : NodeId} (hb : ConstInput b (ofBool c) n) :
    pinEquations boolFns b = [Equation.apply n [] fun _ => c] := by
  simp [pinEquations, boolFns_const hb, hb.pins, List.reduceOption]

theorem wellPinned_const {c : Bool} {n : NodeId} (hconst : ConstInput b (ofBool c) n) :
    WellPinned boolFns b := by
  have hb := boolFns_const hconst
  constructor
  · intro g hg m hm
    simp [hconst.pins]
  · intro g hg
    cases hb.symm.trans hg
    rw [hconst.pins]
    rfl
  · intro g hg k hk
    cases hb.symm.trans hg
    rw [hconst.pins, List.length_singleton] at hk ⊢
    obtain rfl : k = 0 := by omega
    rw [hconst.kind]
    rfl

structure WithConsts (c : Bool) (nl live : Netlist) : Prop where
  binary : BinaryNetlist live
  bases : ∀ b ∈ nl.bases, b ∈ live.bases
  new : ∀ b ∈ live.bases, b ∈ nl.bases ∨ ∃ n, ConstInput b (ofBool c) n ∧ ¬ (nl.node? n).isSome
  getModel : ∀ pos b, nl.getModel pos = some b → live.getModel pos = some b
  isSome : ∀ n, (nl.node? n).isSome → (live.node? n).isSome

namespace WithConsts

variable {c : Bool} {live live' : Netlist} {n : NodeId}

theorem refl (h : BinaryNetlist nl) : WithConsts c nl nl :=
  ⟨h, fun _ hb => hb, fun _ hb => .inl hb, fun _ _ hb => hb, fun _ hn => hn⟩

theorem binary_made (h : BinaryNetlist live) (hconst : ConstInput b (ofBool c) n)
    (hnode : ¬ (live.node? n).isSome) (hr : Rewired live [] [] [b] live') : BinaryNetlist live' := by
  have hpinned := wellPinned_const hconst
  have hdriver : ∀ p m, live'.DriverPin p m → (live.DriverPin p m ∧ (live.node? m).isSome) ∨
    (p = ⟨b.id, 0⟩ ∧ m = n) := by
    intro p m hp
    rcases hr.points_cases hp.2 with ⟨d, hd, hdel, hid⟩ | ⟨d, hd, hid, hk⟩
    · have hpd : p = ⟨d.id, p.k⟩ := by rw [hid]
      rw [hpd] at hp ⊢
      have hold := (hr.driverPin_old h.sound hd hdel p.k m).mp hp
      exact .inl ⟨hold, h.sound.isSome_node? hd
        (List.mem_of_getElem? ((h.sound.points_iff_pin hd p.k m).mp hold.2))⟩
    · rw [List.mem_singleton.mp hd] at hid hk
      rw [hconst.pins] at hk
      cases hpk : p.k with
      | zero =>
        rw [hpk] at hk
        refine .inr ⟨?_, by simpa [eq_comm] using hk⟩
        rw [hid, ← hpk]
      | succ k =>
        rw [hpk] at hk
        simp at hk
  obtain ⟨rank, hrank⟩ := h.acyclic
  refine ⟨hr.sound, hr.digital, ?_, ?_, rank, ?_⟩
  · refine hr.pinned ignoresPins_boolFns h.pinned fun d hd => ?_
    rw [List.mem_singleton.mp hd]
    exact hpinned
  · intro p q m hp hq
    rcases hdriver p m hp with ⟨hp, hsome⟩ | ⟨rfl, rfl⟩ <;> rcases hdriver q m hq with ⟨hq, hsome'⟩ | ⟨rfl, hm⟩
    · exact h.single p q m hp hq
    · exact absurd (hm ▸ hsome) hnode
    · exact absurd hsome' hnode
    · rfl
  · refine hr.ranked h.sound ignoresPins_boolFns h.pinned hrank (by simp) fun d hd e he x hx => ?_
    rw [List.mem_singleton.mp hd, pinEquations_const hconst, List.mem_singleton] at he
    rw [he] at hx
    cases hx

section

variable (h : WithConsts c nl live)
include h

theorem step (hc : ConstNode (ofBool c) live live' n) :
    WithConsts c nl live' ∧ ∃ b ∈ live'.bases, ConstInput b (ofBool c) n := by
  cases hc with
  | found b hb hconst heq =>
    subst heq
    exact ⟨h, b, hb, hconst⟩
  | made b hconst hid hnode hsound hbases hget hlen hnext =>
    have hnew : ¬ (live.node? n).isSome := by
      rw [hnode, isSome_node?]
      intro hall
      exact Nat.lt_irrefl _ (hall _ rfl)
    have hr : Rewired live [] [] [b] live' := (Rewired.start h.binary.sound h.binary.digital).add hsound
      (by simp [Model.isAnalog, hconst.kind, ModelKind.deviceType]) hbases hget (by omega) (by omega) (by omega)
    have hmem : b ∈ live'.bases := by rw [hbases]; simp
    refine ⟨⟨binary_made h.binary hconst hnew hr, ?_, ?_, ?_, ?_⟩, b, hmem, hconst⟩
    · intro d hd
      rw [hbases]
      exact List.mem_append_left _ (h.bases d hd)
    · intro d hd
      rw [hbases] at hd
      rcases List.mem_append.mp hd with hd | hd
      · exact h.new d hd
      · rw [List.mem_singleton.mp hd]
        exact .inr ⟨n, hconst, fun hn => hnew (h.isSome n hn)⟩
    · exact fun pos d hd => hget pos d (h.getModel pos d hd)
    · exact fun m hm => hr.isSome_node? (h.isSome m hm)

theorem solves_old (hv : Solves (system boolFns live) v) :
    Solves (system boolFns nl) v := by
  intro e he
  obtain ⟨d, hd, he⟩ := mem_system.mp he
  exact hv e (mem_system.mpr ⟨d, h.bases d hd, he⟩)

theorem ranked_old {rank : NodeId → Nat} (hrank : Ranked (system boolFns live) rank) :
    Ranked (system boolFns nl) rank := by
  intro e he
  obtain ⟨d, hd, he⟩ := mem_system.mp he
  exact hrank e (mem_system.mpr ⟨d, h.bases d hd, he⟩)

end

theorem exists_settled (hnl : BinaryNetlist nl) (h : WithConsts c nl live) {free : NodeId → Bool}
    (hv : Settled (system boolFns nl) free v) :
    ∃ v', Settled (system boolFns live) free v' ∧ ∀ m, (nl.node? m).isSome → v' m = v m := by
  classical
  let isConst (m : NodeId) : Prop := ∃ b ∈ live.bases, ConstInput b (ofBool c) m ∧ ¬ (nl.node? m).isSome
  have hold : ∀ m, (nl.node? m).isSome → (if isConst m then c else v m) = v m := by
    intro m hm
    refine if_neg ?_
    rintro ⟨-, -, -, hnone⟩
    exact hnone hm
  refine ⟨fun m => if isConst m then c else v m, ⟨fun e he => ?_, fun m hm => ?_⟩, hold⟩
  · obtain ⟨d, hd, he'⟩ := mem_system.mp he
    rcases h.new d hd with hd' | ⟨m, hconst, hnone⟩
    · exact solves_of_eq_on_nodes hnl.sound hnl.pinned hv.solves hold e (mem_system.mpr ⟨d, hd', he'⟩)
    · rw [pinEquations_const hconst, List.mem_singleton] at he'
      rw [he']
      exact if_pos ⟨d, hd, hconst, hnone⟩
  · have hno : ¬ isConst m := by
      rintro ⟨d, hd, hconst, -⟩
      exact hm ⟨_, mem_system.mpr ⟨d, hd, by rw [pinEquations_const hconst]; exact List.mem_singleton_self _⟩, rfl⟩
    rw [if_neg hno]
    refine hv.rest m fun hdriven => hm ?_
    obtain ⟨e, he, htarget⟩ := hdriven
    obtain ⟨d, hd, he⟩ := mem_system.mp he
    exact ⟨e, mem_system.mpr ⟨d, h.bases d hd, he⟩, htarget⟩

end WithConsts

def rankCheck (rank : NodeId → Nat) (b : ModelBase) : Bool :=
  b.model.pins.zipIdx.all fun d => b.model.pins.zipIdx.all fun t =>
    isOutputPin b.model.kind d.2 b.model.pins.length || !isOutputPin b.model.kind t.2 b.model.pins.length ||
      match d.1, t.1 with
      | some x, some y => decide (rank x < rank y)
      | _, _ => true

def pinnedCheck (b : ModelBase) : Bool :=
  match b.model.kind.gateFn .X with
  | none => true
  | some g =>
    decide (b.model.pins.length = g.arity + g.count) &&
      (decide (none ∉ b.model.pins) || b.model.pins.all fun p => decide (p = none)) &&
      (List.range (g.arity + g.count)).all fun k =>
        decide (isOutputPin b.model.kind k (g.arity + g.count) = decide (g.arity ≤ k))

theorem boolFns_shape {g : PinFns Bool} (hg : boolFns b = some g) :
    ∃ g', b.model.kind.gateFn .X = some g' ∧ g'.arity = g.arity ∧ g'.count = g.fns.length := by
  unfold boolFns at hg
  split at hg
  · cases hg
  · rename_i hkind
    rw [hkind]
    split at hg
    · split at hg
      · cases hg
        exact ⟨_, rfl, rfl, rfl⟩
      · cases hg
        exact ⟨_, rfl, rfl, rfl⟩
      · cases hg
    · cases hg
  · obtain ⟨g', hg', rfl⟩ := Option.map_eq_some_iff.mp hg
    exact ⟨g', hg', rfl, by simp⟩

theorem wellPinned_of_check (hb : pinnedCheck b = true) : WellPinned boolFns b := by
  have hshape : ∀ g, boolFns b = some g → b.model.pins.length = g.arity + g.fns.length ∧
      (none ∉ b.model.pins ∨ ∀ p ∈ b.model.pins, p = none) ∧
      ∀ k < g.arity + g.fns.length,
        isOutputPin b.model.kind k (g.arity + g.fns.length) = decide (g.arity ≤ k) := by
    intro g hg
    obtain ⟨g', hg', harity, hcount⟩ := boolFns_shape hg
    rw [pinnedCheck, hg'] at hb
    dsimp only at hb
    rw [harity, hcount] at hb
    simpa [and_assoc] using hb
  constructor
  · intro g hg n hn
    rcases (hshape g hg).2.1 with hnone | hall
    · exact hnone
    · cases hall _ hn
  · exact fun g hg => (hshape g hg).1
  · intro g hg k hk
    obtain ⟨hlen, -, hout⟩ := hshape g hg
    rw [hlen] at hk ⊢
    exact hout k hk

theorem binaryNetlist_of_check (rank : NodeId → Nat) (hsound : soundCheck nl = true)
    (hsingle : singleDriverCheck nl = true)
    (hgates : (nl.bases.all fun b => pinnedCheck b && rankCheck rank b) = true) : BinaryNetlist nl := by
  simp only [List.all_eq_true, Bool.and_eq_true] at hgates
  obtain ⟨hs, hdigital⟩ := sound_of_check hsound
  have hranks : RanksPins rank nl := by
    intro b hb d hd t ht hin hout x y hx hy
    have hcheck := (hgates b hb).2
    simp only [rankCheck, List.all_eq_true] at hcheck
    have hpair := hcheck d hd t ht
    rw [hin, hout, hx, hy] at hpair
    simpa using hpair
  have hpinned : ∀ b ∈ nl.bases, WellPinned boolFns b := fun b hb => wellPinned_of_check (hgates b hb).1
  exact ⟨hs, hdigital, hpinned, singleDriverPins_of_check hsingle, rank, hranks.ranked hpinned⟩

end Netlist

end PhyEngine
