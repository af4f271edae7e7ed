import PhyEngine.Synth.NewConsts

/-!
# Constant propagation

`optimize_constant_propagation_in_pe_netlist`: the readers of an output go to a constant node or
to an input of the gate, as it was noted at the start, although its driver may be gone by then.
`tracked` is where the run takes a reader and decides (`constProp_keepsStates_iff`).
-/

namespace PhyEngine

open Equations Adders Netlist List LogicT

namespace ConstProp

/-- `cand`, with a connected output. The name of the model is its kind. -/
structure Cand where
  pos : ModelPos
  kind : ModelKind
  a : Option NodeId
  b : Option NodeId
  out : NodeId
  outPin : PinRef
  deriving DecidableEq

def isCandidate : ModelKind → Bool
  | .not | .and | .or | .xor | .xnor | .nand | .nor | .imp | .nimp => true
  | _ => false

def candOf (m : ModelBase) (pos : ModelPos) : Option Cand :=
  if isCandidate m.model.kind then
    match m.model.kind, m.model.pins with
    | .not, [a, some out] => some ⟨pos, .not, a, none, out, ⟨m.id, 1⟩⟩
    | .not, _ => none
    | kind, [a, b, some out] => some ⟨pos, kind, a, b, out, ⟨m.id, 2⟩⟩
    | _, _ => none
  else none

def getConst (nl : Netlist) (n : Option NodeId) : Option Bool := n.bind (nodeConst nl)

/-- The choice of `replacement`; a null pointer and the branch `continue` are `none`. -/
def replacementOf (assumeBinaryInputs : Bool) (g : Cand) (av bv : Option Bool) : Option Replacement :=
  match g.kind with
  | .not => av.map fun v => .constant !v
  | .and =>
    if av = some false then some (.constant false)
    else if bv = some false then some (.constant false)
    else if av = some true then g.b.map .node
    else if bv = some true then g.a.map .node
    else if g.a = g.b then g.a.map .node
    else none
  | .or =>
    if av = some true then some (.constant true)
    else if bv = some true then some (.constant true)
    else if av = some false then g.b.map .node
    else if bv = some false then g.a.map .node
    else if g.a = g.b then g.a.map .node
    else none
  | .xor =>
    match av, bv with
    | some x, some y => some (.constant (x != y))
    | _, _ =>
      if av = some false then g.b.map .node
      else if bv = some false then g.a.map .node
      else if assumeBinaryInputs ∧ g.a.isSome ∧ g.a = g.b then some (.constant false)
      else none
  | .xnor =>
    match av, bv with
    | some x, some y => some (.constant (x == y))
    | _, _ =>
      if av = some true then g.b.map .node
      else if bv = some true then g.a.map .node
      else if assumeBinaryInputs ∧ g.a.isSome ∧ g.a = g.b then some (.constant true)
      else none
  | .nand =>
    if av = some false then some (.constant true)
    else if bv = some false then some (.constant true)
    else match av, bv with
      | some x, some y => some (.constant !(x && y))
      | _, _ => none
  | .nor =>
    if av = some true then some (.constant false)
    else if bv = some true then some (.constant false)
    else match av, bv with
      | some x, some y => some (.constant !(x || y))
      | _, _ => none
  | .imp =>
    if bv = some true then some (.constant true)
    else if av = some false then some (.constant true)
    else if av = some true then g.b.map .node
    else none
  | .nimp =>
    if av = some false then some (.constant false)
    else if bv = some true then some (.constant false)
    else if bv = some false then g.a.map .node
    else none
  | _ => none

/-- `pe_synth_options` as far as the pass reads it. -/
structure Options where
  assumeBinaryInputs : Bool := false
  rewriteMaxCandidates : Nat := 0

variable (opt : Options)

def candidates (nl : Netlist) : List Cand :=
  let cands := nl.gather candOf
  if opt.rewriteMaxCandidates ≠ 0 ∧ opt.rewriteMaxCandidates < cands.length then
    cands.take opt.rewriteMaxCandidates
  else cands

variable (prot : List NodeId)

/-- The body of the loop, with `changed`; `snap` is the netlist at the start. -/
def step (snap : Netlist) (st : Netlist × Bool)
    (g : Cand) : Netlist × Bool :=
  if g.out ∈ prot then st
  else if st.1.hasUniqueDriverPin snap.pinOut g.out g.outPin = false then st
  else
    match replacementOf opt.assumeBinaryInputs g (getConst snap g.a) (getConst snap g.b) with
    | none => st
    | some r =>
      let resolved := resolve st.1 r
      let moved := resolved.1.moveConsumers snap.pinOut prot g.out resolved.2
      if moved.2 then ((moved.1.deleteModel g.pos).1, true) else (moved.1, st.2)

def optimizeConstantPropagation (nl : Netlist) :
    Netlist × Bool :=
  (candidates opt nl).foldl (step opt prot nl) (nl, false)

def rewriteOf (nl : Netlist) (g : Cand) :
    Option Replacement :=
  if g.out ∈ prot then none
  else (replacementOf opt.assumeBinaryInputs g (getConst nl g.a) (getConst nl g.b)).filter
    (· ≠ .node g.out)

def plan (nl : Netlist) (cands : List Cand) :
    List (Cand × Replacement) :=
  cands.filterMap fun g => (rewriteOf opt prot nl g).map fun r => (g, r)

def tracked (rewrites : List (Cand × Replacement)) (r : Replacement) : Replacement :=
  rewrites.foldl (fun r gr => if r = .node gr.1.out then gr.2 else r) r

/-- No reader that stays is taken to the output of a rewritten gate. -/
def ReadersStayDriven (nl : Netlist) : Prop :=
  ∀ m ∈ nl.bases,
    (∀ gr ∈ plan opt prot nl (candidates opt nl), gr.1.outPin.id ≠ m.id) →
    ∀ pk ∈ m.model.pins.zipIdx, nl.pinOut ⟨m.id, pk.2⟩ = false → ∀ n, pk.1 = some n →
    ∀ gr ∈ plan opt prot nl (candidates opt nl),
      tracked (plan opt prot nl (candidates opt nl)) (.node n) ≠ .node gr.1.out

variable {av bv : Option Bool} {n : NodeId} {v : NodeId → LogicT} {b : ModelBase}

theorem replacementOf_not {binary : Bool} {g : Cand} (hk : g.kind = .not) :
    replacementOf binary g av bv = av.map fun v => .constant !v := by
  unfold replacementOf
  rw [hk]

theorem replacementOf_node {binary : Bool} {g : Cand} (h : replacementOf binary g av bv = some (.node n)) :
    g.a = some n ∨ g.b = some n := by
  unfold replacementOf at h
  cases hk : g.kind <;> rw [hk] at h <;> rcases av with _ | _ | _ <;> rcases bv with _ | _ | _ <;>
    simp at h
  all_goals first | exact .inl h | exact .inr h | exact .inl h.2

theorem tracked_ne {rewrites : List (Cand × Replacement)} {r : Replacement} {gr : Cand × Replacement}
    (hout : ∀ x ∈ rewrites, ∀ y ∈ rewrites, x.2 ≠ .node y.1.out) (h : gr ∈ rewrites) :
    tracked rewrites r ≠ .node gr.1.out := by
  induction rewrites using reverseRecOn with
  | nil => cases h
  | append_singleton rs x ih =>
    rw [tracked, foldl_append, foldl_cons, foldl_nil]
    split
    · exact hout x (by simp) gr h
    · rename_i hne
      obtain h | h := mem_append.mp h
      · exact ih (fun y hy z hz => hout y (by simp [hy]) z (by simp [hz])) h
      · exact mem_singleton.mp h ▸ hne

/-- The condition holds where no gate that the pass looks at reads another one. -/
theorem readersStayDriven_of_flat {nl : Netlist}
    (hflat : ∀ g ∈ candidates opt nl, ∀ g' ∈ candidates opt nl, g.a ≠ some g'.out ∧ g.b ≠ some g'.out) :
    ReadersStayDriven opt prot nl := by
  intro m _ _ pk _ _ n _ gr hgr
  refine tracked_ne (fun x hx y hy heq => ?_) hgr
  simp only [plan, rewriteOf, mem_filterMap] at hx hy
  obtain ⟨g, hg, hx⟩ := hx
  obtain ⟨g', hg', hy⟩ := hy
  split at hx
  · cases hx
  · obtain ⟨r, hr, rfl⟩ := Option.map_eq_some_iff.mp hx
    obtain ⟨_, _, rfl⟩ := Option.map_eq_some_iff.mp hy
    cases heq
    obtain ⟨ha, hb⟩ := hflat g hg g' hg'
    exact (replacementOf_node (Option.eq_some_of_filter_eq_some hr)).elim ha hb

theorem replacementOf_value {g : Cand} {f : LogicT → LogicT → LogicT} (hf : twoInputFn g.kind = some f) {x y : NodeId}
    (ha : g.a = some x) (hb : g.b = some y) (hx : v x ≠ .Z) (hy : v y ≠ .Z)
    (hav : ∀ c, av = some c → v x = ofBool c) (hbv : ∀ c, bv = some c → v y = ofBool c) {r : Replacement}
    (h : replacementOf false g av bv = some r) : f (v x) (v y) = r.value ofBool v := by
  have hav' : av = none ∨ ∃ c, av = some c ∧ v x = ofBool c := by
    cases av with
    | none => exact .inl rfl
    | some c => exact .inr ⟨c, rfl, hav c rfl⟩
  have hbv' : bv = none ∨ ∃ c, bv = some c ∧ v y = ofBool c := by
    cases bv with
    | none => exact .inl rfl
    | some c => exact .inr ⟨c, rfl, hbv c rfl⟩
  unfold replacementOf at h
  rw [ha, hb] at h
  cases hk : g.kind <;> rw [hk] at hf <;> simp only [twoInputFn, reduceCtorEq, Option.some.injEq] at hf <;>
    subst hf <;> rw [hk] at h <;>
    rcases hav' with rfl | ⟨(_ | _), rfl, hvx⟩ <;> rcases hbv' with rfl | ⟨(_ | _), rfl, hvy⟩ <;>
    simp at h
  all_goals first | (obtain ⟨hxy, rfl⟩ := h; rw [← hxy]) | subst h
  all_goals
    clear hav hbv
    simp only [Replacement.value]
    generalize v x = p at *
    generalize v y = q at *
    cases p <;> cases q <;>
      first | rfl | exact absurd rfl hx | exact absurd rfl hy |
        exact absurd hvx (by decide) | exact absurd hvy (by decide)

/-- What a candidate says about its model in a netlist of gates. -/
structure Names (nl : Netlist) (g : Cand) (m : ModelBase) : Prop where
  getModel : nl.getModel g.pos = some m
  gate : isLogicGate m.model.kind
  kind : g.kind = m.model.kind
  id : g.outPin.id = m.id
  driver : nl.DriverPin g.outPin g.out
  inputs : (∃ x, g.kind = .not ∧ g.a = some x ∧ m.model.pins = [some x, some g.out]) ∨
    ∃ f x y, twoInputFn g.kind = some f ∧ g.a = some x ∧ g.b = some y ∧
      m.model.pins = [some x, some y, some g.out]

theorem names_of_candOf {nl : Netlist} (h : LogicNetlist nl) {pos : ModelPos} {m : ModelBase}
    (hm : nl.getModel pos = some m) {g : Cand} (hg : candOf m pos = some g) : Names nl g m := by
  have hmem := mem_bases hm
  have hcand : isCandidate m.model.kind = true := by
    by_contra hnot
    simp [candOf, hnot] at hg
  have hgate : isLogicGate m.model.kind := by
    cases hk : m.model.kind <;> simp_all [isCandidate, isLogicGate]
  have hconn := h.connected m hmem hgate
  have hlen := h.length m hmem
  rw [candOf, if_pos hcand] at hg
  by_cases hnot : m.model.kind = .not
  · rw [hnot] at hlen
    obtain ⟨x, o, hpins⟩ := exists_pins_two hlen hconn
    rw [hnot, hpins] at hg
    cases hg
    refine ⟨hm, hgate, hnot.symm, rfl, ⟨?_, (h.sound.points_iff_pin hmem 1 o).mpr (by simp [hpins])⟩,
      .inl ⟨x, rfl, rfl, hpins⟩⟩
    rw [h.sound.pinOut_eq hmem, hnot, hpins]
    rfl
  · obtain ⟨f, hf⟩ : ∃ f, twoInputFn m.model.kind = some f := by
      cases hk : m.model.kind <;> simp_all [isCandidate, twoInputFn]
    have hthree : gatePinCount m.model.kind = 3 := by
      cases hk : m.model.kind <;> simp_all [isCandidate, gatePinCount]
    obtain ⟨x, y, o, hpins⟩ := exists_pins_three (hlen.trans hthree) hconn
    have hg' : g = ⟨pos, m.model.kind, some x, some y, o, ⟨m.id, 2⟩⟩ := by
      rw [hpins] at hg
      cases hk : m.model.kind <;> rw [hk] at hg hnot <;> simp_all
    subst hg'
    refine ⟨hm, hgate, rfl, rfl, ⟨?_, (h.sound.points_iff_pin hmem 2 o).mpr (by simp [hpins])⟩,
      .inr ⟨f, x, y, hf, rfl, rfl, hpins⟩⟩
    rw [h.sound.pinOut_eq hmem, hpins]
    cases hk : m.model.kind <;> simp_all [isCandidate, isOutputPin]

theorem names_of_mem {opt : Options} {nl : Netlist} (h : LogicNetlist nl) {g : Cand}
    (hg : g ∈ candidates opt nl) : ∃ m, Names nl g m := by
  have hmem : g ∈ nl.gather candOf := by
    unfold candidates at hg
    dsimp only at hg
    split at hg
    · exact mem_of_mem_take hg
    · exact hg
  obtain ⟨pos, m, hm, hcand⟩ := mem_gather.mp hmem
  exact ⟨m, names_of_candOf h hm hcand⟩

theorem nodup_candidates {nl : Netlist} (h : Sound nl) :
    ((candidates opt nl).map fun g => g.outPin.id).Nodup := by
  have hall := h.nodup_gather candOf (fun g : Cand => g.outPin.id) (by
    intro m pos g hg
    unfold candOf at hg
    split at hg
    · split at hg <;> simp only [Option.some.injEq, reduceCtorEq] at hg <;> subst hg <;> rfl
    · cases hg)
  unfold candidates
  dsimp only
  split
  · exact hall.sublist ((take_sublist _ _).map _)
  · exact hall

section Rewrite

variable {opt : Options} {prot : List NodeId} {nl : Netlist} {g : Cand} {m : ModelBase}
  {r : Replacement}

theorem replacementOf_of_rewriteOf (hr : rewriteOf opt prot nl g = some r) :
    g.out ∉ prot ∧ r ≠ .node g.out ∧
      replacementOf opt.assumeBinaryInputs g (getConst nl g.a) (getConst nl g.b) = some r := by
  unfold rewriteOf at hr
  split at hr
  · cases hr
  · rename_i hprot
    rw [Option.filter_eq_some_iff] at hr
    exact ⟨hprot, by simpa using hr.2, hr.1⟩

theorem Names.value (h : LogicNetlist nl) (hg : Names nl g m) (hopt : opt.assumeBinaryInputs = false)
    (hr : rewriteOf opt prot nl g = some r) {σ : Nat → LogicT} (hσ : KnownInputs σ nl)
    (hv : Settled (system (stateFns σ) nl) (fun _ => .X) v) :
    v g.out = r.value ofBool v := by
  have hmem := mem_bases hg.getModel
  have hrep := (replacementOf_of_rewriteOf hr).2.2
  rw [hopt] at hrep
  have hconst : ∀ x c, nodeConst nl x = some c → v x = ofBool c := by
    intro x c hc
    obtain ⟨b, hb, hinput⟩ := nodeConst_spec hc
    rw [solves_input hv.solves hb hinput.kind hinput.pins, hinput.inputState]
  rcases hg.inputs with ⟨x, hk, ha, hpins⟩ | ⟨f, x, y, hf, ha, hb, hpins⟩
  · rw [solves_one hv.solves hmem (f := logicNot) (by rw [← hg.kind, hk]; rfl) hpins]
    rw [replacementOf_not hk] at hrep
    obtain ⟨c, hc, rfl⟩ := Option.map_eq_some_iff.mp hrep
    rw [getConst, ha, Option.bind_some] at hc
    rw [hconst x c hc]
    cases c <;> rfl
  · rw [solves_two hv.solves hmem (by rw [← hg.kind]; exact hf) hpins]
    rw [getConst, getConst, ha, hb, Option.bind_some, Option.bind_some] at hrep
    exact replacementOf_value hf ha hb (h.state_ne_Z hσ hv x) (h.state_ne_Z hσ hv y) (hconst x)
      (hconst y) hrep

theorem Names.dep (hg : Names nl g m) (hr : rewriteOf opt prot nl g = some (.node n)) (σ : Nat → LogicT) :
    ∃ e ∈ pinEquations (stateFns σ) m, e.target = g.out ∧ n ∈ e.deps := by
  have hin := replacementOf_node (replacementOf_of_rewriteOf hr).2.2
  rcases hg.inputs with ⟨x, hk, ha, hpins⟩ | ⟨f, x, y, hf, ha, hb, hpins⟩
  · have hrep := (replacementOf_of_rewriteOf hr).2.2
    rw [replacementOf_not hk] at hrep
    obtain ⟨c, -, hc⟩ := Option.map_eq_some_iff.mp hrep
    cases hc
  · refine ⟨_, by rw [pinEquations_two (by rw [← hg.kind]; exact hf) hpins]; exact mem_singleton_self _,
      rfl, ?_⟩
    rw [ha, hb, Option.some.injEq, Option.some.injEq] at hin
    simpa [Equation.apply, eq_comm] using hin

end Rewrite

def Goes (nl : Netlist) (news : List ModelBase) (gr : Cand × Replacement) (m : NodeId × NodeId) : Prop :=
  m.1 = gr.1.out ∧ gr.2.At nl news m.2

structure Progress (opt : Options) (prot : List NodeId) (nl : Netlist) (done : List Cand)
    (cur : Netlist) (moves : List (NodeId × NodeId)) (deleted : List Nat) (news : List ModelBase) :
    Prop where
  rewired : Rewired nl moves deleted news cur
  goes : List.Forall₂ (Goes nl news) (plan opt prot nl done) moves
  deleted : ∀ id, id ∈ deleted ↔ ∃ gr ∈ plan opt prot nl done, gr.1.outPin.id = id
  consts : NewConsts nl news cur

theorem plan_append (nl : Netlist) (done : List Cand)
    (g : Cand) : plan opt prot nl (done ++ [g]) = plan opt prot nl done ++
      ((rewriteOf opt prot nl g).map fun r => (g, r)).toList := by
  rw [plan, filterMap_append, plan]
  cases hr : rewriteOf opt prot nl g <;> simp [hr]

theorem Names.isSome {nl : Netlist} {g : Cand} {m : ModelBase} (h : Sound nl) (hg : Names nl g m) :
    (nl.node? g.out).isSome := by
  obtain ⟨b, hb, -, hk⟩ := hg.driver.2
  exact h.isSome_node? hb (List.mem_of_getElem? hk)

theorem Names.out_ne {nl : Netlist} {g : Cand} {m : ModelBase} (h : LogicNetlist nl) (hg : Names nl g m)
    (hb : b ∈ nl.bases) {v : LogicT} (hconst : ConstInput b v n) :
    g.out ≠ n := by
  rintro rfl
  have hpin : nl.DriverPin ⟨b.id, 0⟩ g.out := by
    refine ⟨?_, (h.sound.points_iff_pin hb 0 _).mpr (by simp [hconst.pins])⟩
    rw [h.sound.pinOut_eq hb, hconst.kind, hconst.pins]
    rfl
  have hsame := congrArg PinRef.id (h.single _ _ _ hpin hg.driver)
  have hbm := h.sound.eq_of_id hb (mem_bases hg.getModel) (hsame.trans hg.id)
  have hgate := hg.gate
  rw [← hbm, hconst.kind] at hgate
  cases hgate

section Run

variable {opt : Options} {prot : List NodeId} {nl cur : Netlist} {done : List Cand}
  {moves : List (NodeId × NodeId)} {deleted : List Nat} {news : List ModelBase} {g : Cand} {m : ModelBase}

section

variable (h : LogicNetlist nl) (hp : Progress opt prot nl done cur moves deleted news)

include h hp

theorem Progress.rewrite (hg : Names nl g m) (hnew : g.outPin.id ∉ deleted) {r : Replacement}
    (hr : rewriteOf opt prot nl g = some r) (dst : NodeId) (hgoes : Goes nl news (g, r) (g.out, dst))
    (hne : g.out ≠ dst) (hdst : (cur.node? dst).isSome) :
    (cur.moveConsumers nl.pinOut prot g.out dst).2 = true ∧
      Progress opt prot nl (done ++ [g])
        ((cur.moveConsumers nl.pinOut prot g.out dst).1.deleteModel g.pos).1
        (moves ++ [(g.out, dst)]) (m.id :: deleted) news := by
  have hsrc := hg.isSome h.sound
  obtain ⟨htrue, hrew⟩ := hp.rewired.moveDelete h.sound hg.getModel (hg.id ▸ hnew) hne
    (replacementOf_of_rewriteOf hr).1 hsrc hdst
  rw [hp.consts.map_retarget hsrc] at hrew
  refine ⟨htrue, hrew, ?_, ?_, ?_⟩
  · rw [plan_append, hr]
    exact rel_append hp.goes (.cons hgoes .nil)
  · intro id
    rw [mem_cons, hp.deleted, plan_append, hr]
    simp only [Option.map_some, Option.toList_some, mem_append, mem_singleton]
    constructor
    · rintro (rfl | ⟨gr, hgr, hid⟩)
      · exact ⟨(g, r), .inr rfl, hg.id⟩
      · exact ⟨gr, .inl hgr, hid⟩
    · rintro ⟨gr, hgr | rfl, hid⟩
      · exact .inr ⟨gr, hgr, hid⟩
      · exact .inl (hid.symm.trans hg.id)
  · exact hp.consts.of_rewired hrew

theorem Progress.constNode (hg : Names nl g m) (c : Bool) {cur' : Netlist} {dst : NodeId}
    (hnode : ConstNode (ofBool c) cur cur' dst) :
    ∃ news', Progress opt prot nl done cur' moves deleted news' ∧
      Goes nl news' (g, .constant c) (g.out, dst) ∧ g.out ≠ dst ∧ (cur'.node? dst).isSome := by
  obtain ⟨news', hrew, hconsts, hsub, hat, hsome⟩ := hp.consts.constNode h.sound hp.rewired c hnode
  refine ⟨news', ⟨hrew, hp.goes.imp fun _ _ hgo => ⟨hgo.1, hgo.2.mono hsub⟩, hp.deleted, hconsts⟩, ⟨rfl, hat⟩,
    ?_, hsome⟩
  obtain ⟨b, hb | hb, hconst⟩ := hat
  · exact hg.out_ne h hb hconst
  · rintro rfl
    obtain ⟨c', n, hconst', hold, -⟩ := hconsts.const b hb
    have hn : n = g.out := by simpa [hconst.pins, eq_comm] using hconst'.pins
    exact hold (hn ▸ hg.isSome h.sound)

theorem Progress.step (hg : Names nl g m) (hnew : g.outPin.id ∉ deleted) (changed : Bool) :
    ∃ moves' deleted' news', Progress opt prot nl (done ++ [g])
      (step opt prot nl (cur, changed) g).1 moves' deleted' news' := by
  have hmem := mem_bases hg.getModel
  have hskip : rewriteOf opt prot nl g = none →
      Progress opt prot nl (done ++ [g]) cur moves deleted news := by
    intro hr
    have hplan : plan opt prot nl (done ++ [g]) = plan opt prot nl done := by
      rw [plan_append, hr]
      simp
    exact ⟨hp.rewired, hplan ▸ hp.goes, hplan ▸ hp.deleted, hp.consts⟩
  unfold ConstProp.step
  by_cases hprot : g.out ∈ prot
  · rw [if_pos hprot]
    exact ⟨_, _, _, hskip (by rw [rewriteOf, if_pos hprot])⟩
  rw [if_neg hprot]
  have hunique : cur.hasUniqueDriverPin nl.pinOut g.out g.outPin = true := by
    have hpin : g.outPin = ⟨m.id, g.outPin.k⟩ := by rw [← hg.id]
    have hdriver := hg.driver
    rw [hpin] at hdriver ⊢
    exact (hp.rewired.hasUniqueDriverPin_iff h.sound h.single hmem hdriver.1
      ((h.sound.points_iff_pin hmem _ _).mp hdriver.2)).mpr (hg.id ▸ hnew)
  rw [if_neg (by simp [hunique])]
  cases hrep : replacementOf opt.assumeBinaryInputs g (getConst nl g.a) (getConst nl g.b) with
  | none =>
    refine ⟨_, _, _, hskip ?_⟩
    rw [rewriteOf, if_neg hprot, hrep]
    rfl
  | some r =>
    have hrw : r ≠ .node g.out → rewriteOf opt prot nl g = some r := by
      intro hne
      rw [rewriteOf, if_neg hprot, hrep]
      simp [Option.filter, hne]
    cases r with
    | node n =>
      dsimp only [resolve]
      by_cases hself : g.out = n
      · have hno : cur.moveConsumers nl.pinOut prot g.out n = (cur, false) := by
          rw [moveConsumers, if_pos (.inl hself)]
        rw [hno]
        refine ⟨_, _, _, hskip ?_⟩
        rw [rewriteOf, if_neg hprot, hrep]
        simp [Option.filter, hself]
      · have hr := hrw (by simpa [eq_comm] using hself)
        have hnode : (nl.node? n).isSome := by
          obtain ⟨e, he, -, hd⟩ := hg.dep hr (fun _ => .X)
          obtain ⟨k, hk, -⟩ := (h.pinned hmem).dep he hd
          exact h.sound.isSome_node? hmem (List.mem_of_getElem? hk)
        obtain ⟨htrue, hprog⟩ := hp.rewrite h hg hnew hr n ⟨rfl, rfl⟩ hself
          (hp.rewired.isSome_node? hnode)
        rw [if_pos htrue]
        exact ⟨_, _, _, hprog⟩
    | constant c =>
      dsimp only [resolve]
      obtain ⟨news', hp', hgoes, hne, hsome⟩ :=
        hp.constNode h hg c (findOrMakeConstNode_spec hp.rewired.sound (ofBool c))
      obtain ⟨htrue, hprog⟩ := hp'.rewrite h hg hnew (hrw (by simp)) _ hgoes hne hsome
      rw [if_pos htrue]
      exact ⟨_, _, _, hprog⟩

theorem exists_progress (todo : List Cand) (hnames : ∀ g ∈ todo, ∃ m, Names nl g m)
    (hnodup : ((done ++ todo).map fun g => g.outPin.id).Nodup) (changed : Bool) :
    ∃ moves' deleted' news', Progress opt prot nl (done ++ todo)
      (todo.foldl (ConstProp.step opt prot nl) (cur, changed)).1 moves' deleted' news' := by
  induction todo generalizing done cur moves deleted news changed with
  | nil => exact ⟨_, _, _, by simpa using hp⟩
  | cons g todo ih =>
    obtain ⟨m, hg⟩ := hnames g mem_cons_self
    have hnew : g.outPin.id ∉ deleted := by
      rw [hp.deleted]
      rintro ⟨gr, hgr, hid⟩
      obtain ⟨g', hg', hr'⟩ := mem_filterMap.mp hgr
      obtain ⟨r, -, rfl⟩ := Option.map_eq_some_iff.mp hr'
      rw [map_append, nodup_append] at hnodup
      exact hnodup.2.2 _ (mem_map_of_mem hg') _ (mem_map_of_mem mem_cons_self) hid
    obtain ⟨moves', deleted', news', hp'⟩ := hp.step h hg hnew changed
    have happ : done ++ g :: todo = (done ++ [g]) ++ todo := by simp
    rw [happ] at hnodup ⊢
    exact ih hp' (fun g' hg' => hnames g' (mem_cons_of_mem _ hg')) hnodup _

end

theorem at_tracked {rewrites : List (Cand × Replacement)} (hgoes : List.Forall₂ (Goes nl news) rewrites moves)
    (hout : ∀ gr ∈ rewrites, ∀ b, (b ∈ nl.bases ∨ b ∈ news) → ∀ v n, ConstInput b v n → gr.1.out ≠ n)
    (r : Replacement) (x : NodeId) (h : r.At nl news x) :
    (tracked rewrites r).At nl news (follow moves x) := by
  induction hgoes generalizing r x with
  | nil => exact h
  | @cons gr mv rewrites moves hgo _ ih =>
    refine ih (fun gr' hgr' => hout gr' (mem_cons_of_mem _ hgr')) _ _ ?_
    have hfirst := hout gr mem_cons_self
    obtain ⟨hsrc, hdst⟩ := hgo
    change (if r = .node gr.1.out then gr.2 else r).At nl news (if x = mv.1 then mv.2 else x)
    cases r with
    | node n =>
      have hx : x = n := h
      by_cases hn : n = gr.1.out
      · rw [if_pos (by rw [hn]), if_pos (by rw [hx, hn, hsrc])]
        exact hdst
      · rw [if_neg (by simpa using hn), if_neg (by rw [hx, hsrc]; exact hn)]
        exact h
    | constant c =>
      obtain ⟨b, hb, hconst⟩ := h
      rw [if_neg (by simp), if_neg (by rw [hsrc]; exact (hfirst b hb _ _ hconst).symm)]
      exact ⟨b, hb, hconst⟩

section Final

variable (h : LogicNetlist nl)
  (hp : Progress opt prot nl (candidates opt nl) cur moves deleted news)

include h hp

variable {gr : Cand × Replacement}

omit hp in
theorem names_of_mem_plan (hgr : gr ∈ plan opt prot nl (candidates opt nl)) :
    (∃ m, Names nl gr.1 m) ∧ rewriteOf opt prot nl gr.1 = some gr.2 := by
  obtain ⟨g, hg, hmap⟩ := mem_filterMap.mp hgr
  obtain ⟨r, hr, rfl⟩ := Option.map_eq_some_iff.mp hmap
  exact ⟨names_of_mem h hg, hr⟩

theorem out_ne_const (hgr : gr ∈ plan opt prot nl (candidates opt nl))
    (hb : b ∈ nl.bases ∨ b ∈ news) {v : LogicT} (hconst : ConstInput b v n) :
    gr.1.out ≠ n := by
  obtain ⟨⟨m, hg⟩, -⟩ := names_of_mem_plan h hgr
  rcases hb with hb | hb
  · exact hg.out_ne h hb hconst
  · rintro rfl
    obtain ⟨c, n, hconst', hold, -⟩ := hp.consts.const b hb
    have hn : n = gr.1.out := by simpa [hconst.pins, eq_comm] using hconst'.pins
    exact hold (hn ▸ hg.isSome h.sound)

theorem lost_iff_rewritten (n : NodeId) : ((∃ p, nl.DriverPin p n) ∧ ¬ ∃ p, cur.DriverPin p n) ↔
    ∃ gr ∈ plan opt prot nl (candidates opt nl), gr.1.out = n := by
  rw [hp.rewired.lost_iff h.sound h.single]
  constructor
  · rintro ⟨⟨b, hb, hdel, k, hold⟩, -⟩
    obtain ⟨gr, hgr, hid⟩ := (hp.deleted b.id).mp hdel
    obtain ⟨⟨m, hg⟩, -⟩ := names_of_mem_plan h hgr
    have hmb : m = b := h.sound.eq_of_id (mem_bases hg.getModel) hb (hg.id.symm.trans hid)
    subst hmb
    have hpin : gr.1.outPin = ⟨m.id, gr.1.outPin.k⟩ := by rw [← hg.id]
    have hdriver := hg.driver
    rw [hpin] at hdriver
    have hk := h.eq_of_pinOut hb hg.gate hdriver.1 hold.1
    rw [hk] at hdriver
    exact ⟨gr, hgr, h.sound.points_unique hdriver.2 hold.2⟩
  · rintro ⟨gr, hgr, rfl⟩
    obtain ⟨⟨m, hg⟩, -⟩ := names_of_mem_plan h hgr
    have hpin : gr.1.outPin = ⟨m.id, gr.1.outPin.k⟩ := by rw [← hg.id]
    refine ⟨⟨m, mem_bases hg.getModel, (hp.deleted m.id).mpr ⟨gr, hgr, hg.id⟩,
      gr.1.outPin.k, by rw [← hpin]; exact hg.driver⟩, fun b hb k hdriver => ?_⟩
    have hk := (hp.rewired.sound.points_iff_pin (hp.rewired.mem_bases_new hb) _ _).mp hdriver.2
    exact (hp.consts.pinOut_new hp.rewired hb hk).2.1 (hg.isSome h.sound)

/-- The readers are driven after the run exactly when the plan takes none of those that
stay to the output of a rewritten gate. -/
theorem readersDriven_iff : ReadersDriven prot nl cur ↔ ReadersStayDriven opt prot nl := by
  have htrack := at_tracked hp.goes (fun gr hgr b hb v n hconst => out_ne_const h hp hgr hb hconst)
  have hreach : ∀ n, ∀ gr ∈ plan opt prot nl (candidates opt nl),
      follow moves n = gr.1.out ↔
        tracked (plan opt prot nl (candidates opt nl)) (.node n) = .node gr.1.out := by
    intro n gr hgr
    have hat := htrack (.node n) n rfl
    cases htr : tracked (plan opt prot nl (candidates opt nl)) (.node n) with
    | node n' =>
      rw [htr] at hat
      rw [show follow moves n = n' from hat, Replacement.node.injEq]
    | constant c =>
      rw [htr] at hat
      obtain ⟨b, hb, hconst⟩ := hat
      simp only [reduceCtorEq, iff_false]
      exact (out_ne_const h hp hgr hb hconst).symm
  rw [hp.rewired.readersDriven_iff h.sound (lost_iff_rewritten h hp)]
  · constructor
    · rintro ⟨hold, -⟩ m hm hstay pk hpk hout n hn gr hgr heq
      have hd : m.id ∉ deleted := by
        rw [hp.deleted]
        rintro ⟨gr', hgr', hid⟩
        exact hstay gr' hgr' hid
      have hk : m.model.pins[pk.2]? = some (some n) := by
        rw [mem_zipIdx_iff_getElem?.mp hpk, hn]
      exact hold m hm hd pk.2 n hk hout ⟨gr, hgr, ((hreach n gr hgr).mpr heq).symm⟩
    · intro hstay
      refine ⟨fun b hb hd k n hk hout => ?_, fun b hb k n hcons => ?_⟩
      · rintro ⟨gr, hgr, heq⟩
        refine hstay b hb ?_ (some n, k) (mem_zipIdx_iff_getElem?.mpr hk) hout n rfl gr hgr
          ((hreach n gr hgr).mp heq.symm)
        intro gr' hgr' hid
        exact hd ((hp.deleted b.id).mpr ⟨gr', hgr', hid⟩)
      · exact absurd hcons (hp.consts.not_consumer hp.rewired hb)
  · rintro n hn ⟨gr, hgr, rfl⟩
    exact (replacementOf_of_rewriteOf (names_of_mem_plan h hgr).2).1 hn

omit h in
theorem pinned_new (hb : b ∈ news) (σ : Nat → LogicT) : WellPinned (stateFns σ) b := by
  obtain ⟨c, n, hconst, -⟩ := hp.consts.const b hb
  refine wellPinned_gate (.inl hconst.kind) (by rw [hconst.kind, hconst.pins]; rfl) ?_
  rw [hconst.kind]
  exact fun hgate => absurd hgate (by simp [isLogicGate])

omit h in
theorem pinEquations_new (hb : b ∈ news) (σ : Nat → LogicT) : ∃ c n,
    ConstInput b (ofBool c) n ∧
      pinEquations (stateFns σ) b = [Equation.apply n [] fun _ => ofBool c] := by
  obtain ⟨c, n, hconst, -⟩ := hp.consts.const b hb
  exact ⟨c, n, hconst, by rw [pinEquations_input hconst.kind hconst.pins, hconst.inputState]⟩

variable {mv : NodeId × NodeId}

theorem names_of_move (hmv : mv ∈ moves) : ∃ gr m, Names nl gr.1 m ∧
    rewriteOf opt prot nl gr.1 = some gr.2 ∧ Goes nl news gr mv := by
  obtain ⟨i, hi, rfl⟩ := mem_iff_getElem.mp hmv
  have hlen := hp.goes.length_eq
  obtain ⟨⟨m, hg⟩, hr⟩ := names_of_mem_plan h (get_mem (plan opt prot nl (candidates opt nl)) ⟨i, by omega⟩)
  exact ⟨_, m, hg, hr, hp.goes.get (by omega) hi⟩

theorem value_of_move (hopt : opt.assumeBinaryInputs = false) {σ : Nat → LogicT} (hσ : KnownInputs σ nl)
    (hv : Settled (system (stateFns σ) nl) (fun _ => .X) v) (hmv : mv ∈ moves) :
    withConsts ofBool news v mv.1 = withConsts ofBool news v mv.2 := by
  obtain ⟨gr, m, hg, hr, hsrc, hdst⟩ := names_of_move h hp hmv
  have hval := hg.value h hopt hr hσ hv
  rw [hsrc, withConsts_old hp.consts (hg.isSome h.sound), hval]
  cases hrep : gr.2 with
  | node n =>
    simp only [hrep] at hdst
    obtain ⟨e, he, -, hd⟩ := hg.dep (hrep ▸ hr) σ
    have hnode := (isSome_of_mem_system h.sound (fun b hb => h.pinned hb)
      (mem_system.mpr ⟨m, mem_bases hg.getModel, he⟩)).2 n hd
    rw [hdst, withConsts_old hp.consts hnode]
    rfl
  | constant c =>
    simp only [hrep] at hdst
    obtain ⟨b, hb | hb, hconst⟩ := hdst
    · have hnode := h.sound.isSome_node? hb (x := mv.2) (by simp [hconst.pins])
      rw [withConsts_old hp.consts hnode, solves_input hv.solves hb hconst.kind hconst.pins, hconst.inputState]
      rfl
    · rw [withConsts_new hp.consts hb hconst]
      rfl

theorem rank_of_move {rank : NodeId → Nat} (hrank : ∀ σ, Ranked (system (stateFns σ) nl) rank)
    (hinput : ∀ b ∈ nl.bases, b.model.kind = .input → ∀ n, some n ∈ b.model.pins → rank n = 0)
    (hnew : ∀ n, ¬ (nl.node? n).isSome → rank n = 0) (hmv : mv ∈ moves) :
    rank mv.2 ≤ rank mv.1 := by
  obtain ⟨gr, m, hg, hr, hsrc, hdst⟩ := names_of_move h hp hmv
  cases hrep : gr.2 with
  | node n =>
    simp only [hrep] at hdst
    obtain ⟨e, he, htarget, hd⟩ := hg.dep (hrep ▸ hr) (fun _ => .X)
    have hlt := hrank _ e (mem_system.mpr ⟨m, mem_bases hg.getModel, he⟩) n hd
    rw [htarget] at hlt
    rw [hdst, hsrc]
    omega
  | constant c =>
    simp only [hrep] at hdst
    obtain ⟨b, hb | hb, hconst⟩ := hdst
    · rw [hinput b hb hconst.kind _ (by simp [hconst.pins])]
      exact Nat.zero_le _
    · rw [hnew _ (hp.consts.pinOut_new hp.rewired hb (k := 0) (n := mv.2) (by simp [hconst.pins])).2.1]
      exact Nat.zero_le _

theorem keepsStates (hopt : opt.assumeBinaryInputs = false) (hreaders : ReadersDriven prot nl cur) :
    KeepsStates prot nl cur := by
  have hsingle := hp.consts.singleDriverPins h.sound h.single hp.rewired
  refine ⟨fun n hobs hdriver => ?_, fun σ hσ => ?_⟩
  · obtain ⟨p, hp'⟩ := hreaders n hobs hdriver
    exact ⟨p, hp', fun q hq => hsingle q p n hq hp'⟩
  · obtain ⟨rank, hrank, hinput, hnew⟩ := h.exists_rank
    have hpinned : ∀ b ∈ nl.bases, WellPinned (stateFns σ) b := fun b hb => h.pinned hb
    have hranked := hp.rewired.ranked h.sound (ignoresPins_stateFns σ) hpinned (hrank σ)
      (fun mv hmv => rank_of_move h hp hrank hinput hnew hmv) (by
        intro b hb e he d hd
        obtain ⟨c, n, -, heq⟩ := pinEquations_new hp hb σ
        rw [heq, mem_singleton] at he
        rw [he] at hd
        cases hd)
    refine hp.rewired.sameFunction h.sound h.single (ignoresPins_stateFns σ) hpinned
      (fun b hb => pinned_new hp hb σ) ?_ hranked hreaders ?_
    · intro b hb
      obtain ⟨c, n, hconst, -⟩ := hp.consts.const b hb
      simp [stateFns, hconst.kind, ModelKind.gateFn]
    · intro v hv
      refine ⟨withConsts ofBool news v, ?_, fun n hn => withConsts_old hp.consts hn.1, fun n hn => ?_⟩
      · refine hp.rewired.solves h.sound (ignoresPins_stateFns σ) hpinned
          (solves_of_eq_on_nodes h.sound hpinned hv.solves fun n hn => withConsts_old hp.consts hn)
          (fun mv hmv => value_of_move h hp hopt hσ hv hmv) ?_
        intro b hb e he
        obtain ⟨c, n, hconst, heq⟩ := pinEquations_new hp hb σ
        rw [heq, mem_singleton] at he
        rw [he]
        exact withConsts_new hp.consts hb hconst
      · rcases withConsts_cases ofBool v hp.consts n with ⟨b, hb, c, hconst⟩ | heq
        · refine .inl ⟨Equation.apply n [] fun _ => inputState σ b,
            mem_system.mpr ⟨b, hp.rewired.mem_bases_new hb, ?_⟩, rfl⟩
          rw [pinEquations_input hconst.kind hconst.pins]
          exact mem_singleton_self _
        · rw [heq]
          refine .inr (hv.rest n ?_)
          rintro ⟨e, he, rfl⟩
          exact hn (isSome_of_mem_system h.sound hpinned he).1

end Final

/-- Constant propagation keeps the states if and only if no reader that stays is taken to
the output of a rewritten gate. -/
theorem constProp_keepsStates_iff (opt : Options) (hopt : opt.assumeBinaryInputs = false)
    (prot : List NodeId) (nl : Netlist) (h : LogicNetlist nl) :
    KeepsStates prot nl (optimizeConstantPropagation opt prot nl).1 ↔
      ReadersStayDriven opt prot nl := by
  have hstart : Progress opt prot nl [] nl [] [] [] :=
    ⟨.start h.sound h.digital, .nil, by simp [plan], ⟨by simp, by simp⟩⟩
  obtain ⟨moves, deleted, news, hp⟩ := exists_progress h hstart (candidates opt nl)
    (fun g hg => names_of_mem h hg) (nodup_candidates opt h.sound) false
  rw [List.nil_append] at hp
  constructor
  · intro hkeeps
    refine (readersDriven_iff h hp).mp fun n hobs hdriver => ?_
    exact (hkeeps.driver n hobs hdriver).exists
  · intro hstay
    exact keepsStates h hp hopt ((readersDriven_iff h hp).mpr hstay)

end Run

def andChain : Netlist := .ofModels 4 [.port .input [0] "x" [.digital .L],
  .port .input [1] "" [.digital .H], .on .and [0, 1, 2], .on .and [2, 1, 3], .port .output [3] "y" []]

theorem logicNetlist_andChain : LogicNetlist andChain :=
  logicNetlist_of_check NodeId.index
    (by decide +kernel) (by decide +kernel) (by decide +kernel)

theorem constProp_keepsStates_andChain :
    KeepsStates [.node 2] andChain (optimizeConstantPropagation {} [.node 2] andChain).1 ↔
      ReadersStayDriven {} [.node 2] andChain :=
  constProp_keepsStates_iff {} rfl [.node 2] andChain logicNetlist_andChain

/-- The `OUTPUT` of the chain ends on the output of the first gate, which is deleted. -/
theorem constProp_andChain_undriven :
    LogicNetlist andChain ∧ ¬ KeepsStates [] andChain (optimizeConstantPropagation {} [] andChain).1 := by
  refine ⟨logicNetlist_andChain, fun hkeeps => ?_⟩
  have hpins : allPins (optimizeConstantPropagation {} [] andChain).1 =
      [(⟨0, 0⟩, .node 0), (⟨1, 0⟩, .node 1), (⟨4, 0⟩, .node 2)] := by decide +kernel
  have hout : (optimizeConstantPropagation {} [] andChain).1.pinOut ⟨4, 0⟩ = false := by decide +kernel
  have hread : (optimizeConstantPropagation {} [] andChain).1.ConsumerPin ⟨4, 0⟩ (.node 2) :=
    ⟨hout, mem_allPins.mp (by rw [hpins]; simp)⟩
  have hdriver : andChain.DriverPin ⟨2, 2⟩ (.node 2) :=
    ⟨by decide +kernel, mem_allPins.mp (by decide +kernel)⟩
  obtain ⟨p, hp, -⟩ := hkeeps.driver (.node 2) ⟨rfl, .inr ⟨_, hread⟩⟩ ⟨_, hdriver⟩
  have hmem := mem_allPins.mpr hp.2
  rw [hpins] at hmem
  have hp4 : p = ⟨4, 0⟩ := by simpa using hmem
  have hpout := hp.1
  rw [hp4, hout] at hpout
  cases hpout

end ConstProp

end PhyEngine
