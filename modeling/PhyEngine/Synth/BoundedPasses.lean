import PhyEngine.Synth.Merging
import PhyEngine.Synth.TruthCones

/-!
# Bounded sweep and resubstitution

`optimize_bounded_sweep` and `optimize_bounded_resubstitute`: the readers of a later root of a
truth table go to the first one, or to an inverter of the complement. Neither looks whether what
it keeps is computed from what it removes (`boundedSweep_keeps_iff`, `boundedResub_keeps_iff`).
-/

namespace PhyEngine

open Equations Adders Netlist List

namespace TruthCones

abbrev Key := List NodeId × BitVec 64

def Cand.key (cd : Cand) : Key := (cd.leaves, cd.mask &&& allMask cd.cone.varCount)

def Cand.keyNot (cd : Cand) : Key := (cd.leaves, cd.key.2 ^^^ allMask cd.cone.varCount)

structure State where
  nl : Netlist
  rep : List (Key × NodeId) := []
  changed : Bool := false

/-- `pe_synth_options` as far as the passes read it. -/
structure Options where
  assumeBinaryInputs : Bool := false
  sweepMaxVars : Nat := 6
  sweepMaxGates : Nat := 64
  resubMaxVars : Nat := 6
  resubMaxGates : Nat := 64

section Passes

variable (prot : List NodeId) (snap : Netlist)

/-- The readers of the root go to a node, and the gate is deleted. -/
def State.replace (st : State) (cd : Cand) (dst : NodeId) : State :=
  let moved := st.nl.replaceOutput snap.pinOut prot cd.root dst cd.g.outPin cd.g.pos
  { st with nl := moved.1, changed := st.changed || moved.2 }

/-- The body of the last loop of the sweep; `snap` is the netlist at the start. -/
def sweepStep (st : State) (cd : Cand) : State :=
  match st.nl.getModel cd.g.pos with
  | none => st
  | some _ =>
    let mask := cd.key.2
    if mask = 0 ∨ mask = allMask cd.cone.varCount then
      let made := findOrMakeConstNode st.nl (LogicT.ofBool (decide (mask ≠ 0)))
      let st := { st with nl := made.1 }
      if cd.root ∈ prot then st else st.replace prot snap cd made.2
    else if cd.cone.varCount = 1 ∧ mask = 0b10#64 then
      match cd.leaves.head? with
      | none => st
      | some leaf => if cd.root ∈ prot then st else st.replace prot snap cd leaf
    else
      match st.rep.lookup cd.key with
      | none => { st with rep := (cd.key, cd.root) :: st.rep }
      | some repNode =>
        if cd.root ∈ prot then st
        else if repNode = cd.root then st
        else st.replace prot snap cd repNode

def resubStep (st : State) (cd : Cand) : State :=
  match st.nl.getModel cd.g.pos with
  | none => st
  | some _ =>
    let note (st : State) : State :=
      if (st.rep.lookup cd.key).isSome then st else { st with rep := (cd.key, cd.root) :: st.rep }
    if cd.g.k ≠ .notGate ∧ cd.root ∉ prot then
      match st.rep.lookup cd.keyNot with
      | none => note st
      | some repNode =>
        if repNode = cd.root then note st
        else
          match notOf snap repNode with
          | none => note st
          | some repNot =>
            if repNot = cd.root then note st
            else
              let moved := st.nl.replaceOutput snap.pinOut prot cd.root repNot cd.g.outPin cd.g.pos
              if moved.2 then { st with nl := moved.1, changed := true } else note { st with nl := moved.1 }
    else note st

end Passes

def maxGatesOf (maxGates : Nat) : Nat := if maxGates = 0 then 64 else maxGates

variable (opt : Options)

variable (addr : NodeId → Nat)

def sweepCands (roots : List NodeId) (nl : Netlist) : List Cand :=
  roots.filterMap (candOf nl addr (min 6 opt.sweepMaxVars) (maxGatesOf opt.sweepMaxGates))

def resubCands (roots : List NodeId) (nl : Netlist) : List Cand :=
  roots.filterMap (candOf nl addr (min 6 opt.resubMaxVars) (maxGatesOf opt.resubMaxGates))

variable (roots prot : List NodeId)

variable (nl : Netlist)

/-- `optimize_bounded_sweep_in_pe_netlist`; `roots` are the keys of `gate_by_out` in their order. -/
def optimizeBoundedSweep : Netlist × Bool :=
  if opt.assumeBinaryInputs = false then (nl, false)
  else if opt.sweepMaxVars = 0 then (nl, false)
  else
    let st := (sweepCands opt addr roots nl).foldl (sweepStep prot nl) { nl }
    (st.nl, st.changed)

def optimizeBoundedResubstitute : Netlist × Bool :=
  if opt.assumeBinaryInputs = false then (nl, false)
  else if opt.resubMaxVars = 0 then (nl, false)
  else
    let st := (resubCands opt addr roots nl).foldl (resubStep prot nl) { nl }
    (st.nl, st.changed)

section Plan

variable (prot : List NodeId) (snap : Netlist)

def sweepPlanStep (p : List (Key × NodeId) × List (NodeId × Replacement)) (cd : Cand) :
    List (Key × NodeId) × List (NodeId × Replacement) :=
  let add (r : Replacement) := if cd.root ∈ prot then p else (p.1, p.2 ++ [(cd.root, r)])
  if cd.key.2 = 0 ∨ cd.key.2 = allMask cd.cone.varCount then add (.constant (decide (cd.key.2 ≠ 0)))
  else if cd.cone.varCount = 1 ∧ cd.key.2 = 0b10#64 then
    match cd.leaves.head? with
    | none => p
    | some leaf => add (.node leaf)
  else
    match p.1.lookup cd.key with
    | none => ((cd.key, cd.root) :: p.1, p.2)
    | some repNode => if repNode = cd.root then p else add (.node repNode)

def resubTarget (rep : List (Key × NodeId)) (cd : Cand) : Option NodeId :=
  if cd.g.k ≠ .notGate ∧ cd.root ∉ prot then
    (rep.lookup cd.keyNot).bind fun repNode =>
      if repNode = cd.root then none else (notOf snap repNode).filter fun n => decide (n ≠ cd.root)
  else none

def resubPlanStep (p : List (Key × NodeId) × List (NodeId × Replacement)) (cd : Cand) :
    List (Key × NodeId) × List (NodeId × Replacement) :=
  match resubTarget prot snap p.1 cd with
  | some n => (p.1, p.2 ++ [(cd.root, .node n)])
  | none => if (p.1.lookup cd.key).isSome then p else ((cd.key, cd.root) :: p.1, p.2)

end Plan

def sweepReplacements : List (NodeId × Replacement) :=
  if opt.assumeBinaryInputs = false ∨ opt.sweepMaxVars = 0 then []
  else ((sweepCands opt addr roots nl).foldl (sweepPlanStep prot) ([], [])).2

def resubReplacements : List (NodeId × Replacement) :=
  if opt.assumeBinaryInputs = false ∨ opt.resubMaxVars = 0 then []
  else ((resubCands opt addr roots nl).foldl (resubPlanStep prot nl) ([], [])).2

theorem drivesOnly_of_mem {nl : Netlist} (h : BinaryNetlist nl) {g : Gate} (hg : g ∈ gates nl) :
    ∃ m, nl.getModel g.pos = some m ∧ g.outPin = ⟨m.id, g.outPin.k⟩ ∧ DrivesOnly nl m g.outPin.k g.out := by
  obtain ⟨m, hm⟩ := names_of_mem hg
  obtain ⟨fn, hfn, -⟩ := exists_boolFns g.k
  have hfn := hfn m hm.kind
  have hpins := hm.pins
  have hlen : m.model.pins.length = if g.k = .notGate then 2 else 3 := by
    rw [hpins]
    split <;> rfl
  have hk : g.outPin.k = if g.k = .notGate then 1 else 2 := by rw [hm.outPin]
  -- The last pin is the one output pin.
  have hout : ∀ j, nl.pinOut ⟨m.id, j⟩ = decide (j = g.outPin.k) := by
    intro j
    rw [h.sound.pinOut_eq hm.mem, hlen, hm.kind, hk]
    cases g.k <;>
      simp only [Kind.modelKind, isOutputPin, reduceCtorEq, if_true, if_false] <;>
      rcases j with _ | _ | _ | j <;>
      rfl
  have hlast : m.model.pins[g.outPin.k]? = some (some g.out) := by
    rw [hpins, hk]
    split <;> rfl
  refine ⟨m, hm.getModel, by rw [hm.outPin], hm.mem, ?_, by simp [hfn], ⟨by rw [hout]; simp, ?_⟩, ?_⟩
  · rw [hm.kind]
    cases g.k <;> simp [Kind.modelKind]
  · exact (h.sound.points_iff_pin hm.mem _ _).mpr hlast
  · intro j n hdriver
    have hj : j = g.outPin.k := by simpa [hout] using hdriver.1
    have hn := (h.sound.points_iff_pin hm.mem _ _).mp hdriver.2
    rw [hj, hlast] at hn
    exact (Option.some.inj (Option.some.inj hn)).symm

/-- What holds in front of the candidates `todo`. The roots that are still to come are not used as
replacements, except those that are not `removable`. -/
structure Sweeping (removable : NodeId → Prop) (prot : List NodeId) (nl : Netlist) (todo : List Cand)
    (rep : List (Key × NodeId)) (repls : List (NodeId × Replacement)) (cur : Netlist) : Prop where
  replacements : Replacements prot nl repls
  merged : ∃ moves deleted news, Merged nl repls moves deleted news cur
  source : ∀ p ∈ repls, removable p.1 ∧ ∀ cd ∈ todo, p.1 ≠ cd.root
  target : ∀ p ∈ repls, ∀ n, p.2 = .node n → ∀ cd ∈ todo, removable cd.root → n ≠ cd.root
  rep : ∀ e ∈ rep, (∃ cd, IsCand nl e.2 cd ∧ cd.key = e.1) ∧ e.2 ∉ repls.map Prod.fst ∧
    ∀ cd ∈ todo, e.2 ≠ cd.root

section Run

variable {removable : NodeId → Prop} {prot : List NodeId} {nl cur : Netlist} {cd : Cand}
  {todo : List Cand} {rep : List (Key × NodeId)} {repls : List (NodeId × Replacement)}

/-- The candidates to come are candidates of different roots. -/
structure Todo (nl : Netlist) (todo : List Cand) : Prop where
  isCand : ∀ cd ∈ todo, IsCand nl cd.root cd
  nodup : (todo.map Cand.root).Nodup

theorem todo_cands (h : BinaryNetlist nl) {roots : List NodeId} (horder : KeyOrder nl roots) (addr : NodeId → Nat)
    (maxVars maxGates : Nat) (hmax : maxVars ≤ 6) : Todo nl (roots.filterMap (candOf nl addr maxVars maxGates)) := by
  have hroot : ∀ root cd, candOf nl addr maxVars maxGates root = some cd → cd.root = root := fun root cd hcd =>
    (isCand_of_candOf h hmax hcd).root_eq
  constructor
  · intro cd hcd
    obtain ⟨root, -, hc⟩ := mem_filterMap.mp hcd
    rw [hroot root cd hc]
    exact isCand_of_candOf h hmax hc
  · have hsub : ∀ roots : List NodeId,
        ((roots.filterMap (candOf nl addr maxVars maxGates)).map Cand.root).Sublist roots := by
      intro roots
      induction roots with
      | nil => exact .slnil
      | cons root roots ih =>
        cases hc : candOf nl addr maxVars maxGates root with
        | none =>
          rw [filterMap_cons_none hc]
          exact ih.cons root
        | some cd =>
          rw [filterMap_cons_some hc, map_cons, hroot root cd hc]
          exact ih.cons_cons root
    exact (hsub roots).nodup horder.nodup

theorem Todo.tail (h : Todo nl (cd :: todo)) : Todo nl todo :=
  ⟨fun c hc => h.isCand c (mem_cons_of_mem _ hc), (nodup_cons.mp h.nodup).2⟩

theorem Todo.ne_root (h : Todo nl (cd :: todo)) : ∀ c ∈ todo, cd.root ≠ c.root := by
  intro c hc heq
  exact (nodup_cons.mp h.nodup).1 (heq ▸ mem_map_of_mem hc)

theorem Sweeping.start (h : BinaryNetlist nl) : Sweeping removable prot nl todo [] [] nl :=
  ⟨⟨by simp, by simp, by simp, by simp, by simp, by simp⟩, ⟨_, _, _, .start h⟩, by simp, by simp, by simp⟩

section

variable (hs : Sweeping removable prot nl (cd :: todo) rep repls cur)

include hs

theorem Sweeping.skip :
    Sweeping removable prot nl todo rep repls cur :=
  ⟨hs.replacements, hs.merged, fun p hp =>
    ⟨(hs.source p hp).1, fun c hc => (hs.source p hp).2 c (mem_cons_of_mem _ hc)⟩,
    fun p hp n hn c hc => hs.target p hp n hn c (mem_cons_of_mem _ hc),
    fun e he => ⟨(hs.rep e he).1, (hs.rep e he).2.1, fun c hc => (hs.rep e he).2.2 c (mem_cons_of_mem _ hc)⟩⟩

theorem Sweeping.root_not_source :
    cd.root ∉ repls.map Prod.fst := by
  intro hmem
  obtain ⟨p, hp, heq⟩ := mem_map.mp hmem
  exact (hs.source p hp).2 cd mem_cons_self heq

theorem Sweeping.note (htodo : Todo nl (cd :: todo)) :
    Sweeping removable prot nl todo ((cd.key, cd.root) :: rep) repls cur := by
  refine { hs.skip with rep := fun e he => ?_ }
  rcases mem_cons.mp he with rfl | he
  · exact ⟨⟨cd, htodo.isCand cd mem_cons_self, rfl⟩, hs.root_not_source, htodo.ne_root⟩
  · exact hs.skip.rep e he

end

theorem Sweeping.getModel (h : BinaryNetlist nl) (hs : Sweeping removable prot nl (cd :: todo) rep repls cur)
    (hc : IsCand nl cd.root cd) : ∃ m, cur.getModel cd.g.pos = some m := by
  obtain ⟨hg, hout⟩ := gateByOut_eq_some hc.gate
  obtain ⟨m, hpos, -, hdrives⟩ := drivesOnly_of_mem h hg
  obtain ⟨moves, deleted, news, hm⟩ := hs.merged
  exact ⟨_, hm.rewired.getModel _ _ hpos (hm.not_deleted h hdrives (hout ▸ hs.root_not_source))⟩

theorem Sweeping.replace (h : BinaryNetlist nl) (hs : Sweeping removable prot nl (cd :: todo) rep repls cur)
    (htodo : Todo nl (cd :: todo)) (hprot : cd.root ∉ prot) (hrem : removable cd.root) {r : Replacement}
    {moves : List (NodeId × NodeId)} {deleted : List Nat} {news : List ModelBase}
    (hm : Merged nl repls moves deleted news cur) {dst : NodeId} (hat : r.At nl news dst)
    (hdst : (cur.node? dst).isSome) (hvalue : ∀ v, Solves (system boolFns nl) v → v cd.root = r.value id v)
    (hnode : ∀ x, r = .node x → (nl.node? x).isSome ∧ x ≠ cd.root ∧ x ∉ repls.map Prod.fst ∧
      ∀ c ∈ todo, removable c.root → x ≠ c.root) :
    (cur.replaceOutput nl.pinOut prot cd.root dst cd.g.outPin cd.g.pos).2 = true ∧
      Sweeping removable prot nl todo rep (repls ++ [(cd.root, r)])
        (cur.replaceOutput nl.pinOut prot cd.root dst cd.g.outPin cd.g.pos).1 := by
  have hc := htodo.isCand cd mem_cons_self
  obtain ⟨hg, hout⟩ := gateByOut_eq_some hc.gate
  obtain ⟨m, hpos, hpin, hdrives⟩ := drivesOnly_of_mem h hg
  rw [hout] at hdrives
  have hnew := hs.root_not_source
  have hne : cd.root ≠ dst := by
    cases r with
    | node x =>
      rw [show dst = x from hat]
      exact (hnode x rfl).2.1.symm
    | constant c => exact hdrives.ne_const h hm.consts hat
  obtain ⟨htrue, hm'⟩ := hm.replace h hpos hdrives hnew hprot hat hne hdst
  rw [← hpin] at htrue hm'
  refine ⟨htrue, ?_, ⟨_, _, _, hm'⟩, ?_, ?_, ?_⟩
  · refine hs.replacements.add ⟨m, _, hdrives⟩ hvalue (fun x hx => ?_) hnew (fun p hp heq => ?_) hprot
    · exact ⟨(hnode x hx).1, (hnode x hx).2.1, (hnode x hx).2.2.1⟩
    · exact hs.target p hp _ heq cd mem_cons_self hrem rfl
  · intro p hp
    rcases mem_append.mp hp with hp | hp
    · exact hs.skip.source p hp
    · rw [mem_singleton.mp hp]
      exact ⟨hrem, htodo.ne_root⟩
  · intro p hp n hn
    rcases mem_append.mp hp with hp | hp
    · exact hs.skip.target p hp n hn
    · rw [mem_singleton.mp hp] at hn
      exact (hnode n hn).2.2.2
  · intro e he
    obtain ⟨hcand, hstay, hlater⟩ := hs.rep e he
    refine ⟨hcand, ?_, fun c hc => hlater c (mem_cons_of_mem _ hc)⟩
    rw [map_append, mem_append, not_or]
    exact ⟨hstay, by simpa using hlater cd mem_cons_self⟩

variable {n : NodeId}

theorem Sweeping.rep_of_lookup (hs : Sweeping removable prot nl (cd :: todo) rep repls cur) {key : Key}
    (hn : rep.lookup key = some n) : (∃ cd, IsCand nl n cd ∧ cd.key = key) ∧
      n ∉ repls.map Prod.fst ∧ ∀ c ∈ cd :: todo, n ≠ c.root := by
  obtain ⟨l, l', hrep, -⟩ := lookup_eq_some_iff.mp hn
  have hmem : (key, n) ∈ rep := by
    rw [hrep]
    exact mem_append_right _ mem_cons_self
  exact hs.rep (key, n) hmem

theorem isSome_of_isCand (h : BinaryNetlist nl) (hc : IsCand nl n cd) : (nl.node? n).isSome := by
  obtain ⟨hg, hout⟩ := gateByOut_eq_some hc.gate
  rw [← hout]
  exact (isSome_of_pin h hg).1

theorem Sweeping.sweepStep (h : BinaryNetlist nl) {st : State}
    (hs : Sweeping (fun n => (gateByOut nl n).isSome) prot nl (cd :: todo) st.rep repls st.nl)
    (htodo : Todo nl (cd :: todo)) :
    (TruthCones.sweepStep prot nl st cd).rep = (sweepPlanStep prot (st.rep, repls) cd).1 ∧
      Sweeping (fun n => (gateByOut nl n).isSome) prot nl todo
        (sweepPlanStep prot (st.rep, repls) cd).1 (sweepPlanStep prot (st.rep, repls) cd).2
        (TruthCones.sweepStep prot nl st cd).nl := by
  have hc := htodo.isCand cd mem_cons_self
  have hrem : (gateByOut nl cd.root).isSome := by simp [hc.gate]
  obtain ⟨m, hget⟩ := hs.getModel h hc
  obtain ⟨moves, deleted, news, hm⟩ := hs.merged
  unfold TruthCones.sweepStep sweepPlanStep
  rw [hget]
  dsimp only
  split
  · -- The truth table is constant.
    rename_i hmask
    obtain ⟨news', hm', hat, hsome⟩ := hm.constNode h (decide (cd.key.2 ≠ 0))
      (findOrMakeConstNode_spec hm.rewired.sound (LogicT.ofBool (decide (cd.key.2 ≠ 0))))
    have hs' : Sweeping (fun n => (gateByOut nl n).isSome) prot nl (cd :: todo) st.rep repls
        (findOrMakeConstNode st.nl (LogicT.ofBool (decide (cd.key.2 ≠ 0)))).1 :=
      { hs with merged := ⟨_, _, _, hm'⟩ }
    split
    · exact ⟨rfl, hs'.skip⟩
    · rename_i hprot
      refine ⟨rfl, (hs'.replace h htodo hprot hrem hm' hat hsome (fun v hv => ?_) (by simp)).2⟩
      by_cases hzero : cd.key.2 = 0
      · rw [hc.value_of_zero hv hzero, Replacement.value, decide_eq_false (not_not.mpr hzero)]
        rfl
      · rw [hc.value_of_all hv (hmask.resolve_left hzero), Replacement.value, decide_eq_true hzero]
        rfl
  split
  · -- The root is its one leaf.
    rename_i hone
    cases hhead : cd.leaves.head? with
    | none => exact ⟨rfl, hs.skip⟩
    | some leaf =>
      dsimp only
      split
      · exact ⟨rfl, hs.skip⟩
      rename_i hprot
      have hleaves : cd.leaves = [leaf] := by
        have hlen := hc.varCount.symm.trans hone.1
        obtain ⟨l, hl⟩ := length_eq_one_iff.mp hlen
        rw [hl] at hhead ⊢
        rw [Option.some.inj hhead]
      obtain ⟨hnone, hsome⟩ := hc.leaves leaf (by simp [hleaves])
      refine ⟨rfl, (hs.replace h htodo hprot hrem hm (r := .node leaf) rfl (hm.rewired.isSome_node? hsome)
        (fun v hv => hc.value_of_leaf hv hleaves hone.2) fun x hx => ?_).2⟩
      obtain rfl : leaf = x := by simpa using hx
      refine ⟨hsome, ?_, ?_, fun c _ hrem' heq => ?_⟩
      · rintro rfl
        simp [hnone] at hrem
      · intro hmem
        obtain ⟨p, hp, rfl⟩ := mem_map.mp hmem
        have := (hs.source p hp).1
        simp [hnone] at this
      · rw [← heq, hnone] at hrem'
        cases hrem'
  cases hlookup : st.rep.lookup cd.key with
  | none => exact ⟨rfl, hs.note htodo⟩
  | some repNode =>
    obtain ⟨⟨cd', hc', hkey⟩, hstay, hlater⟩ := hs.rep_of_lookup hlookup
    have hne : repNode ≠ cd.root := hlater cd mem_cons_self
    dsimp only
    rw [if_neg hne, if_neg hne]
    split
    · exact ⟨rfl, hs.skip⟩
    rename_i hprot
    have hsome := isSome_of_isCand h hc'
    refine ⟨rfl, (hs.replace h htodo hprot hrem hm (r := .node repNode) rfl (hm.rewired.isSome_node? hsome)
      (fun v hv => ?_) fun x hx => ?_).2⟩
    · rw [Cand.key, Cand.key, Prod.mk.injEq] at hkey
      exact hc.value_eq hv hc' hkey.1.symm hkey.2.symm
    · obtain rfl : repNode = x := by simpa using hx
      exact ⟨hsome, hne, hstay, fun c hcm _ => hlater c (mem_cons_of_mem _ hcm)⟩

def NotInverter (nl : Netlist) (n : NodeId) : Prop := ∃ g, gateByOut nl n = some g ∧ g.k ≠ .notGate

theorem kind_eq_of_out (h : BinaryNetlist nl) {g g' : Gate} (hg : g ∈ gates nl) (hg' : g' ∈ gates nl)
    (hout : g.out = g'.out) : g.k = g'.k := by
  obtain ⟨m, hm⟩ := names_of_mem hg
  obtain ⟨m', hm'⟩ := names_of_mem hg'
  obtain ⟨b, hb, hpin, hdrives⟩ := drivesOnly_of_mem h hg
  obtain ⟨b', hb', hpin', hdrives'⟩ := drivesOnly_of_mem h hg'
  cases hb.symm.trans hm.getModel
  cases hb'.symm.trans hm'.getModel
  have hid := congrArg PinRef.id (h.single _ _ _ hdrives.driver (hout ▸ hdrives'.driver))
  obtain rfl := h.sound.eq_of_id hdrives.mem hdrives'.mem hid
  have hkind := hm.kind.symm.trans hm'.kind
  cases hk : g.k <;> cases hk' : g'.k <;> rw [hk, hk'] at hkind <;> first | rfl | cases hkind

theorem notOf_spec (h : BinaryNetlist nl) {o : NodeId} (ho : notOf nl n = some o) :
    ¬ NotInverter nl o ∧ (nl.node? o).isSome ∧ ∀ v, Solves (system boolFns nl) v → v o = !v n := by
  obtain ⟨g, hg, rfl⟩ := Option.map_eq_some_iff.mp ho
  have hmem := mem_of_find?_eq_some hg
  have hprop : g.k = .notGate ∧ g.in0 = some n := by simpa using find?_some hg
  refine ⟨?_, (isSome_of_pin h hmem).1, fun v hv => ?_⟩
  · rintro ⟨g', hg', hne⟩
    obtain ⟨hmem', hout⟩ := gateByOut_eq_some hg'
    exact hne ((kind_eq_of_out h hmem' hmem hout).trans hprop.1)
  · rw [value_of_mem hmem hprop.2 (b := n) (.inl hprop.1) hv, hprop.1]
    rfl

theorem Sweeping.resubStep (h : BinaryNetlist nl) {st : State}
    (hs : Sweeping (NotInverter nl) prot nl (cd :: todo) st.rep repls st.nl)
    (htodo : Todo nl (cd :: todo)) :
    (TruthCones.resubStep prot nl st cd).rep = (resubPlanStep prot nl (st.rep, repls) cd).1 ∧
      Sweeping (NotInverter nl) prot nl todo
        (resubPlanStep prot nl (st.rep, repls) cd).1 (resubPlanStep prot nl (st.rep, repls) cd).2
        (TruthCones.resubStep prot nl st cd).nl := by
  have hc := htodo.isCand cd mem_cons_self
  obtain ⟨m, hget⟩ := hs.getModel h hc
  obtain ⟨moves, deleted, news, hm⟩ := hs.merged
  have hnote : resubTarget prot nl st.rep cd = none →
      (if (st.rep.lookup cd.key).isSome then st else { st with rep := (cd.key, cd.root) :: st.rep }).rep =
        (resubPlanStep prot nl (st.rep, repls) cd).1 ∧
      Sweeping (NotInverter nl) prot nl todo
        (resubPlanStep prot nl (st.rep, repls) cd).1 (resubPlanStep prot nl (st.rep, repls) cd).2
        (if (st.rep.lookup cd.key).isSome then st else { st with rep := (cd.key, cd.root) :: st.rep }).nl := by
    intro hnone
    unfold resubPlanStep
    rw [hnone]
    dsimp only
    split
    · exact ⟨rfl, hs.skip⟩
    · exact ⟨rfl, hs.note htodo⟩
  unfold TruthCones.resubStep
  rw [hget]
  dsimp only
  by_cases hcond : cd.g.k ≠ .notGate ∧ cd.root ∉ prot
  · rw [if_pos hcond]
    cases hlookup : st.rep.lookup cd.keyNot with
    | none => exact hnote (by rw [resubTarget, if_pos hcond, hlookup]; rfl)
    | some repNode =>
      obtain ⟨⟨cd', hc', hkey⟩, hstay, hlater⟩ := hs.rep_of_lookup hlookup
      have hne : repNode ≠ cd.root := hlater cd mem_cons_self
      dsimp only
      rw [if_neg hne]
      cases hnot : notOf nl repNode with
      | none => exact hnote (by rw [resubTarget, if_pos hcond, hlookup, Option.bind_some, if_neg hne, hnot]; rfl)
      | some repNot =>
        obtain ⟨hinverter, hsome, hvalue⟩ := notOf_spec h hnot
        have hrem : NotInverter nl cd.root := ⟨cd.g, hc.gate, hcond.1⟩
        have hne' : repNot ≠ cd.root := by
          rintro rfl
          exact hinverter hrem
        have htarget : resubTarget prot nl st.rep cd = some repNot := by
          rw [resubTarget, if_pos hcond, hlookup, Option.bind_some, if_neg hne, hnot]
          simp [Option.filter, hne']
        dsimp only
        rw [if_neg hne']
        obtain ⟨htrue, hreplace⟩ := hs.replace h htodo hcond.2 hrem hm (r := .node repNot) rfl
          (hm.rewired.isSome_node? hsome) (fun v hv => by
            rw [Cand.key, Cand.keyNot, Prod.mk.injEq] at hkey
            have hrep := hc.value_eq_not hv hc' hkey.1.symm hkey.2.symm
            rw [Replacement.value, hvalue v hv, hrep, Bool.not_not]) fun x hx => by
            obtain rfl : repNot = x := by simpa using hx
            refine ⟨hsome, hne', fun hmem => ?_, fun c _ hrem' heq => hinverter (heq ▸ hrem')⟩
            obtain ⟨p, hp, heq⟩ := mem_map.mp hmem
            exact hinverter (heq ▸ (hs.source p hp).1)
        rw [if_pos htrue]
        unfold resubPlanStep
        rw [htarget]
        exact ⟨rfl, hreplace⟩
  · rw [if_neg hcond]
    exact hnote (by rw [resubTarget, if_neg hcond])

/-! ### The whole run -/

theorem Sweeping.run {removable : NodeId → Prop} {step : State → Cand → State}
    {plan : List (Key × NodeId) × List (NodeId × Replacement) → Cand →
      List (Key × NodeId) × List (NodeId × Replacement)}
    (hstep : ∀ {cd todo repls} {st : State}, Sweeping removable prot nl (cd :: todo) st.rep repls st.nl →
      Todo nl (cd :: todo) → (step st cd).rep = (plan (st.rep, repls) cd).1 ∧
        Sweeping removable prot nl todo (plan (st.rep, repls) cd).1 (plan (st.rep, repls) cd).2 (step st cd).nl)
    (todo : List Cand) (st : State) (hs : Sweeping removable prot nl todo st.rep repls st.nl)
    (htodo : Todo nl todo) :
    Sweeping removable prot nl [] (todo.foldl plan (st.rep, repls)).1 (todo.foldl plan (st.rep, repls)).2
      (todo.foldl step st).nl := by
  induction todo generalizing st repls with
  | nil => exact hs
  | cons cd todo ih =>
    obtain ⟨hrep, hs'⟩ := hstep hs htodo
    rw [← hrep] at hs'
    have hrest := ih _ hs' htodo.tail
    rw [hrep] at hrest
    exact hrest

end Run

structure KeepsCircuit (prot : List NodeId) (nl nl' : Netlist) : Prop where
  acyclic : ∃ rank : NodeId → Nat, Ranked (system boolFns nl') rank
  single : SingleDriverPins nl'
  driver : ∀ n, Observed prot nl nl' n → (∃ p, nl.DriverPin p n) → ∃! p, nl'.DriverPin p n
  function : KeepsFunction prot nl nl'

theorem Sweeping.keeps_iff {removable : NodeId → Prop} {prot : List NodeId} {nl cur : Netlist}
    {todo : List Cand} {rep : List (Key × NodeId)} {repls : List (NodeId × Replacement)} (h : BinaryNetlist nl)
    (hs : Sweeping removable prot nl todo rep repls cur) :
    KeepsCircuit prot nl cur ↔ ∀ n, ¬ Relation.TransGen (ComputedFrom nl repls) n n := by
  obtain ⟨moves, deleted, news, hm⟩ := hs.merged
  rw [← hm.acyclic_iff h hs.replacements]
  refine ⟨fun hkeeps => hkeeps.acyclic, fun hacyclic => ?_⟩
  have hsingle := hm.singleDriverPins h
  refine ⟨hacyclic, hsingle, fun n hobs hdriver => ?_, hm.keepsFunction h hs.replacements hacyclic⟩
  obtain ⟨p, hp⟩ := hm.readersDriven h hs.replacements n hobs hdriver
  exact ⟨p, hp, fun q hq => hsingle q p n hq hp⟩

/-- The sweep keeps the circuit if and only if no node is computed from itself once each
replaced node is computed from what replaces it. -/
theorem boundedSweep_keeps_iff (h : BinaryNetlist nl) (horder : KeyOrder nl roots) :
    KeepsCircuit prot nl (optimizeBoundedSweep opt addr roots prot nl).1 ↔
      ∀ n, ¬ Relation.TransGen (ComputedFrom nl (sweepReplacements opt addr roots prot nl)) n n := by
  have htodo : Todo nl (sweepCands opt addr roots nl) := todo_cands h horder addr _ _ (Nat.min_le_left _ _)
  have hstart : Sweeping (fun n => (gateByOut nl n).isSome) prot nl (sweepCands opt addr roots nl) [] [] nl :=
    .start h
  unfold optimizeBoundedSweep sweepReplacements
  by_cases hbinary : opt.assumeBinaryInputs = false
  · rw [if_pos hbinary, if_pos (.inl hbinary)]
    exact hstart.keeps_iff h
  by_cases hvars : opt.sweepMaxVars = 0
  · rw [if_neg hbinary, if_pos hvars, if_pos (.inr hvars)]
    exact hstart.keeps_iff h
  · rw [if_neg hbinary, if_neg hvars, if_neg (by simp [hbinary, hvars])]
    exact (Sweeping.run (Sweeping.sweepStep h) _ { nl } hstart htodo).keeps_iff h

def nestedAnd : Netlist := .ofModels 4 [.port .input [0] "a" [.digital .L],
  .port .input [1] "b" [.digital .L], .on .and [0, 1, 2], .on .and [2, 1, 3], .port .output [3] "y" []]

theorem binaryNetlist_nestedAnd : BinaryNetlist nestedAnd :=
  binaryNetlist_of_check NodeId.index (by decide +kernel) (by decide +kernel) (by decide +kernel)

theorem keyOrder_of_perm {nl : Netlist} {roots : List NodeId} (hnodup : roots.Nodup)
    (hsub : roots.all (fun n => ((gates nl).map (·.out)).contains n) = true)
    (hsup : ((gates nl).map (·.out)).all (fun n => roots.contains n) = true) : KeyOrder nl roots := by
  simp only [all_eq_true, contains_iff_mem] at hsub hsup
  refine ⟨hnodup, fun n => ⟨fun hn => ?_, ?_⟩⟩
  · exact mem_map.mp (hsub n hn)
  · rintro ⟨g, hg, rfl⟩
    exact hsup _ (mem_map_of_mem hg)

theorem keyOrder_nestedAnd : KeyOrder nestedAnd [.node 3, .node 2] :=
  keyOrder_of_perm (by decide) (by decide +kernel) (by decide +kernel)

theorem boundedSweep_keeps_nestedAnd :
    KeepsCircuit [] nestedAnd
        (optimizeBoundedSweep { assumeBinaryInputs := true } NodeId.index [.node 3, .node 2] [] nestedAnd).1 ↔
      ∀ n, ¬ Relation.TransGen (ComputedFrom nestedAnd
        (sweepReplacements { assumeBinaryInputs := true } NodeId.index [.node 3, .node 2] [] nestedAnd)) n n :=
  boundedSweep_keeps_iff _ _ _ _ _ binaryNetlist_nestedAnd keyOrder_nestedAnd

/-- The outer gate comes first in the table; the inner one is replaced by it, and the outer gate
reads itself. -/
theorem boundedSweep_nestedAnd_cycle : BinaryNetlist nestedAnd ∧ KeyOrder nestedAnd [.node 3, .node 2] ∧
    ¬ KeepsCircuit [] nestedAnd
      (optimizeBoundedSweep { assumeBinaryInputs := true } NodeId.index [.node 3, .node 2] [] nestedAnd).1 := by
  refine ⟨binaryNetlist_nestedAnd, keyOrder_nestedAnd, fun hkeeps => ?_⟩
  obtain ⟨rank, hrank⟩ := hkeeps.acyclic
  have hgate : Gate2
      (optimizeBoundedSweep { assumeBinaryInputs := true } NodeId.index [.node 3, .node 2] [] nestedAnd).1
      .and (.node 3) (.node 1) (.node 3) ⟨3, .on .and [3, 1, 3]⟩ :=
    ⟨by decide +kernel, rfl, .inl rfl⟩
  exact absurd (hgate.rank_lt rfl hrank).1 (Nat.lt_irrefl _)

/-- The resubstitution keeps the circuit under the same condition on its replacements. -/
theorem boundedResub_keeps_iff (h : BinaryNetlist nl) (horder : KeyOrder nl roots) :
    KeepsCircuit prot nl (optimizeBoundedResubstitute opt addr roots prot nl).1 ↔
      ∀ n, ¬ Relation.TransGen (ComputedFrom nl (resubReplacements opt addr roots prot nl)) n n := by
  have htodo : Todo nl (resubCands opt addr roots nl) := todo_cands h horder addr _ _ (Nat.min_le_left _ _)
  have hstart : Sweeping (NotInverter nl) prot nl (resubCands opt addr roots nl) [] [] nl := .start h
  unfold optimizeBoundedResubstitute resubReplacements
  by_cases hbinary : opt.assumeBinaryInputs = false
  · rw [if_pos hbinary, if_pos (.inl hbinary)]
    exact hstart.keeps_iff h
  by_cases hvars : opt.resubMaxVars = 0
  · rw [if_neg hbinary, if_pos hvars, if_pos (.inr hvars)]
    exact hstart.keeps_iff h
  · rw [if_neg hbinary, if_neg hvars, if_neg (by simp [hbinary, hvars])]
    exact (Sweeping.run (Sweeping.resubStep h) _ { nl } hstart htodo).keeps_iff h

/-- An AND gate with two inverters behind it and an `OUTPUT` on the second. -/
def doubleInverter : Netlist := .ofModels 5 [.port .input [0] "a" [.digital .L],
  .port .input [1] "b" [.digital .L], .on .and [0, 1, 2], .on .not [2, 3], .on .not [3, 4],
  .port .output [4] "y" []]

theorem binaryNetlist_doubleInverter : BinaryNetlist doubleInverter :=
  binaryNetlist_of_check NodeId.index (by decide +kernel) (by decide +kernel) (by decide +kernel)

theorem keyOrder_doubleInverter : KeyOrder doubleInverter [.node 3, .node 2, .node 4] :=
  keyOrder_of_perm (by decide) (by decide +kernel) (by decide +kernel)

theorem boundedResub_keeps_doubleInverter :
    KeepsCircuit [] doubleInverter (optimizeBoundedResubstitute { assumeBinaryInputs := true } NodeId.index
        [.node 3, .node 2, .node 4] [] doubleInverter).1 ↔
      ∀ n, ¬ Relation.TransGen (ComputedFrom doubleInverter (resubReplacements { assumeBinaryInputs := true }
        NodeId.index [.node 3, .node 2, .node 4] [] doubleInverter)) n n :=
  boundedResub_keeps_iff _ _ _ _ _ binaryNetlist_doubleInverter keyOrder_doubleInverter

/-- The first inverter comes first in the table. The AND gate is replaced by the second
inverter, and the two inverters read each other. -/
theorem boundedResub_doubleInverter_cycle : BinaryNetlist doubleInverter ∧
    KeyOrder doubleInverter [.node 3, .node 2, .node 4] ∧
    ¬ KeepsCircuit [] doubleInverter (optimizeBoundedResubstitute { assumeBinaryInputs := true } NodeId.index
      [.node 3, .node 2, .node 4] [] doubleInverter).1 := by
  refine ⟨binaryNetlist_doubleInverter, keyOrder_doubleInverter, fun hkeeps => ?_⟩
  obtain ⟨rank, hrank⟩ := hkeeps.acyclic
  have hnot : ∀ (m : ModelBase) (x y : NodeId), m ∈ (optimizeBoundedResubstitute { assumeBinaryInputs := true }
      NodeId.index [.node 3, .node 2, .node 4] [] doubleInverter).1.bases → m.model.kind = .not →
      m.model.pins = [some x, some y] → rank x < rank y := by
    intro m x y hm hkind hpins
    obtain ⟨fn, hfn, -⟩ := exists_boolFns .notGate
    exact rank_of_pins [x] [y] 0 hrank hm (hfn m hkind) hpins rfl rfl rfl (by simp)
  have hfirst := hnot ⟨3, .on .not [4, 3]⟩ _ _ (by decide +kernel) rfl rfl
  have hsecond := hnot ⟨4, .on .not [3, 4]⟩ _ _ (by decide +kernel) rfl rfl
  omega

end TruthCones

end PhyEngine
