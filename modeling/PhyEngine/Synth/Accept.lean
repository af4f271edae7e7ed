import PhyEngine.Synth.Adders
import PhyEngine.Synth.Verify

/-!
# Which correct candidates the verification accepts

For a candidate with the outputs of a combinational reference `omax_verify_equivalence` returns
`true` exactly when it can read both netlists: no multi-output block, and no unnamed `INPUT` that
is unknown.
-/

namespace PhyEngine

open AssocMap Equations CombEvalNet OmaxVerify List Equation

def ModelKind.isArithBlock : ModelKind → Bool
  | .halfAdder | .fullAdder | .mul2 => true
  | _ => false

namespace Netlist

def WellConnected (m : Model) : Prop :=
  if m.kind = .input ∨ m.kind = .output then m.pins.length = 1
  else ∃ arity fns, m.kind.boolFns = some (arity, fns) ∧ m.pins.length = arity + fns.length ∧
    none ∉ m.pins

/-- A combinational netlist of connected gates with acyclic dependencies, one driver for
each node and one `INPUT` for each name. -/
structure Combinational (nl : Netlist) : Prop where
  connected : ∀ m ∈ nl.normals, WellConnected m
  single_drivers : nl.SingleDrivers
  acyclic : nl.Acyclic
  names : (nl.namedInputs.map Prod.fst).Nodup

/-- An unnamed `INPUT` on a node holds neither low nor high. -/
def HasUnknownConst (nl : Netlist) : Prop :=
  ∃ m ∈ nl.normals, m.kind = .input ∧ m.name = "" ∧ m.ioNode.isSome ∧ m.toBoolConst = none

/-- The outputs of `ref` have the same values in `cand` for every assignment of the inputs. -/
def SameOutputs (ref cand : Netlist) : Prop :=
  ∀ σ nm n, ref.namedOutputs.lookup nm = some n →
    ∃ n' b, cand.namedOutputs.lookup nm = some n' ∧ ref.Evaluates σ n b ∧ cand.Evaluates σ n' b

end Netlist

namespace CombEvalNet

variable {nl : Netlist}

theorem gate_of_boolFns {k : ModelKind} {arity : Nat} {fns : List (List Bool → Bool)}
    (h : k.boolFns = some (arity, fns)) (hblock : k.isArithBlock = false) :
    (isUnaryGate k = true ∧ arity + fns.length = 2) ∨
      (isUnaryGate k = false ∧ isBinaryGate k = true ∧ arity + fns.length = 3) := by
  cases k <;> cases h <;> cases hblock <;> simp [isUnaryGate, isBinaryGate]

theorem readGate_isSome {m : Model} (h : Netlist.WellConnected m) (hin : m.kind ≠ .input)
    (hout : m.kind ≠ .output) (hblock : m.kind.isArithBlock = false) :
    (readGate m).isSome = true := by
  simp only [Netlist.WellConnected, hin, hout, or_self, if_false] at h
  obtain ⟨arity, fns, hfns, hlen, hnone⟩ := h
  rcases gate_of_boolFns hfns hblock with ⟨hu, htwo⟩ | ⟨hu, hb, hthree⟩
  · rw [htwo] at hlen
    match hp : m.pins, hlen, hnone with
    | [some a, some out], _, _ => simp [readGate, hu, hp]
    | [none, _], _, hnone => simp at hnone
    | [_, none], _, hnone => simp at hnone
  · rw [hthree] at hlen
    obtain ⟨a, b, out, hp⟩ := List.length_eq_three.mp hlen
    rcases a with _ | a
    · simp [hp] at hnone
    rcases b with _ | b
    · simp [hp] at hnone
    rcases out with _ | out
    · simp [hp] at hnone
    · simp [readGate, hu, hb, hp]

theorem accepted_iff {m : Model} (h : Netlist.WellConnected m) :
    accepted m = true ↔ m.kind.isArithBlock = false ∧
      ¬ (m.kind = .input ∧ m.name = "" ∧ m.ioNode.isSome = true ∧ m.toBoolConst = none) := by
  by_cases hin : m.kind = .input
  · have hlen : m.pins.length = 1 := by simpa [Netlist.WellConnected, hin] using h
    simp only [accepted, hin, ModelKind.deviceType, hlen, ModelKind.isArithBlock, true_and]
    by_cases hname : m.name = "" <;> cases hn : m.ioNode <;> cases hc : m.toBoolConst <;>
      simp [hname]
  by_cases hout : m.kind = .output
  · have hlen : m.pins.length = 1 := by simpa [Netlist.WellConnected, hout] using h
    simp [accepted, hout, ModelKind.deviceType, hlen, ModelKind.isArithBlock]
  have hdig : m.kind.deviceType = .digital := by
    simp only [Netlist.WellConnected, hin, hout, or_self, if_false] at h
    obtain ⟨arity, fns, hfns, -⟩ := h
    revert hfns
    cases m.kind <;> simp [ModelKind.deviceType, ModelKind.boolFns]
  have hacc : accepted m = (readGate m).isSome := by simp [accepted, hdig, hin, hout]
  simp only [hacc, hin, false_and, not_false_iff, and_true]
  constructor
  · intro hs
    by_contra hblock
    have hg : readGate m = none := by
      refine readGate_of_not_gate ?_ ?_ <;> revert hblock <;> cases m.kind <;>
        simp [ModelKind.isArithBlock, isUnaryGate, isBinaryGate]
    simp [hg] at hs
  · exact readGate_isSome h hin hout

theorem sublist_targets (σ : String → Bool) (ms : List Model) :
    ((ms.filterMap readGate).map Prod.fst).Sublist
      ((ms.flatMap (·.equations σ)).map (·.target)) := by
  induction ms with
  | nil => simp
  | cons m ms ih =>
    rw [filterMap_cons_toList, map_append, flatMap_cons, map_append]
    refine List.Sublist.append ?_ ih
    cases hg : readGate m with
    | none => simp
    | some e =>
      obtain ⟨n, g⟩ := e
      rw [Model.equations, gateEquations_of_readGate hg, map_append]
      exact sublist_append_right _ _

theorem exists_net_iff {nl : Netlist} (h : nl.Combinational) :
    (∃ net, buildCombEvalNet nl = some net) ↔
      (∀ m ∈ nl.normals, m.kind.isArithBlock = false) ∧ ¬ nl.HasUnknownConst := by
  have hnodup : ((nl.normals.filterMap readGate).map Prod.fst).Nodup :=
    (h.single_drivers fun _ => false).sublist (sublist_targets _ _)
  have hread : (∃ net, buildCombEvalNet nl = some net) ↔
      ∀ m ∈ nl.normals, accepted m = true := by
    constructor
    · rintro ⟨net, hnet⟩
      exact (buildCombEvalNet_eq_some.mp hnet).1
    · intro hacc
      exact ⟨⟨_, _, _, _⟩, buildCombEvalNet_eq_some.mpr ⟨hacc, hnodup, rfl, rfl, rfl, rfl⟩⟩
  rw [hread]
  constructor
  · intro hacc
    refine ⟨fun m hm => ((accepted_iff (h.connected m hm)).mp (hacc m hm)).1, ?_⟩
    rintro ⟨m, hm, hconst⟩
    exact ((accepted_iff (h.connected m hm)).mp (hacc m hm)).2 hconst
  · rintro ⟨hblock, hconst⟩ m hm
    exact (accepted_iff (h.connected m hm)).mpr
      ⟨hblock m hm, fun hc => hconst ⟨m, hm, hc⟩⟩

end CombEvalNet

namespace OmaxVerify

variable {names : List String}

section Complete

variable {nl : Netlist} {net : CombEvalNet}

section

variable (h : buildCombEvalNet nl = some net)
include h

theorem rankedDrivers {rank : NodeId → Nat}
    (hr : ∀ σ, Ranked (nl.equations σ) rank) : net.RankedDrivers rank := by
  intro n g hg d hd
  have hmem := (soundFor_assignInputs h (fun _ => false) []).driver n g hg
  exact hr (fun _ => false) (g.equation n) hmem d hd

theorem completeFor_assignInputs (hc : nl.Combinational) (σ : String → Bool)
    (hnames : ∀ nm ∈ nl.inputNames, nm ∈ names) :
    CompleteFor net (assignInputs net names (names.map σ)) (nl.equations σ) := by
  intro e he
  obtain ⟨m, hm, he⟩ := mem_flatMap.mp he
  simp only [Model.equations, mem_append, Option.mem_toList,
    Option.map_eq_some_iff] at he
  rcases he with (⟨x, hx, rfl⟩ | ⟨x, hx, rfl⟩) | hgate
  · left
    rw [lookup_constNodes h, const_target, isSome_lookup_iff]
    exact mem_map_of_mem (mem_filterMap.mpr ⟨m, hm, hx⟩)
  · right
    left
    have hmem : x ∈ nl.namedInputs := mem_filterMap.mpr ⟨m, hm, hx⟩
    have hlook : net.inputs.lookup x.1 = some x.2 := by
      rw [lookup_inputs h]
      exact lookup_of_mem hc.names hmem
    rw [lookup_assignInputs, const_target, isSome_lookup_iff]
    refine mem_map_of_mem (f := Prod.fst) (a := (x.2, σ x.1)) (mem_filterMap.mpr ?_)
    refine ⟨(x.1, σ x.1), ?_, by simp [hlook]⟩
    rw [zip_map_self]
    exact mem_map_of_mem
      (hnames x.1 (mem_dedup.mpr (mem_map_of_mem hmem)))
  · right
    right
    cases hg : readGate m with
    | none =>
      have hacc := (buildCombEvalNet_eq_some.mp h).1 m hm
      rw [gateEquations_of_accepted hacc hg] at hgate
      cases hgate
    | some ng =>
      obtain ⟨n, g⟩ := ng
      rw [gateEquations_of_readGate hg, mem_singleton] at hgate
      subst hgate
      exact ⟨g, (lookup_driver_iff h).mpr ⟨m, hm, hg⟩, rfl⟩

theorem evalOutput_of_evaluates (hc : nl.Combinational) {σ : String → Bool}
    (hnames : ∀ nm ∈ nl.inputNames, nm ∈ names) {nm : String} {n : NodeId} {b : Bool}
    (hn : nl.namedOutputs.lookup nm = some n) (hb : nl.Evaluates σ n b) :
    evalOutput net (assignInputs net names (names.map σ)) nm = some b := by
  obtain ⟨rank, hrank⟩ := hc.acyclic
  have hval := value_of_derives (soundFor_assignInputs h σ names)
    (completeFor_assignInputs h hc σ hnames) (hc.single_drivers σ) hb
  have hfuel : below rank (net.driver.map Prod.fst) n < net.driver.length + 1 := by
    have hle := below_le_length rank (net.driver.map Prod.fst) n
    rw [length_map] at hle
    omega
  obtain ⟨memo, heval⟩ := evalCombNode_of_value (rankedDrivers h hrank) hval hfuel memoSound_nil
  simp [evalOutput, lookup_outputs h, hn, heval]

end

end Complete

theorem exists_assignment (hn : names.Nodup) {bits : List Bool} (hlen : bits.length = names.length) :
    ∃ σ : String → Bool, names.map σ = bits := by
  induction names generalizing bits with
  | nil =>
    rw [length_nil, length_eq_zero_iff] at hlen
    exact ⟨fun _ => false, by simp [hlen]⟩
  | cons nm names ih =>
    cases bits with
    | nil => cases hlen
    | cons b bits =>
      obtain ⟨hnot, hn⟩ := nodup_cons.mp hn
      obtain ⟨σ, hσ⟩ := ih hn (Nat.succ.inj hlen)
      refine ⟨Function.update σ nm b, ?_⟩
      have hmap : names.map (Function.update σ nm b) = names.map σ := by
        refine map_congr_left fun x hx => Function.update_of_ne ?_ _ _
        rintro rfl
        exact hnot hx
      rw [map_cons, Function.update_self, hmap, hσ]

end OmaxVerify

/-- On a combinational reference and a correct candidate with the same inputs, the
verification succeeds if and only if the candidate has no multi-output block and no unnamed
`INPUT` of either netlist holds an unknown value. -/
theorem omaxVerifyEquivalence_accepts_iff (order : MapOrder) (opt : PeSynthOptions)
    (ref cand : Netlist) (hr : ref.Combinational) (hc : cand.Combinational)
    (hgates : ∀ m ∈ ref.normals, m.kind.isArithBlock = false)
    (hports : ∀ nm, nm ∈ ref.inputNames ↔ nm ∈ cand.inputNames)
    (hsame : ref.SameOutputs cand) :
    omaxVerifyEquivalence order ref cand opt = .ok () ↔
      (∀ m ∈ cand.normals, m.kind.isArithBlock = false) ∧
      ¬ ref.HasUnknownConst ∧ ¬ cand.HasUnknownConst := by
  constructor
  · intro h
    unfold omaxVerifyEquivalence at h
    split at h
    · rename_i refNet candNet href hcand
      exact ⟨((exists_net_iff hc).mp ⟨_, hcand⟩).1, ((exists_net_iff hr).mp ⟨_, href⟩).2,
        ((exists_net_iff hc).mp ⟨_, hcand⟩).2⟩
    · cases h
  · rintro ⟨hblock, hconst, hconst'⟩
    obtain ⟨refNet, href⟩ := (exists_net_iff hr).mpr ⟨hgates, hconst⟩
    obtain ⟨candNet, hcand⟩ := (exists_net_iff hc).mpr ⟨hblock, hconst'⟩
    have hmemIn (nm : String) :
        nm ∈ (order.arrange refNet.inputs).map Prod.fst ↔ nm ∈ ref.inputNames := by
      rw [mem_arrange, lookup_inputs href, isSome_lookup_iff, Netlist.inputNames, List.mem_dedup]
    have hrun (bits : List Bool)
        (hlen : bits.length = ((order.arrange refNet.inputs).map Prod.fst).length) :
        runOne refNet candNet ((order.arrange refNet.inputs).map Prod.fst)
          ((order.arrange refNet.outputs).map Prod.fst) bits = .ok () := by
      obtain ⟨σ, rfl⟩ := exists_assignment (nodup_inNames href order) hlen
      refine runOne_eq_ok.mpr fun nm hnm => ?_
      rw [mem_arrange, lookup_outputs href] at hnm
      obtain ⟨n, hn⟩ := Option.isSome_iff_exists.mp hnm
      obtain ⟨n', b, hn', hev, hev'⟩ := hsame σ nm n hn
      refine ⟨b, evalOutput_of_evaluates href hr (fun x hx => (hmemIn x).mpr hx) hn hev,
        evalOutput_of_evaluates hcand hc (fun x hx => (hmemIn x).mpr ((hports x).mpr hx)) hn' hev'⟩
    have hinputs : ¬ ∃ nm ∈ (order.arrange refNet.inputs).map Prod.fst,
        candNet.inputs.lookup nm = none := by
      rintro ⟨nm, hnm, hnone⟩
      have hcandName := (hports nm).mp ((hmemIn nm).mp hnm)
      rw [Netlist.inputNames, List.mem_dedup, ← isSome_lookup_iff, ← lookup_inputs hcand,
        hnone] at hcandName
      cases hcandName
    have houtputs : ¬ ∃ nm ∈ (order.arrange refNet.outputs).map Prod.fst,
        candNet.outputs.lookup nm = none := by
      rintro ⟨nm, hnm, hnone⟩
      rw [mem_arrange, lookup_outputs href] at hnm
      obtain ⟨n, hn⟩ := Option.isSome_iff_exists.mp hnm
      obtain ⟨n', -, hn', -⟩ := hsame (fun _ => false) nm n hn
      rw [lookup_outputs hcand, hn'] at hnone
      cases hnone
    simp only [omaxVerifyEquivalence, href, hcand, compareNets, hinputs, houtputs, if_false]
    split
    · exact allPatterns_eq_ok.mpr hrun
    · exact randomVectors_eq_ok hrun _ _

namespace OmaxVerify

def halfAdderGates : Netlist := Netlist.ofModels 4
  [.port .input [0] "a" [], .port .input [1] "b" [], .on .xor [0, 1, 2], .on .and [0, 1, 3],
    .port .output [2] "s" [], .port .output [3] "c" []]

variable (σ : String → Bool)

theorem equations_halfAdderGates :
    halfAdderGates.equations σ =
      [const (.node 0) (σ "a"), const (.node 1) (σ "b"),
        apply (.node 2) [.node 0, .node 1] (binary fun a b => a != b),
        apply (.node 3) [.node 0, .node 1] (binary fun a b => a && b)] := by
  simp [Netlist.equations, halfAdderGates, Netlist.normals_ofModels, Model.on, Model.port, Model.equations,
    Model.constEntry, Model.inputEntry, Model.ioNode, Model.gateEquations, ModelKind.boolFns]

theorem normals_optimizeAdders_halfAdderGates :
    (optimizeAddersInPeNetlist halfAdderGates).normals =
      [.port .input [0] "a" [], .port .input [1] "b" [], .port .output [2] "s" [], .port .output [3] "c" [],
        ⟨.halfAdder, "", [],
          [some (.node 0), some (.node 1), some (.node 2), some (.node 3)]⟩] := by
  decide

theorem equations_optimizeAdders_halfAdderGates :
    (optimizeAddersInPeNetlist halfAdderGates).equations σ = halfAdderGates.equations σ := by
  rw [equations_halfAdderGates, Netlist.equations, normals_optimizeAdders_halfAdderGates]
  simp [Model.port, Model.equations, Model.constEntry, Model.inputEntry, Model.ioNode, Model.gateEquations,
    ModelKind.boolFns]

theorem combinational_halfAdderGates : halfAdderGates.Combinational := by
  refine ⟨?_, ?_, ?_, by decide⟩
  · simp [halfAdderGates, Netlist.normals_ofModels, Model.on, Model.port, Netlist.WellConnected, ModelKind.boolFns]
  · intro σ
    simp [SingleDriver, equations_halfAdderGates]
  · refine ⟨fun n => if n = .node 0 ∨ n = .node 1 then 0 else 1, ?_⟩
    intro σ e he d hd
    rw [equations_halfAdderGates] at he
    simp only [mem_cons, not_mem_nil, or_false] at he
    rcases he with rfl | rfl | rfl | rfl
    · cases hd
    · cases hd
    · simp only [apply, mem_cons, not_mem_nil, or_false] at hd
      rcases hd with rfl | rfl <;> simp
    · simp only [apply, mem_cons, not_mem_nil, or_false] at hd
      rcases hd with rfl | rfl <;> simp

theorem evaluates_halfAdderGates {n : NodeId} {f : Bool → Bool → Bool}
    (hn : apply n [.node 0, .node 1] (binary f) ∈ halfAdderGates.equations σ) :
    halfAdderGates.Evaluates σ n (f (σ "a") (σ "b")) := by
  refine Derives.intro _ hn (fun d => if d = .node 0 then σ "a" else σ "b") ?_
  intro d hd
  simp only [apply, mem_cons, not_mem_nil, or_false] at hd
  rcases hd with rfl | rfl
  · exact Derives.of_const (by simp [equations_halfAdderGates])
  · exact Derives.of_const (by simp [equations_halfAdderGates])

theorem sameOutputs_halfAdderGates {cand : Netlist}
    (hout : cand.namedOutputs = halfAdderGates.namedOutputs)
    (heq : ∀ σ, cand.equations σ = halfAdderGates.equations σ) :
    halfAdderGates.SameOutputs cand := by
  intro σ nm n hn
  have hmem : (nm, n) ∈ [("s", NodeId.node 2), ("c", NodeId.node 3)] := mem_of_lookup hn
  have hex : ∃ b, halfAdderGates.Evaluates σ n b := by
    simp only [mem_cons, Prod.mk.injEq, not_mem_nil, or_false] at hmem
    rcases hmem with ⟨-, rfl⟩ | ⟨-, rfl⟩
    · have hx : apply (.node 2) [.node 0, .node 1] (binary fun a b => a != b) ∈
          halfAdderGates.equations σ := by simp [equations_halfAdderGates]
      exact ⟨_, evaluates_halfAdderGates σ hx⟩
    · have hx : apply (.node 3) [.node 0, .node 1] (binary fun a b => a && b) ∈
          halfAdderGates.equations σ := by simp [equations_halfAdderGates]
      exact ⟨_, evaluates_halfAdderGates σ hx⟩
  obtain ⟨b, hb⟩ := hex
  have hb' : cand.Evaluates σ n b := by
    rw [Netlist.Evaluates, heq]
    exact hb
  exact ⟨n, b, hout ▸ hn, hb, hb'⟩

/-- The two gates against themselves. -/
theorem omaxVerifyEquivalence_accepts_halfAdderGates :
    omaxVerifyEquivalence insertionOrder halfAdderGates halfAdderGates {} = .ok () := by
  have hconst : ¬ halfAdderGates.HasUnknownConst := by
    simp [Netlist.HasUnknownConst, halfAdderGates, Netlist.normals_ofModels, Model.on, Model.port]
  have hgates : ∀ m ∈ halfAdderGates.normals, m.kind.isArithBlock = false := by decide
  exact (omaxVerifyEquivalence_accepts_iff insertionOrder {} halfAdderGates halfAdderGates
    combinational_halfAdderGates combinational_halfAdderGates hgates (fun _ => Iff.rfl)
    (sameOutputs_halfAdderGates rfl fun _ => rfl)).mpr ⟨hgates, hconst, hconst⟩

/-- The pass `adders` turns the two gates into a `HALF_ADDER`, which computes the same and
which the verification rejects. -/
theorem omaxVerifyEquivalence_rejects_halfAdder :
    halfAdderGates.Combinational ∧
      (∀ m ∈ halfAdderGates.normals, m.kind.isArithBlock = false) ∧
      halfAdderGates.inputNames = (optimizeAddersInPeNetlist halfAdderGates).inputNames ∧
      halfAdderGates.SameOutputs (optimizeAddersInPeNetlist halfAdderGates) ∧
      ∀ order opt, omaxVerifyEquivalence order halfAdderGates
        (optimizeAddersInPeNetlist halfAdderGates) opt =
          .error "omax_verify: unsupported netlist for comb verification" := by
  refine ⟨combinational_halfAdderGates, by decide, by decide,
    sameOutputs_halfAdderGates (by decide) equations_optimizeAdders_halfAdderGates, ?_⟩
  intro order opt
  have hread : buildCombEvalNet (optimizeAddersInPeNetlist halfAdderGates) = none := by
    rw [buildCombEvalNet, normals_optimizeAdders_halfAdderGates]
    rfl
  rw [omaxVerifyEquivalence, hread]
  cases buildCombEvalNet halfAdderGates <;> rfl

end OmaxVerify

end PhyEngine
