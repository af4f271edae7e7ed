import PhyEngine.Synth.CombEval
import PhyEngine.Synth.Options
import PhyEngine.Netlist.Copy
import Mathlib.Data.Nat.Bitwise

/-!
# Equivalence checking of optimised netlists

`omax_verify_equivalence`: inputs and outputs are matched by name and compared on all patterns,
or on random vectors when there are many inputs. `MapOrder` is an arbitrary order of the hash
maps.
-/

namespace PhyEngine

open AssocMap Equations CombEvalNet List Netlist Equation

structure MapOrder where
  arrange : List (String × NodeId) → List (String × NodeId)
  perm : ∀ m, (arrange m).Perm m

namespace OmaxVerify

/-- The assignment of a vector of bits to the input nodes of one netlist. -/
def assignInputs (net : CombEvalNet) (inNames : List String) (bits : List Bool) :
    List (NodeId × Bool) :=
  emplaceAll ((inNames.zip bits).filterMap fun nb => (net.inputs.lookup nb.1).map (·, nb.2)) []

def evalOutput (net : CombEvalNet) (inAssign : List (NodeId × Bool)) (nm : String) : Option Bool :=
  (net.outputs.lookup nm).bind fun n =>
    (evalCombNode net inAssign (net.driver.length + 1) n []).map Prod.fst

def runOne (ref cand : CombEvalNet) (inNames outNames : List String) (bits : List Bool) :
    Except String Unit :=
  forM outNames fun nm =>
    match evalOutput ref (assignInputs ref inNames bits) nm,
      evalOutput cand (assignInputs cand inNames bits) nm with
    | some vr, some vc =>
      if vr ≠ vc then .error "omax_verify: output mismatch" else .ok ()
    | _, _ => .error "omax_verify: evaluation failed"

/-- `next`, xorshift64*: the drawn value and the new state. -/
def next (rng : UInt64) : UInt64 × UInt64 :=
  let rng := rng ^^^ (rng >>> 12)
  let rng := rng ^^^ (rng <<< 25)
  let rng := rng ^^^ (rng >>> 27)
  (rng * 0x2545F4914F6CDD1D, rng)

/-- `assign_fn` of the random mode at the inputs `0, …, count - 1`, a new word for every
64 bits, and the state of the generator afterwards. -/
def randomBits (count : Nat) (rng : UInt64) : List Bool × UInt64 :=
  let (r, rng) := next rng
  let (bits, _, rng) := (List.range count).foldl (fun (st : List Bool × UInt64 × UInt64) i =>
    let (bits, r, rng) := st
    let (r, rng) := if i % 64 = 0 then next rng else (r, rng)
    (bits ++ [decide ((r >>> UInt64.ofNat (i % 64)) &&& 1 ≠ 0)], r, rng)) ([], r, rng)
  (bits, rng)

def randomVectors (run : List Bool → Except String Unit) (count : Nat) :
    Nat → UInt64 → Except String Unit
  | 0, _ => .ok ()
  | vecs + 1, rng => do
    let (bits, rng) := randomBits count rng
    run bits
    randomVectors run count vecs rng

def allPatterns (run : List Bool → Except String Unit) (count : Nat) : Except String Unit :=
  forM (List.range (1 <<< count)) fun pat => run ((List.range count).map pat.testBit)

def compareNets (order : MapOrder) (opt : PeSynthOptions) (ref cand : CombEvalNet) :
    Except String Unit :=
  let inNames := (order.arrange ref.inputs).map Prod.fst
  let outNames := (order.arrange ref.outputs).map Prod.fst
  if ∃ nm ∈ inNames, cand.inputs.lookup nm = none then .error "omax_verify: input set mismatch"
  else if ∃ nm ∈ outNames, cand.outputs.lookup nm = none then
    .error "omax_verify: output set mismatch"
  else
    let exactK := opt.omaxVerifyExactMaxInputs
    if exactK ≠ 0 ∧ inNames.length ≤ exactK ∧ inNames.length < 31 then
      allPatterns (runOne ref cand inNames outNames) inNames.length
    else
      randomVectors (runOne ref cand inNames outNames) inNames.length
        (if opt.omaxVerifyRandomVectors = 0 then 1 else opt.omaxVerifyRandomVectors)
        opt.omaxVerifySeed

end OmaxVerify

open OmaxVerify

/-- `omax_verify_equivalence`, with the text of `why` when it returns `false`. -/
def omaxVerifyEquivalence (order : MapOrder) (refNl candNl : Netlist) (opt : PeSynthOptions) :
    Except String Unit :=
  match buildCombEvalNet refNl, buildCombEvalNet candNl with
  | some ref, some cand => compareNets order opt ref cand
  | _, _ => .error "omax_verify: unsupported netlist for comb verification"

namespace OmaxVerify

theorem forM_eq_ok {ε β : Type} {xs : List β} {f : β → Except ε Unit} :
    forM xs f = .ok () ↔ ∀ x ∈ xs, f x = .ok () := by
  induction xs with
  | nil => simp [pure, Except.pure]
  | cons x xs ih =>
    rw [forM_cons, forall_mem_cons, ← ih]
    cases hx : f x with
    | error e => simp [bind, Except.bind]
    | ok u => simp [bind, Except.bind]

theorem length_randomBits (count : Nat) (rng : UInt64) : (randomBits count rng).1.length = count := by
  have hfold (is : List Nat) (st : List Bool × UInt64 × UInt64) :
      (is.foldl (fun (st : List Bool × UInt64 × UInt64) i =>
        let (bits, r, rng) := st
        let (r, rng) := if i % 64 = 0 then next rng else (r, rng)
        (bits ++ [decide ((r >>> UInt64.ofNat (i % 64)) &&& 1 ≠ 0)], r, rng)) st).1.length =
        st.1.length + is.length := by
    induction is generalizing st with
    | nil => rfl
    | cons i is ih =>
      rw [foldl_cons, ih, length_append, length_cons]
      simp only [length_cons, length_nil]
      omega
  have hlen := hfold (List.range count) ([], next rng)
  simpa [randomBits] using hlen

theorem randomVectors_eq_ok {run : List Bool → Except String Unit} {count : Nat}
    (h : ∀ bits : List Bool, bits.length = count → run bits = .ok ()) (vecs : Nat) (rng : UInt64) :
    randomVectors run count vecs rng = .ok () := by
  induction vecs generalizing rng with
  | zero => rfl
  | succ vecs ih =>
    have hrun := h _ (length_randomBits count rng)
    simp only [randomVectors, hrun, bind, Except.bind]
    exact ih _

theorem exists_pattern (bits : List Bool) :
    ∃ pat ∈ List.range (1 <<< bits.length), (List.range bits.length).map pat.testBit = bits := by
  refine ⟨Nat.ofBits fun i : Fin bits.length => bits[i], ?_, ?_⟩
  · rw [mem_range, Nat.shiftLeft_eq, Nat.one_mul]
    exact Nat.ofBits_lt_two_pow _
  · refine ext_getElem (by simp) ?_
    intro i hi hi'
    simp [Nat.testBit_ofBits_lt _ _ hi']

theorem allPatterns_eq_ok {run : List Bool → Except String Unit} {count : Nat} :
    allPatterns run count = .ok () ↔ ∀ bits : List Bool, bits.length = count → run bits = .ok () := by
  unfold allPatterns
  rw [forM_eq_ok]
  constructor
  · rintro h bits rfl
    obtain ⟨pat, hpat, heq⟩ := exists_pattern bits
    exact heq ▸ h pat hpat
  · intro h pat _
    exact h _ (by simp)

theorem runOne_eq_ok {ref cand : CombEvalNet} {inNames outNames : List String} {bits : List Bool} :
    runOne ref cand inNames outNames bits = .ok () ↔
      ∀ nm ∈ outNames, ∃ b, evalOutput ref (assignInputs ref inNames bits) nm = some b ∧
        evalOutput cand (assignInputs cand inNames bits) nm = some b := by
  unfold runOne
  rw [forM_eq_ok]
  refine forall₂_congr fun nm _ => ?_
  split
  · rename_i vr vc hr hc
    rw [hr, hc]
    by_cases h : vr = vc <;> simp [h, eq_comm]
  · rename_i hne
    simp only [reduceCtorEq, false_iff, not_exists, not_and]
    intro b hr hc
    exact hne b b hr hc

section Maps

variable {nl : Netlist} {net : CombEvalNet}

section

variable (h : buildCombEvalNet nl = some net)
include h

theorem lookup_inputs (nm : String) :
    net.inputs.lookup nm = nl.namedInputs.lookup nm := by
  rw [(buildCombEvalNet_eq_some.mp h).2.2.inputs, lookup_emplaceAll]
  exact Option.none_or

theorem lookup_outputs (nm : String) :
    net.outputs.lookup nm = nl.namedOutputs.lookup nm := by
  rw [(buildCombEvalNet_eq_some.mp h).2.2.outputs, lookup_emplaceAll]
  exact Option.none_or

theorem driver_eq :
    net.driver = nl.normals.filterMap readGate :=
  (buildCombEvalNet_eq_some.mp h).2.2.driver.trans (nil_append _)

end

variable {n : NodeId}

section

variable (h : buildCombEvalNet nl = some net)
include h

theorem lookup_driver_iff {g : Gate} :
    net.driver.lookup n = some g ↔ ∃ m ∈ nl.normals, readGate m = some (n, g) := by
  have hn := (buildCombEvalNet_eq_some.mp h).2.1
  rw [← driver_eq h] at hn
  constructor
  · intro hl
    have hmem := mem_of_lookup hl
    rw [driver_eq h, mem_filterMap] at hmem
    exact hmem
  · intro hm
    refine lookup_of_mem hn ?_
    rw [driver_eq h, mem_filterMap]
    exact hm

theorem lookup_constNodes :
    net.constNodes.lookup n = (nl.normals.filterMap (·.constEntry)).lookup n := by
  rw [(buildCombEvalNet_eq_some.mp h).2.2.constNodes, lookup_emplaceAll]
  exact Option.none_or

omit h in
theorem lookup_assignInputs {names : List String} {bits : List Bool} :
    (assignInputs net names bits).lookup n =
      ((names.zip bits).filterMap fun nb => (net.inputs.lookup nb.1).map (·, nb.2)).lookup n := by
  rw [assignInputs, lookup_emplaceAll]
  exact Option.none_or

omit h in
theorem zip_map_self (names : List String) (σ : String → Bool) :
    names.zip (names.map σ) = names.map fun nm => (nm, σ nm) := by
  induction names with
  | nil => rfl
  | cons nm names ih => simp [ih]

theorem soundFor_assignInputs (σ : String → Bool)
    (names : List String) :
    SoundFor net (assignInputs net names (names.map σ)) (nl.equations σ) := by
  refine ⟨?_, ?_, ?_⟩
  · intro n b hl
    rw [lookup_constNodes h] at hl
    obtain ⟨m, hm, hentry⟩ := mem_filterMap.mp (mem_of_lookup hl)
    exact mem_flatMap.mpr ⟨m, hm, by simp [Model.equations, hentry]⟩
  · intro n b hl
    rw [lookup_assignInputs] at hl
    obtain ⟨nb, hnb, hentry⟩ := mem_filterMap.mp (mem_of_lookup hl)
    rw [zip_map_self] at hnb
    obtain ⟨nm, -, rfl⟩ := mem_map.mp hnb
    obtain ⟨x, hx, heq⟩ := Option.map_eq_some_iff.mp hentry
    cases heq
    rw [lookup_inputs h] at hx
    obtain ⟨m, hm, hin⟩ := mem_filterMap.mp (mem_of_lookup hx)
    exact mem_flatMap.mpr ⟨m, hm, by simp [Model.equations, hin]⟩
  · intro n g hl
    obtain ⟨m, hm, hg⟩ := (lookup_driver_iff h).mp hl
    exact mem_flatMap.mpr
      ⟨m, hm, by simp [Model.equations, gateEquations_of_readGate hg]⟩

theorem evalOutput_evaluates {σ : String → Bool}
    {names : List String} {nm : String} {b : Bool}
    (hb : evalOutput net (assignInputs net names (names.map σ)) nm = some b) :
    ∃ n, nl.namedOutputs.lookup nm = some n ∧ nl.Evaluates σ n b := by
  obtain ⟨n, hn, heval⟩ := Option.bind_eq_some_iff.mp hb
  obtain ⟨⟨c, memo⟩, hc, rfl⟩ := Option.map_eq_some_iff.mp heval
  rw [lookup_outputs h] at hn
  have hval := (evalCombNode_value memoSound_nil hc).1
  exact ⟨n, hn, hval.derives (soundFor_assignInputs h σ names)⟩

omit h in
theorem mem_arrange {order : MapOrder} {m : List (String × NodeId)} {nm : String} :
    nm ∈ (order.arrange m).map Prod.fst ↔ (m.lookup nm).isSome := by
  rw [isSome_lookup_iff, ((order.perm m).map Prod.fst).mem_iff]

theorem nodup_inNames (order : MapOrder) :
    ((order.arrange net.inputs).map Prod.fst).Nodup := by
  rw [((order.perm _).map Prod.fst).nodup_iff, (buildCombEvalNet_eq_some.mp h).2.2.inputs]
  exact nodup_emplaceAll (m := []) nodup_nil

theorem length_inNames (order : MapOrder) :
    ((order.arrange net.inputs).map Prod.fst).length = nl.inputNames.length := by
  rw [length_map, (order.perm _).length_eq, (buildCombEvalNet_eq_some.mp h).2.2.inputs]
  exact length_emplaceAll _

end

end Maps

end OmaxVerify

/-- If the exhaustive verification accepts, the first connected `OUTPUT` of each name in
`ref` and in `cand` evaluate to a common value, for every assignment of the named inputs.
A node with several drivers may evaluate to several values; where the equations of both
netlists have solutions, these agree on the two nodes. -/
theorem omaxVerifyEquivalence_sound (order : MapOrder) (ref cand : Netlist) (opt : PeSynthOptions)
    (hexact : 0 < opt.omaxVerifyExactMaxInputs)
    (hcount : ref.inputNames.length ≤ opt.omaxVerifyExactMaxInputs)
    (hlt : ref.inputNames.length < 31)
    (h : omaxVerifyEquivalence order ref cand opt = .ok ()) (σ : String → Bool)
    (nm : String) (n : NodeId) (hout : ref.namedOutputs.lookup nm = some n) :
    ∃ n', cand.namedOutputs.lookup nm = some n' ∧
      (∃ b, ref.Evaluates σ n b ∧ cand.Evaluates σ n' b) ∧
      ∀ v w, Solves (ref.equations σ) v → Solves (cand.equations σ) w → v n = w n' := by
  unfold omaxVerifyEquivalence at h
  split at h
  · rename_i refNet candNet hr hc
    unfold compareNets at h
    dsimp only at h
    rw [length_inNames hr] at h
    split at h
    · cases h
    split at h
    · cases h
    rw [if_pos ⟨by omega, hcount, hlt⟩, allPatterns_eq_ok] at h
    have hrun := h (((order.arrange refNet.inputs).map Prod.fst).map σ)
      (by rw [List.length_map, length_inNames hr])
    have hmem : nm ∈ (order.arrange refNet.outputs).map Prod.fst := by
      rw [mem_arrange, lookup_outputs hr, hout]
      rfl
    obtain ⟨b, hbr, hbc⟩ := runOne_eq_ok.mp hrun nm hmem
    obtain ⟨n₁, hn₁, hev⟩ := evalOutput_evaluates hr hbr
    obtain ⟨n', hn', hev'⟩ := evalOutput_evaluates hc hbc
    obtain rfl : n = n₁ := Option.some.inj (hout.symm.trans hn₁)
    refine ⟨n', hn', ⟨b, hev, hev'⟩, ?_⟩
    intro v w hv hw
    rw [hev.eq_of_solves hv, hev'.eq_of_solves hw]
  · cases h

namespace OmaxVerify

def insertionOrder : MapOrder := ⟨id, fun _ => List.Perm.refl _⟩

/-- An inverter of `a`, with `a` on one output and its negation on another of the same
name. -/
def twoOutputs : Netlist := ofModels 2
  [.port .input [0] "a" [], .on .not [0, 1], .port .output [0] "y" [], .port .output [1] "y" []]

def oneOutput : Netlist := ofModels 1
  [.port .input [0] "a" [], .port .output [0] "y" []]

theorem equations_twoOutputs (σ : String → Bool) :
    twoOutputs.equations σ =
      [const (.node 0) (σ "a"), apply (.node 1) [.node 0] (unary fun a => !a)] := by
  simp [equations, twoOutputs, normals_ofModels, Model.on, Model.port, Model.equations,
    Model.constEntry, Model.inputEntry, Model.ioNode, Model.gateEquations, ModelKind.boolFns]

theorem equations_oneOutput (σ : String → Bool) :
    oneOutput.equations σ = [const (.node 0) (σ "a")] := by
  simp [equations, oneOutput, normals_ofModels, Model.port, Model.equations,
    Model.constEntry, Model.inputEntry, Model.ioNode, Model.gateEquations, ModelKind.boolFns]

/-- Only the first of several `OUTPUT` models of one name is compared. -/
theorem omaxVerifyEquivalence_duplicate_output :
    ¬ ∀ (order : MapOrder) (ref cand : Netlist) (opt : PeSynthOptions),
      ref.Acyclic → cand.Acyclic → 0 < ref.inputNames.length →
      ref.inputNames.length ≤ opt.omaxVerifyExactMaxInputs → ref.inputNames.length < 31 →
      omaxVerifyEquivalence order ref cand opt = .ok () →
      ∀ σ, ∀ m ∈ ref.normals, m.kind = .output → m.name ≠ "" →
        ∃ m' ∈ cand.normals, m'.kind = .output ∧ m'.name = m.name ∧
          ∃ n n' b, m.ioNode = some n ∧ m'.ioNode = some n' ∧
            ref.Evaluates σ n b ∧ cand.Evaluates σ n' b := by
  intro hall
  have hnames : twoOutputs.inputNames = ["a"] := by decide
  have hacyclic : twoOutputs.Acyclic := by
    refine ⟨fun n => if n = .node 1 then 1 else 0, ?_⟩
    intro σ e he d hd
    rw [equations_twoOutputs] at he
    simp only [List.mem_cons, List.not_mem_nil, or_false] at he
    rcases he with rfl | rfl
    · cases hd
    · simp only [apply, List.mem_singleton] at hd
      simp [hd]
  have hacyclic' : oneOutput.Acyclic := by
    refine ⟨fun _ => 0, ?_⟩
    intro σ e he d hd
    rw [equations_oneOutput, List.mem_singleton] at he
    subst he
    cases hd
  obtain ⟨m', hm', hkind, -, n, n', b, hn, hn', href, hcand⟩ :=
    hall insertionOrder twoOutputs oneOutput {} hacyclic hacyclic' (by simp [hnames])
      (by simp [hnames]) (by simp [hnames]) (by rfl) (fun _ => false)
      (.port .output [1] "y" [])
      (by simp [twoOutputs, normals_ofModels]) rfl (by decide)
  have hb : true = b := by
    cases hn
    refine href.eq_of_solves (v := fun n => if n = .node 1 then true else false) ?_
    intro e he
    rw [equations_twoOutputs] at he
    simp only [List.mem_cons, List.not_mem_nil, or_false] at he
    rcases he with rfl | rfl <;> simp [const, apply, unary]
  have hb' : false = b := by
    have hcase : n' = .node 0 := by
      simp only [oneOutput, normals_ofModels, List.mem_cons, List.not_mem_nil,
        or_false] at hm'
      rcases hm' with rfl | rfl
      · cases hkind
      · exact (Option.some.inj hn').symm
    refine (hcase ▸ hcand).eq_of_solves (v := fun _ => false) ?_
    intro e he
    rw [equations_oneOutput, List.mem_singleton] at he
    subst he
    rfl
  rw [← hb] at hb'
  cases hb'

/-- The first output of the pair is compared. -/
theorem omaxVerifyEquivalence_sound_first :
    ∃ n', oneOutput.namedOutputs.lookup "y" = some n' ∧
      (∃ b, twoOutputs.Evaluates (fun _ => true) (.node 0) b ∧
        oneOutput.Evaluates (fun _ => true) n' b) ∧
      ∀ v w, Solves (twoOutputs.equations fun _ => true) v →
        Solves (oneOutput.equations fun _ => true) w → v (.node 0) = w n' :=
  omaxVerifyEquivalence_sound insertionOrder twoOutputs oneOutput {} (by decide) (by decide)
    (by decide) rfl (fun _ => true) "y" (.node 0) (by decide)

end OmaxVerify

end PhyEngine
