import PhyEngine.Library.AssocMap
import PhyEngine.Netlist.Semantics

/-!
# The netlist evaluator of the verification

`comb_eval_net`, `build_comb_eval_net` and `eval_comb_node`: a node is evaluated by recursion
over its driver with a memo. The model counts calls: `driver.length + 1` levels suffice for an
acyclic netlist.
-/

namespace PhyEngine

open AssocMap Equations List Equation

namespace CombEvalNet

def isUnaryGate : ModelKind → Bool
  | .not | .yes | .isUnknown => true
  | _ => false

def isBinaryGate : ModelKind → Bool
  | .and | .or | .xor | .xnor | .nand | .nor | .imp | .nimp | .caseEq => true
  | _ => false

/-- `comb_eval_net::gate`: a supported device model and the nodes of its input pins, as
many as the model has. -/
structure Gate where
  k : ModelKind
  in0 : NodeId
  in1 : Option NodeId
  arity : (if in1.isSome then isBinaryGate k else isUnaryGate k) = true

end CombEvalNet

structure CombEvalNet where
  inputs : List (String × NodeId) := []
  outputs : List (String × NodeId) := []
  constNodes : List (NodeId × Bool) := []
  driver : List (NodeId × CombEvalNet.Gate) := []

namespace CombEvalNet

/-- The gate and the output node of a supported model, by the position of the pins. -/
def readGate (m : Model) : Option (NodeId × Gate) :=
  if hu : isUnaryGate m.kind then
    match m.pins with
    | [some a, some out] => some (out, ⟨m.kind, a, none, hu⟩)
    | _ => none
  else if hb : isBinaryGate m.kind then
    match m.pins with
    | [some a, some b, some out] => some (out, ⟨m.kind, a, some b, hb⟩)
    | _ => none
  else none

/-- The loop body of `build_comb_eval_net`, `none` when it gives up on the netlist. -/
def addModel (net : CombEvalNet) (m : Model) : Option CombEvalNet :=
  if m.kind.deviceType ≠ .digital then some net
  else if m.kind = .input then
    match m.pins with
    | [none] => some net
    | [some n] =>
      if m.name = "" then
        m.toBoolConst.map fun b => { net with constNodes := emplace n b net.constNodes }
      else some { net with inputs := emplace m.name n net.inputs }
    | _ => none
  else if m.kind = .output then
    if m.name = "" then some net
    else
      match m.pins with
      | [none] => some net
      | [some n] => some { net with outputs := emplace m.name n net.outputs }
      | _ => none
  else
    match readGate m with
    | none => none
    | some (out, g) =>
      if (net.driver.lookup out).isSome then none
      else some { net with driver := emplace out g net.driver }

def evalGate (k : ModelKind) (a b : Bool) : Bool :=
  match k with
  | .not => !a
  | .yes => a
  | .and => a && b
  | .or => a || b
  | .xor => a != b
  | .xnor => a == b
  | .nand => !(a && b)
  | .nor => !(a || b)
  | .imp => !a || b
  | .nimp => a && !b
  | .caseEq => a == b
  | _ => false

end CombEvalNet

open CombEvalNet

def buildCombEvalNet (nl : Netlist) : Option CombEvalNet :=
  nl.normals.foldlM addModel {}

/-- `eval_comb_node`, with the memo as it is afterwards. `none` stands for the result
`false` of the source, after which the whole verification fails. -/
def evalCombNode (net : CombEvalNet) (inAssign : List (NodeId × Bool)) :
    Nat → NodeId → List (NodeId × Bool) → Option (Bool × List (NodeId × Bool))
  | 0, _, _ => none
  | fuel + 1, n, memo =>
    match memo.lookup n with
    | some v => some (v, memo)
    | none =>
      match net.constNodes.lookup n with
      | some v => some (v, emplace n v memo)
      | none =>
        match inAssign.lookup n with
        | some v => some (v, emplace n v memo)
        | none =>
          match net.driver.lookup n with
          | none => none
          | some g =>
            match evalCombNode net inAssign fuel g.in0 memo with
            | none => none
            | some (a, memo) =>
              match g.in1 with
              | none =>
                let r := evalGate g.k a false
                some (r, emplace n r memo)
              | some in1 =>
                match evalCombNode net inAssign fuel in1 memo with
                | none => none
                | some (b, memo) =>
                  let r := evalGate g.k a b
                  some (r, emplace n r memo)

namespace CombEvalNet

variable (net : CombEvalNet)

def extend (m : Model) : CombEvalNet where
  inputs := emplaceAll m.inputEntry.toList net.inputs
  outputs := emplaceAll m.outputEntry.toList net.outputs
  constNodes := emplaceAll m.constEntry.toList net.constNodes
  driver := net.driver ++ (readGate m).toList

def accepted (m : Model) : Bool :=
  if m.kind.deviceType ≠ .digital then true
  else if m.kind = .input then
    m.pins.length = 1 && (m.name ≠ "" || m.ioNode.isNone || m.toBoolConst.isSome)
  else if m.kind = .output then m.name = "" || m.pins.length = 1
  else (readGate m).isSome

variable {m : Model} {k : ModelKind} {n : NodeId}

theorem readGate_of_not_gate (hu : isUnaryGate m.kind = false) (hb : isBinaryGate m.kind = false) :
    readGate m = none := by
  simp [readGate, hu, hb]

theorem addModel_analog (h : m.kind.deviceType ≠ .digital) :
    addModel net m = some (net.extend m) ∧ accepted m = true ∧ readGate m = none := by
  have hin : m.kind ≠ .input := by
    intro hk
    simp [hk, ModelKind.deviceType] at h
  have hout : m.kind ≠ .output := by
    intro hk
    simp [hk, ModelKind.deviceType] at h
  have hg : readGate m = none := by
    refine readGate_of_not_gate ?_ ?_ <;> revert h <;> cases m.kind <;>
      simp [ModelKind.deviceType, isUnaryGate, isBinaryGate]
  refine ⟨?_, by simp [accepted, h], hg⟩
  simp [addModel, h, hg, extend, Model.inputEntry, Model.outputEntry, Model.constEntry, hin, hout,
    emplaceAll]

theorem addModel_input (h : m.kind = .input) :
    addModel net m = (if accepted m then some (net.extend m) else none) ∧ readGate m = none := by
  have hg : readGate m = none :=
    readGate_of_not_gate (by simp [h, isUnaryGate]) (by simp [h, isBinaryGate])
  refine ⟨?_, hg⟩
  rcases hp : m.pins with _ | ⟨_ | n, _ | ⟨q, ps⟩⟩
  · simp [addModel, accepted, h, hp, ModelKind.deviceType]
  · simp [addModel, accepted, h, hp, ModelKind.deviceType, Model.ioNode, extend, hg,
      Model.inputEntry, Model.outputEntry, Model.constEntry, emplaceAll]
  · simp [addModel, accepted, h, hp, ModelKind.deviceType]
  · by_cases hname : m.name = ""
    · cases hc : m.toBoolConst <;>
        simp [addModel, accepted, h, hp, ModelKind.deviceType, Model.ioNode, extend, hg, hname, hc,
          Model.inputEntry, Model.outputEntry, Model.constEntry, emplaceAll]
    · simp [addModel, accepted, h, hp, ModelKind.deviceType, Model.ioNode, extend, hg, hname,
        Model.inputEntry, Model.outputEntry, Model.constEntry, emplaceAll]
  · simp [addModel, accepted, h, hp, ModelKind.deviceType]

theorem addModel_output (h : m.kind = .output) :
    addModel net m = (if accepted m then some (net.extend m) else none) ∧ readGate m = none := by
  have hg : readGate m = none :=
    readGate_of_not_gate (by simp [h, isUnaryGate]) (by simp [h, isBinaryGate])
  refine ⟨?_, hg⟩
  by_cases hname : m.name = ""
  · simp [addModel, accepted, h, ModelKind.deviceType, extend, hg, hname,
      Model.inputEntry, Model.outputEntry, Model.constEntry, emplaceAll]
  · rcases hp : m.pins with _ | ⟨_ | n, _ | ⟨q, ps⟩⟩ <;>
      simp [addModel, accepted, h, hp, ModelKind.deviceType, Model.ioNode, extend, hg, hname,
        Model.inputEntry, Model.outputEntry, Model.constEntry, emplaceAll]

theorem addModel_eq (m : Model) :
    addModel net m =
      if accepted m ∧ ∀ e ∈ readGate m, e.1 ∉ net.driver.map Prod.fst then some (net.extend m)
      else none := by
  by_cases hd : m.kind.deviceType ≠ .digital
  · obtain ⟨heq, hacc, hg⟩ := addModel_analog net hd
    simp [heq, hacc, hg]
  by_cases hin : m.kind = .input
  · obtain ⟨heq, hg⟩ := addModel_input net hin
    simp [heq, hg]
  by_cases hout : m.kind = .output
  · obtain ⟨heq, hg⟩ := addModel_output net hout
    simp [heq, hg]
  have hacc : accepted m = (readGate m).isSome := by simp [accepted, hd, hin, hout]
  cases hg : readGate m with
  | none => simp [addModel, hd, hin, hout, hacc, hg]
  | some e =>
    obtain ⟨out, g⟩ := e
    have hlook : (net.driver.lookup out).isSome ↔ out ∈ net.driver.map Prod.fst := isSome_lookup_iff
    by_cases hs : out ∈ net.driver.map Prod.fst
    · simp only [addModel, hd, hin, hout, hg, hlook, hs, if_true, if_false, Option.mem_some_iff,
        forall_eq', not_true, and_false]
    · simp only [addModel, hd, hin, hout, hg, hacc, hlook, hs, if_true, if_false,
        Option.mem_some_iff, forall_eq', not_false_iff, and_true, Option.isSome_some]
      simp [extend, hg, emplace, hlook.not.mpr hs, Model.inputEntry, Model.outputEntry,
        Model.constEntry, hin, hout, emplaceAll]

structure Reads (net : CombEvalNet) (ms : List Model) (net' : CombEvalNet) : Prop where
  inputs : net'.inputs = emplaceAll (ms.filterMap (·.inputEntry)) net.inputs
  outputs : net'.outputs = emplaceAll (ms.filterMap (·.outputEntry)) net.outputs
  constNodes : net'.constNodes = emplaceAll (ms.filterMap (·.constEntry)) net.constNodes
  driver : net'.driver = net.driver ++ ms.filterMap readGate

theorem filterMap_cons_toList {β γ : Type*} (f : β → Option γ) (x : β) (xs : List β) :
    (x :: xs).filterMap f = (f x).toList ++ xs.filterMap f := by
  cases h : f x <;> simp [h]

theorem reads_extend {net net' : CombEvalNet} {ms : List Model} :
    Reads (net.extend m) ms net' ↔ Reads net (m :: ms) net' := by
  have hsplit {β : Type} (f : Model → Option β) := filterMap_cons_toList f m ms
  constructor
  · rintro ⟨hi, ho, hc, hd⟩
    constructor
    · rw [hi, hsplit, emplaceAll_append]
      rfl
    · rw [ho, hsplit, emplaceAll_append]
      rfl
    · rw [hc, hsplit, emplaceAll_append]
      rfl
    · rw [hd, hsplit, ← append_assoc]
      rfl
  · rintro ⟨hi, ho, hc, hd⟩
    constructor
    · rw [hi, hsplit, emplaceAll_append]
      rfl
    · rw [ho, hsplit, emplaceAll_append]
      rfl
    · rw [hc, hsplit, emplaceAll_append]
      rfl
    · rw [hd, hsplit, ← append_assoc]
      rfl

theorem foldlM_addModel {ms : List Model} {net net' : CombEvalNet}
    (hn : (net.driver.map Prod.fst).Nodup) :
    ms.foldlM addModel net = some net' ↔
      (∀ m ∈ ms, accepted m = true) ∧
      ((net.driver ++ ms.filterMap readGate).map Prod.fst).Nodup ∧ Reads net ms net' := by
  induction ms generalizing net with
  | nil =>
    have hr : Reads net [] net' ↔ net = net' := by
      constructor
      · rintro ⟨hi, ho, hc, hd⟩
        cases net
        cases net'
        simp_all [emplaceAll]
      · rintro rfl
        constructor <;> simp [emplaceAll]
    simp [hr, hn]
  | cons m ms ih =>
    rw [foldlM_cons, addModel_eq, filterMap_cons_toList, ← append_assoc,
      forall_mem_cons, ← reads_extend]
    by_cases hacc : accepted m = true
    · by_cases hfresh : ∀ e ∈ readGate m, e.1 ∉ net.driver.map Prod.fst
      · have hn' : ((net.extend m).driver.map Prod.fst).Nodup := by
          cases hg : readGate m with
          | none => simpa [extend, hg] using hn
          | some e =>
            have hnot := hfresh e hg
            rw [extend, hg, Option.toList_some, map_append, nodup_append]
            refine ⟨hn, by simp, ?_⟩
            rintro a ha b hb rfl
            simp only [map_cons, map_nil, mem_singleton] at hb
            exact hnot (hb ▸ ha)
        rw [if_pos ⟨hacc, hfresh⟩, Option.bind_eq_bind, Option.bind_some, ih hn']
        simp [hacc, extend]
      · rw [if_neg (fun h => hfresh h.2)]
        push Not at hfresh
        obtain ⟨e, he, hmem⟩ := hfresh
        have hdup : ¬ ((net.driver ++ (readGate m).toList ++
            ms.filterMap readGate).map Prod.fst).Nodup := by
          have heq : readGate m = some e := he
          rw [heq, Option.toList_some, map_append, map_append]
          intro h
          have hdisj := (nodup_append.mp (nodup_append.mp h).1).2.2
          exact hdisj _ hmem _ (by simp) rfl
        simp only [Option.bind_eq_bind, Option.bind_none, reduceCtorEq, false_iff]
        rintro ⟨-, h, -⟩
        exact hdup h
    · rw [if_neg (fun h => hacc h.1)]
      simp [hacc]

theorem buildCombEvalNet_eq_some {nl : Netlist} {net : CombEvalNet} :
    buildCombEvalNet nl = some net ↔
      (∀ m ∈ nl.normals, accepted m = true) ∧
      ((nl.normals.filterMap readGate).map Prod.fst).Nodup ∧ Reads {} nl.normals net := by
  have hnil : (({} : CombEvalNet).driver.map Prod.fst).Nodup := nodup_nil
  have h : nl.normals.foldlM addModel {} = some net ↔ _ := foldlM_addModel hnil
  simpa [buildCombEvalNet] using h

def gateFn (k : ModelKind) : List Bool → Bool :=
  match k.boolFns with
  | some (_, f :: _) => f
  | _ => fun _ => false

def Gate.ins (g : Gate) : List NodeId := g.in0 :: g.in1.toList

def Gate.equation (n : NodeId) (g : Gate) : Equation NodeId Bool :=
  apply n g.ins (gateFn g.k)

theorem evalGate_unary (h : isUnaryGate k = true) (a b : Bool) :
    evalGate k a b = gateFn k [a] := by
  cases k <;> first | rfl | simp [isUnaryGate] at h

theorem evalGate_binary (h : isBinaryGate k = true) (a b : Bool) :
    evalGate k a b = gateFn k [a, b] := by
  cases k <;> first | rfl | simp [isBinaryGate] at h

theorem boolFns_unary (h : isUnaryGate k = true) :
    k.boolFns = some (1, [gateFn k]) := by
  cases k <;> first | rfl | simp [isUnaryGate] at h

theorem boolFns_binary (h : isBinaryGate k = true) :
    k.boolFns = some (2, [gateFn k]) := by
  cases k <;> first | rfl | simp [isBinaryGate] at h

variable {g : Gate}

theorem gateEquations_of_readGate (h : readGate m = some (n, g)) : m.gateEquations = [g.equation n] := by
  unfold readGate at h
  split at h
  · rename_i hu
    split at h
    · rename_i a out hp
      cases h
      simp [Model.gateEquations, hp, boolFns_unary hu, Gate.equation, Gate.ins]
    · cases h
  · split at h
    · rename_i hb
      split at h
      · rename_i a b out hp
        cases h
        simp [Model.gateEquations, hp, boolFns_binary hb, Gate.equation, Gate.ins]
      · cases h
    · cases h

theorem gateEquations_of_accepted (hacc : accepted m = true) (hg : readGate m = none) : m.gateEquations = [] := by
  have hnone : m.kind.boolFns = none := by
    revert hacc
    unfold accepted
    rw [hg]
    cases m.kind <;> simp [ModelKind.deviceType, ModelKind.boolFns]
  simp [Model.gateEquations, hnone]

section Evaluation

variable (net : CombEvalNet) (inAssign : List (NodeId × Bool))

/-- The value of a node without memo and bound: a constant comes before an assigned input,
and both come before a driver. -/
inductive Value : NodeId → Bool → Prop
  | const {n : NodeId} {b : Bool} (hc : net.constNodes.lookup n = some b) : Value n b
  | assign {n : NodeId} {b : Bool} (hc : net.constNodes.lookup n = none)
      (ha : inAssign.lookup n = some b) : Value n b
  | unary {n : NodeId} {g : Gate} {a : Bool} (hc : net.constNodes.lookup n = none)
      (ha : inAssign.lookup n = none) (hg : net.driver.lookup n = some g) (hin : g.in1 = none)
      (h0 : Value g.in0 a) : Value n (evalGate g.k a false)
  | binary {n : NodeId} {g : Gate} {in1 : NodeId} {a b : Bool}
      (hc : net.constNodes.lookup n = none) (ha : inAssign.lookup n = none)
      (hg : net.driver.lookup n = some g) (hin : g.in1 = some in1)
      (h0 : Value g.in0 a) (h1 : Value in1 b) : Value n (evalGate g.k a b)

variable {net inAssign}

variable {b : Bool} {memo : List (NodeId × Bool)}

theorem Value.unique {c : Bool} (hb : Value net inAssign n b) (hc : Value net inAssign n c) : b = c := by
  induction hb generalizing c with
  | const h => cases hc <;> simp_all
  | assign h ha => cases hc <;> simp_all
  | unary h ha hg hin h0 ih =>
    cases hc with
    | const h' => simp_all
    | assign h' ha' => simp_all
    | unary h' ha' hg' hin' h0' =>
      cases hg.symm.trans hg'
      rw [ih h0']
    | binary h' ha' hg' hin' h0' h1' =>
      cases hg.symm.trans hg'
      cases hin.symm.trans hin'
  | binary h ha hg hin h0 h1 ih0 ih1 =>
    cases hc with
    | const h' => simp_all
    | assign h' ha' => simp_all
    | unary h' ha' hg' hin' h0' =>
      cases hg.symm.trans hg'
      cases hin.symm.trans hin'
    | binary h' ha' hg' hin' h0' h1' =>
      cases hg.symm.trans hg'
      cases hin.symm.trans hin'
      rw [ih0 h0', ih1 h1']

def MemoSound (net : CombEvalNet) (inAssign memo : List (NodeId × Bool)) : Prop :=
  ∀ n b, memo.lookup n = some b → Value net inAssign n b

theorem memoSound_nil : MemoSound net inAssign [] := by
  intro n b h
  cases h

theorem MemoSound.emplace (h : MemoSound net inAssign memo) (hb : Value net inAssign n b) :
    MemoSound net inAssign (emplace n b memo) := by
  intro x c hx
  rw [lookup_emplace] at hx
  cases hm : memo.lookup x with
  | some d =>
    rw [hm] at hx
    cases hx
    exact h x c hm
  | none =>
    rw [hm, Option.none_or] at hx
    split_ifs at hx with hxn
    cases hx
    exact hxn ▸ hb

theorem evalCombNode_value {fuel : Nat} {memo' : List (NodeId × Bool)} (hm : MemoSound net inAssign memo)
    (h : evalCombNode net inAssign fuel n memo = some (b, memo')) :
    Value net inAssign n b ∧ MemoSound net inAssign memo' := by
  induction fuel generalizing n b memo memo' with
  | zero => cases h
  | succ fuel ih =>
    unfold evalCombNode at h
    split at h
    · rename_i v hv
      cases h
      exact ⟨hm n b hv, hm⟩
    split at h
    · rename_i v hv
      cases h
      have hval : Value net inAssign n _ := Value.const hv
      exact ⟨hval, hm.emplace hval⟩
    rename_i hc
    split at h
    · rename_i v hv
      cases h
      have hval := Value.assign hc hv
      exact ⟨hval, hm.emplace hval⟩
    rename_i ha
    split at h
    · cases h
    rename_i g hg
    split at h
    · cases h
    rename_i a memo₁ h0
    obtain ⟨hval0, hm₁⟩ := ih hm h0
    split at h
    · rename_i hin
      cases h
      have hval := Value.unary hc ha hg hin hval0
      exact ⟨hval, hm₁.emplace hval⟩
    · rename_i in1 hin
      split at h
      · cases h
      rename_i c memo₂ h1
      obtain ⟨hval1, hm₂⟩ := ih hm₁ h1
      cases h
      have hval := Value.binary hc ha hg hin hval0 hval1
      exact ⟨hval, hm₂.emplace hval⟩

def RankedDrivers (net : CombEvalNet) (rank : NodeId → Nat) : Prop :=
  ∀ n g, net.driver.lookup n = some g → ∀ d ∈ g.ins, rank d < rank n

theorem evalCombNode_of_value {rank : NodeId → Nat} (hr : net.RankedDrivers rank) (hval : Value net inAssign n b)
    {fuel : Nat} (hfuel : below rank (net.driver.map Prod.fst) n < fuel) (hm : MemoSound net inAssign memo) :
    ∃ memo', evalCombNode net inAssign fuel n memo = some (b, memo') := by
  induction fuel generalizing n b memo with
  | zero => omega
  | succ fuel ih =>
    unfold evalCombNode
    cases hmemo : memo.lookup n with
    | some v =>
      rw [(hm n v hmemo).unique hval]
      exact ⟨memo, rfl⟩
    | none =>
      have hstep (g : Gate) (hg : net.driver.lookup n = some g) (d : NodeId) (hd : d ∈ g.ins) :
          below rank (net.driver.map Prod.fst) d < fuel := by
        have hmem : n ∈ net.driver.map Prod.fst := mem_map_of_mem (mem_of_lookup hg)
        have hlt := below_lt rank hmem (hr n g hg d hd)
        omega
      cases hval with
      | const hc => simp only [hc]; exact ⟨_, rfl⟩
      | assign hc ha => simp only [hc, ha]; exact ⟨_, rfl⟩
      | @unary _ g a hc ha hg hin h0 =>
        obtain ⟨memo₁, h0⟩ := ih h0 (hstep g hg _ (by simp [Gate.ins])) hm
        simp only [hc, ha, hg, h0, hin]
        exact ⟨_, rfl⟩
      | @binary _ g in1 a b hc ha hg hin h0 h1 =>
        obtain ⟨memo₁, h0⟩ := ih h0 (hstep g hg _ (by simp [Gate.ins])) hm
        have hm₁ := (evalCombNode_value hm h0).2
        obtain ⟨memo₂, h1⟩ := ih h1 (hstep g hg _ (by simp [Gate.ins, hin])) hm₁
        simp only [hc, ha, hg, h0, hin, h1]
        exact ⟨_, rfl⟩

structure SoundFor (net : CombEvalNet) (inAssign : List (NodeId × Bool))
    (E : List (Equation NodeId Bool)) : Prop where
  const : ∀ n b, net.constNodes.lookup n = some b → Equation.const n b ∈ E
  assign : ∀ n b, inAssign.lookup n = some b → Equation.const n b ∈ E
  driver : ∀ n g, net.driver.lookup n = some g → g.equation n ∈ E

variable {E : List (Equation NodeId Bool)}

theorem isUnaryGate_of_in1 (h : g.in1 = none) : isUnaryGate g.k = true := by
  simpa [h] using g.arity

theorem isBinaryGate_of_in1 {in1 : NodeId} (h : g.in1 = some in1) :
    isBinaryGate g.k = true := by
  simpa [h] using g.arity

theorem Value.derives (hs : SoundFor net inAssign E) (h : Value net inAssign n b) : Derives E n b := by
  induction h with
  | const hc => exact Derives.of_const (hs.const _ _ hc)
  | assign hc ha => exact Derives.of_const (hs.assign _ _ ha)
  | @unary n g a hc ha hg hin h0 ih =>
    have hd := Derives.intro (g.equation n) (hs.driver n g hg) (fun _ => a) (by
      intro d hd
      simp only [Gate.equation, apply, Gate.ins, hin, Option.toList_none,
        mem_singleton] at hd
      exact hd ▸ ih)
    have heval : (g.equation n).fn (fun _ => a) = evalGate g.k a false := by
      rw [evalGate_unary (isUnaryGate_of_in1 hin)]
      simp [Gate.equation, apply, Gate.ins, hin]
    exact heval ▸ hd
  | @binary n g in1 a b hc ha hg hin h0 h1 ih0 ih1 =>
    -- The two pins may be on one node: then both values are the value of that node.
    have hb : (if in1 = g.in0 then a else b) = b := by
      split_ifs with heq
      · subst heq
        exact h0.unique h1
      · rfl
    have hd := Derives.intro (g.equation n) (hs.driver n g hg)
      (fun d => if d = g.in0 then a else b) (by
        intro d hd
        simp only [Gate.equation, apply, Gate.ins, hin, Option.toList_some,
          mem_cons, not_mem_nil, or_false] at hd
        rcases hd with rfl | rfl
        · simpa using ih0
        · rw [hb]
          exact ih1)
    have heval : (g.equation n).fn (fun d => if d = g.in0 then a else b) = evalGate g.k a b := by
      rw [evalGate_binary (isBinaryGate_of_in1 hin)]
      simp [Gate.equation, apply, Gate.ins, hin, hb]
    exact heval ▸ hd

def CompleteFor (net : CombEvalNet) (inAssign : List (NodeId × Bool))
    (E : List (Equation NodeId Bool)) : Prop :=
  ∀ e ∈ E, (net.constNodes.lookup e.target).isSome ∨ (inAssign.lookup e.target).isSome ∨
    ∃ g, net.driver.lookup e.target = some g ∧ e = g.equation e.target

theorem value_of_derives (hs : SoundFor net inAssign E) (hc : CompleteFor net inAssign E) (hone : SingleDriver E)
    (h : Derives E n b) :
    Value net inAssign n b := by
  suffices hex : ∃ c, Value net inAssign n c by
    obtain ⟨c, hval⟩ := hex
    exact hone.derives_unique (hval.derives hs) h ▸ hval
  induction h with
  | intro e he v hv ih =>
    cases hconst : net.constNodes.lookup e.target with
    | some c => exact ⟨c, .const hconst⟩
    | none =>
      cases hassign : inAssign.lookup e.target with
      | some c => exact ⟨c, .assign hconst hassign⟩
      | none =>
        obtain h | h | ⟨g, hg, heq⟩ := hc e he
        · simp [hconst] at h
        · simp [hassign] at h
        · have hdeps : e.deps = g.ins := by rw [heq]; rfl
          obtain ⟨a, ha⟩ := ih g.in0 (by simp [hdeps, Gate.ins])
          cases hin : g.in1 with
          | none => exact ⟨_, .unary hconst hassign hg hin ha⟩
          | some in1 =>
            obtain ⟨c, hc⟩ := ih in1 (by simp [hdeps, Gate.ins, hin])
            exact ⟨_, .binary hconst hassign hg hin ha hc⟩

end Evaluation

end CombEvalNet

end PhyEngine
