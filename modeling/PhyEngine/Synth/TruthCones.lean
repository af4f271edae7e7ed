import PhyEngine.Library.BitNumbers
import PhyEngine.Synth.NewConsts
import PhyEngine.Synth.BinaryNetlist

/-!
# Truth tables of cones of gates

The part that the bounded sweep and resubstitution share: the cone of a gate down to at most six
undriven nodes is evaluated on all assignments at once. The mask is its truth table over the
leaves (`isCand_of_candOf`). Addresses and the order of the hash table are parameters.
-/

namespace PhyEngine

open Equations Netlist BitNumbers List

namespace TruthCones

inductive Kind
  | notGate
  | andGate
  | orGate
  | xorGate
  | xnorGate
  | nandGate
  | norGate
  | impGate
  | nimpGate
  deriving DecidableEq

def Kind.modelKind : Kind → ModelKind
  | notGate => .not
  | andGate => .and
  | orGate => .or
  | xorGate => .xor
  | xnorGate => .xnor
  | nandGate => .nand
  | norGate => .nor
  | impGate => .imp
  | nimpGate => .nimp

def binaryKind : ModelKind → Option Kind
  | .and => some .andGate
  | .or => some .orGate
  | .xor => some .xorGate
  | .xnor => some .xnorGate
  | .nand => some .nandGate
  | .nor => some .norGate
  | .imp => some .impGate
  | .nimp => some .nimpGate
  | _ => none

structure Gate where
  k : Kind
  pos : ModelPos
  in0 : Option NodeId
  in1 : Option NodeId
  out : NodeId
  outPin : PinRef
  deriving DecidableEq

/-- The record of a gate whose output is connected. -/
def classify (m : ModelBase) (pos : ModelPos) : Option Gate :=
  match m.model.kind, m.model.pins with
  | .not, [a, some out] => some ⟨.notGate, pos, a, none, out, ⟨m.id, 1⟩⟩
  | .not, _ => none
  | kind, [a, b, some out] => (binaryKind kind).map fun k => ⟨k, pos, a, b, out, ⟨m.id, 2⟩⟩
  | _, _ => none

section Cones

variable (nl : Netlist)

def gates : List Gate := nl.gather classify

def gateByOut (n : NodeId) : Option Gate := (gates nl).find? fun g => g.out = n

def notOf (n : NodeId) : Option NodeId :=
  ((gates nl).find? fun g => g.k = .notGate ∧ g.in0 = some n).map (·.out)

/-- The order in which the keys of `gate_by_out` are walked through. -/
structure KeyOrder (roots : List NodeId) : Prop where
  nodup : roots.Nodup
  mem_iff : ∀ n, n ∈ roots ↔ ∃ g ∈ gates nl, g.out = n

structure Walk where
  leaves : List NodeId := []
  visited : List NodeId := []
  gateCount : Nat := 0
  ok : Bool := true

variable (maxVars maxGates : Nat)

/-- `dfs`. A call that finds no fuel would be inside more than `max_gates` gates. -/
def visit : Nat → Walk → Option NodeId → Walk
  | _, st, none => st
  | 0, st, some _ => { st with ok := false }
  | fuel + 1, st, some n =>
    if st.ok = false ∨ n ∈ st.visited then st
    else
      let st := { st with visited := n :: st.visited }
      if (nodeConst nl n).isSome then st
      else
        match gateByOut nl n with
        | none =>
          if n ∈ st.leaves then st
          else if maxVars ≤ st.leaves.length then { st with ok := false }
          else { st with leaves := st.leaves ++ [n] }
        | some g =>
          let st := { st with gateCount := st.gateCount + 1 }
          if maxGates < st.gateCount then { st with ok := false }
          else
            let st := visit fuel st g.in0
            if g.k = .notGate then st else visit fuel st g.in1

/-- One gate of a cone, with the indices of its inputs. -/
structure Entry where
  k : Kind
  in0 : Nat
  in1 : Nat
  deriving DecidableEq

structure Cone where
  varCount : Nat
  gates : List Entry
  deriving DecidableEq

/-- The cone under construction; `out_index` numbers the nodes of `outs` from 6 on. -/
structure Building where
  gates : List Entry := []
  outs : List NodeId := []

variable (leaves : List NodeId)

def idxOf (st : Building) (n : NodeId) : Option Nat :=
  match nodeConst nl n with
  | some c => some (if c then 255 else 254)
  | none =>
    match leaves.idxOf? n with
    | some i => some i
    | none => (st.outs.idxOf? n).map (6 + ·)

def addEntry (st : Building) (g : Gate) (n : NodeId) : Option Building :=
  (g.in0.bind (idxOf nl leaves st)).bind fun a =>
    (if g.k = .notGate then some 254 else g.in1.bind (idxOf nl leaves st)).bind fun b =>
      if 64 ≤ st.gates.length then none
      else some { gates := st.gates ++ [⟨g.k, a, b⟩], outs := st.outs ++ [n] }

/-- The topological order: what stands on the explicit stack is the path of the calls here, and
`visiting` are the nodes of the path. They are outputs of different gates, so that the fuel
suffices that exceeds the number of gates. -/
def emit : Nat → List NodeId → Building → Option NodeId → Option Building
  | _, _, _, none => none
  | fuel, visiting, st, some n =>
    if (idxOf nl leaves st n).isSome then some st
    else
      match gateByOut nl n, fuel with
      | none, _ => none
      | some _, 0 => none
      | some g, fuel + 1 =>
        if n ∈ visiting then none
        else
          (emit fuel (n :: visiting) st g.in0).bind fun st =>
            (if g.k = .notGate then some st else emit fuel (n :: visiting) st g.in1).bind fun st =>
              addEntry nl leaves st g n

end Cones

variable (varCount : Nat)

def allMask : BitVec 64 :=
  let U := if 6 ≤ varCount then 64 else 1 <<< varCount
  if U = 64 then BitVec.allOnes 64 else (1#64 <<< U) - 1#64

def leafPat : List (BitVec 64) :=
  [0xAAAAAAAAAAAAAAAA#64, 0xCCCCCCCCCCCCCCCC#64, 0xF0F0F0F0F0F0F0F0#64, 0xFF00FF00FF00FF00#64,
    0xFFFF0000FFFF0000#64, 0xFFFFFFFF00000000#64]

/-- The `switch` of `eval_u64_cone_cpu`. -/
def Kind.word : Kind → BitVec 64 → BitVec 64 → BitVec 64
  | notGate, a, _ => ~~~a
  | andGate, a, b => a &&& b
  | orGate, a, b => a ||| b
  | xorGate, a, b => a ^^^ b
  | xnorGate, a, b => ~~~(a ^^^ b)
  | nandGate, a, b => ~~~(a &&& b)
  | norGate, a, b => ~~~(a ||| b)
  | impGate, a, b => ~~~a ||| b
  | nimpGate, a, b => a &&& ~~~b

/-- `load`; the words from index 6 on are `vals`, as far as they are computed. -/
def load (vals : List (BitVec 64)) (idx : Nat) : BitVec 64 :=
  if idx = 254 then 0
  else if idx = 255 then allMask varCount
  else if idx < 6 then (if idx < varCount then leafPat.getD idx 0 &&& allMask varCount else 0)
  else if idx < 6 + 64 then vals.getD (idx - 6) 0
  else 0

def evalGates (gates : List Entry) : List (BitVec 64) :=
  gates.foldl (fun vals g =>
    vals ++ [g.k.word (load varCount vals g.in0) (load varCount vals g.in1) &&& allMask varCount]) []

def evalU64ConeCpu (c : Cone) : BitVec 64 :=
  if 6 < c.varCount then 0
  else if c.gates.length = 0 ∨ 64 < c.gates.length then 0
  else (evalGates c.varCount c.gates).getD (c.gates.length - 1) 0 &&& allMask c.varCount

structure Cand where
  root : NodeId
  g : Gate
  leaves : List NodeId
  cone : Cone
  mask : BitVec 64

def candOf (nl : Netlist) (addr : NodeId → Nat) (maxVars maxGates : Nat) (root : NodeId) : Option Cand :=
  match gateByOut nl root with
  | none => none
  | some g =>
    match nl.getModel g.pos with
    | none => none
    | some _ =>
      let walk := visit nl maxVars maxGates (maxGates + 1) {} (some root)
      if walk.ok = false then none
      else
        let leaves := walk.leaves.insertionSort fun a b => addr a ≤ addr b
        if maxVars < leaves.length then none
        else
          match emit nl leaves ((gates nl).length + 1) [] {} (some root) with
          | none => none
          | some st =>
            if st.gates = [] then none
            else
              let cone : Cone := ⟨leaves.length, st.gates⟩
              some ⟨root, g, leaves, cone, evalU64ConeCpu cone⟩

variable {fuel i : Nat}

section Visit

variable {nl : Netlist} {maxVars maxGates : Nat} {n : NodeId} {g : Gate}

theorem gateByOut_eq_some (h : gateByOut nl n = some g) : g ∈ gates nl ∧ g.out = n :=
  ⟨mem_of_find?_eq_some h, by simpa using find?_some h⟩

variable {st : Walk}

theorem visit_rule {P : Walk → Prop} {Q : NodeId → Prop}
    (hpins : ∀ g ∈ gates nl, ∀ x, g.in0 = some x ∨ g.in1 = some x → Q x)
    (hfail : ∀ st, P st → P { st with ok := false }) (hvisit : ∀ st n, P st → P { st with visited := n :: st.visited })
    (hleaf : ∀ st n, P st → Q n → gateByOut nl n = none → P { st with leaves := st.leaves ++ [n] })
    (hgate : ∀ st, P st → P { st with gateCount := st.gateCount + 1, ok := false })
    (hcount : ∀ st, P st → st.gateCount + 1 ≤ maxGates → P { st with gateCount := st.gateCount + 1 }) (fuel : Nat)
    {n : Option NodeId} (hst : P st) (hn : ∀ x, n = some x → Q x) :
    P (visit nl maxVars maxGates fuel st n) := by
  induction fuel generalizing st n with
  | zero =>
    cases n with
    | none => exact hst
    | some n => exact hfail st hst
  | succ fuel ih =>
    cases n with
    | none => exact hst
    | some n =>
      unfold visit
      split
      · exact hst
      dsimp only
      have hseen := hvisit st n hst
      split
      · exact hseen
      split
      · rename_i hnone
        split
        · exact hseen
        split
        · exact hfail _ hseen
        · exact hleaf _ n hseen (hn n rfl) hnone
      · rename_i g hg
        split
        · exact hgate _ hseen
        · rename_i hle
          have hmem := (gateByOut_eq_some hg).1
          have hfirst := ih (n := g.in0) (hcount _ hseen (by simpa using hle)) fun x hx => hpins g hmem x (.inl hx)
          split
          · exact hfirst
          · exact ih hfirst fun x hx => hpins g hmem x (.inr hx)

theorem gateCount_visit (nl : Netlist) (maxVars maxGates : Nat) (fuel : Nat) (st : Walk) (n : Option NodeId) :
    st.gateCount ≤ (visit nl maxVars maxGates fuel st n).gateCount :=
  visit_rule (P := fun st' => st.gateCount ≤ st'.gateCount) (Q := fun _ => True) (fun _ _ _ _ => trivial)
    (fun _ h => h) (fun _ _ h => h) (fun _ _ h _ _ => h) (fun _ h => Nat.le_succ_of_le h)
    (fun _ h _ => Nat.le_succ_of_le h) fuel (Nat.le_refl _) fun _ _ => trivial

theorem gateCount_visit_le (fuel : Nat) (n : Option NodeId) (h : st.ok = true → st.gateCount ≤ maxGates) :
    (visit nl maxVars maxGates fuel st n).ok = true →
      (visit nl maxVars maxGates fuel st n).gateCount ≤ maxGates :=
  visit_rule (P := fun st' => st'.ok = true → st'.gateCount ≤ maxGates) (Q := fun _ => True)
    (fun _ _ _ _ => trivial) (fun _ _ hfalse => absurd hfalse (by simp)) (fun _ _ h => h) (fun _ _ h _ _ => h)
    (fun _ _ hfalse => absurd hfalse (by simp)) (fun _ _ hle _ => hle) fuel h fun _ _ => trivial

theorem visit_succ {n : Option NodeId} (hfuel : maxGates < fuel + st.gateCount)
    (hcount : st.ok = true → st.gateCount ≤ maxGates) :
    visit nl maxVars maxGates (fuel + 1) st n = visit nl maxVars maxGates fuel st n := by
  induction fuel generalizing st n with
  | zero =>
    have hok : st.ok = false := by
      cases hok : st.ok with
      | false => rfl
      | true => exact absurd (hcount hok) (by omega)
    cases n with
    | none => rfl
    | some n =>
      simp only [visit, hok, true_or, if_true]
      cases st
      cases hok
      rfl
  | succ fuel ih =>
    cases n with
    | none => rfl
    | some n =>
      rw [visit, visit]
      split
      · rfl
      dsimp only
      split
      · rfl
      cases gateByOut nl n with
      | none => rfl
      | some g =>
        dsimp only
        split
        · rfl
        · rename_i hle
          have hle : st.gateCount + 1 ≤ maxGates := by simpa using hle
          have hfirst : visit nl maxVars maxGates (fuel + 1)
              { st with visited := n :: st.visited, gateCount := st.gateCount + 1 } g.in0 =
                visit nl maxVars maxGates fuel
              { st with visited := n :: st.visited, gateCount := st.gateCount + 1 } g.in0 :=
            ih (by dsimp only; omega) fun _ => hle
          rw [hfirst]
          split
          · rfl
          · refine ih ?_ (gateCount_visit_le _ _ fun _ => hle)
            have := gateCount_visit nl maxVars maxGates fuel
              { st with visited := n :: st.visited, gateCount := st.gateCount + 1 } g.in0
            dsimp only at this
            omega

end Visit

/-- The function of a kind; an inverter does not look at its second input. -/
def Kind.fn : Kind → Bool → Bool → Bool
  | notGate, a, _ => !a
  | andGate, a, b => a && b
  | orGate, a, b => a || b
  | xorGate, a, b => a ^^ b
  | xnorGate, a, b => !(a ^^ b)
  | nandGate, a, b => !(a && b)
  | norGate, a, b => !(a || b)
  | impGate, a, b => !a || b
  | nimpGate, a, b => a && !b

theorem getLsbD_allMask {varCount m : Nat} (hvar : varCount ≤ 6) (hm : m < 2 ^ varCount) :
    (allMask varCount).getLsbD m = true := by
  have hall : ∀ vc < 7, ∀ m < 64, (allMask vc).getLsbD m = decide (m < 2 ^ vc) := by decide +kernel
  have hlt : m < 64 := Nat.lt_of_lt_of_le hm (Nat.pow_le_pow_right (by omega) hvar)
  rw [hall varCount (by omega) m hlt]
  exact decide_eq_true hm

theorem getLsbD_leafPat {m : Nat} (hi : i < 6) (hm : m < 64) :
    (leafPat.getD i 0).getLsbD m = m.testBit i := by
  have hall : ∀ i < 6, ∀ m < 64, (leafPat.getD i 0).getLsbD m = m.testBit i := by decide +kernel
  exact hall i hi m hm

theorem Kind.getLsbD_word (k : Kind) (a b : BitVec 64) {m : Nat} (hm : m < 64) :
    (k.word a b).getLsbD m = k.fn (a.getLsbD m) (b.getLsbD m) := by
  cases k <;> simp [Kind.word, Kind.fn, hm]

theorem evalGates_append (gs : List Entry) (g : Entry) :
    evalGates varCount (gs ++ [g]) = evalGates varCount gs ++
      [g.k.word (load varCount (evalGates varCount gs) g.in0) (load varCount (evalGates varCount gs) g.in1) &&&
        allMask varCount] := by
  rw [evalGates, foldl_append]
  rfl

theorem length_evalGates (gs : List Entry) : (evalGates varCount gs).length = gs.length := by
  induction gs using reverseRecOn with
  | nil => rfl
  | append_singleton gs g ih => rw [evalGates_append, length_append, length_append, ih]; rfl

structure Names (nl : Netlist) (g : Gate) (m : ModelBase) : Prop where
  getModel : nl.getModel g.pos = some m
  kind : m.model.kind = g.k.modelKind
  pins : m.model.pins = if g.k = .notGate then [g.in0, some g.out] else [g.in0, g.in1, some g.out]
  outPin : g.outPin = ⟨m.id, if g.k = .notGate then 1 else 2⟩

theorem modelKind_of_binaryKind {kind : ModelKind} {k : Kind} (h : binaryKind kind = some k) :
    kind = k.modelKind ∧ k ≠ .notGate := by
  cases kind <;> simp only [binaryKind, reduceCtorEq, Option.some.injEq] at h <;> subst h <;>
    exact ⟨rfl, by simp⟩

theorem names_of_classify {nl : Netlist} {pos : ModelPos} {m : ModelBase} (hm : nl.getModel pos = some m) {g : Gate}
    (hrec : classify m pos = some g) : Names nl g m := by
  unfold classify at hrec
  split at hrec
  · rename_i a out hk hpins
    cases hrec
    exact ⟨hm, hk, hpins, rfl⟩
  · cases hrec
  · rename_i a b out hpins _
    obtain ⟨k, hk, rfl⟩ := Option.map_eq_some_iff.mp hrec
    obtain ⟨hkind, hne⟩ := modelKind_of_binaryKind hk
    exact ⟨hm, hkind, by rw [if_neg hne]; exact hpins, by rw [if_neg hne]⟩
  · cases hrec

theorem names_of_mem {nl : Netlist} {g : Gate} (hg : g ∈ gates nl) : ∃ m, Names nl g m := by
  obtain ⟨pos, m, hm, hrec⟩ := mem_gather.mp hg
  exact ⟨m, names_of_classify hm hrec⟩

theorem exists_boolFns (k : Kind) : ∃ fn : List Bool → Bool,
    (∀ m : ModelBase, m.model.kind = k.modelKind → boolFns m = some ⟨if k = .notGate then 1 else 2, [fn]⟩) ∧
      ∀ x y, fn (if k = .notGate then [x] else [x, y]) = k.fn x y := by
  cases k <;>
    refine ⟨_, fun m hk => by simp only [boolFns, hk, Kind.modelKind, ModelKind.gateFn, Option.map_some]; rfl,
      fun x y => ?_⟩ <;>
    cases x <;> cases y <;> rfl

section Value

variable {nl : Netlist} {g : Gate} {m : ModelBase} {n : NodeId}

theorem Names.mem (hg : Names nl g m) : m ∈ nl.bases := mem_bases hg.getModel

theorem value_of_mem (hg : g ∈ gates nl) {a : NodeId} (ha : g.in0 = some a) {b : NodeId}
    (hb : g.k = .notGate ∨ g.in1 = some b) {v : NodeId → Bool} (hv : Solves (system boolFns nl) v) :
    v g.out = g.k.fn (v a) (v b) := by
  obtain ⟨m, hm⟩ := names_of_mem hg
  obtain ⟨fn, hfn, heq⟩ := exists_boolFns g.k
  have hfn := hfn m hm.kind
  by_cases hk : g.k = .notGate
  · have hpins : m.model.pins = ([a] ++ [g.out]).map some := by
      rw [hm.pins, if_pos hk, ha]
      rfl
    have hval := value_of_pins [a] [g.out] 0 hv hm.mem hfn hpins (by simp [hk]) rfl rfl
    rw [hval, ← heq, if_pos hk]
    rfl
  · have hb := hb.resolve_left hk
    have hpins : m.model.pins = ([a, b] ++ [g.out]).map some := by
      rw [hm.pins, if_neg hk, ha, hb]
      rfl
    have hval := value_of_pins [a, b] [g.out] 0 hv hm.mem hfn hpins (by simp [hk]) rfl rfl
    rw [hval, ← heq, if_neg hk]
    rfl

end Value

/-- The assignment of a valuation to the leaves, as the number of a row of the truth table. -/
def minterm (leaves : List NodeId) (v : NodeId → Bool) : Nat := value (leaves.map v)

theorem minterm_lt (leaves : List NodeId) (v : NodeId → Bool) : minterm leaves v < 2 ^ leaves.length := by
  have hlt := value_lt (leaves.map v)
  rwa [length_map] at hlt

theorem testBit_minterm {leaves : List NodeId} {n : NodeId} (hi : leaves[i]? = some n) (v : NodeId → Bool) :
    (minterm leaves v).testBit i = v n := by
  rw [minterm, testBit_value, getD_eq_getElem?_getD, getElem?_map, hi]
  rfl

/-- The words computed so far are the truth tables of the nodes that are numbered so far. -/
structure Built (nl : Netlist) (leaves : List NodeId) (st : Building) : Prop where
  length : st.outs.length = st.gates.length
  small : st.gates.length ≤ 64
  value : ∀ v, Solves (system boolFns nl) v → ∀ k n, st.outs[k]? = some n →
    ((evalGates leaves.length st.gates).getD k 0).getLsbD (minterm leaves v) = v n

section Build

variable {nl : Netlist} {leaves : List NodeId} {st st' : Building} {n : NodeId} {g : Gate} {v : NodeId → Bool}

theorem value_of_nodeConst {c : Bool} (hc : nodeConst nl n = some c) (hv : Solves (system boolFns nl) v) : v n = c := by
  obtain ⟨b, hb, hconst⟩ := nodeConst_spec hc
  exact hv (Equation.apply n [] fun _ => c)
    (mem_system.mpr ⟨b, hb, by rw [pinEquations_const hconst]; exact mem_singleton_self _⟩)

section

variable (hb : Built nl leaves st) (hlen : leaves.length ≤ 6)
include hb hlen

theorem Built.load_idxOf (hi : idxOf nl leaves st n = some i)
    (hv : Solves (system boolFns nl) v) :
    (load leaves.length (evalGates leaves.length st.gates) i).getLsbD (minterm leaves v) = v n := by
  have hlt := minterm_lt leaves v
  have hbit := getLsbD_allMask hlen hlt
  unfold idxOf at hi
  cases hconst : nodeConst nl n with
  | some c =>
    rw [hconst] at hi
    cases hi
    rw [value_of_nodeConst hconst hv]
    cases c with
    | false => exact BitVec.getLsbD_zero
    | true => exact hbit
  | none =>
    rw [hconst] at hi
    dsimp only at hi
    cases hleaf : leaves.idxOf? n with
    | some j =>
      rw [hleaf] at hi
      cases hi
      obtain ⟨hj, hget, -⟩ := idxOf?_eq_some_iff.mp hleaf
      have hm : minterm leaves v < 64 :=
        Nat.lt_of_lt_of_le hlt (Nat.pow_le_pow_right (by omega) hlen)
      unfold load
      rw [if_neg (by omega), if_neg (by omega), if_pos (by omega), if_pos hj, BitVec.getLsbD_and, hbit,
        Bool.and_true, getLsbD_leafPat (by omega) hm, testBit_minterm (List.getElem?_eq_some_iff.mpr ⟨hj, hget⟩)]
    | none =>
      rw [hleaf] at hi
      obtain ⟨j, hj, rfl⟩ := Option.map_eq_some_iff.mp hi
      obtain ⟨hjlt, hget, -⟩ := idxOf?_eq_some_iff.mp hj
      have hlength := hb.length
      have hsmall := hb.small
      unfold load
      rw [if_neg (by omega), if_neg (by omega), if_neg (by omega), if_pos (by omega), Nat.add_sub_cancel_left]
      exact hb.value v hv j n (List.getElem?_eq_some_iff.mpr ⟨hjlt, hget⟩)

theorem Built.add (hg : gateByOut nl n = some g) {a b : Nat}
    (ha : g.in0.bind (idxOf nl leaves st) = some a)
    (hb' : g.k = .notGate ∨ g.in1.bind (idxOf nl leaves st) = some b) (hlt : st.gates.length < 64) :
    Built nl leaves { gates := st.gates ++ [⟨g.k, a, b⟩], outs := st.outs ++ [n] } := by
  obtain ⟨hmem, rfl⟩ := gateByOut_eq_some hg
  obtain ⟨x, hx, ha⟩ := Option.bind_eq_some_iff.mp ha
  have hm : ∀ v, minterm leaves v < 64 := fun v =>
    Nat.lt_of_lt_of_le (minterm_lt leaves v) (Nat.pow_le_pow_right (by omega) hlen)
  refine ⟨?_, ?_, fun v hv k o hk => ?_⟩
  · rw [length_append, length_append, hb.length]
    rfl
  · rw [length_append, length_singleton]
    exact hlt
  · dsimp only at hk ⊢
    rw [evalGates_append]
    have hvals := length_evalGates leaves.length st.gates
    have hlength := hb.length
    by_cases hold : k < st.outs.length
    · rw [getElem?_append_left hold] at hk
      rw [getD_append _ _ _ _ (by omega)]
      exact hb.value v hv k o hk
    · have hkk : k = st.outs.length := by
        have hbound := (List.getElem?_eq_some_iff.mp hk).1
        rw [length_append, length_singleton] at hbound
        omega
      rw [hkk, getElem?_append_right (Nat.le_refl _), Nat.sub_self] at hk
      cases hk
      have hfirst := hb.load_idxOf hlen ha hv
      have hop : ∀ y, (g.k = .notGate ∨ g.in1 = some y) → (g.k = .notGate ∨ idxOf nl leaves st y = some b) →
          (g.k.word (load leaves.length (evalGates leaves.length st.gates) a)
            (load leaves.length (evalGates leaves.length st.gates) b)).getLsbD (minterm leaves v) = v g.out := by
        intro y hy hyb
        rw [Kind.getLsbD_word _ _ _ (hm v), hfirst, value_of_mem hmem hx hy hv]
        rcases hyb with hk | hyb
        · rw [hk]
          rfl
        · rw [hb.load_idxOf hlen hyb hv]
      rw [hkk, getD_append_right _ _ _ _ (by omega), show st.outs.length - (evalGates leaves.length st.gates).length =
        0 by omega]
      rw [getD_cons_zero, BitVec.getLsbD_and, getLsbD_allMask hlen (minterm_lt leaves v), Bool.and_true]
      rcases hb' with hnot | hb'
      · exact hop x (.inl hnot) (.inl hnot)
      · obtain ⟨y, hy, hyb⟩ := Option.bind_eq_some_iff.mp hb'
        exact hop y (.inr hy) (.inr hyb)

theorem Built.addEntry (hg : gateByOut nl n = some g)
    (he : addEntry nl leaves st g n = some st') : Built nl leaves st' := by
  obtain ⟨a, ha, he⟩ := Option.bind_eq_some_iff.mp he
  obtain ⟨b, hb', he⟩ := Option.bind_eq_some_iff.mp he
  split at he
  · cases he
  rename_i hlt
  cases he
  refine hb.add hlen hg ha ?_ (by omega)
  split at hb'
  · rename_i hnot
    exact .inl hnot
  · exact .inr hb'

end

theorem getLast?_addEntry (he : addEntry nl leaves st g n = some st') : st'.outs.getLast? = some n := by
  obtain ⟨a, -, he⟩ := Option.bind_eq_some_iff.mp he
  obtain ⟨b, -, he⟩ := Option.bind_eq_some_iff.mp he
  split at he
  · cases he
  cases he
  simp

variable {visiting : List NodeId}

theorem Built.emit (hlen : leaves.length ≤ 6) {n : Option NodeId} (hb : Built nl leaves st)
    (he : emit nl leaves fuel visiting st n = some st') : Built nl leaves st' := by
  induction fuel generalizing visiting st n st' with
  | zero =>
    cases n with
    | none => cases he
    | some n =>
      unfold TruthCones.emit at he
      split at he
      · cases he
        exact hb
      · cases hg : gateByOut nl n <;> simp [hg] at he
  | succ fuel ih =>
    cases n with
    | none => cases he
    | some n =>
      unfold TruthCones.emit at he
      split at he
      · cases he
        exact hb
      cases hg : gateByOut nl n with
      | none => simp [hg] at he
      | some g =>
        simp only [hg] at he
        split at he
        · cases he
        obtain ⟨st₁, h₁, he⟩ := Option.bind_eq_some_iff.mp he
        obtain ⟨st₂, h₂, he⟩ := Option.bind_eq_some_iff.mp he
        have hb₁ := ih hb h₁
        have hb₂ : Built nl leaves st₂ := by
          split at h₂
          · cases h₂
            exact hb₁
          · exact ih hb₁ h₂
        exact hb₂.addEntry hlen hg he

theorem getLast?_emit (hnone : idxOf nl leaves st n = none)
    (he : emit nl leaves fuel visiting st (some n) = some st') : st'.outs.getLast? = some n := by
  unfold emit at he
  rw [hnone] at he
  cases hg : gateByOut nl n with
  | none => simp [hg] at he
  | some g =>
    cases fuel with
    | zero => simp [hg] at he
    | succ fuel =>
      simp only [hg, Option.isSome_none, Bool.false_eq_true, if_false] at he
      split at he
      · cases he
      obtain ⟨st₁, -, he⟩ := Option.bind_eq_some_iff.mp he
      obtain ⟨st₂, -, he⟩ := Option.bind_eq_some_iff.mp he
      exact getLast?_addEntry he

end Build

/-- The mask of a candidate is the truth table of its root over its leaves. -/
structure IsCand (nl : Netlist) (root : NodeId) (cd : Cand) : Prop where
  gate : gateByOut nl root = some cd.g
  root_eq : cd.root = root
  varCount : cd.cone.varCount = cd.leaves.length
  length : cd.leaves.length ≤ 6
  leaves : ∀ l ∈ cd.leaves, gateByOut nl l = none ∧ (nl.node? l).isSome
  value : ∀ v, Solves (system boolFns nl) v → cd.mask.getLsbD (minterm cd.leaves v) = v root

section Candidates

variable {nl : Netlist} {addr : NodeId → Nat} {maxVars maxGates : Nat} {root n : NodeId} {cd : Cand} {g : Gate}

theorem isSome_of_pin (h : BinaryNetlist nl) (hg : g ∈ gates nl) :
    (nl.node? g.out).isSome ∧ ∀ x, g.in0 = some x ∨ g.in1 = some x → (nl.node? x).isSome := by
  obtain ⟨m, hm⟩ := names_of_mem hg
  have hpin : ∀ x, some x ∈ m.model.pins → (nl.node? x).isSome := fun x hx => h.sound.isSome_node? hm.mem hx
  have hnot : g.k = .notGate → g.in1 = none := by
    obtain ⟨pos, m', hm', hrec⟩ := mem_gather.mp hg
    intro hk
    unfold classify at hrec
    split at hrec
    · cases hrec
      rfl
    · cases hrec
    · obtain ⟨k, hk', rfl⟩ := Option.map_eq_some_iff.mp hrec
      exact absurd hk (modelKind_of_binaryKind hk').2
    · cases hrec
  by_cases hk : g.k = .notGate
  · have hpins := hm.pins
    rw [if_pos hk] at hpins
    refine ⟨hpin _ (by simp [hpins]), fun x hx => ?_⟩
    rcases hx with hx | hx
    · exact hpin x (by simp [hpins, hx])
    · rw [hnot hk] at hx
      cases hx
  · have hpins := hm.pins
    rw [if_neg hk] at hpins
    refine ⟨hpin _ (by simp [hpins]), fun x hx => ?_⟩
    rcases hx with hx | hx <;> exact hpin x (by simp [hpins, hx])

theorem leaves_visit (maxVars maxGates : Nat) (h : BinaryNetlist nl) (hroot : (nl.node? root).isSome) :
    ∀ l ∈ (visit nl maxVars maxGates (maxGates + 1) {} (some root)).leaves,
      gateByOut nl l = none ∧ (nl.node? l).isSome :=
  visit_rule (P := fun st => ∀ l ∈ st.leaves, gateByOut nl l = none ∧ (nl.node? l).isSome)
    (Q := fun n => (nl.node? n).isSome) (fun _ hg x hx => (isSome_of_pin h hg).2 x hx) (fun _ hst => hst)
    (fun _ _ hst => hst)
    (fun st n hst hn hnone l hl => by
      rcases mem_append.mp hl with hl | hl
      · exact hst l hl
      · rw [mem_singleton.mp hl]
        exact ⟨hnone, hn⟩)
    (fun _ hst => hst) (fun _ hst _ => hst) _ (by simp) fun x hx => by
      rw [← Option.some.inj hx]
      exact hroot

theorem isCand_of_candOf (h : BinaryNetlist nl) (hmax : maxVars ≤ 6)
    (hc : candOf nl addr maxVars maxGates root = some cd) : IsCand nl root cd := by
  unfold candOf at hc
  cases hg : gateByOut nl root with
  | none => simp [hg] at hc
  | some g =>
    simp only [hg] at hc
    split at hc
    · cases hc
    split at hc
    · cases hc
    have hwalk := leaves_visit maxVars maxGates h
      ((gateByOut_eq_some hg).2 ▸ (isSome_of_pin h (gateByOut_eq_some hg).1).1 : (nl.node? root).isSome)
    set walk := visit nl maxVars maxGates (maxGates + 1) {} (some root)
    set leaves := walk.leaves.insertionSort fun a b => addr a ≤ addr b with hleaves
    split at hc
    · cases hc
    rename_i hle
    have hlen : leaves.length ≤ 6 := by omega
    cases he : emit nl leaves ((gates nl).length + 1) [] {} (some root) with
    | none => simp [he] at hc
    | some st =>
      simp only [he] at hc
      split at hc
      · cases hc
      rename_i hne
      cases hc
      have hstart : Built nl leaves {} := ⟨rfl, Nat.zero_le _, fun _ _ k n hk => by simp at hk⟩
      have hbuilt := hstart.emit hlen he
      have hlast : st.outs.getLast? = some root := by
        cases hidx : idxOf nl leaves {} root with
        | none => exact getLast?_emit hidx he
        | some i =>
          unfold emit at he
          rw [if_pos (by simp [hidx])] at he
          cases he
          exact absurd rfl hne
      refine ⟨hg, rfl, rfl, hlen, fun l hl => hwalk l ((mem_insertionSort _).mp hl), fun v hv => ?_⟩
      have hlength := hbuilt.length
      have hsmall := hbuilt.small
      have hpos : st.gates.length ≠ 0 := fun hzero => hne (length_eq_zero_iff.mp hzero)
      dsimp only [evalU64ConeCpu]
      rw [if_neg (by omega), if_neg (by omega), BitVec.getLsbD_and, getLsbD_allMask hlen (minterm_lt leaves v),
        Bool.and_true]
      rw [getLast?_eq_getElem?, hlength] at hlast
      exact hbuilt.value v hv _ root hlast

namespace IsCand

variable (hc : IsCand nl root cd) {v : NodeId → Bool} (hv : Solves (system boolFns nl) v)

include hc

theorem minterm_lt : minterm cd.leaves v < 2 ^ cd.cone.varCount := by
  rw [hc.varCount]
  exact TruthCones.minterm_lt _ _

theorem getLsbD_allMask : (allMask cd.cone.varCount).getLsbD (minterm cd.leaves v) = true :=
  TruthCones.getLsbD_allMask (hc.varCount ▸ hc.length) hc.minterm_lt

include hv

theorem value_masked : (cd.mask &&& allMask cd.cone.varCount).getLsbD (minterm cd.leaves v) = v root := by
  rw [BitVec.getLsbD_and, hc.getLsbD_allMask, Bool.and_true, hc.value v hv]

theorem value_of_zero (hmask : cd.mask &&& allMask cd.cone.varCount = 0) : v root = false := by
  rw [← hc.value_masked hv, hmask]
  exact BitVec.getLsbD_zero

theorem value_of_all (hmask : cd.mask &&& allMask cd.cone.varCount = allMask cd.cone.varCount) : v root = true := by
  rw [← hc.value_masked hv, hmask]
  exact hc.getLsbD_allMask

variable {root' : NodeId} {cd' : Cand}

theorem value_eq (hc' : IsCand nl root' cd') (hleaves : cd.leaves = cd'.leaves)
    (hmask : cd.mask &&& allMask cd.cone.varCount = cd'.mask &&& allMask cd'.cone.varCount) : v root = v root' := by
  rw [← hc.value_masked hv, ← hc'.value_masked hv, hmask, hleaves]

theorem value_eq_not (hc' : IsCand nl root' cd') (hleaves : cd.leaves = cd'.leaves)
    (hmask : (cd.mask &&& allMask cd.cone.varCount) ^^^ allMask cd.cone.varCount =
      cd'.mask &&& allMask cd'.cone.varCount) : v root' = !v root := by
  rw [← hc.value_masked hv, ← hc'.value_masked hv, ← hmask, ← hleaves, BitVec.getLsbD_xor, hc.getLsbD_allMask,
    Bool.xor_true]

theorem value_of_leaf {l : NodeId} (hleaves : cd.leaves = [l])
    (hmask : cd.mask &&& allMask cd.cone.varCount = 0b10#64) : v root = v l := by
  rw [← hc.value_masked hv, hmask, hleaves, minterm, map_singleton, value_cons, value_nil]
  cases v l <;> rfl

end IsCand

end Candidates

end TruthCones

end PhyEngine
