import PhyEngine.Synth.BinaryNetlist

/-!
# Replacing gates by two-bit multipliers

`optimize_mul2_in_pe_netlist`: a tile of eight gates becomes one `MUL2`, with the operands
recovered from the input pairs of three products. When an input lies in both pairs it is taken
for both bits; `mul2_keepsFunction_iff` says when this does not show at a node that is read.
-/

namespace PhyEngine

open Equations Netlist List

namespace Mul2

inductive Kind
  | andGate
  | xorGate
  deriving DecidableEq

def Kind.modelKind : Kind → ModelKind
  | andGate => .and
  | xorGate => .xor

structure Gate where
  k : Kind
  pos : ModelPos
  in0 : NodeId
  in1 : NodeId
  out : NodeId

def classifyGate (m : ModelBase) (pos : ModelPos) : Option Gate :=
  match m.model.kind, m.model.pins with
  | .and, [some a, some b, some o] => some ⟨.andGate, pos, a, b, o⟩
  | .xor, [some a, some b, some o] => some ⟨.xorGate, pos, a, b, o⟩
  | _, _ => none

def collectGates (nl : Netlist) : List Gate := nl.gather classifyGate

section Search

variable (nl : Netlist) (gates : List Gate)

def drivesNode (m : ModelBase) (n : NodeId) : Bool :=
  m.model.pins.zipIdx.any fun pk =>
    decide (pk.1 = some n) && isOutputPin m.model.kind pk.2 m.model.pins.length

variable (n : NodeId)

def namedInputName : Option String :=
  (nl.bases.find? fun m => decide (m.model.kind = .input ∧ m.model.name ≠ "") && drivesNode m n).map
    (·.model.name)

def driverIsNonInput : Bool :=
  nl.bases.any fun m => decide (m.model.kind ≠ .input) && drivesNode m n

def isPrimaryInputNode : Bool :=
  decide (fanCount true nl n = 1) && !driverIsNonInput nl n && (namedInputName nl n).isSome

def baseOfNamedInput : String :=
  match namedInputName nl n with
  | none => ""
  | some full => String.ofList (full.toList.takeWhile (· ≠ '['))

def exchanged (a0 a1 b0 b1 : NodeId) : Bool :=
  let baseA0 := baseOfNamedInput nl a0
  let baseB0 := baseOfNamedInput nl b0
  if baseA0 ≠ "" ∧ baseA0 = baseOfNamedInput nl a1 ∧ baseB0 ≠ "" ∧ baseB0 = baseOfNamedInput nl b1 then
    let desiredA :=
      if baseA0 ≠ "a" ∧ baseB0 = "a" then baseB0
      else if baseA0 ≠ "a" ∧ baseB0 ≠ "a" then (if baseA0 ≤ baseB0 then baseA0 else baseB0)
      else baseA0
    decide (baseA0 ≠ desiredA)
  else false

def gateForOut : Option Gate := gates.find? fun g => g.out = n

def outOfAnd (a b : NodeId) : Option NodeId :=
  (gates.find? fun g => g.k = .andGate ∧ ((g.in0 = a ∧ g.in1 = b) ∨ (g.in0 = b ∧ g.in1 = a))).map (·.out)

variable (dead : List ModelPos)

def gateOfKind (k : Kind) (n : NodeId) : Option Gate :=
  (gateForOut gates n).filter fun g => g.pos ∉ dead ∧ g.k = k

def uses (n : NodeId) : List Gate :=
  gates.flatMap fun g => (if g.in0 = n then [g] else []) ++ if g.in1 = n then [g] else []

structure Tile where
  p1 : Gate
  t1 : Gate
  t2 : Gate
  c1 : Gate
  p2 : Gate
  p3 : Gate
  t3 : Gate
  p0 : Gate
  aa0 : NodeId
  aa1 : NodeId
  bb0 : NodeId
  bb1 : NodeId

def Tile.ids (t : Tile) : List Gate := [t.p1, t.t1, t.t2, t.c1, t.p2, t.p3, t.t3, t.p0]

def Gate.hasInput (g : Gate) (n : NodeId) : Bool := decide (n = g.in0 ∨ n = g.in1)

def Gate.other (g : Gate) (n : NodeId) : NodeId := if n = g.in0 then g.in1 else g.in0

def tileOperands (p1 t1 t2 c1 p2 p3 t3 : Gate) : Option Tile :=
  if !((t1.hasInput t3.in0 && t2.hasInput t3.in1) || (t2.hasInput t3.in0 && t1.hasInput t3.in1)) then none
  else
    let b1 := if t1.hasInput t3.in0 then t3.in0 else t3.in1
    let a1 := if t2.hasInput t3.in0 then t3.in0 else t3.in1
    let a0 := t1.other b1
    let b0 := t2.other a1
    let swap := exchanged nl a0 a1 b0 b1
    let aa0 := if swap then b0 else a0
    let aa1 := if swap then b1 else a1
    let bb0 := if swap then a0 else b0
    let bb1 := if swap then a1 else b1
    match (outOfAnd gates aa0 bb0).bind (gateOfKind gates dead .andGate) with
    | none => none
    | some p0 =>
      if !(isPrimaryInputNode nl a0 && isPrimaryInputNode nl a1 && isPrimaryInputNode nl b0 &&
        isPrimaryInputNode nl b1) then none
      else if fanCount true nl p0.out ≠ 1 ∨ fanCount true nl p1.out ≠ 1 ∨ fanCount true nl p2.out ≠ 1 ∨
          fanCount true nl p3.out ≠ 1 then none
      else
        let t : Tile := ⟨p1, t1, t2, c1, p2, p3, t3, p0, aa0, aa1, bb0, bb1⟩
        if (t.ids.map (·.pos)).Nodup then some t else none

def tileAt (p1 t1 t2 c1 p2 : Gate) : Option Tile :=
  if p2.pos ∈ dead ∨ p2.pos = p1.pos ∨ p2.k ≠ .xorGate then none
  else
    match (if p2.in0 = c1.out then some p2.in1 else if p2.in1 = c1.out then some p2.in0 else none) with
    | none => none
    | some t3Out =>
      match (outOfAnd gates c1.out t3Out).bind (gateOfKind gates dead .andGate) with
      | none => none
      | some p3 =>
        match gateOfKind gates dead .andGate t3Out with
        | none => none
        | some t3 =>
          if fanCount true nl c1.out ≠ 1 ∨ fanCount false nl c1.out ≠ 2 then none
          else if fanCount true nl t3Out ≠ 1 ∨ fanCount false nl t3Out ≠ 2 then none
          else tileOperands nl gates dead p1 t1 t2 c1 p2 p3 t3

def tryMakeMul2 (p1 : Gate) : Option Tile :=
  if p1.pos ∈ dead ∨ p1.k ≠ .xorGate then none
  else
    match gateOfKind gates dead .andGate p1.in0, gateOfKind gates dead .andGate p1.in1 with
    | some t1, some t2 =>
      match (outOfAnd gates p1.in0 p1.in1).bind (gateOfKind gates dead .andGate) with
      | none => none
      | some c1 =>
        if fanCount true nl p1.in0 ≠ 1 ∨ fanCount false nl p1.in0 ≠ 2 then none
        else if fanCount true nl p1.in1 ≠ 1 ∨ fanCount false nl p1.in1 ≠ 2 then none
        else (uses gates c1.out).findSome? (tileAt nl gates dead p1 t1 t2 c1)
    | _, _ => none

end Search

def Tile.inputs (t : Tile) : List NodeId := [t.aa0, t.aa1, t.bb0, t.bb1]

def Tile.outputs (t : Tile) : List NodeId := [t.p0.out, t.p1.out, t.p2.out, t.p3.out]

/-- The multiplier is added and its pins are connected until one fails. -/
def addMul2 (nl : Netlist) (t : Tile) : Netlist × Bool :=
  let added := nl.addModel ⟨.mul2, "", [], List.replicate 8 none⟩
  (t.inputs ++ t.outputs).zipIdx.foldl
    (fun st nk => if st.2 then st.1.addToNode added.2 nk.2 nk.1 else st) (added.1, true)

/-- One call of `try_make_mul2`, with `dead`; `snap` is the netlist at the start. -/
def step (snap : Netlist) (gates : List Gate) (st : Netlist × List ModelPos) (p1 : Gate) :
    Netlist × List ModelPos :=
  match tryMakeMul2 snap gates st.2 p1 with
  | none => st
  | some t =>
    let added := addMul2 st.1 t
    if added.2 then
      ((t.ids.map (·.pos)).foldl (fun nl p => (nl.deleteModel p).1) added.1, t.ids.map (·.pos) ++ st.2)
    else (added.1, st.2)

end Mul2

open Mul2

def optimizeMul2InPeNetlist (nl : Netlist) : Netlist :=
  ((Mul2.collectGates nl).foldl (Mul2.step nl (Mul2.collectGates nl)) (nl, [])).1

namespace Mul2

section

variable (nl : Netlist)

def planStep (gates : List Gate) (st : List Tile × List ModelPos) (p1 : Gate) : List Tile × List ModelPos :=
  match tryMakeMul2 nl gates st.2 p1 with
  | none => st
  | some t => (st.1 ++ [t], t.ids.map (·.pos) ++ st.2)

def tiles : List Tile := ((collectGates nl).foldl (planStep nl (collectGates nl)) ([], [])).1

/-- The output of a gate of a tile that is no output of a multiplier. -/
def Internal (n : NodeId) : Prop :=
  (∃ t ∈ tiles nl, ∃ g ∈ t.ids, g.out = n) ∧ ∀ t ∈ tiles nl, n ∉ t.outputs

/-- The first input of the third product lies in the pairs of both others, and its second
input is another node. -/
def Tile.SharesOperand (t : Tile) : Prop :=
  t.t1.hasInput t.t3.in0 = true ∧ t.t2.hasInput t.t3.in0 = true ∧ t.t3.in1 ≠ t.t3.in0

instance : DecidablePred Tile.SharesOperand := fun _ => inferInstanceAs (Decidable (_ ∧ _ ∧ _))

end

/-! ## The gates -/

structure Names (nl : Netlist) (g : Gate) (m : ModelBase) : Prop where
  getModel : nl.getModel g.pos = some m
  kind : m.model.kind = g.k.modelKind
  pins : m.model.pins = [some g.in0, some g.in1, some g.out]

theorem names_of_mem {nl : Netlist} {g : Gate} (hg : g ∈ collectGates nl) : ∃ m, Names nl g m := by
  obtain ⟨pos, m, hm, hrec⟩ := mem_gather.mp hg
  refine ⟨m, ?_⟩
  unfold classifyGate at hrec
  split at hrec
  · rename_i a b o hk hpins
    cases hrec
    exact ⟨hm, hk, hpins⟩
  · rename_i a b o hk hpins
    cases hrec
    exact ⟨hm, hk, hpins⟩
  · cases hrec

def Gate.HasIns (g : Gate) (a b : NodeId) : Prop := (g.in0 = a ∧ g.in1 = b) ∨ (g.in0 = b ∧ g.in1 = a)

/-- `&` and `^`. -/
def Kind.fn : Kind → Bool → Bool → Bool
  | andGate => (· && ·)
  | xorGate => Bool.xor

theorem symmetricFn_modelKind (k : Kind) : symmetricFn k.modelKind = some k.fn := by
  cases k <;> rfl

section Gates

variable {nl : Netlist} {g g' : Gate} {m m' : ModelBase} {k : Kind} {a b n : NodeId} {dead : List ModelPos}

theorem Names.mem (hg : Names nl g m) : m ∈ nl.bases := mem_bases hg.getModel

theorem Names.gate2 (hg : Names nl g m) (hins : g.HasIns a b) : Gate2 nl g.k.modelKind a b g.out m := by
  refine ⟨hg.mem, hg.kind, ?_⟩
  rw [hg.pins]
  rcases hins with ⟨rfl, rfl⟩ | ⟨rfl, rfl⟩
  · exact .inl rfl
  · exact .inr rfl

theorem Names.driver (h : Sound nl) (hg : Names nl g m) : nl.DriverPin ⟨m.id, 2⟩ g.out := by
  refine ⟨?_, (h.points_iff_pin hg.mem _ _).mpr (by simp [hg.pins])⟩
  rw [h.pinOut_eq hg.mem, hg.kind, hg.pins]
  cases g.k <;> rfl

theorem Names.reader (h : Sound nl) (hg : Names nl g m) (hins : g.HasIns a b) :
    ∃ j, nl.ConsumerPin ⟨m.id, j⟩ a := by
  have hpin : ∀ j < 2, m.model.pins[j]? = some (some a) → nl.ConsumerPin ⟨m.id, j⟩ a := by
    intro j hj hp
    refine ⟨?_, (h.points_iff_pin hg.mem _ _).mpr hp⟩
    rw [h.pinOut_eq hg.mem, hg.kind, hg.pins]
    cases g.k <;> simp [Kind.modelKind, isOutputPin] <;> omega
  rcases hins with ⟨h0, -⟩ | ⟨-, h1⟩
  · exact ⟨0, hpin 0 (by omega) (by rw [hg.pins, h0]; rfl)⟩
  · exact ⟨1, hpin 1 (by omega) (by rw [hg.pins, h1]; rfl)⟩

theorem Gate.HasIns.symm (h : g.HasIns a b) : g.HasIns b a := Or.symm h

section

variable (h : BinaryNetlist nl)
include h

theorem Names.eq_of_out (hg : Names nl g m) (hg' : Names nl g' m')
    (hout : g.out = g'.out) : m = m' :=
  h.sound.eq_of_id hg.mem hg'.mem (congrArg PinRef.id
    (h.single _ _ _ (hg.driver h.sound) (hout ▸ hg'.driver h.sound)))

omit h in
theorem gateOfKind_eq_some (hg : gateOfKind (collectGates nl) dead k n = some g) :
    g ∈ collectGates nl ∧ g.out = n ∧ g.pos ∉ dead ∧ g.k = k := by
  obtain ⟨hfind, hcond⟩ := Option.filter_eq_some_iff.mp hg
  have hcond := of_decide_eq_true hcond
  exact ⟨mem_of_find?_eq_some hfind, by simpa using find?_some hfind, hcond.1, hcond.2⟩

theorem and_of_bind
    (hg : (outOfAnd (collectGates nl) a b).bind (gateOfKind (collectGates nl) dead .andGate) = some g) :
    g ∈ collectGates nl ∧ g.pos ∉ dead ∧ g.k = .andGate ∧ g.HasIns a b := by
  obtain ⟨o, hout, hby⟩ := Option.bind_eq_some_iff.mp hg
  obtain ⟨hmem, hgo, hdead, hk⟩ := gateOfKind_eq_some hby
  refine ⟨hmem, hdead, hk, ?_⟩
  obtain ⟨g', hfind, rfl⟩ := Option.map_eq_some_iff.mp hout
  obtain ⟨m, hm⟩ := names_of_mem hmem
  obtain ⟨m', hm'⟩ := names_of_mem (mem_of_find?_eq_some hfind)
  have hcond : g'.k = .andGate ∧ ((g'.in0 = a ∧ g'.in1 = b) ∨ (g'.in0 = b ∧ g'.in1 = a)) := by
    simpa using find?_some hfind
  obtain rfl := hm.eq_of_out h hm' hgo
  have hpins := hm.pins.symm.trans hm'.pins
  simp only [List.cons.injEq, Option.some.injEq, and_true] at hpins
  rw [Gate.HasIns, hpins.1, hpins.2.1]
  exact hcond.2

section

variable (hn : isPrimaryInputNode nl n = true)
include hn

theorem driver_of_primary :
    ∃ c ∈ nl.bases, c.model.kind = .input ∧ boolFns c = none ∧ ∃ j, nl.DriverPin ⟨c.id, j⟩ n := by
  simp only [isPrimaryInputNode, Bool.and_eq_true, namedInputName, Option.isSome_map] at hn
  obtain ⟨c, hc⟩ := Option.isSome_iff_exists.mp hn.2
  have hmem := mem_of_find?_eq_some hc
  have hcond := find?_some hc
  simp only [Bool.and_eq_true, decide_eq_true_eq, drivesNode, any_eq_true] at hcond
  obtain ⟨⟨hkind, hname⟩, pk, hpk, hpin, hout⟩ := hcond
  have hj := mem_zipIdx_iff_getElem?.mp hpk
  rw [hpin] at hj
  refine ⟨c, hmem, hkind, ?_, pk.2, ?_, (h.sound.points_iff_pin hmem _ _).mpr hj⟩
  · unfold boolFns
    rw [hkind]
    dsimp only
    rw [if_neg hname]
  · rw [h.sound.pinOut_eq hmem, decide_eq_true (List.getElem?_eq_some_iff.mp hj).1, Bool.true_and]
    exact hout

theorem not_driven_of_primary :
    ¬ Driven (system boolFns nl) n := by
  intro hdriven
  obtain ⟨c, hc, -, hnone, j, hdriver⟩ := driver_of_primary h hn
  obtain ⟨b, hb, i, hsome, hdriver'⟩ := exists_driverPin_of_driven h.sound h.pinned hdriven
  obtain rfl := h.sound.eq_of_id hc hb (congrArg PinRef.id (h.single _ _ _ hdriver hdriver'))
  simp [hnone] at hsome

omit hn in
theorem out_ne_primary (hg : Names nl g m) (hn : isPrimaryInputNode nl n = true) :
    g.out ≠ n := by
  rintro rfl
  obtain ⟨c, hc, hkind, -, j, hdriver⟩ := driver_of_primary h hn
  obtain rfl := h.sound.eq_of_id hc hg.mem (congrArg PinRef.id (h.single _ _ _ hdriver (hg.driver h.sound)))
  rw [hg.kind] at hkind
  cases hk : g.k <;> simp [hk, Kind.modelKind] at hkind

theorem isSome_of_primary : (nl.node? n).isSome := by
  obtain ⟨c, hc, -, -, j, hdriver⟩ := driver_of_primary h hn
  exact h.sound.isSome_node? hc (List.mem_of_getElem? ((h.sound.points_iff_pin hc _ _).mp hdriver.2))

end

end

end Gates

/-- The operands of a multiplier by the inputs of the three products. -/
structure Operands (t : Tile) (a0 a1 b0 b1 : NodeId) : Prop where
  order : (t.aa0 = a0 ∧ t.aa1 = a1 ∧ t.bb0 = b0 ∧ t.bb1 = b1) ∨
    (t.aa0 = b0 ∧ t.aa1 = b1 ∧ t.bb0 = a0 ∧ t.bb1 = a1)
  first : t.t1.HasIns a0 b1
  second : t.t2.HasIns a1 b0
  third : (¬ t.SharesOperand ∧ t.t3.HasIns a1 b1) ∨ (t.SharesOperand ∧ a1 = t.t3.in0 ∧ b1 = t.t3.in0)
  other : t.t3.in1 = a0 ∨ t.t3.in1 = b0 ∨ t.t3.in1 = a1 ∨ t.t3.in1 = b1

structure IsTile (nl : Netlist) (t : Tile) : Prop where
  mem : ∀ g ∈ t.ids, g ∈ collectGates nl
  nodup : (t.ids.map (·.pos)).Nodup
  xors : t.p1.k = .xorGate ∧ t.p2.k = .xorGate
  ands : t.t1.k = .andGate ∧ t.t2.k = .andGate ∧ t.c1.k = .andGate ∧ t.p3.k = .andGate ∧
    t.t3.k = .andGate ∧ t.p0.k = .andGate
  p1 : t.p1.HasIns t.t1.out t.t2.out
  c1 : t.c1.HasIns t.t1.out t.t2.out
  p2 : t.p2.HasIns t.c1.out t.t3.out
  p3 : t.p3.HasIns t.c1.out t.t3.out
  p0 : t.p0.HasIns t.aa0 t.bb0
  counts : fanCount false nl t.t1.out = 2 ∧ fanCount false nl t.t2.out = 2 ∧
    fanCount false nl t.c1.out = 2 ∧ fanCount false nl t.t3.out = 2
  primary : ∀ n ∈ t.inputs, isPrimaryInputNode nl n = true
  operands : ∃ a0 a1 b0 b1, Operands t a0 a1 b0 b1

section Tiles

variable {nl : Netlist} {dead : List ModelPos} {p1 t1 t2 c1 p2 p3 t3 : Gate} {t : Tile} {n : NodeId}

variable {g : Gate}

theorem Gate.hasIns_other (hn : g.hasInput n = true) : g.HasIns (g.other n) n := by
  have hn := of_decide_eq_true hn
  unfold Gate.HasIns Gate.other
  split
  · rename_i heq
    exact .inr ⟨heq.symm, rfl⟩
  · rename_i hne
    rcases hn with hn | hn
    · exact absurd hn hne
    · exact .inl ⟨rfl, hn.symm⟩

theorem tileOperands_eq_some (h : BinaryNetlist nl)
    (ht : tileOperands nl (collectGates nl) dead p1 t1 t2 c1 p2 p3 t3 = some t) :
    (t.p1 = p1 ∧ t.t1 = t1 ∧ t.t2 = t2 ∧ t.c1 = c1 ∧ t.p2 = p2 ∧ t.p3 = p3 ∧ t.t3 = t3) ∧
      (t.ids.map (·.pos)).Nodup ∧
      (t.p0 ∈ collectGates nl ∧ t.p0.pos ∉ dead ∧ t.p0.k = .andGate ∧ t.p0.HasIns t.aa0 t.bb0) ∧
      (∀ n ∈ t.inputs, isPrimaryInputNode nl n = true) ∧ ∃ a0 a1 b0 b1, Operands t a0 a1 b0 b1 := by
  unfold tileOperands at ht
  split at ht
  · cases ht
  rename_i hcond
  dsimp only at ht
  set b1 := if t1.hasInput t3.in0 = true then t3.in0 else t3.in1 with hb1
  set a1 := if t2.hasInput t3.in0 = true then t3.in0 else t3.in1 with ha1
  set swap := exchanged nl (t1.other b1) a1 (t2.other a1) b1 with hswap
  set aa0 := if swap = true then t2.other a1 else t1.other b1 with haa0
  set aa1 := if swap = true then b1 else a1 with haa1
  set bb0 := if swap = true then t1.other b1 else t2.other a1 with hbb0
  set bb1 := if swap = true then a1 else b1 with hbb1
  split at ht
  · cases ht
  rename_i p0 hp0
  split at ht
  · cases ht
  rename_i hprimary
  split at ht
  · cases ht
  split at ht
  · rename_i hnodup
    cases ht
    simp only [Bool.not_eq_true', Bool.not_eq_false, Bool.and_eq_true, Bool.or_eq_true] at hcond hprimary
    have hmem₁ : t1.hasInput b1 = true := by
      rw [hb1]
      split
      · assumption
      · rename_i hno
        rcases hcond with hc | hc
        · exact absurd hc.1 hno
        · exact hc.2
    have hmem₂ : t2.hasInput a1 = true := by
      rw [ha1]
      split
      · assumption
      · rename_i hno
        rcases hcond with hc | hc
        · exact hc.2
        · exact absurd hc.1 hno
    have hfirst := Gate.hasIns_other hmem₁
    have hsecond := (Gate.hasIns_other hmem₂).symm
    refine ⟨⟨rfl, rfl, rfl, rfl, rfl, rfl, rfl⟩, hnodup, and_of_bind h hp0, ?_, t1.other b1, a1, t2.other a1, b1,
      ?_, hfirst, hsecond, ?_, ?_⟩
    · intro n hn
      simp only [Tile.inputs, mem_cons, not_mem_nil, or_false] at hn
      cases hsw : swap <;> simp only [haa0, haa1, hbb0, hbb1, hsw, if_true, if_false, Bool.false_eq_true] at hn <;>
        rcases hn with rfl | rfl | rfl | rfl <;> simp only [hprimary]
    · cases hsw : swap <;> simp [haa0, haa1, hbb0, hbb1, hsw]
    · by_cases h₁ : t1.hasInput t3.in0 = true
      · by_cases h₂ : t2.hasInput t3.in0 = true
        · have hb : b1 = t3.in0 := if_pos h₁
          have ha : a1 = t3.in0 := if_pos h₂
          by_cases hsame : t3.in1 = t3.in0
          · exact .inl ⟨fun hs => hs.2.2 hsame, .inl ⟨ha.symm, hsame.trans hb.symm⟩⟩
          · exact .inr ⟨⟨h₁, h₂, hsame⟩, ha, hb⟩
        · exact .inl ⟨fun hs => h₂ hs.2.1, .inr ⟨(if_pos h₁).symm, (if_neg h₂).symm⟩⟩
      · have h₂ : t2.hasInput t3.in0 = true := by
          rcases hcond with hc | hc
          · exact absurd hc.1 h₁
          · exact hc.1
        exact .inl ⟨fun hs => h₁ hs.1, .inl ⟨(if_pos h₂).symm, (if_neg h₁).symm⟩⟩
    · have hins : ∀ (g : Gate) a b, g.HasIns a b → g.hasInput t3.in1 = true → t3.in1 = a ∨ t3.in1 = b := by
        intro g a b hg hin
        have hin := of_decide_eq_true hin
        rcases hg with ⟨h0, h1⟩ | ⟨h0, h1⟩ <;> rw [h0, h1] at hin
        · exact hin
        · exact hin.symm
      rcases hcond with hc | hc
      · rcases hins t2 _ _ hsecond hc.2 with heq | heq
        · exact .inr (.inr (.inl heq))
        · exact .inr (.inl heq)
      · rcases hins t1 _ _ hfirst hc.2 with heq | heq
        · exact .inl heq
        · exact .inr (.inr (.inr heq))
  · cases ht

theorem isTile_of_tryMakeMul2 (h : BinaryNetlist nl) (hp1 : p1 ∈ collectGates nl)
    (ht : tryMakeMul2 nl (collectGates nl) dead p1 = some t) :
    IsTile nl t ∧ ∀ g ∈ t.ids, g.pos ∉ dead := by
  unfold tryMakeMul2 at ht
  split at ht
  · cases ht
  rename_i hp1'
  rw [not_or, not_not] at hp1'
  split at ht
  · rename_i t1 t2 ht1 ht2
    split at ht
    · cases ht
    rename_i c1 hc1
    split at ht
    · cases ht
    rename_i hcount₁
    split at ht
    · cases ht
    rename_i hcount₂
    obtain ⟨p2, hp2, ht⟩ := exists_of_findSome?_eq_some ht
    have hp2mem : p2 ∈ collectGates nl := by
      obtain ⟨g, hg, hgu⟩ := mem_flatMap.mp hp2
      rcases mem_append.mp hgu with hgu | hgu <;> split at hgu <;> simp at hgu <;> rwa [hgu]
    unfold tileAt at ht
    split at ht
    · cases ht
    rename_i hp2'
    rw [not_or, not_or, not_not] at hp2'
    split at ht
    · cases ht
    rename_i t3Out ht3Out
    split at ht
    · cases ht
    rename_i p3 hp3
    split at ht
    · cases ht
    rename_i t3 ht3
    split at ht
    · cases ht
    rename_i hcount₃
    split at ht
    · cases ht
    rename_i hcount₄
    obtain ⟨hm₁, ho₁, hd₁, hk₁⟩ := gateOfKind_eq_some ht1
    obtain ⟨hm₂, ho₂, hd₂, hk₂⟩ := gateOfKind_eq_some ht2
    obtain ⟨hm₃, ho₃, hd₃, hk₃⟩ := gateOfKind_eq_some ht3
    obtain ⟨hmc, hdc, hkc, hic⟩ := and_of_bind h hc1
    obtain ⟨hmp, hdp, hkp, hip⟩ := and_of_bind h hp3
    obtain ⟨⟨rfl, rfl, rfl, rfl, rfl, rfl, rfl⟩, hnodup, ⟨hm₀, hd₀, hk₀, hi₀⟩, hprimary, hoperands⟩ :=
      tileOperands_eq_some h ht
    rw [not_or, not_not, not_not] at hcount₁ hcount₂ hcount₃ hcount₄
    have hi₂ : t.p2.HasIns t.c1.out t3Out := by
      split at ht3Out
      · rename_i hin
        exact .inl ⟨hin, Option.some.inj ht3Out⟩
      · split at ht3Out
        · rename_i hin
          exact .inr ⟨Option.some.inj ht3Out, hin⟩
        · cases ht3Out
    subst ho₃
    have hall : ∀ P : Gate → Prop, P t.p1 → P t.t1 → P t.t2 → P t.c1 → P t.p2 → P t.p3 → P t.t3 → P t.p0 →
        ∀ g ∈ t.ids, P g := by
      intro P h1 h2 h3 h4 h5 h6 h7 h8 g hg
      simp only [Tile.ids, mem_cons, not_mem_nil, or_false] at hg
      rcases hg with rfl | rfl | rfl | rfl | rfl | rfl | rfl | rfl <;> assumption
    refine ⟨⟨?_, hnodup, ⟨hp1'.2, hp2'.2.2⟩, ⟨hk₁, hk₂, hkc, hkp, hk₃, hk₀⟩, ?_, ?_, hi₂, hip, hi₀, ?_, hprimary,
      hoperands⟩, ?_⟩
    · exact hall _ hp1 hm₁ hm₂ hmc hp2mem hmp hm₃ hm₀
    · rw [ho₁, ho₂]
      exact .inl ⟨rfl, rfl⟩
    · rw [ho₁, ho₂]
      exact hic
    · rw [ho₁, ho₂]
      exact ⟨hcount₁.2, hcount₂.2, hcount₃.2, hcount₄.2⟩
    · exact hall (fun g => g.pos ∉ dead) hp1'.1 hd₁ hd₂ hdc hp2'.1 hdp hd₃ hd₀
  · cases ht

/-! ## The values of a tile -/

/-- The outputs of a multiplier of the values of its inputs. -/
def mulBit (k : Nat) (a0 a1 b0 b1 : Bool) : Bool :=
  let c1 := (a0 && b1) && (a1 && b0)
  match k with
  | 0 => a0 && b0
  | 1 => (a0 && b1) ^^ (a1 && b0)
  | 2 => (a1 && b1) ^^ c1
  | _ => (a1 && b1) && c1

def Tile.bit (t : Tile) (k : Nat) (v : NodeId → Bool) : Bool := mulBit k (v t.aa0) (v t.aa1) (v t.bb0) (v t.bb1)

theorem mulBit_comm (k : Nat) (a0 a1 b0 b1 : Bool) : mulBit k a0 a1 b0 b1 = mulBit k b0 b1 a0 a1 := by
  match k with
  | 0 | 1 | 2 | k + 3 => cases a0 <;> cases a1 <;> cases b0 <;> cases b1 <;> rfl

variable {a0 a1 b0 b1 : NodeId} {v : NodeId → Bool}

theorem Operands.bit (ho : Operands t a0 a1 b0 b1) (k : Nat) (v : NodeId → Bool) :
    t.bit k v = mulBit k (v a0) (v a1) (v b0) (v b1) := by
  rcases ho.order with ⟨h0, h1, h2, h3⟩ | ⟨h0, h1, h2, h3⟩ <;> rw [Tile.bit, h0, h1, h2, h3]
  exact mulBit_comm _ _ _ _ _

theorem value_of_hasIns (hg : g ∈ collectGates nl) {a b : NodeId} (hins : g.HasIns a b)
    (hv : Solves (system boolFns nl) v) : v g.out = g.k.fn (v a) (v b) := by
  obtain ⟨m, hm⟩ := names_of_mem hg
  exact (hm.gate2 hins).value (symmetricFn_modelKind g.k) hv

/-- The outputs of a tile by the inputs of its multiplier and the third product. -/
theorem IsTile.values (ht : IsTile nl t) (ho : Operands t a0 a1 b0 b1) (hv : Solves (system boolFns nl) v) :
    v t.p0.out = t.bit 0 v ∧ v t.p1.out = t.bit 1 v ∧
      v t.t3.out = (v t.t3.in0 && v t.t3.in1) ∧
      v t.p2.out = (v t.t3.out ^^ ((v a0 && v b1) && (v a1 && v b0))) ∧
      v t.p3.out = (v t.t3.out && ((v a0 && v b1) && (v a1 && v b0))) := by
  have hmem : ∀ g, g ∈ t.ids → g ∈ collectGates nl := ht.mem
  obtain ⟨hx₁, hx₂⟩ := ht.xors
  obtain ⟨hk₁, hk₂, hkc, hk₃, hkt, hk₀⟩ := ht.ands
  have h₁ := value_of_hasIns (hmem t.t1 (by simp [Tile.ids])) ho.first hv
  have h₂ := value_of_hasIns (hmem t.t2 (by simp [Tile.ids])) ho.second hv
  have h₃ := value_of_hasIns (hmem t.t3 (by simp [Tile.ids])) (.inl ⟨rfl, rfl⟩) hv
  have hc := value_of_hasIns (hmem t.c1 (by simp [Tile.ids])) ht.c1 hv
  have hp₀ := value_of_hasIns (hmem t.p0 (by simp [Tile.ids])) ht.p0 hv
  have hp₁ := value_of_hasIns (hmem t.p1 (by simp [Tile.ids])) ht.p1 hv
  have hp₂ := value_of_hasIns (hmem t.p2 (by simp [Tile.ids])) ht.p2 hv
  have hp₃ := value_of_hasIns (hmem t.p3 (by simp [Tile.ids])) ht.p3 hv
  rw [hk₁] at h₁
  rw [hk₂] at h₂
  rw [hkt] at h₃
  rw [hkc] at hc
  rw [hk₀] at hp₀
  rw [hx₁] at hp₁
  rw [hx₂] at hp₂
  rw [hk₃] at hp₃
  simp only [Kind.fn] at h₁ h₂ h₃ hc hp₀ hp₁ hp₂ hp₃
  refine ⟨hp₀, ?_, h₃, ?_, ?_⟩
  · rw [hp₁, h₁, h₂, ho.bit]
    rfl
  · rw [hp₂, hc, h₁, h₂]
    exact Bool.xor_comm _ _
  · rw [hp₃, hc, h₁, h₂]
    exact Bool.and_comm _ _

/-- The multiplier computes every output of its tile, except the third one of a tile whose
third product shares its operand. -/
theorem IsTile.bits (ht : IsTile nl t) (hv : Solves (system boolFns nl) v) :
    v t.p0.out = t.bit 0 v ∧ v t.p1.out = t.bit 1 v ∧ (¬ t.SharesOperand → v t.p2.out = t.bit 2 v) ∧
      v t.p3.out = t.bit 3 v := by
  obtain ⟨a0, a1, b0, b1, ho⟩ := ht.operands
  obtain ⟨h₀, h₁, h₃, hp₂, hp₃⟩ := ht.values ho hv
  have hthird : ¬ t.SharesOperand → v t.t3.out = (v a1 && v b1) := by
    intro hno
    rw [h₃]
    rcases ho.third with ⟨-, ⟨hi, hj⟩ | ⟨hi, hj⟩⟩ | ⟨hs, -⟩
    · rw [hi, hj]
    · rw [hi, hj, Bool.and_comm]
    · exact absurd hs hno
  refine ⟨h₀, h₁, fun hno => ?_, ?_⟩
  · rw [hp₂, hthird hno, ho.bit]
    rfl
  · rw [hp₃, ho.bit]
    by_cases hs : t.SharesOperand
    · -- When the carry is `1` so are all operands, hence the third product.
      have hall : ((v a0 && v b1) && (v a1 && v b0)) = true → v t.t3.out = true ∧ (v a1 && v b1) = true := by
        intro hc
        simp only [Bool.and_eq_true] at hc
        rw [h₃]
        have hin0 : v t.t3.in0 = true := by
          rcases ho.third with ⟨hno, -⟩ | ⟨-, ha, -⟩
          · exact absurd hs hno
          · rw [← ha, hc.2.1]
        have hin1 : v t.t3.in1 = true := by
          rcases ho.other with hi | hi | hi | hi <;> rw [hi] <;> simp [hc]
        simp [hin0, hin1, hc]
      have heq : mulBit 3 (v a0) (v a1) (v b0) (v b1) =
          ((v a1 && v b1) && ((v a0 && v b1) && (v a1 && v b0))) := rfl
      rw [heq]
      cases hc : ((v a0 && v b1) && (v a1 && v b0)) with
      | false => rw [Bool.and_false, Bool.and_false]
      | true =>
        obtain ⟨ht3, hab⟩ := hall hc
        rw [ht3, hab]
    · rw [hthird hs]
      rfl

theorem IsTile.bit_ne (ht : IsTile nl t) (hs : t.SharesOperand) (hv : Solves (system boolFns nl) v)
    (htrue : v t.t3.in0 = true) (hfalse : v t.t3.in1 = false) : v t.p2.out = false ∧ t.bit 2 v = true := by
  obtain ⟨a0, a1, b0, b1, ho⟩ := ht.operands
  obtain ⟨-, -, h₃, hp₂, -⟩ := ht.values ho hv
  obtain ⟨ha, hb⟩ : a1 = t.t3.in0 ∧ b1 = t.t3.in0 := by
    rcases ho.third with ⟨hno, -⟩ | ⟨-, ha, hb⟩
    · exact absurd hs hno
    · exact ⟨ha, hb⟩
  have hcarry : ((v a0 && v b1) && (v a1 && v b0)) = false := by
    rcases ho.other with hi | hi | hi | hi <;> rw [hi] at hfalse <;> simp [hfalse]
  rw [hp₂, ho.bit, h₃, htrue, hfalse, hcarry]
  refine ⟨rfl, ?_⟩
  have heq : mulBit 2 (v a0) (v a1) (v b0) (v b1) =
      ((v a1 && v b1) ^^ ((v a0 && v b1) && (v a1 && v b0))) := rfl
  rw [heq, hcarry, ha, hb, htrue]
  rfl

end Tiles

def Tile.model (t : Tile) : Model := ⟨.mul2, "", [], (t.inputs ++ t.outputs).map some⟩

section Multiplier

variable {t : Tile} {b : ModelBase}

section

variable (hb : b.model = t.model)
include hb

theorem boolFns_mul2 : ∃ fns, boolFns b = some ⟨4, fns⟩ ∧ fns.length = 4 ∧
    ∀ (k : Nat) (f : List Bool → Bool), fns[k]? = some f → ∀ v, f (t.inputs.map v) = t.bit k v := by
  refine ⟨_, by simp only [boolFns, hb, Tile.model, ModelKind.gateFn, Option.map_some]; rfl, rfl, fun k f hf v => ?_⟩
  simp only [Tile.inputs, map_cons, map_nil, Tile.bit]
  rw [getElem?_map] at hf
  rcases k with _ | _ | _ | _ | k
  case succ.succ.succ.succ =>
    rw [getElem?_eq_none (by simp)] at hf
    cases hf
  all_goals
    cases hf
    cases v t.aa0 <;> cases v t.aa1 <;> cases v t.bb0 <;> cases v t.bb1 <;> rfl

theorem wellPinned_mul2 : WellPinned boolFns b := by
  obtain ⟨fns, hfn, hlen, -⟩ := boolFns_mul2 hb
  constructor
  · intro g hg n hn
    simp [hb, Tile.model]
  · intro g hg
    cases hfn.symm.trans hg
    rw [hlen, hb]
    rfl
  · intro g hg k hk
    cases hfn.symm.trans hg
    rw [hb]
    rfl

theorem mem_pinEquations_mul2 {e : Equation NodeId Bool}
    (he : e ∈ pinEquations boolFns b) : e.deps = t.inputs ∧
      ∃ k, t.outputs[k]? = some e.target ∧ ∀ v, e.fn v = t.bit k v := by
  obtain ⟨fns, hfn, -, hval⟩ := boolFns_mul2 hb
  have hpins : b.model.pins = (t.inputs ++ t.outputs).map some := by rw [hb]; rfl
  obtain ⟨k, o, f, ho, hf, rfl⟩ := (mem_pinEquations_of_pins hfn hpins rfl).mp he
  exact ⟨rfl, k, ho, fun v => hval k f hf v⟩

theorem exists_equation_mul2 {k : Nat} {n : NodeId} (hk : t.outputs[k]? = some n) :
    ∃ e ∈ pinEquations boolFns b, e.target = n ∧ ∀ v, e.fn v = t.bit k v := by
  obtain ⟨fns, hfn, hlen, hval⟩ := boolFns_mul2 hb
  have hpins : b.model.pins = (t.inputs ++ t.outputs).map some := by rw [hb]; rfl
  have hlt : k < fns.length := by
    rw [hlen]
    exact (List.getElem?_eq_some_iff.mp hk).1
  exact ⟨Equation.apply n t.inputs fns[k], (mem_pinEquations_of_pins hfn hpins rfl).mpr
    ⟨k, n, fns[k], hk, getElem?_eq_getElem hlt, rfl⟩, rfl,
    fun v => hval k _ (getElem?_eq_getElem hlt) v⟩

end

end Multiplier

structure Progress (nl : Netlist) (ts : List Tile) (dead : List ModelPos) (cur : Netlist)
    (deleted : List Nat) (news : List ModelBase) : Prop where
  isTile : ∀ t ∈ ts, IsTile nl t
  rewired : Rewired nl [] deleted news cur
  deleted : ∀ id, id ∈ deleted ↔ ∃ pos ∈ dead, ∃ b, nl.getModel pos = some b ∧ b.id = id
  dead : ∀ pos, pos ∈ dead ↔ ∃ t ∈ ts, ∃ g ∈ t.ids, g.pos = pos
  news : List.Forall₂ (fun (b : ModelBase) t => b.model = t.model) news ts
  nodup : (ts.flatMap fun t => t.ids.map (·.pos)).Nodup

section Run

variable {nl cur : Netlist} {ts : List Tile} {dead : List ModelPos} {deleted : List Nat} {news : List ModelBase}
  {p1 : Gate} {t : Tile}

section

variable (h : BinaryNetlist nl)
include h

theorem IsTile.isSome (ht : IsTile nl t) :
    ∀ n ∈ t.inputs ++ t.outputs, (nl.node? n).isSome := by
  have hout : ∀ g ∈ t.ids, (nl.node? g.out).isSome := by
    intro g hg
    obtain ⟨m, hm⟩ := names_of_mem (ht.mem g hg)
    exact h.sound.isSome_node? hm.mem (by simp [hm.pins])
  intro n hn
  rcases mem_append.mp hn with hn | hn
  · exact isSome_of_primary h (ht.primary n hn)
  · simp only [Tile.outputs, mem_cons, not_mem_nil, or_false] at hn
    rcases hn with rfl | rfl | rfl | rfl <;> exact hout _ (by simp [Tile.ids])

theorem Progress.step (hp : Progress nl ts dead cur deleted news)
    (hp1 : p1 ∈ collectGates nl) : ∃ deleted' news',
      (step nl (collectGates nl) (cur, dead) p1).2 = (planStep nl (collectGates nl) (ts, dead) p1).2 ∧
      Progress nl (planStep nl (collectGates nl) (ts, dead) p1).1
        (planStep nl (collectGates nl) (ts, dead) p1).2 (step nl (collectGates nl) (cur, dead) p1).1 deleted'
          news' := by
  unfold Mul2.step planStep
  dsimp only
  cases htile : tryMakeMul2 nl (collectGates nl) dead p1 with
  | none => exact ⟨deleted, news, rfl, hp⟩
  | some t =>
    dsimp only
    obtain ⟨ht, hdead⟩ := isTile_of_tryMakeMul2 h hp1 htile
    have hstart := Connecting.start hp.rewired.sound ⟨.mul2, "", [], replicate 8 none⟩ 8 rfl
    obtain ⟨cur', heq, hc⟩ := Connecting.connectChecked (t.inputs ++ t.outputs) hstart fun n hn =>
      hp.rewired.isSome_node? (ht.isSome h n hn)
    have hadd : addMul2 cur t = (cur', true) := heq
    rw [hadd]
    simp only [if_true]
    have hmodel : ∀ pos ∈ t.ids.map (·.pos), ∃ b, nl.getModel pos = some b ∧ b.id ∉ deleted := by
      intro pos hpos
      obtain ⟨g, hg, rfl⟩ := mem_map.mp hpos
      obtain ⟨m, hm⟩ := names_of_mem (ht.mem g hg)
      refine ⟨m, hm.getModel, fun hdel => ?_⟩
      obtain ⟨pos', hpos', b, hb, hid⟩ := (hp.deleted m.id).mp hdel
      obtain rfl := h.sound.pos_eq_of_id hb hm.getModel hid
      exact hdead g hg hpos'
    obtain ⟨deleted', hrew, hids⟩ := (hp.rewired.addConnected rfl hc).deleteAll h.sound ht.nodup hmodel
    refine ⟨deleted', _, trivial, ?_, hrew, fun id => ?_, fun pos => ?_, rel_append hp.news (.cons rfl .nil), ?_⟩
    · intro t' ht'
      rcases mem_append.mp ht' with ht' | ht'
      · exact hp.isTile t' ht'
      · rw [mem_singleton.mp ht']
        exact ht
    · rw [hids, hp.deleted]
      constructor
      · rintro (⟨pos, hpos, hb⟩ | ⟨pos, hpos, hb⟩)
        · exact ⟨pos, mem_append_right _ hpos, hb⟩
        · exact ⟨pos, mem_append_left _ hpos, hb⟩
      · rintro ⟨pos, hpos, hb⟩
        rcases mem_append.mp hpos with hpos | hpos
        · exact .inr ⟨pos, hpos, hb⟩
        · exact .inl ⟨pos, hpos, hb⟩
    · rw [mem_append, hp.dead, mem_map]
      constructor
      · rintro (⟨g, hg, rfl⟩ | ⟨t', ht', hg⟩)
        · exact ⟨t, by simp, g, hg, rfl⟩
        · exact ⟨t', mem_append_left _ ht', hg⟩
      · rintro ⟨t', ht', g, hg, rfl⟩
        rcases mem_append.mp ht' with ht' | ht'
        · exact .inr ⟨t', ht', g, hg, rfl⟩
        · rw [mem_singleton.mp ht'] at hg
          exact .inl ⟨g, hg, rfl⟩
    · rw [flatMap_append, flatMap_singleton]
      refine nodup_append.mpr ⟨hp.nodup, ht.nodup, ?_⟩
      intro x hx y hy hxy
      obtain ⟨t', ht', hx⟩ := mem_flatMap.mp hx
      obtain ⟨g', hg', rfl⟩ := mem_map.mp hx
      obtain ⟨g, hg, rfl⟩ := mem_map.mp hy
      exact hdead g hg (hxy ▸ (hp.dead g'.pos).mpr ⟨t', ht', g', hg', rfl⟩)

theorem exists_progress (hp : Progress nl ts dead cur deleted news)
    (todo : List Gate) (htodo : ∀ g ∈ todo, g ∈ collectGates nl) : ∃ deleted' news',
      Progress nl (todo.foldl (planStep nl (collectGates nl)) (ts, dead)).1
        (todo.foldl (planStep nl (collectGates nl)) (ts, dead)).2
        (todo.foldl (Mul2.step nl (collectGates nl)) (cur, dead)).1 deleted' news' := by
  induction todo generalizing ts dead cur deleted news with
  | nil => exact ⟨deleted, news, hp⟩
  | cons g todo ih =>
    obtain ⟨deleted', news', hdead, hp'⟩ := hp.step h (htodo g mem_cons_self)
    have hrest := ih hp' fun g' hg' => htodo g' (mem_cons_of_mem _ hg')
    rw [← hdead] at hrest
    rw [foldl_cons, foldl_cons]
    rw [show planStep nl (collectGates nl) (ts, dead) g = ((planStep nl (collectGates nl) (ts, dead) g).1,
      (Mul2.step nl (collectGates nl) (cur, dead) g).2) from Prod.ext rfl hdead.symm]
    exact hrest

theorem exists_ran : ∃ dead deleted news,
    Progress nl (tiles nl) dead (optimizeMul2InPeNetlist nl) deleted news := by
  have hstart : Progress nl [] [] nl [] [] :=
    ⟨by simp, .start h.sound h.digital, by simp, by simp, .nil, by simp⟩
  obtain ⟨deleted, news, hp⟩ := exists_progress h hstart (collectGates nl) fun _ hg => hg
  exact ⟨_, deleted, news, hp⟩

end

end Run

section Inside

variable {nl : Netlist} {t : Tile} {g : Gate} {n : NodeId}

theorem Operands.mem_inputs {a0 a1 b0 b1 : NodeId} (ho : Operands t a0 a1 b0 b1)
    (hn : n = a0 ∨ n = a1 ∨ n = b0 ∨ n = b1) : n ∈ t.inputs := by
  rw [Tile.inputs]
  rcases ho.order with ⟨h0, h1, h2, h3⟩ | ⟨h0, h1, h2, h3⟩ <;> rw [h0, h1, h2, h3] <;>
    rcases hn with rfl | rfl | rfl | rfl <;> simp

theorem IsTile.third_primary (ht : IsTile nl t) :
    isPrimaryInputNode nl t.t3.in0 = true ∧ isPrimaryInputNode nl t.t3.in1 = true := by
  obtain ⟨a0, a1, b0, b1, ho⟩ := ht.operands
  have hprimary : ∀ n, n = a0 ∨ n = a1 ∨ n = b0 ∨ n = b1 → isPrimaryInputNode nl n = true :=
    fun n hn => ht.primary n (ho.mem_inputs hn)
  refine ⟨hprimary _ ?_, hprimary _ ?_⟩
  · rcases ho.third with ⟨-, ⟨h0, -⟩ | ⟨h0, -⟩⟩ | ⟨-, ha, -⟩
    · exact .inr (.inl h0)
    · exact .inr (.inr (.inr h0))
    · exact .inr (.inl ha.symm)
  · rcases ho.other with h1 | h1 | h1 | h1
    · exact .inl h1
    · exact .inr (.inr (.inl h1))
    · exact .inr (.inl h1)
    · exact .inr (.inr (.inr h1))

theorem IsTile.input_cases (ht : IsTile nl t) (hg : g ∈ t.ids) (hn : n = g.in0 ∨ n = g.in1) :
    isPrimaryInputNode nl n = true ∨ ∃ g' ∈ t.ids, g'.k = .andGate ∧ g'.out = n := by
  obtain ⟨a0, a1, b0, b1, ho⟩ := ht.operands
  obtain ⟨hk₁, hk₂, hkc, -, hk₃, -⟩ := ht.ands
  have hprimary : n = a0 ∨ n = a1 ∨ n = b0 ∨ n = b1 → isPrimaryInputNode nl n = true :=
    fun hn => ht.primary n (ho.mem_inputs hn)
  have hins : ∀ {a b}, g.HasIns a b → n = a ∨ n = b := by
    rintro a b (⟨h0, h1⟩ | ⟨h0, h1⟩) <;> rw [h0, h1] at hn
    · exact hn
    · exact hn.symm
  have hinner : ∀ {x y : Gate}, x ∈ t.ids → y ∈ t.ids → x.k = .andGate → y.k = .andGate →
      g.HasIns x.out y.out → ∃ g' ∈ t.ids, g'.k = .andGate ∧ g'.out = n := by
    intro x y hx hy hkx hky hin
    rcases hins hin with rfl | rfl
    · exact ⟨x, hx, hkx, rfl⟩
    · exact ⟨y, hy, hky, rfl⟩
  have h1 : t.t1 ∈ t.ids := by simp [Tile.ids]
  have h2 : t.t2 ∈ t.ids := by simp [Tile.ids]
  have hc : t.c1 ∈ t.ids := by simp [Tile.ids]
  have h3 : t.t3 ∈ t.ids := by simp [Tile.ids]
  simp only [Tile.ids, mem_cons, not_mem_nil, or_false] at hg
  rcases hg with rfl | rfl | rfl | rfl | rfl | rfl | rfl | rfl
  · exact .inr (hinner h1 h2 hk₁ hk₂ ht.p1)
  · exact .inl (hprimary (by have := hins ho.first; tauto))
  · exact .inl (hprimary (by have := hins ho.second; tauto))
  · exact .inr (hinner h1 h2 hk₁ hk₂ ht.c1)
  · exact .inr (hinner hc h3 hkc hk₃ ht.p2)
  · exact .inr (hinner hc h3 hkc hk₃ ht.p3)
  · rcases hn with rfl | rfl
    · exact .inl ht.third_primary.1
    · exact .inl ht.third_primary.2
  · refine .inl (ht.primary n ?_)
    rcases hins ht.p0 with rfl | rfl <;> simp [Tile.inputs]

theorem IsTile.exists_readers (ht : IsTile nl t) (hg : g ∈ t.ids) (hout : g.out ∉ t.outputs) :
    fanCount false nl g.out = 2 ∧ ∃ r ∈ t.ids, ∃ r' ∈ t.ids, r.pos ≠ r'.pos ∧
      (∃ b, r.HasIns g.out b) ∧ ∃ b, r'.HasIns g.out b := by
  obtain ⟨h₁, h₂, hc, h₃⟩ := ht.counts
  have hnodup := ht.nodup
  simp only [Tile.ids, map_cons, map_nil, nodup_cons, mem_cons, not_or] at hnodup
  have hfirst : t.p1.pos ≠ t.c1.pos := hnodup.1.2.2.1
  have hsecond : t.p2.pos ≠ t.p3.pos := hnodup.2.2.2.2.1.1
  have hp1 : t.p1 ∈ t.ids := by simp [Tile.ids]
  have hc1 : t.c1 ∈ t.ids := by simp [Tile.ids]
  have hp2 : t.p2 ∈ t.ids := by simp [Tile.ids]
  have hp3 : t.p3 ∈ t.ids := by simp [Tile.ids]
  simp only [Tile.ids, mem_cons, not_mem_nil, or_false] at hg
  rcases hg with rfl | rfl | rfl | rfl | rfl | rfl | rfl | rfl
  · exact absurd (by simp [Tile.outputs]) hout
  · exact ⟨h₁, t.p1, hp1, t.c1, hc1, hfirst, ⟨_, ht.p1⟩, _, ht.c1⟩
  · exact ⟨h₂, t.p1, hp1, t.c1, hc1, hfirst, ⟨_, ht.p1.symm⟩, _, ht.c1.symm⟩
  · exact ⟨hc, t.p2, hp2, t.p3, hp3, hsecond, ⟨_, ht.p2⟩, _, ht.p3⟩
  · exact absurd (by simp [Tile.outputs]) hout
  · exact absurd (by simp [Tile.outputs]) hout
  · exact ⟨h₃, t.p2, hp2, t.p3, hp3, hsecond, ⟨_, ht.p2.symm⟩, _, ht.p3.symm⟩
  · exact absurd (by simp [Tile.outputs]) hout

theorem IsTile.reader_mem (h : BinaryNetlist nl) (ht : IsTile nl t) (hg : g ∈ t.ids)
    (hout : g.out ∉ t.outputs) {p : PinRef} (hp : nl.ConsumerPin p g.out) :
    ∃ r ∈ t.ids, ∃ m, Names nl r m ∧ m.id = p.id := by
  obtain ⟨hcount, r, hr, r', hr', hne, ⟨b, hin⟩, b', hin'⟩ := ht.exists_readers hg hout
  obtain ⟨m, hm⟩ := names_of_mem (ht.mem r hr)
  obtain ⟨m', hm'⟩ := names_of_mem (ht.mem r' hr')
  obtain ⟨j, hj⟩ := hm.reader h.sound hin
  obtain ⟨j', hj'⟩ := hm'.reader h.sound hin'
  have hpins : (⟨m.id, j⟩ : PinRef) ≠ ⟨m'.id, j'⟩ := fun heq =>
    hne (h.sound.pos_eq_of_id hm.getModel hm'.getModel (congrArg PinRef.id heq))
  rcases eq_or_eq_of_fanCount_two hcount hj hj' hpins hp with rfl | rfl
  · exact ⟨r, hr, m, hm, rfl⟩
  · exact ⟨r', hr', m', hm', rfl⟩

variable {rank : NodeId → Nat}

theorem IsTile.rank_pos (ht : IsTile nl t) (hg : g ∈ t.ids)
    (hrank : LowRank nl rank) : 0 < rank g.out := by
  obtain ⟨m, hm⟩ := names_of_mem (ht.mem g hg)
  exact Nat.zero_lt_of_lt ((hm.gate2 (.inl ⟨rfl, rfl⟩)).rank_lt (symmetricFn_modelKind g.k) hrank.ranked).1

theorem rank_of_primary (h : BinaryNetlist nl) (hn : isPrimaryInputNode nl n = true)
    (hrank : LowRank nl rank) : rank n = 0 :=
  hrank.zero n fun e he htarget => absurd ⟨e, he, htarget⟩ (not_driven_of_primary h hn)

theorem IsTile.mem_ids_of_outputs (hn : n ∈ t.outputs) : ∃ g ∈ t.ids, g.out = n := by
  simp only [Tile.outputs, mem_cons, not_mem_nil, or_false] at hn
  rcases hn with rfl | rfl | rfl | rfl
  · exact ⟨t.p0, by simp [Tile.ids], rfl⟩
  · exact ⟨t.p1, by simp [Tile.ids], rfl⟩
  · exact ⟨t.p2, by simp [Tile.ids], rfl⟩
  · exact ⟨t.p3, by simp [Tile.ids], rfl⟩

end Inside

/-! ## The netlist after the run -/

section Final

variable {nl cur : Netlist} {ts : List Tile} {dead : List ModelPos} {deleted : List Nat} {news : List ModelBase}
  (hp : Progress nl ts dead cur deleted news)

include hp

variable {b : ModelBase} {n : NodeId} {v : NodeId → Bool}

theorem Progress.tile_of_new (hb : b ∈ news) : ∃ t ∈ ts, b.model = t.model := by
  obtain ⟨i, hi, rfl⟩ := mem_iff_getElem.mp hb
  have hlen := hp.news.length_eq
  exact ⟨ts[i], getElem_mem _, hp.news.get hi (by omega)⟩

variable {t : Tile}

theorem Progress.new_of_tile (ht : t ∈ ts) : ∃ b ∈ news, b.model = t.model := by
  obtain ⟨i, hi, rfl⟩ := mem_iff_getElem.mp ht
  have hlen := hp.news.length_eq
  exact ⟨news[i], getElem_mem _, hp.news.get (by omega) hi⟩

theorem Progress.mem_deleted {id : Nat} : id ∈ deleted ↔ ∃ t ∈ ts, ∃ g ∈ t.ids, ∃ m, Names nl g m ∧ m.id = id := by
  rw [hp.deleted]
  constructor
  · rintro ⟨pos, hpos, b, hb, rfl⟩
    obtain ⟨t, ht, g, hg, rfl⟩ := (hp.dead pos).mp hpos
    obtain ⟨m, hm⟩ := names_of_mem ((hp.isTile t ht).mem g hg)
    cases hb.symm.trans hm.getModel
    exact ⟨t, ht, g, hg, b, hm, rfl⟩
  · rintro ⟨t, ht, g, hg, m, hm, rfl⟩
    exact ⟨g.pos, (hp.dead _).mpr ⟨t, ht, g, hg, rfl⟩, m, hm.getModel, rfl⟩

section

variable (h : BinaryNetlist nl)
include h

theorem Progress.eq_of_out {t' : Tile} (ht : t ∈ ts) (ht' : t' ∈ ts) {g g' : Gate}
    (hg : g ∈ t.ids) (hg' : g' ∈ t'.ids) (hout : g.out = g'.out) : t = t' ∧ g = g' := by
  obtain ⟨m, hm⟩ := names_of_mem ((hp.isTile t ht).mem g hg)
  obtain ⟨m', hm'⟩ := names_of_mem ((hp.isTile t' ht').mem g' hg')
  obtain rfl := hm.eq_of_out h hm' hout
  have hpos : g.pos = g'.pos := h.sound.pos_eq_of_id hm.getModel hm'.getModel rfl
  have hsame : t = t' := by
    by_contra hne
    have : Std.Symm (Function.onFun List.Disjoint fun t : Tile => t.ids.map (·.pos)) :=
      ⟨fun _ _ hd => List.Disjoint.symm hd⟩
    have hdisjoint := (nodup_flatMap.mp hp.nodup).2.forall ht ht' hne
    exact hdisjoint (mem_map_of_mem hg) (hpos ▸ mem_map_of_mem hg')
  subst hsame
  exact ⟨rfl, inj_on_of_nodup_map (hp.isTile t ht).nodup hg hg' hpos⟩

omit h in
theorem Progress.pin_new (hb : b ∈ news) (hmodel : b.model = t.model) {k : Nat}
    (hk : b.model.pins[k]? = some (some n)) :
    (n ∈ t.inputs ∧ cur.pinOut ⟨b.id, k⟩ = false) ∨ (n ∈ t.outputs ∧ cur.pinOut ⟨b.id, k⟩ = true) := by
  have hlt := (List.getElem?_eq_some_iff.mp hk).1
  have hpin : cur.pinOut ⟨b.id, k⟩ = decide (4 ≤ k) := by
    rw [hp.rewired.sound.pinOut_eq (hp.rewired.mem_bases_new hb), decide_eq_true hlt, Bool.true_and, hmodel]
    rfl
  have hpins : b.model.pins = (t.inputs ++ t.outputs).map some := by rw [hmodel]; rfl
  rw [hpins, getElem?_map] at hk
  obtain ⟨x, hx, heq⟩ := Option.map_eq_some_iff.mp hk
  cases heq
  rw [hpin]
  by_cases hle : 4 ≤ k
  · rw [getElem?_append_right hle] at hx
    exact .inr ⟨List.mem_of_getElem? hx, decide_eq_true hle⟩
  · rw [getElem?_append_left (show k < t.inputs.length by simp [Tile.inputs]; omega)] at hx
    exact .inl ⟨List.mem_of_getElem? hx, decide_eq_false hle⟩

omit h in
theorem Progress.driverPin_new (hb : b ∈ news) (hmodel : b.model = t.model) (hn : n ∈ t.outputs) :
    ∃ k, cur.DriverPin ⟨b.id, k⟩ n := by
  obtain ⟨j, hj⟩ := mem_iff_getElem?.mp hn
  have hlt : j < 4 := (List.getElem?_eq_some_iff.mp hj).1
  have hmem := hp.rewired.mem_bases_new hb
  have hpins : b.model.pins = (t.inputs ++ t.outputs).map some := by rw [hmodel]; rfl
  have hlen : b.model.pins.length = 8 := by rw [hpins]; rfl
  refine ⟨4 + j, ?_, (hp.rewired.sound.points_iff_pin hmem _ _).mpr ?_⟩
  · rw [hp.rewired.sound.pinOut_eq hmem, hlen, decide_eq_true (by omega), Bool.true_and, hmodel]
    exact decide_eq_true (Nat.le_add_right _ _)
  · rw [hpins, getElem?_map, getElem?_append_right (show t.inputs.length ≤ 4 + j from Nat.le_add_right _ _),
      show 4 + j - t.inputs.length = j from Nat.add_sub_cancel_left 4 j, hj]
    rfl

theorem Progress.lost_iff (n : NodeId) :
    ((∃ q, nl.DriverPin q n) ∧ ¬ ∃ q, cur.DriverPin q n) ↔
      (∃ t ∈ ts, ∃ g ∈ t.ids, g.out = n) ∧ ∀ t ∈ ts, n ∉ t.outputs := by
  rw [hp.rewired.lost_iff h.sound h.single]
  refine and_congr ⟨?_, ?_⟩ ⟨fun hnone t ht hn => ?_, fun hne b hb k hdriver => ?_⟩
  · rintro ⟨b, hb, hdel, k, hdriver⟩
    obtain ⟨t, ht, g, hg, m, hm, hid⟩ := hp.mem_deleted.mp hdel
    obtain rfl := h.sound.eq_of_id hm.mem hb hid
    refine ⟨t, ht, g, hg, ?_⟩
    -- A gate has one output pin.
    have hpin := (h.sound.points_iff_pin hb k n).mp hdriver.2
    have hout := hdriver.1
    rw [h.sound.pinOut_eq hb, hm.kind, hm.pins] at hout
    rw [hm.pins] at hpin
    have hk : k = 2 := by
      cases hgk : g.k <;> simp [hgk, Kind.modelKind, isOutputPin] at hout <;> omega
    rw [hk] at hpin
    simpa using hpin
  · rintro ⟨t, ht, g, hg, rfl⟩
    obtain ⟨m, hm⟩ := names_of_mem ((hp.isTile t ht).mem g hg)
    exact ⟨m, hm.mem, hp.mem_deleted.mpr ⟨t, ht, g, hg, m, hm, rfl⟩, 2, hm.driver h.sound⟩
  · obtain ⟨b, hb, hmodel⟩ := hp.new_of_tile ht
    obtain ⟨k, hk⟩ := hp.driverPin_new hb hmodel hn
    exact hnone b hb k hk
  · obtain ⟨t, ht, hmodel⟩ := hp.tile_of_new hb
    have hpin := (hp.rewired.sound.points_iff_pin (hp.rewired.mem_bases_new hb) _ _).mp hdriver.2
    rcases hp.pin_new hb hmodel hpin with ⟨-, hfalse⟩ | ⟨hout, -⟩
    · rw [hdriver.1] at hfalse
      cases hfalse
    · exact hne t ht hout

theorem Progress.consumer_cases {p : PinRef} (hpin : cur.ConsumerPin p n) :
    (nl.ConsumerPin p n ∧ p.id ∉ deleted) ∨ isPrimaryInputNode nl n = true := by
  rcases hp.rewired.points_cases hpin.2 with ⟨b, hb, hd, hid⟩ | ⟨b, hb, hid, hk⟩
  · have hpb : p = ⟨b.id, p.k⟩ := by rw [hid]
    rw [hpb] at hpin ⊢
    obtain ⟨hout, x, hx, rfl⟩ := (hp.rewired.consumerPin_old h.sound hb hd _ _).mp hpin
    exact .inl ⟨⟨hout, (h.sound.points_iff_pin hb _ _).mpr hx⟩, hd⟩
  · obtain ⟨t, ht, hmodel⟩ := hp.tile_of_new hb
    rcases hp.pin_new hb hmodel hk with ⟨hin, -⟩ | ⟨-, htrue⟩
    · exact .inr ((hp.isTile t ht).primary n hin)
    · rw [hid, hpin.1] at htrue
      cases htrue

theorem Progress.not_consumer (hlost : (∃ q, nl.DriverPin q n) ∧ ¬ ∃ q, cur.DriverPin q n)
    (p : PinRef) : ¬ cur.ConsumerPin p n := by
  intro hpin
  obtain ⟨⟨t, ht, g, hg, rfl⟩, hne⟩ := (hp.lost_iff h n).mp hlost
  rcases hp.consumer_cases h hpin with ⟨hold, hd⟩ | hprimary
  · obtain ⟨r, hr, m, hm, hid⟩ := (hp.isTile t ht).reader_mem h hg (hne t ht) hold
    exact hd (hp.mem_deleted.mpr ⟨t, ht, r, hr, m, hm, hid⟩)
  · obtain ⟨m, hm⟩ := names_of_mem ((hp.isTile t ht).mem g hg)
    exact out_ne_primary h hm hprimary rfl

theorem Progress.pinned : ∀ b ∈ cur.bases, WellPinned boolFns b :=
  hp.rewired.pinned ignoresPins_boolFns h.pinned fun b hb => by
    obtain ⟨t, -, hmodel⟩ := hp.tile_of_new hb
    exact wellPinned_mul2 hmodel

theorem Progress.not_driven_of_primary (hn : isPrimaryInputNode nl n = true) :
    ¬ Driven (system boolFns cur) n := by
  rintro ⟨e, he, rfl⟩
  rcases hp.rewired.system_cases h.sound ignoresPins_boolFns h.pinned he with ⟨b, hb, -, deps, f, hold, -⟩ | ⟨b, hb, he⟩
  · exact Mul2.not_driven_of_primary h hn ⟨_, mem_system.mpr ⟨b, hb, hold⟩, rfl⟩
  · obtain ⟨t, ht, hmodel⟩ := hp.tile_of_new hb
    obtain ⟨-, k, hk, -⟩ := mem_pinEquations_mul2 hmodel he
    obtain ⟨g, hg, hout⟩ := IsTile.mem_ids_of_outputs (List.mem_of_getElem? hk)
    obtain ⟨m, hm⟩ := names_of_mem ((hp.isTile t ht).mem g hg)
    exact out_ne_primary h hm hn hout

end

/-! ## The values after the run -/

/-- The values of a netlist with the third outputs of the tiles as the multipliers compute them. -/
def mulValues (ts : List Tile) (v : NodeId → Bool) (n : NodeId) : Bool :=
  match ts.find? fun t => t.p2.out = n with
  | some t => t.bit 2 v
  | none => v n

theorem Progress.mulValues_eq (hv : Solves (system boolFns nl) v) (hn : ∀ t ∈ ts, t.SharesOperand → t.p2.out ≠ n) :
    mulValues ts v n = v n := by
  unfold mulValues
  cases hfind : ts.find? fun t => t.p2.out = n with
  | none => rfl
  | some t =>
    have ht := mem_of_find?_eq_some hfind
    have hout : t.p2.out = n := by simpa using find?_some hfind
    have hbit := ((hp.isTile t ht).bits hv).2.2.1 fun hs => hn t ht hs hout
    rw [← hout, hbit]

section

variable (h : BinaryNetlist nl)
include h

theorem Progress.mulValues_third (ht : t ∈ ts) :
    mulValues ts v t.p2.out = t.bit 2 v := by
  unfold mulValues
  cases hfind : ts.find? fun t' => t'.p2.out = t.p2.out with
  | none => exact absurd (find?_eq_none.mp hfind t ht) (by simp)
  | some t' =>
    have hout : t'.p2.out = t.p2.out := by simpa using find?_some hfind
    obtain ⟨rfl, -⟩ := hp.eq_of_out h (mem_of_find?_eq_some hfind) ht (by simp [Tile.ids])
      (by simp [Tile.ids]) hout
    rfl

theorem Progress.mulValues_primary (hn : isPrimaryInputNode nl n = true) :
    mulValues ts v n = v n := by
  unfold mulValues
  cases hfind : ts.find? fun t => t.p2.out = n with
  | none => rfl
  | some t =>
    have hout : t.p2.out = n := by simpa using find?_some hfind
    obtain ⟨m, hm⟩ := names_of_mem ((hp.isTile t (mem_of_find?_eq_some hfind)).mem t.p2 (by simp [Tile.ids]))
    exact absurd hout (out_ne_primary h hm hn)

theorem Progress.mulValues_tile (hv : Solves (system boolFns nl) v) (ht : t ∈ ts) {k : Nat}
    (hk : t.outputs[k]? = some n) :
    mulValues ts v n = t.bit k (mulValues ts v) := by
  obtain ⟨h₀, h₁, -, h₃⟩ := (hp.isTile t ht).bits hv
  have hbit : ∀ k, t.bit k (mulValues ts v) = t.bit k v := by
    have hin : ∀ x ∈ t.inputs, mulValues ts v x = v x := fun x hx =>
      hp.mulValues_primary h ((hp.isTile t ht).primary x hx)
    intro k
    rw [Tile.bit, Tile.bit, hin t.aa0 (by simp [Tile.inputs]), hin t.aa1 (by simp [Tile.inputs]),
      hin t.bb0 (by simp [Tile.inputs]), hin t.bb1 (by simp [Tile.inputs])]
  have hkeep : ∀ g ∈ t.ids, g ≠ t.p2 → mulValues ts v g.out = v g.out := by
    intro g hg hne
    refine hp.mulValues_eq hv fun t' ht' _ hout => hne ?_
    obtain ⟨rfl, heq⟩ := hp.eq_of_out h ht' ht (by simp [Tile.ids]) hg hout
    exact heq.symm
  have hnodup := (hp.isTile t ht).nodup
  simp only [Tile.ids, map_cons, map_nil, nodup_cons, mem_cons, not_or] at hnodup
  have hne : ∀ g : Gate, g.pos ≠ t.p2.pos → g ≠ t.p2 := fun g hpos heq => hpos (congrArg Gate.pos heq)
  rw [hbit]
  match k with
  | 0 =>
    cases hk
    rw [hkeep t.p0 (by simp [Tile.ids]) (hne _ (Ne.symm hnodup.2.2.2.2.1.2.2.1)), h₀]
  | 1 =>
    cases hk
    rw [hkeep t.p1 (by simp [Tile.ids]) (hne _ hnodup.1.2.2.2.1), h₁]
  | 2 =>
    cases hk
    exact hp.mulValues_third h ht
  | 3 =>
    cases hk
    rw [hkeep t.p3 (by simp [Tile.ids]) (hne _ (Ne.symm hnodup.2.2.2.2.1.1)), h₃]
  | k + 4 => simp [Tile.outputs] at hk

variable {ports : List NodeId}

/-- A run whose lost nodes are no ports, and after which no changed third output is read or a
port, keeps the function. -/
theorem Progress.keepsFunction
    (hports : ∀ n ∈ ports, ¬ ((∃ q, nl.DriverPin q n) ∧ ¬ ∃ q, cur.DriverPin q n))
    (hthird : ∀ t ∈ ts, t.SharesOperand → t.p2.out ∉ ports ∧ ¬ ∃ p, nl.ConsumerPin p t.p2.out) :
    KeepsFunction ports nl cur := by
  intro free
  obtain ⟨rank, hlow⟩ := h.exists_lowRank
  have hreaders : ReadersDriven ports nl cur := by
    intro n hobs hdriver
    by_contra hnone
    rcases hobs.2 with hport | ⟨p, hpin⟩
    · exact hports n hport ⟨hdriver, hnone⟩
    · exact hp.not_consumer h ⟨hdriver, hnone⟩ p hpin
  have hranked := hp.rewired.ranked h.sound ignoresPins_boolFns h.pinned hlow.ranked (by simp) (by
    intro b hb e he d hd
    obtain ⟨t, ht, hmodel⟩ := hp.tile_of_new hb
    obtain ⟨hdeps, k, hk, -⟩ := mem_pinEquations_mul2 hmodel he
    rw [hdeps] at hd
    obtain ⟨g, hg, hout⟩ := IsTile.mem_ids_of_outputs (List.mem_of_getElem? hk)
    rw [rank_of_primary h ((hp.isTile t ht).primary d hd) hlow, ← hout]
    exact (hp.isTile t ht).rank_pos hg hlow)
  -- A node with a reader that is left is no changed third output.
  have hread : ∀ {v : NodeId → Bool}, Solves (system boolFns nl) v → ∀ p n, nl.ConsumerPin p n →
      mulValues ts v n = v n := by
    intro v hv p n hpin
    refine hp.mulValues_eq hv fun t ht hs hout => (hthird t ht hs).2 ⟨p, ?_⟩
    rw [hout]
    exact hpin
  refine hp.rewired.sameFunction h.sound h.single ignoresPins_boolFns h.pinned (fun b hb => ?_) (fun b hb => ?_)
    hranked hreaders fun v hv => ⟨mulValues ts v, ?_, ?_, ?_⟩
  · obtain ⟨t, -, hmodel⟩ := hp.tile_of_new hb
    exact wellPinned_mul2 hmodel
  · obtain ⟨t, -, hmodel⟩ := hp.tile_of_new hb
    obtain ⟨fns, hfn, -⟩ := boolFns_mul2 hmodel
    simp [hfn]
  · refine hp.rewired.solves_of_left h.sound ignoresPins_boolFns h.pinned ?_ (by simp) ?_
    · intro b hb hd e he
      have htarget : mulValues ts v e.target = v e.target := by
        refine hp.mulValues_eq hv.solves fun t ht _ hout => hd ?_
        obtain ⟨j, hj, hjout⟩ := (h.pinned b hb).target he
        have hdriver : nl.DriverPin ⟨b.id, j⟩ e.target := by
          refine ⟨?_, (h.sound.points_iff_pin hb _ _).mpr hj⟩
          rw [h.sound.pinOut_eq hb, decide_eq_true (List.getElem?_eq_some_iff.mp hj).1, hjout]
          rfl
        obtain ⟨m, hm⟩ := names_of_mem ((hp.isTile t ht).mem t.p2 (by simp [Tile.ids]))
        have hsame := congrArg PinRef.id (h.single _ _ _ (hout ▸ hm.driver h.sound) hdriver)
        exact hp.mem_deleted.mpr ⟨t, ht, t.p2, by simp [Tile.ids], m, hm, hsame⟩
      rw [htarget, hv.solves e (mem_system.mpr ⟨b, hb, he⟩)]
      refine e.reads v _ fun d hd' => ?_
      obtain ⟨j, hj, hjout⟩ := (h.pinned b hb).dep he hd'
      refine (hread hv.solves ⟨b.id, j⟩ d ⟨?_, (h.sound.points_iff_pin hb _ _).mpr hj⟩).symm
      rw [h.sound.pinOut_eq hb, hjout, Bool.and_false]
    · intro b hb e he
      obtain ⟨t, ht, hmodel⟩ := hp.tile_of_new hb
      obtain ⟨-, k, hk, hfn⟩ := mem_pinEquations_mul2 hmodel he
      rw [hfn]
      exact hp.mulValues_tile h hv.solves ht hk
  · rintro n ⟨-, hport | ⟨p, hpin⟩⟩
    · exact hp.mulValues_eq hv.solves fun t ht hs hout => (hthird t ht hs).1 (hout ▸ hport)
    · rcases hp.consumer_cases h hpin with ⟨hold, -⟩ | hprimary
      · exact hread hv.solves p n hold
      · exact hp.mulValues_primary h hprimary
  · intro n hn
    refine .inr ?_
    rw [hp.mulValues_eq hv.solves, hv.rest n]
    · rintro ⟨e, he, rfl⟩
      exact hn (isSome_of_mem_system h.sound h.pinned he).1
    · rintro t ht - rfl
      obtain ⟨m, hm⟩ := names_of_mem ((hp.isTile t ht).mem t.p2 (by simp [Tile.ids]))
      exact hn (h.sound.isSome_node? hm.mem (by simp [hm.pins]))

theorem Progress.not_keepsFunction (ht : t ∈ ts) (hs : t.SharesOperand)
    (hobs : t.p2.out ∈ ports ∨ ∃ p, nl.ConsumerPin p t.p2.out) :
    ¬ KeepsFunction ports nl cur := by
  intro hkeeps
  have htile := hp.isTile t ht
  obtain ⟨m, hm⟩ := names_of_mem (htile.mem t.p2 (by simp [Tile.ids]))
  obtain ⟨hin0, hin1⟩ := htile.third_primary
  -- The shared operand is `1`, every other free node is `0`.
  let free (n : NodeId) : Bool := decide (n = t.t3.in0)
  obtain ⟨rank, hrank⟩ := h.acyclic
  obtain ⟨v, hv⟩ : ∃ v, Settled (system boolFns nl) free v :=
    exists_settled hrank fun e he f hf => h.eq_of_target he hf
  have htrue : v t.t3.in0 = true := by
    rw [hv.rest _ (Mul2.not_driven_of_primary h hin0)]
    exact decide_eq_true rfl
  have hfalse : v t.t3.in1 = false := by
    rw [hv.rest _ (Mul2.not_driven_of_primary h hin1)]
    exact decide_eq_false hs.2.2
  obtain ⟨hold, hbit⟩ := htile.bit_ne hs hv.solves htrue hfalse
  obtain ⟨v', hv', -, heq⟩ := hkeeps free v hv
  have hobserved : Observed ports nl cur t.p2.out := by
    refine ⟨h.sound.isSome_node? hm.mem (by simp [hm.pins]), hobs.imp_right fun ⟨p, hpin⟩ => ⟨p, ?_⟩⟩
    -- No gate of a tile reads the output of a `XOR`.
    obtain ⟨b, hb, hid, hk⟩ := hpin.2
    have hpb : p = ⟨b.id, p.k⟩ := by rw [hid]
    rw [hpb] at hpin ⊢
    refine (hp.rewired.consumerPin_old h.sound hb ?_ _ _).mpr ⟨hpin.1, _, hk, rfl⟩
    intro hdel
    obtain ⟨t', ht', g, hg, m', hm', hid'⟩ := hp.mem_deleted.mp hdel
    obtain rfl := h.sound.eq_of_id hm'.mem hb hid'
    have hread : t.p2.out = g.in0 ∨ t.p2.out = g.in1 := by
      have hout := hpin.1
      rw [h.sound.pinOut_eq hb, hm'.kind, hm'.pins] at hout
      rw [hm'.pins] at hk
      match hpk : p.k with
      | 0 => exact .inl (by simpa [hpk, eq_comm] using hk)
      | 1 => exact .inr (by simpa [hpk, eq_comm] using hk)
      | 2 =>
        rw [hpk] at hout
        cases hgk : g.k <;> simp [hgk, Kind.modelKind, isOutputPin] at hout
      | j + 3 => simp [hpk] at hk
    rcases (hp.isTile t' ht').input_cases hg hread with hprimary | ⟨g', hg', hand, hout⟩
    · exact out_ne_primary h hm hprimary rfl
    · obtain ⟨-, heq'⟩ := hp.eq_of_out h ht' ht hg' (show t.p2 ∈ t.ids by simp [Tile.ids]) hout
      rw [heq', htile.xors.2] at hand
      cases hand
  have hnew := heq _ hobserved
  -- The multiplier reads what it read before.
  obtain ⟨b, hb, hmodel⟩ := hp.new_of_tile ht
  obtain ⟨e, he, htarget, hfn⟩ := exists_equation_mul2 (k := 2) hmodel (rfl : t.outputs[2]? = some t.p2.out)
  have hval := hv'.solves e (mem_system.mpr ⟨b, hp.rewired.mem_bases_new hb, he⟩)
  have hin : ∀ x ∈ t.inputs, v' x = v x := by
    intro x hx
    have hprimary := htile.primary x hx
    rw [hv'.rest x (hp.not_driven_of_primary h hprimary), hv.rest x (Mul2.not_driven_of_primary h hprimary)]
  rw [htarget, hfn, hnew, hold, Tile.bit, hin t.aa0 (by simp [Tile.inputs]), hin t.aa1 (by simp [Tile.inputs]),
    hin t.bb0 (by simp [Tile.inputs]), hin t.bb1 (by simp [Tile.inputs])] at hval
  rw [Tile.bit, ← hval] at hbit
  cases hbit

end

end Final

/-- The pass keeps the function exactly when no port is inside a tile and no one sees the third
output of a tile whose third product shares its operand. -/
theorem mul2_keepsFunction_iff (topPortNodes : List NodeId) (nl : Netlist) (h : BinaryNetlist nl) :
    KeepsFunction topPortNodes nl (optimizeMul2InPeNetlist nl) ↔
      (∀ n ∈ topPortNodes, ¬ Internal nl n) ∧ ∀ t ∈ tiles nl, t.SharesOperand →
        t.p2.out ∉ topPortNodes ∧ ¬ ∃ p, nl.ConsumerPin p t.p2.out := by
  obtain ⟨dead, deleted, news, hp⟩ := exists_ran h
  constructor
  · intro hkeeps
    refine ⟨fun n hport hinternal => ?_, fun t ht hs => ⟨fun hport => ?_, fun hread => ?_⟩⟩
    · obtain ⟨-, hlost⟩ := (hp.lost_iff h n).mpr hinternal
      obtain ⟨⟨t, ht, g, hg, rfl⟩, -⟩ := hinternal
      obtain ⟨m, hm⟩ := names_of_mem ((hp.isTile t ht).mem g hg)
      refine h.not_keepsFunction_of_lost ⟨h.sound.isSome_node? hm.mem (by simp [hm.pins]), .inl hport⟩ ?_ ?_ hkeeps
      · obtain ⟨fn, hfn, -⟩ := boolFns_symmetric (hm.kind ▸ symmetricFn_modelKind g.k)
        exact driven_of_driverPin h.sound hm.mem (h.pinned m hm.mem) hfn rfl (hm.driver h.sound)
      · intro hdriven
        obtain ⟨b, -, k, -, hdriver⟩ := exists_driverPin_of_driven hp.rewired.sound (hp.pinned h) hdriven
        exact hlost ⟨_, hdriver⟩
    · exact hp.not_keepsFunction h ht hs (.inl hport) hkeeps
    · exact hp.not_keepsFunction h ht hs (.inr hread) hkeeps
  · rintro ⟨hports, hthird⟩
    exact hp.keepsFunction h (fun n hn hlost => hports n hn ((hp.lost_iff h n).mp hlost)) hthird

/-- A tile over the three inputs `x`, `p` and `y`, whose products are `x & p`, `x & y`, `x & y`
and `p & y`. -/
def sharedOperandTile : Netlist := .ofModels 11 [.port .input [0] "x" [.digital .L],
  .port .input [1] "p" [.digital .L], .port .input [2] "y" [.digital .L], .on .and [0, 1, 3],
  .on .and [0, 2, 4], .on .xor [3, 4, 5], .on .and [3, 4, 6], .on .and [0, 2, 7],
  .on .xor [7, 6, 8], .on .and [7, 6, 9], .on .and [1, 2, 10], .port .output [10] "r0" [],
  .port .output [5] "r1" [], .port .output [8] "r2" [], .port .output [9] "r3" []]

theorem binaryNetlist_sharedOperandTile : BinaryNetlist sharedOperandTile :=
  binaryNetlist_of_check NodeId.index
    (by decide +kernel) (by decide +kernel) (by decide +kernel)

theorem mul2_keepsFunction_sharedOperand :
    KeepsFunction [.node 10] sharedOperandTile (optimizeMul2InPeNetlist sharedOperandTile) ↔
      (∀ n ∈ [NodeId.node 10], ¬ Internal sharedOperandTile n) ∧
        ∀ t ∈ tiles sharedOperandTile, t.SharesOperand →
          t.p2.out ∉ [NodeId.node 10] ∧ ¬ ∃ p, sharedOperandTile.ConsumerPin p t.p2.out :=
  mul2_keepsFunction_iff [.node 10] sharedOperandTile binaryNetlist_sharedOperandTile

/-- The multiplier squares `x`: at `x = 1` and `y = 0` the third output is `1` and was `0`. -/
theorem mul2_sharedOperand_square : BinaryNetlist sharedOperandTile ∧
    ¬ KeepsFunction [] sharedOperandTile (optimizeMul2InPeNetlist sharedOperandTile) := by
  have h := binaryNetlist_sharedOperandTile
  refine ⟨h, ?_⟩
  obtain ⟨dead, deleted, news, hp⟩ := exists_ran h
  have htile : ((tiles sharedOperandTile).any fun t => decide (t.SharesOperand ∧ t.p2.out = .node 8)) = true := by
    decide +kernel
  obtain ⟨t, ht, hcond⟩ := List.any_eq_true.mp htile
  obtain ⟨hs, hout⟩ := of_decide_eq_true hcond
  refine hp.not_keepsFunction h ht hs (.inr ⟨⟨13, 0⟩, ?_⟩)
  rw [hout]
  exact ⟨by decide +kernel, mem_allPins.mp (by decide +kernel)⟩

end Mul2

end PhyEngine
