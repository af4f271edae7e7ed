import PhyEngine.Library.Arena
import PhyEngine.Library.AssocMap
import PhyEngine.Verilog.Exec

/-!
# The gates that synthesis builds

`const_node`, the gate functions, `mux2` and `expr_in_env`. The netlist is the list of its nodes
in order of creation, each with what drives it; a failed step is `none`. The results of gates are
never `Z`, so a node with that value is the constant `Z`.
-/

namespace PhyEngine.Verilog

open LogicT List

/-- The gates of the synthesis, with the nodes of their inputs. -/
inductive Gate where
  | not (a : Nat)
  | and (a b : Nat)
  | or (a b : Nat)
  | xor (a b : Nat)
  | xnor (a b : Nat)
  | isUnknown (a : Nat)
  | caseEq (a b : Nat)
  deriving DecidableEq

/-- A node by its driver. The output of a delay is a state, as the nets of the design are. -/
inductive NodeDef where
  | net
  | const (v : LogicT)
  | gate (g : Gate)
  | delay (a : Nat) (ticks : UInt64)
  deriving DecidableEq

def Gate.output (vs : List LogicT) : Gate → LogicT
  | not a => logicNot (vs.getD a .X)
  | and a b => logicAnd (vs.getD a .X) (vs.getD b .X)
  | or a b => logicOr (vs.getD a .X) (vs.getD b .X)
  | xor a b => logicXor (vs.getD a .X) (vs.getD b .X)
  | xnor a b => logicNot (logicXor (vs.getD a .X) (vs.getD b .X))
  | isUnknown a => ofBool (vs.getD a .X).isUnknown
  | caseEq a b => LogicT.caseEq (vs.getD a .X) (vs.getD b .X)

def NodeDef.value (ρ : Nat → LogicT) (vs : List LogicT) : NodeDef → LogicT
  | net | delay _ _ => ρ vs.length
  | const v => v
  | gate g => g.output vs

/-- The part of `synth_context` that gates use. Every constant is one node. -/
structure GateNet where
  nodes : List NodeDef := []
  constNodes : List (LogicT × Nat) := []
  const_iff : ∀ v i, (v, i) ∈ constNodes ↔ nodes[i]? = some (.const v) := by simp

def GateNet.value (ρ : Nat → LogicT) (g : GateNet) (n : Nat) : LogicT :=
  (Arena.vals (NodeDef.value ρ) g.nodes).getD n .X

abbrev SynthM := StateT GateNet Option

def GateNet.tryGetConst (g : GateNet) (n : Nat) : Option LogicT :=
  (g.constNodes.find? fun e => e.2 = n).map Prod.fst

def GateNet.addDriven (g : GateNet) (d : NodeDef) (hd : ∀ v, d ≠ .const v) : GateNet where
  nodes := g.nodes ++ [d]
  constNodes := g.constNodes
  const_iff v i := by
    rw [g.const_iff]
    rcases Nat.lt_trichotomy i g.nodes.length with hi | rfl | hi
    · rw [List.getElem?_append_left hi]
    · simp [hd v]
    · simp [List.getElem?_append, Nat.not_lt_of_lt hi, Nat.sub_ne_zero_of_lt hi]

def GateNet.addConst (g : GateNet) (v : LogicT) : GateNet where
  nodes := g.nodes ++ [.const v]
  constNodes := (v, g.nodes.length) :: g.constNodes
  const_iff w i := by
    rw [List.mem_cons, g.const_iff]
    rcases Nat.lt_trichotomy i g.nodes.length with hi | rfl | hi
    · rw [List.getElem?_append_left hi]
      simp [Nat.ne_of_lt hi]
    · simp [eq_comm]
    · simp [List.getElem?_append, Nat.not_lt_of_lt hi, Nat.sub_ne_zero_of_lt hi, Nat.ne_of_gt hi]

def makeGate (d : Gate) : SynthM Nat := fun g => some (g.nodes.length, g.addDriven (.gate d) (by simp))

def tickDelay (a : Nat) (ticks : UInt64) : SynthM Nat :=
  if ticks = 0 then pure a
  else fun g => some (g.nodes.length, g.addDriven (.delay a ticks) (by simp))

def constNode (v : LogicT) : SynthM Nat := fun g =>
  match g.constNodes.lookup v with
  | some n => some (n, g)
  | none => some (g.nodes.length, g.addConst v)

def gateNot (a : Nat) : SynthM Nat := do
  match (← get).tryGetConst a with
  | some v => constNode (logicNot v)
  | none => makeGate (.not a)

/-- `gate_and` and `gate_or`: one constant decides the output, the other one drops out. -/
def gateAbsorb (absorbing : LogicT) (f : LogicT → LogicT → LogicT) (mk : Nat → Nat → Gate) (a b : Nat) :
    SynthM Nat := do
  let g ← get
  let other (v : LogicT) (n : Nat) : SynthM Nat :=
    if v.isUnknown then makeGate (mk a b)
    else if v = absorbing then constNode absorbing
    else return n
  match g.tryGetConst a, g.tryGetConst b with
  | some av, some bv => constNode (f av bv)
  | some av, none => other av b
  | none, some bv => other bv a
  | none, none => makeGate (mk a b)

variable (a b : Nat)

def gateAnd : SynthM Nat := gateAbsorb .L logicAnd .and a b

def gateOr : SynthM Nat := gateAbsorb .H logicOr .or a b

/-- `gate_xor` and `gate_xnor`: one constant drops out, the other one inverts. -/
def gateParity (unit : LogicT) (f : LogicT → LogicT → LogicT) (mk : Nat → Nat → Gate) (a b : Nat) :
    SynthM Nat := do
  let g ← get
  let other (v : LogicT) (n : Nat) : SynthM Nat :=
    if v.isUnknown then makeGate (mk a b)
    else if v = unit then return n
    else gateNot n
  match g.tryGetConst a, g.tryGetConst b with
  | some av, some bv => constNode (f av bv)
  | some av, none => other av b
  | none, some bv => other bv a
  | none, none => makeGate (mk a b)

def gateXor : SynthM Nat := gateParity .L logicXor .xor a b

def gateXnor : SynthM Nat := gateParity .H (fun v w => logicNot (logicXor v w)) .xnor a b

def gateIsUnknown (assumeBinaryInputs : Bool) (a : Nat) : SynthM Nat := do
  if assumeBinaryInputs then constNode .L
  else
    match (← get).tryGetConst a with
    | some v => constNode (ofBool v.isUnknown)
    | none => makeGate (.isUnknown a)

def gateCaseEq : SynthM Nat := do
  let g ← get
  if a = b then constNode .H
  else
    match g.tryGetConst a, g.tryGetConst b with
    | some av, some bv => constNode (ofBool (av = bv))
    | _, _ => makeGate (.caseEq a b)

def mux2 (sel d0 d1 : Nat) : SynthM Nat := do
  if d0 = d1 then return d0
  else
    let nNot ← gateNot sel
    let nA ← gateAnd d1 sel
    let nB ← gateAnd d0 nNot
    gateOr nA nB

def GateNet.Has (ρ : Nat → LogicT) (g : GateNet) (n : Nat) (v : LogicT) : Prop :=
  n < g.nodes.length ∧ g.value ρ n = v

/-- The step succeeds and only adds nodes, with `Q` of its result. -/
def Gives {α : Type} (g : GateNet) (p : SynthM α) (Q : α → GateNet → Prop) : Prop :=
  ∃ a g', p g = some (a, g') ∧ g.nodes <+: g'.nodes ∧ Q a g'

variable {v : LogicT} {depth root r : Nat}

section

variable {ρ : Nat → LogicT} {α β : Type} {g g' : GateNet}

variable {n a b : Nat} {w : LogicT}

theorem GateNet.Has.mono (h : g.Has ρ n v) (hg : g.nodes <+: g'.nodes) :
    g'.Has ρ n v := by
  refine ⟨Nat.lt_of_lt_of_le h.1 hg.length_le, ?_⟩
  rw [← h.2]
  exact Arena.getD_vals_of_prefix (NodeDef.value ρ) hg h.1 .X

variable {Q : α → GateNet → Prop}

theorem gives_pure {a : α} (h : Q a g) : Gives g (pure a) Q :=
  ⟨a, g, rfl, prefix_rfl, h⟩

variable {P : α → GateNet → Prop} {p : SynthM α}

theorem Gives.bind {k : α → SynthM β} {Q : β → GateNet → Prop}
    (hp : Gives g p P) (hk : ∀ a g', g.nodes <+: g'.nodes → P a g' → Gives g' (k a) Q) :
    Gives g (p >>= k) Q := by
  obtain ⟨a, g₁, h₁, hle, hP⟩ := hp
  obtain ⟨b, g₂, h₂, hle', hQ⟩ := hk a g₁ hle hP
  refine ⟨b, g₂, ?_, hle.trans hle', hQ⟩
  change (p g).bind (fun x => k x.1 x.2) = some (b, g₂)
  rw [h₁]
  exact h₂

theorem Gives.imp (hp : Gives g p P)
    (h : ∀ a g', g.nodes <+: g'.nodes → P a g' → Q a g') : Gives g p Q := by
  obtain ⟨a, g', heq, hle, hP⟩ := hp
  exact ⟨a, g', heq, hle, h a g' hle hP⟩

theorem gives_get {k : GateNet → SynthM β} {Q : β → GateNet → Prop} (h : Gives g (k g) Q) :
    Gives g (get >>= k) Q := h

theorem GateNet.value_of_getElem? {d : NodeDef} (h : g.nodes[n]? = some d) :
    g.value ρ n = d.value ρ (Arena.vals (NodeDef.value ρ) (g.nodes.take n)) := by
  have hlt : n < g.nodes.length := (List.getElem?_eq_some_iff.mp h).1
  have hval : Arena.vals (NodeDef.value ρ) g.nodes = Arena.vals (NodeDef.value ρ) (g.nodes.take n ++
      d :: g.nodes.drop (n + 1)) := by
    rw [← (List.getElem?_eq_some_iff.mp h).2, cons_getElem_drop_succ, take_append_drop]
  have htake : (g.nodes.take n).length = n := by rw [length_take]; omega
  have hpre : g.nodes.take n ++ [d] <+: g.nodes.take n ++ d :: g.nodes.drop (n + 1) :=
    ⟨g.nodes.drop (n + 1), by simp⟩
  have hlast := Arena.getD_vals_last (NodeDef.value ρ) (g.nodes.take n) d .X
  rw [htake] at hlast
  rw [GateNet.value, hval,
    Arena.getD_vals_of_prefix (NodeDef.value ρ) hpre (by rw [length_append, htake]; exact Nat.lt_succ_self n),
    hlast]

theorem GateNet.has_of_getElem? (h : g.nodes[n]? = some (.const v)) : g.Has ρ n v :=
  ⟨(List.getElem?_eq_some_iff.mp h).1, value_of_getElem? h⟩

theorem GateNet.value_net (h : g.nodes[n]? = some .net) : g.value ρ n = ρ n := by
  have hlt : n < g.nodes.length := (List.getElem?_eq_some_iff.mp h).1
  rw [value_of_getElem? h, NodeDef.value, Arena.length_vals, length_take, Nat.min_eq_left hlt.le]

theorem GateNet.has_of_tryGetConst (h : g.tryGetConst n = some v) : g.Has ρ n v := by
  obtain ⟨⟨w, i⟩, hfind, rfl⟩ := Option.map_eq_some_iff.mp h
  obtain rfl : i = n := by simpa using find?_some hfind
  exact has_of_getElem? ((g.const_iff w i).mp (mem_of_find?_eq_some hfind))

theorem GateNet.ne_Z_of_tryGetConst (hρ : ∀ i, ρ i ≠ .Z) (hv : g.Has ρ n v) (h : g.tryGetConst n = none) : v ≠ .Z := by
  rintro rfl
  have hconst : ∀ vs d, NodeDef.value ρ vs d = .Z → d = .const .Z := by
    intro vs d hd
    cases d with
    | net | delay a t => exact absurd hd (hρ _)
    | const w => rw [← hd]; rfl
    | gate d =>
      cases d <;> simp only [NodeDef.value, Gate.output, logicNot, logicAnd, logicOr, logicXor, LogicT.caseEq,
        ofBool] at hd <;> revert hd <;> (repeat' split) <;> simp
  obtain ⟨d, hd, rfl⟩ :=
    Arena.exists_of_getD_vals (NodeDef.value ρ) (by simp) hconst g.nodes n hv.2
  rw [tryGetConst, Option.map_eq_none_iff, find?_eq_none] at h
  exact h (.Z, n) ((g.const_iff .Z n).mpr hd) (by simp)

theorem gives_constNode (v : LogicT) : Gives g (constNode v) fun n g' => g'.Has ρ n v := by
  cases hl : g.constNodes.lookup v with
  | some n =>
    refine ⟨n, g, by simp only [constNode, hl], prefix_rfl, ?_⟩
    exact GateNet.has_of_getElem? ((g.const_iff v n).mp (AssocMap.mem_of_lookup hl))
  | none =>
    refine ⟨g.nodes.length, g.addConst v, by simp only [constNode, hl], prefix_append _ _, ?_⟩
    exact GateNet.has_of_getElem? (by simp [GateNet.addConst])

theorem gives_makeGate {d : Gate} (h : d.output (Arena.vals (NodeDef.value ρ) g.nodes) = v) :
    Gives g (makeGate d) fun n g' => g'.Has ρ n v := by
  refine ⟨g.nodes.length, g.addDriven (.gate d) (by simp), rfl, prefix_append _ _,
    by simp [GateNet.addDriven], ?_⟩
  rw [← h]
  exact Arena.getD_vals_last (NodeDef.value ρ) g.nodes (.gate d) .X

theorem gives_gateNot (ha : g.Has ρ a v) :
    Gives g (gateNot a) fun n g' => g'.Has ρ n (logicNot v) := by
  refine gives_get ?_
  cases hc : g.tryGetConst a with
  | some w =>
    obtain rfl : w = v := (GateNet.has_of_tryGetConst hc).2.symm.trans ha.2
    exact gives_constNode _
  | none =>
    exact gives_makeGate (by rw [← ha.2]; rfl)

section

variable (hρ : ∀ i, ρ i ≠ .Z)

include hρ

variable {mk : Nat → Nat → Gate} {f : LogicT → LogicT → LogicT}

/-- A gate of two inputs where `k` is what is built of one constant input. -/
theorem gives_ofConsts {k : LogicT → Nat → SynthM Nat}
    (hmk : ∀ vs a b, (mk a b).output vs = f (vs.getD a .X) (vs.getD b .X)) (hcomm : ∀ v w, f v w = f w v)
    (hother : ∀ {v w n}, v.isUnknown = false → w ≠ .Z → g.Has ρ n w → Gives g (k v n) fun n g' => g'.Has ρ n (f v w))
    (ha : g.Has ρ a v) (hb : g.Has ρ b w) :
    Gives g (match g.tryGetConst a, g.tryGetConst b with
      | some av, some bv => constNode (f av bv)
      | some av, none => if av.isUnknown then makeGate (mk a b) else k av b
      | none, some bv => if bv.isUnknown then makeGate (mk a b) else k bv a
      | none, none => makeGate (mk a b)) fun n g' => g'.Has ρ n (f v w) := by
  have hgate : Gives g (makeGate (mk a b)) fun n g' => g'.Has ρ n (f v w) := by
    exact gives_makeGate (by rw [hmk, ← ha.2, ← hb.2]; rfl)
  cases hca : g.tryGetConst a with
  | some av =>
    obtain rfl : av = v := (GateNet.has_of_tryGetConst hca).2.symm.trans ha.2
    cases hcb : g.tryGetConst b with
    | some bv =>
      obtain rfl : bv = w := (GateNet.has_of_tryGetConst hcb).2.symm.trans hb.2
      exact gives_constNode _
    | none =>
      dsimp only
      split_ifs with hu
      · exact hgate
      · exact hother (by simpa using hu) (GateNet.ne_Z_of_tryGetConst hρ hb hcb) hb
  | none =>
    cases hcb : g.tryGetConst b with
    | none => exact hgate
    | some bv =>
      obtain rfl : bv = w := (GateNet.has_of_tryGetConst hcb).2.symm.trans hb.2
      dsimp only
      split_ifs with hu
      · exact hgate
      · rw [hcomm]
        exact hother (by simpa using hu) (GateNet.ne_Z_of_tryGetConst hρ ha hca) ha

theorem gives_gateAbsorb {absorbing : LogicT}
    (hmk : ∀ vs a b, (mk a b).output vs = f (vs.getD a .X) (vs.getD b .X)) (hcomm : ∀ v w, f v w = f w v)
    (habs : ∀ w, f absorbing w = absorbing) (hunit : ∀ v w, v.isUnknown = false → v ≠ absorbing → w ≠ .Z → f v w = w)
    (ha : g.Has ρ a v) (hb : g.Has ρ b w) :
    Gives g (gateAbsorb absorbing f mk a b) fun n g' => g'.Has ρ n (f v w) := by
  refine gives_get (gives_ofConsts (k := fun v n => if v = absorbing then constNode absorbing else pure n) hρ hmk hcomm
    (fun {v w n} hu hz hn => ?_) ha hb)
  split_ifs with habs'
  · rw [habs', habs]
    exact gives_constNode _
  · rw [hunit v w hu habs' hz]
    exact gives_pure hn

theorem gives_gateAnd (ha : g.Has ρ a v) (hb : g.Has ρ b w) :
    Gives g (gateAnd a b) fun n g' => g'.Has ρ n (logicAnd v w) := by
  refine gives_gateAbsorb hρ (fun _ _ _ => rfl) ?_ ?_ ?_ ha hb
  · intro v w
    cases v <;> cases w <;> rfl
  · intro w
    cases w <;> rfl
  · intro v w
    cases v <;> cases w <;> decide

theorem gives_gateOr (ha : g.Has ρ a v) (hb : g.Has ρ b w) :
    Gives g (gateOr a b) fun n g' => g'.Has ρ n (logicOr v w) := by
  refine gives_gateAbsorb hρ (fun _ _ _ => rfl) ?_ ?_ ?_ ha hb
  · intro v w
    cases v <;> cases w <;> rfl
  · intro w
    cases w <;> rfl
  · intro v w
    cases v <;> cases w <;> decide

theorem gives_gateParity {unit : LogicT}
    (hmk : ∀ vs a b, (mk a b).output vs = f (vs.getD a .X) (vs.getD b .X)) (hcomm : ∀ v w, f v w = f w v)
    (hunit : ∀ w, w ≠ .Z → f unit w = w) (hflip : ∀ v w, v.isUnknown = false → v ≠ unit → f v w = logicNot w)
    (ha : g.Has ρ a v) (hb : g.Has ρ b w) :
    Gives g (gateParity unit f mk a b) fun n g' => g'.Has ρ n (f v w) := by
  refine gives_get (gives_ofConsts (k := fun v n => if v = unit then pure n else gateNot n) hρ hmk hcomm
    (fun {v w n} hu hz hn => ?_) ha hb)
  split_ifs with hone
  · rw [hone, hunit w hz]
    exact gives_pure hn
  · rw [hflip v w hu hone]
    exact gives_gateNot hn

theorem gives_gateXor (ha : g.Has ρ a v) (hb : g.Has ρ b w) :
    Gives g (gateXor a b) fun n g' => g'.Has ρ n (logicXor v w) := by
  refine gives_gateParity hρ (fun _ _ _ => rfl) ?_ ?_ ?_ ha hb
  · intro v w
    cases v <;> cases w <;> rfl
  · intro w
    cases w <;> decide
  · intro v w
    cases v <;> cases w <;> decide

theorem gives_gateXnor (ha : g.Has ρ a v) (hb : g.Has ρ b w) :
    Gives g (gateXnor a b) fun n g' => g'.Has ρ n (logicNot (logicXor v w)) := by
  refine gives_gateParity hρ (fun _ _ _ => rfl) ?_ ?_ ?_ ha hb
  · intro v w
    cases v <;> cases w <;> rfl
  · intro w
    cases w <;> decide
  · intro v w
    cases v <;> cases w <;> decide

end

theorem gives_gateIsUnknown {binary : Bool} (ha : g.Has ρ a v) (hv : binary = true → v.isUnknown = false) :
    Gives g (gateIsUnknown binary a) fun n g' => g'.Has ρ n (ofBool v.isUnknown) := by
  unfold gateIsUnknown
  split_ifs with hb
  · rw [hv hb]
    exact gives_constNode _
  · refine gives_get ?_
    cases hc : g.tryGetConst a with
    | some w =>
      obtain rfl : w = v := (GateNet.has_of_tryGetConst hc).2.symm.trans ha.2
      exact gives_constNode _
    | none =>
      exact gives_makeGate (by rw [← ha.2]; rfl)

theorem gives_gateCaseEq (ha : g.Has ρ a v) (hb : g.Has ρ b w) :
    Gives g (gateCaseEq a b) fun n g' => g'.Has ρ n (LogicT.caseEq v w) := by
  have hgate : Gives g (makeGate (.caseEq a b)) fun n g' => g'.Has ρ n (LogicT.caseEq v w) := by
    exact gives_makeGate (by rw [← ha.2, ← hb.2]; rfl)
  refine gives_get ?_
  split_ifs with hab
  · subst hab
    obtain rfl : v = w := ha.2.symm.trans hb.2
    rw [show LogicT.caseEq v v = .H by simp [LogicT.caseEq, ofBool]]
    exact gives_constNode _
  · cases hca : g.tryGetConst a with
    | none => exact hgate
    | some av =>
      cases hcb : g.tryGetConst b with
      | none => exact hgate
      | some bv =>
        obtain rfl : av = v := (GateNet.has_of_tryGetConst hca).2.symm.trans ha.2
        obtain rfl : bv = w := (GateNet.has_of_tryGetConst hcb).2.symm.trans hb.2
        exact gives_constNode _

theorem gives_mux2 (hρ : ∀ i, ρ i ≠ .Z) {sel d0 d1 : Nat} {c : Bool} {v0 v1 : LogicT}
    (hs : g.Has ρ sel (ofBool c)) (h0 : g.Has ρ d0 v0) (h1 : g.Has ρ d1 v1)
    (hz : (if c then v1 else v0) ≠ .Z) :
    Gives g (mux2 sel d0 d1) fun n g' => g'.Has ρ n (if c then v1 else v0) := by
  unfold mux2
  by_cases hd : d0 = d1
  · rw [if_pos hd]
    subst hd
    obtain rfl : v0 = v1 := h0.2.symm.trans h1.2
    refine gives_pure ?_
    rw [ite_self]
    exact h0
  · rw [if_neg hd]
    refine (gives_gateNot hs).bind fun nNot g₁ hg₁ hnot => ?_
    refine (gives_gateAnd hρ (h1.mono hg₁) (hs.mono hg₁)).bind fun nA g₂ hg₂ hA => ?_
    refine (gives_gateAnd hρ ((h0.mono hg₁).mono hg₂) (hnot.mono hg₂)).bind fun nB g₃ hg₃ hB => ?_
    refine (gives_gateOr hρ (hA.mono hg₃) hB).imp fun n g' _ h => ?_
    have hval : logicOr (logicAnd v1 (ofBool c)) (logicAnd v0 (logicNot (ofBool c))) =
        if c then v1 else v0 := by
      revert hz
      cases c <;> cases v0 <;> cases v1 <;> decide
    rw [← hval]
    exact h

end

section

variable (m : CompiledModule) (assumeBinaryInputs : Bool) (env : List Nat)

/-- The nodes that a call of `expr_in_env` has built for roots. -/
abbrev ExprCache := List (Nat × Nat)

/-- One node of an expression in `expr_in_env`; `self` is the recursion. A signal that does
not exist has no node. -/
def exprStep (self : Nat → ExprCache → SynthM (Nat × ExprCache)) (cache : ExprCache) :
    Option ExprNode → SynthM (Nat × ExprCache)
  | none => literal .X
  | some (.literal v) => literal v
  | some (.signal s) =>
    match env[s]? with
    | some n => pure (n, cache)
    | none => failure
  | some (.isUnknown a) => unary (gateIsUnknown assumeBinaryInputs) a
  | some (.unaryNot a) => unary gateNot a
  | some (.binaryAnd a b) => binary gateAnd a b
  | some (.binaryOr a b) => binary gateOr a b
  | some (.binaryXor a b) => binary gateXor a b
  | some (.binaryEq a b) => binary gateXnor a b
  | some (.binaryNeq a b) => binary gateXor a b
  | some (.binaryCaseEq a b) => binary gateCaseEq a b
where
  literal (v : LogicT) : SynthM (Nat × ExprCache) := do
    let n ← constNode v
    pure (n, cache)
  unary (gate : Nat → SynthM Nat) (a : Nat) : SynthM (Nat × ExprCache) := do
    let x ← self a cache
    let n ← gate x.1
    pure (n, x.2)
  binary (gate : Nat → Nat → SynthM Nat) (a b : Nat) : SynthM (Nat × ExprCache) := do
    let x ← self a cache
    let y ← self b x.2
    let n ← gate x.1 y.1
    pure (n, y.2)

def exprRec : Nat → Nat → ExprCache → SynthM (Nat × ExprCache)
  | 0, _, cache => exprStep assumeBinaryInputs env (fun _ _ => failure) cache none
  | depth + 1, r, cache =>
    match cache.lookup r with
    | some n => pure (n, cache)
    | none => do
      let x ← exprStep assumeBinaryInputs env (exprRec depth) cache m.exprNodes[r]?
      pure (x.1, (r, x.1) :: x.2)

def exprInEnv (root : Nat) : SynthM Nat := do
  let x ← exprRec m assumeBinaryInputs env (root + 1) root []
  pure x.1

end

/-- No unknown literal occurs in the expression, and its signals exist. -/
def knownNode (nodes : List ExprNode) (count : Nat) : Nat → Nat → Bool
  | 0, _ => false
  | depth + 1, root =>
    match nodes[root]? with
    | none => false
    | some (.literal v) => !v.isUnknown
    | some (.signal s) => s < count
    | some n => n.children.all (knownNode nodes count depth)

variable (m : CompiledModule)

def knownExpr (root : Nat) : Bool :=
  knownNode m.exprNodes m.signalNames.length (root + 1) root

theorem isUnknown_ofBool (b : Bool) : (ofBool b).isUnknown = false := by
  cases b <;> rfl

theorem logicNot_logicXor (v w : LogicT) : logicNot (logicXor v w) = logicEq v w := by
  cases v <;> cases w <;> rfl

theorem logicXor_eq_logicNeq (v w : LogicT) : logicXor v w = logicNeq v w := by
  cases v <;> cases w <;> rfl

theorem evalNode_known {nodes : List ExprNode} {count : Nat} {values : List LogicT}
    (hv : ∀ s < count, (values.getD s .X).isUnknown = false) (h : knownNode nodes count depth root = true) :
    (evalNode nodes values depth root).isUnknown = false := by
  induction depth generalizing root with
  | zero => exact absurd h (by simp [knownNode])
  | succ depth ih =>
    rw [knownNode] at h
    rw [evalNode]
    cases hn : nodes[root]? with
    | none => rw [hn] at h; cases h
    | some n =>
      rw [hn] at h
      cases n with
      | literal v => simpa using h
      | signal s => exact hv s (by simpa using h)
      | isUnknown a => exact isUnknown_ofBool _
      | binaryCaseEq a b => exact isUnknown_ofBool _
      | unaryNot a =>
        have ha := @ih a (by simpa [ExprNode.children] using h)
        dsimp only
        revert ha
        generalize evalNode nodes values depth a = v
        cases v <;> decide
      | binaryAnd a b | binaryOr a b | binaryXor a b | binaryEq a b | binaryNeq a b =>
        simp only [ExprNode.children, all_cons, all_nil, Bool.and_true, Bool.and_eq_true] at h
        have ha := ih h.1
        have hb := ih h.2
        dsimp only
        revert ha hb
        generalize evalNode nodes values depth a = v
        generalize evalNode nodes values depth b = w
        cases v <;> cases w <;> decide

theorem CompiledModule.child_lt {c : Nat} {n : ExprNode} (hn : m.exprNodes[r]? = some n)
    (hc : c ∈ n.children) : c < r := by
  refine m.operands_first (n, r) ?_ c hc
  rw [mem_zipIdx_iff_getElem?]
  exact hn

theorem CompiledModule.operandsFirst : OperandsFirst m.exprNodes :=
  fun _ _ hn _ hc => m.child_lt hn hc

theorem evalNode_depth (values : List LogicT) {depth' : Nat} (h : r < depth) (h' : r < depth') :
    evalNode m.exprNodes values depth r = evalNode m.exprNodes values depth' r := by
  by_cases hr : r < m.exprNodes.length
  · exact m.operandsFirst.evalNode_eq (prefix_refl _) values hr h h'
  · obtain ⟨depth, rfl⟩ : ∃ d, depth = d + 1 := ⟨depth - 1, by omega⟩
    obtain ⟨depth', rfl⟩ : ∃ d, depth' = d + 1 := ⟨depth' - 1, by omega⟩
    rw [evalNode, evalNode, getElem?_eq_none (by omega)]

theorem evalExpr_eq (values : List LogicT) {n : ExprNode} (hn : m.exprNodes[r]? = some n) :
    evalExpr m r values = n.combine values fun c => evalExpr m c values := by
  rw [evalExpr, evalNode_succ hn]
  exact ExprNode.combine_congr fun c hc => evalNode_depth m values (m.child_lt hn hc) (Nat.lt_succ_self c)

section

variable {m : CompiledModule} {binary : Bool} {env : List Nat} {ρ : Nat → LogicT} {values : List LogicT}

def EnvHas (ρ : Nat → LogicT) (g : GateNet) (env : List Nat) (values : List LogicT) : Prop :=
  ∀ s n, env[s]? = some n → g.Has ρ n (values.getD s .X)

variable {g : GateNet}

variable {g' : GateNet}

theorem EnvHas.mono (h : EnvHas ρ g env values) (hg : g.nodes <+: g'.nodes) :
    EnvHas ρ g' env values := fun s n hn => (h s n hn).mono hg

def CacheHas (m : CompiledModule) (ρ : Nat → LogicT) (values : List LogicT) (g : GateNet)
    (cache : ExprCache) : Prop :=
  ∀ e ∈ cache, g.Has ρ e.2 (evalExpr m e.1 values)

variable {cache : ExprCache}

theorem CacheHas.mono (h : CacheHas m ρ values g cache) (hg : g.nodes <+: g'.nodes) :
    CacheHas m ρ values g' cache := fun e he => (h e he).mono hg

/-- The signals of the expression exist. Where tests for unknown values fold away, it has
known values only. -/
structure Testable (m : CompiledModule) (binary : Bool) (values : List LogicT) (depth r : Nat) : Prop where
  reads : ∀ s ∈ readsNode m.exprNodes depth r, s < m.signalNames.length
  known : binary = true → knownNode m.exprNodes m.signalNames.length depth r = true ∧
    ∀ s < m.signalNames.length, (values.getD s .X).isUnknown = false

theorem Testable.child {depth r c : Nat} {n : ExprNode} (h : Testable m binary values (depth + 1) r)
    (hn : m.exprNodes[r]? = some n) (hc : c ∈ n.children) : Testable m binary values depth c := by
  refine ⟨fun s hs => h.reads s ?_, fun hb => ⟨?_, (h.known hb).2⟩⟩
  · rw [readsNode, hn]
    cases n with
    | literal v => cases hc
    | signal s => cases hc
    | isUnknown a | unaryNot a | binaryAnd a b | binaryOr a b | binaryXor a b | binaryEq a b | binaryNeq a b
    | binaryCaseEq a b => exact mem_flatMap.mpr ⟨c, hc, hs⟩
  · have hk := (h.known hb).1
    rw [knownNode, hn] at hk
    cases n with
    | literal v => cases hc
    | signal s => cases hc
    | isUnknown a | unaryNot a | binaryAnd a b | binaryOr a b | binaryXor a b | binaryEq a b | binaryNeq a b
    | binaryCaseEq a b => exact all_eq_true.mp hk c hc

theorem gives_exprRec (hρ : ∀ i, ρ i ≠ .Z) (hlen : m.signalNames.length ≤ env.length) (henv : EnvHas ρ g env values)
    (hcache : CacheHas m ρ values g cache) (hr : r < depth) (ht : Testable m binary values depth r) :
    Gives g (exprRec m binary env depth r cache) fun x g' =>
      g'.Has ρ x.1 (evalExpr m r values) ∧ CacheHas m ρ values g' x.2 := by
  induction depth generalizing g r cache with
  | zero => omega
  | succ depth ih =>
    -- a node of the expression from its operands, which come before it
    have hchild {n : ExprNode} (hn : m.exprNodes[r]? = some n) {c : Nat} (hc : c ∈ n.children)
        {g' : GateNet} (hg : g.nodes <+: g'.nodes) {cache' : ExprCache}
        (hcache' : CacheHas m ρ values g' cache') :
        Gives g' (exprRec m binary env depth c cache') fun x g'' =>
          g''.Has ρ x.1 (evalExpr m c values) ∧ CacheHas m ρ values g'' x.2 := by
      have := m.child_lt hn hc
      exact ih (henv.mono hg) hcache' (by omega) (ht.child hn hc)
    have hliteral (v : LogicT) : Gives g (exprStep.literal cache v) fun x g' =>
        g'.Has ρ x.1 v ∧ CacheHas m ρ values g' x.2 := by
      have hconst : Gives g (constNode v) fun n g' => g'.Has ρ n v := gives_constNode v
      exact hconst.bind fun n g₁ hg₁ hn => gives_pure ⟨hn, hcache.mono hg₁⟩
    have hunary {n : ExprNode} (hn : m.exprNodes[r]? = some n) {a : Nat} (ha : n.children = [a])
        {gate : Nat → SynthM Nat} {v : LogicT}
        (hgate : ∀ (g' : GateNet) x, g'.Has ρ x (evalExpr m a values) →
          Gives g' (gate x) fun y g'' => g''.Has ρ y v) :
        Gives g (exprStep.unary (exprRec m binary env depth) cache gate a) fun x g' =>
          g'.Has ρ x.1 v ∧ CacheHas m ρ values g' x.2 := by
      refine (hchild hn (ha ▸ mem_cons_self) prefix_rfl hcache).bind fun x g₁ _ hx => ?_
      refine (hgate g₁ x.1 hx.1).bind fun y g₂ hg₂ hy => ?_
      exact gives_pure ⟨hy, hx.2.mono hg₂⟩
    have hbinary {n : ExprNode} (hn : m.exprNodes[r]? = some n) {a b : Nat} (hab : n.children = [a, b])
        {gate : Nat → Nat → SynthM Nat} {v : LogicT}
        (hgate : ∀ (g' : GateNet) x y, g'.Has ρ x (evalExpr m a values) → g'.Has ρ y (evalExpr m b values) →
          Gives g' (gate x y) fun z g'' => g''.Has ρ z v) :
        Gives g (exprStep.binary (exprRec m binary env depth) cache gate a b) fun x g' =>
          g'.Has ρ x.1 v ∧ CacheHas m ρ values g' x.2 := by
      refine (hchild hn (c := a) (by simp [hab]) prefix_rfl hcache).bind fun x g₁ hg₁ hx => ?_
      refine (hchild hn (c := b) (by simp [hab]) hg₁ hx.2).bind fun y g₂ hg₂ hy => ?_
      refine (hgate g₂ x.1 y.1 (hx.1.mono hg₂) hy.1).bind fun z g₃ hg₃ hz => ?_
      exact gives_pure ⟨hz, hy.2.mono hg₃⟩
    rw [exprRec]
    cases hl : cache.lookup r with
    | some n => exact gives_pure ⟨hcache (r, n) (AssocMap.mem_of_lookup hl), hcache⟩
    | none =>
      refine Gives.bind (P := fun x g' => g'.Has ρ x.1 (evalExpr m r values) ∧ CacheHas m ρ values g' x.2) ?_
        fun x g₁ _ hx => gives_pure ⟨hx.1, ?_⟩
      · cases hn : m.exprNodes[r]? with
        | none =>
          rw [evalExpr, evalNode, hn]
          exact hliteral .X
        | some n =>
          rw [evalExpr_eq m values hn]
          cases n with
          | literal v => exact hliteral v
          | signal s =>
            rw [exprStep]
            have hlt : s < m.signalNames.length := ht.reads s (by simp [readsNode, hn])
            cases hs : env[s]? with
            | none =>
              have := List.getElem?_eq_none_iff.mp hs
              omega
            | some n => exact gives_pure ⟨henv s n hs, hcache⟩
          | isUnknown a =>
            refine hunary hn rfl fun g' x hx => gives_gateIsUnknown hx fun hb => ?_
            have hk := (ht.child hn (c := a) mem_cons_self).known hb
            have ha := m.child_lt hn (c := a) mem_cons_self
            have := evalNode_known hk.2 hk.1
            rwa [evalNode_depth m values (show a < depth by omega) (Nat.lt_succ_self a)] at this
          | unaryNot a => exact hunary hn rfl fun g' x hx => gives_gateNot hx
          | binaryAnd a b => exact hbinary hn rfl fun g' x y hx hy => gives_gateAnd hρ hx hy
          | binaryOr a b => exact hbinary hn rfl fun g' x y hx hy => gives_gateOr hρ hx hy
          | binaryXor a b => exact hbinary hn rfl fun g' x y hx hy => gives_gateXor hρ hx hy
          | binaryEq a b =>
            refine hbinary hn rfl fun g' x y hx hy => ?_
            have h := gives_gateXnor hρ hx hy
            rwa [logicNot_logicXor] at h
          | binaryNeq a b =>
            refine hbinary hn rfl fun g' x y hx hy => ?_
            have h := gives_gateXor hρ hx hy
            rwa [logicXor_eq_logicNeq] at h
          | binaryCaseEq a b => exact hbinary hn rfl fun g' x y hx hy => gives_gateCaseEq hx hy
      · intro e he
        rcases mem_cons.mp he with rfl | he
        · exact hx.1
        · exact hx.2 e he

theorem gives_exprInEnv (hρ : ∀ i, ρ i ≠ .Z) (hlen : m.signalNames.length ≤ env.length) (henv : EnvHas ρ g env values)
    (ht : Testable m binary values (root + 1) root) :
    Gives g (exprInEnv m binary env root) fun n g' => g'.Has ρ n (evalExpr m root values) := by
  refine (gives_exprRec hρ hlen henv (fun _ h => by cases h) (Nat.lt_succ_self root) ht).bind fun x g' _ hx => ?_
  exact gives_pure hx.1

theorem gives_exprInEnv_literal (h : m.exprNodes[root]? = some (.literal v)) :
    Gives g (exprInEnv m binary env root) fun n g' => g'.Has ρ n v := by
  have hstep : Gives g (exprRec m binary env (root + 1) root []) fun x g' => g'.Has ρ x.1 v := by
    rw [exprRec, lookup_nil]
    dsimp only
    rw [h, exprStep, exprStep.literal]
    refine Gives.bind (P := fun x g' => g'.Has ρ x.1 v) ?_ fun x g₁ _ hx => gives_pure hx
    exact (gives_constNode v).bind fun n g₁ _ hn => gives_pure hn
  exact hstep.bind fun x g' _ hx => gives_pure hx

end

end PhyEngine.Verilog
