import PhyEngine.Library.SortedLists
import PhyEngine.Synth.BinaryNetlist

/-!
# What the adders compute

Every group of gates that the search takes computes the outputs of its adder (`Justified`),
whichever inputs coincide. The pass is not told which nodes are ports, so it keeps the function
exactly when no port is inside a group (`adders_keepsFunction_iff`).
-/

namespace PhyEngine

open Equations Netlist List
open Option (map_eq_some_iff map_some some toList_none toList_some)

namespace Adders

variable (nl : Netlist)

/-- The search of the pass: the actions and the netlist with its constant. -/
def search : State :=
  let gates := collectGates nl
  let st : State := { nl }
  let st := gates.foldl (tryAddFullAdderGeneral nl gates) st
  let st := gates.foldl (tryAddHalfAdder nl gates) st
  gates.foldl (tryAddFullAdderCin1 nl gates) st

/-- The output of a gate of a group that is neither the sum nor the carry of an adder. -/
def Internal (n : NodeId) : Prop :=
  (∃ act ∈ (search nl).actions, ∃ g ∈ collectGates nl, g.pos ∈ act.del ∧ g.out = n) ∧
    ∀ act ∈ (search nl).actions, n ≠ act.s ∧ n ≠ act.cout

/-! ## The gates -/

def Kind.modelKind : Kind → ModelKind
  | .andGate => .and
  | .orGate => .or
  | .xorGate => .xor
  | .notGate => .not
  | .xnorGate => .xnor

theorem modelKind_of_gateKind {kind : ModelKind} {k : Kind} (h : gateKind kind = some k) :
    kind = k.modelKind := by
  cases kind <;> simp only [gateKind, reduceCtorEq, some.injEq] at h <;> subst h <;> rfl

def Kind.outPlace : Kind → Nat
  | .notGate => 1
  | _ => 2

structure Names (nl : Netlist) (g : Gate) (m : ModelBase) : Prop where
  getModel : nl.getModel g.pos = some m
  kind : gateKind m.model.kind = some g.k
  pins : m.model.pins = if g.k = .notGate then [g.in0, some g.out] else [g.in0, g.in1, some g.out]

theorem names_of_mem {nl : Netlist} {g : Gate} (hg : g ∈ collectGates nl) : ∃ m, Names nl g m := by
  obtain ⟨pos, m, hm, hrec⟩ := mem_gather.mp (show g ∈ gather nl fun b pos => classifyGate b.model pos from hg)
  refine ⟨m, ?_⟩
  unfold classifyGate at hrec
  split at hrec
  · rename_i a out hk hpins
    cases hrec
    exact ⟨hm, hk, hpins⟩
  · cases hrec
  · rename_i k a b out hnot hk hpins
    cases hrec
    have hne : k ≠ .notGate := by
      rintro rfl
      exact hnot rfl
    exact ⟨hm, hk, by rw [if_neg hne]; exact hpins⟩
  · cases hrec

variable {n : NodeId}

section Gates

variable {nl : Netlist} {g g' : Gate} {m m' : ModelBase} {k : Kind} {a b o : NodeId}

theorem Names.mem (hg : Names nl g m) : m ∈ nl.bases := mem_bases hg.getModel

theorem Names.kind_eq (hg : Names nl g m) : m.model.kind = g.k.modelKind := modelKind_of_gateKind hg.kind

theorem Names.driver (h : Sound nl) (hg : Names nl g m) : nl.DriverPin ⟨m.id, g.k.outPlace⟩ g.out := by
  refine ⟨?_, (h.points_iff_pin hg.mem _ _).mpr ?_⟩
  · rw [h.pinOut_eq hg.mem, hg.kind_eq, hg.pins]
    cases g.k <;> rfl
  · rw [hg.pins]
    cases g.k <;> rfl

theorem Names.exists_boolFns (hg : Names nl g m) : ∃ fns, boolFns m = some fns := by
  have hkind := hg.kind_eq
  refine Option.isSome_iff_exists.mp ?_
  cases hk : g.k <;> rw [hk] at hkind <;>
    simp only [boolFns, hkind, Kind.modelKind, ModelKind.gateFn, map_some, Option.isSome_some]

theorem Names.eq_of_out (h : BinaryNetlist nl) (hg : Names nl g m) (hg' : Names nl g' m')
    (hout : g.out = g'.out) : m = m' :=
  h.sound.eq_of_id hg.mem hg'.mem (congrArg PinRef.id
    (h.single _ _ _ (hg.driver h.sound) (hout ▸ hg'.driver h.sound)))

theorem Names.gate2 (hg : Names nl g m) (hk : g.k ≠ .notGate)
    (hins : (g.in0 = some a ∧ g.in1 = some b) ∨ (g.in0 = some b ∧ g.in1 = some a)) :
    Gate2 nl g.k.modelKind a b g.out m := by
  refine ⟨hg.mem, hg.kind_eq, ?_⟩
  rw [hg.pins, if_neg hk]
  rcases hins with ⟨h0, h1⟩ | ⟨h0, h1⟩ <;> rw [h0, h1] <;> simp

theorem gateByOut_eq_some (h : gateByOut (collectGates nl) k o = some g) :
    g ∈ collectGates nl ∧ g.out = o ∧ g.k = k := by
  obtain ⟨hfind, hk⟩ := Option.filter_eq_some_iff.mp h
  exact ⟨mem_of_find?_eq_some hfind, by simpa using find?_some hfind, of_decide_eq_true hk⟩

/-- The record is of a gate of a kind with the given inputs, in either order, and output. -/
structure Found (nl : Netlist) (k : Kind) (a b o : NodeId) (g : Gate) : Prop where
  mem : g ∈ collectGates nl
  out : g.out = o
  kind : g.k = k
  model : ∃ m, Names nl g m ∧ Gate2 nl k.modelKind a b o m

theorem found_of_gateOut (h : BinaryNetlist nl) (hout : gateOut (collectGates nl) k a b = some o)
    (hby : gateByOut (collectGates nl) k o = some g) : Found nl k a b o g := by
  obtain ⟨hg, hgo, hgk⟩ := gateByOut_eq_some hby
  obtain ⟨m, hm⟩ := names_of_mem hg
  unfold gateOut at hout
  obtain ⟨g', hfind, rfl⟩ := map_eq_some_iff.mp hout
  obtain ⟨m', hm'⟩ := names_of_mem (mem_of_find?_eq_some hfind)
  have hcond : k ≠ .notGate ∧ g'.k = k ∧
      ((g'.in0 = some a ∧ g'.in1 = some b) ∨ (g'.in0 = some b ∧ g'.in1 = some a)) := by
    simpa using find?_some hfind
  obtain rfl := hm.eq_of_out h hm' hgo
  have hg2 := hm'.gate2 (by rw [hcond.2.1]; exact hcond.1) hcond.2.2
  rw [hcond.2.1] at hg2
  exact ⟨hg, hgo, hgk, m, hm, hg2⟩

theorem found_of_mem (hg : g ∈ collectGates nl) (hk : g.k = k) (hnot : k ≠ .notGate) (h0 : g.in0 = some a)
    (h1 : g.in1 = some b) : Found nl k a b g.out g := by
  obtain ⟨m, hm⟩ := names_of_mem hg
  have hg2 := hm.gate2 (by rw [hk]; exact hnot) (.inl ⟨h0, h1⟩)
  rw [hk] at hg2
  exact ⟨hg, rfl, hk, m, hm, hg2⟩

def Gate.Reads (g : Gate) (n : NodeId) : Prop :=
  g.in0 = some n ∨ (g.k ≠ .notGate ∧ g.in1 = some n)

theorem add_le_sum {β : Type} [DecidableEq β] {f : β → Nat} {l : List β} {x y : β} (hx : x ∈ l) (hy : y ∈ l)
    (hne : x ≠ y) : f x + f y ≤ (l.map f).sum := by
  have hperm := (perm_cons_erase hx).map f
  have hy' : y ∈ l.erase x := (mem_erase_of_ne hne.symm).mpr hy
  have hperm' := (perm_cons_erase hy').map f
  rw [hperm.sum_eq, map_cons, sum_cons, hperm'.sum_eq, map_cons, sum_cons]
  omega

theorem noted_of_consumerPin (h : BinaryNetlist nl) (hm : m ∈ nl.bases) {j : Nat} (hpin : nl.ConsumerPin ⟨m.id, j⟩ n) :
    some n ∈ notedPins false m.model := by
  have hj := (h.sound.points_iff_pin hm j n).mp hpin.2
  have hlt := (List.getElem?_eq_some_iff.mp hj).1
  have hout := hpin.1
  rw [h.sound.pinOut_eq hm, decide_eq_true hlt, Bool.true_and] at hout
  have htake : ∀ i, j < i → some n ∈ m.model.pins.take i := fun i hi =>
    mem_iff_getElem?.mpr ⟨j, by rw [getElem?_take, if_pos hi, hj]⟩
  have hlen : ∀ k, gateKind m.model.kind = some k → m.model.pins.length = k.outPlace + 1 := by
    intro k hk
    have hkind := modelKind_of_gateKind hk
    cases k <;> simp only [Kind.modelKind] at hkind <;>
      exact (h.pinned m hm).length _ (by simp only [boolFns, hkind, ModelKind.gateFn]; rfl)
  unfold notedPins
  cases hk : gateKind m.model.kind with
  | none => simpa using List.mem_of_getElem? hj
  | some k =>
    have hl := hlen k hk
    have hkind := modelKind_of_gateKind hk
    rw [hkind, hl] at hout
    cases k <;> simp only [Kind.outPlace, Kind.modelKind, isOutputPin] at hl hout ⊢ <;>
      rw [if_neg (by omega)] <;> refine htake _ ?_ <;> simp at hout <;> omega

theorem Gate.Reads.noted (hg : Names nl g m) (hread : g.Reads n) :
    some n ∈ notedPins false m.model := by
  have hpins := hg.pins
  unfold notedPins
  rw [hg.kind]
  obtain ⟨k, pos, in0, in1, out⟩ := g
  cases k <;> simp only [Gate.Reads, reduceCtorEq, if_true, if_false, ne_eq, not_true_eq_false,
    not_false_eq_true, true_and, false_and, or_false] at hpins hread ⊢ <;> rw [hpins] <;>
    simp [eq_comm] <;> simpa [eq_comm] using hread

theorem reader_unique (hcount : pinCount nl false n = 1) (hg : Names nl g m) (hread : g.Reads n) (hm' : m' ∈ nl.bases)
    (hnoted : some n ∈ notedPins false m'.model) : m' = m := by
  by_contra hne
  have hle := add_le_sum (f := fun b : ModelBase => (notedPins false b.model).count (some n)) hm' hg.mem hne
  have hpos : ∀ l : List (Option NodeId), some n ∈ l → 0 < l.count (some n) := fun l hl => count_pos_iff.mpr hl
  have h₁ := hpos _ hnoted
  have h₂ := hpos _ (hread.noted hg)
  have hsum : pinCount nl false n =
      (nl.bases.map fun b => (notedPins false b.model).count (some n)).sum := by
    rw [pinCount, normals, List.map_map]
    rfl
  omega

end Gates

/-! ## Groups that an adder may replace -/

def Action.inputs (act : Action) : List NodeId := [act.a, act.b] ++ act.cin.toList

/-- The value of the carry input, `0` for a half adder. -/
def Action.carry (act : Action) (u : NodeId → Bool) : Bool :=
  match act.cin with
  | none => false
  | some n => u n

/-- A node of a group whose only reader is a gate of the group. -/
def Inner (act : Action) (n : NodeId) : Prop :=
  pinCount nl false n = 1 ∧ ∃ g ∈ collectGates nl, g.pos ∈ act.del ∧ g.Reads n

def Shared (n : NodeId) : Prop :=
  ∃ g ∈ collectGates nl, ∃ g' ∈ collectGates nl, g.k ≠ g'.k ∧ g.Reads n ∧ g'.Reads n

/-- The gates of a group compute what its adder computes; `live` is `nl` with the constant. -/
structure Justified (nl live : Netlist) (act : Action) : Prop where
  shape : act.isFull = act.cin.isSome
  isSome : ∀ n ∈ act.inputs ++ [act.s, act.cout], (live.node? n).isSome
  del : ∀ pos ∈ act.del, ∃ g ∈ collectGates nl, g.pos = pos ∧
    (g.out = act.s ∨ g.out = act.cout ∨ Inner nl act g.out)
  read : ∀ d ∈ act.inputs, Shared nl d ∨ ∃ b ∈ live.bases, ConstInput b .H d
  value : ∀ u, Solves (system boolFns live) u →
    u act.s = (u act.a ^^ u act.b ^^ act.carry u) ∧
      u act.cout = (u act.a && u act.b || u act.a && act.carry u || u act.b && act.carry u)
  rank : ∀ rank, LowRank live rank → ∀ d ∈ act.inputs, rank d < rank act.s ∧ rank d < rank act.cout

structure Searching (nl : Netlist) (st : State) : Prop where
  live : WithConsts true nl st.nl
  actions : ∀ act ∈ st.actions, Justified nl st.nl act

section Groups

variable {nl live : Netlist} {g : Gate} {m : ModelBase} {k : Kind} {a b o : NodeId}

theorem Found.reads (hg : Found nl k a b o g) (hk : k ≠ .notGate) : g.Reads a ∧ g.Reads b := by
  obtain ⟨m, hm, h2⟩ := hg.model
  have hgk : g.k ≠ .notGate := by rwa [hg.kind]
  have hpins := hm.pins
  rw [if_neg hgk] at hpins
  rcases h2.pins with heq | heq <;> rw [heq] at hpins <;>
    simp only [List.cons.injEq, and_true] at hpins
  · exact ⟨.inl hpins.1.symm, .inr ⟨hgk, hpins.2.1.symm⟩⟩
  · exact ⟨.inr ⟨hgk, hpins.2.1.symm⟩, .inl hpins.1.symm⟩

section

variable (hl : WithConsts true nl live) (hg : Found nl k a b o g)

include hl hg

theorem Found.gate2 :
    ∃ m, Gate2 live k.modelKind a b o m := by
  obtain ⟨m, -, h2⟩ := hg.model
  exact ⟨m, hl.bases m h2.mem, h2.kind_eq, h2.pins⟩

theorem Found.isSome :
    (live.node? a).isSome ∧ (live.node? b).isSome ∧ (live.node? o).isSome := by
  obtain ⟨m, h2⟩ := hg.gate2 hl
  have hs : ∀ n, some n ∈ m.model.pins → (live.node? n).isSome := fun n hn =>
    hl.binary.sound.isSome_node? h2.mem hn
  refine ⟨hs a ?_, hs b ?_, hs o ?_⟩ <;> rcases h2.pins with hpins | hpins <;> rw [hpins] <;> simp

variable {f : Bool → Bool → Bool}

theorem Found.value (hf : symmetricFn k.modelKind = some f) {u : NodeId → Bool}
    (hu : Solves (system boolFns live) u) :
    u o = f (u a) (u b) := by
  obtain ⟨m, h2⟩ := hg.gate2 hl
  exact h2.value hf hu

theorem Found.rank_lt (hf : symmetricFn k.modelKind = some f) {rank : NodeId → Nat}
    (hrank : LowRank live rank) :
    rank a < rank o ∧ rank b < rank o := by
  obtain ⟨m, h2⟩ := hg.gate2 hl
  exact h2.rank_lt hf hrank.ranked

end

variable {c : ModelBase}

theorem const_low (h : BinaryNetlist live) (hc : c ∈ live.bases) (hconst : ConstInput c .H n)
    {rank : NodeId → Nat} (hrank : LowRank live rank) : rank n = 0 := by
  have heq := pinEquations_const (c := true) hconst
  have hmem : Equation.apply n [] (fun _ => true) ∈ system boolFns live :=
    mem_system.mpr ⟨c, hc, by rw [heq]; exact mem_singleton_self _⟩
  refine hrank.zero n fun e he htarget => ?_
  rw [h.eq_of_target he hmem htarget]
  rfl

theorem const_value (hc : c ∈ live.bases) (hconst : ConstInput c .H n) {u : NodeId → Bool}
    (hu : Solves (system boolFns live) u) : u n = true := by
  have heq := pinEquations_const (c := true) hconst
  exact hu (Equation.apply n [] fun _ => true)
    (mem_system.mpr ⟨c, hc, by rw [heq]; exact mem_singleton_self _⟩)

theorem Justified.mono {act : Action} {live' : Netlist} (hl : WithConsts true nl live) (hj : Justified nl live act)
    (hc : ConstNode .H live live' n) : Justified nl live' act := by
  have hstep : WithConsts true live live' := ((WithConsts.refl (c := true) hl.binary).step hc).1
  refine ⟨hj.shape, fun n hn => hstep.isSome n (hj.isSome n hn), hj.del, fun d hd => ?_, ?_, ?_⟩
  · rcases hj.read d hd with hshared | ⟨c, hcm, hconst⟩
    · exact .inl hshared
    · exact .inr ⟨c, hstep.bases c hcm, hconst⟩
  · exact fun u hu => hj.value u (hstep.solves_old hu)
  · intro rank hrank
    refine hj.rank rank ⟨hstep.ranked_old hrank.ranked, ?_, ?_⟩
    · intro e he hdeps
      obtain ⟨d, hd, he⟩ := mem_system.mp he
      exact hrank.pos e (mem_system.mpr ⟨d, hstep.bases d hd, he⟩) hdeps
    · intro n hn
      refine hrank.zero n fun e he htarget => ?_
      obtain ⟨d, hd, he⟩ := mem_system.mp he
      rcases hstep.new d hd with hd' | ⟨x, hconst, -⟩
      · exact hn e (mem_system.mpr ⟨d, hd', he⟩) htarget
      · rw [pinEquations_const hconst, mem_singleton] at he
        rw [he]
        rfl

variable {cout cin : NodeId} {g2 : Gate}

section

variable (hl : WithConsts true nl live)
include hl

theorem justified_half {gx gand : Gate} {s : NodeId} (hx : Found nl .xorGate a b s gx)
    (hand : Found nl .andGate a b cout gand) :
    Justified nl live ⟨false, a, b, none, s, cout, [gx.pos, gand.pos]⟩ := by
  have hsx := hx.isSome hl
  have hrx := hx.reads (by decide)
  have hra := hand.reads (by decide)
  have hne : gx.k ≠ gand.k := by rw [hx.kind, hand.kind]; decide
  refine ⟨rfl, ?_, ?_, ?_, ?_, ?_⟩
  · intro n hn
    simp only [Action.inputs, toList_none, append_nil, cons_append, nil_append,
      mem_cons, not_mem_nil, or_false] at hn
    rcases hn with rfl | rfl | rfl | rfl
    · exact hsx.1
    · exact hsx.2.1
    · exact hsx.2.2
    · exact (hand.isSome hl).2.2
  · intro pos hpos
    simp only [mem_cons, not_mem_nil, or_false] at hpos
    rcases hpos with rfl | rfl
    · exact ⟨gx, hx.mem, rfl, .inl hx.out⟩
    · exact ⟨gand, hand.mem, rfl, .inr (.inl hand.out)⟩
  · intro d hd
    simp only [Action.inputs, toList_none, append_nil, mem_cons, not_mem_nil,
      or_false] at hd
    rcases hd with rfl | rfl
    · exact .inl ⟨gx, hx.mem, gand, hand.mem, hne, hrx.1, hra.1⟩
    · exact .inl ⟨gx, hx.mem, gand, hand.mem, hne, hrx.2, hra.2⟩
  · intro u hu
    have hs := hx.value hl rfl hu
    have hc := hand.value hl rfl hu
    simp [Action.carry, hs, hc]
  · intro rank hrank d hd
    have hs := hx.rank_lt hl rfl hrank
    have hc := hand.rank_lt hl rfl hrank
    simp only [Action.inputs, toList_none, append_nil, mem_cons, not_mem_nil,
      or_false] at hd
    rcases hd with rfl | rfl
    · exact ⟨hs.1, hc.1⟩
    · exact ⟨hs.2, hc.2⟩

variable {xorAb : List Gate}

theorem justified_full {g1 gt1 gt2 gt3 gor12 gcout : Gate} {s axb t1 t2 t3 or12 : NodeId}
    (h1 : Found nl .xorGate a b axb g1) (h2 : Found nl .xorGate axb cin s g2)
    (ht1 : Found nl .andGate a b t1 gt1) (ht2 : Found nl .andGate a cin t2 gt2) (ht3 : Found nl .andGate b cin t3 gt3)
    (hor : Found nl .orGate t1 t2 or12 gor12) (hcout : Found nl .orGate or12 t3 cout gcout)
    (hcounts : pinCount nl false t1 = 1 ∧ pinCount nl false t2 = 1 ∧ pinCount nl false t3 = 1 ∧
      pinCount nl false or12 = 1)
    (hxor : xorAb = [] ∨ (xorAb = [g1] ∧ pinCount nl false axb = 1)) :
    Justified nl live ⟨true, a, b, some cin, s, cout,
      ([g2, gt1, gt2, gt3, gor12, gcout] ++ xorAb).map (·.pos)⟩ := by
  have hs1 := h1.isSome hl
  have hr1 := h1.reads (by decide)
  have hr2 := h2.reads (by decide)
  have hrt1 := ht1.reads (by decide)
  have hrt2 := ht2.reads (by decide)
  have hror := hor.reads (by decide)
  have hrc := hcout.reads (by decide)
  refine ⟨rfl, ?_, ?_, ?_, ?_, ?_⟩
  · intro n hn
    simp only [Action.inputs, toList_some, cons_append, nil_append,
      mem_cons, not_mem_nil, or_false] at hn
    rcases hn with rfl | rfl | rfl | rfl | rfl
    · exact hs1.1
    · exact hs1.2.1
    · exact (h2.isSome hl).2.1
    · exact (h2.isSome hl).2.2
    · exact (hcout.isSome hl).2.2
  · intro pos hpos
    obtain ⟨g, hg, rfl⟩ := mem_map.mp hpos
    have hinner : ∀ x n, x ∈ [g2, gt1, gt2, gt3, gor12, gcout] ++ xorAb → x ∈ collectGates nl → x.Reads n →
        pinCount nl false n = 1 → Inner nl ⟨true, a, b, some cin, s, cout,
          ([g2, gt1, gt2, gt3, gor12, gcout] ++ xorAb).map (·.pos)⟩ n :=
      fun x n hx hmem hread hcount => ⟨hcount, x, hmem, mem_map_of_mem hx, hread⟩
    rcases mem_append.mp hg with hg | hg
    · simp only [mem_cons, not_mem_nil, or_false] at hg
      rcases hg with rfl | rfl | rfl | rfl | rfl | rfl
      · exact ⟨g, h2.mem, rfl, .inl h2.out⟩
      · exact ⟨g, ht1.mem, rfl, .inr (.inr (ht1.out ▸ hinner gor12 t1 (by simp) hor.mem hror.1 hcounts.1))⟩
      · exact ⟨g, ht2.mem, rfl, .inr (.inr (ht2.out ▸ hinner gor12 t2 (by simp) hor.mem hror.2 hcounts.2.1))⟩
      · exact ⟨g, ht3.mem, rfl, .inr (.inr (ht3.out ▸ hinner gcout t3 (by simp) hcout.mem hrc.2 hcounts.2.2.1))⟩
      · exact ⟨g, hor.mem, rfl, .inr (.inr (hor.out ▸ hinner gcout or12 (by simp) hcout.mem hrc.1 hcounts.2.2.2))⟩
      · exact ⟨g, hcout.mem, rfl, .inr (.inl hcout.out)⟩
    · rcases hxor with hnil | ⟨hone, hcount⟩
      · rw [hnil] at hg
        cases hg
      · have hgg : g = g1 := by
          rw [hone] at hg
          exact mem_singleton.mp hg
        rw [hgg]
        exact ⟨g1, h1.mem, rfl, .inr (.inr (h1.out ▸ hinner g2 axb (by simp) h2.mem hr2.1 hcount))⟩
  · intro d hd
    simp only [Action.inputs, toList_some, cons_append, nil_append, mem_cons,
      not_mem_nil, or_false] at hd
    rcases hd with rfl | rfl | rfl
    · exact .inl ⟨g1, h1.mem, gt1, ht1.mem, by rw [h1.kind, ht1.kind]; decide, hr1.1, hrt1.1⟩
    · exact .inl ⟨g1, h1.mem, gt1, ht1.mem, by rw [h1.kind, ht1.kind]; decide, hr1.2, hrt1.2⟩
    · exact .inl ⟨g2, h2.mem, gt2, ht2.mem, by rw [h2.kind, ht2.kind]; decide, hr2.2, hrt2.2⟩
  · intro u hu
    refine ⟨?_, ?_⟩
    · rw [h2.value hl rfl hu, h1.value hl rfl hu]
      rfl
    · rw [hcout.value hl rfl hu, hor.value hl rfl hu, ht1.value hl rfl hu, ht2.value hl rfl hu,
        ht3.value hl rfl hu]
      rfl
  · intro rank hrank d hd
    have hs := h2.rank_lt hl rfl hrank
    have hx := h1.rank_lt hl rfl hrank
    have hc := hcout.rank_lt hl rfl hrank
    have ho := hor.rank_lt hl rfl hrank
    have hp1 := ht1.rank_lt hl rfl hrank
    have hp2 := ht2.rank_lt hl rfl hrank
    simp only [Action.inputs, toList_some, cons_append, nil_append, mem_cons,
      not_mem_nil, or_false] at hd
    rcases hd with rfl | rfl | rfl <;> dsimp only <;> omega

theorem not_of_mem (hg : g ∈ collectGates nl) (hk : g.k = .notGate)
    (h0 : g.in0 = some a) : (∀ u, Solves (system boolFns live) u → u g.out = !u a) ∧
      (∀ rank, LowRank live rank → rank a < rank g.out) ∧ (live.node? g.out).isSome := by
  obtain ⟨m, hm⟩ := names_of_mem hg
  have hpins : m.model.pins = ([a] ++ [g.out]).map some := by
    rw [hm.pins, if_pos hk, h0]
    rfl
  have hmem := hl.bases m hm.mem
  have hkind : m.model.kind = .not := by rw [hm.kind_eq, hk]; rfl
  have hfn : boolFns m = some ⟨1, [fun ins =>
    decide ((onOne LogicT.logicNot (ins.map LogicT.ofBool)).getD 0 .X = .H)]⟩ := by
    simp only [boolFns, hkind, ModelKind.gateFn, map_some]
    rfl
  refine ⟨fun u hu => ?_, fun rank hrank => ?_, ?_⟩
  · rw [value_of_pins [a] [g.out] 0 hu hmem hfn hpins rfl rfl rfl]
    rw [map_singleton]
    cases u a <;> rfl
  · exact rank_of_pins [a] [g.out] 0 hrank.ranked hmem hfn hpins rfl rfl rfl (by simp)
  · exact hl.binary.sound.isSome_node? hmem (by simp [hpins])

theorem justified_carry {gnot gxb gor : Gate} {x : NodeId}
    (hnot : gnot ∈ collectGates nl) (hk : gnot.k = .notGate) (h0 : gnot.in0 = some x)
    (hxb : Found nl .xorGate a b x gxb) (hor : Found nl .orGate a b cout gor)
    (hcin : ∃ c ∈ live.bases, ConstInput c .H cin) (hxor : xorAb = [] ∨ (xorAb = [gxb] ∧ pinCount nl false x = 1)) :
    Justified nl live ⟨true, a, b, some cin, gnot.out, cout, ([gnot, gor] ++ xorAb).map (·.pos)⟩ := by
  obtain ⟨hnv, hnr, hns⟩ := not_of_mem hl hnot hk h0
  obtain ⟨c, hc, hconst⟩ := hcin
  have hsx := hxb.isSome hl
  have hrx := hxb.reads (by decide)
  have hro := hor.reads (by decide)
  have hne : gxb.k ≠ gor.k := by rw [hxb.kind, hor.kind]; decide
  refine ⟨rfl, ?_, ?_, ?_, ?_, ?_⟩
  · intro n hn
    simp only [Action.inputs, toList_some, cons_append, nil_append,
      mem_cons, not_mem_nil, or_false] at hn
    rcases hn with rfl | rfl | rfl | rfl | rfl
    · exact hsx.1
    · exact hsx.2.1
    · exact hl.binary.sound.isSome_node? hc (by simp [hconst.pins])
    · exact hns
    · exact (hor.isSome hl).2.2
  · intro pos hpos
    obtain ⟨g, hg, rfl⟩ := mem_map.mp hpos
    rcases mem_append.mp hg with hg | hg
    · simp only [mem_cons, not_mem_nil, or_false] at hg
      rcases hg with rfl | rfl
      · exact ⟨g, hnot, rfl, .inl rfl⟩
      · exact ⟨g, hor.mem, rfl, .inr (.inl hor.out)⟩
    · rcases hxor with hnil | ⟨hone, hcount⟩
      · rw [hnil] at hg
        cases hg
      · have hgg : g = gxb := by
          rw [hone] at hg
          exact mem_singleton.mp hg
        rw [hgg]
        refine ⟨gxb, hxb.mem, rfl, .inr (.inr ⟨by rw [hxb.out, hcount], gnot, hnot, by simp, .inl ?_⟩)⟩
        rw [hxb.out, h0]
  · intro d hd
    simp only [Action.inputs, toList_some, cons_append, nil_append, mem_cons,
      not_mem_nil, or_false] at hd
    rcases hd with rfl | rfl | rfl
    · exact .inl ⟨gxb, hxb.mem, gor, hor.mem, hne, hrx.1, hro.1⟩
    · exact .inl ⟨gxb, hxb.mem, gor, hor.mem, hne, hrx.2, hro.2⟩
    · exact .inr ⟨c, hc, hconst⟩
  · intro u hu
    have hcarry : u cin = true := const_value hc hconst hu
    have hs := hnv u hu
    have hx := hxb.value hl rfl hu
    have ho := hor.value hl rfl hu
    simp only [Action.carry, hcarry, hs, hx, ho]
    cases u a <;> cases u b <;> decide
  · intro rank hrank d hd
    have hs := hnr rank hrank
    have hx := hxb.rank_lt hl rfl hrank
    have ho := hor.rank_lt hl rfl hrank
    have hzero := const_low hl.binary hc hconst hrank
    simp only [Action.inputs, toList_some, cons_append, nil_append, mem_cons,
      not_mem_nil, or_false] at hd
    rcases hd with rfl | rfl | rfl <;> dsimp only <;> omega

end

variable {st : State}

section

variable (h : BinaryNetlist nl) (hst : Searching nl st)

include h hst

theorem Searching.tryFullAdderPick {axb : NodeId} (hg2 : g2 ∈ collectGates nl) (hk : g2.k = .xorGate)
    (hins : (g2.in0 = some axb ∧ g2.in1 = some cin) ∨ (g2.in0 = some cin ∧ g2.in1 = some axb)) :
    Searching nl (tryFullAdderPick nl (collectGates nl) st g2 axb cin).1 := by
  unfold Adders.tryFullAdderPick
  cases hg1 : gateByOut (collectGates nl) .xorGate axb with
  | none => exact hst
  | some g1 =>
    dsimp only
    split
    · rename_i a b h0 h1
      split
      · rename_i t1 t2 t3 ht1 ht2 ht3
        split
        · exact hst
        · rename_i or12 hor12
          split
          · exact hst
          · rename_i cout hcout
            split
            · rename_i gt1 gt2 gt3 gor12 gcout hgt1 hgt2 hgt3 hgor12 hgcout
              split
              · exact hst
              · rename_i hcounts
                obtain ⟨xorAb, hxorAb, hxor⟩ : ∃ xorAb, (if (decide (pinCount nl false axb = 1) &&
                    canDeleteGateOutput nl axb) = true then [g1] else []) = xorAb ∧
                      (xorAb = [] ∨ (xorAb = [g1] ∧ pinCount nl false axb = 1)) := by
                  refine ⟨_, rfl, ?_⟩
                  split
                  · rename_i hdel
                    simp only [Bool.and_eq_true, decide_eq_true_eq] at hdel
                    exact .inr ⟨rfl, hdel.1⟩
                  · exact .inl rfl
                rw [hxorAb]
                split
                · have h1' := gateByOut_eq_some hg1
                  have hf1 : Found nl .xorGate a b axb g1 := h1'.2.1 ▸ found_of_mem h1'.1 h1'.2.2 (by decide) h0 h1
                  have hf2 : Found nl .xorGate axb cin g2.out g2 := by
                    obtain ⟨m, hm⟩ := names_of_mem hg2
                    refine ⟨hg2, rfl, hk, m, hm, ?_⟩
                    have h2 := hm.gate2 (by rw [hk]; decide) hins
                    rwa [hk] at h2
                  simp only [ne_eq, not_or, not_not] at hcounts
                  refine ⟨hst.live, fun act hact => ?_⟩
                  rcases mem_append.mp hact with hact | hact
                  · exact hst.actions act hact
                  · rw [mem_singleton.mp hact]
                    exact justified_full hst.live hf1 hf2 (found_of_gateOut h ht1 hgt1)
                      (found_of_gateOut h ht2 hgt2) (found_of_gateOut h ht3 hgt3)
                      (found_of_gateOut h hor12 hgor12) (found_of_gateOut h hcout hgcout) hcounts.2.2 hxor
                · exact ⟨hst.live, hst.actions⟩
            · exact hst
      · exact hst
    · exact hst

theorem Searching.tryAddFullAdderGeneral (hg2 : g2 ∈ collectGates nl) :
    Searching nl (tryAddFullAdderGeneral nl (collectGates nl) st g2) := by
  unfold Adders.tryAddFullAdderGeneral
  split
  · rename_i x y hk h0 h1
    have hfirst := hst.tryFullAdderPick h hg2 hk (.inl ⟨h0, h1⟩)
    dsimp only
    split
    · exact hfirst
    · exact hfirst.tryFullAdderPick h hg2 hk (.inr ⟨h0, h1⟩)
  · exact hst

theorem Searching.tryAddHalfAdder {gx : Gate} (hgx : gx ∈ collectGates nl) :
    Searching nl (tryAddHalfAdder nl (collectGates nl) st gx) := by
  unfold Adders.tryAddHalfAdder
  split
  · rename_i a b hk h0 h1
    split
    · exact hst
    · rename_i cnode hc
      split
      · exact hst
      · rename_i gand hand
        split
        · exact hst
        · dsimp only
          split
          · refine ⟨hst.live, fun act hact => ?_⟩
            rcases mem_append.mp hact with hact | hact
            · exact hst.actions act hact
            · rw [mem_singleton.mp hact]
              exact justified_half hst.live (found_of_mem hgx hk (by decide) h0 h1) (found_of_gateOut h hc hand)
          · exact ⟨hst.live, hst.actions⟩
  · exact hst

theorem Searching.tryAddFullAdderCin1 {gnot : Gate} (hnot : gnot ∈ collectGates nl) :
    Searching nl (tryAddFullAdderCin1 nl (collectGates nl) st gnot) := by
  unfold Adders.tryAddFullAdderCin1
  split
  · rename_i x hk h0
    split
    · exact hst
    · rename_i gxb hxb
      split
      · rename_i a b hx0 hx1
        split
        · exact hst
        · rename_i cnode hc
          split
          · exact hst
          · rename_i gor hor
            split
            · exact hst
            · obtain ⟨xorAb, hxorAb, hxor⟩ : ∃ xorAb, (if (decide (pinCount nl false x = 1) &&
                  canDeleteGateOutput nl x) = true then [gxb] else []) = xorAb ∧
                    (xorAb = [] ∨ (xorAb = [gxb] ∧ pinCount nl false x = 1)) := by
                refine ⟨_, rfl, ?_⟩
                split
                · rename_i hdel
                  simp only [Bool.and_eq_true, decide_eq_true_eq] at hdel
                  exact .inr ⟨rfl, hdel.1⟩
                · exact .inl rfl
              dsimp only
              rw [hxorAb]
              split
              · have hconst := findOrMakeConstNode_spec hst.live.binary.sound .H
                obtain ⟨hlive, hcin⟩ := hst.live.step (c := true) hconst
                have hx' := gateByOut_eq_some hxb
                have hfx : Found nl .xorGate a b x gxb := hx'.2.1 ▸ found_of_mem hx'.1 hx'.2.2 (by decide) hx0 hx1
                refine ⟨hlive, fun act hact => ?_⟩
                rcases mem_append.mp hact with hact | hact
                · exact (hst.actions act hact).mono hst.live hconst
                · rw [mem_singleton.mp hact]
                  exact justified_carry hlive hnot hk h0 hfx (found_of_gateOut h hc hor) hcin hxor
              · exact ⟨hst.live, hst.actions⟩
      · exact hst
  · exact hst

end

theorem Searching.foldl {f : State → Gate → State}
    (hf : ∀ st g, g ∈ collectGates nl → Searching nl st → Searching nl (f st g)) (hst : Searching nl st) :
    Searching nl ((collectGates nl).foldl f st) := by
  have hall : ∀ l : List Gate, (∀ g ∈ l, g ∈ collectGates nl) → ∀ st, Searching nl st →
      Searching nl (l.foldl f st) := by
    intro l hl
    induction l with
    | nil => exact fun _ hst => hst
    | cons g l ih =>
      exact fun st hst => ih (fun g' hg' => hl g' (mem_cons_of_mem _ hg')) _
        (hf st g (hl g mem_cons_self) hst)
  exact hall _ (fun _ hg => hg) st hst

theorem searching_search (h : BinaryNetlist nl) : Searching nl (search nl) := by
  have hstart : Searching nl { nl } := ⟨.refl h, by simp⟩
  have hfull := hstart.foldl fun _ _ hg hst => hst.tryAddFullAdderGeneral h hg
  have hhalf := hfull.foldl fun _ _ hg hst => hst.tryAddHalfAdder h hg
  exact hhalf.foldl fun _ _ hg hst => hst.tryAddFullAdderCin1 h hg

end Groups

theorem laterFirst_antisymm {x y : ModelPos} (h : laterFirst x y) (h' : laterFirst y x) : x = y := by
  cases x
  cases y
  simp only [laterFirst, ModelPos.mk.injEq] at h h' ⊢
  omega

instance : Std.Total laterFirst := ⟨fun x y => by
  simp only [laterFirst]
  omega⟩

instance : IsTrans ModelPos laterFirst := ⟨fun x y z h h' => by
  simp only [laterFirst] at h h' ⊢
  omega⟩

theorem nodup_toDelete (ps : List ModelPos) :
    ((ps.insertionSort laterFirst).destutter (· ≠ ·)).Nodup :=
  SortedLists.nodup_destutter (fun _ _ => laterFirst_antisymm) (pairwise_insertionSort laterFirst ps)

/-! ## The new adders -/

def Action.base (act : Action) : Model :=
  if act.isFull then ⟨.fullAdder, "", [], List.replicate 5 none⟩
  else ⟨.halfAdder, "", [], List.replicate 4 none⟩

def Action.model (act : Action) : Model :=
  { act.base with pins := (act.inputs ++ [act.s, act.cout]).map some }

section Adder

variable {act : Action} {b : ModelBase} {nl live cur : Netlist}

section

variable (hshape : act.isFull = act.cin.isSome)

include hshape

theorem addAdder_eq :
    addAdder nl act = ((act.inputs ++ [act.s, act.cout]).zipIdx.foldl
      (fun cur nk => (cur.addToNode (nl.addModel act.base).2 nk.2 nk.1).1) (nl.addModel act.base).1) := by
  obtain ⟨isFull, a, b, cin, s, cout, del⟩ := act
  cases cin with
  | none =>
    obtain rfl : isFull = false := hshape
    rfl
  | some c =>
    obtain rfl : isFull = true := hshape
    rfl

section

variable (hb : b.model = act.model)
include hb

theorem boolFns_adder :
    ∃ f g, boolFns b = some ⟨act.inputs.length, [f, g]⟩ ∧ ∀ u : NodeId → Bool,
      f (act.inputs.map u) = (u act.a ^^ u act.b ^^ act.carry u) ∧
        g (act.inputs.map u) = (u act.a && u act.b || u act.a && act.carry u || u act.b && act.carry u) := by
  obtain ⟨isFull, a, b', cin, s, cout, del⟩ := act
  cases cin with
  | none =>
    obtain rfl : isFull = false := hshape
    refine ⟨_, _, by simp only [boolFns, hb]; rfl, fun u => ?_⟩
    simp only [Action.inputs, Action.carry, toList_none, append_nil, map_cons, map_nil]
    cases u a <;> cases u b' <;> exact ⟨rfl, rfl⟩
  | some c =>
    obtain rfl : isFull = true := hshape
    refine ⟨_, _, by simp only [boolFns, hb]; rfl, fun u => ?_⟩
    simp only [Action.inputs, Action.carry, toList_some, cons_append, nil_append,
      map_cons, map_nil]
    cases u a <;> cases u b' <;> cases u c <;> exact ⟨rfl, rfl⟩

theorem kind_adder :
    b.model.isAnalog = false ∧ b.model.pins = (act.inputs ++ [act.s, act.cout]).map some ∧
      ∀ k < act.inputs.length + 2,
        isOutputPin b.model.kind k (act.inputs.length + 2) = decide (act.inputs.length ≤ k) := by
  obtain ⟨isFull, a, b', cin, s, cout, del⟩ := act
  rw [hb]
  cases cin with
  | none =>
    obtain rfl : isFull = false := hshape
    refine ⟨rfl, rfl, ?_⟩
    show ∀ k < 4, isOutputPin .halfAdder k 4 = decide (2 ≤ k)
    decide
  | some c =>
    obtain rfl : isFull = true := hshape
    refine ⟨rfl, rfl, ?_⟩
    show ∀ k < 5, isOutputPin .fullAdder k 5 = decide (3 ≤ k)
    decide

theorem wellPinned_adder :
    WellPinned boolFns b := by
  obtain ⟨f, g, hfn, -⟩ := boolFns_adder hshape hb
  obtain ⟨-, hpins, hout⟩ := kind_adder hshape hb
  constructor
  · intro g' hg' n hn
    simp [hpins]
  · intro g' hg'
    cases hfn.symm.trans hg'
    simp [hpins]
  · intro g' hg' k hk
    cases hfn.symm.trans hg'
    have hlen : b.model.pins.length = act.inputs.length + 2 := by simp [hpins]
    rw [hlen] at hk ⊢
    exact hout k hk

theorem mem_pinEquations_adder {e : Equation NodeId Bool} (he : e ∈ pinEquations boolFns b) :
    (e.target = act.s ∨ e.target = act.cout) ∧ e.deps = act.inputs ∧
      ∀ u : NodeId → Bool, (u act.s = (u act.a ^^ u act.b ^^ act.carry u) ∧
        u act.cout = (u act.a && u act.b || u act.a && act.carry u || u act.b && act.carry u)) →
          u e.target = e.fn u := by
  obtain ⟨f, g, hfn, hval⟩ := boolFns_adder hshape hb
  obtain ⟨-, hpins, -⟩ := kind_adder hshape hb
  obtain ⟨j, o, φ, ho, hφ, rfl⟩ := (mem_pinEquations_of_pins hfn hpins rfl).mp he
  match j with
  | 0 =>
    obtain rfl : act.s = o := by simpa using ho
    obtain rfl : f = φ := by simpa using hφ
    exact ⟨.inl rfl, rfl, fun u hu => by rw [Equation.apply_target, hu.1]; exact (hval u).1.symm⟩
  | 1 =>
    obtain rfl : act.cout = o := by simpa using ho
    obtain rfl : g = φ := by simpa using hφ
    exact ⟨.inr rfl, rfl, fun u hu => by rw [Equation.apply_target, hu.2]; exact (hval u).2.symm⟩
  | j + 2 => simp at ho

end

end

theorem rewired_foldl_addAdder {deleted : List Nat} {news : List ModelBase} {done acts : List Action}
    (hr : Rewired live [] deleted news cur)
    (hnews : List.Forall₂ (fun (b : ModelBase) act => b.model = act.model) news done)
    (hacts : ∀ act ∈ acts, Justified nl live act) :
    ∃ news', Rewired live [] deleted news' (acts.foldl addAdder cur) ∧
      List.Forall₂ (fun (b : ModelBase) act => b.model = act.model) news' (done ++ acts) := by
  induction acts generalizing news done cur with
  | nil => exact ⟨news, hr, by rwa [append_nil]⟩
  | cons act acts ih =>
    have hj := hacts act mem_cons_self
    have hlen : act.base.pins = replicate (act.inputs ++ [act.s, act.cout]).length none := by
      obtain ⟨isFull, a, b, cin, s, cout, del⟩ := act
      cases cin with
      | none =>
        obtain rfl : isFull = false := hj.shape
        rfl
      | some c =>
        obtain rfl : isFull = true := hj.shape
        rfl
    have hc := (Connecting.start hr.sound act.base _ hlen).connectAll fun n hn =>
      hr.isSome_node? (hj.isSome n hn)
    rw [nil_append, length_nil, ← addAdder_eq hj.shape] at hc
    have hdigital : act.base.isAnalog = false := (kind_adder (b := ⟨0, act.model⟩) hj.shape rfl).1
    obtain ⟨news', hr', hnews'⟩ := ih (hr.addConnected hdigital hc) (rel_append hnews (.cons rfl .nil))
      fun act' hact' => hacts act' (mem_cons_of_mem _ hact')
    refine ⟨news', hr', ?_⟩
    rwa [append_assoc] at hnews'

end Adder

/-! ## The netlist after the run -/

structure Ran (nl live : Netlist) (acts : List Action) (cur : Netlist) (deleted : List Nat)
    (news : List ModelBase) : Prop where
  consts : WithConsts true nl live
  actions : ∀ act ∈ acts, Justified nl live act
  rewired : Rewired live [] deleted news cur
  deleted : ∀ id, id ∈ deleted ↔ ∃ act ∈ acts, ∃ pos ∈ act.del, ∃ b, live.getModel pos = some b ∧ b.id = id
  news : List.Forall₂ (fun (b : ModelBase) act => b.model = act.model) news acts

theorem Justified.getModel {nl live : Netlist} {act : Action} (hl : WithConsts true nl live)
    (hj : Justified nl live act) {pos : ModelPos} (hpos : pos ∈ act.del) :
    ∃ g ∈ collectGates nl, ∃ m, Names nl g m ∧ live.getModel pos = some m ∧
      (g.out = act.s ∨ g.out = act.cout ∨ Inner nl act g.out) := by
  obtain ⟨g, hg, rfl, hout⟩ := hj.del pos hpos
  obtain ⟨m, hm⟩ := names_of_mem hg
  exact ⟨g, hg, m, hm, hl.getModel _ m hm.getModel, hout⟩

theorem exists_ran {nl : Netlist} (h : BinaryNetlist nl) : ∃ deleted news,
    Ran nl (search nl).nl (search nl).actions (optimizeAddersInPeNetlist nl) deleted news := by
  obtain ⟨hlive, hacts⟩ := searching_search h
  set live := (search nl).nl with hlivedef
  set acts := (search nl).actions with hactsdef
  set ps := ((acts.flatMap (·.del)).insertionSort laterFirst).destutter (· ≠ ·) with hps
  have hmem : ∀ pos, pos ∈ ps ↔ ∃ act ∈ acts, pos ∈ act.del := by
    intro pos
    rw [hps, SortedLists.mem_destutter_ne, mem_insertionSort, mem_flatMap]
  obtain ⟨deleted, hdel, hids⟩ := (Rewired.start hlive.binary.sound hlive.binary.digital).deleteAll
    hlive.binary.sound (nodup_toDelete _) fun pos hpos => by
      obtain ⟨act, hact, hpos⟩ := (hmem pos).mp hpos
      obtain ⟨-, -, m, -, hm, -⟩ := (hacts act hact).getModel hlive hpos
      exact ⟨m, hm, by simp⟩
  obtain ⟨news, hrew, hnews⟩ := rewired_foldl_addAdder hdel .nil hacts
  refine ⟨deleted, news, hlive, hacts, hrew, fun id => ?_, hnews⟩
  rw [hids]
  constructor
  · rintro (hid | ⟨pos, hpos, b, hb, rfl⟩)
    · cases hid
    · obtain ⟨act, hact, hpos⟩ := (hmem pos).mp hpos
      exact ⟨act, hact, pos, hpos, b, hb, rfl⟩
  · rintro ⟨act, hact, pos, hpos, b, hb, rfl⟩
    exact .inr ⟨pos, (hmem pos).mpr ⟨act, hact, hpos⟩, b, hb, rfl⟩

section Final

variable {nl live cur : Netlist} {acts : List Action} {deleted : List Nat} {news : List ModelBase}
  (hr : Ran nl live acts cur deleted news)

include hr

variable {b : ModelBase} {act : Action}

theorem Ran.action_of_new (hb : b ∈ news) : ∃ act ∈ acts, b.model = act.model := by
  obtain ⟨i, hi, rfl⟩ := mem_iff_getElem.mp hb
  have hlen := hr.news.length_eq
  exact ⟨acts[i], getElem_mem _, hr.news.get hi (by omega)⟩

theorem Ran.new_of_action (hact : act ∈ acts) : ∃ b ∈ news, b.model = act.model := by
  obtain ⟨i, hi, rfl⟩ := mem_iff_getElem.mp hact
  have hlen := hr.news.length_eq
  exact ⟨news[i], getElem_mem _, hr.news.get (by omega) hi⟩

theorem Ran.pin_new (hb : b ∈ news) (hact : act ∈ acts) (hmodel : b.model = act.model) {k : Nat}
    (hk : b.model.pins[k]? = some (some n)) :
    (n ∈ act.inputs ∧ cur.pinOut ⟨b.id, k⟩ = false) ∨
      ((n = act.s ∨ n = act.cout) ∧ cur.pinOut ⟨b.id, k⟩ = true) := by
  obtain ⟨-, hpins, hout⟩ := kind_adder (hr.actions act hact).shape hmodel
  have hlen : b.model.pins.length = act.inputs.length + 2 := by simp [hpins]
  have hlt := (List.getElem?_eq_some_iff.mp hk).1
  rw [hlen] at hlt
  have hpin := hr.rewired.sound.pinOut_eq (hr.rewired.mem_bases_new hb) k
  rw [hlen, decide_eq_true hlt, Bool.true_and, hout k hlt] at hpin
  rw [hpins, getElem?_map] at hk
  rw [hpin]
  by_cases hle : act.inputs.length ≤ k
  · refine .inr ⟨?_, decide_eq_true hle⟩
    rw [getElem?_append_right hle] at hk
    have hmem : n ∈ [act.s, act.cout] := by
      obtain ⟨x, hx, heq⟩ := map_eq_some_iff.mp hk
      rw [← some.inj heq]
      exact List.mem_of_getElem? hx
    simpa using hmem
  · refine .inl ⟨?_, decide_eq_false hle⟩
    rw [getElem?_append_left (by omega)] at hk
    obtain ⟨x, hx, heq⟩ := map_eq_some_iff.mp hk
    rw [← some.inj heq]
    exact List.mem_of_getElem? hx

theorem Ran.driverPin_new (hb : b ∈ news) (hact : act ∈ acts) (hmodel : b.model = act.model) :
    (∃ k, cur.DriverPin ⟨b.id, k⟩ act.s) ∧ ∃ k, cur.DriverPin ⟨b.id, k⟩ act.cout := by
  obtain ⟨-, hpins, hout⟩ := kind_adder (hr.actions act hact).shape hmodel
  have hmem := hr.rewired.mem_bases_new hb
  have hlen : b.model.pins.length = act.inputs.length + 2 := by simp [hpins]
  have hdriver : ∀ j n, j < 2 → [act.s, act.cout][j]? = some n → cur.DriverPin ⟨b.id, act.inputs.length + j⟩ n := by
    intro j n hj hn
    refine ⟨?_, (hr.rewired.sound.points_iff_pin hmem _ _).mpr ?_⟩
    · rw [hr.rewired.sound.pinOut_eq hmem, hlen, decide_eq_true (by omega), hout _ (by omega), Bool.true_and]
      exact decide_eq_true (Nat.le_add_right _ _)
    · rw [hpins, getElem?_map, getElem?_append_right (Nat.le_add_right _ _), Nat.add_sub_cancel_left, hn]
      rfl
  exact ⟨⟨_, hdriver 0 _ (by omega) rfl⟩, ⟨_, hdriver 1 _ (by omega) rfl⟩⟩

theorem Ran.lost_iff (n : NodeId) : ((∃ q, live.DriverPin q n) ∧ ¬ ∃ q, cur.DriverPin q n) ↔
    (∃ act ∈ acts, ∃ g ∈ collectGates nl, g.pos ∈ act.del ∧ g.out = n) ∧
      ∀ act ∈ acts, n ≠ act.s ∧ n ≠ act.cout := by
  have hs := hr.consts.binary.sound
  rw [hr.rewired.lost_iff hs hr.consts.binary.single]
  refine and_congr ⟨?_, ?_⟩ ⟨fun hnone act hact => ?_, fun hne b hb k hdriver => ?_⟩
  · rintro ⟨b, hb, hdel, k, hdriver⟩
    obtain ⟨act, hact, pos, hpos, c, hc, hid⟩ := (hr.deleted _).mp hdel
    obtain ⟨g, hg, m, hm, hget, -⟩ := (hr.actions act hact).getModel hr.consts hpos
    cases hc.symm.trans hget
    obtain rfl := hs.eq_of_id (mem_bases hc) hb hid
    have hgpos : g.pos = pos := hs.pos_eq_of_id (hr.consts.getModel _ _ hm.getModel) hget rfl
    refine ⟨act, hact, g, hg, hgpos ▸ hpos, ?_⟩
    -- A gate has one output pin.
    have hpin := (hs.points_iff_pin hb k n).mp hdriver.2
    have hout := hdriver.1
    rw [hs.pinOut_eq hb, hm.kind_eq, hm.pins] at hout
    rw [hm.pins] at hpin
    have hk : k = g.k.outPlace := by
      cases hgk : g.k <;> simp [hgk, Kind.modelKind, isOutputPin, Kind.outPlace] at hout ⊢ <;> omega
    rw [hk] at hpin
    cases hgk : g.k <;> simpa [hgk, Kind.outPlace] using hpin
  · rintro ⟨act, hact, g, hg, hpos, rfl⟩
    obtain ⟨m, hm⟩ := names_of_mem hg
    have hget := hr.consts.getModel _ _ hm.getModel
    have hmem := mem_bases hget
    refine ⟨m, hmem, (hr.deleted _).mpr ⟨act, hact, g.pos, hpos, m, hget, rfl⟩, g.k.outPlace, ?_⟩
    refine ⟨?_, (hs.points_iff_pin hmem _ _).mpr ?_⟩
    · rw [hs.pinOut_eq hmem, hm.kind_eq, hm.pins]
      cases g.k <;> rfl
    · rw [hm.pins]
      cases g.k <;> rfl
  · obtain ⟨b, hb, hmodel⟩ := hr.new_of_action hact
    obtain ⟨⟨k, hk⟩, ⟨j, hj⟩⟩ := hr.driverPin_new hb hact hmodel
    constructor
    · rintro rfl
      exact hnone b hb k hk
    · rintro rfl
      exact hnone b hb j hj
  · obtain ⟨act, hact, hmodel⟩ := hr.action_of_new hb
    have hpin := (hr.rewired.sound.points_iff_pin (hr.rewired.mem_bases_new hb) _ _).mp hdriver.2
    rcases hr.pin_new hb hact hmodel hpin with ⟨-, hfalse⟩ | ⟨hout, -⟩
    · rw [hdriver.1] at hfalse
      cases hfalse
    · rcases hout with hout | hout
      · exact (hne act hact).1 hout
      · exact (hne act hact).2 hout

theorem Ran.pinned_new (hb : b ∈ news) : WellPinned boolFns b := by
  obtain ⟨act, hact, hmodel⟩ := hr.action_of_new hb
  exact wellPinned_adder (hr.actions act hact).shape hmodel

theorem Ran.not_consumer (h : BinaryNetlist nl) (hlost : (∃ q, live.DriverPin q n) ∧ ¬ ∃ q, cur.DriverPin q n)
    (p : PinRef) : ¬ cur.ConsumerPin p n := by
  intro hp
  have hs := hr.consts.binary.sound
  obtain ⟨⟨act, hact, g, hg, hpos, hgo⟩, hne⟩ := (hr.lost_iff n).mp hlost
  obtain ⟨m, hm⟩ := names_of_mem hg
  have hinner : Inner nl act n := by
    obtain ⟨g', hg', m', hm', hget, hout⟩ := (hr.actions act hact).getModel hr.consts hpos
    cases hget.symm.trans (hr.consts.getModel _ _ hm.getModel)
    have hkind : g'.k = g.k := some.inj (hm'.kind.symm.trans hm.kind)
    have hsame : g'.out = g.out := by
      have hpins := hm'.pins.symm.trans hm.pins
      rw [hkind] at hpins
      split at hpins <;> simp_all
    rw [hsame, hgo] at hout
    rcases hout with hout | hout | hout
    · exact absurd hout (hne act hact).1
    · exact absurd hout (hne act hact).2
    · exact hout
  obtain ⟨hcount, r, hr', hrpos, hread⟩ := hinner
  obtain ⟨mr, hmr⟩ := names_of_mem hr'
  rcases hr.rewired.points_cases hp.2 with ⟨b, hb, hd, hid⟩ | ⟨b, hb, hid, hk⟩
  · have hpb : p = ⟨b.id, p.k⟩ := by rw [hid]
    rw [hpb] at hp
    obtain ⟨hout, x, hx, rfl⟩ := (hr.rewired.consumerPin_old hs hb hd _ _).mp hp
    rcases hr.consts.new b hb with hold | ⟨y, hconst, -⟩
    · have hcons : nl.ConsumerPin ⟨b.id, p.k⟩ x := by
        rw [hs.pinOut_eq hb] at hout
        exact ⟨by rw [h.sound.pinOut_eq hold]; exact hout, (h.sound.points_iff_pin hold _ _).mpr hx⟩
      obtain rfl := reader_unique hcount hmr hread hold (noted_of_consumerPin h hold hcons)
      exact hd ((hr.deleted _).mpr ⟨act, hact, r.pos, hrpos, b, hr.consts.getModel _ _ hmr.getModel, rfl⟩)
    · have hk0 : p.k = 0 := by
        rw [hconst.pins] at hx
        have hlt := (List.getElem?_eq_some_iff.mp hx).1
        simpa using hlt
      rw [hs.pinOut_eq hb, hconst.kind, hconst.pins, hk0] at hout
      cases hout
  · obtain ⟨act', hact', hmodel⟩ := hr.action_of_new hb
    rcases hr.pin_new hb hact' hmodel hk with ⟨hin, -⟩ | ⟨-, htrue⟩
    · rcases (hr.actions act' hact').read n hin with ⟨x, hx, y, hy, hxy, hrx, hry⟩ | ⟨c, hc, hconst⟩
      · obtain ⟨mx, hmx⟩ := names_of_mem hx
        obtain ⟨my, hmy⟩ := names_of_mem hy
        have h₁ := reader_unique hcount hmr hread hmx.mem (hrx.noted hmx)
        have h₂ := reader_unique hcount hmr hread hmy.mem (hry.noted hmy)
        have hkx := hmx.kind
        have hky := hmy.kind
        rw [h₁] at hkx
        rw [h₂] at hky
        exact hxy (some.inj (hkx.symm.trans hky))
      · have hmem := hr.consts.bases m hm.mem
        have hcd : live.DriverPin ⟨c.id, 0⟩ n := by
          refine ⟨?_, (hs.points_iff_pin hc 0 n).mpr (by simp [hconst.pins])⟩
          rw [hs.pinOut_eq hc, hconst.kind, hconst.pins]
          rfl
        have hgd : live.DriverPin ⟨m.id, g.k.outPlace⟩ n := by
          refine ⟨?_, (hs.points_iff_pin hmem _ _).mpr ?_⟩
          · rw [hs.pinOut_eq hmem, hm.kind_eq, hm.pins]
            cases g.k <;> rfl
          · rw [hm.pins, ← hgo]
            cases g.k <;> rfl
        have hcm := hs.eq_of_id hc hmem (congrArg PinRef.id (hr.consts.binary.single _ _ _ hcd hgd))
        have hkind := hm.kind_eq
        rw [← hcm, hconst.kind] at hkind
        cases hgk : g.k <;> simp [hgk, Kind.modelKind] at hkind
    · rw [hid] at htrue
      rw [hp.1] at htrue
      cases htrue

theorem Ran.keepsFunction (h : BinaryNetlist nl) {ports : List NodeId}
    (hports : ∀ n ∈ ports, ¬ ((∃ q, live.DriverPin q n) ∧ ¬ ∃ q, cur.DriverPin q n)) :
    KeepsFunction ports nl cur := by
  intro free v hv
  have hs := hr.consts.binary.sound
  obtain ⟨v₁, hv₁, hsame⟩ := hr.consts.exists_settled h hv
  obtain ⟨rank, hlow⟩ := hr.consts.binary.exists_lowRank
  have hreaders : ReadersDriven ports live cur := by
    intro n hobs hdriver
    by_contra hnone
    rcases hobs.2 with hport | ⟨p, hp⟩
    · exact hports n hport ⟨hdriver, hnone⟩
    · exact hr.not_consumer h ⟨hdriver, hnone⟩ p hp
  have hranked := hr.rewired.ranked hs ignoresPins_boolFns hr.consts.binary.pinned hlow.ranked (by simp) (by
    intro b hb e he d hd
    obtain ⟨act, hact, hmodel⟩ := hr.action_of_new hb
    obtain ⟨htarget, hdeps, -⟩ := mem_pinEquations_adder (hr.actions act hact).shape hmodel he
    have hlt := (hr.actions act hact).rank rank hlow d (hdeps ▸ hd)
    rcases htarget with htarget | htarget <;> rw [htarget]
    · exact hlt.1
    · exact hlt.2)
  obtain ⟨v₂, hv₂, hunique, hkeep⟩ := hr.rewired.sameFunction hs hr.consts.binary.single ignoresPins_boolFns
    hr.consts.binary.pinned (fun _ hb => hr.pinned_new hb) (by
      intro b hb
      obtain ⟨act, hact, hmodel⟩ := hr.action_of_new hb
      obtain ⟨f, g, hfn, -⟩ := boolFns_adder (hr.actions act hact).shape hmodel
      simp [hfn]) hranked hreaders (fun w hw => by
      refine ⟨w, ?_, fun _ _ => rfl, fun n hn => .inr (hw.rest n ?_)⟩
      · refine hr.rewired.solves hs ignoresPins_boolFns hr.consts.binary.pinned hw.solves (by simp) ?_
        intro b hb e he
        obtain ⟨act, hact, hmodel⟩ := hr.action_of_new hb
        exact (mem_pinEquations_adder (hr.actions act hact).shape hmodel he).2.2 w
          ((hr.actions act hact).value w hw.solves)
      · rintro ⟨e, he, rfl⟩
        exact hn (isSome_of_mem_system hs hr.consts.binary.pinned he).1) v₁ hv₁
  refine ⟨v₂, hv₂, hunique, fun n hn => ?_⟩
  rw [hkeep n ⟨hr.consts.isSome n hn.1, hn.2⟩, hsame n hn.1]

end Final

/-- The pass keeps the function exactly when no port is inside a group of gates that becomes
an adder. -/
theorem adders_keepsFunction_iff (topPortNodes : List NodeId) (nl : Netlist) (h : BinaryNetlist nl) :
    KeepsFunction topPortNodes nl (optimizeAddersInPeNetlist nl) ↔ ∀ n ∈ topPortNodes, ¬ Internal nl n := by
  obtain ⟨deleted, news, hr⟩ := exists_ran h
  constructor
  · intro hkeeps n hport hinternal
    obtain ⟨-, hlost⟩ := (hr.lost_iff n).mpr hinternal
    obtain ⟨⟨act, hact, g, hg, hpos, hgo⟩, -⟩ := hinternal
    obtain ⟨m, hm⟩ := names_of_mem hg
    refine h.not_keepsFunction_of_lost ⟨?_, .inl hport⟩ ?_ ?_ hkeeps
    · exact h.sound.isSome_node? hm.mem (List.mem_of_getElem? ((h.sound.points_iff_pin hm.mem _ _).mp
        (hgo ▸ (hm.driver h.sound).2)))
    · obtain ⟨fns, hfns⟩ := hm.exists_boolFns
      exact driven_of_driverPin h.sound hm.mem (h.pinned m hm.mem) hfns rfl (hgo ▸ hm.driver h.sound)
    · intro hdriven
      obtain ⟨b, -, k, -, hdriver⟩ := exists_driverPin_of_driven hr.rewired.sound
        (hr.rewired.pinned ignoresPins_boolFns hr.consts.binary.pinned fun _ hb => hr.pinned_new hb) hdriven
      exact hlost ⟨_, hdriver⟩
  · intro hports
    exact hr.keepsFunction h fun n hn hlost => hports n hn ((hr.lost_iff n).mp hlost)

/-- A full adder of gates over three inputs, with the product `a & b` at a port. -/
def fullAdderGates : Netlist := .ofModels 10 [.port .input [0] "a" [.digital .L],
  .port .input [1] "b" [.digital .L], .port .input [2] "ci" [.digital .L], .on .xor [0, 1, 3],
  .on .xor [3, 2, 4], .on .and [0, 1, 5], .on .and [0, 2, 6], .on .and [1, 2, 7], .on .or [5, 6, 8],
  .on .or [8, 7, 9], .port .output [4] "s" [], .port .output [9] "co" []]

theorem binaryNetlist_fullAdderGates : BinaryNetlist fullAdderGates :=
  binaryNetlist_of_check NodeId.index
    (by decide +kernel) (by decide +kernel) (by decide +kernel)

theorem adders_keepsFunction_fullAdder :
    KeepsFunction [.node 4, .node 9] fullAdderGates (optimizeAddersInPeNetlist fullAdderGates) ↔
      ∀ n ∈ [NodeId.node 4, .node 9], ¬ Internal fullAdderGates n :=
  adders_keepsFunction_iff [.node 4, .node 9] fullAdderGates binaryNetlist_fullAdderGates

/-- With a port on the product of the first two inputs the pass takes its driver away. -/
theorem adders_fullAdder_port : BinaryNetlist fullAdderGates ∧
    ¬ KeepsFunction [.node 5] fullAdderGates (optimizeAddersInPeNetlist fullAdderGates) := by
  have h := binaryNetlist_fullAdderGates
  refine ⟨h, ?_⟩
  have hdriver : fullAdderGates.DriverPin ⟨5, 2⟩ (.node 5) :=
    ⟨by decide +kernel, mem_allPins.mp (by decide +kernel)⟩
  have hgate : (⟨5, .on .and [0, 1, 5]⟩ : ModelBase) ∈
      fullAdderGates.bases := by decide +kernel
  refine h.not_keepsFunction_of_lost (n := .node 5) ⟨rfl, .inl (by simp)⟩ ?_ ?_
  · exact driven_of_driverPin h.sound hgate (h.pinned _ hgate) rfl rfl hdriver
  · -- No pin is left on the node.
    rintro ⟨e, he, htarget⟩
    obtain ⟨b, hb, he⟩ := mem_system.mp he
    obtain ⟨g, hg, -, j, n, f, hn, -, rfl⟩ := mem_pinEquations.mp he
    have hpoint : (optimizeAddersInPeNetlist fullAdderGates).Points ⟨b.id, g.arity + j⟩ (.node 5) :=
      ⟨b, hb, rfl, by rw [hn, ← htarget]; rfl⟩
    have hpins : ((allPins (optimizeAddersInPeNetlist fullAdderGates)).all fun pn =>
        decide (pn.2 ≠ .node 5)) = true := by decide +kernel
    rw [List.all_eq_true] at hpins
    exact of_decide_eq_true (hpins _ (mem_allPins.mpr hpoint)) rfl

end Adders

end PhyEngine
