import PhyEngine.Circuit.Termination
import PhyEngine.Library.AssocMap
import PhyEngine.Netlist.Trimming
import PhyEngine.Synth.TruthCones

/-!
# Structural hashing and dead models

`optimize_strash_in_pe_netlist` merges a gate with an earlier one of the same kind and inputs,
`optimize_dce_in_pe_netlist` deletes models without readers. A node of a key whose readers have
gone elsewhere stays dead (`Dead`), so a match always has the inputs of its key (`EntryOk`).
-/

namespace PhyEngine

open Equations Netlist
open Option (map_eq_some_iff map_some some)

namespace Strash

open Adders (positions)
open TruthCones (Kind Gate classify Names names_of_classify)

def commutative : Kind → Bool
  | .andGate | .orGate | .xorGate | .xnorGate | .nandGate | .norGate => true
  | _ => false

structure Key where
  k : Kind
  a : NodeId
  b : Option NodeId
  deriving DecidableEq

def Key.nodes (key : Key) : List NodeId := key.a :: key.b.toList

variable (addr : NodeId → Nat)

def canonKey (k : Kind) (a b : NodeId) : Key :=
  if commutative k = true ∧ addr b < addr a then ⟨k, b, some a⟩ else ⟨k, a, some b⟩

def keyOf (g : Gate) : Option Key :=
  if g.k = .notGate then g.in0.map fun a => ⟨.notGate, a, none⟩
  else g.in0.bind fun a => g.in1.map fun b => canonKey addr g.k a b

/-- The netlist with `rep` and `changed`; the newest entry of a key counts. -/
structure State where
  nl : Netlist
  rep : List (Key × Gate) := []
  changed : Bool := false

section Passes

variable (addr : NodeId → Nat) (prot : List NodeId) (snap : Netlist)

variable (nl : Netlist)

def merge (keep drop : Gate) : Netlist × Bool :=
  nl.replaceOutput snap.pinOut prot drop.out keep.out drop.outPin drop.pos

def meet (st : State) (key : Key) (g : Gate) : State :=
  match st.rep.lookup key with
  | none => { st with rep := (key, g) :: st.rep }
  | some r =>
    if r.out ∈ prot then
      if g.out ∈ prot then st
      else
        let merged := merge prot snap st.nl r g
        if merged.2 then { st with nl := merged.1, changed := true } else st
    else if g.out ∈ prot then
      let merged := merge prot snap st.nl g r
      if merged.2 then ⟨merged.1, (key, g) :: st.rep, true⟩ else st
    else
      let merged := merge prot snap st.nl r g
      if merged.2 then { st with nl := merged.1, changed := true } else st

def visit (st : State) (pos : ModelPos) : State :=
  match st.nl.getModel pos with
  | none => st
  | some m =>
    match classify m pos with
    | none => st
    | some g =>
      match keyOf addr g with
      | none => st
      | some key => meet prot snap st key g

def optimizeStrash : Netlist × Bool :=
  let st := ((positions nl).map Prod.fst).foldl (visit addr prot nl) { nl }
  (st.nl, st.changed)

def outputPins (m : Model) : List (Option NodeId × Nat) :=
  m.pins.zipIdx.filter fun p => isOutputPin m.kind p.2 m.pins.length

def isDead (m : Model) : Bool :=
  !m.staysAsPort && decide (outputPins m ≠ []) && (outputPins m).all fun p =>
    match p.1 with
    | none => true
    | some n => decide (n ∉ prot) && decide (fanCount false snap n = 0)

def sweepModel (st : Netlist × Bool) (pos : ModelPos) : Netlist × Bool :=
  match st.1.getModel pos with
  | none => st
  | some b =>
    if isDead prot snap b.model then
      let gone := st.1.deleteModel pos
      (gone.1, st.2 || gone.2)
    else st

def optimizeDce : Netlist × Bool :=
  ((positions nl).map Prod.fst).foldl (sweepModel prot nl) (nl, false)

inductive Pass
  | strash
  | dce

def Pass.run : Pass → Netlist
  | strash => (optimizeStrash addr prot nl).1
  | dce => (optimizeDce prot nl).1

end Passes

/-- Gates of a kind have one function, which does not look at the order of the inputs where
`canon_key` does not. -/
def GateFns {α : Type*} (S : PinSemantics α) : Prop :=
  ∀ k : Kind, ∃ f : List α → α,
    (∀ b : ModelBase, b.model.kind = k.modelKind → S b = some ⟨if k = .notGate then 1 else 2, [f]⟩) ∧
      (commutative k = true → ∀ x y, f [x, y] = f [y, x])

section Keys

variable {α : Type*} {S : PinSemantics α} {addr : NodeId → Nat} {nl : Netlist} {g g' : Gate} {m : ModelBase} {key : Key}
  {n : NodeId}

theorem canonKey_k (k : Kind) (a b : NodeId) : (canonKey addr k a b).k = k := by
  unfold canonKey
  split <;> rfl

theorem keyOf_eq_some (hkey : keyOf addr g = some key) : key.k = g.k ∧
    ((g.k = .notGate ∧ ∃ a, g.in0 = some a ∧ key = ⟨.notGate, a, none⟩) ∨
      (g.k ≠ .notGate ∧ ∃ a b, g.in0 = some a ∧ g.in1 = some b ∧ key = canonKey addr g.k a b)) := by
  unfold keyOf at hkey
  split at hkey
  · rename_i hk
    obtain ⟨a, ha, rfl⟩ := map_eq_some_iff.mp hkey
    exact ⟨hk.symm, .inl ⟨hk, a, ha, rfl⟩⟩
  · rename_i hk
    obtain ⟨a, ha, hkey⟩ := Option.bind_eq_some_iff.mp hkey
    obtain ⟨b, hb, rfl⟩ := map_eq_some_iff.mp hkey
    exact ⟨canonKey_k _ _ _, .inr ⟨hk, a, b, ha, hb, rfl⟩⟩

theorem mem_nodes_of_keyOf (hkey : keyOf addr g = some key) :
    n ∈ key.nodes ↔ g.in0 = some n ∨ (g.k ≠ .notGate ∧ g.in1 = some n) := by
  obtain ⟨-, ⟨hk, a, ha, rfl⟩ | ⟨hk, a, b, ha, hb, rfl⟩⟩ := keyOf_eq_some hkey
  · simp [Key.nodes, ha, hk, eq_comm]
  · unfold canonKey
    split <;> simp [Key.nodes, ha, hb, hk, eq_comm, or_comm]

theorem value_of_key (hn : Names nl g m) (hkey : keyOf addr g = some key) {f : List α → α}
    (hf : ∀ b : ModelBase, b.model.kind = key.k.modelKind → S b = some ⟨if key.k = .notGate then 1 else 2, [f]⟩)
    (hcomm : commutative key.k = true → ∀ x y, f [x, y] = f [y, x]) {v : NodeId → α}
    (hv : Solves (system S nl) v) : v g.out = f (key.nodes.map v) := by
  obtain ⟨hk, hcases⟩ := keyOf_eq_some hkey
  have hS := hf m (by rw [hn.kind, hk])
  rcases hcases with ⟨hnot, a, ha, rfl⟩ | ⟨hbin, a, b, ha, hb, rfl⟩
  · have hpins : m.model.pins = ([a] ++ [g.out]).map some := by
      rw [hn.pins, if_pos hnot, ha]
      rfl
    exact value_of_pins [a] [g.out] 0 hv hn.mem hS hpins rfl rfl rfl
  · have hpins : m.model.pins = ([a, b] ++ [g.out]).map some := by
      rw [hn.pins, if_neg hbin, ha, hb]
      rfl
    rw [canonKey_k] at hS hcomm
    rw [if_neg hbin] at hS
    rw [value_of_pins [a, b] [g.out] 0 hv hn.mem hS hpins rfl rfl rfl]
    unfold canonKey
    split
    · rename_i hswap
      exact hcomm hswap.1 _ _
    · rfl

theorem modelKind_injective {k k' : Kind} (h : k.modelKind = k'.modelKind) : k = k' := by
  cases k <;> cases k' <;> first | rfl | cases h

theorem names_unique (addr : NodeId → Nat) (hn : Names nl g m) (hn' : Names nl g' m) :
    g.out = g'.out ∧ keyOf addr g = keyOf addr g' := by
  have hk : g.k = g'.k := modelKind_injective (hn.kind.symm.trans hn'.kind)
  have hpins := hn.pins.symm.trans hn'.pins
  unfold keyOf
  by_cases hnot : g.k = .notGate
  · rw [if_pos hnot, if_pos (hk ▸ hnot)] at hpins ⊢
    simp only [List.cons.injEq, some.injEq, and_true] at hpins
    exact ⟨hpins.2, by rw [hpins.1]⟩
  · rw [if_neg hnot, if_neg (hk ▸ hnot)] at hpins ⊢
    simp only [List.cons.injEq, some.injEq, and_true] at hpins
    exact ⟨hpins.2.2, by rw [hpins.1, hpins.2.1, hk]⟩

end Keys

section Pins

variable {α : Type*} {S : PinSemantics α} {nl cur : Netlist} {g : Gate} {m : ModelBase} {n : NodeId}
  {prot : List NodeId} {moves : List (NodeId × NodeId)} {deleted : List Nat}

theorem pinOut_of_names (hs : Sound nl) (hn : Names nl g m) (j : Nat) :
    nl.pinOut ⟨m.id, j⟩ = decide (j = if g.k = .notGate then 1 else 2) := by
  have hlen : m.model.pins.length = if g.k = .notGate then 2 else 3 := by
    rw [hn.pins]
    split <;> rfl
  rw [hs.pinOut_eq hn.mem, hlen, hn.kind, Bool.eq_iff_iff, Bool.and_eq_true, decide_eq_true_eq, decide_eq_true_eq]
  cases g.k <;> simp [Kind.modelKind, isOutputPin] <;> omega

theorem driverPin_of_names (hs : Sound nl) (hn : Names nl g m) :
    nl.DriverPin ⟨m.id, if g.k = .notGate then 1 else 2⟩ g.out := by
  refine ⟨by rw [pinOut_of_names hs hn]; exact decide_eq_true rfl, (hs.points_iff_pin hn.mem _ _).mpr ?_⟩
  rw [hn.pins]
  split <;> rfl

theorem eq_out_of_driverPin (hs : Sound nl) (hn : Names nl g m) {j : Nat} (hp : nl.DriverPin ⟨m.id, j⟩ n) :
    n = g.out := by
  obtain ⟨hout, hpoint⟩ := hp
  rw [pinOut_of_names hs hn, decide_eq_true_eq] at hout
  subst hout
  exact hs.points_unique hpoint (driverPin_of_names hs hn).2

theorem consumerPin_of_names (hs : Sound nl) (hn : Names nl g m)
    (hin : g.in0 = some n ∨ (g.k ≠ .notGate ∧ g.in1 = some n)) : ∃ p, nl.ConsumerPin p n := by
  rcases hin with hin | ⟨hk, hin⟩
  · refine ⟨⟨m.id, 0⟩, ?_, (hs.points_iff_pin hn.mem _ _).mpr ?_⟩
    · rw [pinOut_of_names hs hn, decide_eq_false_iff_not]
      split <;> simp
    · rw [hn.pins, hin]
      split <;> rfl
  · refine ⟨⟨m.id, 1⟩, ?_, (hs.points_iff_pin hn.mem _ _).mpr ?_⟩
    · rw [pinOut_of_names hs hn, decide_eq_false_iff_not, if_neg hk]
      simp
    · rw [hn.pins, hin, if_neg hk]
      rfl

theorem names_trimmed (h : Trimmable S nl) (ht : Trimmed S prot nl moves deleted cur) (hn : Names nl g m)
    (hd : m.id ∉ deleted) :
    Names cur { g with in0 := g.in0.map (follow moves), in1 := g.in1.map (follow moves) }
      (followPins nl.pinOut moves m) := by
  refine ⟨ht.rewired.getModel g.pos m hn.getModel hd, hn.kind, ?_, hn.outPin⟩
  have hout := pinOut_of_names h.sound hn
  rw [followPins]
  dsimp only
  rw [hn.pins]
  by_cases hk : g.k = .notGate
  · rw [if_pos hk, if_pos hk]
    simp [hout, hk]
  · rw [if_neg hk, if_neg hk]
    simp [hout, hk]

end Pins

/-- An entry of `rep` is a gate that has its key, unless the key names a dead node. -/
def EntryOk (nl : Netlist) (key : Key) (g : Gate) : Prop :=
  (∃ n ∈ key.nodes, Dead nl n) ∨ ∃ in0 in1 m, Names nl { g with in0 := in0, in1 := in1 } m ∧
    keyOf addr { g with in0 := in0, in1 := in1 } = some key

/-- What holds in front of every model that the hashing visits. -/
structure Hashing {α : Type*} (S : PinSemantics α) (addr : NodeId → Nat) (prot : List NodeId)
    (snap : Netlist) (st : State) : Prop where
  trimmed : ∃ moves deleted, Trimmed S prot snap moves deleted st.nl
  entry : ∀ key g, st.rep.lookup key = some g → EntryOk addr st.nl key g

section Table

variable {α : Type*} {S : PinSemantics α} {addr : NodeId → Nat} {prot : List NodeId} {snap nl cur : Netlist}
  {st : State} {g keep drop : Gate} {m d : ModelBase} {key : Key} {moves : List (NodeId × NodeId)} {deleted : List Nat}

theorem EntryOk.trimmed (he : EntryOk addr nl key g) (h : Trimmable S nl)
    (ht : Trimmed S prot nl moves deleted cur) (hdead : ∀ move ∈ moves, Dead cur move.1)
    (hleft : ∀ in0 in1 m, Names nl { g with in0 := in0, in1 := in1 } m →
      keyOf addr { g with in0 := in0, in1 := in1 } = some key → m.id ∉ deleted) : EntryOk addr cur key g := by
  rcases he with ⟨n, hn, hd⟩ | ⟨in0, in1, m, hn, hkey⟩
  · exact .inl ⟨n, hn, hd.trimmed h ht⟩
  · by_cases hmoved : ∃ move ∈ moves, move.1 ∈ key.nodes
    · obtain ⟨move, hmove, hmem⟩ := hmoved
      exact .inl ⟨move.1, hmem, hdead move hmove⟩
    · have hstay : ∀ n ∈ key.nodes, follow moves n = n := fun n hn =>
        follow_eq_self fun move hmove heq => hmoved ⟨move, hmove, heq ▸ hn⟩
      refine .inr ⟨in0.map (follow moves), in1.map (follow moves), _,
        names_trimmed h ht hn (hleft in0 in1 m hn hkey), ?_⟩
      have hnodes := fun n => mem_nodes_of_keyOf (n := n) hkey
      obtain ⟨-, ⟨hk, a, ha, rfl⟩ | ⟨hk, a, b, ha, hb, rfl⟩⟩ := keyOf_eq_some hkey
      · have hfollow := hstay a ((hnodes a).mpr (.inl ha))
        dsimp only at hk ha
        rw [keyOf, if_pos hk]
        dsimp only
        rw [ha, map_some, hfollow, map_some]
      · have hfollow₀ := hstay a ((hnodes a).mpr (.inl ha))
        have hfollow₁ := hstay b ((hnodes b).mpr (.inr ⟨hk, hb⟩))
        dsimp only at hk ha hb
        rw [keyOf, if_neg hk]
        dsimp only
        rw [ha, hb, map_some, map_some, hfollow₀, hfollow₁, Option.bind_some, map_some]

theorem merge_trimmed (hS : GateFns S) (h : Trimmable S snap) (ht : Trimmed S prot snap moves deleted nl)
    (hkeep : Names nl keep m) (hdrop : Names nl drop d) (hkey : keyOf addr keep = some key)
    (hkey' : keyOf addr drop = some key) (hprot : drop.out ∉ prot)
    (hmerged : (merge prot snap nl keep drop).2 = true) :
    drop.out ≠ keep.out ∧ Trimmed S prot nl [(drop.out, keep.out)] [d.id]
      (merge prot snap nl keep drop).1 := by
  have hnl := ht.trimmable h
  have hne : drop.out ≠ keep.out := by
    intro heq
    rw [merge, replaceOutput, moveConsumersFrom, if_pos heq] at hmerged
    cases hmerged
  obtain ⟨f, hf, hcomm⟩ := hS key.k
  have hport : d.model.staysAsPort = false := by
    rw [Model.staysAsPort, hdrop.kind]
    cases drop.k <;> simp [Kind.modelKind]
  have hstep := hnl.replaceOutput prot hdrop.getModel
    (driverPin_of_names hnl.sound hdrop) (fun _ _ hp => eq_out_of_driverPin hnl.sound hdrop hp) hport hne hprot
    ⟨_, driverPin_of_names hnl.sound hkeep⟩ fun v hv => by
      rw [value_of_key hdrop hkey' hf hcomm hv, value_of_key hkeep hkey hf hcomm hv]
  rw [merge, ht.replaceOutput_eq h, hdrop.outPin]
  exact ⟨hne, hstep.2⟩

/-- A step in which two gates with one key are merged keeps the entries of the other keys, and
that of the gate that is left. -/
theorem EntryOk.merged (h : Trimmable S nl) (he : EntryOk addr nl key g) {key₀ : Key} (hdrop : Names nl drop d)
    (hkey₀ : keyOf addr drop = some key₀) (hne : drop.out ≠ keep.out) (hg : key = key₀ → g.out = keep.out)
    (ht : Trimmed S prot nl [(drop.out, keep.out)] [d.id] cur) : EntryOk addr cur key g := by
  refine he.trimmed h ht (fun move hmove => ?_) fun in0 in1 m hn hkey hmem => ?_
  · rw [List.mem_singleton.mp hmove]
    exact ht.dead h hdrop.mem (List.mem_singleton_self _) (driverPin_of_names h.sound hdrop)
  · obtain rfl := h.sound.eq_of_id hn.mem hdrop.mem (List.mem_singleton.mp hmem)
    obtain ⟨hout, hsame⟩ := names_unique addr hn hdrop
    rw [hkey, hkey₀, some.injEq] at hsame
    exact hne (hout.symm.trans (hg hsame))

theorem EntryOk.names (h : Trimmable S nl) (he : EntryOk addr nl key g) {g' : Gate} (hn : Names nl g' m)
    (hkey : keyOf addr g' = some key) : ∃ in0 in1 d, Names nl { g with in0 := in0, in1 := in1 } d ∧
      keyOf addr { g with in0 := in0, in1 := in1 } = some key := by
  rcases he with ⟨n, hmem, hdead⟩ | he
  · obtain ⟨p, hp⟩ := consumerPin_of_names h.sound hn ((mem_nodes_of_keyOf hkey).mp hmem)
    exact absurd hp (hdead.unread p)
  · exact he

theorem entryOk_self (hn : Names nl g m) (hkey : keyOf addr g = some key) : EntryOk addr nl key g :=
  .inr ⟨g.in0, g.in1, m, hn, hkey⟩

theorem Hashing.meet (hS : GateFns S) (h : Trimmable S snap) (hst : Hashing S addr prot snap st)
    (hn : Names st.nl g m) (hkey : keyOf addr g = some key) :
    Hashing S addr prot snap (meet prot snap st key g) := by
  obtain ⟨moves, deleted, ht⟩ := hst.trimmed
  have hnl := ht.trimmable h
  unfold Strash.meet
  cases hlookup : st.rep.lookup key with
  | none =>
    refine ⟨⟨moves, deleted, ht⟩, fun key' g' hg' => ?_⟩
    rw [AssocMap.lookup_cons] at hg'
    split at hg'
    · rename_i heq
      cases hg'
      rw [heq]
      exact entryOk_self hn hkey
    · exact hst.entry key' g' hg'
  | some r =>
    obtain ⟨in0, in1, d, hr, hkeyr⟩ := (hst.entry key r hlookup).names hnl hn hkey
    -- The earlier gate is kept.
    have hold : g.out ∉ prot → (merge prot snap st.nl r g).2 = true →
        Hashing S addr prot snap
          { st with nl := (merge prot snap st.nl r g).1, changed := true } := by
      intro hprot hmerged
      obtain ⟨hne, hstep⟩ := merge_trimmed hS h ht hr hn hkeyr hkey hprot hmerged
      refine ⟨⟨_, _, ht.trans h hstep⟩, fun key' g' hg' => ?_⟩
      refine (hst.entry key' g' hg').merged hnl hn hkey hne (fun heq => ?_) hstep
      rw [heq, hlookup] at hg'
      rw [← some.inj hg']
    -- The later gate is kept, and takes the place of the earlier one in the table.
    have hnew : r.out ∉ prot → (merge prot snap st.nl g r).2 = true →
        Hashing S addr prot snap ⟨(merge prot snap st.nl g r).1, (key, g) :: st.rep, true⟩ := by
      intro hprot hmerged
      obtain ⟨hne, hstep⟩ := merge_trimmed hS h ht hn hr hkey hkeyr hprot hmerged
      refine ⟨⟨_, _, ht.trans h hstep⟩, fun key' g' hg' => ?_⟩
      dsimp only at hg'
      rw [AssocMap.lookup_cons] at hg'
      split at hg'
      · rename_i heq
        cases hg'
        rw [heq]
        exact (entryOk_self hn hkey).merged hnl hr hkeyr hne (fun _ => rfl) hstep
      · rename_i hother
        exact (hst.entry key' g' hg').merged hnl hr hkeyr hne (fun heq => absurd heq hother) hstep
    dsimp only
    split
    · split
      · exact hst
      · rename_i hprot
        split
        · rename_i hmerged
          exact hold hprot hmerged
        · exact hst
    · rename_i hprotr
      split
      · split
        · rename_i hmerged
          exact hnew hprotr hmerged
        · exact hst
      · rename_i hprot
        split
        · rename_i hmerged
          exact hold hprot hmerged
        · exact hst

theorem Hashing.visit (hS : GateFns S) (h : Trimmable S snap) (hst : Hashing S addr prot snap st)
    (pos : ModelPos) : Hashing S addr prot snap (visit addr prot snap st pos) := by
  unfold Strash.visit
  cases hm : st.nl.getModel pos with
  | none => exact hst
  | some m =>
    dsimp only
    cases hg : classify m pos with
    | none => exact hst
    | some g =>
      dsimp only
      cases hkey : keyOf addr g with
      | none => exact hst
      | some key => exact hst.meet hS h (names_of_classify hm hg) hkey

theorem exists_trimmed_strash (hS : GateFns S) (h : Trimmable S snap) (addr : NodeId → Nat)
    (prot : List NodeId) :
    ∃ moves deleted, Trimmed S prot snap moves deleted (optimizeStrash addr prot snap).1 := by
  have hrun : ∀ (ps : List ModelPos) (st : State), Hashing S addr prot snap st →
      Hashing S addr prot snap (ps.foldl (Strash.visit addr prot snap) st) := by
    intro ps
    induction ps with
    | nil => exact fun st hst => hst
    | cons pos ps ih => exact fun st hst => ih _ (hst.visit hS h pos)
  exact (hrun _ { nl := snap } ⟨⟨_, _, .refl h⟩, by simp⟩).trimmed

theorem not_consumerPin_of_fanCount {n : NodeId} (hcount : fanCount false nl n = 0) (p : PinRef) :
    ¬ nl.ConsumerPin p n := by
  intro hp
  have hmem : (p, n) ∈ nl.allPins.filter fun pn => pn.2 = n ∧ nl.pinOut pn.1 = false :=
    List.mem_filter.mpr ⟨mem_allPins.mpr hp.2, by simp [hp.1]⟩
  rw [List.eq_nil_of_length_eq_zero hcount] at hmem
  cases hmem

theorem exists_trimmed_sweepModel {deleted : List Nat} (h : Trimmable S snap)
    (ht : Trimmed S prot snap [] deleted nl) (changed : Bool) (pos : ModelPos) :
    ∃ deleted', Trimmed S prot snap [] deleted' (sweepModel prot snap (nl, changed) pos).1 := by
  unfold Strash.sweepModel
  cases hb : nl.getModel pos with
  | none => exact ⟨deleted, ht⟩
  | some b =>
    dsimp only
    split
    · rename_i hdead
      simp only [isDead, Bool.and_eq_true, Bool.not_eq_true', decide_eq_true_eq, List.all_eq_true] at hdead
      have hnl := ht.trimmable h
      have hstep := hnl.deleteModel prot hb hdead.1.1 fun k n hp => by
        have hk := (hnl.sound.points_iff_pin (mem_bases hb) k n).mp hp.2
        have hout := hp.1
        rw [hnl.sound.pinOut_eq (mem_bases hb), Bool.and_eq_true] at hout
        have hpin := hdead.2 (some n, k)
          (List.mem_filter.mpr ⟨List.mem_zipIdx_iff_getElem?.mpr hk, hout.2⟩)
        simp only [Bool.and_eq_true, decide_eq_true_eq] at hpin
        refine ⟨hpin.1, fun p hp => ?_⟩
        rcases ht.rewired.points_cases hp.2 with ⟨c, hc, hd, hid⟩ | ⟨c, hc, -⟩
        · have hpc : p = ⟨c.id, p.k⟩ := by rw [hid]
          rw [hpc] at hp
          obtain ⟨hin, m, hm, rfl⟩ := (ht.rewired.consumerPin_old h.sound hc hd _ _).mp hp
          exact not_consumerPin_of_fanCount hpin.2 _ ⟨hin, (h.sound.points_iff_pin hc _ _).mpr hm⟩
        · exact absurd hc List.not_mem_nil
      exact ⟨_, ht.trans h hstep⟩
    · exact ⟨deleted, ht⟩

theorem exists_trimmed_dce (h : Trimmable S snap) (prot : List NodeId) :
    ∃ moves deleted, Trimmed S prot snap moves deleted (optimizeDce prot snap).1 := by
  have hrun : ∀ (ps : List ModelPos) (st : Netlist × Bool),
      (∃ deleted, Trimmed S prot snap [] deleted st.1) →
      ∃ deleted, Trimmed S prot snap [] deleted (ps.foldl (sweepModel prot snap) st).1 := by
    intro ps
    induction ps with
    | nil => exact fun st hst => hst
    | cons pos ps ih =>
      rintro st ⟨deleted, hst⟩
      exact ih _ (exists_trimmed_sweepModel h hst st.2 pos)
  obtain ⟨deleted, ht⟩ := hrun _ (snap, false) ⟨_, .refl h⟩
  exact ⟨_, deleted, ht⟩

theorem exists_trimmed_runs (hS : GateFns S) (addr : NodeId → Nat) (prot : List NodeId) (runs : List Pass) :
    ∀ {nl : Netlist}, Trimmable S nl →
      ∃ moves deleted, Trimmed S prot nl moves deleted (runs.foldl (Pass.run addr prot) nl) := by
  induction runs with
  | nil => exact fun h => ⟨_, _, .refl h⟩
  | cons pass runs ih =>
    intro nl h
    obtain ⟨moves, deleted, ht⟩ : ∃ moves deleted,
        Trimmed S prot nl moves deleted (pass.run addr prot nl) := by
      cases pass with
      | strash => exact exists_trimmed_strash hS h addr prot
      | dce => exact exists_trimmed_dce h prot
    obtain ⟨moves', deleted', ht'⟩ := ih (ht.trimmable h)
    exact ⟨_, _, ht.trans h ht'⟩

end Table

def triFn : List LogicT → LogicT
  | [a, en] => if en = .H then a else .Z
  | _ => .X

/-- The pin functions of the device models on states. The outputs of the flip-flops are left to the
background. -/
def clockedFns (σ : Nat → LogicT) : PinSemantics LogicT := fun b =>
  if b.model.kind = .tri then some ⟨2, [triFn]⟩ else stateFns σ b

/-- An acyclic netlist in which no node has two drivers and every model but the flip-flops is
connected, or not connected at all. -/
structure ClockedNetlist (nl : Netlist) : Prop where
  sound : Sound nl
  digital : Digital nl
  length : ∀ b ∈ nl.bases, ∀ shape, b.model.kind.pinShape = some shape →
    b.model.pins.length = shape.1 + shape.2
  connected : ∀ b ∈ nl.bases, b.model.kind.pinShape.isSome → ∀ n, some n ∈ b.model.pins → none ∉ b.model.pins
  single : SingleDriverPins nl
  acyclic : ∃ rank : NodeId → Nat, ∀ σ, Ranked (system (clockedFns σ) nl) rank

/-- What the passes owe to such a netlist: the nodes that are still observed have their state, for
every state of the inputs and the flip-flops, the ports are there, and the netlist is
acyclic. -/
structure KeepsClocked (prot : List NodeId) (nl nl' : Netlist) : Prop where
  state : ∀ σ background, SameFunction (clockedFns σ) background nl nl' (Observed prot nl nl')
  ports : ∀ b ∈ nl.bases, b.model.staysAsPort = true →
    ∃ pins, (⟨b.id, { b.model with pins := pins }⟩ : ModelBase) ∈ nl'.bases
  acyclic : ∃ rank : NodeId → Nat, ∀ σ, Ranked (system (clockedFns σ) nl') rank

section Clocked

variable {nl : Netlist} {b : ModelBase} {σ : Nat → LogicT} {g : PinFns LogicT}

theorem pinShape_of_clockedFns (hg : clockedFns σ b = some g) :
    b.model.kind.pinShape = some (g.arity, g.fns.length) := by
  unfold clockedFns at hg
  unfold ModelKind.pinShape
  split at hg
  · rename_i hk
    cases hg
    rw [if_pos hk]
    rfl
  · rename_i hk
    rw [if_neg hk]
    unfold stateFns at hg
    split at hg
    · cases hg
    · obtain ⟨fn, hfn, rfl⟩ := map_eq_some_iff.mp hg
      dsimp only
      rw [List.length_map, List.length_range]
      cases hkind : b.model.kind <;> rw [hkind] at hfn <;>
        simp only [ModelKind.gateFn, reduceCtorEq, some.injEq] at hfn <;> subst hfn <;> rfl

theorem isOutputPin_of_pinShape {kind : ModelKind} {shape : Nat × Nat} (hshape : kind.pinShape = some shape)
    {k : Nat} (hk : k < shape.1 + shape.2) : isOutputPin kind k (shape.1 + shape.2) = decide (shape.1 ≤ k) := by
  cases kind <;> simp only [ModelKind.pinShape, ModelKind.gateFn, reduceCtorEq, if_true, if_false, map_some,
      Option.map_none, some.injEq] at hshape <;> subst hshape <;> dsimp only at hk ⊢ <;>
    rw [Bool.eq_iff_iff] <;> simp [isOutputPin] <;> omega

theorem trimmable_clocked (h : ClockedNetlist nl) (σ : Nat → LogicT) : Trimmable (clockedFns σ) nl := by
  refine ⟨h.sound, h.digital, h.single, fun _ _ => rfl, fun b hb => ⟨fun g hg n hn => ?_, fun g hg => ?_,
    fun g hg k hk => ?_⟩⟩
  · exact h.connected b hb (by rw [pinShape_of_clockedFns hg]; rfl) n hn
  · exact h.length b hb _ (pinShape_of_clockedFns hg)
  · have hshape := pinShape_of_clockedFns hg
    have hlen := h.length b hb _ hshape
    rw [hlen] at hk ⊢
    exact isOutputPin_of_pinShape hshape hk

theorem gateFns_clocked (σ : Nat → LogicT) : GateFns (clockedFns σ) := by
  intro k
  cases k <;>
    refine ⟨_, fun b hk => by
      rw [clockedFns, if_neg (by rw [hk]; simp [Kind.modelKind]), stateFns,
        if_neg (by rw [hk]; simp [Kind.modelKind]), hk]
      rfl, fun hcomm x y => ?_⟩ <;>
    first
      | cases x <;> cases y <;> rfl
      | cases hcomm

theorem gateFns_heights {α : Type*} {S : PinSemantics α} (hS : GateFns S) : GateFns (heightFns S) := by
  intro k
  obtain ⟨f, hf, -⟩ := hS k
  refine ⟨fun ins => ins.foldr max 0 + 1, fun b hb => ?_, fun _ x y => ?_⟩
  · rw [heightFns, hf b hb]
    rfl
  · simp [Nat.max_comm]

theorem heightFns_clocked (σ σ' : Nat → LogicT) : heightFns (clockedFns σ) = heightFns (clockedFns σ') := by
  funext b
  unfold heightFns clockedFns stateFns
  cases b.model.kind <;> rfl

/-- Any runs of structural hashing and of the removal of dead models, in any order, keep the states
of the nodes that are still observed. -/
theorem strashDce_keeps (addr : NodeId → Nat) (prot : List NodeId) (runs : List Pass) (nl : Netlist)
    (h : ClockedNetlist nl) : KeepsClocked prot nl (runs.foldl (Pass.run addr prot) nl) := by
  obtain ⟨rank, hrank⟩ := h.acyclic
  have hranked : ∃ height : NodeId → Nat,
      ∀ σ, Ranked (system (clockedFns σ) (runs.foldl (Pass.run addr prot) nl)) height := by
    let σ₀ : Nat → LogicT := fun _ => .X
    have htrim := trimmable_clocked h σ₀
    obtain ⟨height, hheight⟩ := htrim.exists_heights (hrank σ₀)
    obtain ⟨moves, deleted, ht⟩ := exists_trimmed_runs (gateFns_heights (gateFns_clocked σ₀)) addr prot runs
      htrim.heights
    refine ⟨height, fun σ => ranked_of_heights ?_⟩
    rw [heightFns_clocked σ σ₀]
    exact ht.solves htrim.heights hheight
  obtain ⟨height, hheight⟩ := hranked
  have htrim := trimmable_clocked h
  have hruns := fun σ => exists_trimmed_runs (gateFns_clocked σ) addr prot runs (htrim σ)
  refine ⟨fun σ background => ?_, fun b hb hport => ?_, height, hheight⟩
  · obtain ⟨moves, deleted, ht⟩ := hruns σ
    exact ht.sameFunction (htrim σ) (hheight σ) background
  · obtain ⟨moves, deleted, ht⟩ := hruns fun _ => .X
    exact ht.exists_port hb hport

def clockedCheck (rank : NodeId → Nat) (b : ModelBase) : Bool :=
  match b.model.kind.pinShape with
  | none => true
  | some shape => decide (b.model.pins.length = shape.1 + shape.2) &&
      (decide (none ∉ b.model.pins) || b.model.pins.all Option.isNone) &&
      (b.model.pins.take shape.1).reduceOption.all fun x =>
        (b.model.pins.drop shape.1).reduceOption.all fun y => decide (rank x < rank y)

theorem clockedNetlist_of_check (rank : NodeId → Nat) (hsound : soundCheck nl = true)
    (hsingle : singleDriverCheck nl = true) (hmodels : nl.bases.all (clockedCheck rank) = true) :
    ClockedNetlist nl := by
  rw [List.all_eq_true] at hmodels
  have hmodel : ∀ b ∈ nl.bases, ∀ shape, b.model.kind.pinShape = some shape →
      (b.model.pins.length = shape.1 + shape.2 ∧ (none ∉ b.model.pins ∨ ∀ p ∈ b.model.pins, p.isNone)) ∧
        ∀ x ∈ (b.model.pins.take shape.1).reduceOption, ∀ y ∈ (b.model.pins.drop shape.1).reduceOption,
          rank x < rank y := by
    intro b hb shape hshape
    have hcheck := hmodels b hb
    rw [clockedCheck, hshape] at hcheck
    simpa only [Bool.and_eq_true, Bool.or_eq_true, decide_eq_true_eq, List.all_eq_true] using hcheck
  refine ⟨(sound_of_check hsound).1, (sound_of_check hsound).2, fun b hb shape hshape => (hmodel b hb shape hshape).1.1,
    fun b hb hsome n hn => ?_, singleDriverPins_of_check hsingle, rank, fun σ e he d hd => ?_⟩
  · obtain ⟨shape, hshape⟩ := Option.isSome_iff_exists.mp hsome
    rcases (hmodel b hb shape hshape).1.2 with hconn | hnone
    · exact hconn
    · exact absurd (hnone _ hn) (by simp)
  · obtain ⟨b, hb, he⟩ := mem_system.mp he
    obtain ⟨g, hg, hconn, j, n, f, hn, -, rfl⟩ := mem_pinEquations.mp he
    refine (hmodel b hb _ (pinShape_of_clockedFns hg)).2 d hd n ?_
    rw [List.reduceOption_mem_iff]
    refine List.mem_of_getElem? (i := j) ?_
    rw [List.getElem?_drop]
    exact hn

end Clocked

/-- A flip-flop that reads `a & q`, and a tristate buffer with an `OUTPUT` for `q & a`. -/
def sharedProduct : Netlist := .ofModels 6 [.port .input [0] "a" [.digital .L],
  .port .input [1] "clk" [.digital .L], .on .and [0, 4, 2], .on .and [4, 0, 3], .on .dff [2, 1, 4],
  .on .tri [3, 0, 5], .port .output [5] "y" []]

/-- The flip-flop is at the bottom. -/
def productRank : NodeId → Nat
  | .node 2 | .node 3 => 1
  | .node 5 => 2
  | _ => 0

example : (optimizeStrash NodeId.index [] sharedProduct).2 = true := by decide +kernel

theorem strashDce_keeps_sharedProduct : KeepsClocked [] sharedProduct
    ([Pass.strash, Pass.dce, Pass.strash].foldl (Pass.run NodeId.index []) sharedProduct) :=
  strashDce_keeps NodeId.index [] _ sharedProduct
    (clockedNetlist_of_check productRank (by decide +kernel) (by decide +kernel) (by decide +kernel))

end Strash

end PhyEngine
