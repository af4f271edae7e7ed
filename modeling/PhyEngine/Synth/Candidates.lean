import PhyEngine.Synth.Adders
import PhyEngine.Synth.GateStates

/-!
# What the gate-level passes collect before they rewrite

Every pass walks over the slots once and keeps a record for the models it may rewrite (`gather`);
the records are read later, when the netlist has changed. Beside it, `find_or_make_const_node`.
-/

namespace PhyEngine

open Equations Adders List

namespace Netlist

variable {nl : Netlist}

theorem mem_positions {ps : ModelPos × Option ModelBase} : ps ∈ positions nl ↔
    ∃ blk, nl.models[ps.1.chunkPos]? = some blk ∧ blk.slots[ps.1.vecPos]? = some ps.2 := by
  simp only [positions, mem_flatMap, mem_map]
  constructor
  · rintro ⟨⟨blk, i⟩, hblk, ⟨s, j⟩, hs, rfl⟩
    exact ⟨blk, mem_zipIdx_iff_getElem?.mp hblk, mem_zipIdx_iff_getElem?.mp hs⟩
  · rintro ⟨blk, hblk, hs⟩
    exact ⟨(blk, ps.1.chunkPos), mem_zipIdx_iff_getElem?.mpr hblk, (ps.2, ps.1.vecPos),
      mem_zipIdx_iff_getElem?.mpr hs, rfl⟩

theorem map_snd_positions (nl : Netlist) : (positions nl).map Prod.snd = nl.slots := by
  have hrow : ∀ bc : ModelBlock × Nat,
      (bc.1.slots.zipIdx.map fun sv => ((⟨sv.2, bc.2⟩ : ModelPos), sv.1)).map Prod.snd = bc.1.slots := by
    intro bc
    rw [List.map_map]
    exact zipIdx_map_fst 0 _
  have hmap : nl.models = nl.models.zipIdx.map Prod.fst := (zipIdx_map_fst 0 _).symm
  rw [positions, map_flatMap, slots]
  conv_rhs => rw [hmap, flatMap_map]
  exact flatMap_congr fun bc _ => hrow bc

def gather {β : Type} (nl : Netlist) (record : ModelBase → ModelPos → Option β) : List β :=
  (positions nl).filterMap fun ps => ps.2.bind fun b => record b ps.1

theorem mem_gather {β : Type} {record : ModelBase → ModelPos → Option β} {x : β} :
    x ∈ gather nl record ↔ ∃ pos b, nl.getModel pos = some b ∧ record b pos = some x := by
  rw [gather, mem_filterMap]
  constructor
  · rintro ⟨⟨pos, s⟩, hps, hx⟩
    obtain ⟨b, rfl, hx⟩ := Option.bind_eq_some_iff.mp hx
    exact ⟨pos, b, getModel_eq_some.mpr (mem_positions.mp hps), hx⟩
  · rintro ⟨pos, b, hb, hx⟩
    exact ⟨(pos, some b), mem_positions.mpr (getModel_eq_some.mp hb), hx⟩

theorem Sound.nodup_gather (h : Sound nl) {β : Type} (record : ModelBase → ModelPos → Option β)
    (ident : β → Nat) (hident : ∀ b pos x, record b pos = some x → ident x = b.id) :
    ((gather nl record).map ident).Nodup := by
  have hsub : ∀ l : List (ModelPos × Option ModelBase),
      ((l.filterMap fun ps => ps.2.bind fun b => record b ps.1).map ident).Sublist
        ((l.map Prod.snd).reduceOption.map ModelBase.id) := by
    intro l
    induction l with
    | nil => exact List.Sublist.refl _
    | cons ps l ih =>
      obtain ⟨pos, s⟩ := ps
      cases s with
      | none => simpa [reduceOption_cons_of_none] using ih
      | some b =>
        cases hx : record b pos with
        | none =>
          simp only [filterMap_cons, Option.bind_some, hx, map_cons,
            reduceOption_cons_of_some]
          exact ih.cons _
        | some x =>
          simp only [filterMap_cons, Option.bind_some, hx, map_cons,
            reduceOption_cons_of_some, hident b pos x hx]
          exact ih.cons_cons _
  have hall := hsub (positions nl)
  rw [map_snd_positions] at hall
  exact hall.nodup h.nodup

def fanCount (driver : Bool) (nl : Netlist) (n : NodeId) : Nat :=
  (nl.allPins.filter fun pn => pn.2 = n ∧ nl.pinOut pn.1 = driver).length

variable {n : NodeId}

theorem eq_or_eq_of_fanCount_two (hcount : fanCount false nl n = 2) {p q r : PinRef} (hp : nl.ConsumerPin p n)
    (hq : nl.ConsumerPin q n) (hne : p ≠ q) (hr : nl.ConsumerPin r n) :
    r = p ∨ r = q := by
  have hmem : ∀ x, nl.ConsumerPin x n →
      (x, n) ∈ nl.allPins.filter fun pn => pn.2 = n ∧ nl.pinOut pn.1 = false := fun x hx =>
    mem_filter.mpr ⟨mem_allPins.mpr hx.2, by simp [hx.1]⟩
  obtain ⟨x, y, heq⟩ := length_eq_two.mp hcount
  have hp := hmem p hp
  have hq := hmem q hq
  have hr := hmem r hr
  rw [heq] at hp hq hr
  simp only [mem_cons, not_mem_nil, or_false] at hp hq hr
  rcases hp with hp | hp <;> rcases hq with hq | hq <;> rcases hr with hr | hr <;>
    first
      | exact .inl (congrArg Prod.fst (hr.trans hp.symm))
      | exact .inr (congrArg Prod.fst (hr.trans hq.symm))
      | exact absurd (congrArg Prod.fst (hp.trans hq.symm)) hne

theorem eq_of_fanCount_one (hcount : fanCount false nl n = 1) {p q : PinRef} (hp : nl.ConsumerPin p n)
    (hq : nl.ConsumerPin q n) : p = q := by
  have hmem : ∀ x, nl.ConsumerPin x n →
      (x, n) ∈ nl.allPins.filter fun pn => pn.2 = n ∧ nl.pinOut pn.1 = false := fun x hx =>
    mem_filter.mpr ⟨mem_allPins.mpr hx.2, by simp [hx.1]⟩
  obtain ⟨x, heq⟩ := length_eq_one_iff.mp hcount
  have hp := hmem p hp
  have hq := hmem q hq
  rw [heq, mem_singleton] at hp hq
  exact congrArg Prod.fst (hp.trans hq.symm)

structure ConstInput (b : ModelBase) (v : LogicT) (n : NodeId) : Prop where
  kind : b.model.kind = .input
  name : b.model.name = ""
  attr : b.model.getAttribute 0 = .digital v
  pins : b.model.pins = [some n]

theorem ConstInput.inputState {b : ModelBase} {v : LogicT} (h : ConstInput b v n) (σ : Nat → LogicT) :
    inputState σ b = v := by
  rw [PhyEngine.inputState, if_pos h.name, h.attr]

theorem findExistingConstNode_spec {v : LogicT} (h : findExistingConstNode nl v = some n) :
    ∃ b ∈ nl.bases, ConstInput b v n := by
  obtain ⟨m, hm, hfound⟩ := exists_of_findSome?_eq_some h
  obtain ⟨b, hb, rfl⟩ := mem_bases_of_mem_normals hm
  split at hfound
  · rename_i hcond
    split at hfound
    · rename_i p hp
      exact ⟨b, hb, hcond.2.1, hcond.1, hcond.2.2, by rw [hp, hfound]⟩
    · cases hfound
  · cases hfound

/-- What `find_or_make_const_node` leaves: the netlist as it was, or one with a new constant
`INPUT` on a new node. -/
inductive ConstNode (v : LogicT) (nl nl' : Netlist) (n : NodeId) : Prop
  | found (b : ModelBase) (hb : b ∈ nl.bases) (hconst : ConstInput b v n) (heq : nl' = nl)
  | made (b : ModelBase) (hconst : ConstInput b v n) (hid : b.id = nl.nextId)
      (hnode : n = .node nl.nodes.length) (hsound : Sound nl') (hbases : nl'.bases = nl.bases ++ [b])
      (hget : ∀ pos c, nl.getModel pos = some c → nl'.getModel pos = some c)
      (hlen : nl'.nodes.length = nl.nodes.length + 1) (hnext : nl'.nextId = nl.nextId + 1)

theorem findOrMakeConstNode_spec (h : Sound nl) (v : LogicT) :
    ConstNode v nl (findOrMakeConstNode nl v).1 (findOrMakeConstNode nl v).2 := by
  unfold findOrMakeConstNode
  cases hfind : findExistingConstNode nl v with
  | some n =>
    obtain ⟨b, hb, hconst⟩ := findExistingConstNode_spec hfind
    exact .found b hb hconst rfl
  | none =>
    dsimp only
    set m : Model := ⟨.input, "", [.digital v], [none]⟩ with hm
    have h₁ := h.createNode
    have h₂ := h₁.addModel (m := m) (by simp [Fresh, hm])
    have hgetNew := getModel_addModel_snd nl.createNode.1 m
    have hlen₂ : (nl.createNode.1.addModel m).1.nodes.length = nl.nodes.length + 1 := by
      simp [addModel, Netlist.createNode]
    have hnodeSome : ((nl.createNode.1.addModel m).1.node? (.node nl.nodes.length)).isSome := by
      rw [isSome_node?, hlen₂]
      intro i hi
      cases hi
      exact Nat.lt_succ_self _
    have hbases₂ := bases_addModel nl.createNode.1 m
    have hbases₃ := h₂.bases_addToNode_last hgetNew (k := 0) (n := .node nl.nodes.length)
      (by simp [hm]) hbases₂
    refine .made _ ⟨rfl, rfl, rfl, rfl⟩ rfl rfl
      (h₂.addToNode hgetNew (by simp [hm]) hnodeSome) hbases₃ ?_ ?_ ?_
    · intro pos c hc
      have hc₁ : nl.createNode.1.getModel pos = some c := hc
      have hc₂ := getModel_addModel hc₁ m
      have hne : pos ≠ (nl.createNode.1.addModel m).2 := by
        rintro rfl
        rw [hgetNew, Option.some.injEq] at hc₂
        have hlt := h.lt c (mem_bases hc)
        rw [← hc₂] at hlt
        exact absurd hlt (Nat.lt_irrefl _)
      exact getModel_addToNode_of_ne hgetNew (by simp [hm]) hne hc₂
    · rw [← hlen₂]
      exact length_nodes_addToNode _ _ _ _
    · exact nextId_addToNode _ _ _ _

theorem LogicNetlist.exists_rank (h : LogicNetlist nl) : ∃ rank : NodeId → Nat,
    (∀ σ, Ranked (system (stateFns σ) nl) rank) ∧
      (∀ b ∈ nl.bases, b.model.kind = .input → ∀ n, some n ∈ b.model.pins → rank n = 0) ∧
      ∀ n, ¬ (nl.node? n).isSome → rank n = 0 := by
  classical
  obtain ⟨rank, hrank⟩ := h.acyclic
  let low (n : NodeId) : Prop := (∃ b ∈ nl.bases, b.model.kind = .input ∧ some n ∈ b.model.pins) ∨
    ¬ (nl.node? n).isSome
  refine ⟨fun n => if low n then 0 else rank n + 1, ?_, ?_, ?_⟩
  · intro σ e he d hd
    obtain ⟨b, hb, he'⟩ := mem_system.mp he
    obtain ⟨k, hk, hout⟩ := (h.pinned hb (σ := σ)).target he'
    have hlt := hrank σ e he d hd
    have htarget : ¬ low e.target := by
      rintro (⟨c, hc, hinput, hmem⟩ | hnone)
      · have hcpin : c.model.pins = [some e.target] := by
          have hlen := h.length c hc
          rw [hinput] at hlen
          match hps : c.model.pins, hlen with
          | [p], _ =>
            rw [hps, mem_singleton] at hmem
            rw [hmem]
        have hpinc : nl.DriverPin ⟨c.id, 0⟩ e.target := by
          refine ⟨?_, (h.sound.points_iff_pin hc 0 _).mpr (by simp [hcpin])⟩
          rw [h.sound.pinOut_eq hc, hinput, hcpin]
          rfl
        have hpinb : nl.DriverPin ⟨b.id, k⟩ e.target := by
          refine ⟨?_, (h.sound.points_iff_pin hb k _).mpr hk⟩
          rw [h.sound.pinOut_eq hb, hout, decide_eq_true (List.getElem?_eq_some_iff.mp hk).1]
          rfl
        have hsame := h.single _ _ _ hpinc hpinb
        have hcb : c = b := h.sound.eq_of_id hc hb (congrArg PinRef.id hsame)
        subst hcb
        rw [pinEquations_input hinput hcpin, mem_singleton] at he'
        rw [he'] at hd
        cases hd
      · exact hnone (h.sound.isSome_node? hb (List.mem_of_getElem? hk))
    dsimp only
    rw [if_neg htarget]
    split <;> omega
  · intro b hb hinput n hn
    exact if_pos (.inl ⟨b, hb, hinput, hn⟩)
  · intro n hn
    exact if_pos (.inr hn)

end Netlist

end PhyEngine
