import PhyEngine.Netlist.Copy

/-!
# The pin/node invariant of the netlist interface

Pins and nodes refer to each other, and a node counts its analog pins. Every operation updates
both sides, on netlists built by the operations as their interface says (`Reachable`). The
allocator does not hand out an address twice (`Sound.nodup`).
-/

namespace PhyEngine.Netlist

open List
open Option (isSome_map map_eq_some_iff some)

def removeFromNodeAt (nl : Netlist) (pos : ModelPos) (k : Nat) (n : NodeId) : Netlist × Bool :=
  match nl.getModel pos with
  | none => (nl, false)
  | some b =>
    if k < b.model.pins.length then
      ((nl.setPin pos k none).detachPin ⟨b.id, k⟩ b.model.isAnalog n, true)
    else (nl, false)

/-- The pins of a model after those in a set have lost their nodes. -/
def clearPins (ps : Finset PinRef) (b : ModelBase) : ModelBase :=
  { b with model := { b.model with
      pins := b.model.pins.mapIdx fun k p => if (⟨b.id, k⟩ : PinRef) ∈ ps then none else p } }

/-- `delete_node`: the pins of the node lose it, and the node is as new. It stays in the
netlist. -/
def deleteNode (nl : Netlist) (n : NodeId) : Netlist :=
  match nl.node? n with
  | none => nl
  | some nd =>
    let models := nl.models.map fun blk => { blk with slots := blk.slots.map (Option.map (clearPins nd.pins)) }
    ({ nl with models } : Netlist).modifyNode n fun _ => {}

/-- A model as its constructors leave it: no pin is on a node. -/
def Fresh (m : Model) : Prop := ∀ p ∈ m.pins, p = none

inductive Reachable : Netlist → Prop where
  | empty : Reachable {}
  | createNode {nl} : Reachable nl → Reachable nl.createNode.1
  | addModel {nl m} : Reachable nl → Fresh m → Reachable (nl.addModel m).1
  | addToNode {nl pos k n b} : Reachable nl → nl.getModel pos = some b → b.model.pins[k]? = some none →
      (nl.node? n).isSome → Reachable (nl.addToNode pos k n).1
  | removeFromNode {nl pos k n b} : Reachable nl → nl.getModel pos = some b →
      b.model.pins[k]? = some (some n) → Reachable (nl.removeFromNodeAt pos k n).1
  | deleteModel {nl pos} : Reachable nl → Reachable (nl.deleteModel pos).1
  | deleteNode {nl n} : Reachable nl → Reachable (nl.deleteNode n)

variable {i k : Nat} {pos : ModelPos} {b c : ModelBase} {l r : List ModelBase} {n : NodeId} {nd : Node} {nl' : Netlist}

theorem eq_append_of_getElem? {α : Type} {xs : List α} {x : α} (h : xs[i]? = some x) :
    xs = xs.take i ++ x :: xs.drop (i + 1) := by
  obtain ⟨hi, rfl⟩ := List.getElem?_eq_some_iff.mp h
  rw [cons_getElem_drop_succ, take_append_drop]

variable {blk : ModelBlock}

theorem exists_slots_modify {nl : Netlist} (h : nl.models[i]? = some blk) :
    ∃ l r, nl.slots = l ++ blk.slots ++ r ∧ ∀ f : ModelBlock → ModelBlock,
      ({ nl with models := nl.models.modify i f } : Netlist).slots = l ++ (f blk).slots ++ r := by
  obtain ⟨hi, rfl⟩ := List.getElem?_eq_some_iff.mp h
  refine ⟨(nl.models.take i).flatMap (·.slots), (nl.models.drop (i + 1)).flatMap (·.slots), ?_, fun f => ?_⟩
  · have hsplit := congrArg (flatMap fun blk => blk.slots) (eq_append_of_getElem? h)
    rw [flatMap_append, flatMap_cons] at hsplit
    rw [slots, hsplit, append_assoc]
  · rw [slots, modify_eq_take_cons_drop hi]
    simp

theorem exists_slots_setSlot {nl : Netlist} (h : nl.getModel pos = some b) :
    ∃ l r, nl.slots = l ++ some b :: r ∧ ∀ s, (nl.setSlot pos s).slots = l ++ s :: r := by
  obtain ⟨blk, hblk, hslot⟩ : ∃ blk, nl.models[pos.chunkPos]? = some blk ∧ blk.slots[pos.vecPos]? = some (some b) := by
    simpa [getModel, Option.join_eq_some_iff, Option.bind_eq_some_iff] using h
  obtain ⟨l, r, hl, hset⟩ := exists_slots_modify hblk
  have hv : pos.vecPos < blk.slots.length := (List.getElem?_eq_some_iff.mp hslot).1
  refine ⟨l ++ blk.slots.take pos.vecPos, blk.slots.drop (pos.vecPos + 1) ++ r, ?_, fun s => ?_⟩
  · rw [hl]
    conv_lhs => rw [eq_append_of_getElem? hslot]
    simp
  · rw [setSlot, hset]
    dsimp only
    rw [set_eq_take_append_cons_drop, if_pos hv]
    simp

theorem exists_bases_setSlot {nl : Netlist} (h : nl.getModel pos = some b) :
    ∃ l r, nl.bases = l ++ b :: r ∧ (∀ b', (nl.setSlot pos (some b')).bases = l ++ b' :: r) ∧
      (nl.setSlot pos none).bases = l ++ r := by
  obtain ⟨l, r, hl, hset⟩ := exists_slots_setSlot h
  refine ⟨l.reduceOption, r.reduceOption, ?_, fun b' => ?_, ?_⟩
  · rw [bases, hl, reduceOption_append, reduceOption_cons_of_some]
  · rw [bases, hset, reduceOption_append, reduceOption_cons_of_some]
  · rw [bases, hset, reduceOption_append, reduceOption_cons_of_none]

/-- The pin/node invariant, with distinct addresses. -/
structure Sound (nl : Netlist) : Prop where
  consistent : nl.Consistent
  nodup : (nl.bases.map ModelBase.id).Nodup
  lt : ∀ b ∈ nl.bases, b.id < nl.nextId

theorem points_iff {nl : Netlist} (h : nl.bases = l ++ b :: r) (p : PinRef) (n : NodeId) :
    nl.Points p n ↔ (b.id = p.id ∧ b.model.pins[p.k]? = some (some n)) ∨
      ∃ c ∈ l ++ r, c.id = p.id ∧ c.model.pins[p.k]? = some (some n) := by
  rw [Points, h]
  constructor
  · rintro ⟨c, hc, hp⟩
    rcases mem_append.mp hc with hc | hc
    · exact .inr ⟨c, mem_append_left r hc, hp⟩
    · rcases mem_cons.mp hc with rfl | hc
      · exact .inl hp
      · exact .inr ⟨c, mem_append_right l hc, hp⟩
  · rintro (hp | ⟨c, hc, hp⟩)
    · exact ⟨b, by simp, hp⟩
    · refine ⟨c, ?_, hp⟩
      rcases mem_append.mp hc with hc | hc
      · exact mem_append_left _ hc
      · exact mem_append_right _ (mem_cons_of_mem b hc)

theorem analogPins_eq {nl : Netlist} (h : nl.bases = l ++ b :: r) (n : NodeId) :
    nl.analogPins n = analogOn b.model.isAnalog b.model.pins n +
      ((l ++ r).map fun c => analogOn c.model.isAnalog c.model.pins n).sum := by
  rw [analogPins, normals, h, List.map_map]
  simp only [map_append, map_cons, sum_append, sum_cons, Function.comp_def]
  omega

theorem ne_id_of_nodup (h : ((l ++ b :: r).map ModelBase.id).Nodup) (hc : c ∈ l ++ r) : c.id ≠ b.id := by
  rw [map_append, map_cons, nodup_middle, nodup_cons] at h
  intro heq
  apply h.1
  rw [← map_append, ← heq]
  exact mem_map_of_mem hc

theorem analogPins_eq_zero {nl : Netlist} (h : ∀ m ∈ nl.normals, some n ∉ m.pins) :
    nl.analogPins n = 0 := by
  have hzero : nl.normals.map (fun m => analogOn m.isAnalog m.pins n) = nl.normals.map fun _ => 0 := by
    refine map_congr_left fun m hm => ?_
    rw [analogOn, count_eq_zero_of_not_mem (h m hm), ite_self]
  rw [analogPins, hzero]
  simp

variable {m : Model}

theorem mem_bases_of_mem_normals {nl : Netlist} (h : m ∈ nl.normals) :
    ∃ b ∈ nl.bases, b.model = m := mem_map.mp h

theorem sound_empty : Sound {} where
  consistent :=
    { pins_exact := by
        intro n nd hnd p
        cases n with
        | ground =>
          obtain rfl : ({} : Node) = nd := by simpa [node?] using hnd
          simp [Points, bases, slots, reduceOption]
        | node i => simp [node?] at hnd
      pins_valid := by simp [PinsValid, normals, bases, slots, reduceOption]
      num_analog := by
        intro n nd hnd
        cases n with
        | ground =>
          obtain rfl : ({} : Node) = nd := by simpa [node?] using hnd
          simp [analogPins, normals, bases, slots, reduceOption]
        | node i => simp [node?] at hnd }
  nodup := by simp [bases, slots, reduceOption]
  lt := by simp [bases, slots, reduceOption]

variable {nl : Netlist}

theorem node?_createNode (h : nl.createNode.1.node? n = some nd) :
    nl.node? n = some nd ∨ (n = .node nl.nodes.length ∧ nd = {}) := by
  cases n with
  | ground => exact .inl h
  | node i =>
    have h : (nl.nodes ++ [({} : Node)])[i]? = some nd := h
    rcases Nat.lt_trichotomy i nl.nodes.length with hi | rfl | hi
    · rw [getElem?_append_left hi] at h
      exact .inl h
    · refine .inr ⟨rfl, ?_⟩
      simpa using h.symm
    · rw [getElem?_eq_none (by simp; omega)] at h
      cases h

theorem Sound.createNode (h : Sound nl) : Sound nl.createNode.1 := by
  have hbases : nl.createNode.1.bases = nl.bases := rfl
  -- no pin points to the new node
  have hnew : ∀ m ∈ nl.normals, some (.node nl.nodes.length) ∉ m.pins := by
    intro m hm hmem
    have hsome := h.consistent.pins_valid m hm _ hmem
    simp [node?] at hsome
  refine ⟨⟨fun n nd hnd p => ?_, fun m hm n hn => ?_, fun n nd hnd => ?_⟩, h.nodup, h.lt⟩
  · rcases node?_createNode hnd with hold | ⟨rfl, rfl⟩
    · exact h.consistent.pins_exact n nd hold p
    · refine iff_of_false (by simp) ?_
      rintro ⟨b, hb, -, hk⟩
      exact hnew b.model (mem_map_of_mem hb) (List.mem_of_getElem? hk)
  · have hsome := h.consistent.pins_valid m hm n hn
    rw [isSome_node?] at hsome ⊢
    intro i hi
    have := hsome i hi
    simp [Netlist.createNode]
    omega
  · rcases node?_createNode hnd with hold | ⟨rfl, rfl⟩
    · exact h.consistent.num_analog n nd hold
    · have hzero : nl.createNode.1.analogPins (.node nl.nodes.length) = 0 := analogPins_eq_zero hnew
      rw [hzero]
      rfl

theorem bases_addModel (nl : Netlist) (m : Model) : (nl.addModel m).1.bases = nl.bases ++ [⟨nl.nextId, m⟩] := by
  rw [bases, slots, addModel]
  dsimp only
  rw [flatMap_emplaceSlot, reduceOption_append]
  rfl

theorem Sound.addModel (h : Sound nl) (hm : Fresh m) : Sound (nl.addModel m).1 := by
  have hbases := bases_addModel nl m
  have hfresh (n : NodeId) : some n ∉ m.pins := fun hmem => by cases hm _ hmem
  have hnode (n : NodeId) : (nl.addModel m).1.node? n = nl.node? n := by cases n <;> rfl
  refine ⟨⟨fun n nd hnd p => ?_, fun m' hm' n hn => ?_, fun n nd hnd => ?_⟩, ?_, ?_⟩
  · rw [hnode] at hnd
    rw [h.consistent.pins_exact n nd hnd p, Points, Points, hbases]
    constructor
    · rintro ⟨b, hb, hp⟩
      exact ⟨b, mem_append_left _ hb, hp⟩
    · rintro ⟨b, hb, hid, hk⟩
      rcases mem_append.mp hb with hb | hb
      · exact ⟨b, hb, hid, hk⟩
      · obtain rfl := mem_singleton.mp hb
        exact absurd (List.mem_of_getElem? hk) (hfresh n)
  · rw [hnode]
    rw [normals, hbases, map_append] at hm'
    rcases mem_append.mp hm' with hm' | hm'
    · exact h.consistent.pins_valid m' hm' n hn
    · obtain rfl := mem_singleton.mp hm'
      exact absurd hn (hfresh n)
  · rw [hnode] at hnd
    rw [h.consistent.num_analog n nd hnd, analogPins_eq (r := []) hbases]
    rw [analogOn, count_eq_zero_of_not_mem (hfresh n), ite_self, Nat.zero_add, append_nil, analogPins,
      normals, List.map_map]
    rfl
  · rw [hbases, map_append, nodup_append_comm, map_cons, map_nil, singleton_append,
      nodup_cons]
    refine ⟨fun hmem => ?_, h.nodup⟩
    obtain ⟨b, hb, heq⟩ := mem_map.mp hmem
    exact absurd heq (Nat.ne_of_lt (h.lt b hb))
  · intro b hb
    rw [hbases] at hb
    change b.id < nl.nextId + 1
    rcases mem_append.mp hb with hb | hb
    · exact Nat.lt_succ_of_lt (h.lt b hb)
    · obtain rfl := mem_singleton.mp hb
      exact Nat.lt_succ_self _

/-! ### One pin -/

theorem node?_setPin (nl : Netlist) (pos : ModelPos) (k : Nat) (v : Option NodeId) (n : NodeId) :
    (nl.setPin pos k v).node? n = nl.node? n := by
  unfold setPin
  cases nl.getModel pos with
  | none => rfl
  | some b => cases n <;> rfl

def ModelBase.withPin (b : ModelBase) (k : Nat) (v : Option NodeId) : ModelBase :=
  { b with model := { b.model with pins := b.model.pins.set k v } }

/-- What changing one pin does to the invariant: the model is replaced, the nodes are not
yet changed. -/
theorem exists_bases_setPin (h : nl.getModel pos = some b) (k : Nat) (v : Option NodeId) :
    ∃ l r, nl.bases = l ++ b :: r ∧
      (nl.setPin pos k v).bases = l ++ ModelBase.withPin b k v :: r := by
  obtain ⟨l, r, hbases, hset, -⟩ := exists_bases_setSlot h
  refine ⟨l, r, hbases, ?_⟩
  rw [setPin, h]
  exact hset _

theorem getElem?_withPin (hk : k < b.model.pins.length) (v : Option NodeId) (j : Nat) :
    (ModelBase.withPin b k v).model.pins[j]? = if k = j then some v else b.model.pins[j]? := by
  rw [ModelBase.withPin]
  dsimp only
  rw [getElem?_set]
  by_cases hj : k = j
  · rw [if_pos hj, if_pos hj, if_pos hk]
  · rw [if_neg hj, if_neg hj]

theorem nextId_setPin (nl : Netlist) (pos : ModelPos) (k : Nat) (v : Option NodeId) :
    (nl.setPin pos k v).nextId = nl.nextId := by
  unfold setPin
  cases nl.getModel pos <;> rfl

theorem Sound.ids_withPin (h : Sound nl) {v : Option NodeId} (hbases : nl.bases = l ++ b :: r)
    (hbases' : nl'.bases = l ++ ModelBase.withPin b k v :: r) (hnext : nl'.nextId = nl.nextId) :
    (nl'.bases.map ModelBase.id).Nodup ∧ ∀ c ∈ nl'.bases, c.id < nl'.nextId := by
  have hmap : nl'.bases.map ModelBase.id = nl.bases.map ModelBase.id := by
    rw [hbases, hbases', map_append, map_append]
    rfl
  refine ⟨hmap ▸ h.nodup, fun c hc => ?_⟩
  have hmem : c.id ∈ nl.bases.map ModelBase.id := hmap ▸ mem_map_of_mem hc
  obtain ⟨c', hc', heq⟩ := mem_map.mp hmem
  rw [← heq, hnext]
  exact h.lt c' hc'

theorem mem_bases_of_mem_append (hbases : nl.bases = l ++ b :: r) (hc : c ∈ l ++ r) : c ∈ nl.bases := by
  rw [hbases]
  rcases mem_append.mp hc with hc | hc
  · exact mem_append_left _ hc
  · exact mem_append_right _ (mem_cons_of_mem b hc)

variable {x : NodeId}

theorem Sound.isSome_node? (h : Sound nl) (hc : c ∈ nl.bases) (hx : some x ∈ c.model.pins) :
    (nl.node? x).isSome :=
  h.consistent.pins_valid c.model (mem_map_of_mem hc) x hx

theorem Sound.isSome_of_withPin (h : Sound nl) {v : Option NodeId} (hbases : nl.bases = l ++ b :: r)
    (hbases' : nl'.bases = l ++ ModelBase.withPin b k v :: r) (hv : ∀ y, v = some y → (nl.node? y).isSome)
    {m : Model} (hm : m ∈ nl'.normals) (hx : some x ∈ m.pins) : (nl.node? x).isSome := by
  obtain ⟨c, hc, rfl⟩ := mem_map.mp hm
  rw [hbases', mem_append, mem_cons, or_left_comm, ← mem_append] at hc
  rcases hc with rfl | hc
  · rcases mem_or_eq_of_mem_set hx with hx | hx
    · exact h.isSome_node? (c := b) (by simp [hbases]) hx
    · exact hv x hx.symm
  · exact h.isSome_node? (mem_bases_of_mem_append hbases hc) hx

theorem Sound.addToNode (h : Sound nl) (hb : nl.getModel pos = some b) (hfree : b.model.pins[k]? = some none)
    (hn : (nl.node? n).isSome) :
    Sound (nl.addToNode pos k n).1 := by
  obtain ⟨hk, hpin⟩ := List.getElem?_eq_some_iff.mp hfree
  obtain ⟨l, r, hbases, hbases'⟩ := exists_bases_setPin hb k (some n)
  have heq : (nl.addToNode pos k n).1 = (nl.setPin pos k (some n)).attachPin ⟨b.id, k⟩ b.model.isAnalog n := by
    rw [Netlist.addToNode, hb]
    dsimp only
    rw [if_pos hk]
  rw [heq]
  replace hbases' : ((nl.setPin pos k (some n)).attachPin ⟨b.id, k⟩ b.model.isAnalog n).bases =
      l ++ ModelBase.withPin b k (some n) :: r := by
    rw [← hbases', bases, bases, slots, slots, attachPin, models_modifyNode]
  have hnode (x : NodeId) : ((nl.setPin pos k (some n)).attachPin ⟨b.id, k⟩ b.model.isAnalog n).node? x =
      if n = x then (nl.node? x).map (attachEff b.id b.model.isAnalog k) else nl.node? x := by
    rw [node?_attachPin, node?_setPin]
  refine ⟨⟨fun x nd hnd p => ?_, fun m hm x hx => ?_, fun x nd hnd => ?_⟩, ?_, ?_⟩
  · have hpoints : (p = ⟨b.id, k⟩ ∧ n = x) ∨ nl.Points p x ↔
        ((nl.setPin pos k (some n)).attachPin ⟨b.id, k⟩ b.model.isAnalog n).Points p x := by
      rw [points_iff hbases', points_iff hbases, getElem?_withPin hk, ← or_assoc]
      refine or_congr_left ?_
      by_cases hj : k = p.k
      · subst hj
        rw [if_pos rfl, hfree]
        cases p
        simp [ModelBase.withPin, eq_comm]
      · rw [if_neg hj]
        have hne : p ≠ ⟨b.id, k⟩ := fun he => hj (congrArg PinRef.k he).symm
        simp [hne, ModelBase.withPin]
    rw [hnode] at hnd
    rw [← hpoints]
    by_cases hx : n = x
    · rw [if_pos hx] at hnd
      obtain ⟨nd₀, hnd₀, rfl⟩ := map_eq_some_iff.mp hnd
      rw [← h.consistent.pins_exact x nd₀ hnd₀ p]
      simp [attachEff, hx]
    · rw [if_neg hx] at hnd
      rw [h.consistent.pins_exact x nd hnd p]
      simp [hx]
  · have hsome := h.isSome_of_withPin hbases hbases' (fun y hy => Option.some.inj hy ▸ hn) hm hx
    rw [hnode]
    by_cases hx : n = x
    · rw [if_pos hx, isSome_map]
      exact hsome
    · rw [if_neg hx]
      exact hsome
  · have hcount : analogOn b.model.isAnalog (ModelBase.withPin b k (some n)).model.pins x =
        analogOn b.model.isAnalog b.model.pins x + if n = x then (if b.model.isAnalog then 1 else 0) else 0 := by
      cases ha : b.model.isAnalog with
      | false => simp [analogOn]
      | true =>
        simp only [analogOn, if_true, ModelBase.withPin]
        rw [count_set hk, hpin]
        by_cases hx : n = x <;> simp [hx]
    have hpins : ((nl.setPin pos k (some n)).attachPin ⟨b.id, k⟩ b.model.isAnalog n).analogPins x =
        nl.analogPins x + if n = x then (if b.model.isAnalog then 1 else 0) else 0 := by
      rw [analogPins_eq hbases', analogPins_eq hbases]
      have := hcount
      simp only [ModelBase.withPin] at this ⊢
      change analogOn b.model.isAnalog _ x + _ = _
      omega
    rw [hpins]
    rw [hnode] at hnd
    by_cases hx : n = x
    · rw [if_pos hx] at hnd ⊢
      obtain ⟨nd₀, hnd₀, rfl⟩ := map_eq_some_iff.mp hnd
      have hnum := h.consistent.num_analog x nd₀ hnd₀
      cases ha : b.model.isAnalog <;> simp [attachEff, hnum, UInt64.ofNat_add]
    · rw [if_neg hx] at hnd ⊢
      exact h.consistent.num_analog x nd hnd
  · exact (h.ids_withPin hbases hbases' (by simp [attachPin, nextId_setPin])).1
  · exact (h.ids_withPin hbases hbases' (by simp [attachPin, nextId_setPin])).2

theorem Sound.removeFromNodeAt (h : Sound nl) (hb : nl.getModel pos = some b)
    (hpin : b.model.pins[k]? = some (some n)) :
    Sound (nl.removeFromNodeAt pos k n).1 := by
  obtain ⟨hk, hget⟩ := List.getElem?_eq_some_iff.mp hpin
  obtain ⟨l, r, hbases, hbases'⟩ := exists_bases_setPin hb k none
  have heq : (nl.removeFromNodeAt pos k n).1 = (nl.setPin pos k none).detachPin ⟨b.id, k⟩ b.model.isAnalog n := by
    rw [Netlist.removeFromNodeAt, hb]
    dsimp only
    rw [if_pos hk]
  rw [heq]
  replace hbases' : ((nl.setPin pos k none).detachPin ⟨b.id, k⟩ b.model.isAnalog n).bases =
      l ++ ModelBase.withPin b k none :: r := by
    rw [← hbases', bases, bases, slots, slots, detachPin, models_modifyNode]
  have hnode (x : NodeId) : ((nl.setPin pos k none).detachPin ⟨b.id, k⟩ b.model.isAnalog n).node? x =
      if n = x then (nl.node? x).map (detachEff b.id b.model.isAnalog k) else nl.node? x := by
    rw [node?_detachPin, node?_setPin]
  refine ⟨⟨fun x nd hnd p => ?_, fun m hm x hx => ?_, fun x nd hnd => ?_⟩, ?_, ?_⟩
  · -- the addresses are distinct, so no other model has this pin
    have hpoints : nl.Points p x ∧ p ≠ ⟨b.id, k⟩ ↔
        ((nl.setPin pos k none).detachPin ⟨b.id, k⟩ b.model.isAnalog n).Points p x := by
      rw [points_iff hbases', points_iff hbases, getElem?_withPin hk, or_and_right]
      refine or_congr ?_ ?_
      · by_cases hj : k = p.k
        · rw [if_pos hj]
          refine iff_of_false ?_ (by simp)
          rintro ⟨⟨hid, -⟩, hne⟩
          exact hne (by rw [hid, hj])
        · have hne : p ≠ ⟨b.id, k⟩ := fun he => hj (congrArg PinRef.k he).symm
          simp [hne, hj, ModelBase.withPin]
      · refine and_iff_left_of_imp ?_
        rintro ⟨c, hc, hid, -⟩ rfl
        have hnodup := h.nodup
        rw [hbases] at hnodup
        exact ne_id_of_nodup hnodup hc hid
    rw [hnode] at hnd
    rw [← hpoints]
    by_cases hx : n = x
    · rw [if_pos hx] at hnd
      obtain ⟨nd₀, hnd₀, rfl⟩ := map_eq_some_iff.mp hnd
      rw [← h.consistent.pins_exact x nd₀ hnd₀ p]
      simp [detachEff, and_comm]
    · rw [if_neg hx] at hnd
      rw [h.consistent.pins_exact x nd hnd p]
      refine (and_iff_left_of_imp ?_).symm
      rintro hp rfl
      -- the pin is on `n` only
      rcases (points_iff hbases _ _).mp hp with ⟨-, hk'⟩ | ⟨c, hc, hid, -⟩
      · rw [hpin] at hk'
        cases hk'
        exact hx rfl
      · have hnodup := h.nodup
        rw [hbases] at hnodup
        exact ne_id_of_nodup hnodup hc hid
  · have hsome := h.isSome_of_withPin hbases hbases' (by simp) hm hx
    rw [hnode]
    by_cases hx : n = x
    · rw [if_pos hx, isSome_map]
      exact hsome
    · rw [if_neg hx]
      exact hsome
  · have hcount : analogOn b.model.isAnalog (ModelBase.withPin b k none).model.pins x +
        (if n = x then (if b.model.isAnalog then 1 else 0) else 0) = analogOn b.model.isAnalog b.model.pins x := by
      cases ha : b.model.isAnalog with
      | false => simp [analogOn]
      | true =>
        simp only [analogOn, if_true, ModelBase.withPin]
        rw [count_set hk, hget]
        have hpos : n = x → 0 < b.model.pins.count (some x) := by
          rintro rfl
          exact count_pos_iff.mpr (List.mem_of_getElem? hpin)
        by_cases hx : n = x
        · have := hpos hx
          simp [hx]
          omega
        · simp [hx]
    have hpins : ((nl.setPin pos k none).detachPin ⟨b.id, k⟩ b.model.isAnalog n).analogPins x +
        (if n = x then (if b.model.isAnalog then 1 else 0) else 0) = nl.analogPins x := by
      rw [analogPins_eq hbases', analogPins_eq hbases, ← hcount]
      change analogOn b.model.isAnalog _ x + _ + _ = _
      omega
    rw [hnode] at hnd
    by_cases hx : n = x
    · rw [if_pos hx] at hnd hpins
      obtain ⟨nd₀, hnd₀, rfl⟩ := map_eq_some_iff.mp hnd
      have hnum := h.consistent.num_analog x nd₀ hnd₀
      rw [← hpins] at hnum
      cases ha : b.model.isAnalog <;> simp [ha, detachEff, hnum, UInt64.ofNat_add]
    · rw [if_neg hx] at hnd hpins
      rw [h.consistent.num_analog x nd hnd, ← hpins, Nat.add_zero]
  · exact (h.ids_withPin hbases hbases' (by simp [detachPin, nextId_setPin])).1
  · exact (h.ids_withPin hbases hbases' (by simp [detachPin, nextId_setPin])).2

/-! ### Models and nodes -/

variable {p : PinRef}

theorem mem_visited_detach {id : Nat} {analog : Bool} {pins : List (Option NodeId)} {s : Nat} :
    p ∈ (visited n (detachEff id analog) pins s nd).pins ↔
      p ∈ nd.pins ∧ ¬(p.id = id ∧ (some n, p.k) ∈ pins.zipIdx s) := by
  induction pins generalizing s nd with
  | nil => simp [visited]
  | cons q qs ih =>
    rw [visited_cons, ih, zipIdx_cons, mem_cons]
    by_cases hq : q = some n
    · simp only [hq, if_true, detachEff, Finset.mem_erase, Prod.mk.injEq, true_and, not_and_or, not_or]
      constructor
      · rintro ⟨⟨hne, hp⟩, h⟩
        refine ⟨hp, ?_⟩
        by_cases hid : p.id = id
        · refine .inr ⟨fun hk => hne ?_, h.resolve_left (not_not.mpr hid)⟩
          cases p
          simp_all
        · exact .inl hid
      · rintro ⟨hp, h⟩
        refine ⟨⟨?_, hp⟩, h.imp_right And.right⟩
        rintro rfl
        exact (h.resolve_left (not_not.mpr rfl)).1 rfl
    · have hne : ¬(some n, p.k) = (q, s) := fun h => hq (congrArg Prod.fst h).symm
      simp [hq, hne]

theorem nextId_removeFromNode (nl : Netlist) (b : ModelBase) : (nl.removeFromNode b).nextId = nl.nextId := by
  refine visitPins_induction (P := fun x => x.nextId = nl.nextId) _ b.model.pins 0 nl rfl ?_
  intro k n x hx
  rw [← hx, detachPin, nextId_modifyNode]

theorem Sound.takeOut (h : Sound nl) (hbases : nl.bases = l ++ b :: r) (hbases' : nl'.bases = l ++ r)
    (hnext : nl'.nextId = nl.nextId) (hnode : ∀ x, nl'.node? x = (nl.removeFromNode b).node? x) : Sound nl' := by
  have hnodup := h.nodup
  rw [hbases] at hnodup
  have hvisit (x : NodeId) : nl'.node? x =
      (nl.node? x).map (visited x (detachEff b.id b.model.isAnalog) b.model.pins 0) := by
    rw [hnode]
    exact node?_visitPins _ _ x (fun k y nl => node?_detachPin nl _ k _ y x) _ _ _
  refine ⟨⟨fun x nd hnd p => ?_, fun m hm x hx => ?_, fun x nd hnd => ?_⟩, ?_, fun c hc => ?_⟩
  · rw [hvisit] at hnd
    obtain ⟨nd₀, hnd₀, rfl⟩ := map_eq_some_iff.mp hnd
    rw [mem_visited_detach, h.consistent.pins_exact x nd₀ hnd₀ p, points_iff hbases, Points, hbases',
      mk_mem_zipIdx_iff_getElem?]
    constructor
    · rintro ⟨⟨hid, hk⟩ | hc, hnot⟩
      · exact absurd ⟨hid.symm, hk⟩ hnot
      · exact hc
    · rintro ⟨c, hc, hid, hk⟩
      refine ⟨.inr ⟨c, hc, hid, hk⟩, fun hb => ne_id_of_nodup hnodup hc (hid.trans hb.1)⟩
  · obtain ⟨c, hc, rfl⟩ := mem_map.mp hm
    rw [hbases'] at hc
    rw [hvisit, isSome_map]
    exact h.isSome_node? (mem_bases_of_mem_append hbases hc) hx
  · rw [hvisit] at hnd
    obtain ⟨nd₀, hnd₀, rfl⟩ := map_eq_some_iff.mp hnd
    have hpins : nl.analogPins x = analogOn b.model.isAnalog b.model.pins x + nl'.analogPins x := by
      rw [analogPins_eq hbases, analogPins, normals, hbases', List.map_map]
      rfl
    rw [visited_detach_num, h.consistent.num_analog x nd₀ hnd₀, hpins, UInt64.ofNat_add]
    grind
  · rw [hbases']
    rw [map_append, map_cons, nodup_middle, nodup_cons, ← map_append] at hnodup
    exact hnodup.2
  · rw [hbases'] at hc
    rw [hnext]
    exact h.lt c (mem_bases_of_mem_append hbases hc)

theorem Sound.congr (h : Sound nl) (hbases : nl'.bases = nl.bases) (hnext : nl'.nextId = nl.nextId)
    (hnode : ∀ x, nl'.node? x = nl.node? x) : Sound nl' := by
  refine ⟨⟨fun x nd hnd p => ?_, fun m hm x hx => ?_, fun x nd hnd => ?_⟩, ?_, fun c hc => ?_⟩
  · rw [hnode] at hnd
    rw [h.consistent.pins_exact x nd hnd p, Points, Points, hbases]
  · rw [hnode]
    rw [normals, hbases] at hm
    exact h.consistent.pins_valid m hm x hx
  · rw [hnode] at hnd
    rw [h.consistent.num_analog x nd hnd, analogPins, analogPins, normals, normals, hbases]
  · rw [hbases]
    exact h.nodup
  · rw [hbases] at hc
    rw [hnext]
    exact h.lt c hc

theorem models_removeFromNode (nl : Netlist) (b : ModelBase) : (nl.removeFromNode b).models = nl.models := by
  refine visitPins_induction (P := fun x => x.models = nl.models) _ b.model.pins 0 nl rfl ?_
  intro k n x hx
  rw [← hx, detachPin, models_modifyNode]

theorem exists_bases_modify (h : nl.models[i]? = some blk) {l₁ r₁ : List (Option ModelBase)}
    {s : Option ModelBase} (hs : blk.slots = l₁ ++ s :: r₁) :
    ∃ l r, nl.bases = l ++ s.toList ++ r ∧ ∀ f : ModelBlock → ModelBlock,
      (f blk).slots.reduceOption = (l₁ ++ r₁).reduceOption →
      ∀ nl' : Netlist, nl'.models = nl.models.modify i f → nl'.bases = l ++ r := by
  obtain ⟨l, r, hl, hset⟩ := exists_slots_modify h
  refine ⟨(l ++ l₁).reduceOption, (r₁ ++ r).reduceOption, ?_, fun f hf nl' hnl' => ?_⟩
  · rw [bases, hl, hs]
    cases s <;> simp [reduceOption_append, reduceOption_cons_of_some, reduceOption_cons_of_none]
  · have hslots : nl'.slots = l ++ (f blk).slots ++ r := by
      rw [← hset f, slots, slots, hnl']
    rw [bases, hslots, reduceOption_append, reduceOption_append, hf]
    simp [reduceOption_append]

theorem Sound.deleteModel (h : Sound nl) (pos : ModelPos) : Sound (nl.deleteModel pos).1 := by
  unfold Netlist.deleteModel
  cases hblk : nl.models[pos.chunkPos]? with
  | none => exact h
  | some blk =>
    dsimp only
    cases hslot : blk.slots[pos.vecPos]? with
    | none => exact h
    | some slot =>
      dsimp only
      have hsplit := eq_append_of_getElem? hslot
      obtain ⟨l, r, hbases, hmodify⟩ := exists_bases_modify hblk hsplit
      by_cases hlast : pos.vecPos + 1 = blk.slots.length
      · rw [if_pos hlast]
        have hdrop : blk.slots.dropLast.reduceOption =
            (blk.slots.take pos.vecPos ++ blk.slots.drop (pos.vecPos + 1)).reduceOption := by
          rw [hlast, drop_length, append_nil, dropLast_eq_take]
          congr 2
          omega
        cases slot with
        | none =>
          refine h.congr ?_ rfl fun x => by cases x <;> rfl
          rw [hbases, Option.toList_none, append_nil]
          exact hmodify _ hdrop _ rfl
        | some b =>
          have hpop := hmodify (fun b => { slots := b.slots.dropLast, numOfNullModel := b.numOfNullModel - 0 }) hdrop
          refine h.takeOut (by simpa using hbases) (hpop _ ?_) (nextId_removeFromNode nl b)
            fun x => by cases x <;> rfl
          dsimp only
          rw [models_removeFromNode]
      · rw [if_neg hlast]
        cases slot with
        | none => exact h
        | some b =>
          have hnull : (blk.slots.set pos.vecPos none).reduceOption =
              (blk.slots.take pos.vecPos ++ blk.slots.drop (pos.vecPos + 1)).reduceOption := by
            rw [set_eq_take_append_cons_drop, if_pos (List.getElem?_eq_some_iff.mp hslot).1,
              reduceOption_append, reduceOption_cons_of_none, reduceOption_append]
          have hclear := hmodify ((fun b : ModelBlock => { b with numOfNullModel := b.numOfNullModel + 1 }) ∘
            fun b : ModelBlock => { b with slots := b.slots.set pos.vecPos none }) hnull
          refine h.takeOut (by simpa using hbases) (hclear _ ?_) (nextId_removeFromNode nl b)
            fun x => by cases x <;> rfl
          dsimp only [setSlot]
          rw [models_removeFromNode, modify_modify_eq]

def offNode (n : NodeId) (b : ModelBase) : ModelBase :=
  { b with model := { b.model with pins := b.model.pins.map fun p => if p = some n then none else p } }

theorem Sound.clearPins_eq (h : Sound nl) (hnd : nl.node? n = some nd) (hb : b ∈ nl.bases) :
    clearPins nd.pins b = offNode n b := by
  have hpins : (b.model.pins.mapIdx fun k p => if (⟨b.id, k⟩ : PinRef) ∈ nd.pins then none else p) =
      b.model.pins.map fun p => if p = some n then none else p := by
    refine ext_getElem (by simp) fun k hk _ => ?_
    have hk : k < b.model.pins.length := by simpa using hk
    rw [getElem_mapIdx, getElem_map]
    have hmem : (⟨b.id, k⟩ : PinRef) ∈ nd.pins ↔ b.model.pins[k] = some n := by
      rw [h.consistent.pins_exact n nd hnd]
      constructor
      · rintro ⟨c, hc, hid, hck⟩
        have hcb : c = b := inj_on_of_nodup_map h.nodup hc hb hid
        subst hcb
        simpa [getElem?_eq_getElem hk] using hck
      · intro hk'
        exact ⟨b, hb, rfl, by simp [getElem?_eq_getElem hk, hk']⟩
    by_cases hp : b.model.pins[k] = some n
    · rw [if_pos (hmem.mpr hp), if_pos hp]
    · rw [if_neg (fun he => hp (hmem.mp he)), if_neg hp]
  rw [clearPins, offNode, hpins]

theorem reduceOption_map_option {α β : Type} (f : α → β) (xs : List (Option α)) :
    (xs.map (Option.map f)).reduceOption = xs.reduceOption.map f := by
  induction xs with
  | nil => rfl
  | cons x xs ih => cases x <;> simp [reduceOption_cons_of_some, reduceOption_cons_of_none, ih]

theorem Sound.bases_deleteNode (h : Sound nl) (hn : (nl.node? n).isSome) :
    (nl.deleteNode n).bases = nl.bases.map (offNode n) := by
  obtain ⟨nd, hnd⟩ := Option.isSome_iff_exists.mp hn
  have hmodels : (nl.deleteNode n).models =
      nl.models.map fun blk => { blk with slots := blk.slots.map (Option.map (clearPins nd.pins)) } := by
    rw [Netlist.deleteNode, hnd]
    exact models_modifyNode _ n _
  rw [← map_congr_left fun b hb => h.clearPins_eq hnd hb, bases, slots, hmodels, flatMap_map, bases,
    ← reduceOption_map_option, slots, map_flatMap]

theorem node?_deleteNode (nl : Netlist) (n x : NodeId) :
    (nl.deleteNode n).node? x = if n = x then (nl.node? x).map fun _ => {} else nl.node? x := by
  unfold Netlist.deleteNode
  cases hnd : nl.node? n with
  | none =>
    by_cases hx : n = x
    · rw [if_pos hx, ← hx, hnd]
      rfl
    · rw [if_neg hx]
  | some nd =>
    dsimp only
    rw [node?_modifyNode]
    cases x <;> rfl

theorem nextId_deleteNode (nl : Netlist) (n : NodeId) : (nl.deleteNode n).nextId = nl.nextId := by
  unfold Netlist.deleteNode
  cases nl.node? n with
  | none => rfl
  | some nd => exact nextId_modifyNode _ n _

theorem ite_eq_some_iff {p : Option NodeId} :
    (if p = some n then none else p) = some x ↔ p = some x ∧ n ≠ x := by
  by_cases hp : p = some n
  · rw [if_pos hp, hp]
    simp
  · rw [if_neg hp]
    refine (and_iff_left_of_imp ?_).symm
    rintro rfl rfl
    exact hp rfl

theorem analogOn_offNode (n x : NodeId) (b : ModelBase) :
    analogOn (offNode n b).model.isAnalog (offNode n b).model.pins x =
      if n = x then 0 else analogOn b.model.isAnalog b.model.pins x := by
  have hcount : (offNode n b).model.pins.count (some x) = if n = x then 0 else b.model.pins.count (some x) := by
    rw [count_eq_countP, offNode, countP_map, count_eq_countP]
    by_cases hx : n = x
    · rw [if_pos hx, countP_eq_zero]
      intro p _ hp
      exact (ite_eq_some_iff.mp (by simpa using hp)).2 hx
    · rw [if_neg hx]
      refine countP_congr fun p _ => ?_
      simpa [hx] using ite_eq_some_iff (n := n) (x := x) (p := p)
  change (if b.model.isAnalog then (offNode n b).model.pins.count (some x) else 0) = _
  rw [hcount, analogOn]
  by_cases hx : n = x <;> simp [hx]

theorem Sound.analogPins_deleteNode (h : Sound nl) (hn : (nl.node? n).isSome) (x : NodeId) :
    (nl.deleteNode n).analogPins x = if n = x then 0 else nl.analogPins x := by
  have hmap : (nl.deleteNode n).normals.map (fun m => analogOn m.isAnalog m.pins x) =
      nl.bases.map fun b => if n = x then 0 else analogOn b.model.isAnalog b.model.pins x := by
    rw [normals, h.bases_deleteNode hn, List.map_map, List.map_map]
    exact map_congr_left fun b _ => analogOn_offNode n x b
  rw [analogPins, hmap]
  by_cases hx : n = x
  · simp [hx]
  · simp only [if_neg hx, analogPins, normals, List.map_map]
    rfl

theorem Sound.points_deleteNode (h : Sound nl) (hn : (nl.node? n).isSome) (p : PinRef) (x : NodeId) :
    (nl.deleteNode n).Points p x ↔ nl.Points p x ∧ n ≠ x := by
  rw [Points, Points, h.bases_deleteNode hn]
  constructor
  · rintro ⟨c, hc, hid, hk⟩
    obtain ⟨b, hb, rfl⟩ := mem_map.mp hc
    rw [offNode, getElem?_map, map_eq_some_iff] at hk
    obtain ⟨q, hq, hqx⟩ := hk
    obtain ⟨rfl, hne⟩ := ite_eq_some_iff.mp hqx
    exact ⟨⟨b, hb, hid, hq⟩, hne⟩
  · rintro ⟨⟨b, hb, hid, hk⟩, hne⟩
    refine ⟨offNode n b, mem_map_of_mem hb, hid, ?_⟩
    rw [offNode, getElem?_map, hk, Option.map_some, ite_eq_some_iff.mpr ⟨rfl, hne⟩]

theorem Sound.deleteNode (h : Sound nl) (n : NodeId) : Sound (nl.deleteNode n) := by
  by_cases hn : (nl.node? n).isSome
  swap
  · have hnone : nl.node? n = none := by simpa using hn
    rw [Netlist.deleteNode, hnone]
    exact h
  refine ⟨⟨fun x nd hnd p => ?_, fun m hm x hx => ?_, fun x nd hnd => ?_⟩, ?_, fun c hc => ?_⟩
  · rw [node?_deleteNode] at hnd
    rw [h.points_deleteNode hn]
    by_cases hx : n = x
    · rw [if_pos hx] at hnd
      obtain ⟨_, -, rfl⟩ := map_eq_some_iff.mp hnd
      simp [hx]
    · rw [if_neg hx] at hnd
      rw [h.consistent.pins_exact x nd hnd p, and_iff_left hx]
  · rw [normals, h.bases_deleteNode hn, List.map_map] at hm
    obtain ⟨b, hb, rfl⟩ := mem_map.mp hm
    obtain ⟨q, hq, hqx⟩ := mem_map.mp hx
    obtain ⟨rfl, hne⟩ := ite_eq_some_iff.mp hqx
    rw [node?_deleteNode, if_neg hne]
    exact h.isSome_node? hb hq
  · rw [node?_deleteNode] at hnd
    rw [h.analogPins_deleteNode hn]
    by_cases hx : n = x
    · rw [if_pos hx] at hnd ⊢
      obtain ⟨_, -, rfl⟩ := map_eq_some_iff.mp hnd
      rfl
    · rw [if_neg hx] at hnd ⊢
      exact h.consistent.num_analog x nd hnd
  · rw [h.bases_deleteNode hn, List.map_map]
    exact h.nodup
  · rw [h.bases_deleteNode hn] at hc
    obtain ⟨b, hb, rfl⟩ := mem_map.mp hc
    rw [nextId_deleteNode]
    exact h.lt b hb

theorem Reachable.sound (h : Reachable nl) : Sound nl := by
  induction h with
  | empty => exact sound_empty
  | createNode _ ih => exact ih.createNode
  | addModel _ hm ih => exact ih.addModel hm
  | addToNode _ hb hfree hn ih => exact ih.addToNode hb hfree hn
  | removeFromNode _ hb hpin ih => exact ih.removeFromNodeAt hb hpin
  | deleteModel _ ih => exact ih.deleteModel _
  | deleteNode _ ih => exact ih.deleteNode _

def pinsOn (n : NodeId) (b : ModelBase) : List PinRef :=
  (b.model.pins.zipIdx.filter fun pk => pk.1 = some n).map fun pk => ⟨b.id, pk.2⟩

theorem mem_pinsOn :
    p ∈ pinsOn n b ↔ b.id = p.id ∧ b.model.pins[p.k]? = some (some n) := by
  rw [pinsOn, mem_map]
  constructor
  · rintro ⟨⟨v, k⟩, hpk, rfl⟩
    obtain ⟨hmem, hv⟩ := mem_filter.mp hpk
    obtain rfl : v = some n := by simpa using hv
    exact ⟨rfl, mk_mem_zipIdx_iff_getElem?.mp hmem⟩
  · rintro ⟨hid, hk⟩
    refine ⟨(some n, p.k), mem_filter.mpr ⟨mk_mem_zipIdx_iff_getElem?.mpr hk, by simp⟩, ?_⟩
    rw [hid]

theorem nodup_pinsOn (n : NodeId) (b : ModelBase) : (pinsOn n b).Nodup := by
  have hidx : (b.model.pins.zipIdx.map Prod.snd).Nodup := by
    rw [zipIdx_map_snd]
    exact nodup_range'
  have hsub : ((b.model.pins.zipIdx.filter fun pk => pk.1 = some n).map Prod.snd).Nodup :=
    hidx.sublist (filter_sublist.map _)
  have hmap : (pinsOn n b).map PinRef.k = (b.model.pins.zipIdx.filter fun pk => pk.1 = some n).map Prod.snd := by
    rw [pinsOn, List.map_map]
    rfl
  exact List.Nodup.of_map PinRef.k (hmap ▸ hsub)

theorem length_pinsOn (n : NodeId) (b : ModelBase) : (pinsOn n b).length = b.model.pins.count (some n) := by
  rw [pinsOn, length_map, ← countP_eq_length_filter, count_eq_countP]
  have hmap : b.model.pins.countP (fun p => p == some n) =
      (b.model.pins.zipIdx.map Prod.fst).countP fun p => p == some n := by
    rw [zipIdx_map_fst]
  rw [hmap, countP_map]
  exact countP_congr fun pk _ => by simp

def pinIsAnalog (nl : Netlist) (p : PinRef) : Bool := nl.bases.any fun b => b.id = p.id && b.model.isAnalog

theorem Sound.analogPins_eq_card (h : Sound nl) (hnd : nl.node? n = some nd) :
    nl.analogPins n = (nd.pins.filter fun p => nl.pinIsAnalog p = true).card := by
  let on (b : ModelBase) : List PinRef := if b.model.isAnalog then pinsOn n b else []
  have hmem (b : ModelBase) (p : PinRef) :
      p ∈ on b ↔ b.model.isAnalog = true ∧ b.id = p.id ∧ b.model.pins[p.k]? = some (some n) := by
    dsimp only [on]
    by_cases ha : b.model.isAnalog = true
    · rw [if_pos ha, mem_pinsOn, and_iff_right ha]
    · rw [if_neg ha]
      simp [ha]
  have hnodup : (nl.bases.flatMap on).Nodup := by
    rw [nodup_flatMap]
    constructor
    · intro b _
      dsimp only [on]
      split_ifs
      · exact nodup_pinsOn n b
      · exact nodup_nil
    · refine (pairwise_map.mp h.nodup).imp fun {b c} hne => ?_
      intro p hb hc
      exact hne (((hmem b p).mp hb).2.1.trans ((hmem c p).mp hc).2.1.symm)
  have hset : (nl.bases.flatMap on).toFinset = nd.pins.filter fun p => nl.pinIsAnalog p = true := by
    ext p
    rw [mem_toFinset, mem_flatMap, Finset.mem_filter, h.consistent.pins_exact n nd hnd]
    constructor
    · rintro ⟨b, hb, hp⟩
      obtain ⟨ha, hid, hk⟩ := (hmem b p).mp hp
      exact ⟨⟨b, hb, hid, hk⟩, any_eq_true.mpr ⟨b, hb, by simp [hid, ha]⟩⟩
    · rintro ⟨⟨b, hb, hid, hk⟩, hany⟩
      obtain ⟨c, hc, hcp⟩ := any_eq_true.mp hany
      have hcp : c.id = p.id ∧ c.model.isAnalog = true := by simpa using hcp
      have heq : c = b := inj_on_of_nodup_map h.nodup hc hb (hcp.1.trans hid.symm)
      subst heq
      exact ⟨c, hc, (hmem c p).mpr ⟨hcp.2, hid, hk⟩⟩
  rw [← hset, card_toFinset, hnodup.dedup, length_flatMap, analogPins, normals, List.map_map]
  congr 1
  refine map_congr_left fun b _ => ?_
  dsimp only [on, Function.comp_apply]
  rw [analogOn]
  split_ifs
  · exact (length_pinsOn n b).symm
  · rfl

/-- Pins and nodes of a netlist built by the interface agree: a pin of a model is in the
set of a node exactly if it points to it, and the node counts its analog pins. -/
theorem reachable_pins_iff (h : Reachable nl) {n : NodeId} {nd : Node} (hnd : nl.node? n = some nd) :
    (∀ b ∈ nl.bases, ∀ k p, b.model.pins[k]? = some p → ((⟨b.id, k⟩ : PinRef) ∈ nd.pins ↔ p = some n)) ∧
      nd.numOfAnalogNode = UInt64.ofNat (nd.pins.filter fun p => nl.pinIsAnalog p = true).card := by
  have hs := h.sound
  refine ⟨fun b hb k p hk => ?_, ?_⟩
  · rw [hs.consistent.pins_exact n nd hnd]
    constructor
    · rintro ⟨c, hc, hid, hck⟩
      have heq : c = b := List.inj_on_of_nodup_map hs.nodup hc hb hid
      subst heq
      rw [hk] at hck
      exact some.inj hck
    · rintro rfl
      exact ⟨b, hb, rfl, hk⟩
  · rw [← hs.analogPins_eq_card hnd]
    exact hs.consistent.num_analog n nd hnd

def oneResistor : Netlist :=
  let nl := ({} : Netlist).createNode.1
  let nl := (nl.addModel { kind := .linear 0, name := "", attrs := [], pins := [none, none] }).1
  (nl.addToNode ⟨0, 0⟩ 0 (.node 0)).1

theorem reachable_oneResistor : Reachable oneResistor := by
  refine .addToNode (.addModel (.createNode .empty) (by simp [Fresh])) rfl rfl rfl

theorem reachable_pins_iff_oneResistor :
    (∀ b ∈ oneResistor.bases, ∀ k p, b.model.pins[k]? = some p →
      ((⟨b.id, k⟩ : PinRef) ∈ ({⟨0, 0⟩} : Finset PinRef) ↔ p = some (.node 0))) ∧
      1 = UInt64.ofNat (({⟨0, 0⟩} : Finset PinRef).filter fun p => oneResistor.pinIsAnalog p = true).card := by
  have hnode : oneResistor.node? (.node 0) = some { pins := {⟨0, 0⟩}, numOfAnalogNode := 1 } := rfl
  exact reachable_pins_iff reachable_oneResistor hnode

end PhyEngine.Netlist
