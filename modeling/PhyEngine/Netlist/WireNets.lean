import PhyEngine.Library.UnionFind
import PhyEngine.Netlist.Edits
import Mathlib.Data.Nat.Count

/-!
# Nets from wires

`build_netlist_from_wires` of `dll_main.cpp`: every pin of an element has a slot, and one more
stands for all ground elements. The wires join slots in a union-find; each marked root gets a
node. The recursion of `uf_find` is bounded by the number of wires.
-/

namespace PhyEngine.Netlist

open List
open Function (update update_eq_self update_of_ne update_self)
open Option (bind_eq_bind bind_some getD_some isSome_iff_exists map_some some)

structure Wire where
  ele1 : Int
  pin1 : Int
  ele2 : Int
  pin2 : Int

/-- The position of the model of each element, `none` for a ground element: the positions
are counted over the other elements only. -/
def components : List Int → List ModelPos → Option (List (Option ModelPos))
  | [], _ => some []
  | e :: es, poss =>
    if e = 0 then (components es poss).map (none :: ·)
    else match poss with
      | [] => none
      | pos :: poss => (components es poss).map (some pos :: ·)

variable (nl : Netlist)

def pinCount : Option ModelPos → Nat
  | none => 0
  | some pos => ((nl.getModel pos).map (·.model.pins.length)).getD 0

inductive WireEnd where
  | ground
  | pin (ele k : Nat)
  deriving DecidableEq

section Build

variable (comps : List (Option ModelPos)) (counts : List Nat)

def baseOffset (ele : Nat) : Nat := (counts.take ele).sum

def WireEnd.slot : WireEnd → Nat
  | .ground => counts.sum
  | .pin ele k => baseOffset counts ele + k

def wireEnd (ele pin : Int) : Option WireEnd :=
  if ele < 0 then none
  else match comps[ele.toNat]? with
    | none => none
    | some none => some .ground
    | some (some _) =>
      if pin < 0 ∨ counts.getD ele.toNat 0 ≤ pin.toNat then none else some (.pin ele.toNat pin.toNat)

/-- The two ends of a wire if both are valid; other wires are skipped. -/
def validEnds (w : Wire) : Option (WireEnd × WireEnd) := do
  let e1 ← wireEnd comps counts w.ele1 w.pin1
  let e2 ← wireEnd comps counts w.ele2 w.pin2
  some (e1, e2)

def joinWire (fuel : Nat) (s : UnionFind.State Nat) (w : Wire) : Option (UnionFind.State Nat) :=
  match validEnds comps counts w with
  | none => some s
  | some (e1, e2) => UnionFind.join counts.sum fuel s (e1.slot counts, e2.slot counts)

/-- The round of the slot `i` in the loop that creates the nodes. -/
def createNet (ground fuel : Nat) (st : Netlist × (Nat → Option NodeId) × UnionFind.State Nat) (i : Nat) :
    Option (Netlist × (Nat → Option NodeId) × UnionFind.State Nat) :=
  let (nl, nodeMap, s) := st
  if s.parent i = i ∧ s.visited i = true then do
    let (root, s) ← UnionFind.find fuel i s
    if root = ground then some (nl, update nodeMap i (some .ground), s)
    else some (nl.createNode.1, update nodeMap i (some nl.createNode.2), s)
  else some st

def connectPin (fuel : Nat) (nodeMap : Nat → Option NodeId) (pos : ModelPos) (base : Nat)
    (st : Netlist × UnionFind.State Nat) (k : Nat) : Option (Netlist × UnionFind.State Nat) :=
  if st.2.visited (base + k) = true then do
    let (root, s) ← UnionFind.find fuel (base + k) st.2
    let n ← nodeMap root
    some ((st.1.addToNode pos k n).1, s)
  else some st

def connectElement (fuel : Nat) (nodeMap : Nat → Option NodeId) (st : Netlist × UnionFind.State Nat)
    (c : Option ModelPos × Nat) : Option (Netlist × UnionFind.State Nat) :=
  match c.1 with
  | none => some st
  | some pos => (List.range (st.1.pinCount (some pos))).foldlM (connectPin fuel nodeMap pos (baseOffset counts c.2)) st

end Build

variable (comps : List (Option ModelPos))

/-- `build_netlist_from_wires`; `none` where it would search too long, or read an entry of
`model_pos_arr` or `node_map` that is not there. -/
def buildNetlistFromWires (elements : List Int) (wires : List Wire) (modelPosArr : List ModelPos) :
    Option Netlist := do
  if elements.isEmpty || wires.isEmpty then some nl
  else do
    let comps ← components elements modelPosArr
    let counts := comps.map nl.pinCount
    let fuel := wires.length + 1
    let s ← wires.foldlM (joinWire comps counts fuel) { parent := id, visited := fun _ => false }
    let (nl, nodeMap, s) ← (List.range counts.sum).foldlM (createNet counts.sum fuel) (nl, fun _ => none, s)
    let nodeMap := update nodeMap counts.sum (some .ground)
    let (nl, _) ← comps.zipIdx.foldlM (connectElement counts fuel nodeMap) (nl, s)
    some nl

def pinNode (ele k : Nat) : Option NodeId :=
  (comps[ele]?.join.bind nl.getModel).bind fun b => b.model.pins[k]?.join

def DistinctModels : Prop :=
  ∀ (i j : Nat) (pos : ModelPos), comps[i]? = some (some pos) → comps[j]? = some (some pos) → i = j

def Unconnected : Prop :=
  ∀ (i : Nat) (pos : ModelPos) (b : ModelBase), comps[i]? = some (some pos) → nl.getModel pos = some b → Fresh b.model

def Used (counts : List Nat) (wires : List Wire) (e : WireEnd) : Prop :=
  ∃ w ∈ wires, ∃ a b, validEnds comps counts w = some (a, b) ∧ (e = a ∨ e = b)

def Chain (wires : List Wire) : WireEnd → WireEnd → Prop :=
  Relation.EqvGen fun e e' => ∃ w ∈ wires, validEnds comps (comps.map nl.pinCount) w = some (e, e')

structure ExactNets (nl : Netlist) (comps : List (Option ModelPos)) (wires : List Wire) (nl' : Netlist) : Prop where
  sound : Sound nl'
  connected_iff : ∀ i k, (nl'.pinNode comps i k).isSome ↔ Used comps (comps.map nl.pinCount) wires (.pin i k)
  same_iff : ∀ i k j l, (nl'.pinNode comps i k).isSome → (nl'.pinNode comps j l).isSome →
    (nl'.pinNode comps i k = nl'.pinNode comps j l ↔ Chain nl comps wires (.pin i k) (.pin j l))
  ground_iff : ∀ i k, nl'.pinNode comps i k = some .ground ↔ Chain nl comps wires (.pin i k) .ground
  created : ∀ m, nl.nodes.length ≤ m → m < nl'.nodes.length → ∃ i k, nl'.pinNode comps i k = some (.node m)

section Slots

variable {comps : List (Option ModelPos)} {counts : List Nat} {i j k l : Nat} {e e' : WireEnd}

def IsEnd (comps : List (Option ModelPos)) (counts : List Nat) : WireEnd → Prop
  | .ground => True
  | .pin ele k => (∃ pos, comps[ele]? = some (some pos)) ∧ k < counts.getD ele 0

theorem isEnd_of_wireEnd {ele pin : Int} (h : wireEnd comps counts ele pin = some e) : IsEnd comps counts e := by
  unfold wireEnd at h
  split at h
  · cases h
  split at h
  · cases h
  · cases h
    trivial
  · rename_i hpos
    split at h
    · cases h
    · rename_i hpin
      cases h
      exact ⟨⟨_, hpos⟩, by omega⟩

theorem isEnd_of_validEnds {w : Wire} {p : WireEnd × WireEnd} (h : validEnds comps counts w = some p) :
    IsEnd comps counts p.1 ∧ IsEnd comps counts p.2 := by
  simp only [validEnds, bind_eq_bind, Option.bind_eq_some_iff, some.injEq] at h
  obtain ⟨e1, h1, e2, h2, rfl⟩ := h
  exact ⟨isEnd_of_wireEnd h1, isEnd_of_wireEnd h2⟩

theorem baseOffset_succ (counts : List Nat) (i : Nat) :
    baseOffset counts (i + 1) = baseOffset counts i + counts.getD i 0 := by
  rw [baseOffset, baseOffset, take_add_one, sum_append, getD_eq_getElem?_getD]
  cases counts[i]? <;> simp

theorem baseOffset_mono (h : i ≤ j) : baseOffset counts i ≤ baseOffset counts j := by
  induction h with
  | refl => exact Nat.le_refl _
  | step _ ih => exact Nat.le_trans ih (baseOffset_succ .. ▸ Nat.le_add_right ..)

theorem slot_pin_lt (hk : k < counts.getD i 0) : WireEnd.slot counts (.pin i k) < baseOffset counts (i + 1) := by
  rw [baseOffset_succ, WireEnd.slot]
  omega

theorem slot_pin_lt_ground (hk : k < counts.getD i 0) : WireEnd.slot counts (.pin i k) < counts.sum := by
  have hle : baseOffset counts (i + 1) ≤ baseOffset counts (max (i + 1) counts.length) :=
    baseOffset_mono (Nat.le_max_left ..)
  have hall : baseOffset counts (max (i + 1) counts.length) = counts.sum := by
    rw [baseOffset, take_of_length_le (Nat.le_max_right ..)]
  exact Nat.lt_of_lt_of_le (slot_pin_lt hk) (hall ▸ hle)

theorem slot_injective (h : IsEnd comps counts e) (h' : IsEnd comps counts e') (heq : e.slot counts = e'.slot counts) :
    e = e' := by
  cases e with
  | ground =>
    cases e' with
    | ground => rfl
    | pin j l => exact absurd heq.symm (Nat.ne_of_lt (slot_pin_lt_ground h'.2))
  | pin i k =>
    cases e' with
    | ground => exact absurd heq (Nat.ne_of_lt (slot_pin_lt_ground h.2))
    | pin j l =>
      have hlt := slot_pin_lt h.2
      have hlt' := slot_pin_lt h'.2
      rcases Nat.lt_trichotomy i j with hij | rfl | hij
      · have : baseOffset counts (i + 1) ≤ baseOffset counts j := baseOffset_mono hij
        rw [heq, WireEnd.slot] at hlt
        omega
      · rw [WireEnd.slot, WireEnd.slot, Nat.add_left_cancel_iff] at heq
        rw [heq]
      · have : baseOffset counts (j + 1) ≤ baseOffset counts i := baseOffset_mono hij
        rw [← heq, WireEnd.slot] at hlt'
        omega

def slotPairs (comps : List (Option ModelPos)) (counts : List Nat) (wires : List Wire) : List (Nat × Nat) :=
  (wires.filterMap (validEnds comps counts)).map fun p => (p.1.slot counts, p.2.slot counts)

variable {wires : List Wire} {x y : Nat}

theorem foldlM_joinWire (fuel : Nat) (s : UnionFind.State Nat) :
    wires.foldlM (joinWire comps counts fuel) s =
      (slotPairs comps counts wires).foldlM (UnionFind.join counts.sum fuel) s := by
  rw [slotPairs, foldlM_map, foldlM_filterMap]
  congr 1
  funext s w
  rw [joinWire]
  cases validEnds comps counts w <;> rfl

theorem mem_slotPairs : (x, y) ∈ slotPairs comps counts wires ↔
    ∃ e e', (∃ w ∈ wires, validEnds comps counts w = some (e, e')) ∧ e.slot counts = x ∧ e'.slot counts = y := by
  simp only [slotPairs, mem_map, mem_filterMap, Prod.exists, Prod.mk.injEq]

theorem isEnd_of_mem (h : ∃ w ∈ wires, validEnds comps counts w = some (e, e')) :
    IsEnd comps counts e ∧ IsEnd comps counts e' := by
  obtain ⟨w, -, hw⟩ := h
  exact isEnd_of_validEnds hw

theorem isEnd_of_used (h : Used comps counts wires e) : IsEnd comps counts e := by
  obtain ⟨w, -, a, b, hab, rfl | rfl⟩ := h
  · exact (isEnd_of_validEnds hab).1
  · exact (isEnd_of_validEnds hab).2

theorem eqvGen_slotPairs (h : IsEnd comps counts e) (h' : IsEnd comps counts e') :
    Relation.EqvGen (UnionFind.Pairs (slotPairs comps counts wires)) (e.slot counts) (e'.slot counts) ↔
      Relation.EqvGen (fun e e' => ∃ w ∈ wires, validEnds comps counts w = some (e, e')) e e' := by
  constructor
  · -- slots that are joined are equal or the slots of two joined ends
    have hends {x y : Nat} (hxy : Relation.EqvGen (UnionFind.Pairs (slotPairs comps counts wires)) x y) : x = y ∨
        ∃ a b, IsEnd comps counts a ∧ IsEnd comps counts b ∧ a.slot counts = x ∧ b.slot counts = y ∧
          Relation.EqvGen (fun e e' => ∃ w ∈ wires, validEnds comps counts w = some (e, e')) a b := by
      induction hxy with
      | rel x y hp =>
        obtain ⟨a, b, hw, ha, hb⟩ := mem_slotPairs.mp hp
        exact .inr ⟨a, b, (isEnd_of_mem hw).1, (isEnd_of_mem hw).2, ha, hb, .rel _ _ hw⟩
      | refl => exact .inl rfl
      | symm _ _ _ ih =>
        obtain rfl | ⟨a, b, ha, hb, hx, hy, hab⟩ := ih
        · exact .inl rfl
        · exact .inr ⟨b, a, hb, ha, hy, hx, hab.symm⟩
      | trans _ _ _ _ _ ih ih' =>
        obtain rfl | ⟨a, b, ha, hb, hx, hy, hab⟩ := ih
        · exact ih'
        obtain rfl | ⟨c, d, hc, hd, hx', hy', hcd⟩ := ih'
        · exact .inr ⟨a, b, ha, hb, hx, hy, hab⟩
        obtain rfl := slot_injective hb hc (hy.trans hx'.symm)
        exact .inr ⟨a, d, ha, hd, hx, hy', hab.trans _ _ _ hcd⟩
    intro hxy
    obtain heq | ⟨a, b, ha, hb, hx, hy, hab⟩ := hends hxy
    · exact slot_injective h h' heq ▸ .refl e
    · rwa [slot_injective ha h hx, slot_injective hb h' hy] at hab
  · intro hab
    clear h h'
    induction hab with
    | rel e e' hw => exact .rel _ _ (mem_slotPairs.mpr ⟨e, e', hw, rfl, rfl⟩)
    | refl e => exact .refl _
    | symm _ _ _ ih => exact ih.symm
    | trans _ _ _ _ _ ih ih' => exact ih.trans _ _ _ ih'

theorem eq_or_used_of_chain
    (h : Relation.EqvGen (fun e e' => ∃ w ∈ wires, validEnds comps counts w = some (e, e')) e e') :
    e = e' ∨ Used comps counts wires e := by
  have hboth : e = e' ∨ Used comps counts wires e ∧ Used comps counts wires e' := by
    induction h with
    | rel a b h =>
      obtain ⟨w, hw, hab⟩ := h
      exact .inr ⟨⟨w, hw, a, b, hab, .inl rfl⟩, w, hw, a, b, hab, .inr rfl⟩
    | refl => exact .inl rfl
    | symm _ _ _ ih => exact ih.imp Eq.symm And.symm
    | trans _ _ _ _ _ ih ih' =>
      obtain rfl | hab := ih
      · exact ih'
      · obtain rfl | hbc := ih'
        · exact .inr hab
        · exact .inr ⟨hab.1, hbc.2⟩
  exact hboth.imp_right And.left

end Slots

section Nets

variable {nl cur : Netlist} {s : UnionFind.State Nat} {root depth : Nat → Nat} {visited : Nat → Bool}
    {ground fuel m : Nat}

def IsNet (root : Nat → Nat) (visited : Nat → Bool) (x : Nat) : Prop := root x = x ∧ visited x = true

instance (root : Nat → Nat) (visited : Nat → Bool) : DecidablePred (IsNet root visited) := fun _ =>
  inferInstanceAs (Decidable (_ ∧ _))

def netNode (first ground : Nat) (root : Nat → Nat) (visited : Nat → Bool) (x : Nat) : NodeId :=
  if x = ground then .ground else .node (first + Nat.count (IsNet root visited) x)

theorem createNets (hs : Sound nl) (hforest : UnionFind.Forest s root depth) (hfuel : ∀ x, depth x < fuel)
    (hm : m ≤ ground) :
    ∃ cur nodeMap s', (List.range m).foldlM (createNet ground fuel) (nl, fun _ => none, s) = some (cur, nodeMap, s') ∧
      UnionFind.Forest s' root depth ∧ s'.visited = s.visited ∧ Sound cur ∧ cur.models = nl.models ∧
      cur.nodes.length = nl.nodes.length + Nat.count (IsNet root s.visited) m ∧
      ∀ x, x < m → IsNet root s.visited x → nodeMap x = some (netNode nl.nodes.length ground root s.visited x) := by
  induction m with
  | zero => exact ⟨nl, _, s, rfl, hforest, rfl, hs, rfl, rfl, fun x hx => absurd hx (Nat.not_lt_zero x)⟩
  | succ m ih =>
    obtain ⟨cur, nodeMap, s₁, hrun, hforest₁, hvisited, hsound, hmodels, hlen, hmap⟩ := ih (by omega)
    have hcond : s₁.parent m = m ∧ s₁.visited m = true ↔ IsNet root s.visited m := by
      rw [hvisited, hforest₁.parent_eq_iff, IsNet]
    rw [range_succ, foldlM_append, hrun]
    by_cases hnet : IsNet root s.visited m
    · obtain ⟨s', hfind, hforest', hvisited', -⟩ := hforest₁.find (hfuel m)
      have hsame : s'.visited = s.visited := by rw [hvisited', hvisited, ← hnet.2, update_eq_self]
      refine ⟨cur.createNode.1, update nodeMap m (some cur.createNode.2), s', ?_, hforest', hsame,
        hsound.createNode, hmodels, ?_, ?_⟩
      · have hne : m ≠ ground := by omega
        simp only [foldlM_cons, foldlM_nil, createNet, hcond.mpr hnet, and_self, if_true, hfind, hnet.1, hne, if_false,
          bind_eq_bind, bind_some, Option.pure_def]
      · rw [Nat.count_succ, if_pos hnet, createNode]
        simp only [length_append, length_singleton, hlen]
        omega
      · intro x hx hnx
        by_cases heq : x = m
        · rw [heq, update_self, netNode, if_neg (by omega), createNode, hlen]
        · rw [update_of_ne heq]
          exact hmap x (by omega) hnx
    · refine ⟨cur, nodeMap, s₁, ?_, hforest₁, hvisited, hsound, hmodels, ?_, fun x hx hnx => ?_⟩
      · simp only [foldlM_cons, foldlM_nil, createNet, mt hcond.mp hnet, if_false, bind_eq_bind, bind_some,
          Option.pure_def]
      · rw [Nat.count_succ, if_neg hnet, hlen, Nat.add_zero]
      · have hne : x ≠ m := fun heq => hnet (heq ▸ hnx)
        exact hmap x (by omega) hnx

theorem exists_count_eq {p : Nat → Prop} [DecidablePred p] {c n : Nat} (h : c < Nat.count p n) :
    ∃ x < n, p x ∧ Nat.count p x = c := by
  induction n with
  | zero => exact absurd h (by simp)
  | succ n ih =>
    by_cases hlt : c < Nat.count p n
    · obtain ⟨x, hx, hpx⟩ := ih hlt
      exact ⟨x, by omega, hpx⟩
    · rw [Nat.count_succ] at h
      split at h
      · exact ⟨n, Nat.lt_succ_self n, ‹p n›, by omega⟩
      · omega

end Nets

section Wired

variable {nl cur : Netlist} {comps : List (Option ModelPos)} {f g : Nat → Nat → Option NodeId} {i k m fuel : Nat}
  {pos pos' : ModelPos} {b : ModelBase} {n : NodeId}

theorem getModel_addToNode_ne (hb : nl.getModel pos = some b) (hk : k < b.model.pins.length) (hne : pos' ≠ pos) :
    (nl.addToNode pos k n).1.getModel pos' = nl.getModel pos' := by
  rw [getModel_congr (models_addToNode hb hk), setSlot, getModel, getModel]
  dsimp only
  rw [getElem?_modify]
  by_cases hchunk : pos.chunkPos = pos'.chunkPos
  · have hvec : pos.vecPos ≠ pos'.vecPos := by
      intro hvec
      cases pos
      cases pos'
      simp_all
    simp only [hchunk, if_true]
    cases nl.models[pos'.chunkPos]? <;> simp [getElem?_set_ne hvec]
  · simp [hchunk]

def withPins (f : Nat → Option NodeId) (b : ModelBase) : ModelBase :=
  { b with model := { b.model with pins := (List.range b.model.pins.length).map f } }

theorem withPin_withPins (f : Nat → Option NodeId) (b : ModelBase) (k : Nat) (n : NodeId) :
    ModelBase.withPin (withPins f b) k (some n) = withPins (update f k (some n)) b := by
  have hset : ((List.range b.model.pins.length).map f).set k (some n) =
      (List.range b.model.pins.length).map (update f k (some n)) := by
    refine ext_getElem (by simp) fun j hj _ => ?_
    by_cases heq : k = j
    · simp [heq]
    · simp [getElem_set_ne heq, update_of_ne (Ne.symm heq)]
  rw [ModelBase.withPin, withPins]
  dsimp only
  rw [hset]
  rfl

structure Wired (nl : Netlist) (comps : List (Option ModelPos)) (f : Nat → Nat → Option NodeId)
    (cur : Netlist) : Prop where
  sound : Sound cur
  length_nodes : cur.nodes.length = nl.nodes.length
  getModel : ∀ i pos, comps[i]? = some (some pos) → cur.getModel pos = (nl.getModel pos).map (withPins (f i))

theorem Wired.congr (h : Wired nl comps f cur)
    (hfg : ∀ i pos b, comps[i]? = some (some pos) → nl.getModel pos = some b →
      ∀ k < b.model.pins.length, f i k = g i k) :
    Wired nl comps g cur := by
  refine ⟨h.sound, h.length_nodes, fun i pos hi => ?_⟩
  rw [h.getModel i pos hi]
  refine Option.map_congr fun b hb => ?_
  rw [withPins, withPins, map_congr_left fun k hk => hfg i pos b hi hb k (mem_range.mp hk)]

theorem Wired.start (hs : Sound nl) (hfree : Unconnected nl comps) : Wired nl comps (fun _ _ => none) nl := by
  refine ⟨hs, rfl, fun i pos hi => ?_⟩
  cases hb : nl.getModel pos with
  | none => rfl
  | some b =>
    have hpins : (List.range b.model.pins.length).map (fun _ => (none : Option NodeId)) = b.model.pins := by
      rw [map_const', length_range, ← eq_replicate_length.mpr (hfree i pos b hi hb)]
    rw [map_some, withPins, hpins]

variable (hinj : DistinctModels comps)
include hinj

theorem Wired.addToNode (h : Wired nl comps f cur) (hi : comps[i]? = some (some pos)) (hb : nl.getModel pos = some b)
    (hk : k < b.model.pins.length) (hfree : f i k = none) (hn : (nl.node? n).isSome) :
    Wired nl comps (update f i (update (f i) k (some n))) (cur.addToNode pos k n).1 := by
  have hcur : cur.getModel pos = some (withPins (f i) b) := by rw [h.getModel i pos hi, hb, map_some]
  have hlt : k < (withPins (f i) b).model.pins.length := by simpa [withPins] using hk
  have hpin : (withPins (f i) b).model.pins[k]? = some none := by simp [withPins, hk, hfree]
  refine ⟨h.sound.addToNode hcur hpin ((isSome_node?_congr h.length_nodes n).mpr hn), ?_, fun j pos' hj => ?_⟩
  · rw [length_nodes_addToNode, h.length_nodes]
  · by_cases heq : j = i
    · subst heq
      obtain rfl : pos = pos' := some.inj (some.inj (hi.symm.trans hj))
      rw [getModel_addToNode_self hcur hlt, hb, map_some, update_self, withPin_withPins]
    · have hne : pos' ≠ pos := fun hpos => heq (hinj j i pos (hpos ▸ hj) hi)
      rw [getModel_addToNode_ne hcur hlt hne, h.getModel j pos' hj, update_of_ne heq]

variable {counts : List Nat} {t : Nat → Nat → Option NodeId} {s : UnionFind.State Nat} {root depth : Nat → Nat}
  {visited : Nat → Bool} {nodeMap : Nat → Option NodeId} {nodeOf : Nat → NodeId}

/-- The nodes after the elements before `i` and the first `m` pins of `i`. -/
def upTo (t : Nat → Nat → Option NodeId) (i m j k : Nat) : Option NodeId :=
  if j < i ∨ j = i ∧ k < m then t j k else none

variable (hfuel : ∀ x, depth x < fuel)
  (hnode : ∀ x, visited x = true → nodeMap (root x) = some (nodeOf x) ∧ (nl.node? (nodeOf x)).isSome)
  (ht : ∀ i k, t i k = if visited (baseOffset counts i + k) =
    true then some (nodeOf (baseOffset counts i + k)) else none)
include hfuel hnode ht

theorem Wired.connectPins (h : Wired nl comps (upTo t i 0) cur) (hforest : UnionFind.Forest s root depth)
    (hvisited : s.visited = visited) (hi : comps[i]? = some (some pos)) (hb : nl.getModel pos = some b)
    (hm : m ≤ b.model.pins.length) :
    ∃ cur' s', (List.range m).foldlM (connectPin fuel nodeMap pos (baseOffset counts i)) (cur, s) = some (cur', s') ∧
      Wired nl comps (upTo t i m) cur' ∧ UnionFind.Forest s' root depth ∧ s'.visited = visited := by
  induction m with
  | zero => exact ⟨cur, s, rfl, h, hforest, hvisited⟩
  | succ m ih =>
    obtain ⟨cur₁, s₁, hrun, hwired, hforest₁, hvisited₁⟩ := ih (by omega)
    rw [range_succ, foldlM_append, hrun]
    by_cases hv : visited (baseOffset counts i + m) = true
    · obtain ⟨hmap, hsome⟩ := hnode _ hv
      obtain ⟨s', hfind, hforest', hvisited', -⟩ := hforest₁.find (hfuel (baseOffset counts i + m))
      refine ⟨_, s', ?_, (hwired.addToNode hinj hi hb hm (by simp [upTo]) hsome).congr fun j pos' b' _ _ k _ =>
        ?_, hforest', ?_⟩
      · simp only [foldlM_cons, foldlM_nil, connectPin, hvisited₁, hv, if_true, hfind, hmap, bind_eq_bind,
          bind_some, Option.pure_def]
      · by_cases hj : j = i
        · subst hj
          by_cases hk : k = m
          · simp [hk, upTo, ht, hv]
          · have hiff : k < m ↔ k < m + 1 := by omega
            simp [update_of_ne hk, upTo, hiff]
        · simp [upTo, hj]
      · rw [hvisited', hvisited₁, ← hv, update_eq_self]
    · refine ⟨cur₁, s₁, ?_, hwired.congr fun j pos' b' _ _ k _ => ?_, hforest₁, hvisited₁⟩
      · simp only [foldlM_cons, foldlM_nil, connectPin, hvisited₁, hv, Bool.false_eq_true, if_false, bind_eq_bind,
          bind_some, Option.pure_def]
      · by_cases hlast : j = i ∧ k = m
        · simp [upTo, hlast.1, hlast.2, ht, hv]
        · have hiff : j < i ∨ j = i ∧ k < m ↔ j < i ∨ j = i ∧ k < m + 1 := by omega
          rw [upTo, upTo, if_congr hiff rfl rfl]

theorem Wired.connectElements {rest pre : List (Option ModelPos)} (hcomps : comps = pre ++ rest)
    (h : Wired nl comps (upTo t pre.length 0) cur) (hforest : UnionFind.Forest s root depth)
    (hvisited : s.visited = visited) :
    ∃ cur' s', (rest.zipIdx pre.length).foldlM (connectElement counts fuel nodeMap) (cur, s) = some (cur', s') ∧
      Wired nl comps (upTo t comps.length 0) cur' := by
  induction rest generalizing pre cur s with
  | nil =>
    rw [append_nil] at hcomps
    exact ⟨cur, s, rfl, by rwa [hcomps] at h ⊢⟩
  | cons c rest ih =>
    have hc : comps[pre.length]? = some c := by simp [hcomps]
    -- what the element leaves undone are pins that it does not have
    have hnext {cur' : Netlist} {m : Nat} (hw : Wired nl comps (upTo t pre.length m) cur')
        (hm : ∀ pos b, c = some pos → nl.getModel pos = some b → b.model.pins.length ≤ m) :
        Wired nl comps (upTo t (pre ++ [c]).length 0) cur' := by
      refine hw.congr fun j pos b hj hb k hk => ?_
      rw [upTo, upTo, length_append, length_singleton]
      refine if_congr ?_ rfl rfl
      by_cases hlast : j = pre.length
      · rw [hlast, hc] at hj
        have := hm pos b (some.inj hj) hb
        omega
      · omega
    have hstep : ∃ cur₁ s₁, connectElement counts fuel nodeMap (cur, s) (c, pre.length) = some (cur₁, s₁) ∧
        Wired nl comps (upTo t (pre ++ [c]).length 0) cur₁ ∧ UnionFind.Forest s₁ root depth ∧ s₁.visited = visited := by
      cases c with
      | none => exact ⟨cur, s, rfl, hnext h (fun _ _ hpos => nomatch hpos), hforest, hvisited⟩
      | some pos =>
        unfold connectElement
        dsimp only
        rw [pinCount, h.getModel _ pos hc]
        cases hb : nl.getModel pos with
        | none =>
          refine ⟨cur, s, rfl, hnext h fun pos' b hpos hb' => ?_, hforest, hvisited⟩
          cases hpos
          rw [hb] at hb'
          cases hb'
        | some b =>
          have hlen : (withPins (upTo t pre.length 0 pre.length) b).model.pins.length = b.model.pins.length := by
            simp [withPins]
          simp only [map_some, getD_some, hlen]
          obtain ⟨cur₁, s₁, hrun, hw, hforest₁, hvisited₁⟩ :=
            h.connectPins hinj hfuel hnode ht hforest hvisited hc hb (Nat.le_refl _)
          refine ⟨cur₁, s₁, hrun, hnext hw fun pos' b' hpos hb' => ?_, hforest₁, hvisited₁⟩
          cases hpos
          cases hb.symm.trans hb'
          exact Nat.le_refl _
    obtain ⟨cur₁, s₁, hrun, hw, hforest₁, hvisited₁⟩ := hstep
    rw [zipIdx_cons, foldlM_cons, hrun]
    rw [append_cons] at hcomps
    have hrest := ih hcomps hw hforest₁ hvisited₁
    rwa [length_append, length_singleton] at hrest

end Wired

section Exact

variable {nl nl₁ cur : Netlist} {comps : List (Option ModelPos)} {counts : List Nat} {wires : List Wire}
  {s : UnionFind.State Nat} {root depth : Nat → Nat} {f t : Nat → Nat → Option NodeId} {i j k l x : Nat} {e : WireEnd}
  {n : NodeId}

theorem Wired.pinNode_eq_some (h : Wired nl comps f cur) : cur.pinNode comps i k = some n ↔
    IsEnd comps (comps.map nl.pinCount) (.pin i k) ∧ f i k = some n := by
  rw [pinNode, IsEnd, getD_eq_getElem?_getD, getElem?_map]
  cases hi : comps[i]? with
  | none => simp
  | some c =>
    cases c with
    | none => simp
    | some pos =>
      simp only [Option.join_some, bind_some, h.getModel i pos hi, map_some, getD_some, pinCount,
        some.injEq, exists_eq', true_and]
      cases nl.getModel pos with
      | none => simp
      | some b =>
        by_cases hk : k < b.model.pins.length
        · simp [withPins, hk]
        · simp [withPins, hk]

variable (hjoined : UnionFind.Joined counts.sum (slotPairs comps counts wires) s root depth)
include hjoined

theorem visited_slot_iff (he : IsEnd comps counts e) : s.visited (e.slot counts) = true ↔
    Used comps counts wires e := by
  rw [hjoined.visited_iff]
  constructor
  · rintro ⟨⟨x, y⟩, hp, hx⟩
    obtain ⟨a, b, ⟨w, hw, hab⟩, rfl, rfl⟩ := mem_slotPairs.mp hp
    have hends := isEnd_of_validEnds hab
    exact ⟨w, hw, a, b, hab, hx.imp (slot_injective he hends.1) (slot_injective he hends.2)⟩
  · rintro ⟨w, hw, a, b, hab, hx⟩
    exact ⟨_, mem_slotPairs.mpr ⟨a, b, ⟨w, hw, hab⟩, rfl, rfl⟩, hx.imp (congrArg _) (congrArg _)⟩

theorem exists_end_of_visited (hx : s.visited x = true) : ∃ e, IsEnd comps counts e ∧ e.slot counts = x := by
  obtain ⟨⟨y, z⟩, hp, hyz⟩ := (hjoined.visited_iff x).mp hx
  obtain ⟨a, b, hw, rfl, rfl⟩ := mem_slotPairs.mp hp
  obtain rfl | rfl := hyz
  · exact ⟨a, (isEnd_of_mem hw).1, rfl⟩
  · exact ⟨b, (isEnd_of_mem hw).2, rfl⟩

theorem root_of_visited (hx : s.visited x = true) :
    root x = counts.sum ∨ root x < counts.sum ∧ IsNet root s.visited (root x) := by
  have hroot := hjoined.visited_root hx
  obtain ⟨e, he, heq⟩ := exists_end_of_visited hjoined hroot
  rw [← heq]
  cases e with
  | ground => exact .inl rfl
  | pin i k => exact .inr ⟨slot_pin_lt_ground he.2, heq.symm ▸ ⟨hjoined.root_root x, hroot⟩⟩

theorem exactNets_of_wired (hcounts : counts = comps.map nl.pinCount) (hcounts₁ : counts = comps.map nl₁.pinCount)
    (hlen : nl₁.nodes.length = nl.nodes.length + Nat.count (IsNet root s.visited) counts.sum)
    (ht : ∀ i k, t i k = if s.visited (baseOffset counts i + k) = true then
      some (netNode nl.nodes.length counts.sum root s.visited (root (baseOffset counts i + k))) else none)
    (hw : Wired nl₁ comps t cur) : ExactNets nl comps wires cur := by
  have hnode {i k : Nat} {n : NodeId} : cur.pinNode comps i k = some n ↔ IsEnd comps counts (.pin i k) ∧
      s.visited (WireEnd.slot counts (.pin i k)) = true ∧
        netNode nl.nodes.length counts.sum root s.visited (root (WireEnd.slot counts (.pin i k))) = n := by
    rw [hw.pinNode_eq_some, ← hcounts₁, ht, Option.ite_none_right_eq_some, some.injEq]
    rfl
  have hchain {e e' : WireEnd} (he : IsEnd comps counts e) (he' : IsEnd comps counts e') :
      root (e.slot counts) = root (e'.slot counts) ↔ Chain nl comps wires e e' := by
    rw [hjoined.root_iff, eqvGen_slotPairs he he', Chain, hcounts]
  have hground : IsEnd comps counts .ground := trivial
  -- different nets have different nodes
  have hnets {x y : Nat} (hx : s.visited x = true) (hy : s.visited y = true) :
      netNode nl.nodes.length counts.sum root s.visited (root x) =
        netNode nl.nodes.length counts.sum root s.visited (root y) ↔
        root x = root y := by
    refine ⟨fun h => ?_, fun h => by rw [h]⟩
    obtain hgx | ⟨hlx, hnx⟩ := root_of_visited hjoined hx <;> obtain hgy | ⟨hly, hny⟩ := root_of_visited hjoined hy
    · rw [hgx, hgy]
    · rw [netNode, netNode, if_pos hgx, if_neg (Nat.ne_of_lt hly)] at h
      cases h
    · rw [netNode, netNode, if_neg (Nat.ne_of_lt hlx), if_pos hgy] at h
      cases h
    · rw [netNode, netNode, if_neg (Nat.ne_of_lt hlx), if_neg (Nat.ne_of_lt hly), NodeId.node.injEq] at h
      exact Nat.count_injective hnx hny (by omega)
  refine ⟨hw.sound, fun i k => ?_, fun i k j l hi hj => ?_, fun i k => ?_, fun m hm hlt => ?_⟩
  · rw [← hcounts, isSome_iff_exists]
    constructor
    · rintro ⟨n, hn⟩
      obtain ⟨he, hv, -⟩ := hnode.mp hn
      exact (visited_slot_iff hjoined he).mp hv
    · intro hused
      have he := isEnd_of_used hused
      exact ⟨_, hnode.mpr ⟨he, (visited_slot_iff hjoined he).mpr hused, rfl⟩⟩
  · obtain ⟨n, hn⟩ := isSome_iff_exists.mp hi
    obtain ⟨n', hn'⟩ := isSome_iff_exists.mp hj
    obtain ⟨he, hv, rfl⟩ := hnode.mp hn
    obtain ⟨he', hv', rfl⟩ := hnode.mp hn'
    rw [hn, hn', some.injEq, hnets hv hv', hchain he he']
  · rw [hnode]
    constructor
    · rintro ⟨he, hv, hg⟩
      refine (hchain he hground).mp ?_
      obtain hroot | ⟨hroot, -⟩ := root_of_visited hjoined hv
      · exact hroot.trans hjoined.root_top.symm
      · rw [netNode, if_neg (Nat.ne_of_lt hroot)] at hg
        cases hg
    · intro h
      rw [Chain, ← hcounts] at h
      have hused := (eq_or_used_of_chain h).resolve_left WireEnd.noConfusion
      have he := isEnd_of_used hused
      refine ⟨he, (visited_slot_iff hjoined he).mpr hused, ?_⟩
      rw [Chain, ← hcounts] at hchain
      rw [(hchain he hground).mpr h, WireEnd.slot, hjoined.root_top, netNode, if_pos rfl]
  · rw [hw.length_nodes, hlen] at hlt
    obtain ⟨x, hx, hnet, hcount⟩ := exists_count_eq (p := IsNet root s.visited) (c := m - nl.nodes.length) (n :=
      counts.sum) (by omega)
    obtain ⟨e, he, rfl⟩ := exists_end_of_visited hjoined hnet.2
    cases e with
    | ground => exact absurd hx (Nat.lt_irrefl _)
    | pin i k =>
      refine ⟨i, k, hnode.mpr ⟨he, hnet.2, ?_⟩⟩
      rw [hnet.1, netNode, if_neg (Nat.ne_of_lt hx), hcount, Nat.add_sub_cancel' hm]

end Exact

/-- For distinct models without connections, the call returns and the nets are the ones
that the wires describe. -/
theorem buildNetlistFromWires_exact {nl : Netlist} {elements : List Int} {modelPosArr : List ModelPos}
    {comps : List (Option ModelPos)} (wires : List Wire) (hs : Sound nl)
    (hcomps : components elements modelPosArr = some comps)
    (hinj : DistinctModels comps) (hfree : Unconnected nl comps) :
    ∃ nl', buildNetlistFromWires nl elements wires modelPosArr = some nl' ∧ ExactNets nl comps wires nl' := by
  set counts := comps.map nl.pinCount with hcounts
  have hstart := UnionFind.Joined.start counts.sum
  by_cases hnothing : (elements.isEmpty || wires.isEmpty) = true
  · refine ⟨nl, by rw [buildNetlistFromWires, if_pos hnothing], ?_⟩
    have hpairs : slotPairs comps counts wires = [] := by
      rw [Bool.or_eq_true, List.isEmpty_iff, List.isEmpty_iff] at hnothing
      obtain rfl | rfl := hnothing
      · cases hcomps
        have hnone (w : Wire) : validEnds [] counts w = none := by simp [validEnds, wireEnd]
        rw [slotPairs, List.filterMap_eq_nil_iff.mpr fun w _ => hnone w, List.map_nil]
      · rfl
    refine exactNets_of_wired (hpairs ▸ hstart) hcounts hcounts ?_ (fun i k => ?_) (Wired.start hs hfree)
    · rw [Nat.count_iff_forall_not.mpr fun x _ h => Bool.false_ne_true h.2, Nat.add_zero]
    · rfl
  · have hlen : (slotPairs comps counts wires).length ≤ wires.length := by
      rw [slotPairs, List.length_map]
      exact List.length_filterMap_le _ _
    obtain ⟨s, root, depth, hjoin, hjoined⟩ :=
      hstart.joins (slotPairs comps counts wires) (Nat.lt_succ_of_le hlen)
    rw [List.nil_append] at hjoined
    have hfuel (x : Nat) : depth x < wires.length + 1 := Nat.lt_succ_of_le (Nat.le_trans (hjoined.depth_le x) hlen)
    obtain ⟨nl₁, nodeMap, s₁, hnets, hforest₁, hvisited₁, hsound₁, hmodels₁, hlen₁, hmap⟩ :=
      createNets (m := counts.sum) hs hjoined.toForest hfuel (Nat.le_refl _)
    have hmodel (pos : ModelPos) : nl₁.getModel pos = nl.getModel pos := getModel_congr hmodels₁ pos
    have hcounts₁ : counts = comps.map nl₁.pinCount := by
      rw [hcounts]
      refine List.map_congr_left fun c _ => ?_
      cases c with
      | none => rfl
      | some pos => rw [pinCount, pinCount, hmodel]
    set nodeMap' := update nodeMap counts.sum (some .ground) with hnodeMap
    have hnode (x : Nat) (hx : s.visited x = true) :
        nodeMap' (root x) = some (netNode nl.nodes.length counts.sum root s.visited (root x)) ∧
          (nl₁.node? (netNode nl.nodes.length counts.sum root s.visited (root x))).isSome := by
      obtain hground | ⟨hlt, hnet⟩ := root_of_visited hjoined hx
      · rw [hnodeMap, hground, update_self, netNode, if_pos rfl]
        exact ⟨rfl, rfl⟩
      · have hne := Nat.ne_of_lt hlt
        refine ⟨by rw [hnodeMap, update_of_ne hne, hmap _ hlt hnet], ?_⟩
        have hcount := Nat.count_strict_mono hnet hlt
        rw [netNode, if_neg hne]
        exact isSome_iff_exists.mpr ⟨_, List.getElem?_eq_getElem (by omega)⟩
    set t : Nat → Nat → Option NodeId := fun i k => if s.visited (baseOffset counts i + k) = true then
      some (netNode nl.nodes.length counts.sum root s.visited (root (baseOffset counts i + k))) else none with ht
    have hw₁ : Wired nl₁ comps (upTo t 0 0) nl₁ :=
      (Wired.start hsound₁ fun i pos b hi hb => hfree i pos b hi (hmodel pos ▸ hb)).congr
      fun i pos b _ _ k _ => (if_neg (by omega)).symm
    obtain ⟨nl', s', hconnect, hw⟩ := Wired.connectElements hinj hfuel hnode (fun _ _ => rfl)
      (List.nil_append comps).symm hw₁ hforest₁ hvisited₁
    refine ⟨nl', ?_, exactNets_of_wired hjoined hcounts hcounts₁ hlen₁ (fun _ _ => rfl)
      (hw.congr fun i pos b hi _ k _ => ?_)⟩
    · simp only [buildNetlistFromWires, hnothing, hcomps, ← hcounts, foldlM_joinWire, hjoin, hnets, ← hnodeMap,
        bind_eq_bind,
        bind_some, Bool.false_eq_true, if_false]
      rw [List.length_nil] at hconnect
      rw [hconnect]
      rfl
    · rw [upTo, if_pos (.inl (List.getElem?_eq_some_iff.mp hi).1)]

def freeResistors : Netlist :=
  let m : Model := { kind := .linear 0, name := "", attrs := [], pins := [none, none] }
  ((({} : Netlist).addModel m).1.addModel m).1

theorem buildNetlistFromWires_exact_freeResistors :
    ∃ nl', buildNetlistFromWires freeResistors [1, 0, 1] [⟨0, 0, 1, 7⟩, ⟨0, 1, 2, 0⟩, ⟨2, 1, 3, 0⟩] [⟨0, 0⟩, ⟨1, 0⟩] =
      some nl' ∧
      ExactNets freeResistors [some ⟨0, 0⟩, none, some ⟨1, 0⟩] [⟨0, 0, 1, 7⟩, ⟨0, 1, 2, 0⟩, ⟨2, 1, 3, 0⟩] nl' := by
  refine buildNetlistFromWires_exact _ ?_ rfl ?_ ?_
  · exact (Reachable.addModel (.addModel .empty (by simp [Fresh])) (by simp [Fresh])).sound
  · intro i j pos hi hj
    rcases i with _ | _ | _ | i <;> cases hi <;> rcases j with _ | _ | _ | j <;> cases hj <;> rfl
  · intro i pos b hi hb
    rcases i with _ | _ | _ | i <;> cases hi <;> cases hb <;> simp [Fresh]

end PhyEngine.Netlist
