import PhyEngine.Library.Settled
import PhyEngine.Netlist.Edits

/-!
# Moving consumers and removing drivers

The passes share one pattern: move the consumer pins of a node to another node, delete the model
that drove it. `Rewired` describes a netlist in the middle of such a pass by the moves, the
deleted addresses and the new models.
-/

namespace PhyEngine

open Equations List
open Option (map map_eq_some_iff map_some some)

/-- `is_output_pin`. The source names `D_LATCH`, and no model has that name. -/
def isOutputPin (kind : ModelKind) (pinIdx pinCount : Nat) : Bool :=
  match kind with
  | .input => pinIdx == 0
  | .output => false
  | .yes | .not => pinIdx == 1
  | .and | .or | .xor | .xnor | .nand | .nor | .imp | .nimp | .caseEq | .isUnknown =>
    pinCount != 0 && pinIdx + 1 == pinCount
  | .halfAdder | .halfSub => pinIdx == 2 || pinIdx == 3
  | .fullAdder | .fullSub => pinIdx == 3 || pinIdx == 4
  | .mul2 => decide (4 ≤ pinIdx)
  | .dff | .tickDelay | .tri | .resolve2 => pinIdx == 2
  | .dffArstn => pinIdx == 3
  | _ => false

namespace Netlist

/-- `pin_out` of `build_gate_opt_fanout`; a pin that is not in the map is no output. -/
def pinOut (nl : Netlist) (p : PinRef) : Bool :=
  nl.bases.any fun b => b.id == p.id && decide (p.k < b.model.pins.length) &&
    isOutputPin b.model.kind p.k b.model.pins.length

def hasUniqueDriverPin (isOut : PinRef → Bool) (nl : Netlist) (n : NodeId) (p : PinRef) : Bool :=
  match nl.node? n with
  | none => false
  | some nd => decide (nd.pins.filter (fun q => isOut q = true) = {p})

def redirectPins (ps : Finset PinRef) (dst : NodeId) (b : ModelBase) : ModelBase :=
  { b with model := { b.model with
      pins := b.model.pins.mapIdx fun k p => if (⟨b.id, k⟩ : PinRef) ∈ ps then some dst else p } }

def moveConsumers (isOut : PinRef → Bool) (prot : List NodeId) (nl : Netlist)
    (src dst : NodeId) : Netlist × Bool :=
  if src = dst ∨ src ∈ prot then (nl, false)
  else
    match nl.node? src with
    | none => (nl, false)
    | some nd =>
      let pinsToMove := nd.pins.filter fun p => isOut p = false
      let models := nl.models.map fun blk =>
        { blk with slots := blk.slots.map (map (redirectPins pinsToMove dst)) }
      let nl := { nl with models }
      let nl := nl.modifyNode src fun nd => { nd with pins := nd.pins \ pinsToMove }
      (nl.modifyNode dst fun nd => { nd with pins := nd.pins ∪ pinsToMove }, true)

def retarget (isOut : PinRef → Bool) (src dst : NodeId) (b : ModelBase) : ModelBase :=
  { b with model := { b.model with
      pins := b.model.pins.mapIdx fun k p =>
        if p = some src ∧ isOut ⟨b.id, k⟩ = false then some dst else p } }

/-- Every model is digital, so that no pin counts in `num_of_analog_node`. -/
def Digital (nl : Netlist) : Prop := ∀ b ∈ nl.bases, b.model.isAnalog = false

variable {nl : Netlist}

theorem Digital.analogPins_eq_zero (h : Digital nl) (n : NodeId) : nl.analogPins n = 0 := by
  have hzero : nl.normals.map (fun m => analogOn m.isAnalog m.pins n)
      = nl.normals.map fun _ => 0 := by
    refine map_congr_left fun m hm => ?_
    obtain ⟨b, hb, rfl⟩ := mem_bases_of_mem_normals hm
    rw [analogOn, h b hb]
    rfl
  rw [analogPins, hzero]
  simp

variable {b : ModelBase} {p : PinRef} {n src dst : NodeId} {nl' : Netlist}

theorem Sound.points_iff_pin (h : Sound nl) (hb : b ∈ nl.bases) (k : Nat) (n : NodeId) :
    nl.Points ⟨b.id, k⟩ n ↔ b.model.pins[k]? = some (some n) := by
  constructor
  · rintro ⟨c, hc, hid, hk⟩
    rw [h.eq_of_id hc hb hid] at hk
    exact hk
  · exact fun hk => ⟨b, hb, rfl, hk⟩

theorem Sound.points_unique (h : Sound nl) {m : NodeId} (hn : nl.Points p n) (hm : nl.Points p m) : n = m := by
  obtain ⟨b, hb, hid, hk⟩ := hn
  obtain ⟨c, hc, hid', hk'⟩ := hm
  rw [h.eq_of_id hb hc (hid.trans hid'.symm)] at hk
  simpa [hk] using hk'

theorem Sound.redirectPins_eq (h : Sound nl) {isOut : PinRef → Bool} {nd : Node} (hnd : nl.node? src = some nd)
    (dst : NodeId) (hb : b ∈ nl.bases) :
    redirectPins (nd.pins.filter fun p => isOut p = false) dst b = retarget isOut src dst b := by
  have hpins : (b.model.pins.mapIdx fun k p =>
        if (⟨b.id, k⟩ : PinRef) ∈ nd.pins.filter fun p => isOut p = false then some dst else p)
      = b.model.pins.mapIdx fun k p =>
        if p = some src ∧ isOut ⟨b.id, k⟩ = false then some dst else p := by
    refine ext_getElem (by simp) fun k hk _ => ?_
    have hmem : (⟨b.id, k⟩ : PinRef) ∈ nd.pins ↔ b.model.pins[k]? = some (some src) := by
      rw [h.consistent.pins_exact src nd hnd, h.points_iff_pin hb]
    have hk' : k < b.model.pins.length := by simpa using hk
    simp [Finset.mem_filter, hmem, getElem?_eq_getElem hk']
  rw [redirectPins, retarget, hpins]

variable {f : ModelBase → ModelBase}

theorem bases_map_slots
    (h : nl'.models = nl.models.map fun blk => { blk with slots := blk.slots.map (map f) }) :
    nl'.bases = nl.bases.map f := by
  rw [bases, bases, slots, slots, h, flatMap_map, ← reduceOption_map_option, map_flatMap]

theorem getModel_map_slots
    (h : nl'.models = nl.models.map fun blk => { blk with slots := blk.slots.map (map f) }) (pos : ModelPos) :
    nl'.getModel pos = (nl.getModel pos).map f := by
  rw [getModel, getModel, h]
  cases hblk : nl.models[pos.chunkPos]? with
  | none => simp [hblk]
  | some blk =>
    cases hslot : blk.slots[pos.vecPos]? with
    | none => simp [hblk, hslot]
    | some s => cases s <;> simp [hblk, hslot]

theorem points_redirectPins {ps : Finset PinRef}
    (hmodels : nl'.models = nl.models.map fun blk => { blk with slots := blk.slots.map (map (redirectPins ps dst)) })
    (hmem : ∀ p ∈ ps, ∃ n, nl.Points p n) (p : PinRef) (x : NodeId) :
    nl'.Points p x ↔ (p ∈ ps ∧ x = dst) ∨ (p ∉ ps ∧ nl.Points p x) := by
  rw [Points, bases_map_slots hmodels]
  constructor
  · rintro ⟨c, hc, hid, hk⟩
    obtain ⟨b, hb, rfl⟩ := mem_map.mp hc
    have hp : p = ⟨b.id, p.k⟩ := by
      cases p
      simp only [redirectPins] at hid
      rw [hid]
    simp only [redirectPins, getElem?_mapIdx, map_eq_some_iff] at hk
    obtain ⟨q, hq, hk⟩ := hk
    rw [← hp] at hk
    by_cases hin : p ∈ ps
    · rw [if_pos hin, some.injEq] at hk
      exact .inl ⟨hin, hk.symm⟩
    · rw [if_neg hin] at hk
      exact .inr ⟨hin, b, hb, by rw [hp], by rw [hq, hk]⟩
  · rintro (⟨hin, rfl⟩ | ⟨hin, b, hb, hid, hk⟩)
    · obtain ⟨_, b, hb, hid, hk⟩ := hmem p hin
      refine ⟨redirectPins ps x b, mem_map_of_mem hb, hid, ?_⟩
      have hp : (⟨b.id, p.k⟩ : PinRef) = p := by rw [hid]
      simp [redirectPins, getElem?_mapIdx, hk, hp, hin]
    · refine ⟨redirectPins ps dst b, mem_map_of_mem hb, hid, ?_⟩
      have hp : (⟨b.id, p.k⟩ : PinRef) = p := by rw [hid]
      simp [redirectPins, getElem?_mapIdx, hk, hp, hin]

structure Moved (isOut : PinRef → Bool) (src dst : NodeId) (nl nl' : Netlist) : Prop where
  sound : Sound nl'
  bases : nl'.bases = nl.bases.map (retarget isOut src dst)
  getModel : ∀ pos b, nl.getModel pos = some b → nl'.getModel pos = some (retarget isOut src dst b)
  nextId : nl'.nextId = nl.nextId
  length_nodes : nl'.nodes.length = nl.nodes.length

theorem Sound.moveConsumers (h : Sound nl) (hdigital : Digital nl) (isOut : PinRef → Bool)
    {prot : List NodeId} (hne : src ≠ dst) (hprot : src ∉ prot) (hsrc : (nl.node? src).isSome)
    (hdst : (nl.node? dst).isSome) :
    (nl.moveConsumers isOut prot src dst).2 = true ∧
      Moved isOut src dst nl (nl.moveConsumers isOut prot src dst).1 := by
  obtain ⟨nd, hnd⟩ := Option.isSome_iff_exists.mp hsrc
  unfold Netlist.moveConsumers
  rw [if_neg (by simp [hne, hprot]), hnd]
  dsimp only
  refine ⟨rfl, ?_⟩
  set ps := nd.pins.filter fun p => isOut p = false with hps
  set nl₁ : Netlist := { nl with models := nl.models.map fun blk =>
    { blk with slots := blk.slots.map (map (redirectPins ps dst)) } } with hnl₁
  set nl₂ := nl₁.modifyNode src fun nd => { nd with pins := nd.pins \ ps } with hnl₂
  set nl₃ := nl₂.modifyNode dst fun nd => { nd with pins := nd.pins ∪ ps } with hnl₃
  have hmodels : nl₃.models = nl.models.map fun blk =>
      { blk with slots := blk.slots.map (map (redirectPins ps dst)) } := by
    rw [hnl₃, models_modifyNode, hnl₂, models_modifyNode]
  have hbases : nl₃.bases = nl.bases.map (retarget isOut src dst) := by
    rw [bases_map_slots hmodels]
    exact map_congr_left fun b hb => h.redirectPins_eq hnd dst hb
  have hlen : nl₃.nodes.length = nl.nodes.length := by
    rw [hnl₃, length_nodes_modifyNode, hnl₂, length_nodes_modifyNode]
  have hnext : nl₃.nextId = nl.nextId := by
    rw [hnl₃, nextId_modifyNode, hnl₂, nextId_modifyNode]
  have hids : nl₃.bases.map ModelBase.id = nl.bases.map ModelBase.id := by
    rw [hbases, List.map_map]
    rfl
  have hmem : ∀ p, p ∈ ps → nl.Points p src := fun p hp =>
    (h.consistent.pins_exact src nd hnd p).mp (Finset.mem_filter.mp hp).1
  have hpoints : ∀ p x, nl₃.Points p x ↔ (p ∈ ps ∧ x = dst) ∨ (p ∉ ps ∧ nl.Points p x) :=
    points_redirectPins hmodels fun p hp => ⟨src, hmem p hp⟩
  have hnode : ∀ x, nl₃.node? x = if dst = x then (nl₂.node? x).map
      (fun nd => { nd with pins := nd.pins ∪ ps }) else nl₂.node? x :=
    fun x => node?_modifyNode _ _ _ _
  have hnode₂ : ∀ x, nl₂.node? x = if src = x then (nl.node? x).map
      (fun nd => { nd with pins := nd.pins \ ps }) else nl.node? x := by
    intro x
    rw [hnl₂, node?_modifyNode]
    cases x <;> rfl
  have hanalog : ∀ x, nl₃.analogPins x = 0 := by
    refine Digital.analogPins_eq_zero ?_
    intro c hc
    rw [hbases] at hc
    obtain ⟨b, hb, rfl⟩ := mem_map.mp hc
    exact hdigital b hb
  refine ⟨⟨⟨?_, ?_, ?_⟩, ?_, ?_⟩, hbases, ?_, hnext, hlen⟩
  · intro x ndx hx p
    rw [hpoints]
    rw [hnode, hnode₂] at hx
    by_cases hxd : dst = x
    · subst hxd
      rw [if_pos rfl, if_neg hne] at hx
      obtain ⟨nd₀, hnd₀, rfl⟩ := map_eq_some_iff.mp hx
      have := h.consistent.pins_exact dst nd₀ hnd₀ p
      simp only [Finset.mem_union, this]
      by_cases hin : p ∈ ps <;> simp [hin]
    · rw [if_neg hxd] at hx
      by_cases hxs : src = x
      · subst hxs
        rw [if_pos rfl, hnd, map_some, some.injEq] at hx
        subst hx
        have := h.consistent.pins_exact src nd hnd p
        simp only [Finset.mem_sdiff, this, Ne.symm hxd, and_false, false_or]
        exact and_comm
      · rw [if_neg hxs] at hx
        rw [h.consistent.pins_exact x ndx hx p]
        constructor
        · intro hp
          refine .inr ⟨fun hin => hxs (h.points_unique (hmem p hin) hp), hp⟩
        · rintro (⟨-, rfl⟩ | ⟨-, hp⟩)
          · exact absurd rfl hxd
          · exact hp
  · intro m hm x hx
    rw [isSome_node?_congr hlen]
    rw [normals, bases_map_slots hmodels] at hm
    obtain ⟨c, hc, rfl⟩ := mem_map.mp hm
    obtain ⟨b, hb, rfl⟩ := mem_map.mp hc
    obtain ⟨k, hk, hget⟩ := mem_iff_getElem.mp hx
    have hp : nl₃.Points ⟨b.id, k⟩ x := by
      refine ⟨redirectPins ps dst b, ?_, rfl, List.getElem?_eq_some_iff.mpr ⟨hk, hget⟩⟩
      rw [bases_map_slots hmodels]
      exact mem_map_of_mem hb
    rcases (hpoints _ _).mp hp with ⟨-, rfl⟩ | ⟨-, hp⟩
    · exact hdst
    · obtain ⟨c, hc, -, hk⟩ := hp
      exact h.isSome_node? hc (List.mem_of_getElem? hk)
  · intro x ndx hx
    have hcount : ∀ nd₀, nl.node? x = some nd₀ → nd₀.numOfAnalogNode = 0 := by
      intro nd₀ hnd₀
      rw [h.consistent.num_analog x nd₀ hnd₀, hdigital.analogPins_eq_zero x]
      rfl
    rw [hanalog x]
    rw [hnode, hnode₂] at hx
    have hkeep : ∃ nd₀, nl.node? x = some nd₀ ∧ ndx.numOfAnalogNode = nd₀.numOfAnalogNode := by
      by_cases hxd : dst = x
      · rw [if_pos hxd, if_neg (by rw [← hxd]; exact hne)] at hx
        obtain ⟨nd₀, hnd₀, rfl⟩ := map_eq_some_iff.mp hx
        exact ⟨nd₀, hnd₀, rfl⟩
      · rw [if_neg hxd] at hx
        by_cases hxs : src = x
        · rw [if_pos hxs] at hx
          obtain ⟨nd₀, hnd₀, rfl⟩ := map_eq_some_iff.mp hx
          exact ⟨nd₀, hnd₀, rfl⟩
        · rw [if_neg hxs] at hx
          exact ⟨ndx, hx, rfl⟩
    obtain ⟨nd₀, hnd₀, heq⟩ := hkeep
    rw [heq, hcount nd₀ hnd₀]
    rfl
  · rw [hids]
    exact h.nodup
  · intro c hc
    rw [hbases] at hc
    obtain ⟨b, hb, rfl⟩ := mem_map.mp hc
    rw [hnext]
    exact h.lt b hb
  · intro pos b hb
    rw [getModel_map_slots hmodels, hb, map_some, h.redirectPins_eq hnd dst (mem_bases hb)]

def followPins (isOut : PinRef → Bool) (moves : List (NodeId × NodeId)) (b : ModelBase) : ModelBase :=
  { b with model := { b.model with
      pins := b.model.pins.mapIdx fun k p =>
        if isOut ⟨b.id, k⟩ then p else p.map (follow moves) } }

section

variable (isOut : PinRef → Bool) (moves : List (NodeId × NodeId))
include isOut moves

@[simp] theorem followPins_id (b : ModelBase) :
    (followPins isOut moves b).id = b.id := rfl

@[simp] theorem followPins_kind (b : ModelBase) :
    (followPins isOut moves b).model.kind = b.model.kind := rfl

theorem getElem?_followPins (b : ModelBase)
    (k : Nat) : (followPins isOut moves b).model.pins[k]? = (b.model.pins[k]?).map fun p =>
      if isOut ⟨b.id, k⟩ then p else p.map (follow moves) := by
  simp [followPins]

@[simp] theorem length_followPins (b : ModelBase) :
    (followPins isOut moves b).model.pins.length = b.model.pins.length := by
  simp [followPins]

omit moves in
theorem followPins_nil (b : ModelBase) : followPins isOut [] b = b := by
  have hpins : (b.model.pins.mapIdx fun k p =>
      if isOut ⟨b.id, k⟩ then p else p.map (follow [])) = b.model.pins := by
    refine ext_getElem (by simp) fun k hk _ => ?_
    simp only [getElem_mapIdx]
    split
    · rfl
    · exact Option.map_id_apply
  rw [followPins, hpins]

theorem retarget_followPins (src dst : NodeId)
    (b : ModelBase) : retarget isOut src dst (followPins isOut moves b)
      = followPins isOut (moves ++ [(src, dst)]) b := by
  have hpins : ((followPins isOut moves b).model.pins.mapIdx fun k p =>
        if p = some src ∧ isOut ⟨b.id, k⟩ = false then some dst else p)
      = b.model.pins.mapIdx fun k p =>
        if isOut ⟨b.id, k⟩ then p else p.map (follow (moves ++ [(src, dst)])) := by
    refine ext_getElem (by simp) fun k hk _ => ?_
    simp only [followPins, getElem_mapIdx]
    cases hout : isOut ⟨b.id, k⟩ with
    | true => simp
    | false =>
      have hk' : k < b.model.pins.length := by simpa [followPins] using hk
      cases b.model.pins[k] with
      | none => simp
      | some n =>
        simp only [Bool.false_eq_true, if_false, map_some, follow_append, and_true,
          some.injEq]
        split <;> rfl
  rw [retarget, followPins_id, hpins]
  rfl

end

/-- A netlist in the middle of a pass that began on `nl`: what was moved and deleted since,
and the models that are new. -/
structure Rewired (nl : Netlist) (moves : List (NodeId × NodeId)) (deleted : List Nat)
    (news : List ModelBase) (cur : Netlist) : Prop where
  sound : Sound cur
  digital : Digital cur
  bases : cur.bases =
    (nl.bases.filter fun b => b.id ∉ deleted).map (followPins nl.pinOut moves) ++ news
  getModel : ∀ pos b, nl.getModel pos = some b → b.id ∉ deleted →
    cur.getModel pos = some (followPins nl.pinOut moves b)
  length_nodes : nl.nodes.length ≤ cur.nodes.length
  nextId : nl.nextId ≤ cur.nextId
  fresh : ∀ b ∈ news, nl.nextId ≤ b.id

namespace Rewired

variable {moves : List (NodeId × NodeId)} {deleted : List Nat} {news : List ModelBase} {cur : Netlist}

theorem start (h : Sound nl) (hdigital : Digital nl) : Rewired nl [] [] [] nl where
  sound := h
  digital := hdigital
  bases := by
    have hid : followPins nl.pinOut [] = id := funext fun b => followPins_nil _ b
    simp [hid]
  getModel pos b hb _ := by rw [hb, followPins_nil]
  length_nodes := Nat.le_refl _
  nextId := Nat.le_refl _
  fresh := by simp

theorem isSome_node? (h : Rewired nl moves deleted news cur) (hn : (nl.node? n).isSome) : (cur.node? n).isSome := by
  rw [Netlist.isSome_node?] at hn ⊢
  intro i hi
  have := hn i hi
  have := h.length_nodes
  omega

variable {cur' : Netlist} {pos : ModelPos}

section

variable (h : Rewired nl moves deleted news cur)
include h

theorem move (hm : Moved nl.pinOut src dst cur cur') :
    Rewired nl (moves ++ [(src, dst)]) deleted (news.map (retarget nl.pinOut src dst)) cur' where
  sound := hm.sound
  digital c hc := by
    rw [hm.bases] at hc
    obtain ⟨b, hb, rfl⟩ := mem_map.mp hc
    exact h.digital b hb
  bases := by
    rw [hm.bases, h.bases, map_append, List.map_map]
    congr 1
    exact map_congr_left fun b _ => retarget_followPins _ _ _ _ b
  getModel pos b hb hd := by
    rw [hm.getModel pos _ (h.getModel pos b hb hd), retarget_followPins]
  length_nodes := hm.length_nodes ▸ h.length_nodes
  nextId := hm.nextId ▸ h.nextId
  fresh c hc := by
    obtain ⟨b, hb, rfl⟩ := mem_map.mp hc
    exact h.fresh b hb

omit h in
theorem delete (hs : Sound nl) (h : Rewired nl moves deleted news cur) (hb : nl.getModel pos = some b)
    (hd : b.id ∉ deleted) :
    Rewired nl moves (b.id :: deleted) news (cur.deleteModel pos).1 := by
  have hcur := h.getModel pos b hb hd
  have hbases := h.sound.bases_deleteModel hcur
  refine ⟨h.sound.deleteModel pos, ?_, ?_, ?_, ?_, ?_, h.fresh⟩
  · intro c hc
    rw [hbases] at hc
    exact h.digital c (mem_of_mem_filter hc)
  · have hnews : news.filter (fun c => c.id ≠ (followPins nl.pinOut moves b).id) = news := by
      refine filter_eq_self.mpr fun c hc => ?_
      have hlt := hs.lt b (mem_bases hb)
      have hge := h.fresh c hc
      have hne : c.id ≠ b.id := by omega
      exact decide_eq_true hne
    rw [hbases, h.bases, filter_append, hnews, filter_map, filter_filter]
    have hfilter : (fun c : ModelBase => decide (c.id ∉ b.id :: deleted)) = fun c =>
        ((fun c : ModelBase => decide (c.id ≠ (followPins nl.pinOut moves b).id)) ∘
          followPins nl.pinOut moves) c && decide (c.id ∉ deleted) := by
      funext c
      rw [Function.comp_apply, followPins_id, followPins_id, ← Bool.decide_and]
      exact decide_eq_decide.mpr (by rw [mem_cons, not_or])
    rw [hfilter]
  · intro pos' c hc hd'
    have hne : pos' ≠ pos := by
      rintro rfl
      rw [hb, some.injEq] at hc
      exact hd' (hc ▸ mem_cons_self)
    exact getModel_deleteModel_of_ne hne
      (h.getModel pos' c hc fun hmem => hd' (mem_cons_of_mem _ hmem))
  · rw [length_nodes_deleteModel]
    exact h.length_nodes
  · rw [nextId_deleteModel]
    exact h.nextId

omit h in
theorem moveDelete (hs : Sound nl) (h : Rewired nl moves deleted news cur) (hb : nl.getModel pos = some b)
    (hd : b.id ∉ deleted) {prot : List NodeId} (hne : src ≠ dst) (hprot : src ∉ prot)
    (hsrc : (nl.node? src).isSome) (hdst : (cur.node? dst).isSome) :
    (cur.moveConsumers nl.pinOut prot src dst).2 = true ∧
      Rewired nl (moves ++ [(src, dst)]) (b.id :: deleted) (news.map (retarget nl.pinOut src dst))
        ((cur.moveConsumers nl.pinOut prot src dst).1.deleteModel pos).1 := by
  obtain ⟨htrue, hmoved⟩ := h.sound.moveConsumers h.digital nl.pinOut hne hprot
    (h.isSome_node? hsrc) hdst
  exact ⟨htrue, (h.move hmoved).delete hs hb hd⟩

omit h in
theorem deleteAll (hs : Sound nl) (h : Rewired nl moves deleted news cur) {ps : List ModelPos}
    (hnodup : ps.Nodup) (hps : ∀ pos ∈ ps, ∃ b, nl.getModel pos = some b ∧ b.id ∉ deleted) :
    ∃ deleted', Rewired nl moves deleted' news (ps.foldl (fun nl p => (nl.deleteModel p).1) cur) ∧
      ∀ id, id ∈ deleted' ↔ id ∈ deleted ∨ ∃ pos ∈ ps, ∃ b, nl.getModel pos = some b ∧ b.id = id := by
  induction ps generalizing deleted cur with
  | nil => exact ⟨deleted, h, by simp⟩
  | cons pos ps ih =>
    obtain ⟨b, hb, hd⟩ := hps pos mem_cons_self
    rw [nodup_cons] at hnodup
    obtain ⟨deleted', hrew, hids⟩ := ih (h.delete hs hb hd) hnodup.2 (by
      intro pos' hpos'
      obtain ⟨c, hc, hcd⟩ := hps pos' (mem_cons_of_mem _ hpos')
      refine ⟨c, hc, ?_⟩
      rw [mem_cons, not_or]
      refine ⟨fun hid => hnodup.1 ?_, hcd⟩
      rwa [← hs.pos_eq_of_id hc hb hid])
    refine ⟨deleted', hrew, fun id => ?_⟩
    rw [hids, mem_cons]
    constructor
    · rintro ((rfl | hid) | ⟨pos', hpos', hc⟩)
      · exact .inr ⟨pos, mem_cons_self, b, hb, rfl⟩
      · exact .inl hid
      · exact .inr ⟨pos', mem_cons_of_mem _ hpos', hc⟩
    · rintro (hid | ⟨pos', hpos', c, hc, rfl⟩)
      · exact .inl (.inr hid)
      · rcases mem_cons.mp hpos' with rfl | hpos'
        · cases hb.symm.trans hc
          exact .inl (.inl rfl)
        · exact .inr ⟨pos', hpos', c, hc, rfl⟩

theorem getModel_cases {c : ModelBase} (hc : cur.getModel pos = some c) :
    (∃ b, nl.getModel pos = some b ∧ b.id ∉ deleted ∧ c = followPins nl.pinOut moves b) ∨ c ∈ news := by
  have hmem := mem_bases hc
  rw [h.bases] at hmem
  rcases mem_append.mp hmem with hmem | hmem
  · obtain ⟨b, hb, rfl⟩ := mem_map.mp hmem
    obtain ⟨hb, hd⟩ := mem_filter.mp hb
    have hd : b.id ∉ deleted := by simpa using hd
    obtain ⟨pos', hpos'⟩ := exists_getModel hb
    obtain rfl := h.sound.pos_eq_of_id hc (h.getModel pos' b hpos' hd) rfl
    exact .inl ⟨b, hpos', hd, rfl⟩
  · exact .inr hmem

theorem add {cur' : Netlist} {b : ModelBase} (hs : Sound cur')
    (hdigital : b.model.isAnalog = false) (hbases : cur'.bases = cur.bases ++ [b])
    (hget : ∀ pos c, cur.getModel pos = some c → cur'.getModel pos = some c)
    (hlen : cur.nodes.length ≤ cur'.nodes.length) (hnext : cur.nextId ≤ cur'.nextId)
    (hid : cur.nextId ≤ b.id) : Rewired nl moves deleted (news ++ [b]) cur' where
  sound := hs
  digital c hc := by
    rw [hbases] at hc
    rcases mem_append.mp hc with hc | hc
    · exact h.digital c hc
    · rw [mem_singleton.mp hc]
      exact hdigital
  bases := by rw [hbases, h.bases, append_assoc]
  getModel pos c hc hd := hget pos _ (h.getModel pos c hc hd)
  length_nodes := Nat.le_trans h.length_nodes hlen
  nextId := Nat.le_trans h.nextId hnext
  fresh c hc := by
    rcases mem_append.mp hc with hc | hc
    · exact h.fresh c hc
    · rw [mem_singleton.mp hc]
      exact Nat.le_trans h.nextId hid

theorem addConnected {m : Model} {nodes : List NodeId}
    (hdigital : m.isAnalog = false) (hc : Connecting cur m pos nodes 0 cur') :
    Rewired nl moves deleted (news ++ [⟨cur.nextId, { m with pins := nodes.map some }⟩]) cur' := by
  have hbases := hc.bases
  rw [replicate_zero, append_nil] at hbases
  refine h.add hc.sound hdigital hbases (fun pos' c hc' => (hc.others pos' c hc').2) ?_ ?_ (Nat.le_refl _)
  · rw [hc.length_nodes]
  · rw [hc.nextId]
    exact Nat.le_succ _

end

theorem connectLast (hs : Sound nl) (h : Rewired nl moves deleted (news ++ [b]) cur) (hget : cur.getModel pos = some b)
    {k : Nat} (hfree : b.model.pins[k]? = some none) (hn : (cur.node? n).isSome) :
    (cur.addToNode pos k n).2 = true ∧
      Rewired nl moves deleted (news ++ [ModelBase.withPin b k (some n)]) (cur.addToNode pos k n).1 := by
  have hk := (List.getElem?_eq_some_iff.mp hfree).1
  have hbases := h.sound.bases_addToNode_last (n := n) hget hk (h.bases.trans (append_assoc _ _ _).symm)
  have hid : nl.nextId ≤ b.id := h.fresh b (mem_append_right _ mem_cons_self)
  refine ⟨by rw [Netlist.addToNode, hget]; dsimp only; rw [if_pos hk], h.sound.addToNode hget hfree hn,
    fun c hc => ?_, ?_, fun pos' c hc hd => ?_, ?_, ?_, fun c hc => ?_⟩
  · rw [hbases] at hc
    rcases mem_append.mp hc with hc | hc
    · exact h.digital c (by rw [h.bases, ← append_assoc]; exact mem_append_left _ hc)
    · rw [mem_singleton.mp hc]
      exact h.digital b (mem_bases hget)
  · rw [hbases, append_assoc]
  · refine getModel_addToNode_of_ne hget hk ?_ (h.getModel pos' c hc hd)
    rintro rfl
    have hsame := (h.getModel _ c hc hd).symm.trans hget
    have hlt := hs.lt c (mem_bases hc)
    rw [← some.inj hsame, followPins_id] at hid
    omega
  · exact (length_nodes_addToNode cur pos k n).symm ▸ h.length_nodes
  · exact (nextId_addToNode cur pos k n).symm ▸ h.nextId
  · rcases mem_append.mp hc with hc | hc
    · exact h.fresh c (mem_append_left _ hc)
    · rw [mem_singleton.mp hc]
      exact hid

end Rewired

def DriverPin (nl : Netlist) (p : PinRef) (n : NodeId) : Prop := nl.pinOut p = true ∧ nl.Points p n

def ConsumerPin (nl : Netlist) (p : PinRef) (n : NodeId) : Prop := nl.pinOut p = false ∧ nl.Points p n

def SingleDriverPins (nl : Netlist) : Prop :=
  ∀ p q n, nl.DriverPin p n → nl.DriverPin q n → p = q

theorem Sound.pinOut_eq (h : Sound nl) (hb : b ∈ nl.bases) (k : Nat) :
    nl.pinOut ⟨b.id, k⟩ = (decide (k < b.model.pins.length) &&
      isOutputPin b.model.kind k b.model.pins.length) := by
  rw [Bool.eq_iff_iff, pinOut, any_eq_true]
  constructor
  · rintro ⟨c, hc, hcond⟩
    simp only [Bool.and_eq_true, beq_iff_eq] at hcond
    rw [h.eq_of_id hc hb hcond.1.1] at hcond
    exact Bool.and_eq_true_iff.mpr ⟨hcond.1.2, hcond.2⟩
  · intro hcond
    exact ⟨b, hb, by simpa using hcond⟩

theorem Sound.pin_iff (h : Sound nl) (out : Bool) (p : PinRef) (n : NodeId) :
    nl.pinOut p = out ∧ nl.Points p n ↔ ∃ b ∈ nl.bases, b.id = p.id ∧ b.model.pins[p.k]? = some (some n) ∧
      isOutputPin b.model.kind p.k b.model.pins.length = out := by
  have heq : ∀ b ∈ nl.bases, b.id = p.id → b.model.pins[p.k]? = some (some n) →
      nl.pinOut p = isOutputPin b.model.kind p.k b.model.pins.length := by
    intro b hb hid hk
    have hout := h.pinOut_eq hb p.k
    rwa [hid, decide_eq_true (List.getElem?_eq_some_iff.mp hk).1, Bool.true_and] at hout
  constructor
  · rintro ⟨hout, b, hb, hid, hk⟩
    exact ⟨b, hb, hid, hk, (heq b hb hid hk).symm.trans hout⟩
  · rintro ⟨b, hb, hid, hk, hout⟩
    exact ⟨(heq b hb hid hk).trans hout, b, hb, hid, hk⟩

theorem Sound.pinOut_eq_false (h : Sound nl) (hid : nl.nextId ≤ p.id) :
    nl.pinOut p = false := by
  rw [pinOut, any_eq_false]
  intro b hb hcond
  have := h.lt b hb
  simp only [Bool.and_eq_true, beq_iff_eq] at hcond
  omega

def allPins (nl : Netlist) : List (PinRef × NodeId) :=
  nl.bases.flatMap fun b => b.model.pins.zipIdx.filterMap fun pk =>
    pk.1.map fun n => (⟨b.id, pk.2⟩, n)

theorem mem_allPins : (p, n) ∈ allPins nl ↔ nl.Points p n := by
  simp only [allPins, mem_flatMap, mem_filterMap]
  constructor
  · rintro ⟨b, hb, ⟨q, k⟩, hk, hp⟩
    obtain ⟨m, rfl, hm⟩ := map_eq_some_iff.mp hp
    cases hm
    exact ⟨b, hb, rfl, mem_zipIdx_iff_getElem?.mp hk⟩
  · rintro ⟨b, hb, hid, hk⟩
    refine ⟨b, hb, (some n, p.k), mem_zipIdx_iff_getElem?.mpr hk, ?_⟩
    rw [map_some, hid]

/-- The set of a node is the set of the pins on it, and no pin counts as analog. -/
def nodeCheck (nl : Netlist) (n : NodeId) (nd : Node) : Bool :=
  decide (nd.pins = (((allPins nl).filter fun pn => pn.2 = n).map Prod.fst).toFinset) &&
    nd.numOfAnalogNode == 0

/-- The pin/node invariant of a digital netlist, as a computation. -/
def soundCheck (nl : Netlist) : Bool :=
  decide ((nl.bases.map ModelBase.id).Nodup) && nl.bases.all (fun b => decide (b.id < nl.nextId)) &&
    nl.bases.all (fun b => !b.model.isAnalog) && (allPins nl).all (fun pn => (nl.node? pn.2).isSome) &&
    nodeCheck nl .ground nl.groundNode && nl.nodes.zipIdx.all fun ni => nodeCheck nl (.node ni.2) ni.1

theorem sound_of_check (h : soundCheck nl = true) : Sound nl ∧ Digital nl := by
  simp only [soundCheck, Bool.and_eq_true, all_eq_true, decide_eq_true_eq] at h
  obtain ⟨⟨⟨⟨⟨hnodup, hlt⟩, hdigital⟩, hvalid⟩, hground⟩, hnodes⟩ := h
  have hdig : Digital nl := fun b hb => by simpa using hdigital b hb
  have hnode : ∀ n nd, nl.node? n = some nd → nodeCheck nl n nd = true := by
    intro n nd hnd
    cases n with
    | ground =>
      cases hnd
      exact hground
    | node i => exact hnodes (nd, i) (mem_zipIdx_iff_getElem?.mpr hnd)
  refine ⟨⟨⟨?_, ?_, ?_⟩, hnodup, hlt⟩, hdig⟩
  · intro n nd hnd p
    have hcheck := hnode n nd hnd
    simp only [nodeCheck, Bool.and_eq_true, decide_eq_true_eq] at hcheck
    rw [hcheck.1, ← mem_allPins, mem_toFinset, mem_map]
    constructor
    · rintro ⟨⟨q, m⟩, hq, rfl⟩
      obtain ⟨hmem, hn⟩ := mem_filter.mp hq
      have hm : m = n := by simpa using hn
      exact hm ▸ hmem
    · intro hp
      exact ⟨(p, n), mem_filter.mpr ⟨hp, by simp⟩, rfl⟩
  · intro m hm n hn
    obtain ⟨b, hb, rfl⟩ := mem_bases_of_mem_normals hm
    obtain ⟨k, hk⟩ := mem_iff_getElem?.mp hn
    exact hvalid (⟨b.id, k⟩, n) (mem_allPins.mpr ⟨b, hb, rfl, hk⟩)
  · intro n nd hnd
    have hcheck := hnode n nd hnd
    simp only [nodeCheck, Bool.and_eq_true, beq_iff_eq] at hcheck
    rw [hcheck.2, hdig.analogPins_eq_zero]
    rfl

def singleDriverCheck (nl : Netlist) : Bool :=
  (allPins nl).all fun p => (allPins nl).all fun q =>
    decide (p.2 = q.2 → nl.pinOut p.1 = true → nl.pinOut q.1 = true → p.1 = q.1)

theorem singleDriverPins_of_check (h : singleDriverCheck nl = true) : SingleDriverPins nl := by
  simp only [singleDriverCheck, all_eq_true, decide_eq_true_eq] at h
  intro p q n hp hq
  exact h (p, n) (mem_allPins.mpr hp.2) (q, n) (mem_allPins.mpr hq.2) rfl hp.1 hq.1

namespace Rewired

variable {moves : List (NodeId × NodeId)} {deleted : List Nat} {news : List ModelBase} {cur : Netlist}

theorem points_old (h : Rewired nl moves deleted news cur) (hb : b ∈ nl.bases) (hd : b.id ∉ deleted) (k : Nat)
    (n : NodeId) : cur.Points ⟨b.id, k⟩ n ↔
      ∃ m, b.model.pins[k]? = some (some m) ∧
        (if nl.pinOut ⟨b.id, k⟩ then m else follow moves m) = n := by
  have hmem : followPins nl.pinOut moves b ∈ cur.bases := by
    rw [h.bases]
    exact mem_append_left _ (mem_map_of_mem (mem_filter.mpr ⟨hb, by simpa using hd⟩))
  have hpoints := h.sound.points_iff_pin hmem k n
  rw [followPins_id] at hpoints
  rw [hpoints, getElem?_followPins]
  constructor
  · intro hk
    obtain ⟨p, hp, hk⟩ := map_eq_some_iff.mp hk
    split at hk
    · exact ⟨n, by rw [hp, hk], by simp_all⟩
    · obtain ⟨m, rfl, rfl⟩ := map_eq_some_iff.mp hk
      exact ⟨m, hp, by simp_all⟩
  · rintro ⟨m, hm, heq⟩
    rw [hm, map_some]
    split at heq <;> simp_all

theorem points_cases (h : Rewired nl moves deleted news cur) (hp : cur.Points p n) :
    (∃ b ∈ nl.bases, b.id ∉ deleted ∧ b.id = p.id) ∨
      ∃ b ∈ news, b.id = p.id ∧ b.model.pins[p.k]? = some (some n) := by
  obtain ⟨c, hc, hid, hk⟩ := hp
  rw [h.bases] at hc
  rcases mem_append.mp hc with hc | hc
  · obtain ⟨b, hb, rfl⟩ := mem_map.mp hc
    obtain ⟨hb, hd⟩ := mem_filter.mp hb
    exact .inl ⟨b, hb, by simpa using hd, hid⟩
  · exact .inr ⟨c, hc, hid, hk⟩

theorem hasUniqueDriverPin_iff (hs : Sound nl) (hsingle : SingleDriverPins nl) (h : Rewired nl moves deleted news cur)
    (hb : b ∈ nl.bases) {k : Nat} (hout : nl.pinOut ⟨b.id, k⟩ = true) (hk : b.model.pins[k]? = some (some n)) :
    hasUniqueDriverPin nl.pinOut cur n ⟨b.id, k⟩ = true ↔ b.id ∉ deleted := by
  have hpoint : nl.Points ⟨b.id, k⟩ n := (hs.points_iff_pin hb k n).mpr hk
  have hnode : (nl.node? n).isSome := hs.isSome_node? hb (List.mem_of_getElem? hk)
  obtain ⟨nd, hnd⟩ := Option.isSome_iff_exists.mp (h.isSome_node? hnode)
  have hpins := h.sound.consistent.pins_exact n nd hnd
  rw [hasUniqueDriverPin, hnd]
  simp only [decide_eq_true_eq]
  constructor
  · intro heq hdel
    have hmem : (⟨b.id, k⟩ : PinRef) ∈ nd.pins.filter fun q => nl.pinOut q = true := by
      rw [heq]
      exact Finset.mem_singleton_self _
    have hcur := (hpins _).mp (Finset.mem_filter.mp hmem).1
    rcases h.points_cases hcur with ⟨c, hc, hcd, hid⟩ | ⟨c, hc, hid, -⟩
    · exact hcd (hid ▸ hdel)
    · have hfresh := h.fresh c hc
      have hlt := hs.lt b hb
      simp only at hid
      omega
  · intro hdel
    ext q
    rw [Finset.mem_filter, hpins, Finset.mem_singleton]
    constructor
    · rintro ⟨hq, hqout⟩
      rcases h.points_cases hq with ⟨c, hc, hcd, hid⟩ | ⟨c, hc, hid, -⟩
      · have hqc : q = ⟨c.id, q.k⟩ := by rw [hid]
        rw [hqc] at hq hqout ⊢
        obtain ⟨m, hm, heq⟩ := (h.points_old hc hcd _ _).mp hq
        rw [if_pos hqout] at heq
        subst heq
        exact hsingle _ _ _ ⟨hqout, (hs.points_iff_pin hc _ _).mpr hm⟩ ⟨hout, hpoint⟩
      · have hfresh := h.fresh c hc
        rw [hs.pinOut_eq_false (by omega : nl.nextId ≤ q.id)] at hqout
        cases hqout
    · rintro rfl
      exact ⟨(h.points_old hb hdel k n).mpr ⟨n, hk, by rw [if_pos hout]⟩, hout⟩

end Rewired

end Netlist

end PhyEngine
