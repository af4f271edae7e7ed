import PhyEngine.Netlist.Operations

/-!
# Models and positions after an edit

The passes note the positions of models and then add and delete models. A deletion leaves every
other position alone, and a new model never takes a position in use.
-/

namespace PhyEngine.Netlist

open List

variable {nl : Netlist}

variable {pos pos' : ModelPos} {b : ModelBase} {k : Nat} {n : NodeId} {m : Model} {done : List NodeId} {cur : Netlist}

theorem getModel_eq_some : nl.getModel pos = some b ↔
    ∃ blk, nl.models[pos.chunkPos]? = some blk ∧ blk.slots[pos.vecPos]? = some (some b) := by
  simp [getModel, Option.join_eq_some_iff, Option.bind_eq_some_iff]

theorem getModel_congr {nl' : Netlist} (h : nl'.models = nl.models) (pos : ModelPos) :
    nl'.getModel pos = nl.getModel pos := by
  rw [getModel, getModel, h]

theorem mem_bases (h : nl.getModel pos = some b) :
    b ∈ nl.bases := by
  obtain ⟨l, r, hbases, -⟩ := exists_bases_setSlot h
  rw [hbases]
  exact mem_append_right _ mem_cons_self

theorem exists_getModel (h : b ∈ nl.bases) : ∃ pos, nl.getModel pos = some b := by
  obtain ⟨blk, hblk, hslot⟩ := mem_flatMap.mp (reduceOption_mem_iff.mp h)
  obtain ⟨i, hi⟩ := mem_iff_getElem?.mp hblk
  obtain ⟨j, hj⟩ := mem_iff_getElem?.mp hslot
  exact ⟨⟨j, i⟩, getModel_eq_some.mpr ⟨blk, hi, hj⟩⟩

theorem Sound.eq_of_id (h : Sound nl) {c : ModelBase} (hb : b ∈ nl.bases) (hc : c ∈ nl.bases) (hid : b.id = c.id) :
    b = c :=
  inj_on_of_nodup_map h.nodup hb hc hid

theorem getModel_modify_of_ne (hne : pos' ≠ pos) (h : nl.getModel pos' = some b) {f : ModelBlock → ModelBlock}
    (hf : ∀ blk, nl.models[pos.chunkPos]? = some blk → ∀ i, i ≠ pos.vecPos → ∀ c, blk.slots[i]? = some (some c) →
    (f blk).slots[i]? = some (some c))
    {nl' : Netlist} (hnl' : nl'.models = nl.models.modify pos.chunkPos f) : nl'.getModel pos' = some b := by
  obtain ⟨blk, hblk, hslot⟩ := getModel_eq_some.mp h
  rw [getModel_eq_some, hnl', getElem?_modify]
  by_cases hchunk : pos.chunkPos = pos'.chunkPos
  · have hvec : pos'.vecPos ≠ pos.vecPos := by
      intro hvec
      apply hne
      cases pos
      cases pos'
      simp_all
    refine ⟨f blk, by simp [hchunk, hblk], hf blk ?_ _ hvec b hslot⟩
    rw [hchunk, hblk]
  · exact ⟨blk, by simp [hchunk, hblk], hslot⟩

theorem getModel_deleteModel_of_ne (hne : pos' ≠ pos) (h : nl.getModel pos' = some b) :
    (nl.deleteModel pos).1.getModel pos' = some b := by
  unfold Netlist.deleteModel
  cases hblk : nl.models[pos.chunkPos]? with
  | none => exact h
  | some blk =>
    dsimp only
    cases hslot : blk.slots[pos.vecPos]? with
    | none => exact h
    | some slot =>
      dsimp only
      by_cases hlast : pos.vecPos + 1 = blk.slots.length
      · rw [if_pos hlast]
        have hpop : ∀ d : Nat, ∀ nl' : Netlist, nl'.models = nl.models.modify pos.chunkPos
            (fun b => { slots := b.slots.dropLast, numOfNullModel := b.numOfNullModel - d }) →
            nl'.getModel pos' = some b := by
          intro d nl' hnl'
          refine getModel_modify_of_ne hne h ?_ hnl'
          intro blk' hblk' i hi c hc
          rw [hblk, Option.some.injEq] at hblk'
          subst hblk'
          have := (List.getElem?_eq_some_iff.mp hc).1
          dsimp only
          rw [dropLast_eq_take, getElem?_take_of_lt (by omega)]
          exact hc
        cases slot with
        | none => exact hpop 1 _ rfl
        | some c => exact hpop 0 _ (by dsimp only; rw [models_removeFromNode])
      · rw [if_neg hlast]
        cases slot with
        | none => exact h
        | some c =>
          refine getModel_modify_of_ne hne h
            (f := (fun b : ModelBlock => { b with numOfNullModel := b.numOfNullModel + 1 }) ∘
              fun b : ModelBlock => { b with slots := b.slots.set pos.vecPos none }) ?_ ?_
          · intro blk' _ i hi c' hc'
            dsimp only [Function.comp_apply]
            rw [getElem?_set_ne (Ne.symm hi)]
            exact hc'
          · dsimp only [setSlot]
            rw [models_removeFromNode, modify_modify_eq]

theorem exists_bases_deleteModel (h : nl.getModel pos = some b) :
    ∃ l r, nl.bases = l ++ b :: r ∧ (nl.deleteModel pos).1.bases = l ++ r := by
  obtain ⟨blk, hblk, hslot⟩ := getModel_eq_some.mp h
  obtain ⟨l, r, hbases, hmodify⟩ := exists_bases_modify hblk (eq_append_of_getElem? hslot)
  refine ⟨l, r, by simpa using hbases, ?_⟩
  unfold Netlist.deleteModel
  rw [hblk]
  dsimp only
  rw [hslot]
  dsimp only
  by_cases hlast : pos.vecPos + 1 = blk.slots.length
  · rw [if_pos hlast]
    refine hmodify (fun b => { slots := b.slots.dropLast, numOfNullModel := b.numOfNullModel - 0 })
      ?_ _ (by dsimp only; rw [models_removeFromNode])
    dsimp only
    rw [hlast, drop_length, append_nil, dropLast_eq_take]
    congr 2
    omega
  · rw [if_neg hlast]
    refine hmodify ((fun b : ModelBlock => { b with numOfNullModel := b.numOfNullModel + 1 }) ∘
      fun b : ModelBlock => { b with slots := b.slots.set pos.vecPos none }) ?_ _ ?_
    · dsimp only [Function.comp_apply]
      rw [set_eq_take_append_cons_drop, if_pos (List.getElem?_eq_some_iff.mp hslot).1,
        reduceOption_append, reduceOption_cons_of_none, reduceOption_append]
    · dsimp only [setSlot]
      rw [models_removeFromNode, modify_modify_eq]

theorem Sound.bases_deleteModel (hs : Sound nl) (h : nl.getModel pos = some b) :
    (nl.deleteModel pos).1.bases = nl.bases.filter fun c => c.id ≠ b.id := by
  obtain ⟨l, r, hbases, hdel⟩ := exists_bases_deleteModel h
  have hnodup := hs.nodup
  rw [hbases] at hnodup
  rw [hdel, hbases, filter_append, filter_cons]
  have hkeep : ∀ c ∈ l ++ r, c.id ≠ b.id := fun c hc => ne_id_of_nodup hnodup hc
  rw [filter_eq_self.mpr, filter_eq_self.mpr]
  · simp
  · intro c hc
    simpa using hkeep c (mem_append_right _ hc)
  · intro c hc
    simpa using hkeep c (mem_append_left _ hc)

theorem Sound.pos_eq_of_id (h : Sound nl) {b' : ModelBase} (hb : nl.getModel pos = some b)
    (hb' : nl.getModel pos' = some b') (hid : b.id = b'.id) : pos = pos' := by
  by_contra hne
  have hleft := mem_bases (getModel_deleteModel_of_ne (Ne.symm hne) hb')
  rw [h.bases_deleteModel hb] at hleft
  simpa [hid] using (mem_filter.mp hleft).2

theorem nextId_deleteModel (nl : Netlist) (pos : ModelPos) :
    (nl.deleteModel pos).1.nextId = nl.nextId := by
  unfold Netlist.deleteModel
  split
  · rfl
  split
  · rfl
  split <;> split <;> first | rfl | exact nextId_removeFromNode _ _

theorem getModel_addModel (h : nl.getModel pos = some b) (m : Model) : (nl.addModel m).1.getModel pos = some b := by
  obtain ⟨blk, hblk, hslot⟩ := getModel_eq_some.mp h
  obtain ⟨hlt, hget⟩ := List.getElem?_eq_some_iff.mp hblk
  rw [getModel_eq_some, addModel]
  dsimp only
  rw [emplaceSlot]
  cases hlast : nl.models.getLast? with
  | none => simp [getLast?_eq_none_iff.mp hlast] at hblk
  | some last =>
    dsimp only
    split
    · exact ⟨blk, by rw [getElem?_append_left hlt, hblk], hslot⟩
    · have hlen : nl.models.dropLast.length = nl.models.length - 1 := length_dropLast
      by_cases hpos : pos.chunkPos < nl.models.length - 1
      · refine ⟨blk, ?_, hslot⟩
        rw [getElem?_append_left (by omega), getElem?_dropLast, if_pos hpos, hblk]
      · have heq : pos.chunkPos = nl.models.length - 1 := by omega
        have hblk' : last = blk := by
          rw [getLast?_eq_getElem?, ← heq, hblk] at hlast
          exact (Option.some.inj hlast).symm
        subst hblk'
        refine ⟨{ last with slots := last.slots ++ [some ⟨nl.nextId, m⟩] }, ?_, ?_⟩
        · rw [getElem?_append_right (by omega), hlen, heq]
          simp
        · dsimp only
          rw [getElem?_append_left (List.getElem?_eq_some_iff.mp hslot).1, hslot]

theorem getModel_addModel_snd (nl : Netlist) (m : Model) :
    (nl.addModel m).1.getModel (nl.addModel m).2 = some ⟨nl.nextId, m⟩ := by
  have hgen : ∀ (front : List ModelBlock) (last : ModelBlock) (slots : List (Option ModelBase))
      (b : ModelBase), last.slots = slots ++ [some b] →
      (((front ++ [last])[(front ++ [last]).length - 1]?).bind fun blk =>
        blk.slots[((front ++ [last]).getLast?.map fun blk => blk.slots.length - 1).getD 0]?).join
          = some b := by
    intro front last slots b hslots
    simp [hslots]
  unfold getModel addModel
  dsimp only
  rw [emplaceSlot]
  cases hlast : nl.models.getLast? with
  | none => exact hgen [] _ [] ⟨nl.nextId, m⟩ rfl
  | some last =>
    dsimp only
    split
    · exact hgen nl.models _ [] ⟨nl.nextId, m⟩ rfl
    · exact hgen nl.models.dropLast _ last.slots ⟨nl.nextId, m⟩ rfl

theorem getModel_setSlot_of_ne (hne : pos' ≠ pos) (h : nl.getModel pos' = some b) (s : Option ModelBase) :
    (nl.setSlot pos s).getModel pos' = some b := by
  refine getModel_modify_of_ne hne h
    (f := fun b : ModelBlock => { b with slots := b.slots.set pos.vecPos s }) ?_ rfl
  intro blk _ i hi c hc
  dsimp only
  rw [getElem?_set_ne (Ne.symm hi)]
  exact hc

theorem getModel_setSlot_self (h : nl.getModel pos = some b) (s : Option ModelBase) :
    (nl.setSlot pos s).getModel pos = s := by
  obtain ⟨blk, hblk, hslot⟩ := getModel_eq_some.mp h
  have hlt := (List.getElem?_eq_some_iff.mp hslot).1
  unfold getModel setSlot
  simp [hblk, hlt]

section

variable (hb : nl.getModel pos = some b) (hk : k < b.model.pins.length)
include hb hk

theorem models_addToNode :
    (nl.addToNode pos k n).1.models = (nl.setSlot pos (some (ModelBase.withPin b k (some n)))).models := by
  simp only [Netlist.addToNode, hb, hk, if_true, attachPin, models_modifyNode, setPin]
  rfl

theorem getModel_addToNode_of_ne {c : ModelBase}
    (hne : pos' ≠ pos) (h : nl.getModel pos' = some c) : (nl.addToNode pos k n).1.getModel pos' = some c := by
  rw [getModel_congr (models_addToNode hb hk)]
  exact getModel_setSlot_of_ne hne h _

theorem getModel_addToNode_self :
    (nl.addToNode pos k n).1.getModel pos = some (ModelBase.withPin b k (some n)) := by
  rw [getModel_congr (models_addToNode hb hk)]
  exact getModel_setSlot_self hb _

end

theorem nextId_addToNode (nl : Netlist) (pos : ModelPos) (k : Nat) (n : NodeId) :
    (nl.addToNode pos k n).1.nextId = nl.nextId := by
  unfold Netlist.addToNode
  split
  · rfl
  split
  · rw [attachPin, nextId_modifyNode, nextId_setPin]
  · rfl

theorem Sound.bases_addToNode_last (hs : Sound nl) (hb : nl.getModel pos = some b) (hk : k < b.model.pins.length)
    {front : List ModelBase} (hlast : nl.bases = front ++ [b]) :
    (nl.addToNode pos k n).1.bases = front ++ [ModelBase.withPin b k (some n)] := by
  obtain ⟨l, r, hbases, hset, -⟩ := exists_bases_setSlot hb
  have hnodup := hs.nodup
  have hr : r = [] := by
    rw [hbases] at hlast hnodup
    rcases eq_nil_or_concat r with hr | ⟨r', c, rfl⟩
    · exact hr
    · have hc : c = b := by
        rw [concat_eq_append, ← cons_append, ← append_assoc] at hlast
        simpa using (append_inj' hlast rfl).2
      have := ne_id_of_nodup hnodup (c := c) (by simp)
      rw [hc] at this
      exact absurd rfl this
  subst hr
  have hfront : front = l := by
    rw [hlast] at hbases
    exact (append_inj' hbases rfl).1
  rw [hfront]
  have hsame : (nl.addToNode pos k n).1.bases
      = (nl.setSlot pos (some (ModelBase.withPin b k (some n)))).bases := by
    rw [bases, bases, slots, slots, models_addToNode hb hk]
  rw [hsame]
  exact hset _

theorem length_nodes_removeFromNode (nl : Netlist) (b : ModelBase) :
    (nl.removeFromNode b).nodes.length = nl.nodes.length := by
  refine visitPins_induction (P := fun x => x.nodes.length = nl.nodes.length) _ _ _ _ rfl ?_
  intro k n x hx
  simpa [detachPin] using hx

theorem length_nodes_setSlot (nl : Netlist) (pos : ModelPos) (s : Option ModelBase) :
    (nl.setSlot pos s).nodes.length = nl.nodes.length := rfl

theorem length_nodes_setPin (nl : Netlist) (pos : ModelPos) (k : Nat) (n : Option NodeId) :
    (nl.setPin pos k n).nodes.length = nl.nodes.length := by
  unfold setPin
  split
  · rfl
  · exact length_nodes_setSlot ..

theorem length_nodes_addToNode (nl : Netlist) (pos : ModelPos) (k : Nat) (n : NodeId) :
    (nl.addToNode pos k n).1.nodes.length = nl.nodes.length := by
  unfold addToNode
  split
  · rfl
  · split
    · simp [attachPin, length_nodes_setPin]
    · rfl

theorem length_nodes_movePin (nl : Netlist) (pos : ModelPos) (k : Nat) (n : NodeId) :
    (nl.movePin pos k n).nodes.length = nl.nodes.length := by
  unfold movePin
  split
  · rfl
  · split
    · simp [length_nodes_setPin]
    · rfl

theorem length_nodes_deleteModel (nl : Netlist) (pos : ModelPos) :
    (nl.deleteModel pos).1.nodes.length = nl.nodes.length := by
  unfold deleteModel
  split
  · rfl
  · split
    · rfl
    · split
      · split
        · rfl
        · exact length_nodes_removeFromNode ..
      · split
        · rfl
        · exact length_nodes_removeFromNode ..

structure Connecting (nl : Netlist) (m : Model) (pos : ModelPos) (done : List NodeId) (todo : Nat)
    (cur : Netlist) : Prop where
  sound : Sound cur
  bases : cur.bases = nl.bases ++
    [⟨nl.nextId, { m with pins := done.map some ++ List.replicate todo none }⟩]
  getModel : cur.getModel pos =
    some ⟨nl.nextId, { m with pins := done.map some ++ List.replicate todo none }⟩
  others : ∀ pos' c, nl.getModel pos' = some c → pos' ≠ pos ∧ cur.getModel pos' = some c
  length_nodes : cur.nodes.length = nl.nodes.length
  nextId : cur.nextId = nl.nextId + 1

theorem Connecting.start (h : Sound nl) (m : Model) (todo : Nat) (hm : m.pins = List.replicate todo none) :
    Connecting nl m (nl.addModel m).2 [] todo (nl.addModel m).1 := by
  have hself := getModel_addModel_snd nl m
  have hpins : ({ m with pins := [].map some ++ replicate todo none } : Model) = m := by
    rw [map_nil, nil_append, ← hm]
  refine ⟨h.addModel ?_, ?_, ?_, fun pos' c hc => ?_, ?_, rfl⟩
  · intro p hp
    rw [hm] at hp
    exact eq_of_mem_replicate hp
  · rw [bases_addModel, hpins]
  · rw [hself, hpins]
  · have hcur := getModel_addModel hc m
    refine ⟨?_, hcur⟩
    rintro rfl
    rw [hself, Option.some.injEq] at hcur
    have hlt := h.lt c (mem_bases hc)
    rw [← hcur] at hlt
    exact Nat.lt_irrefl _ hlt
  · rfl

theorem Connecting.step {todo : Nat} (h : Connecting nl m pos done (todo + 1) cur) (hn : (nl.node? n).isSome) :
    (cur.addToNode pos done.length n).2 = true ∧
      Connecting nl m pos (done ++ [n]) todo (cur.addToNode pos done.length n).1 := by
  have hlt : done.length < (done.map some ++ replicate (todo + 1) none).length := by simp
  have hfree : (done.map some ++ replicate (todo + 1) none)[done.length]? = some (none : Option NodeId) := by
    rw [getElem?_append_right (by simp)]
    simp [replicate_succ]
  have hset : (done.map some ++ replicate (todo + 1) none).set done.length (some n)
      = (done ++ [n]).map some ++ replicate todo none := by
    rw [set_append_right _ _ (by simp)]
    simp [replicate_succ]
  have hnode : (cur.node? n).isSome := (isSome_node?_congr h.length_nodes n).mpr hn
  have hwith : ModelBase.withPin ⟨nl.nextId, { m with pins := done.map some ++ replicate (todo + 1) none }⟩
      done.length (some n) = ⟨nl.nextId, { m with pins := (done ++ [n]).map some ++ replicate todo none }⟩ := by
    rw [ModelBase.withPin]
    dsimp only
    rw [hset]
  refine ⟨?_, h.sound.addToNode h.getModel hfree hnode, ?_, ?_, fun pos' c hc => ?_, ?_, ?_⟩
  · rw [Netlist.addToNode, h.getModel]
    dsimp only
    rw [if_pos hlt]
  · rw [h.sound.bases_addToNode_last h.getModel hlt h.bases, hwith]
  · rw [getModel_addToNode_self h.getModel hlt, hwith]
  · obtain ⟨hne, hcur⟩ := h.others pos' c hc
    exact ⟨hne, getModel_addToNode_of_ne h.getModel hlt hne hcur⟩
  · rw [length_nodes_addToNode, h.length_nodes]
  · rw [nextId_addToNode, h.nextId]

theorem Connecting.connectAll {nodes : List NodeId} (h : Connecting nl m pos done nodes.length cur)
    (hn : ∀ n ∈ nodes, (nl.node? n).isSome) :
    Connecting nl m pos (done ++ nodes) 0
      ((nodes.zipIdx done.length).foldl (fun cur nk => (cur.addToNode pos nk.2 nk.1).1) cur) := by
  induction nodes generalizing done cur with
  | nil => simpa using h
  | cons n nodes ih =>
    obtain ⟨-, hstep⟩ := h.step (hn n mem_cons_self)
    have hrest := ih hstep fun x hx => hn x (mem_cons_of_mem _ hx)
    rw [append_assoc, length_append] at hrest
    exact hrest

theorem Connecting.connectChecked (nodes : List NodeId) (h : Connecting nl m pos done nodes.length cur)
    (hn : ∀ n ∈ nodes, (nl.node? n).isSome) :
    ∃ cur', (nodes.zipIdx done.length).foldl
        (fun st nk => if st.2 then st.1.addToNode pos nk.2 nk.1 else st) (cur, true) = (cur', true) ∧
      Connecting nl m pos (done ++ nodes) 0 cur' := by
  induction nodes generalizing done cur with
  | nil => exact ⟨cur, rfl, by simpa using h⟩
  | cons n nodes ih =>
    obtain ⟨htrue, hstep⟩ := h.step (hn n mem_cons_self)
    obtain ⟨cur', heq, hrest⟩ := ih hstep fun x hx => hn x (mem_cons_of_mem _ hx)
    rw [append_assoc] at hrest
    refine ⟨cur', ?_, hrest⟩
    rw [zipIdx_cons, foldl_cons, if_pos rfl]
    rw [length_append, length_singleton] at heq
    rw [← heq]
    congr 1
    exact Prod.ext rfl htrue

end PhyEngine.Netlist
