import PhyEngine.Synth.NewConsts
import PhyEngine.Synth.BinaryNetlist

/-!
# Replacing the outputs of gates by nodes of the same value

A pass that finds two nodes of the same value moves the readers of one to the other and deletes
the gate. The values are kept as long as no node is computed from itself, where a replaced node
is computed from what replaces it (`Merged.acyclic_iff`).
-/

namespace PhyEngine

open Equations List

namespace Netlist

def moveConsumersFrom (isOut : PinRef → Bool) (prot : List NodeId) (nl : Netlist)
    (src dst : NodeId) (driver : PinRef) : Netlist × Bool :=
  if src = dst then (nl, false)
  else if src ∈ prot then (nl, false)
  else if hasUniqueDriverPin isOut nl src driver = false then (nl, false)
  else
    match nl.node? src with
    | none => (nl, false)
    | some nd =>
      let pinsToMove := nd.pins.filter fun p => p ≠ driver
      let models := nl.models.map fun blk =>
        { blk with slots := blk.slots.map (Option.map (redirectPins pinsToMove dst)) }
      let nl := { nl with models }
      let nl := nl.modifyNode src fun nd => { nd with pins := nd.pins \ pinsToMove }
      (nl.modifyNode dst fun nd => { nd with pins := nd.pins ∪ pinsToMove }, true)

/-- The readers of an output go elsewhere; if that succeeds the model is deleted. -/
def replaceOutput (isOut : PinRef → Bool) (prot : List NodeId) (nl : Netlist) (src dst : NodeId)
    (driver : PinRef) (pos : ModelPos) : Netlist × Bool :=
  let moved := nl.moveConsumersFrom isOut prot src dst driver
  if moved.2 then ((moved.1.deleteModel pos).1, true) else moved

variable {dst : NodeId}

theorem moveConsumersFrom_eq {isOut : PinRef → Bool} {prot : List NodeId} {nl : Netlist} {src : NodeId}
    {driver : PinRef} (hne : src ≠ dst) (hprot : src ∉ prot)
    (hunique : hasUniqueDriverPin isOut nl src driver = true) :
    nl.moveConsumersFrom isOut prot src dst driver = nl.moveConsumers isOut prot src dst := by
  unfold moveConsumersFrom moveConsumers
  rw [if_neg hne, if_neg hprot, if_neg (by simp [hunique]), if_neg (by simp [hne, hprot])]
  cases hnd : nl.node? src with
  | none => rfl
  | some nd =>
    have hdriver : nd.pins.filter (fun q => isOut q = true) = {driver} := by
      rw [hasUniqueDriverPin, hnd] at hunique
      exact of_decide_eq_true hunique
    -- With one driver on the node the other pins are the consumer pins.
    have hpins : (nd.pins.filter fun p => p ≠ driver) = nd.pins.filter fun p => isOut p = false := by
      ext p
      have hp : p ∈ nd.pins.filter (fun q => isOut q = true) ↔ p = driver := by
        rw [hdriver, Finset.mem_singleton]
      rw [Finset.mem_filter] at hp ⊢
      rw [Finset.mem_filter]
      constructor
      · rintro ⟨hmem, hnot⟩
        refine ⟨hmem, ?_⟩
        cases hout : isOut p with
        | false => rfl
        | true => exact absurd (hp.mp ⟨hmem, hout⟩) hnot
      · rintro ⟨hmem, hout⟩
        refine ⟨hmem, fun heq => ?_⟩
        rw [(hp.mpr heq).2] at hout
        cases hout
    dsimp only
    rw [hpins]

structure DrivesOnly (nl : Netlist) (b : ModelBase) (k : Nat) (n : NodeId) : Prop where
  mem : b ∈ nl.bases
  gate : b.model.kind ≠ .input
  isSome : (boolFns b).isSome
  driver : nl.DriverPin ⟨b.id, k⟩ n
  only : ∀ j m, nl.DriverPin ⟨b.id, j⟩ m → m = n

/-- The nodes that a pass replaces have the value of what replaces them, and what replaces one
of them is not replaced itself. -/
structure Replacements (prot : List NodeId) (nl : Netlist)
    (repls : List (NodeId × Replacement)) : Prop where
  gate : ∀ p ∈ repls, ∃ b k, DrivesOnly nl b k p.1
  value : ∀ p ∈ repls, ∀ v, Solves (system boolFns nl) v → v p.1 = p.2.value id v
  node : ∀ p ∈ repls, ∀ n, p.2 = .node n → (nl.node? n).isSome
  stays : ∀ p ∈ repls, ∀ n, p.2 = .node n → n ∉ repls.map Prod.fst
  nodup : (repls.map Prod.fst).Nodup
  unprotected : ∀ p ∈ repls, p.1 ∉ prot

/-- `x` is what `y` is computed from after the replacements: an input of its gate, or the node
that replaces `y`. -/
def ComputedFrom (nl : Netlist) (repls : List (NodeId × Replacement)) (x y : NodeId) : Prop :=
  (∃ e ∈ system boolFns nl, e.target = y ∧ x ∈ e.deps ∧ y ∉ repls.map Prod.fst) ∨ (y, .node x) ∈ repls

theorem Replacements.add {prot : List NodeId} {nl : Netlist} {repls : List (NodeId × Replacement)}
    (h : Replacements prot nl repls) {n : NodeId} {r : Replacement}
    (hgate : ∃ b k, DrivesOnly nl b k n)
    (hvalue : ∀ v, Solves (system boolFns nl) v → v n = r.value id v)
    (hnode : ∀ x, r = .node x → (nl.node? x).isSome ∧ x ≠ n ∧ x ∉ repls.map Prod.fst)
    (hnew : n ∉ repls.map Prod.fst) (hfree : ∀ p ∈ repls, p.2 ≠ .node n) (hprot : n ∉ prot) :
    Replacements prot nl (repls ++ [(n, r)]) := by
  have hor : ∀ p ∈ repls ++ [(n, r)], p ∈ repls ∨ p = (n, r) := by simp
  constructor
  · intro p hp
    rcases hor p hp with hp | rfl
    · exact h.gate p hp
    · exact hgate
  · intro p hp
    rcases hor p hp with hp | rfl
    · exact h.value p hp
    · exact hvalue
  · intro p hp
    rcases hor p hp with hp | rfl
    · exact h.node p hp
    · exact fun x hx => (hnode x hx).1
  · intro p hp x hx
    rw [map_append, mem_append, map_singleton, mem_singleton, not_or]
    rcases hor p hp with hold | rfl
    · refine ⟨h.stays p hold x hx, fun heq => hfree p hold ?_⟩
      rw [hx, show x = n from heq]
    · exact ⟨(hnode x hx).2.2, (hnode x hx).2.1⟩
  · rw [map_append, map_singleton, nodup_append]
    refine ⟨h.nodup, nodup_singleton _, fun x hx y hy heq => hnew ?_⟩
    have hxn : x = n := heq.trans (mem_singleton.mp hy)
    rwa [← hxn]
  · intro p hp
    rcases hor p hp with hp | rfl
    · exact h.unprotected p hp
    · exact hprot

/-- A netlist in the middle of a run that has made some replacements. -/
structure Merged (nl : Netlist) (repls : List (NodeId × Replacement)) (moves : List (NodeId × NodeId))
    (deleted : List Nat) (news : List ModelBase) (cur : Netlist) : Prop where
  rewired : Rewired nl moves deleted news cur
  goes : List.Forall₂ (fun (p : NodeId × Replacement) m => m.1 = p.1 ∧ p.2.At nl news m.2) repls moves
  deleted : ∀ id, id ∈ deleted ↔ ∃ p ∈ repls, ∃ b k, DrivesOnly nl b k p.1 ∧ b.id = id
  consts : NewConsts nl news cur

section Run

variable {prot : List NodeId} {nl cur : Netlist} {repls : List (NodeId × Replacement)}
  {moves : List (NodeId × NodeId)} {deleted : List Nat} {news : List ModelBase} {b : ModelBase} {k : Nat}
  {n : NodeId}

section

variable (h : BinaryNetlist nl)
include h

theorem Merged.start : Merged nl [] [] [] [] nl :=
  ⟨.start h.sound h.digital, .nil, by simp, ⟨by simp, by simp⟩⟩

omit h in
theorem DrivesOnly.isSome_node? (h : Sound nl) (hb : DrivesOnly nl b k n) : (nl.node? n).isSome :=
  h.isSome_node? hb.mem (List.mem_of_getElem? ((h.points_iff_pin hb.mem _ _).mp hb.driver.2))

section

variable (hm : Merged nl repls moves deleted news cur)
include hm

theorem Merged.not_deleted
    (hb : DrivesOnly nl b k n) (hn : n ∉ repls.map Prod.fst) : b.id ∉ deleted := by
  rw [hm.deleted]
  rintro ⟨p, hp, b', k', hb', hid⟩
  obtain rfl := h.sound.eq_of_id hb'.mem hb.mem hid
  exact hn (mem_map.mpr ⟨p, hp, (hb'.only k n hb.driver).symm⟩)

omit hm in
theorem DrivesOnly.ne_const (hc : NewConsts nl news cur) (hb : DrivesOnly nl b k n)
    {c : Bool} {x : NodeId} (hat : (Replacement.constant c).At nl news x) : n ≠ x := by
  rintro rfl
  obtain ⟨d, hd | hd, hconst⟩ := hat
  · have hpin : nl.DriverPin ⟨d.id, 0⟩ n := by
      refine ⟨?_, (h.sound.points_iff_pin hd 0 _).mpr (by simp [hconst.pins])⟩
      rw [h.sound.pinOut_eq hd, hconst.kind, hconst.pins]
      rfl
    obtain rfl := h.sound.eq_of_id hd hb.mem (congrArg PinRef.id (h.single _ _ _ hpin hb.driver))
    exact hb.gate hconst.kind
  · obtain ⟨c', m, hconst', hold, -⟩ := hc.const d hd
    have hmn : m = n := by simpa [hconst.pins, eq_comm] using hconst'.pins
    exact hold (hmn ▸ hb.isSome_node? h.sound)

theorem Merged.replace {pos : ModelPos}
    (hpos : nl.getModel pos = some b) (hb : DrivesOnly nl b k n) (hn : n ∉ repls.map Prod.fst)
    (hprot : n ∉ prot) {r : Replacement} (hat : r.At nl news dst) (hne : n ≠ dst)
    (hdst : (cur.node? dst).isSome) :
    (cur.replaceOutput nl.pinOut prot n dst ⟨b.id, k⟩ pos).2 = true ∧
      Merged nl (repls ++ [(n, r)]) (moves ++ [(n, dst)]) (b.id :: deleted) news
        (cur.replaceOutput nl.pinOut prot n dst ⟨b.id, k⟩ pos).1 := by
  have hdel := hm.not_deleted h hb hn
  have hunique := (hm.rewired.hasUniqueDriverPin_iff h.sound h.single hb.mem hb.driver.1
    ((h.sound.points_iff_pin hb.mem _ _).mp hb.driver.2)).mpr hdel
  have hsrc := hb.isSome_node? h.sound
  obtain ⟨htrue, hrew⟩ := hm.rewired.moveDelete h.sound hpos hdel hne hprot hsrc hdst
  rw [hm.consts.map_retarget hsrc] at hrew
  unfold replaceOutput
  rw [moveConsumersFrom_eq hne hprot hunique]
  dsimp only
  rw [if_pos htrue]
  refine ⟨rfl, hrew, rel_append hm.goes (.cons ⟨rfl, hat⟩ .nil), fun id => ?_, hm.consts.of_rewired hrew⟩
  rw [mem_cons, hm.deleted]
  constructor
  · rintro (rfl | ⟨p, hp, hid⟩)
    · exact ⟨(n, r), by simp, b, k, hb, rfl⟩
    · exact ⟨p, mem_append_left _ hp, hid⟩
  · rintro ⟨p, hp, b', k', hb', hid⟩
    rcases mem_append.mp hp with hp | hp
    · exact .inr ⟨p, hp, b', k', hb', hid⟩
    · rw [mem_singleton.mp hp] at hb'
      have hsame := congrArg PinRef.id (h.single _ _ _ hb'.driver hb.driver)
      exact .inl (hid.symm.trans hsame)

theorem Merged.constNode (c : Bool)
    {cur' : Netlist} (hnode : ConstNode (LogicT.ofBool c) cur cur' dst) :
    ∃ news', Merged nl repls moves deleted news' cur' ∧ (Replacement.constant c).At nl news' dst ∧
      (cur'.node? dst).isSome := by
  obtain ⟨news', hrew, hconsts, hsub, hat, hsome⟩ := hm.consts.constNode h.sound hm.rewired c hnode
  exact ⟨news', ⟨hrew, hm.goes.imp fun _ _ hgo => ⟨hgo.1, hgo.2.mono hsub⟩, hm.deleted, hconsts⟩, hat, hsome⟩

end

end

end Run

section Final

variable {prot : List NodeId} {nl cur : Netlist} {repls : List (NodeId × Replacement)}
  {moves : List (NodeId × NodeId)} {deleted : List Nat} {news : List ModelBase}
  (h : BinaryNetlist nl) (hr : Replacements prot nl repls)
  (hm : Merged nl repls moves deleted news cur)

include h hr hm

omit h hr in
theorem Merged.replacement_of_move {m : NodeId × NodeId} (hmem : m ∈ moves) :
    ∃ p ∈ repls, m.1 = p.1 ∧ p.2.At nl news m.2 := by
  obtain ⟨i, hi, rfl⟩ := mem_iff_getElem.mp hmem
  have hlen := hm.goes.length_eq
  exact ⟨repls[i], getElem_mem _, hm.goes.get (by omega) hi⟩

omit h hr in
theorem Merged.move_of_replacement {p : NodeId × Replacement} (hmem : p ∈ repls) :
    ∃ x, (p.1, x) ∈ moves ∧ p.2.At nl news x := by
  obtain ⟨i, hi, rfl⟩ := mem_iff_getElem.mp hmem
  have hlen := hm.goes.length_eq
  obtain ⟨hsrc, hat⟩ := hm.goes.get hi (by omega)
  simp only [get_eq_getElem] at hsrc hat
  refine ⟨moves[i].2, ?_, hat⟩
  rw [← hsrc]
  exact getElem_mem _

omit h hr in
theorem Merged.map_fst_moves : moves.map Prod.fst = repls.map Prod.fst := by
  have hgoes := hm.goes
  clear hm
  induction hgoes with
  | nil => rfl
  | cons hgo _ ih => rw [map_cons, map_cons, hgo.1, ih]

theorem Merged.target_stays {m : NodeId × NodeId} (hmem : m ∈ moves) : m.2 ∉ repls.map Prod.fst := by
  obtain ⟨p, hp, -, hat⟩ := hm.replacement_of_move hmem
  cases hrep : p.2 with
  | node n =>
    rw [hrep] at hat
    rw [show m.2 = n from hat]
    exact hr.stays p hp n hrep
  | constant c =>
    rw [hrep] at hat
    intro hx
    obtain ⟨p', hp', heq⟩ := mem_map.mp hx
    obtain ⟨b, k, hb⟩ := hr.gate p' hp'
    exact hb.ne_const h hm.consts hat heq

theorem Merged.target_ne_source : ∀ m ∈ moves, ∀ m' ∈ moves, m.2 ≠ m'.1 := by
  intro m hmem m' hmem' heq
  refine hm.target_stays h hr hmem ?_
  rw [heq, ← hm.map_fst_moves]
  exact mem_map_of_mem hmem'

theorem Merged.lost_iff (n : NodeId) :
    ((∃ p, nl.DriverPin p n) ∧ ¬ ∃ p, cur.DriverPin p n) ↔ n ∈ repls.map Prod.fst := by
  rw [hm.rewired.lost_iff h.sound h.single]
  constructor
  · rintro ⟨⟨b, hb, hdel, k, hdriver⟩, -⟩
    obtain ⟨p, hp, b', k', hb', hid⟩ := (hm.deleted b.id).mp hdel
    obtain rfl := h.sound.eq_of_id hb'.mem hb hid
    exact mem_map.mpr ⟨p, hp, (hb'.only k n hdriver).symm⟩
  · intro hn
    obtain ⟨p, hp, rfl⟩ := mem_map.mp hn
    obtain ⟨b, k, hb⟩ := hr.gate p hp
    refine ⟨⟨b, hb.mem, (hm.deleted b.id).mpr ⟨p, hp, b, k, hb, rfl⟩, k, hb.driver⟩, fun c hc j hdriver => ?_⟩
    have hj := (hm.rewired.sound.points_iff_pin (hm.rewired.mem_bases_new hc) _ _).mp hdriver.2
    exact (hm.consts.pinOut_new hm.rewired hc hj).2.1 (hb.isSome_node? h.sound)

theorem Merged.readersDriven : ReadersDriven prot nl cur := by
  rw [hm.rewired.readersDriven_iff h.sound (hm.lost_iff h hr)]
  · refine ⟨fun b _ _ k n _ _ hn => ?_, fun b hb k n hp => absurd hp (hm.consts.not_consumer hm.rewired hb)⟩
    rw [← hm.map_fst_moves] at hn
    obtain ⟨m, hmem, heq⟩ := mem_map.mp hn
    exact follow_ne_source (hm.target_ne_source h hr) n m hmem heq.symm
  · intro n hn hmem
    obtain ⟨p, hp, rfl⟩ := mem_map.mp hmem
    exact hr.unprotected p hp hn

omit hr in
theorem Merged.singleDriverPins : SingleDriverPins cur :=
  hm.consts.singleDriverPins h.sound h.single hm.rewired

theorem Merged.not_deleted_iff {b : ModelBase} (hb : b ∈ nl.bases) {e : Equation NodeId Bool}
    (he : e ∈ pinEquations boolFns b) : b.id ∉ deleted ↔ e.target ∉ repls.map Prod.fst := by
  obtain ⟨j, hj, hout⟩ := (h.pinned b hb).target he
  have hdriver : nl.DriverPin ⟨b.id, j⟩ e.target := by
    refine ⟨?_, (h.sound.points_iff_pin hb _ _).mpr hj⟩
    rw [h.sound.pinOut_eq hb, decide_eq_true (List.getElem?_eq_some_iff.mp hj).1, hout]
    rfl
  rw [not_iff_not, hm.deleted]
  constructor
  · rintro ⟨p, hp, b', k, hb', hid⟩
    obtain rfl := h.sound.eq_of_id hb'.mem hb hid
    exact mem_map.mpr ⟨p, hp, (hb'.only j _ hdriver).symm⟩
  · intro hmem
    obtain ⟨p, hp, heq⟩ := mem_map.mp hmem
    obtain ⟨b', k, hb'⟩ := hr.gate p hp
    exact ⟨p, hp, b', k, hb', congrArg PinRef.id (h.single _ _ _ (heq ▸ hb'.driver) hdriver)⟩

theorem Merged.acyclic_iff : (∃ rank : NodeId → Nat, Ranked (system boolFns cur) rank) ↔
    ∀ n, ¬ Relation.TransGen (ComputedFrom nl repls) n n := by
  have hnodup : (moves.map Prod.fst).Nodup := hm.map_fst_moves ▸ hr.nodup
  have htargets := hm.target_ne_source h hr
  constructor
  · rintro ⟨rank, hrank⟩
    -- A replaced node is just above the node its readers have gone to.
    refine not_transGen_of_rank (fun n =>
      2 * rank (follow moves n) + if n ∈ repls.map Prod.fst then 1 else 0) fun x y hxy => ?_
    have hkeep : ∀ z, z ∉ repls.map Prod.fst → follow moves z = z := by
      intro z hz
      refine follow_eq_self fun m hmem heq => hz ?_
      rw [← heq, ← hm.map_fst_moves]
      exact mem_map_of_mem hmem
    rcases hxy with ⟨e, he, rfl, hx, hy⟩ | hxy
    · obtain ⟨b, hb, he⟩ := mem_system.mp he
      have hdel := (hm.not_deleted_iff h hr hb he).mpr hy
      obtain ⟨e', he', htarget, hdeps⟩ := exists_mem_followPins moves h.sound ignoresPins_boolFns hb
        (h.pinned b hb) he
      have hlt := hrank e' (mem_system.mpr ⟨_, hm.rewired.mem_bases_old hb hdel, he'⟩) (follow moves x)
        (by rw [hdeps]; exact mem_map_of_mem hx)
      rw [htarget] at hlt
      rw [hkeep e.target hy, if_neg hy]
      split <;> omega
    · obtain ⟨z, hmove, hat⟩ := hm.move_of_replacement hxy
      obtain rfl : z = x := hat
      have hstay := hr.stays _ hxy z rfl
      have hy : follow moves y = z := follow_of_mem hnodup htargets hmove
      rw [hy, hkeep z hstay, if_neg hstay, if_pos (mem_map.mpr ⟨_, hxy, rfl⟩)]
      omega
  · intro hacyclic
    have hsupport : ∀ x y, ComputedFrom nl repls x y →
        x ∈ (system boolFns nl).flatMap (·.deps) ++ repls.filterMap (·.2.node?) := by
      rintro x y (⟨e, he, -, hx, -⟩ | hxy)
      · exact mem_append_left _ (mem_flatMap.mpr ⟨e, he, hx⟩)
      · exact mem_append_right _ (mem_filterMap.mpr ⟨_, hxy, rfl⟩)
    obtain ⟨rank, hrank, hzero⟩ := exists_rank_of_acyclic hsupport hacyclic
    refine ⟨rank, hm.rewired.ranked_of_left h.sound ignoresPins_boolFns h.pinned ?_ ?_ ?_⟩
    · intro b hb hdel e he d hd
      exact hrank d e.target (.inl ⟨e, mem_system.mpr ⟨b, hb, he⟩, rfl, hd, (hm.not_deleted_iff h hr hb he).mp hdel⟩)
    · intro m hmem
      obtain ⟨p, hp, hsrc, hat⟩ := hm.replacement_of_move hmem
      cases hrep : p.2 with
      | node n =>
        rw [hrep] at hat
        rw [show m.2 = n from hat, hsrc]
        refine Nat.le_of_lt (hrank n p.1 (.inr ?_))
        rw [← hrep]
        exact hp
      | constant c =>
        -- A constant is computed from nothing.
        rw [hrep] at hat
        have hz : rank m.2 = 0 := by
          refine hzero m.2 ?_
          rintro x (⟨e, he, htarget, hx, -⟩ | hxy)
          · obtain ⟨d, hd | hd, hconst⟩ := hat
            · have hmem : Equation.apply m.2 [] (fun _ => c) ∈ system boolFns nl :=
                mem_system.mpr ⟨d, hd, by rw [pinEquations_const hconst]; exact mem_singleton_self _⟩
              rw [h.eq_of_target he hmem htarget] at hx
              cases hx
            · obtain ⟨c', n, hconst', hold, -⟩ := hm.consts.const d hd
              have hn : n = m.2 := by simpa [hconst.pins, eq_comm] using hconst'.pins
              rw [hn, ← htarget] at hold
              exact hold (isSome_of_mem_system h.sound h.pinned he).1
          · exact hm.target_stays h hr hmem (mem_map.mpr ⟨_, hxy, rfl⟩)
        rw [hz]
        exact Nat.zero_le _
    · intro b hb e he d hd
      obtain ⟨c, n, hconst, -⟩ := hm.consts.const b hb
      rw [pinEquations_const hconst, mem_singleton] at he
      rw [he] at hd
      cases hd

theorem Merged.keepsFunction (hacyclic : ∃ rank : NodeId → Nat, Ranked (system boolFns cur) rank) :
    KeepsFunction prot nl cur := by
  intro free
  obtain ⟨rank, hrank⟩ := hacyclic
  have hnew : ∀ b ∈ news, ∃ c n, ConstInput b (LogicT.ofBool c) n := fun b hb => by
    obtain ⟨c, n, hconst, -⟩ := hm.consts.const b hb
    exact ⟨c, n, hconst⟩
  refine hm.rewired.sameFunction h.sound h.single ignoresPins_boolFns h.pinned (fun b hb => ?_) (fun b hb => ?_)
    hrank (hm.readersDriven h hr) fun v hv => ⟨withConsts id news v, ?_, fun n hn => withConsts_old hm.consts hn.1,
      fun n hn => ?_⟩
  · obtain ⟨c, n, hconst⟩ := hnew b hb
    exact wellPinned_const hconst
  · obtain ⟨c, n, hconst⟩ := hnew b hb
    simp [boolFns_const hconst]
  · refine hm.rewired.solves h.sound ignoresPins_boolFns h.pinned
      (solves_of_eq_on_nodes h.sound h.pinned hv.solves fun n hn => withConsts_old hm.consts hn) ?_ ?_
    · intro m hmem
      obtain ⟨p, hp, hsrc, hat⟩ := hm.replacement_of_move hmem
      obtain ⟨b, k, hb⟩ := hr.gate p hp
      rw [hsrc, withConsts_old hm.consts (hb.isSome_node? h.sound), hr.value p hp v hv.solves]
      cases hrep : p.2 with
      | node n =>
        rw [hrep] at hat
        rw [show m.2 = n from hat, withConsts_old hm.consts (hr.node p hp n hrep)]
        rfl
      | constant c =>
        rw [hrep] at hat
        obtain ⟨d, hd | hd, hconst⟩ := hat
        · have hval := hv.solves (Equation.apply m.2 [] fun _ => c)
            (mem_system.mpr ⟨d, hd, by rw [pinEquations_const hconst]; exact mem_singleton_self _⟩)
          rw [withConsts_old hm.consts (h.sound.isSome_node? hd (by simp [hconst.pins]))]
          exact hval.symm
        · rw [withConsts_new hm.consts hd hconst]
          rfl
    · intro b hb e he
      obtain ⟨c, n, hconst⟩ := hnew b hb
      rw [pinEquations_const hconst, mem_singleton] at he
      rw [he]
      exact withConsts_new hm.consts hb hconst
  · rcases withConsts_cases (id : Bool → Bool) v hm.consts n with ⟨b, hb, c, hconst⟩ | heq
    · refine .inl ⟨Equation.apply n [] fun _ => c, mem_system.mpr ⟨b, hm.rewired.mem_bases_new hb, ?_⟩, rfl⟩
      rw [pinEquations_const hconst]
      exact mem_singleton_self _
    · rw [heq]
      refine .inr (hv.rest n ?_)
      rintro ⟨e, he, rfl⟩
      exact hn (isSome_of_mem_system h.sound h.pinned he).1

end Final

end Netlist

end PhyEngine
