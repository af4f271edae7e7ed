import PhyEngine.Synth.Merging

/-!
# Passes that only trim a netlist

Structural hashing and the removal of dead models only move readers between nodes of one value
and delete models without readers. `Trimmed` composes, and keeps the function of the nodes that
are still read; heights, one more reading, show that the netlist stays acyclic.
-/

namespace PhyEngine

open Equations List

/-- The models that a clean-up leaves in the netlist: `OUTPUT`, `VERILOG_PORTS` and the `INPUT`s
with a name. -/
def Model.staysAsPort (m : Model) : Bool :=
  decide (m.kind = .output) || decide (m.kind = .verilogPorts) || decide (m.kind = .input ∧ m.name ≠ "")

namespace Netlist

variable {α : Type*}

section Rewirings

variable {nl cur nxt : Netlist} {moves moves' : List (NodeId × NodeId)} {deleted deleted' : List Nat}

theorem followPins_followPins {isOut isOut' : PinRef → Bool} {b : ModelBase}
    (hout : ∀ k, isOut' ⟨b.id, k⟩ = isOut ⟨b.id, k⟩) :
    followPins isOut' moves' (followPins isOut moves b) = followPins isOut (moves ++ moves') b := by
  have hpins : (followPins isOut' moves' (followPins isOut moves b)).model.pins =
      (followPins isOut (moves ++ moves') b).model.pins := by
    refine ext_getElem? fun k => ?_
    rw [getElem?_followPins, getElem?_followPins, getElem?_followPins, followPins_id, hout, Option.map_map]
    cases hout : isOut ⟨b.id, k⟩ with
    | true =>
      cases b.model.pins[k]? <;> rfl
    | false =>
      cases b.model.pins[k]? with
      | none => rfl
      | some p => cases p <;> simp [follow_append_list]
  rw [followPins, followPins]
  exact congrArg (fun ps => (⟨b.id, { b.model with pins := ps }⟩ : ModelBase)) hpins

theorem Rewired.trans (hs : Sound nl) (h : Rewired nl moves deleted [] cur)
    (h' : Rewired cur moves' deleted' [] nxt) : Rewired nl (moves ++ moves') (deleted' ++ deleted) [] nxt := by
  have hfollow : ∀ b ∈ nl.bases, b.id ∉ deleted →
      followPins cur.pinOut moves' (followPins nl.pinOut moves b) = followPins nl.pinOut (moves ++ moves') b :=
    fun b hb hd => followPins_followPins fun k => h.pinOut_old hs hb hd k
  refine ⟨h'.sound, h'.digital, ?_, ?_, Nat.le_trans h.length_nodes h'.length_nodes,
    Nat.le_trans h.nextId h'.nextId, by simp⟩
  · rw [h'.bases, h.bases, append_nil, append_nil, append_nil, filter_map, List.map_map,
      filter_filter]
    refine (map_congr_left fun b hb => ?_).trans (congrArg _ (filter_congr fun b _ => ?_))
    · obtain ⟨hb, hd⟩ := mem_filter.mp hb
      exact hfollow b hb (by simpa using (Bool.and_eq_true_iff.mp hd).2)
    · rw [Function.comp_apply, followPins_id, ← Bool.decide_and]
      exact decide_eq_decide.mpr (by rw [mem_append, not_or])
  · intro pos b hb hd
    rw [mem_append, not_or] at hd
    rw [h'.getModel pos _ (h.getModel pos b hb hd.2) hd.1, hfollow b (mem_bases hb) hd.2]

end Rewirings

/-- A netlist that only lost models since `nl`, and readers of which only went to nodes of the
same value. What it lost nobody observes. -/
structure Trimmed (S : PinSemantics α) (prot : List NodeId) (nl : Netlist)
    (moves : List (NodeId × NodeId)) (deleted : List Nat) (cur : Netlist) : Prop where
  rewired : Rewired nl moves deleted [] cur
  value : ∀ v, Solves (system S nl) v → ∀ m ∈ moves, v m.1 = v m.2
  target : ∀ m ∈ moves, ∃ p, nl.DriverPin p m.2
  ports : ∀ b ∈ nl.bases, b.id ∈ deleted → b.model.staysAsPort = false
  quiet : ∀ b ∈ nl.bases, b.id ∈ deleted → ∀ k n, nl.DriverPin ⟨b.id, k⟩ n →
    n ∉ prot ∧ ∀ p, ¬ cur.ConsumerPin p n

structure Dead (nl : Netlist) (n : NodeId) : Prop where
  unread : ∀ p, ¬ nl.ConsumerPin p n
  undriven : ∀ p, ¬ nl.DriverPin p n

/-- What the trimming of a netlist rests on: the pins of the models and their functions, and one
driver for each node. -/
structure Trimmable (S : PinSemantics α) (nl : Netlist) : Prop where
  sound : Sound nl
  digital : Digital nl
  single : SingleDriverPins nl
  ignores : IgnoresPins S
  pinned : ∀ b ∈ nl.bases, WellPinned S b

section Trimming

variable {S : PinSemantics α} {prot : List NodeId} {nl cur nxt : Netlist}
  {moves moves' : List (NodeId × NodeId)} {deleted deleted' : List Nat} {p : PinRef} {n : NodeId}

theorem Trimmed.refl (h : Trimmable S nl) : Trimmed S prot nl [] [] nl :=
  ⟨.start h.sound h.digital, by simp, by simp, by simp, by simp⟩

section

variable (h : Trimmable S nl) (ht : Trimmed S prot nl moves deleted cur)

include h ht

theorem Trimmed.driverPin (hp : cur.DriverPin p n) : nl.DriverPin p n := by
  rcases ht.rewired.points_cases hp.2 with ⟨b, hb, hd, hid⟩ | ⟨b, hb, -⟩
  · have hpb : p = ⟨b.id, p.k⟩ := by rw [hid]
    rw [hpb] at hp ⊢
    exact (ht.rewired.driverPin_old h.sound hb hd _ _).mp hp
  · exact absurd hb not_mem_nil

theorem Trimmed.driverPin_of_observed (hobserved : n ∈ prot ∨ ∃ q, cur.ConsumerPin q n)
    (hp : nl.DriverPin p n) : cur.DriverPin p n := by
  obtain ⟨b, hb, hid, -⟩ := hp.2
  have hpb : p = ⟨b.id, p.k⟩ := by rw [hid]
  rw [hpb] at hp ⊢
  refine (ht.rewired.driverPin_old h.sound hb (fun hd => ?_) _ _).mpr hp
  obtain ⟨hprot, hread⟩ := ht.quiet b hb hd _ _ hp
  rcases hobserved with hn | ⟨q, hq⟩
  · exact hprot hn
  · exact hread q hq

theorem Trimmed.consumerPin (hp : cur.ConsumerPin p n) : nl.ConsumerPin p n ∨ ∃ q, nl.DriverPin q n := by
  rcases ht.rewired.points_cases hp.2 with ⟨b, hb, hd, hid⟩ | ⟨b, hb, -⟩
  · have hpb : p = ⟨b.id, p.k⟩ := by rw [hid]
    rw [hpb] at hp ⊢
    obtain ⟨hout, m, hm, rfl⟩ := (ht.rewired.consumerPin_old h.sound hb hd _ _).mp hp
    rcases follow_eq_or_target moves m with heq | ⟨move, hmove, heq⟩
    · rw [heq]
      exact .inl ⟨hout, (h.sound.points_iff_pin hb _ _).mpr hm⟩
    · rw [← heq]
      exact .inr (ht.target move hmove)
  · exact absurd hb not_mem_nil

end

theorem Dead.trimmed (hn : Dead nl n) (h : Trimmable S nl) (ht : Trimmed S prot nl moves deleted cur) :
    Dead cur n := by
  refine ⟨fun p hp => ?_, fun p hp => hn.undriven p (ht.driverPin h hp)⟩
  rcases ht.consumerPin h hp with hp | ⟨q, hq⟩
  · exact hn.unread p hp
  · exact hn.undriven q hq

variable {b : ModelBase}

section

variable (h : Trimmable S nl) (ht : Trimmed S prot nl moves deleted cur)

include h ht

theorem Trimmed.dead (hb : b ∈ nl.bases) (hd : b.id ∈ deleted) {k : Nat} (hp : nl.DriverPin ⟨b.id, k⟩ n) :
    Dead cur n := by
  refine ⟨(ht.quiet b hb hd k n hp).2, fun q hq => ?_⟩
  obtain rfl := h.single _ _ _ hp (ht.driverPin h hq)
  rcases ht.rewired.points_cases hq.2 with ⟨c, hc, hcd, hid⟩ | ⟨c, hc, -⟩
  · have hcb : c.id = b.id := hid
    exact hcd (hcb ▸ hd)
  · exact absurd hc not_mem_nil

theorem Trimmed.trimmable :
    Trimmable S cur where
  sound := ht.rewired.sound
  digital := ht.rewired.digital
  single _ _ n hp hq := h.single _ _ n (ht.driverPin h hp) (ht.driverPin h hq)
  ignores := h.ignores
  pinned := ht.rewired.pinned h.ignores h.pinned (by simp)

theorem Trimmed.solves {v : NodeId → α} (hv : Solves (system S nl) v) : Solves (system S cur) v :=
  ht.rewired.solves h.sound h.ignores h.pinned hv (ht.value v hv) (by simp)

theorem Trimmed.trans (ht' : Trimmed S prot cur moves' deleted' nxt) :
    Trimmed S prot nl (moves ++ moves') (deleted' ++ deleted) nxt := by
  have hcur := ht.trimmable h
  refine ⟨ht.rewired.trans h.sound ht'.rewired, fun v hv m hm => ?_, fun m hm => ?_, fun b hb hd => ?_,
    fun b hb hd k n hp => ?_⟩
  · rcases mem_append.mp hm with hm | hm
    · exact ht.value v hv m hm
    · exact ht'.value v (ht.solves h hv) m hm
  · rcases mem_append.mp hm with hm | hm
    · exact ht.target m hm
    · obtain ⟨p, hp⟩ := ht'.target m hm
      exact ⟨p, ht.driverPin h hp⟩
  · by_cases hold : b.id ∈ deleted
    · exact ht.ports b hb hold
    · rcases mem_append.mp hd with hd | hd
      · have hcur := ht'.ports _ (ht.rewired.mem_bases_old hb hold) hd
        exact hcur
      · exact absurd hd hold
  · by_cases hold : b.id ∈ deleted
    · exact ⟨(ht.quiet b hb hold k n hp).1, ((ht.dead h hb hold hp).trimmed hcur ht').unread⟩
    · rcases mem_append.mp hd with hd | hd
      · exact ht'.quiet _ (ht.rewired.mem_bases_old hb hold) hd k n
          ((ht.rewired.driverPin_old h.sound hb hold k n).mpr hp)
      · exact absurd hd hold

end

theorem Trimmed.exists_port (ht : Trimmed S prot nl moves deleted cur) (hb : b ∈ nl.bases)
    (hport : b.model.staysAsPort = true) :
    ∃ pins, (⟨b.id, { b.model with pins := pins }⟩ : ModelBase) ∈ cur.bases := by
  refine ⟨_, ht.rewired.mem_bases_old hb fun hd => ?_⟩
  rw [ht.ports b hb hd] at hport
  cases hport

section

variable (h : Trimmable S nl)
include h

theorem Trimmed.sameFunction (ht : Trimmed S prot nl moves deleted cur)
    {rank : NodeId → Nat} (hrank : Ranked (system S cur) rank) (background : NodeId → α) :
    SameFunction S background nl cur (Observed prot nl cur) := by
  refine ht.rewired.sameFunction h.sound h.single h.ignores h.pinned (by simp) (by simp) hrank ?_ fun v hv =>
    ⟨v, ht.solves h hv.solves, fun _ _ => rfl, fun n hn => .inr (hv.rest n ?_)⟩
  · rintro n ⟨-, hobserved⟩ ⟨p, hp⟩
    exact ⟨p, ht.driverPin_of_observed h hobserved hp⟩
  · rintro ⟨e, he, rfl⟩
    exact hn (isSome_of_mem_system h.sound h.pinned he).1

/-- The readers of the output of a gate go to a node of the same value, and the gate is
deleted. -/
theorem Trimmable.replaceOutput (prot : List NodeId) {pos : ModelPos} {k : Nat}
    {src dst : NodeId} (hpos : nl.getModel pos = some b) (hdriver : nl.DriverPin ⟨b.id, k⟩ src)
    (honly : ∀ j m, nl.DriverPin ⟨b.id, j⟩ m → m = src) (hport : b.model.staysAsPort = false) (hne : src ≠ dst)
    (hprot : src ∉ prot) (hdst : ∃ p, nl.DriverPin p dst)
    (hvalue : ∀ v, Solves (system S nl) v → v src = v dst) :
    (nl.replaceOutput nl.pinOut prot src dst ⟨b.id, k⟩ pos).2 = true ∧
      Trimmed S prot nl [(src, dst)] [b.id]
        (nl.replaceOutput nl.pinOut prot src dst ⟨b.id, k⟩ pos).1 := by
  have hb := mem_bases hpos
  have hstart := Rewired.start h.sound h.digital
  have hpin := (h.sound.points_iff_pin hb _ _).mp hdriver.2
  have hunique := (hstart.hasUniqueDriverPin_iff h.sound h.single hb hdriver.1 hpin).mpr not_mem_nil
  have hsome : ∀ {p : PinRef} {m : NodeId}, nl.Points p m → (nl.node? m).isSome := by
    rintro p m ⟨c, hc, -, hk⟩
    exact h.sound.isSome_node? hc (List.mem_of_getElem? hk)
  obtain ⟨q, hq⟩ := hdst
  obtain ⟨htrue, hrew⟩ := hstart.moveDelete h.sound hpos not_mem_nil hne hprot (hsome hdriver.2) (hsome hq.2)
  unfold Netlist.replaceOutput
  rw [moveConsumersFrom_eq hne hprot hunique]
  dsimp only
  rw [if_pos htrue]
  refine ⟨rfl, hrew, fun v hv m hm => ?_, fun m hm => ?_, fun c hc hd => ?_, fun c hc hd j n hp => ?_⟩
  · rw [mem_singleton.mp hm]
    exact hvalue v hv
  · rw [mem_singleton.mp hm]
    exact ⟨q, hq⟩
  · obtain rfl := h.sound.eq_of_id hc hb (mem_singleton.mp hd)
    exact hport
  · obtain rfl := h.sound.eq_of_id hc hb (mem_singleton.mp hd)
    obtain rfl := honly j n hp
    refine ⟨hprot, fun r hr => ?_⟩
    rcases hrew.points_cases hr.2 with ⟨c', hc', hd', hid⟩ | ⟨c', hc', -⟩
    · have hrc : r = ⟨c'.id, r.k⟩ := by rw [hid]
      rw [hrc] at hr
      obtain ⟨-, m, -, heq⟩ := (hrew.consumerPin_old h.sound hc' hd' _ _).mp hr
      rw [nil_append, follow_cons, follow_nil] at heq
      split at heq
      · exact hne heq.symm
      · rename_i hm
        exact hm heq
    · exact absurd hc' not_mem_nil

theorem Trimmable.deleteModel (prot : List NodeId) {pos : ModelPos}
    (hpos : nl.getModel pos = some b) (hport : b.model.staysAsPort = false)
    (hquiet : ∀ k n, nl.DriverPin ⟨b.id, k⟩ n → n ∉ prot ∧ ∀ p, ¬ nl.ConsumerPin p n) :
    Trimmed S prot nl [] [b.id] (nl.deleteModel pos).1 := by
  have hb := mem_bases hpos
  have hrew := (Rewired.start h.sound h.digital).delete h.sound hpos not_mem_nil
  refine ⟨hrew, by simp, by simp, fun c hc hd => ?_, fun c hc hd j n hp => ?_⟩
  · obtain rfl := h.sound.eq_of_id hc hb (mem_singleton.mp hd)
    exact hport
  · obtain rfl := h.sound.eq_of_id hc hb (mem_singleton.mp hd)
    obtain ⟨hprot, hread⟩ := hquiet j n hp
    refine ⟨hprot, fun r hr => ?_⟩
    rcases hrew.points_cases hr.2 with ⟨c', hc', hd', hid⟩ | ⟨c', hc', -⟩
    · have hrc : r = ⟨c'.id, r.k⟩ := by rw [hid]
      rw [hrc] at hr
      obtain ⟨hout, m, hm, rfl⟩ := (hrew.consumerPin_old h.sound hc' hd' _ _).mp hr
      exact hread _ ⟨hout, (h.sound.points_iff_pin hc' _ _).mpr hm⟩
    · exact absurd hc' not_mem_nil

theorem Trimmed.replaceOutput_eq (ht : Trimmed S prot nl moves deleted cur)
    (src dst : NodeId) (driver : PinRef) (pos : ModelPos) :
    cur.replaceOutput nl.pinOut prot src dst driver pos =
      cur.replaceOutput cur.pinOut prot src dst driver pos := by
  have hunique : hasUniqueDriverPin nl.pinOut cur src driver = hasUniqueDriverPin cur.pinOut cur src driver := by
    unfold hasUniqueDriverPin
    cases hnd : cur.node? src with
    | none => rfl
    | some nd =>
      refine decide_eq_decide.mpr (Eq.congr_left (Finset.filter_congr fun p hp => ?_))
      have hpoint := (ht.rewired.sound.consistent.pins_exact src nd hnd p).mp hp
      rcases ht.rewired.points_cases hpoint with ⟨b, hb, hd, hid⟩ | ⟨b, hb, -⟩
      · have hpb : p = ⟨b.id, p.k⟩ := by rw [hid]
        rw [hpb, ht.rewired.pinOut_old h.sound hb hd]
      · exact absurd hb not_mem_nil
  unfold Netlist.replaceOutput moveConsumersFrom
  rw [hunique]

end

end Trimming

def heightFns (S : PinSemantics α) : PinSemantics Nat := fun b =>
  (S b).map fun g => ⟨g.arity, g.fns.map fun _ ins => ins.foldr max 0 + 1⟩

section Heights

variable {S : PinSemantics α} {nl : Netlist} {b : ModelBase}

theorem mem_pinEquations_heightFns {e : Equation NodeId Nat} : e ∈ pinEquations (heightFns S) b ↔
    ∃ e' ∈ pinEquations S b, e = Equation.apply e'.target e'.deps fun ins => ins.foldr max 0 + 1 := by
  constructor
  · intro he
    obtain ⟨g, hg, hnone, j, n, f, hn, hf, rfl⟩ := mem_pinEquations.mp he
    obtain ⟨g₀, hg₀, rfl⟩ := Option.map_eq_some_iff.mp hg
    rw [getElem?_map] at hf
    obtain ⟨f₀, hf₀, rfl⟩ := Option.map_eq_some_iff.mp hf
    exact ⟨_, mem_pinEquations.mpr ⟨g₀, hg₀, hnone, j, n, f₀, hn, hf₀, rfl⟩, rfl⟩
  · rintro ⟨e', he', rfl⟩
    obtain ⟨g, hg, hnone, j, n, f, hn, hf, rfl⟩ := mem_pinEquations.mp he'
    refine mem_pinEquations.mpr ⟨_, Option.map_eq_some_iff.mpr ⟨g, hg, rfl⟩, hnone, j, n,
      fun ins => ins.foldr max 0 + 1, hn, ?_, rfl⟩
    rw [getElem?_map, hf]
    rfl

theorem Trimmable.heights (h : Trimmable S nl) : Trimmable (heightFns S) nl := by
  refine ⟨h.sound, h.digital, h.single, fun b ps => ?_, fun b hb => ⟨?_, ?_, ?_⟩⟩
  · rw [heightFns, heightFns, h.ignores]
  · intro g hg n hn
    obtain ⟨g₀, hg₀, rfl⟩ := Option.map_eq_some_iff.mp hg
    exact (h.pinned b hb).connected g₀ hg₀ n hn
  · intro g hg
    obtain ⟨g₀, hg₀, rfl⟩ := Option.map_eq_some_iff.mp hg
    rw [(h.pinned b hb).length g₀ hg₀, length_map]
  · intro g hg k hk
    obtain ⟨g₀, hg₀, rfl⟩ := Option.map_eq_some_iff.mp hg
    exact (h.pinned b hb).outputs g₀ hg₀ k hk

theorem le_foldr_max {x : Nat} {xs : List Nat} (hx : x ∈ xs) : x ≤ xs.foldr max 0 := by
  induction xs with
  | nil => cases hx
  | cons y xs ih =>
    rw [foldr_cons]
    rcases mem_cons.mp hx with rfl | hx
    · exact Nat.le_max_left _ _
    · exact Nat.le_trans (ih hx) (Nat.le_max_right _ _)

theorem ranked_of_heights {height : NodeId → Nat} (hheight : Solves (system (heightFns S) nl) height) :
    Ranked (system S nl) height := by
  intro e he d hd
  obtain ⟨b, hb, he⟩ := mem_system.mp he
  have hvalue := hheight _ (mem_system.mpr ⟨b, hb, mem_pinEquations_heightFns.mpr ⟨e, he, rfl⟩⟩)
  change height e.target = (e.deps.map height).foldr max 0 + 1 at hvalue
  have hle := le_foldr_max (mem_map_of_mem (f := height) hd)
  omega

theorem Trimmable.exists_heights (h : Trimmable S nl) {rank : NodeId → Nat} (hrank : Ranked (system S nl) rank) :
    ∃ height, Solves (system (heightFns S) nl) height := by
  have hheights := h.heights
  have hranked : Ranked (system (heightFns S) nl) rank := by
    intro e he d hd
    obtain ⟨b, hb, he⟩ := mem_system.mp he
    obtain ⟨e', he', rfl⟩ := mem_pinEquations_heightFns.mp he
    exact hrank e' (mem_system.mpr ⟨b, hb, he'⟩) d hd
  have hsettled : ∃ height, Settled (system (heightFns S) nl) (fun _ => 0) height :=
    exists_settled hranked fun e he e' he' => eq_of_target h.sound h.single hheights.pinned he he'
  obtain ⟨height, hheight⟩ := hsettled
  exact ⟨height, hheight.solves⟩

end Heights

end Netlist

end PhyEngine
