import PhyEngine.Synth.ResetPins
import PhyEngine.Verilog.Steady

/-!
# Flip-flops with an asynchronous reset follow the simulator

Over every run of changes of single inputs the flip-flops hold the registers of the simulator: a
`DFF_ARSTN` where the reset branch assigns, else a `DFF` that the reset edge does not clock. With
the reset edge first, that edge is taken for the clock.
-/

namespace PhyEngine.Verilog

open LogicT ModuleState List

structure SignalNets (b : InstanceBuilder) (g : GateNet) (sig : List Nat) : Prop where
  length : sig.length = b.inst.mod.signalNames.length
  node : ∀ s < b.inst.mod.signalNames.length, g.nodes[sig.getD s 0]? = some .net ∨
    ∃ v, b.constSignal s = some v ∧ g.nodes[sig.getD s 0]? = some (.const v)
  inj : ∀ s < b.inst.mod.signalNames.length, ∀ t < b.inst.mod.signalNames.length,
    sig.getD s 0 = sig.getD t 0 → g.nodes[sig.getD s 0]? = some .net → s = t

section

variable {b : InstanceBuilder} {g g' : GateNet} {sig : List Nat} {opt : StmtOptions} {ρ : Nat → LogicT}
    {st : ModuleState}

structure NetsHold (b : InstanceBuilder) (opt : StmtOptions) (g : GateNet) (sig : List Nat) (ρ : Nat → LogicT)
    (st : ModuleState) : Prop where
  ne_Z : ∀ i, ρ i ≠ .Z
  length : st.values.length = b.inst.mod.signalNames.length
  consts : b.KeepsConsts st
  fine : ∀ v ∈ st.values, Fine opt v
  nets : ∀ s < b.inst.mod.signalNames.length, g.nodes[sig.getD s 0]? = some .net → ρ (sig.getD s 0) = st.get s

section

variable (h : NetsHold b opt g sig ρ st)
include h

theorem NetsHold.fine_get {s : Nat} (hs : s < b.inst.mod.signalNames.length) :
    Fine opt (st.get s) := by
  have hlt : s < st.values.length := by rwa [h.length]
  refine h.fine _ ?_
  rw [ModuleState.get, getD_eq_getElem _ _ hlt]
  exact getElem_mem hlt

section

variable (hsig : SignalNets b g sig)
include hsig

theorem NetsHold.value {s : Nat}
    (hs : s < b.inst.mod.signalNames.length) : g.Has ρ (sig.getD s 0) (st.get s) := by
  rcases hsig.node s hs with hnet | ⟨v, hv, hconst⟩
  · exact ⟨(List.getElem?_eq_some_iff.mp hnet).1, (GateNet.value_net hnet).trans (h.nets s hs hnet)⟩
  · rw [h.consts s v hv]
    exact GateNet.has_of_getElem? hconst

theorem NetsHold.valuesOf : g.valuesOf ρ sig = st.values := by
  refine eq_of_getD ?_ fun s hs => ?_
  · rw [GateNet.valuesOf, length_map, hsig.length, h.length]
  · rw [h.length] at hs
    rw [← value_getD (by rw [hsig.length]; exact hs), (h.value hsig hs).2]
    rfl

theorem NetsHold.nodes :
    Nodes b.inst.mod opt ρ g sig := by
  have hvalue (x : Nat) (hx : x ∈ sig) : ∃ s < b.inst.mod.signalNames.length, x = sig.getD s 0 := by
    obtain ⟨s, hs, rfl⟩ := mem_iff_getElem.mp hx
    exact ⟨s, by rwa [← hsig.length], (getD_eq_getElem _ _ hs).symm⟩
  refine ⟨hsig.length, fun x hx => ?_, fun x hx => ?_⟩
  · obtain ⟨s, hs, rfl⟩ := hvalue x hx
    exact (h.value hsig hs).1
  · refine h.fine _ ?_
    rw [← h.valuesOf hsig]
    exact mem_map_of_mem hx

end

end

end

def edge (rises : Bool) (old new : LogicT) : Bool := old == ofBool !rises && new == ofBool rises

theorem eventOccurs_edgeKind {st : ModuleState} {rises : Bool} {s : Nat} (hs : s < st.values.length)
    (hprev : st.prevValues.length = st.values.length) :
    eventOccurs st ⟨edgeKind rises, s⟩ = edge rises (st.prevValues.getD s .X) (st.get s) := by
  unfold eventOccurs
  rw [if_neg (by dsimp only; omega)]
  generalize st.get s = new
  dsimp only
  generalize st.prevValues.getD s .X = old
  cases rises <;> cases old <;> cases new <;> rfl

namespace ResetBlock

variable {b : InstanceBuilder} {opt : StmtOptions} {ff : AlwaysFf} (blk : ResetBlock b opt ff)
variable {st st₁ st' : ModuleState} {log : List Write}

theorem fires_eq (hlen : st₁.values.length = b.inst.mod.signalNames.length) (hprev : st₁.prevValues = st.values)
    (hst : st.values.length = b.inst.mod.signalNames.length) :
    ff.fires st₁ = (edge blk.clkRises (st.get blk.clk) (st₁.get blk.clk) ||
      edge blk.rstRises (st.get blk.rst) (st₁.get blk.rst)) := by
  have hprev' : st₁.prevValues.length = st₁.values.length := by rw [hprev, hst, hlen]
  rw [AlwaysFf.fires, blk.events, any_cons, any_cons, any_nil, Bool.or_false,
    eventOccurs_edgeKind (by rw [hlen]; exact blk.clk_lt) hprev',
    eventOccurs_edgeKind (by rw [hlen]; exact blk.rst_lt) hprev', hprev]
  rfl

theorem risingEdge_eq {clip : Clip} {old new : LogicT} (hclip : clip.lastClk = blk.clkLevel old)
    (hold : old.isUnknown = false) (hnew : new.isUnknown = false) :
    clip.risingEdge (blk.clkLevel new) = edge blk.clkRises old new := by
  obtain ⟨o, rfl⟩ := exists_ofBool hold
  obtain ⟨n, rfl⟩ := exists_ofBool hnew
  rw [Clip.risingEdge, hclip, clkLevel, clkLevel]
  cases blk.clkRises <;> cases o <;> cases n <;> rfl

theorem active_of_edge (h : edge blk.rstRises (st.get blk.rst) (st₁.get blk.rst) = true) : blk.active st₁ = true := by
  rw [edge, Bool.and_eq_true] at h
  exact h.2

theorem active_or_edge (hrst : (st.get blk.rst).isUnknown = false) (h : blk.active st₁ = true) :
    blk.active st = true ∨ edge blk.rstRises (st.get blk.rst) (st₁.get blk.rst) = true := by
  obtain ⟨old, hold⟩ := exists_ofBool hrst
  rw [active, beq_iff_eq] at h
  rw [active, h, hold]
  cases old <;> cases blk.rstRises <;> decide

theorem written_of_active (hlen : st₁.values.length = b.inst.mod.signalNames.length) (hconsts : b.KeepsConsts st₁)
    (hrst : (st₁.get blk.rst).isUnknown = false) (hactive : blk.active st₁ = true)
    (hrun : Runs b.inst.mod opt.loopUnrollLimit (.seq ff.roots) st₁ log st') (s : Nat) (v : LogicT) :
    written (log.map Write.entry) s v = (blk.resets.getD s none).getD v := by
  have hbranch : (if holds b.inst.mod blk.cond st₁ then blk.ts else blk.es) =
      if blk.one = blk.rstRises then blk.ts else blk.es := by
    have htaken : holds b.inst.mod blk.cond st₁ = (blk.one == blk.rstRises) := by
      have heq := blk.taken_cond hrst
      rwa [hactive, Bool.true_beq] at heq
    rw [htaken]
    simp only [beq_iff_eq]
  have hbody := runs_if_of_find blk.body hrun
  rw [hbranch] at hbody
  have hfits : ∀ a ∈ Stmt.assignsOfList (if blk.one = blk.rstRises then blk.ts else blk.es),
      AssignFits b (ff.targetFlags b.inst.mod) a := by
    intro a ha t ht
    have hroots : a ∈ Stmt.assignsOfList ff.roots := by
      refine assigns_of_find blk.body ?_
      split_ifs at ha
      · exact .inl ha
      · exact .inr ha
    have htarget : t ∈ Stmt.targets ff.roots := mem_flatMap.mpr ⟨a, hroots, ht⟩
    exact ⟨blk.unassigned t htarget, fun hlt => getD_collectAssignedSignals.mpr ⟨hlt, htarget⟩⟩
  have hcollected := collected_all _ blk.constant hbody hfits hconsts (by rw [length_replicate, hlen]) hlen
  have hwritten := hcollected.written s v
  rwa [getD_eq_getElem?_getD, getElem?_getD_replicate_default_eq] at hwritten

variable {tick : UInt64} {s : Nat} {v : LogicT}

theorem values_applyNba_of_queue (h : st.nbaQueue = []) : (applyNba st).1.values = st.values := by
  rw [applyNba, h]
  rfl

variable {t : Nat}

theorem get_simulateChange (hq : st.nbaQueue = []) (hst : (st.assignSignal s v).1 = st₁)
    (hrun : Runs b.inst.mod opt.loopUnrollLimit (.seq ff.roots) st₁ log st') (hord : ∀ t, Ordered t log)
    (ht : t < st₁.values.length) :
    (simulateChange b.inst.mod ff tick s v st).get t =
      if ff.fires st₁ then written (log.map Write.entry) t (st₁.get t) else st₁.get t := by
  have hq₁ : st₁.nbaQueue = [] := by rw [← hst, (sameBut_assignSignal st s v).nbaQueue, hq]
  have hvalues : (simulateChange b.inst.mod ff tick s v st).values =
      (applyNba (runAlwaysFfs b.inst.mod tick [(ff, 0)] st₁).1).1.values := by
    rw [← hst]
    rfl
  rw [ModuleState.get, hvalues]
  cases hfires : ff.fires st₁ with
  | true =>
    have hsteps : (runAlwaysFfs b.inst.mod tick [(ff, 0)] st₁).1 = st₁.perform log := by
      rw [runAlwaysFfs, if_pos hfires, ← hrun.perform, ← hrun.execRoots tick]
      rfl
    rw [hsteps, if_pos rfl, (hord t).written, ← ModuleState.get_applyNba_perform st₁ hq₁ log ht]
    rfl
  | false =>
    have hsteps : (runAlwaysFfs b.inst.mod tick [(ff, 0)] st₁).1 = st₁ := by
      rw [runAlwaysFfs, if_neg (by rw [hfires]; exact Bool.false_ne_true)]
      rfl
    rw [hsteps, values_applyNba_of_queue hq₁, if_neg Bool.false_ne_true]
    rfl

structure Synced (g : GateNet) (sig : List Nat) (ns : NetlistState) (st : ModuleState) : Prop where
  nets : NetsHold b opt g sig ns.nets st
  prev : st.prevValues = st.values
  queue : st.nbaQueue = []
  clk : (st.get blk.clk).isUnknown = false
  rst : (st.get blk.rst).isUnknown = false
  q : ∀ t ∈ blk.registers, (ns.clips t).q = st.get t
  lastClk : ∀ t ∈ blk.registers, (ns.clips t).lastClk = blk.clkLevel (st.get blk.clk)
  resetValue : ∀ t ∈ blk.registers, ∀ c ∈ blk.resets.getD t none, (ns.clips t).resetValue = c

/-- While the reset is active, the registers of the reset branch have their reset values. -/
def HoldsReset (st : ModuleState) : Prop :=
  blk.active st = true → ∀ t ∈ blk.registers, ∀ c ∈ blk.resets.getD t none, st.get t = c

section

variable {g g' : GateNet} {sig : List Nat} {ns : NetlistState} {ρ : Nat → LogicT} {f : FlipFlop}

theorem clkLevel_ofBool (c : Bool) : ∃ level, blk.clkLevel (ofBool c) = ofBool level := by
  unfold clkLevel
  cases blk.clkRises with
  | true => exact ⟨c, rfl⟩
  | false => exact ⟨!c, logicNot_ofBool c⟩

theorem nextQ_eq (hnets : NetsHold b opt g sig ρ st₁) (hrst : (st.get blk.rst).isUnknown = false)
    (hrst₁ : (st₁.get blk.rst).isUnknown = false) (hold : blk.HoldsReset st) (hf : blk.Fits sig g' ρ st₁ f)
    (hmem : f.signal ∈ blk.registers) (hst : st₁.get f.signal = st.get f.signal) {clip : Clip}
    (hq : clip.q = st.get f.signal) (hreset : ∀ c ∈ blk.resets.getD f.signal none, clip.resetValue = c)
    (hrun : Runs b.inst.mod opt.loopUnrollLimit (.seq ff.roots) st₁ log st') :
    f.nextQ (g'.value ρ) clip (edge blk.clkRises (st.get blk.clk) (st₁.get blk.clk)) =
      if edge blk.clkRises (st.get blk.clk) (st₁.get blk.clk) ||
        edge blk.rstRises (st.get blk.rst) (st₁.get blk.rst) then
        written (log.map Write.entry) f.signal (st₁.get f.signal)
      else st₁.get f.signal := by
  have hd := hf.d log st' hrun
  cases hactive : blk.active st₁ with
  | false =>
    have hedge : edge blk.rstRises (st.get blk.rst) (st₁.get blk.rst) = false := by
      by_contra hne
      rw [blk.active_of_edge (Bool.eq_true_of_not_eq_false hne)] at hactive
      cases hactive
    have harst : ∀ a ∈ f.arst, g'.value ρ a.1 = .H := by
      intro a ha
      rw [hf.arst a ha, hactive]
      rfl
    rw [FlipFlop.nextQ_of_clock hf.fine.1 harst, hedge, Bool.or_false, hd, hq, hst]
  | true =>
    have hwritten := blk.written_of_active hnets.length hnets.consts hrst₁ hactive hrun f.signal (st₁.get f.signal)
    have hresets := hf.resets
    cases harst : f.arst with
    | none =>
      -- the reset branch does not write the register, so a reset edge leaves it
      rw [harst, Option.map_none] at hresets
      rw [← hresets, Option.getD_none] at hwritten
      rw [FlipFlop.nextQ_of_clock hf.fine.1 (by rw [harst]; rintro a ⟨⟩), hd, hwritten, hq, hst, ite_self, ite_self]
    | some a =>
      rw [harst, Option.map_some] at hresets
      have hc : a.2 ∈ blk.resets.getD f.signal none := hresets ▸ rfl
      have hlow : g'.value ρ a.1 = .L := by
        rw [hf.arst a harst, hactive]
        rfl
      rw [FlipFlop.nextQ_of_reset harst hlow, hreset a.2 hc, hwritten, ← hresets, Option.getD_some]
      split_ifs with hfires
      · rfl
      · -- no edge: the reset was active before the change
        rcases blk.active_or_edge hrst hactive with hbefore | hedge
        · rw [hst, hold hbefore f.signal hmem a.2 hc]
        · rw [hedge, Bool.or_true] at hfires
          exact absurd rfl hfires

variable {ffs : List FlipFlop}

theorem exists_find_signal (hffs : ffs.map FlipFlop.signal = blk.registers) (ht : t ∈ blk.registers) :
    ∃ f ∈ ffs, f.signal = t ∧ ffs.find? (fun f => f.signal = t) = some f := by
  rw [← hffs] at ht
  obtain ⟨f₀, hf₀, hsignal⟩ := mem_map.mp ht
  have hsome : (ffs.find? fun f => f.signal = t).isSome := find?_isSome.mpr ⟨f₀, hf₀, decide_eq_true hsignal⟩
  obtain ⟨f, hf⟩ := Option.isSome_iff_exists.mp hsome
  exact ⟨f, mem_of_find?_eq_some hf, of_decide_eq_true (find?_some hf :), hf⟩

theorem signal_mem_registers (hffs : ffs.map FlipFlop.signal = blk.registers) (hf : f ∈ ffs) :
    f.signal ∈ blk.registers := hffs ▸ mem_map_of_mem hf

theorem net_of_register (hsig : SignalNets b g sig) (ht : t ∈ blk.registers) :
    g.nodes[sig.getD t 0]? = some .net := by
  obtain ⟨hlt, htarget⟩ := blk.mem_registers.mp ht
  rcases hsig.node t hlt with hnet | ⟨v, hv, -⟩
  · exact hnet
  · rw [blk.unassigned t htarget] at hv
    cases hv

theorem nets_drive (ns : NetlistState) (hsig : SignalNets b g sig) (hffs : ffs.map FlipFlop.signal = blk.registers)
    (hq : ∀ f ∈ ffs, f.q = sig.getD f.signal 0) (ht : t < b.inst.mod.signalNames.length) :
    (t ∈ blk.registers → (ns.drive ffs).nets (sig.getD t 0) = (ns.clips t).q) ∧
      (t ∉ blk.registers → g.nodes[sig.getD t 0]? = some .net →
        (ns.drive ffs).nets (sig.getD t 0) = ns.nets (sig.getD t 0)) := by
  -- a flip-flop with this output is the one of the signal
  have hfind {f : FlipFlop} (hnet : g.nodes[sig.getD t 0]? = some .net)
      (hf : ffs.find? (fun f => f.q = sig.getD t 0) = some f) : f.signal = t ∧ f.signal ∈ blk.registers := by
    have hmem := mem_of_find?_eq_some hf
    have hreg := blk.signal_mem_registers hffs hmem
    have hnode : sig.getD t 0 = sig.getD f.signal 0 := by
      rw [← hq f hmem]
      exact (of_decide_eq_true (find?_some hf :)).symm
    exact ⟨(hsig.inj t ht f.signal (blk.mem_registers.mp hreg).1 hnode hnet).symm, hreg⟩
  unfold NetlistState.drive
  dsimp only
  constructor
  · intro hreg
    have hnet := blk.net_of_register hsig hreg
    obtain ⟨f₀, hf₀, hsignal, -⟩ := blk.exists_find_signal hffs hreg
    have hsome : (ffs.find? fun f => f.q = sig.getD t 0).isSome :=
      find?_isSome.mpr ⟨f₀, hf₀, decide_eq_true (by rw [hq f₀ hf₀, hsignal])⟩
    obtain ⟨f, hf⟩ := Option.isSome_iff_exists.mp hsome
    rw [hf]
    dsimp only
    rw [(hfind hnet hf).1]
  · intro hreg hnet
    cases hf : ffs.find? fun f => f.q = sig.getD t 0 with
    | none => rfl
    | some f =>
      obtain ⟨rfl, hmem⟩ := hfind hnet hf
      exact absurd hmem hreg

theorem nets_drive_cases (ns : NetlistState) (hffs : ffs.map FlipFlop.signal = blk.registers) (i : Nat) :
    (ns.drive ffs).nets i = ns.nets i ∨ ∃ t ∈ blk.registers, (ns.drive ffs).nets i = (ns.clips t).q := by
  unfold NetlistState.drive
  dsimp only
  cases hf : ffs.find? fun f => f.q = i with
  | none => exact .inl rfl
  | some f => exact .inr ⟨f.signal, blk.signal_mem_registers hffs (mem_of_find?_eq_some hf), rfl⟩

/-! ### One change -/

def IsInput (_ : ResetBlock b opt ff) (s : Nat) : Prop :=
  s < b.inst.mod.signalNames.length ∧ s ∉ Stmt.targets ff.roots ∧ b.constSignal s = none

variable {c : Bool}

theorem known_assignSignal (h : (st.get t).isUnknown = false) :
    ((st.assignSignal s (ofBool c)).1.get t).isUnknown = false := by
  rw [get_assignSignal]
  split_ifs
  · exact isUnknown_ofBool c
  · exact h

theorem netsHold_assignSignal (h : NetsHold b opt g sig ρ st) (hsig : SignalNets b g sig) (hs : blk.IsInput s)
    (c : Bool) :
    NetsHold b opt g sig (fun i => if i = sig.getD s 0 then ofBool c else ρ i) (st.assignSignal s (ofBool c)).1 := by
  refine ⟨fun i => ?_, ?_, fun t v hv => ?_, fun v hv => ?_, fun t ht hnet => ?_⟩
  · split_ifs
    · cases c <;> exact LogicT.noConfusion
    · exact h.ne_Z i
  · rw [(sameBut_assignSignal st s _).length, h.length]
  · have hne : t ≠ s := by
      rintro rfl
      rw [hs.2.2] at hv
      cases hv
    rw [get_assignSignal, if_neg (fun hboth => hne hboth.1), h.consts t v hv]
  · rw [values_assignSignal] at hv
    rcases mem_or_eq_of_mem_set hv with hv | rfl
    · exact h.fine v hv
    · exact fine_of_known (isUnknown_ofBool c)
  · rw [get_assignSignal]
    by_cases hts : t = s
    · subst hts
      rw [if_pos rfl, if_pos ⟨rfl, by rw [h.length]; exact ht⟩]
    · rw [if_neg fun heq => hts (hsig.inj t ht s hs.1 heq hnet), if_neg (fun hboth => hts hboth.1)]
      exact h.nets t ht hnet

theorem frame_runFf (st : ModuleState) :
    StateFrame (fun t => t ∈ Stmt.targets ff.roots) (fun _ => True) st
      (runAlwaysFfs b.inst.mod tick [(ff, 0)] st).1 := by
  refine frame_runAlwaysFfs ?_ (fun _ _ _ _ => trivial) st
  intro ff' hff' t ht
  rw [mem_singleton.mp hff'] at ht
  exact Stmt.targets_of_immediate ht

theorem get_simulateChange_of_input (hq : st.nbaQueue = []) (ht : t ∉ Stmt.targets ff.roots) :
    (simulateChange b.inst.mod ff tick s v st).get t = (st.assignSignal s v).1.get t := by
  have hq₁ : (st.assignSignal s v).1.nbaQueue = [] := by rw [(sameBut_assignSignal st s v).nbaQueue, hq]
  refine (get_applyNba_of_frame (frame_runFf (st.assignSignal s v).1) ht).trans ?_
  rw [ModuleState.get, values_applyNba_of_queue hq₁]
  rfl

theorem length_simulateChange :
    (simulateChange b.inst.mod ff tick s v st).values.length = st.values.length := by
  have hrun : (runAlwaysFfs b.inst.mod tick [(ff, 0)] (st.assignSignal s v).1).1.values.length = st.values.length := by
    rw [(frame_runFf (st.assignSignal s v).1).length, (sameBut_assignSignal st s v).length]
  exact (sameBut_assignAll _ _).length.trans hrun

theorem exists_drive (ns : NetlistState) (g : GateNet) (ffs : List FlipFlop) (n : Nat) (v : LogicT) :
    ∃ mid : NetlistState, ns.change g ffs n v = mid.drive ffs ∧ (mid.nets = fun i => if i = n then v else ns.nets i) ∧
      mid.clips = (ns.change g ffs n v).clips :=
  ⟨_, rfl, rfl, rfl⟩

theorem clips_change (hffs : ffs.map FlipFlop.signal = blk.registers) {n : Nat} (ht : t ∈ blk.registers) :
    ∃ f ∈ ffs, f.signal = t ∧ (ns.change g' ffs n v).clips t =
      f.updated (g'.value fun i => if i = n then v else ns.nets i) (ns.clips t) := by
  obtain ⟨f, hf, hsignal, hfind⟩ := blk.exists_find_signal hffs ht
  refine ⟨f, hf, hsignal, ?_⟩
  unfold NetlistState.change NetlistState.drive
  dsimp only
  rw [hfind]

/-- What a change leaves in the flip-flop of a register. -/
structure Stepped (st₁ st₂ : ModuleState) (clip' : Clip) (t : Nat) : Prop where
  q : clip'.q = st₂.get t
  lastClk : clip'.lastClk = blk.clkLevel (st₁.get blk.clk)
  resetValue : ∀ c ∈ blk.resets.getD t none, clip'.resetValue = c
  fine : Fine opt (st₂.get t)
  reset : blk.active st₁ = true → ∀ c ∈ blk.resets.getD t none, st₂.get t = c

theorem stepped_change (hsig : SignalNets b g sig) (hsynth : synthFlipFlops b opt ff sig g = some (ffs, g'))
    (h : blk.Synced g sig ns st) (hold : blk.HoldsReset st) (hs : blk.IsInput s) {t : Nat} (ht : t ∈ blk.registers) :
    blk.Stepped (st.assignSignal s (ofBool c)).1 (simulateChange b.inst.mod ff tick s (ofBool c) st)
      ((ns.change g' ffs (sig.getD s 0) (ofBool c)).clips t) t := by
  generalize hst₁ : (st.assignSignal s (ofBool c)).1 = st₁
  have hnets := blk.netsHold_assignSignal h.nets hsig hs c
  rw [hst₁] at hnets
  generalize hρ : (fun i => if i = sig.getD s 0 then ofBool c else ns.nets i) = ρ at hnets
  have hclk₁ : (st₁.get blk.clk).isUnknown = false := hst₁ ▸ known_assignSignal h.clk
  have hrst₁ : (st₁.get blk.rst).isUnknown = false := hst₁ ▸ known_assignSignal h.rst
  obtain ⟨ffs', g'', heq, -, hffs, hfits⟩ :=
    blk.gives_synthFlipFlops hnets.ne_Z (hnets.nodes hsig) (hnets.valuesOf hsig) hrst₁
  obtain ⟨rfl, rfl⟩ : ffs = ffs' ∧ g' = g'' := by simpa using hsynth.symm.trans heq
  obtain ⟨f, hf, rfl, hclips⟩ := blk.clips_change (v := ofBool c) (n := sig.getD s 0) hffs ht
  rw [hρ] at hclips
  obtain ⟨log, st', hrun, hord⟩ := blk.runs st₁ hnets.length hnets.fine
  have hfit := hfits f hf
  obtain ⟨hlt, htarget⟩ := blk.mem_registers.mp ht
  -- the update of the flip-flop
  obtain ⟨now, hnow⟩ := exists_ofBool hclk₁
  obtain ⟨level, hlevel⟩ := blk.clkLevel_ofBool now
  have hpin : g'.value ρ f.clk = ofBool level := by rw [hfit.clk, hnow, hlevel]
  have hedge : (ns.clips f.signal).risingEdge (ofBool level) =
      edge blk.clkRises (st.get blk.clk) (st₁.get blk.clk) := by
    rw [← hlevel, ← hnow]
    exact blk.risingEdge_eq (h.lastClk _ ht) h.clk hclk₁
  rw [FlipFlop.updated_of_level hpin, hedge] at hclips
  -- the register of the simulator
  have hprev : st₁.prevValues = st.values := by rw [← hst₁, (sameBut_assignSignal st s _).prevValues, h.prev]
  have hfires := blk.fires_eq hnets.length hprev h.nets.length
  have hget : (simulateChange b.inst.mod ff tick s (ofBool c) st).get f.signal = _ :=
    get_simulateChange h.queue hst₁ hrun hord (by rw [hnets.length]; exact hlt)
  rw [hfires] at hget
  have hsame : st₁.get f.signal = st.get f.signal := by
    rw [← hst₁, get_assignSignal, if_neg]
    rintro ⟨rfl, -⟩
    exact hs.2.1 htarget
  have hnext := blk.nextQ_eq hnets h.rst hrst₁ hold hfit ht hsame (h.q _ ht) (h.resetValue _ ht) hrun
  rw [← hget] at hnext
  refine ⟨?_, ?_, ?_, ?_, fun hactive c' hc' => ?_⟩
  · rw [hclips]
    exact hnext
  · rw [hclips, hnow, hlevel]
  · rw [hclips]
    exact h.resetValue _ ht
  · rw [hget, ← hfit.d log st' hrun]
    split_ifs
    · exact hfit.fine
    · exact hnets.fine_get hlt
  · have hresets := hfit.resets
    rw [Option.mem_def.mp hc'] at hresets
    obtain ⟨a, harst, rfl⟩ := Option.map_eq_some_iff.mp hresets
    have hlow : g'.value ρ a.1 = .L := by
      rw [hfit.arst a harst, hactive]
      rfl
    rw [← hnext, FlipFlop.nextQ_of_reset harst hlow, h.resetValue _ ht _ hc']

theorem synced_change (hsig : SignalNets b g sig) (hsynth : synthFlipFlops b opt ff sig g = some (ffs, g'))
    (h : blk.Synced g sig ns st) (hold : blk.HoldsReset st) (hs : blk.IsInput s) (c : Bool) (tick : UInt64) :
    blk.Synced g sig (ns.change g' ffs (sig.getD s 0) (ofBool c)) (simulateChange b.inst.mod ff tick s (ofBool c) st) ∧
      blk.HoldsReset (simulateChange b.inst.mod ff tick s (ofBool c) st) := by
  generalize hst₂ : simulateChange b.inst.mod ff tick s (ofBool c) st = st₂
  have hstep {t : Nat} (ht : t ∈ blk.registers) : blk.Stepped (st.assignSignal s (ofBool c)).1 st₂
      ((ns.change g' ffs (sig.getD s 0) (ofBool c)).clips t) t := by
    rw [← hst₂]
    exact blk.stepped_change hsig hsynth h hold hs ht
  have hinput {t : Nat} (ht : t ∉ Stmt.targets ff.roots) : st₂.get t = (st.assignSignal s (ofBool c)).1.get t := by
    rw [← hst₂]
    exact get_simulateChange_of_input h.queue ht
  have hnets := blk.netsHold_assignSignal h.nets hsig hs c
  have hlength : st₂.values.length = b.inst.mod.signalNames.length := by
    rw [← hst₂, length_simulateChange, h.nets.length]
  have hactive : blk.active st₂ = blk.active (st.assignSignal s (ofBool c)).1 := by
    rw [active, active, hinput blk.rst_input]
  obtain ⟨hffs, hq⟩ : ffs.map FlipFlop.signal = blk.registers ∧ ∀ f ∈ ffs, f.q = sig.getD f.signal 0 := by
    obtain ⟨ffs', g'', heq, -, hffs, hfits⟩ :=
      blk.gives_synthFlipFlops h.nets.ne_Z (h.nets.nodes hsig) (h.nets.valuesOf hsig) h.rst
    obtain ⟨rfl, rfl⟩ : ffs = ffs' ∧ g' = g'' := by simpa using hsynth.symm.trans heq
    exact ⟨hffs, fun f hf => (hfits f hf).q⟩
  have hfine {t : Nat} (ht : t < b.inst.mod.signalNames.length) : Fine opt (st₂.get t) := by
    by_cases hreg : t ∈ blk.registers
    · exact (hstep hreg).fine
    · rw [hinput fun htarget => hreg (blk.mem_registers.mpr ⟨ht, htarget⟩)]
      exact hnets.fine_get ht
  obtain ⟨mid, hdrive, hmid, hclips⟩ := exists_drive ns g' ffs (sig.getD s 0) (ofBool c)
  refine ⟨⟨⟨fun i => ?_, hlength, fun t v hv => ?_, fun v hv => ?_, fun t ht hnet => ?_⟩, ?_, ?_, ?_, ?_, ?_, ?_, ?_⟩,
    ?_⟩
  · rcases blk.nets_drive_cases mid hffs i with hnet | ⟨t, ht, hnet⟩
    · rw [hdrive, hnet, hmid]
      exact hnets.ne_Z i
    · rw [hdrive, hnet, hclips, (hstep ht).q]
      exact (hstep ht).fine.1
  · have hnot : t ∉ Stmt.targets ff.roots := by
      intro htarget
      rw [blk.unassigned t htarget] at hv
      cases hv
    rw [hinput hnot]
    exact hnets.consts t v hv
  · obtain ⟨t, ht, rfl⟩ := mem_iff_getElem.mp hv
    rw [← getD_eq_getElem _ .X ht]
    exact hfine (hlength ▸ ht)
  · rw [hdrive]
    by_cases hreg : t ∈ blk.registers
    · rw [(blk.nets_drive mid hsig hffs hq ht).1 hreg, hclips, (hstep hreg).q]
    · rw [(blk.nets_drive mid hsig hffs hq ht).2 hreg hnet, hmid, hinput fun htarget =>
        hreg (blk.mem_registers.mpr ⟨ht, htarget⟩)]
      exact hnets.nets t ht hnet
  · rw [← hst₂]
    rfl
  · rw [← hst₂]
    rfl
  · rw [hinput blk.clk_input]
    exact known_assignSignal h.clk
  · rw [hinput blk.rst_input]
    exact known_assignSignal h.rst
  · exact fun t ht => (hstep ht).q
  · intro t ht
    rw [(hstep ht).lastClk, hinput blk.clk_input]
  · exact fun t ht => (hstep ht).resetValue
  · intro hact t ht
    exact (hstep ht).reset (hactive ▸ hact)

end

end ResetBlock

structure InputChange where
  tick : UInt64
  signal : Nat
  level : Bool
  deriving DecidableEq

def NetlistState.run (g : GateNet) (ffs : List FlipFlop) (sig : List Nat) (cs : List InputChange)
    (ns : NetlistState) : NetlistState :=
  cs.foldl (fun ns c => ns.change g ffs (sig.getD c.signal 0) (ofBool c.level)) ns

def simulateRun (m : CompiledModule) (ff : AlwaysFf) (cs : List InputChange) (st : ModuleState) : ModuleState :=
  cs.foldl (fun st c => simulateChange m ff c.tick c.signal (ofBool c.level) st) st

theorem ResetBlock.synced_run {b : InstanceBuilder} {opt : StmtOptions} {ff : AlwaysFf} (blk : ResetBlock b opt ff)
    {g g' : GateNet} {sig : List Nat} {ffs : List FlipFlop} (hsig : SignalNets b g sig)
    (hsynth : synthFlipFlops b opt ff sig g = some (ffs, g')) {cs : List InputChange}
    (hcs : ∀ c ∈ cs, blk.IsInput c.signal) {ns : NetlistState} {st : ModuleState} (h : blk.Synced g sig ns st)
    (hold : blk.HoldsReset st) : blk.Synced g sig (ns.run g' ffs sig cs) (simulateRun b.inst.mod ff cs st) := by
  induction cs generalizing ns st with
  | nil => exact h
  | cons c cs ih =>
    rw [forall_mem_cons] at hcs
    obtain ⟨hstep, hreset⟩ := blk.synced_change hsig hsynth h hold hcs.1 c.level c.tick
    exact ih hcs.2 hstep hreset

/-- The flip-flops of a block with a clock edge and then a reset edge. From a state with the reset
inactive, in which they hold the registers and have seen the clock, they hold the registers after
every change of an input. -/
theorem flipFlops_follow {b : InstanceBuilder} {opt : StmtOptions} {ff : AlwaysFf} (blk : ResetBlock b opt ff)
    {g : GateNet}
    {sig : List Nat} (hsig : SignalNets b g sig) {ns : NetlistState} {st : ModuleState}
    (hstart : blk.Synced g sig ns st)
    (hinactive : blk.active st = false) :
    ∃ ffs g', synthFlipFlops b opt ff sig g = some (ffs, g') ∧
      ∀ cs : List InputChange, (∀ c ∈ cs, blk.IsInput c.signal) → ∀ s ∈ Stmt.targets ff.roots,
        s < b.inst.mod.signalNames.length →
          ((ns.run g' ffs sig cs).clips s).q = (simulateRun b.inst.mod ff cs st).get s := by
  obtain ⟨ffs, g', hsynth, -, -⟩ :=
    blk.gives_synthFlipFlops hstart.nets.ne_Z (hstart.nets.nodes hsig) (hstart.nets.valuesOf hsig) hstart.rst
  refine ⟨ffs, g', hsynth, fun cs hcs s hs hlt => ?_⟩
  have hold : blk.HoldsReset st := by
    intro hactive
    rw [hinactive] at hactive
    cases hactive
  exact (blk.synced_run hsig hsynth hcs hstart hold).q s (blk.mem_registers.mpr ⟨hlt, hs⟩)

def resetModule : CompiledModule where
  signalNames := ["rst_n", "clk", "d", "q", "r"]
  signalIsReg := [false, false, false, true, true]
  ports := [⟨"rst_n", .input, 0⟩, ⟨"clk", .input, 1⟩, ⟨"d", .input, 2⟩, ⟨"q", .output, 3⟩, ⟨"r", .output, 4⟩]
  exprNodes := [.signal 0, .unaryNot 0, .literal .L, .signal 2]

/-- `if (!rst_n) q <= 0; else begin q <= d; r <= d; end` -/
def resetFf (events : List SensitivityEvent) : AlwaysFf where
  events
  roots := [.ifStmt 1 [.assign { nonblocking := true, lhs := [3], rhs := [2] }]
    [.block [.assign { nonblocking := true, lhs := [3], rhs := [3] },
      .assign { nonblocking := true, lhs := [4], rhs := [3] }]]]

def resetStart : ModuleState := { values := [.H, .L, .H, .L, .L], prevValues := [.H, .L, .H, .L, .L] }

def resetBuilder : InstanceBuilder where
  inst := { mod := resetModule, state := resetStart }
  sigNodes := [some 0, some 1, some 2, some 3, some 4]

def resetNets : GateNet where
  nodes := [.net, .net, .net, .net, .net]
  const_iff v i := by
    rcases i with _ | _ | _ | _ | _ | i <;> simp

/-- The nets have the values of the signals. The flip-flops are low and have seen a low clock. -/
def resetNetState : NetlistState where
  nets := fun i => resetStart.values.getD i .X
  clips := fun _ => {}

theorem ordered_of_nonblocking {log : List Write} (h : ∀ w ∈ log, w.nonblocking = true) (s : Nat) : Ordered s log :=
  pairwise_of_forall_mem_list fun _ _ w hw _ _ _ => h w hw

theorem nonblocking_logged {m : CompiledModule} {a : Assign} {st : ModuleState} (ha : a.nonblocking = true) :
    ∀ w ∈ a.logged m st, w.nonblocking = true := by
  intro w hw
  unfold Assign.logged at hw
  split_ifs at hw
  · cases hw
  · obtain ⟨e, -, rfl⟩ := mem_map.mp hw
    exact ha

def clockFirst : ResetBlock resetBuilder {} (resetFf [⟨.posedge, 1⟩, ⟨.negedge, 0⟩]) where
  clk := 1
  rst := 0
  clkRises := true
  rstRises := false
  cond := 1
  one := false
  ts := [.assign { nonblocking := true, lhs := [3], rhs := [2] }]
  es := [.block [.assign { nonblocking := true, lhs := [3], rhs := [3] },
    .assign { nonblocking := true, lhs := [4], rhs := [3] }]]
  resets := [none, none, none, some .L, none]
  events := rfl
  body := rfl
  constant := by decide +kernel
  reads := .inl (by decide)
  plain := by decide
  runs st _ _ := by
    cases hcond : holds resetModule 1 st with
    | true =>
      refine ⟨_, _, .cons (.ifThen hcond (.cons (.assign rfl) .nil)) .nil, ordered_of_nonblocking ?_⟩
      simp only [List.append_nil]
      exact nonblocking_logged rfl
    | false =>
      refine ⟨_, _, .cons (.ifElse hcond (.cons (.block (.cons (.assign rfl) (.cons (.assign rfl) .nil))) .nil)) .nil,
        ordered_of_nonblocking ?_⟩
      simp only [List.append_nil, List.forall_mem_append]
      exact ⟨nonblocking_logged rfl, nonblocking_logged rfl⟩
  isReg := by decide
  unassigned := by decide
  clk_lt := by decide
  rst_lt := by decide
  clk_ne_rst := by decide
  clk_input := by decide
  rst_input := by decide

theorem signalNets_resetNets : SignalNets resetBuilder resetNets [0, 1, 2, 3, 4] where
  length := rfl
  node s hs := .inl (by revert s; decide)
  inj := by decide

theorem synced_clockFirst : clockFirst.Synced resetNets [0, 1, 2, 3, 4] resetNetState resetStart where
  nets := {
    ne_Z i := by
      change [H, L, H, L, L].getD i X ≠ Z
      rcases i with _ | _ | _ | _ | _ | i <;> simp
    length := rfl
    consts := resetBuilder.keepsConsts_self
    fine := by
      intro v hv
      refine fine_of_known ?_
      revert v
      decide
    nets := by decide }
  prev := rfl
  queue := rfl
  clk := rfl
  rst := rfl
  q := by decide
  lastClk := by decide
  resetValue := by decide

theorem flipFlops_follow_clockFirst :
    ∃ ffs g', synthFlipFlops resetBuilder {} (resetFf [⟨.posedge, 1⟩, ⟨.negedge, 0⟩]) [0, 1, 2, 3, 4] resetNets =
        some (ffs, g') ∧
      ∀ cs : List InputChange, (∀ c ∈ cs, clockFirst.IsInput c.signal) → ∀ s ∈ Stmt.targets
        (resetFf [⟨.posedge, 1⟩, ⟨.negedge, 0⟩]).roots, s < resetBuilder.inst.mod.signalNames.length →
          ((resetNetState.run g' ffs [0, 1, 2, 3, 4] cs).clips s).q =
            (simulateRun resetBuilder.inst.mod (resetFf [⟨.posedge, 1⟩, ⟨.negedge, 0⟩]) cs resetStart).get s :=
  flipFlops_follow clockFirst signalNets_resetNets synced_clockFirst rfl

/-- `always_ff @(negedge rst_n or posedge clk)`: after a rising edge of `clk` the simulator has a
high `q`, but the flip-flop is clocked by `rst_n`. -/
theorem resetFirst_differs :
    ((synthFlipFlops resetBuilder {} (resetFf [⟨.negedge, 0⟩, ⟨.posedge, 1⟩]) [0, 1, 2, 3, 4] resetNets).map fun r =>
        ((resetNetState.run r.2 r.1 [0, 1, 2, 3, 4] [⟨1, 1, true⟩]).clips 3).q) = some .L ∧
      (simulateRun resetBuilder.inst.mod (resetFf [⟨.negedge, 0⟩, ⟨.posedge, 1⟩]) [⟨1, 1, true⟩] resetStart).get 3 =
        .H := by
  decide +kernel

end PhyEngine.Verilog
