import PhyEngine.Verilog.ClockEdges
import PhyEngine.Verilog.Resolution

/-!
# Nets that inout ports share

An inout port of a child is bound twice: the parent writes its net to the port, and the port
drives the net. A port with a driver inside is resolved from these drivers alone; one without
drives the old value of the net back into it.
-/

namespace PhyEngine.Verilog

open ModuleState InstanceNode List RoseTree

/-! ## The nets -/

structure PlainWire (n : InstanceNode) (s : Nat) : Prop where
  lt : s < n.state.values.length
  net : n.mod.isReg s = false
  ff : s ∉ n.mod.ffTargets
  initial : s ∉ n.mod.initialTargets
  urandom : s ∉ n.mod.urandomTargets
  comb : s ∉ n.mod.combTargets

/-- The port that drives the net `w` of the parent is an inout port: the parent writes `w` to
it too. Inside, only continuous assignments that read signals of `K` drive it. -/
structure InoutPort (K : SignalSets) (w : Nat) (c : InstanceState) (d : PortDrive) : Prop where
  signal : d.srcIsLiteral = false
  wire : PlainWire c.value d.childSignal
  alone : d.childSignal ∉ driveTargets c.children
  bound : (d.childSignal, PortBinding.parentSignal w) ∈ c.value.inputBindings
  only : ∀ b ∈ c.value.inputBindings, b.1 = d.childSignal → b.2 = .parentSignal w
  held : ∀ a ∈ c.value.mod.assigns, a.lhsSignal = d.childSignal → ∀ r ∈ a.reads c.value.mod, K [] r

/-- `w` is a net of the instance that continuous assignments and inout ports of children
drive, and these assignments read signals of `K` only. -/
structure InoutNet (K : SignalSets) (w : Nat) (t : InstanceState) : Prop where
  wire : PlainWire t.value w
  inner : ∀ b ∈ t.value.inputBindings, b.1 ≠ w
  driven : w ∈ driveTargets t.children ++ t.value.mod.assignTargets
  held : ∀ a ∈ t.value.mod.assigns, a.lhsSignal = w → ∀ r ∈ a.reads t.value.mod, K [] r
  ports : ∀ (j : Nat) c, t.children[j]? = some c → ∀ d ∈ c.value.outputDrives, d.parentSignal = w →
    InoutPort (K.child j) w c d

def inoutPorts (c : InstanceNode) (w : Nat) : List Nat :=
  (c.outputDrives.filter fun d => d.parentSignal = w).map (·.childSignal)

variable (t : InstanceState)

variable (w : Nat)

/-- The contributions of all drivers of the net `w`: the assignments in the parent and those
in the children to the ports on the net. -/
def netDrivers : List LogicT :=
  ownDrives t.value w ++ t.children.flatMap fun c => (inoutPorts c.value w).flatMap (ownDrives c.value)

def Undriven : Prop :=
  ∃ c ∈ t.children, ∃ p ∈ inoutPorts c.value w, p ∉ c.value.mod.assignTargets

instance (t : InstanceState) (w : Nat) : Decidable (Undriven t w) :=
  inferInstanceAs (Decidable (∃ c ∈ t.children, ∃ p ∈ inoutPorts c.value w, p ∉ c.value.mod.assignTargets))

/-- What the net becomes: its old value takes part where a port has no driver inside. -/
def netValue (old : LogicT) : LogicT :=
  if Undriven t w then resolveNetDrivers old (joined (netDrivers t w)) else joined (netDrivers t w)

variable {c u : InstanceState} {p s j : Nat} {n n' : InstanceNode} {cs : List InstanceState}

theorem mem_inoutPorts {c : InstanceNode} {w : Nat} :
    p ∈ inoutPorts c w ↔ ∃ d ∈ c.outputDrives, d.parentSignal = w ∧ d.childSignal = p := by
  rw [inoutPorts, mem_map]
  simp only [mem_filter, decide_eq_true_eq, and_assoc]

section SameDesign

variable {K : SignalSets} {w : Nat} {t t' : InstanceState}

theorem PlainWire.of_static (h : PlainWire n s) (hstatic : SameStatic n n') : PlainWire n' s := by
  obtain ⟨lt, net, ff, initial, urandom, comb⟩ := h
  rw [← hstatic.mod] at net ff initial urandom comb
  rw [← hstatic.length] at lt
  exact ⟨lt, net, ff, initial, urandom, comb⟩

theorem InoutPort.of_sameDesign {c' : InstanceState} {d : PortDrive} (h : InoutPort K w c d) (hsame : SameDesign c c') :
    InoutPort K w c' d := by
  have hstatic := hsame.value
  have hbindings := inputBindings_congr hstatic
  obtain ⟨n, cs⟩ := c
  obtain ⟨n', cs'⟩ := c'
  refine ⟨h.signal, h.wire.of_static hstatic, ?_, hbindings ▸ h.bound, hbindings ▸ h.only, ?_⟩
  · rw [children_node, hsame.driveTargets]
    exact h.alone
  · rw [hstatic.mod]
    exact h.held

theorem InoutNet.of_sameDesign (h : InoutNet K w t) (hsame : SameDesign t t') : InoutNet K w t' := by
  have hstatic := hsame.value
  obtain ⟨n, cs⟩ := t
  obtain ⟨n', cs'⟩ := t'
  refine ⟨h.wire.of_static hstatic, inputBindings_congr hstatic ▸ h.inner, ?_, ?_, ?_⟩
  · rw [children_node, hsame.driveTargets, hstatic.mod]
    exact h.driven
  · rw [hstatic.mod]
    exact h.held
  · intro j c' hc' d hd hw
    obtain ⟨c, hc, hcc⟩ := hsame.exists_child hc'
    exact (h.ports j c hc d (hcc.value.outputDrives ▸ hd) hw).of_sameDesign hcc

theorem InoutNet.get_enter (h : InoutNet K w t) (parent : InstanceNode) :
    (propagateParentToChild parent t.value).1.get w = t.value.get w := by
  have hmem : w ∉ (portWrites parent t.value).map Prod.fst := by
    intro hmem
    obtain ⟨x, hx, hxw⟩ := mem_map.mp hmem
    obtain ⟨b, hb, rfl⟩ := mem_map.mp hx
    exact h.inner b hb hxw
  rw [get_propagateParentToChild, if_pos h.wire.lt, written_of_not_mem hmem]

theorem Marked.of_sameDesign (h : Marked t) (hsame : SameDesign t t') : Marked t' := by
  induction h generalizing t' with
  | @node n cs marked children ih =>
    obtain ⟨n', cs'⟩ := t'
    have hstatic : SameStatic n n' := hsame.value
    refine .node ?_ fun j c' hc' => ?_
    · rw [hsame.driveTargets, hstatic.mod, hstatic.length]
      intro s hs hlt hreg
      rw [hstatic.isDriven]
      exact marked s hs hlt hreg
    · obtain ⟨c, hc, hcc⟩ := hsame.exists_child hc'
      exact ih j c hc hcc

end SameDesign

structure HeldSame (K : SignalSets) (t t' : InstanceState) : Prop where
  root : ∀ s, K [] s → t'.value.get s = t.value.get s
  kids : ∀ (j : Nat) c c', t.children[j]? = some c → t'.children[j]? = some c' →
    ∀ s, K [j] s → c'.value.get s = c.value.get s

section HeldSame

variable {K : SignalSets} {w : Nat} {t t' : InstanceState}

theorem HeldSame.trans (h : HeldSame K t t') (h' : HeldSame K t' u) (hsame : SameDesign t t') :
    HeldSame K t u := by
  refine ⟨fun s hs => (h'.root s hs).trans (h.root s hs), fun j c c'' hc hc'' s hs => ?_⟩
  obtain ⟨n, cs⟩ := t
  obtain ⟨n', cs'⟩ := t'
  obtain ⟨c', hc', -⟩ := hsame.symm.exists_child hc
  exact (h'.kids j c' c'' hc' hc'' s hs).trans (h.kids j c c' hc hc' s hs)

theorem InoutNet.ownDrives_port (h : InoutNet K w t) (hsame : SameDesign t t') (hheld : HeldSame K t t')
    {c' : InstanceState} (hc : t.children[j]? = some c) (hc' : t'.children[j]? = some c')
    (hp : p ∈ inoutPorts c.value w) : ownDrives c'.value p = ownDrives c.value p := by
  obtain ⟨d, hd, hw, rfl⟩ := mem_inoutPorts.mp hp
  obtain ⟨n, cs⟩ := t
  obtain ⟨n', cs'⟩ := t'
  obtain ⟨c₀, hc₀, hcc⟩ := hsame.exists_child hc'
  cases hc.symm.trans hc₀
  have hport := h.ports j c hc d hd hw
  exact ownDrives_congr hcc.value.mod fun a ha hs r hr => hheld.kids j c c' hc hc' r (hport.held a ha hs r hr)

theorem inoutPorts_congr (h : SameStatic n n') (w : Nat) : inoutPorts n' w = inoutPorts n w := by
  rw [inoutPorts, inoutPorts, h.outputDrives]

theorem InoutNet.netDrivers_congr (h : InoutNet K w t) (hsame : SameDesign t t') (hheld : HeldSame K t t') :
    netDrivers t' w = netDrivers t w := by
  have hroot : ownDrives t'.value w = ownDrives t.value w :=
    ownDrives_congr hsame.value.mod fun a ha hs r hr => hheld.root r (h.held a ha hs r hr)
  have hkids : t'.children.map (fun c => (inoutPorts c.value w).flatMap (ownDrives c.value)) =
      t.children.map fun c => (inoutPorts c.value w).flatMap (ownDrives c.value) := by
    have hlen : t'.children.length = t.children.length := by
      obtain ⟨_, length, _⟩ := hsame
      exact length
    refine ext_getElem? fun j => ?_
    rw [getElem?_map, getElem?_map]
    cases hc : t.children[j]? with
    | none =>
      have hc' : t'.children[j]? = none := by
        rw [List.getElem?_eq_none_iff] at hc ⊢
        omega
      rw [hc']
    | some c =>
      have hj : j < t'.children.length := by
        rw [hlen]
        exact (List.getElem?_eq_some_iff.mp hc).1
      have hc' : t'.children[j]? = some t'.children[j] := getElem?_eq_getElem hj
      have hstatic : SameStatic c.value (t'.children[j]).value := by
        obtain ⟨_, _, children⟩ := hsame
        exact (children j c _ hc hc').value
      rw [hc', Option.map_some, Option.map_some, inoutPorts_congr hstatic]
      congr 1
      refine flatMap_congr fun p hp => ?_
      exact h.ownDrives_port hsame hheld hc hc' hp
  rw [netDrivers, netDrivers, hroot, flatMap_def, flatMap_def, hkids]

theorem undriven_of_sameDesign (hsame : SameDesign t t') (h : Undriven t w) : Undriven t' w := by
  obtain ⟨c, hmem, p, hp, hown⟩ := h
  obtain ⟨n, cs⟩ := t
  obtain ⟨n', cs'⟩ := t'
  obtain ⟨j, hc⟩ := mem_iff_getElem?.mp hmem
  obtain ⟨c', hc', hcc⟩ := hsame.symm.exists_child hc
  refine ⟨c', List.mem_of_getElem? hc', p, ?_, ?_⟩
  · rw [inoutPorts_congr hcc.symm.value]
    exact hp
  · rw [hcc.symm.value.mod]
    exact hown

theorem InoutNet.netValue_congr (h : InoutNet K w t) (hsame : SameDesign t t') (hheld : HeldSame K t t')
    (old : LogicT) :
    netValue t' w old = netValue t w old := by
  have hundriven : Undriven t' w ↔ Undriven t w := ⟨undriven_of_sameDesign hsame.symm, undriven_of_sameDesign hsame⟩
  rw [netValue, netValue, h.netDrivers_congr hsame hheld]
  exact if_congr hundriven rfl rfl

theorem netValue_netValue (t : InstanceState) (w : Nat) (old : LogicT) :
    netValue t w (netValue t w old) = netValue t w old := by
  unfold netValue
  split_ifs
  · generalize joined (netDrivers t w) = r
    cases old <;> cases r <;> rfl
  · rfl

end HeldSame

/-! ## States of the settle loop -/

structure InoutState (K : SignalSets) (w : Nat) (t : InstanceState) : Prop where
  steady : Steady K t
  ports : InoutNet K w t
  marked : Marked t
  idle : ∀ s, s = w ∨ K [] s → ¬ Queued t.value s
  idleKids : ∀ (j : Nat) c, t.children[j]? = some c → ∀ s, s ∈ inoutPorts c.value w ∨ K [j] s → ¬ Queued c.value s

namespace InoutState

variable {K : SignalSets} {w : Nat} {t t' : InstanceState}

theorem net (h : InoutState K w t) : NetState K w t := by
  have hmarked := h.marked
  obtain ⟨n, cs⟩ := t
  obtain ⟨lt, net, -, -, -, comb⟩ := h.ports.wire
  refine ⟨h.steady, ?_, comb, h.ports.held, h.idle⟩
  obtain ⟨marked, _⟩ := hmarked
  have hdriven : n.isDriven w = true := marked w h.ports.driven lt net
  rw [value_node] at lt net ⊢
  simp only [InstanceNode.resolved, lt, net, hdriven, decide_true, Bool.not_false, Bool.and_self]

theorem of_kept (h : InoutState K w t) (hk : Kept K t t') : InoutState K w t' ∧ HeldSame K t t' := by
  have hsame := hk.sameDesign
  have hroot : ∀ s, K [] s → t'.value.get s = t.value.get s := fun s hs =>
    (hk.get_value s hs).trans (get_applyNba_of_not_queued (h.idle s (Or.inr hs)))
  refine ⟨⟨h.steady.of_kept hk, h.ports.of_sameDesign hsame, h.marked.of_sameDesign hsame, ?_, ?_⟩, hroot, ?_⟩
  · intro s _
    obtain ⟨_, _, empty, _, _, _, _⟩ := hk
    exact not_queued_of_empty empty s
  · intro j c' hc' s _
    obtain ⟨_, children⟩ := Idle.of_kept hk
    cases children j c' hc' with
    | node empty _ => exact not_queued_of_empty empty s
  · intro j c c' hc hc' s hs
    obtain ⟨_, _, _, _, _, _, children⟩ := hk
    have hkid := (children j c c' hc hc').get_value s hs
    exact hkid.trans (get_applyNba_of_not_queued (h.idleKids j c hc s (Or.inr hs)))

theorem of_root (h : InoutState K w (.node n cs)) (static : SameStatic n n')
    (hnba : n'.state.nbaQueue = n.state.nbaQueue) (hget : ∀ q, K [] q → n'.get q = n.get q) :
    InoutState K w (.node n' cs) ∧ HeldSame K (.node n cs) (.node n' cs) := by
  have hsame : SameDesign (.node n cs) (.node n' cs) := sameDesign_withValue static
  refine ⟨⟨h.steady.of_root static hnba hget, h.ports.of_sameDesign hsame, h.marked.of_sameDesign hsame, ?_,
    h.idleKids⟩, hget, ?_⟩
  · intro s hs
    rw [value_node, Queued, hnba]
    exact h.idle s hs
  · intro j c c' hc hc' s _
    cases hc.symm.trans hc'
    rfl

end InoutState

def SignalSets.insert (K : SignalSets) (s : Nat) : SignalSets := fun p q => K p q ∨ p = [] ∧ q = s

theorem Steady.insert {K : SignalSets} {t : InstanceState} (h : Steady K t) (hs : ¬ SettleTarget t.value t.children s) :
    Steady (K.insert s) t := by
  obtain ⟨n, cs⟩ := t
  have hkid (j q : Nat) (hq : K.insert s [j] q) : K [j] q := by
    rcases hq with hq | ⟨hp, -⟩
    · exact hq
    · cases hp
  obtain ⟨apart, driven, ports, inPlace, children⟩ := h
  refine .node ?_ driven ?_ ?_ ?_
  · intro q hq
    rcases hq with hq | ⟨-, rfl⟩
    · exact apart q hq
    · exact fun h => hs h.target
  · intro j c hc b hb hK
    obtain ⟨hidle, hreads⟩ := ports j c hc b hb (hkid j b.1 hK)
    exact ⟨hidle, fun r hr => ⟨Or.inl (hreads r hr).1, (hreads r hr).2⟩⟩
  · intro j c hc q hq hlt
    exact inPlace j c hc q (hkid j q hq) hlt
  · intro j c hc
    have hchild : (K.insert s).child j = K.child j := by
      funext p q
      simp [SignalSets.child, SignalSets.insert]
    rw [hchild]
    exact children j c hc

theorem written_of_agree {ws : List (Nat × LogicT)} {v : LogicT} (hall : ∀ w ∈ ws, w.1 = s → w.2 = v) {x : LogicT}
    (h : x = v ∨ s ∈ ws.map Prod.fst) : written ws s x = v := by
  induction ws generalizing x with
  | nil =>
    rcases h with h | h
    · exact h
    · cases h
  | cons w ws ih =>
    rw [written_cons]
    refine ih (fun w' hw' => hall w' (mem_cons_of_mem _ hw')) ?_
    by_cases hs : w.1 = s
    · rw [if_pos hs]
      exact Or.inl (hall w mem_cons_self hs)
    · rw [if_neg hs]
      refine h.imp_right fun hmem => ?_
      exact (mem_cons.mp hmem).resolve_left fun heq => hs heq.symm

namespace InoutState

variable {K : SignalSets} {w : Nat} {t t' : InstanceState}

/-- A port after its child is resolved: with a driver inside it is what the drivers inside
resolve to, and else what the parent has written. -/
theorem get_port (h : InoutState K w (.node n cs)) (tick : UInt64) {height : Nat}
    (hheight : (node n cs).height ≤ height + 1) (hc : cs[j]? = some c) (hp : p ∈ inoutPorts c.value w) :
    (combResolve tick height (c.withValue (propagateParentToChild n c.value).1)).1.value.get p =
      if p ∈ c.value.mod.assignTargets then joined (ownDrives c.value p) else n.get w := by
  obtain ⟨hsteady, hget⟩ := h.steady.enter hc
  have hidle := h.idleKids j c hc
  have hmarked : Marked c := by
    obtain ⟨_, children⟩ := h.marked
    exact children j c hc
  have hle : c.height ≤ height := by
    have hlt := height_lt_of_mem (a := n) (List.mem_of_getElem? hc)
    omega
  obtain ⟨d, hd, hw, rfl⟩ := mem_inoutPorts.mp hp
  have hport := h.ports.ports j c hc d hd hw
  obtain ⟨m, es⟩ := c
  have hstatic := static_propagateParentToChild n m
  have hnba := (sameBut_propagateParentToChild n m).nbaQueue
  have hqueued (s : Nat) (hs : s = d.childSignal ∨ K [j] s) : ¬ Queued (propagateParentToChild n m).1 s := by
    rw [Queued, hnba]
    rcases hs with rfl | hs
    · exact hidle _ (Or.inl hp)
    · exact hidle s (Or.inr hs)
  rw [value_node, withValue_node] at *
  split_ifs with hown
  · have hres : m.resolved d.childSignal = true := by
      obtain ⟨marked, _⟩ := hmarked
      have hdriven : m.isDriven d.childSignal = true :=
        marked _ (mem_append_right _ hown) hport.wire.lt hport.wire.net
      have hlt : d.childSignal < m.state.values.length := hport.wire.lt
      have hreg : m.mod.isReg d.childSignal = false := hport.wire.net
      simp only [InstanceNode.resolved, hlt, hreg, hdriven, decide_true, Bool.not_false, Bool.and_self]
    have hnet : NetState (K.child j) d.childSignal (.node (propagateParentToChild n m).1 es) := by
      refine ⟨hsteady, (resolved_congr hstatic _).trans hres, ?_, ?_, hqueued⟩
      · rw [value_node, hstatic.mod]
        exact hport.wire.comb
      · rw [value_node, hstatic.mod]
        exact hport.held
    have hown : ownDrives (propagateParentToChild n m).1 d.childSignal = ownDrives m d.childSignal :=
      ownDrives_congr hstatic.mod fun a ha hs r hr => hget r (hport.held a ha hs r hr)
    rw [← hown]
    exact hnet.get_combResolve hport.alone tick hle
  · have hapart : ¬ SettleTarget (propagateParentToChild n m).1 es d.childSignal := by
      rw [SettleTarget, hstatic.mod]
      rintro (hs | hs | hs)
      · exact hport.wire.comb hs
      · exact hown hs
      · exact hport.alone hs
    have hle' : (node (propagateParentToChild n m).1 es).height ≤ height := hle
    have hkept : Kept ((K.child j).insert d.childSignal) _
        (combResolve tick height (.node (propagateParentToChild n m).1 es)).1 :=
          kept_combResolve height hle' (hsteady.insert hapart)
    rw [hkept.get_value d.childSignal (Or.inr ⟨rfl, rfl⟩)]
    refine (get_applyNba_of_not_queued (hqueued d.childSignal (Or.inl rfl))).trans ?_
    have hlt : d.childSignal < m.state.values.length := hport.wire.lt
    rw [get_propagateParentToChild, if_pos hlt]
    refine written_of_agree ?_ (Or.inr ?_)
    · intro v hv hs
      obtain ⟨b, hb, rfl⟩ := mem_map.mp hv
      have hbound := hport.only b hb hs
      dsimp only
      rw [hbound]
      rfl
    · exact mem_map.mpr ⟨_, mem_map_of_mem hport.bound, rfl⟩

end InoutState

theorem mem_contributions_kids {kids : List InstanceState} {w : Nat}
    (h : ∀ c ∈ kids, ∀ d ∈ c.value.outputDrives, d.parentSignal = w →
      d.srcIsLiteral = false ∧ d.childSignal < c.value.state.values.length) {v : LogicT} :
    v ∈ contributions (kids.flatMap fun c => childWrites c.value) w ↔
      ∃ c ∈ kids, ∃ p ∈ inoutPorts c.value w, c.value.get p = v := by
  rw [contributions, mem_map]
  constructor
  · rintro ⟨x, hx, rfl⟩
    obtain ⟨hmem, hw⟩ := mem_filter.mp hx
    obtain ⟨c, hc, hxc⟩ := mem_flatMap.mp hmem
    obtain ⟨d, hd, hsource⟩ := mem_filterMap.mp hxc
    obtain ⟨v, hv, rfl⟩ := Option.map_eq_some_iff.mp hsource
    have hw : d.parentSignal = w := of_decide_eq_true hw
    obtain ⟨hsrc, hlt⟩ := h c hc d hd hw
    rw [source_eq hsrc hlt] at hv
    exact ⟨c, hc, d.childSignal, mem_inoutPorts.mpr ⟨d, hd, hw, rfl⟩, Option.some.inj hv⟩
  · rintro ⟨c, hc, p, hp, rfl⟩
    obtain ⟨d, hd, hw, rfl⟩ := mem_inoutPorts.mp hp
    obtain ⟨hsrc, hlt⟩ := h c hc d hd hw
    refine ⟨(w, c.value.get d.childSignal), mem_filter.mpr ⟨mem_flatMap.mpr ⟨c, hc, ?_⟩, decide_eq_true rfl⟩, rfl⟩
    exact mem_filterMap.mpr ⟨d, hd, by rw [source_eq hsrc hlt, hw]; rfl⟩

def PortsHold (v : LogicT) (t : InstanceState) : Prop :=
  ∀ c ∈ t.children, ∀ p ∈ inoutPorts c.value w,
    c.value.get p = if p ∈ c.value.mod.assignTargets then joined (ownDrives c.value p) else v

theorem ownDrives_eq_nil (h : s ∉ n.mod.assignTargets) : ownDrives n s = [] := by
  refine contributions_eq_nil fun hmem => h ?_
  exact (map_fst_assignWrites n.mod n.mod.assigns n.state.values).subset hmem

theorem InoutNet.joined_eq_netValue {K : SignalSets} {w : Nat} {v : LogicT} {t : InstanceState} (h : InoutNet K w t)
    (hports : PortsHold w v t) :
    joined (contributions (t.children.flatMap fun c => childWrites c.value) w ++ ownDrives t.value w) =
      netValue t w v := by
  have hmem (x : LogicT) : x ∈ contributions (t.children.flatMap fun c => childWrites c.value) w ↔
      ∃ c ∈ t.children, ∃ p ∈ inoutPorts c.value w, c.value.get p = x := by
    refine mem_contributions_kids fun c hc d hd hw => ?_
    obtain ⟨j, hj⟩ := mem_iff_getElem?.mp hc
    have hport := h.ports j c hj d hd hw
    exact ⟨hport.signal, hport.wire.lt⟩
  refine eq_of_absorbs_iff fun y => ?_
  have hback : (∀ x ∈ contributions (t.children.flatMap fun c => childWrites c.value) w, Absorbs x y) ↔
      (Undriven t w → Absorbs v y) ∧
        ∀ c ∈ t.children, ∀ p ∈ inoutPorts c.value w, ∀ x ∈ ownDrives c.value p, Absorbs x y := by
    constructor
    · intro hall
      have hport (c : InstanceState) (hc : c ∈ t.children) (p : Nat) (hp : p ∈ inoutPorts c.value w) :
          Absorbs (if p ∈ c.value.mod.assignTargets then joined (ownDrives c.value p) else v) y := by
        rw [← hports c hc p hp]
        exact hall _ ((hmem _).mpr ⟨c, hc, p, hp, rfl⟩)
      refine ⟨fun hundriven => ?_, fun c hc p hp => ?_⟩
      · obtain ⟨c, hc, p, hp, hown⟩ := hundriven
        have habsorbs := hport c hc p hp
        rw [if_neg hown] at habsorbs
        exact habsorbs
      · have habsorbs := hport c hc p hp
        split_ifs at habsorbs with hown
        · exact absorbs_joined_iff.mp habsorbs
        · intro x hx
          rw [ownDrives_eq_nil hown] at hx
          cases hx
    · intro hall x hx
      obtain ⟨c, hc, p, hp, rfl⟩ := (hmem x).mp hx
      rw [hports c hc p hp]
      split_ifs with hown
      · exact absorbs_joined_iff.mpr (hall.2 c hc p hp)
      · exact hall.1 ⟨c, hc, p, hp, hown⟩
  have hdrivers : (∀ x ∈ netDrivers t w, Absorbs x y) ↔ (∀ x ∈ ownDrives t.value w, Absorbs x y) ∧
      ∀ c ∈ t.children, ∀ p ∈ inoutPorts c.value w, ∀ x ∈ ownDrives c.value p, Absorbs x y := by
    rw [netDrivers, forall_mem_append]
    simp only [mem_flatMap]
    grind
  have hvalue : Absorbs (netValue t w v) y ↔ (Undriven t w → Absorbs v y) ∧ ∀ x ∈ netDrivers t w, Absorbs x y := by
    rw [← absorbs_joined_iff, netValue]
    split_ifs with hundriven
    · rw [absorbs_resolve_iff]
      exact and_congr_left' (imp_iff_right hundriven).symm
    · exact (and_iff_right fun hc => absurd hc hundriven).symm
  rw [absorbs_joined_iff, forall_mem_append, hback, hvalue, hdrivers]
  tauto

/-- A pass: the net takes part in its own resolution where a port has no driver inside, and
such a port gets the value of the net from before the pass. -/
structure InoutPass (K : SignalSets) (w : Nat) (t t' : InstanceState) : Prop where
  kept : Kept K t t'
  ports : PortsHold w (t.value.get w) t'
  net : t'.value.get w = netValue t w (t.value.get w)

theorem InoutState.pass {K : SignalSets} {w height : Nat} (h : InoutState K w (.node n cs))
    (hheight : (node n cs).height ≤ height + 1) (tick : UInt64) (token : UInt32) (any : Bool) :
    InoutPass K w (.node n cs) (settlePass (combResolve tick height) tick token any (.node (epoch n) cs)).1 ∧
      ((settlePass (combResolve tick height) tick token any (.node (epoch n) cs)).2 = false →
        (settlePass (combResolve tick height) tick token any (.node (epoch n) cs)).1.value.get w = n.get w) := by
  have hkept : Kept K (.node n cs) (settlePass (combResolve tick height) tick token any (.node (epoch n) cs)).1 :=
    kept_settlePass_epoch tick token any (kept_kids tick hheight) h.steady
  have hkids : (settlePass (combResolve tick height) tick token any (.node (epoch n) cs)).1.children =
      settledKids (combResolve tick height) (epoch n) cs := by
    rw [settlePass_fst]
    rfl
  have hdrives : driveTargets (settledKids (combResolve tick height) (epoch n) cs) = driveTargets cs := by
    have hsame := hkept.sameDesign
    rw [settlePass_fst] at hsame
    exact hsame.driveTargets
  obtain ⟨hget, hnot⟩ := h.net.get_settlePass hdrives tick token any
  refine ⟨?_, hnot⟩
  have hepoch := (h.of_root (static_epoch n) rfl fun _ _ => rfl).1
  obtain ⟨hstate, hheld⟩ := h.of_kept hkept
  rw [← hkids] at hget
  generalize (settlePass (combResolve tick height) tick token any (.node (epoch n) cs)).1 =
    t' at hkept hkids hget hstate hheld
  obtain ⟨n', cs'⟩ := t'
  have hsame := hkept.sameDesign
  have hports : PortsHold w (n.get w) (.node n' cs') := by
    intro c' hc' p hp
    obtain ⟨j, hj⟩ := mem_iff_getElem?.mp hc'
    obtain ⟨c, hc, hcc⟩ := hsame.exists_child hj
    rw [inoutPorts_congr hcc.value] at hp
    have hown := h.ports.ownDrives_port hsame hheld hc hj hp
    have hvalue := hepoch.get_port tick hheight hc hp
    rw [hkids] at hj
    rw [hown, hcc.value.mod, getElem?_settledKids hc hj, hvalue]
    rfl
  refine ⟨hkept, hports, ?_⟩
  have hown : ownDrives n' w = ownDrives n w :=
    ownDrives_congr hsame.value.mod fun a ha hs r hr => hheld.root r (h.ports.held a ha hs r hr)
  have hjoined := hstate.ports.joined_eq_netValue hports
  rw [value_node, hown] at hjoined
  rw [hget, hjoined]
  exact h.ports.netValue_congr hsame hheld (n.get w)

structure InoutSettled (w : Nat) (v : LogicT) (t : InstanceState) : Prop where
  net : t.value.get w = netValue t w v
  ports : PortsHold w (t.value.get w) t

structure InoutLoop (K : SignalSets) (w : Nat) (v : LogicT) (height : Nat) (t : InstanceState) : Prop where
  state : InoutState K w t
  net : t.value.get w = v ∨ t.value.get w = netValue t w v
  height : t.height ≤ height

section Loop

variable {K : SignalSets} {w height : Nat} {v : LogicT}

variable {t : InstanceState}

theorem InoutLoop.netValue_net (h : InoutLoop K w v height t) :
    netValue t w (t.value.get w) = netValue t w v := by
  rcases h.net with hnet | hnet
  · rw [hnet]
  · rw [hnet, netValue_netValue]

theorem InoutLoop.pass (h : InoutLoop K w v (height + 1) (.node n cs)) (tick : UInt64) (token : UInt32) (any : Bool) :
    (InoutLoop K w v (height + 1) (settlePass (combResolve tick height) tick token any (.node (epoch n) cs)).1 ∧
        (settlePass (combResolve tick height) tick token any (.node (epoch n) cs)).1.value.get w =
          netValue (settlePass (combResolve tick height) tick token any (.node (epoch n) cs)).1 w v) ∧
      (n.get w = netValue (.node n cs) w v ∨
          (settlePass (combResolve tick height) tick token any (.node (epoch n) cs)).2 = false →
        InoutSettled w v (settlePass (combResolve tick height) tick token any (.node (epoch n) cs)).1) := by
  obtain ⟨hpass, hnot⟩ := h.state.pass h.height tick token any
  obtain ⟨hstate, hheld⟩ := h.state.of_kept hpass.kept
  have hnet := hpass.net.trans h.netValue_net
  have hcongr := h.state.ports.netValue_congr hpass.kept.sameDesign hheld v
  have hnet' := hnet.trans hcongr.symm
  refine ⟨⟨⟨hstate, Or.inr hnet', hpass.kept.height.trans_le h.height⟩, hnet'⟩, fun hend => ⟨hnet', ?_⟩⟩
  have hsame : n.get w = (settlePass (combResolve tick height) tick token any (.node (epoch n) cs)).1.value.get w := by
    rcases hend with hend | hend
    · rw [hend, hnet]
    · exact (hnot hend).symm
  rw [← hsame]
  exact hpass.ports

/-- One pass brings the net to its value, and the ports follow in the next one. A loop that
ends after one pass has not moved the net. -/
theorem InoutLoop.settleLoop (h : InoutLoop K w v (height + 1) t) (tick : UInt64) (iters : Nat) (token : UInt32)
    (any : Bool) :
    InoutSettled w v (settleLoop (combResolve tick height) tick (iters + 2) token any t).inst := by
  obtain ⟨n, cs⟩ := t
  obtain ⟨token', any', heq⟩ := settleLoop_succ (combResolve tick height) tick (iters + 1) token any n cs
  obtain ⟨hnext, hend⟩ := h.pass tick token any
  rw [heq]
  split_ifs with hchanged
  · exact hend (Or.inr hchanged)
  · have hrule := @settleLoop_rule (combResolve tick height) tick
      (fun t => InoutLoop K w v (height + 1) t ∧ t.value.get w = netValue t w v) (InoutSettled w v)
    refine (hrule (fun token any n cs hloop => ?_) iters token' any' hnext).2
    obtain ⟨hnext, hend⟩ := hloop.1.pass tick token any
    exact ⟨hnext, hend (Or.inl hloop.2)⟩

theorem InoutLoop.combResolve (h : InoutLoop K w v (height + 1) t) (tick : UInt64) :
    InoutSettled w v (combResolve tick (height + 1) t).1 := by
  refine combResolve_rule ?_ (fun token any t hloop => hloop.settleLoop tick 62 token any) ?_ h
  · intro n cs hloop
    obtain ⟨hstate, hheld⟩ := hloop.state.of_root (static_opened n) (nbaQueue_opened n) fun q _ => get_opened n q
    have hcongr := hloop.state.ports.netValue_congr (sameDesign_withValue (static_opened n)) hheld v
    refine ⟨hstate, ?_, hloop.height⟩
    rw [value_node, get_opened]
    exact hloop.net.imp_right fun hnet => hnet.trans hcongr.symm
  · intro n cs hsettled
    exact ⟨hsettled.net, hsettled.ports⟩

end Loop

def SignalSets.below (K : SignalSets) (q : List Nat) : SignalSets := fun p => K (q ++ p)

theorem Kept.exists_subtree? {K : SignalSets} {t t' : InstanceState} {q : List Nat} (h : Kept K t t')
    (hu : t.subtree? q = some u) : ∃ u', t'.subtree? q = some u' ∧ Kept (K.below q) u u' := by
  induction q generalizing K t t' with
  | nil =>
    cases hu
    exact ⟨t', rfl, h⟩
  | cons j q ih =>
    obtain ⟨n, cs⟩ := t
    obtain ⟨c, hc, hu⟩ := Option.bind_eq_some_iff.mp hu
    cases h with
    | @node _ _ n' _ cs' _ _ _ _ _ length children =>
      have hj : j < cs'.length := by
        rw [length]
        exact (List.getElem?_eq_some_iff.mp hc).1
      have hc' : cs'[j]? = some cs'[j] := getElem?_eq_getElem hj
      obtain ⟨u', hu', hkept⟩ := ih (children j c _ hc hc') hu
      exact ⟨u', by simp [subtree?, hc', hu'], hkept⟩

/-- A state of the loop of an instance above the one at `q`, whose net `w` held `v`. -/
structure InoutBelow (K : SignalSets) (w : Nat) (v : LogicT) (height : Nat) (q : List Nat)
    (t : InstanceState) : Prop where
  steady : Steady K t
  height : t.height ≤ height
  below : ∃ u, t.subtree? q = some u ∧ InoutState (K.below q) w u ∧ (u.value.get w = v ∨ u.value.get w = netValue u w v)

section Below

variable {K : SignalSets} {w height : Nat} {v : LogicT} {q : List Nat}

theorem InoutBelow.of_root (h : InoutBelow K w v height (j :: q) (.node n cs)) (static : SameStatic n n')
    (hnba : n'.state.nbaQueue = n.state.nbaQueue) (hget : ∀ s, K [] s → n'.get s = n.get s) :
    InoutBelow K w v height (j :: q) (.node n' cs) :=
  ⟨h.steady.of_root static hnba hget, h.height, h.below⟩

theorem InoutBelow.enter (h : InoutBelow K w v (height + 1) (j :: q) (.node n cs)) (hc : cs[j]? = some c) :
    InoutBelow (K.child j) w v height q (c.withValue (propagateParentToChild n c.value).1) := by
  obtain ⟨hsteady, hget⟩ := h.steady.enter hc
  have hlt := height_lt_of_mem (a := n) (List.mem_of_getElem? hc)
  obtain ⟨u, hu, hstate, hnet⟩ := h.below
  obtain ⟨c₀, hc₀, hu⟩ := Option.bind_eq_some_iff.mp hu
  cases hc.symm.trans hc₀
  have hheight := h.height
  refine ⟨hsteady, by rw [height_withValue]; omega, ?_⟩
  cases q with
  | nil =>
    cases hu
    obtain ⟨m, es⟩ := c
    have hstatic := static_propagateParentToChild n m
    obtain ⟨hstate', hheld⟩ := hstate.of_root hstatic (sameBut_propagateParentToChild n m).nbaQueue hget
    have hcongr := hstate.ports.netValue_congr (sameDesign_withValue hstatic) hheld v
    have hw : (propagateParentToChild n m).1.get w = m.get w := hstate.ports.get_enter n
    refine ⟨_, rfl, hstate', ?_⟩
    rw [withValue_node, value_node, value_node, hw]
    exact hnet.imp_right fun hnet => hnet.trans hcongr.symm
  | cons i q =>
    obtain ⟨m, es⟩ := c
    exact ⟨u, hu, hstate, hnet⟩

/-- Settling the whole design settles the net at `q`, however often its instance is visited. -/
theorem InoutBelow.combResolve {t : InstanceState} (h : InoutBelow K w v height q t) (tick : UInt64) :
    ∃ u, (combResolve tick height t).1.subtree? q = some u ∧ InoutSettled w v u := by
  induction q generalizing K height t with
  | nil =>
    obtain ⟨u, hu, hstate, hnet⟩ := h.below
    cases hu
    have hheight := h.height
    obtain _ | height := height
    · obtain ⟨n, cs⟩ := t
      simp [RoseTree.height] at hheight
    have hloop : InoutLoop (K.below []) w v (height + 1) t := ⟨hstate, hnet, hheight⟩
    exact ⟨_, rfl, hloop.combResolve tick⟩
  | cons j q ih =>
    have hheight := h.height
    obtain _ | height := height
    · obtain ⟨n, cs⟩ := t
      simp [RoseTree.height] at hheight
    have hrule := @combResolve_rule tick height (InoutBelow K w v (height + 1) (j :: q))
      (fun t => ∃ u, t.subtree? (j :: q) = some u ∧ InoutSettled w v u)
    refine hrule ?_ ?_ (fun n cs hsettled => hsettled) h
    · intro n cs hbelow
      exact hbelow.of_root (static_opened n) (nbaQueue_opened n) fun s _ => get_opened n s
    · intro token any t hbelow
      have hloop := @settleLoop_rule (Verilog.combResolve tick height) tick (InoutBelow K w v (height + 1) (j :: q))
        (fun t => ∃ u, t.subtree? (j :: q) = some u ∧ InoutSettled w v u)
      refine (hloop ?_ 63 token any hbelow).2
      intro token any n cs hbelow
      have hkept : Kept K (.node n cs) (settlePass (Verilog.combResolve tick height) tick token any
        (.node (epoch n) cs)).1 :=
        kept_settlePass_epoch tick token any (kept_kids tick hbelow.height) hbelow.steady
      have hepoch := hbelow.of_root (static_epoch n) rfl fun _ _ => rfl
      obtain ⟨u, hu, hstate, -⟩ := hbelow.below
      obtain ⟨c, hc, -⟩ := Option.bind_eq_some_iff.mp hu
      have hc : cs[j]? = some c := hc
      obtain ⟨u', hu', hsettled⟩ := ih (hepoch.enter hc)
      have hsub : (settlePass (Verilog.combResolve tick height) tick token any (.node (epoch n) cs)).1.subtree?
        (j :: q) = some u' := by
        rw [settlePass_fst]
        simp only [subtree?, children_node, settledKids, getElem?_map, hc, Option.map_some, Option.bind_some]
        exact hu'
      obtain ⟨u'', hu'', hkeptBelow⟩ := hkept.exists_subtree? hu
      cases hsub.symm.trans hu''
      exact ⟨⟨hbelow.steady.of_kept hkept, hkept.height.trans_le hbelow.height, u', hsub, (hstate.of_kept hkeptBelow).1,
        Or.inr hsettled.net⟩, u', hsub, hsettled⟩

end Below

/-! ## The start of the settle loop -/

def enterPorts (parent : Option InstanceNode) (n : InstanceNode) : InstanceNode :=
  match parent with
  | none => n
  | some p => (propagateParentToChild p n).1

theorem static_enterPorts (parent : Option InstanceNode) (n : InstanceNode) : SameStatic n (enterPorts parent n) := by
  cases parent with
  | none => exact SameStatic.refl n
  | some p => exact static_propagateParentToChild p n

def passInputs : InstanceState := t.topDown enterPorts none

inductive Agree : SignalSets → InstanceState → InstanceState → Prop where
  | node {K : SignalSets} {n n' : InstanceNode} {cs cs' : List InstanceState}
      (get : ∀ s, K [] s → n'.get s = n.get s)
      (children : ∀ (j : Nat) c c', cs[j]? = some c → cs'[j]? = some c' → Agree (K.child j) c c') :
      Agree K (.node n cs) (.node n' cs')

theorem Agree.subtree? {K : SignalSets} {t t' u' : InstanceState} {q : List Nat} (h : Agree K t t')
    (hu : t.subtree? q = some u) (hu' : t'.subtree? q = some u') : Agree (K.below q) u u' := by
  induction q generalizing K t t' with
  | nil =>
    cases hu
    cases hu'
    exact h
  | cons j q ih =>
    obtain ⟨c, hc, hrest⟩ := Option.bind_eq_some_iff.mp hu
    obtain ⟨c', hc', hrest'⟩ := Option.bind_eq_some_iff.mp hu'
    obtain ⟨_, children⟩ := h
    exact ih (children j c c' hc hc') hrest hrest'

theorem Agree.heldSame {K : SignalSets} {t t' : InstanceState} (h : Agree K t t') : HeldSame K t t' := by
  obtain ⟨get, children⟩ := h
  refine ⟨get, fun j c c' hc hc' s hs => ?_⟩
  cases children j c c' hc hc' with
  | node get _ => exact get s hs

/-! ## Signals that the design does not write -/

/-- `Clean K t`: nothing inside an instance writes a signal of `K`, and a port in `K` is
connected to signals of `K` of the parent. -/
inductive Clean : SignalSets → InstanceState → Prop where
  | node {K : SignalSets} {n : InstanceNode} {cs : List InstanceState}
      (apart : ∀ s, K [] s → ¬ AnyTarget n cs s)
      (ports : ∀ (j : Nat) c, cs[j]? = some c → ∀ b ∈ c.value.inputBindings, K [j] b.1 →
        ∀ r ∈ bindingReads n.mod b.2, K [] r)
      (children : ∀ (j : Nat) c, cs[j]? = some c → Clean (K.child j) c) : Clean K (.node n cs)

theorem frame_clean {T : Nat → Prop} {n : InstanceNode} {cs : List InstanceState} (tick : UInt64) (seq : Bool)
    (parent : Option (InstanceNode × List Nat)) (hT : T = AnyTarget n cs)
    (hev : EventsIn (· ∈ n.mod.scheduledTargets) n.state) :
    NodeFrame T T (clearNba (entered parent n)) (sequentialVisit tick seq parent n).1 := by
  subst hT
  exact frame_sequentialVisit tick seq parent (fun s hs => Or.inr (Or.inl hs)) (fun s hs => Or.inl hs)
    (fun s hs => Or.inr (Or.inr (Or.inl hs))) (fun s hs => anyTarget_of_scheduled hs) (fun s hs => hs)
    (hev.mono fun s hs => anyTarget_of_scheduled hs)

theorem frame_child {K : SignalSets} {c : InstanceState} {tick : UInt64} {seq : Bool}
    (parent : Option (InstanceNode × List Nat)) (h : Clean K c) (ht : Tidy c) :
    (∀ s, K [] s → ¬ AnyTarget c.value c.children s) ∧
      NodeFrame (AnyTarget c.value c.children) (AnyTarget c.value c.children) (clearNba (entered parent c.value))
        (sequentialVisit tick seq parent c.value).1 := by
  obtain ⟨apart, ports, children⟩ := h
  cases ht with
  | node driven events kids => exact ⟨apart, frame_clean tick seq parent rfl events⟩

theorem targets_of_queued {ss : List Stmt} {s : Nat} (h : s ∈ Stmt.queued ss) : s ∈ Stmt.targets ss := by
  obtain ⟨a, ha, hs⟩ := mem_flatMap.mp h
  exact mem_flatMap.mpr ⟨a, (mem_filter.mp ha).1, hs⟩

theorem anyTarget_of_queued {n : InstanceNode} {cs : List InstanceState} {s : Nat} (h : s ∈ n.mod.queuedTargets) :
    AnyTarget n cs s := by
  simp only [CompiledModule.queuedTargets, mem_append, mem_flatMap] at h
  rcases h with (⟨ib, hib, hs⟩ | ⟨ff, hff, hs⟩) | ⟨ac, hac, hs⟩
  · exact .inr (.inl (mem_flatMap.mpr ⟨ib, hib, targets_of_queued hs⟩))
  · exact .inl (mem_flatMap.mpr ⟨ff, hff, targets_of_queued hs⟩)
  · exact .inr (.inr (.inr (.inl (mem_flatMap.mpr ⟨ac, hac, targets_of_queued hs⟩))))

namespace Clean

variable {K : SignalSets} {t : InstanceState}

theorem early (h : Clean K t) : Early K t := by
  induction h with
  | @node K n cs apart ports children ih =>
    refine .node (fun s hs => ?_) (fun j c hc b hb hK => ⟨?_, ports j c hc b hb hK⟩) ih
    · exact ⟨fun h => apart s hs (.inr (.inr (.inr h.target))), fun h => apart s hs (anyTarget_of_queued h)⟩
    · obtain ⟨apart, _, _⟩ := children j c hc
      exact apart b.1 hK

theorem unscheduled (h : Clean K t) (ht : Tidy t) : Unscheduled K t := by
  intro p n hn s hs ev hev _ hmem
  induction p generalizing K t with
  | nil =>
    cases hn
    obtain ⟨apart, _, _⟩ := h
    cases ht with
    | node _ events _ => exact apart s hs (anyTarget_of_scheduled (events ev hev s hmem))
  | cons j p ih =>
    obtain ⟨c, hc, hcn⟩ := Option.bind_eq_some_iff.mp hn
    obtain ⟨_, _, children⟩ := h
    cases ht with
    | node _ _ kids => exact ih (children j c hc) (kids j c hc) hcn hs

theorem steady_afterSequential (h : Clean K t) (ht : Tidy t) (tick : UInt64) (seq : Bool)
    (parent : Option (InstanceNode × List Nat)) : Steady K (afterSequential tick seq parent t) :=
  Verilog.steady_afterSequential h.early ht (h.unscheduled ht) tick seq parent

end Clean

theorem agree_afterSequential {K : SignalSets} {t : InstanceState} (h : Clean K t) (ht : Tidy t) (tick : UInt64)
    (seq : Bool)
    {parent : Option (InstanceNode × List Nat)} {parent' : Option InstanceNode}
    (hentry : ∀ s, K [] s → (entered parent t.value).get s = (enterPorts parent' t.value).get s) :
    Agree K (t.topDown enterPorts parent') (afterSequential tick seq parent t) := by
  induction h generalizing parent parent' with
  | @node K n cs apart ports children ih =>
    obtain ⟨driven, events, kids⟩ := ht
    have hframe : NodeFrame (AnyTarget n cs) _ _ _ := frame_clean tick seq parent rfl events
    have hroot (s : Nat) (hs : K [] s) : (sequentialVisit tick seq parent n).1.get s = (enterPorts parent' n).get s :=
      (hframe.state.get s (apart s hs)).trans (hentry s hs)
    have hmod : (sequentialVisit tick seq parent n).1.mod = n.mod := (static_sequentialVisit tick seq parent n).mod
    have hmod' : (enterPorts parent' n).mod = n.mod := (static_enterPorts parent' n).mod
    rw [topDown_node, afterSequential_node]
    refine .node hroot fun j d d' hd hd' => ?_
    rw [getElem?_map] at hd hd'
    obtain ⟨c, hc, rfl⟩ := Option.map_eq_some_iff.mp hd
    obtain ⟨c₀, hc₀, rfl⟩ := Option.map_eq_some_iff.mp hd'
    cases hc.symm.trans hc₀
    refine ih j c hc (kids j c hc) fun s hs => ?_
    change (propagateParentToChild (sequentialVisit tick seq parent n).1 c.value).1.get s =
      (propagateParentToChild (enterPorts parent' n) c.value).1.get s
    rw [get_propagateParentToChild, get_propagateParentToChild]
    refine if_congr Iff.rfl (written_map_congr (fun b hb heq => ?_) _) rfl
    refine bindingValue_congr (hmod.trans hmod'.symm) fun r hr => hroot r ?_
    exact ports j c hc b hb (heq ▸ hs) r (hmod' ▸ hr)

theorem Clean.subtree? {K : SignalSets} {t : InstanceState} {q : List Nat} (h : Clean K t)
    (hu : t.subtree? q = some u) :
    Clean (K.below q) u := by
  refine of_subtree? (P := fun p t => Clean (K.below p) t) (fun p t j c ht hc => ?_) (p := []) h hu
  have hchild : K.below (p ++ [j]) = (K.below p).child j := by
    funext p' s
    simp [SignalSets.below, SignalSets.child]
  obtain ⟨_, _, children⟩ := ht
  rw [hchild]
  exact children j c hc

theorem Tidy.subtree? {t : InstanceState} {q : List Nat} (h : Tidy t) (hu : t.subtree? q = some u) : Tidy u := by
  refine of_subtree? (P := fun _ t => Tidy t) (fun p t j c ht hc => ?_) (p := []) h hu
  obtain ⟨_, _, children⟩ := ht
  exact children j c hc

theorem Marked.subtree? {t : InstanceState} {q : List Nat} (h : Marked t) (hu : t.subtree? q = some u) : Marked u := by
  refine of_subtree? (P := fun _ t => Marked t) (fun p t j c ht hc => ?_) (p := []) h hu
  obtain ⟨_, children⟩ := ht
  exact children j c hc

/-- A wire that no procedural block writes has nothing pending after the sequential pass, and
keeps its value there unless it is a port. -/
theorem PlainWire.frame_sequentialVisit (h : PlainWire n s) (hev : EventsIn (· ∈ n.mod.scheduledTargets) n.state)
    (tick : UInt64) (seq : Bool) (parent : Option (InstanceNode × List Nat)) :
    NodeFrame (· ≠ s) (· ≠ s) (clearNba (entered parent n)) (sequentialVisit tick seq parent n).1 := by
  have hne {T : List Nat} (hs : s ∉ T) (q : Nat) (hq : q ∈ T) : q ≠ s := fun heq => hs (heq ▸ hq)
  have hsched (q : Nat) (hq : q ∈ n.mod.scheduledTargets) : q ≠ s := by
    simp only [CompiledModule.scheduledTargets, mem_append, mem_flatMap] at hq
    rcases hq with (hq | ⟨ff, hff, hq⟩) | ⟨ac, hac, hq⟩
    · exact hne h.initial q hq
    · exact hne h.ff q (mem_flatMap.mpr ⟨ff, hff, mem_targets_of_delayed hq⟩)
    · exact hne h.comb q (mem_flatMap.mpr ⟨ac, hac, mem_targets_of_delayed hq⟩)
  exact Verilog.frame_sequentialVisit tick seq parent (hne h.initial) (hne h.ff) (hne h.urandom) hsched (fun _ hq => hq)
    (hev.mono hsched)

/-- The sequential pass leaves an instance with an inout net ready to settle, and the net as
it was. -/
theorem InoutNet.state_afterSequential {K : SignalSets} {w : Nat} {t : InstanceState} (h : InoutNet K w t)
    (hK : Clean K t)
    (ht : Tidy t) (hm : Marked t) (tick : UInt64) (seq : Bool) (parent : Option (InstanceNode × List Nat)) :
    InoutState K w (afterSequential tick seq parent t) ∧ (afterSequential tick seq parent t).value.get w =
      t.value.get w := by
  have hsteady := hK.steady_afterSequential ht tick seq parent
  have hsame := sameDesign_afterSequential tick seq parent t
  obtain ⟨n, cs⟩ := t
  obtain ⟨driven, events, kids⟩ := ht
  obtain ⟨apart, ports, children⟩ := hK
  have hclean : NodeFrame (AnyTarget n cs) _ _ _ := frame_clean tick seq parent rfl events
  have hwire := h.wire.frame_sequentialVisit events tick seq parent
  refine ⟨⟨hsteady, h.of_sameDesign hsame, hm.of_sameDesign hsame, ?_, ?_⟩, ?_⟩
  · intro s hs
    rw [value_afterSequential]
    rcases hs with rfl | hs
    · exact not_queued_of_frame hwire fun hs => hs rfl
    · exact not_queued_of_frame hclean (apart s hs)
  · intro j c' hc' s hs
    rw [afterSequential_node, children_node, getElem?_map] at hc'
    obtain ⟨c, hc, rfl⟩ := Option.map_eq_some_iff.mp hc'
    have hstatic := (sameDesign_afterSequential tick seq (some (sequentialVisit tick seq parent n)) c).value
    rw [inoutPorts_congr hstatic] at hs
    obtain ⟨hapart, hframe⟩ := @frame_child _ c tick seq (some (sequentialVisit tick seq parent n))
      (children j c hc) (kids j c hc)
    rw [value_afterSequential]
    rcases hs with hs | hs
    · obtain ⟨d, hd, hw, rfl⟩ := mem_inoutPorts.mp hs
      have hport := h.ports j c hc d hd hw
      have hevents : EventsIn (· ∈ c.value.mod.scheduledTargets) c.value.state := by
        cases kids j c hc with
        | node _ events _ => exact events
      exact not_queued_of_frame (hport.wire.frame_sequentialVisit hevents tick seq _) fun hs => hs rfl
    · exact not_queued_of_frame hframe (hapart s hs)
  · rw [value_afterSequential]
    refine (hwire.state.get w fun hs => hs rfl).trans ?_
    cases parent with
    | none => rfl
    | some p => exact h.get_enter p.1

/-! ## A call -/

def NetShared (t : InstanceState) : Prop :=
  t.value.get w = joined (netDrivers t w) ∧
    ∀ c ∈ t.children, ∀ p ∈ inoutPorts c.value w, c.value.get p = joined (netDrivers t w)

/-- The drivers inside each child resolve to what all drivers resolve to. -/
def InnerAgree (t : InstanceState) : Prop :=
  ∀ c ∈ t.children, ∀ p ∈ inoutPorts c.value w, p ∈ c.value.mod.assignTargets →
    joined (ownDrives c.value p) = joined (netDrivers t w)

theorem InoutSettled.netShared_iff {w : Nat} {v : LogicT} {t : InstanceState} (h : InoutSettled w v t) :
    NetShared w t ↔ (Undriven t w → Absorbs v (joined (netDrivers t w))) ∧ InnerAgree w t := by
  have hnet : t.value.get w = joined (netDrivers t w) ↔ (Undriven t w → Absorbs v (joined (netDrivers t w))) := by
    rw [h.net, netValue]
    split_ifs with hundriven
    · exact (imp_iff_right hundriven).symm
    · exact iff_of_true rfl fun hc => absurd hc hundriven
  rw [NetShared, hnet]
  refine and_congr_right fun hold => ?_
  constructor
  · intro hports c hc p hp hown
    rw [← hports c hc p hp, h.ports c hc p hp, if_pos hown]
  · intro hagree c hc p hp
    rw [h.ports c hc p hp]
    split_ifs with hown
    · exact hagree c hc p hp hown
    · exact hnet.mpr hold

theorem InoutNet.innerAgree_congr {K : SignalSets} {w : Nat} {t t' : InstanceState} (h : InoutNet K w t)
    (hsame : SameDesign t t')
    (hheld : HeldSame K t t') : InnerAgree w t' ↔ InnerAgree w t := by
  have hdrivers := h.netDrivers_congr hsame hheld
  obtain ⟨n, cs⟩ := t
  obtain ⟨n', cs'⟩ := t'
  constructor
  · intro hagree c hmem p hp hown
    obtain ⟨j, hc⟩ := mem_iff_getElem?.mp hmem
    obtain ⟨c', hc', hcc⟩ := hsame.symm.exists_child hc
    rw [← hdrivers, ← h.ownDrives_port hsame hheld hc hc' hp]
    exact hagree c' (List.mem_of_getElem? hc') p (inoutPorts_congr hcc.symm.value w ▸ hp) (hcc.symm.value.mod ▸ hown)
  · intro hagree c' hmem p hp hown
    obtain ⟨j, hc'⟩ := mem_iff_getElem?.mp hmem
    obtain ⟨c, hc, hcc⟩ := hsame.exists_child hc'
    rw [inoutPorts_congr hcc.value] at hp
    rw [hdrivers, h.ownDrives_port hsame hheld hc hc' hp]
    exact hagree c (List.mem_of_getElem? hc) p hp (hcc.value.mod ▸ hown)

theorem heldSame_updatePrev (K : SignalSets) (t : InstanceState) : HeldSame K t (updatePrevRecursive t) := by
  obtain ⟨n, cs⟩ := t
  rw [updatePrevRecursive, map_node]
  refine ⟨fun _ _ => rfl, fun j c c' hc hc' s _ => ?_⟩
  rw [children_node, getElem?_map, show cs[j]? = some c from hc] at hc'
  cases hc'
  obtain ⟨m, es⟩ := c
  rfl

theorem InoutSettled.updatePrev {K : SignalSets} {w : Nat} {v : LogicT} {t : InstanceState} (h : InoutSettled w v t)
    (hnet : InoutNet K w t) : InoutSettled w v (updatePrevRecursive t) := by
  have hcongr := hnet.netValue_congr (sameDesign_updatePrev t) (heldSame_updatePrev K t) v
  obtain ⟨n, cs⟩ := t
  refine ⟨h.net.trans hcongr.symm, ?_⟩
  intro c' hc' p hp
  rw [updatePrevRecursive, map_node] at hc'
  obtain ⟨⟨m, es⟩, hc, rfl⟩ := mem_map.mp hc'
  exact h.ports _ hc p hp

/-- After a call the net and its ports have the value that all drivers resolve to exactly if
the drivers inside each child resolve to it already and, where some port has no driver
inside, the old value of the net adds nothing to it. -/
theorem inoutNet_shared_iff (d : CompiledDesign) (top : CompiledModule) (t : InstanceState)
    (hsame : SameDesign (elaborate d top) t)
    (ht : Tidy t) (K : SignalSets) (hK : Clean K t) (q : List Nat) (u : InstanceState) (hu : t.subtree? q = some u)
    (w : Nat)
    (hw : InoutNet (K.below q) w u) (tick : UInt64) (seq : Bool) :
    ∃ u₀ u', (passInputs t).subtree? q = some u₀ ∧ (simulate tick seq t).subtree? q = some u' ∧
      netDrivers u' w = netDrivers u₀ w ∧
      (NetShared w u' ↔ (Undriven u w → Absorbs (u.value.get w) (joined (netDrivers u₀ w))) ∧ InnerAgree w u₀) := by
  have hmarked := ((marked_elaborate d top).of_sameDesign hsame).subtree? hu
  have hsteady := hK.steady_afterSequential ht tick seq none
  -- the subtrees before, after the inputs are passed down and after the sequential pass
  obtain ⟨parent, hpassed⟩ := @RoseTree.subtree?_topDown _ _ enterPorts none q t u hu
  obtain ⟨parent', hvisited⟩ := @RoseTree.subtree?_topDown _ _ (sequentialVisit tick seq) none q t u hu
  have hstart : (afterSequential tick seq none t).subtree? q = some (afterSequential tick seq parent' u) :=
    subtree?_map hvisited
  obtain ⟨hstate, hold⟩ := hw.state_afterSequential (hK.subtree? hu) (ht.subtree? hu) hmarked tick seq parent'
  have hheld := ((agree_afterSequential hK ht tick seq fun _ _ => rfl).subtree? hpassed hstart).heldSame
  -- the settled subtree
  have hheight : (afterSequential tick seq none t).height ≤ t.height := (height_afterSequential tick seq none t).le
  have hbelow : InoutBelow K w (u.value.get w) t.height q (afterSequential tick seq none t) :=
    ⟨hsteady, hheight, _, hstart, hstate, Or.inl hold⟩
  obtain ⟨u₁, hu₁, hsettled⟩ := hbelow.combResolve tick
  obtain ⟨u₂, hu₂, hkept⟩ := (kept_combResolve t.height hheight hsteady).exists_subtree? hstart
  cases hu₁.symm.trans hu₂
  obtain ⟨hstate', hheld'⟩ := hstate.of_kept hkept
  -- what the drivers contribute is the same in all of them
  have hdesign : SameDesign u (u.topDown enterPorts parent) := RoseTree.Rel.topDown_right static_enterPorts u parent
  have hsettledDesign := (sameDesign_afterSequential tick seq parent' u).trans
    (hkept.sameDesign.trans (sameDesign_updatePrev u₁))
  have hfinal : SameDesign (u.topDown enterPorts parent) (updatePrevRecursive u₁) := hdesign.symm.trans hsettledDesign
  have hinputs : HeldSame (K.below q) (u.topDown enterPorts parent) (updatePrevRecursive u₁) := by
    refine (hheld.trans hheld' ?_).trans (heldSame_updatePrev _ u₁) ?_
    · exact hdesign.symm.trans (sameDesign_afterSequential tick seq parent' u)
    · exact hdesign.symm.trans ((sameDesign_afterSequential tick seq parent' u).trans hkept.sameDesign)
  have hnet := hw.of_sameDesign hdesign
  have hdrivers := hnet.netDrivers_congr hfinal hinputs
  have hundriven : Undriven (updatePrevRecursive u₁) w ↔ Undriven u w :=
    ⟨undriven_of_sameDesign hsettledDesign.symm, undriven_of_sameDesign hsettledDesign⟩
  refine ⟨_, updatePrevRecursive u₁, hpassed, subtree?_map hu₁, hdrivers, ?_⟩
  rw [(hsettled.updatePrev hstate'.ports).netShared_iff, hdrivers, hundriven, hnet.innerAgree_congr hfinal hinputs]

namespace InoutNets

def driver : CompiledModule where
  name := "driver"
  ports := [⟨"x", .input, 0⟩, ⟨"io", .inout, 1⟩]
  portOrder := ["x", "io"]
  portDecls := [("x", { dir := .input }), ("io", { dir := .inout })]
  signalNames := ["x", "io"]
  exprNodes := [.signal 0]
  assigns := [{ lhsSignal := 1, exprRoot := 0 }]

def pair : CompiledModule where
  ports := [⟨"a", .input, 0⟩]
  signalNames := ["a", "w"]
  exprNodes := [.signal 0]
  assigns := [{ lhsSignal := 1, exprRoot := 0 }]
  instances := [{ moduleName := "driver", instanceName := "u"
                  connections := [("x", .scalar (some 0)), ("io", .scalar (some 1))] }]

def pairHigh : InstanceState := sampleInputs [some .H] (elaborate ⟨[driver]⟩ pair)

def pairInputs : SignalSets := fun p s => (p = [] ∨ p = [0]) ∧ s = 0

theorem clean_pairHigh : Clean pairInputs pairHigh := by
  show Clean pairInputs (.node _ [.node _ []])
  refine .node ?_ ?_ ?_
  · rintro s ⟨-, rfl⟩
    decide
  · rintro j c hc b hb ⟨-, hport⟩ r hr
    rw [Acyclic.only_child hc] at hb
    rcases mem_cons.mp hb with rfl | hb
    · exact ⟨Or.inl rfl, mem_singleton.mp hr⟩
    · obtain rfl := mem_singleton.mp hb
      cases hport
  · intro j c hc
    rw [Acyclic.only_child hc]
    refine .node ?_ (fun _ _ hc => by cases hc) fun _ _ hc => by cases hc
    rintro s ⟨-, rfl⟩
    decide

theorem inoutNet_pairHigh : InoutNet pairInputs 1 pairHigh := by
  show InoutNet pairInputs 1 (.node _ [.node _ []])
  refine ⟨⟨by decide, by decide, by decide, by decide, by decide, by decide⟩, by decide, by decide, ?_, ?_⟩
  · intro a ha _ r hr
    obtain rfl := mem_singleton.mp ha
    exact ⟨Or.inl rfl, mem_singleton.mp hr⟩
  · intro j c hc d hd hw
    have hj : j = 0 := by
      cases j with
      | zero => rfl
      | succ j => cases hc
    rw [Acyclic.only_child hc] at hd ⊢
    obtain rfl := mem_singleton.mp hd
    refine ⟨rfl, ⟨by decide, by decide, by decide, by decide, by decide, by decide⟩,
      by decide, by decide, by decide, ?_⟩
    intro a ha _ r hr
    obtain rfl := mem_singleton.mp ha
    exact ⟨Or.inr (by rw [hj]), mem_singleton.mp hr⟩

theorem inoutNet_shared_iff_pair : ∃ u', (simulate 0 true pairHigh).subtree? [] = some u' ∧ NetShared 1 u' := by
  obtain ⟨u₀, u', hpassed, hu', -, hiff⟩ := inoutNet_shared_iff ⟨[driver]⟩ pair pairHigh (sameDesign_sampleInputs _ _)
    (tidy_sampleInputs _ (tidy_elaborate _ _)) pairInputs clean_pairHigh [] pairHigh rfl 1 inoutNet_pairHigh 0 true
  cases hpassed
  refine ⟨u', hu', hiff.mpr ⟨by decide, ?_⟩⟩
  show ∀ c ∈ (passInputs pairHigh).children, _
  decide

def pad : CompiledModule where
  name := "pad"
  ports := [⟨"io", .inout, 0⟩]
  portOrder := ["io"]
  portDecls := [("io", { dir := .inout })]
  signalNames := ["io"]

def board : CompiledModule where
  ports := [⟨"a", .input, 0⟩]
  signalNames := ["a", "w"]
  exprNodes := [.signal 0]
  assigns := [{ lhsSignal := 1, exprRoot := 0 }]
  instances := [{ moduleName := "pad", instanceName := "u", connections := [("io", .scalar (some 1))] }]

def boardHigh : InstanceState := sampleInputs [some .H] (elaborate ⟨[pad]⟩ board)

def boardInputs : SignalSets := fun p s => p = [] ∧ s = 0

theorem clean_boardHigh : Clean boardInputs boardHigh := by
  show Clean boardInputs (.node _ [.node _ []])
  refine .node ?_ ?_ ?_
  · rintro s ⟨-, rfl⟩
    decide
  · rintro j c hc b hb ⟨hp, -⟩
    cases hp
  · intro j c hc
    rw [Acyclic.only_child hc]
    refine .node ?_ (fun _ _ hc => by cases hc) fun _ _ hc => by cases hc
    rintro s ⟨hp, -⟩
    cases hp

theorem inoutNet_boardHigh : InoutNet boardInputs 1 boardHigh := by
  show InoutNet boardInputs 1 (.node _ [.node _ []])
  refine ⟨⟨by decide, by decide, by decide, by decide, by decide, by decide⟩, by decide, by decide, ?_, ?_⟩
  · intro a ha _ r hr
    obtain rfl := mem_singleton.mp ha
    exact ⟨rfl, mem_singleton.mp hr⟩
  · intro j c hc d hd hw
    rw [Acyclic.only_child hc] at hd ⊢
    obtain rfl := mem_singleton.mp hd
    refine ⟨rfl, ⟨by decide, by decide, by decide, by decide, by decide, by decide⟩,
      by decide, by decide, by decide, ?_⟩
    intro a ha
    cases ha

/-- The only driver is high, but the pad gives the unknown value that the net starts with
back to it. -/
theorem undriven_pad_keeps_unknown : Clean boardInputs boardHigh ∧ InoutNet boardInputs 1 boardHigh ∧
    joined (netDrivers (simulate 0 true boardHigh) 1) = .H ∧ (simulate 0 true boardHigh).value.get 1 = .X ∧
      ¬ NetShared 1 (simulate 0 true boardHigh) := by
  have hdrivers : joined (netDrivers (simulate 0 true boardHigh) 1) = .H := by decide
  have hnet : (simulate 0 true boardHigh).value.get 1 = .X := by decide
  refine ⟨clean_boardHigh, inoutNet_boardHigh, hdrivers, hnet, fun hshared => ?_⟩
  have heq := hshared.1
  rw [hdrivers, hnet] at heq
  cases heq

end InoutNets

end PhyEngine.Verilog
