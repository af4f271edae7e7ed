import PhyEngine.Library.AssocMap
import PhyEngine.Netlist.Operations
import PhyEngine.PhyLab.Conversion

/-!
# Export and import again

A netlist is converted to an experiment and a circuit is built from that. The circuit has
the models of the netlist unless the reset of a generator is alone on its node, and joins
the pins that share a node after the pins of the multipliers are reversed.
-/

namespace PhyEngine.PhyLab

open Failing Stars List

variable (nl : Netlist)

def pinNode (p : PePin) : Option NodeId := do
  let m ← nl.normals[p.elementIndex]?
  let n ← m.pins[p.pin]?
  n

def IsPin (p : PePin) : Prop :=
  ∃ m, nl.normals[p.elementIndex]? = some m ∧ p.pin < m.pins.length

/-- The pins with those of the multipliers in reverse order. -/
def mirror (p : PePin) : PePin :=
  match nl.normals[p.elementIndex]? with
  | some m => ⟨p.elementIndex, mirrorPin m.kind p.pin⟩
  | none => p

structure Convertible (nl : Netlist) : Prop where
  kind : ∀ m ∈ nl.normals, m.kind ∈ exportedKinds
  level : ∀ m ∈ nl.normals, HasLevel m
  pins : ∀ m ∈ nl.normals, m.pins.length = pinCount m.kind
  connected : ∀ m ∈ nl.normals, none ∉ m.pins

def endpointOf (host : Host) (nl : Netlist) (p : PePin) : PlEndpoint :=
  match nl.normals[p.elementIndex]? with
  | some m => ⟨host.randString p.elementIndex, plPin m.kind p.pin⟩
  | none => ⟨host.randString p.elementIndex, p.pin⟩

variable {p : PePin} {e : PlEndpoint} {pin : Nat}

theorem pinNode_eq_some {nl : Netlist} {n : NodeId} :
    pinNode nl p = some n ↔ ∃ m, nl.normals[p.elementIndex]? = some m ∧ m.pins[p.pin]? = some (some n) := by
  simp only [pinNode, Option.bind_eq_bind, Option.bind_eq_some_iff]
  constructor
  · rintro ⟨m, hm, o, ho, rfl⟩
    exact ⟨m, hm, ho⟩
  · rintro ⟨m, hm, ho⟩
    exact ⟨m, hm, some n, ho, rfl⟩

section
variable {host : Host} {nl : Netlist} (hnl : Convertible nl)
include hnl

theorem isPin_iff_pinNode : IsPin nl p ↔ ∃ n, pinNode nl p = some n := by
  constructor
  · rintro ⟨m, hm, hlt⟩
    cases hpin : m.pins[p.pin] with
    | none => exact absurd (hpin ▸ getElem_mem hlt) (hnl.connected m (List.mem_of_getElem? hm))
    | some n => exact ⟨n, pinNode_eq_some.mpr ⟨m, hm, by rw [getElem?_eq_getElem hlt, hpin]⟩⟩
  · rintro ⟨n, hn⟩
    obtain ⟨m, hm, hpin⟩ := pinNode_eq_some.mp hn
    exact ⟨m, hm, (List.getElem?_eq_some_iff.mp hpin).1⟩

theorem mirror_mirror (hp : IsPin nl p) : IsPin nl (mirror nl p) ∧ mirror nl (mirror nl p) = p := by
  obtain ⟨m, hm, hlt⟩ := hp
  have hcount : p.pin < pinCount m.kind := hnl.pins m (List.mem_of_getElem? hm) ▸ hlt
  have hmirror : mirror nl p = ⟨p.elementIndex, mirrorPin m.kind p.pin⟩ := by rw [mirror, hm]
  rw [hmirror]
  refine ⟨⟨m, hm, ?_⟩, ?_⟩
  · rw [hnl.pins m (List.mem_of_getElem? hm)]
    exact mirrorPin_lt hcount
  · rw [mirror, hm]
    show (⟨p.elementIndex, mirrorPin m.kind (mirrorPin m.kind p.pin)⟩ : PePin) = p
    rw [mirrorPin_mirrorPin hcount]

theorem mem_exportedEndpoints_iff {n : NodeId} :
    (n, e) ∈ exportedEndpoints host.randString nl.normals ↔ ∃ p, pinNode nl p = some n ∧
      e = endpointOf host nl p := by
  rw [mem_exportedEndpoints hnl.kind hnl.pins]
  constructor
  · rintro ⟨i, m, k, hm, hpin, rfl⟩
    refine ⟨⟨i, k⟩, pinNode_eq_some.mpr ⟨m, hm, hpin⟩, ?_⟩
    rw [endpointOf, hm]
  · rintro ⟨p, hp, rfl⟩
    obtain ⟨m, hm, hpin⟩ := pinNode_eq_some.mp hp
    refine ⟨p.elementIndex, m, p.pin, hm, hpin, ?_⟩
    rw [endpointOf, hm]

theorem endpointOf_injOn (hids : ((List.range nl.normals.length).map host.randString).Nodup) :
    Set.InjOn (endpointOf host nl) {p | IsPin nl p} := by
  rintro ⟨i, j⟩ ⟨m, hm, hj⟩ ⟨i', k⟩ ⟨m', hm', hk⟩ h
  simp only at hm hm' hj hk
  simp only [endpointOf, hm, hm', PlEndpoint.mk.injEq] at h
  have hi : i = i' := by
    have hlt := (List.getElem?_eq_some_iff.mp hm).1
    have hlt' := (List.getElem?_eq_some_iff.mp hm').1
    exact inj_on_of_nodup_map hids (mem_range.mpr hlt) (mem_range.mpr hlt') h.1
  subst hi
  rw [hm] at hm'
  cases hm'
  have hmem := List.mem_of_getElem? hm
  rw [hnl.pins m hmem] at hj hk
  rw [plPin_injective (hnl.kind m hmem) hj hk h.2]

end

/-- The circuit has the models of the netlist, an input with its level. -/
def SameModel (m : Model) (c : Component) : Prop :=
  c.code.kind = some m.kind ∧ (m.kind = .input → c.props = [.num (switchValue m)])

structure KeepsCircuit (nl : Netlist) (c : Circuit) : Prop where
  models : List.Forall₂ SameModel nl.normals c.components
  joined : ∀ p q, IsPin nl p → IsPin nl q → (Joined c.wires p q ↔ pinNode nl p = pinNode nl q)

theorem mem_ite_pin {id : Identifier} :
    pin ∈ (if e.elementIdentifier = id then [e.pin] else []) ↔ e = ⟨id, pin⟩ := by
  obtain ⟨id', pin'⟩ := e
  rw [PlEndpoint.mk.injEq]
  show pin ∈ (if id' = id then [pin'] else []) ↔ _
  split_ifs with h
  · rw [mem_singleton, and_iff_right h, eq_comm]
  · exact ⟨fun hmem => absurd hmem not_mem_nil, fun heq => absurd heq.1 h⟩

theorem mem_usedPins {wires : List Wire} {id : Identifier} :
    pin ∈ usedPins wires id ↔ ∃ w ∈ wires, w.source = ⟨id, pin⟩ ∨ w.target = ⟨id, pin⟩ := by
  simp only [usedPins, mem_flatMap, mem_append, mem_ite_pin]

theorem mem_usedPins_toWire {ws : List (PlEndpoint × PlEndpoint)} :
    e.pin ∈ usedPins (ws.map toWire) e.elementIdentifier ↔ ∃ w ∈ ws, w.1 = e ∨ w.2 = e := by
  rw [mem_usedPins]
  constructor
  · rintro ⟨_, hmem, hend⟩
    obtain ⟨w, hw, rfl⟩ := mem_map.mp hmem
    exact ⟨w, hw, hend⟩
  · rintro ⟨w, hw, hend⟩
    exact ⟨toWire w, mem_map_of_mem hw, hend⟩

def exportedNets (host : Host) (nl : Netlist) : List (List PlEndpoint) :=
  (host.order ((exportedEndpoints host.randString nl.normals).map Prod.fst).dedup).map
    (netEndpoints (exportedEndpoints host.randString nl.normals))

section
variable {host : Host} {nl : Netlist} (hnl : Convertible nl)
include hnl

theorem mem_exportedNets {net : List PlEndpoint} :
    net ∈ exportedNets host nl ↔ ∃ p n, pinNode nl p = some n ∧
      net = netEndpoints (exportedEndpoints host.randString nl.normals) n := by
  rw [exportedNets, mem_map]
  simp only [(host.order_perm _).mem_iff, mem_dedup]
  constructor
  · rintro ⟨n, hn, rfl⟩
    obtain ⟨⟨n', e⟩, he, rfl⟩ := mem_map.mp hn
    obtain ⟨p, hp, _⟩ := (mem_exportedEndpoints_iff hnl).mp he
    exact ⟨p, n', hp, rfl⟩
  · rintro ⟨p, n, hp, rfl⟩
    exact ⟨n, mem_map_of_mem ((mem_exportedEndpoints_iff hnl).mpr ⟨p, hp, rfl⟩), rfl⟩

theorem ends_of_wire {w : PlEndpoint × PlEndpoint} (hw : w ∈ (exportedNets host nl).flatMap star) :
    ∃ p q, IsPin nl p ∧ IsPin nl q ∧ w = (endpointOf host nl p, endpointOf host nl q) := by
  obtain ⟨net, hnet, hw⟩ := mem_flatMap.mp hw
  obtain ⟨_, n, _, rfl⟩ := (mem_exportedNets hnl).mp hnet
  obtain ⟨h₁, h₂⟩ := mem_of_mem_star hw
  obtain ⟨p, hp, hep⟩ := (mem_exportedEndpoints_iff hnl).mp (mem_netEndpoints.mp h₁)
  obtain ⟨q, hq, heq⟩ := (mem_exportedEndpoints_iff hnl).mp (mem_netEndpoints.mp h₂)
  exact ⟨p, q, (isPin_iff_pinNode hnl).mpr ⟨n, hp⟩, (isPin_iff_pinNode hnl).mpr ⟨n, hq⟩, Prod.ext hep heq⟩

variable (hids : ((List.range nl.normals.length).map host.randString).Nodup)
include hids

theorem used_iff (hp : IsPin nl p) :
    (∃ w ∈ (exportedNets host nl).flatMap star, w.1 = endpointOf host nl p ∨ w.2 = endpointOf host nl p) ↔
      ∃ q, IsPin nl q ∧ q ≠ p ∧ pinNode nl q = pinNode nl p := by
  obtain ⟨n, hn⟩ := (isPin_iff_pinNode hnl).mp hp
  have hmem {q : PePin} {n' : NodeId} (hq : pinNode nl q = some n') :
      endpointOf host nl q ∈ netEndpoints (exportedEndpoints host.randString nl.normals) n' :=
    mem_netEndpoints.mpr ((mem_exportedEndpoints_iff hnl).mpr ⟨q, hq, rfl⟩)
  have hinj := endpointOf_injOn hnl hids
  constructor
  · rintro ⟨w, hw, hend⟩
    obtain ⟨net, hnet, hw⟩ := mem_flatMap.mp hw
    obtain ⟨_, n', _, rfl⟩ := (mem_exportedNets hnl).mp hnet
    have hpn : endpointOf host nl p ∈ netEndpoints (exportedEndpoints host.randString nl.normals) n' := by
      rcases hend with h | h
      · exact h ▸ (mem_of_mem_star hw).1
      · exact h ▸ (mem_of_mem_star hw).2
    obtain ⟨p', hp', hpe⟩ := (mem_exportedEndpoints_iff hnl).mp (mem_netEndpoints.mp hpn)
    obtain rfl : p = p' := hinj hp ((isPin_iff_pinNode hnl).mpr ⟨n', hp'⟩) hpe
    obtain ⟨e, he, hne⟩ := (mem_star_iff (nodup_dedup _) hpn).mp ⟨w, hw, hend⟩
    obtain ⟨q, hq, rfl⟩ := (mem_exportedEndpoints_iff hnl).mp (mem_netEndpoints.mp he)
    exact ⟨q, (isPin_iff_pinNode hnl).mpr ⟨n', hq⟩, fun h => hne (h ▸ rfl), hq.trans hp'.symm⟩
  · rintro ⟨q, hq, hne, hnode⟩
    have hother : ∃ e ∈ netEndpoints (exportedEndpoints host.randString nl.normals) n, e ≠ endpointOf host nl p :=
      ⟨_, hmem (hnode.trans hn), fun h => hne (hinj hq hp h)⟩
    obtain ⟨w, hw, hend⟩ := (mem_star_iff (nodup_dedup _) (hmem hn)).mpr hother
    exact ⟨w, mem_flatMap.mpr ⟨_, (mem_exportedNets hnl).mpr ⟨p, n, hn, rfl⟩, hw⟩, hend⟩

theorem plPin_of_used {i : Nat} {m : Model} (hm : nl.normals[i]? = some m)
    (h : pin ∈ usedPins (((exportedNets host nl).flatMap star).map toWire) (host.randString i)) :
    ∃ k < pinCount m.kind, plPin m.kind k = pin := by
  obtain ⟨w, hw, hend⟩ := (mem_usedPins_toWire (e := ⟨host.randString i, pin⟩)).mp h
  obtain ⟨p, q, hp, hq, rfl⟩ := ends_of_wire hnl hw
  have hpin {p : PePin} (hp : IsPin nl p) (hend : endpointOf host nl p = ⟨host.randString i, pin⟩) :
      ∃ k < pinCount m.kind, plPin m.kind k = pin := by
    obtain ⟨m', hm', hlt⟩ := hp
    rw [endpointOf, hm', PlEndpoint.mk.injEq] at hend
    have hi : p.elementIndex = i := inj_on_of_nodup_map hids
      (mem_range.mpr (List.getElem?_eq_some_iff.mp hm').1) (mem_range.mpr (List.getElem?_eq_some_iff.mp hm).1) hend.1
    rw [hi, hm] at hm'
    cases hm'
    exact ⟨p.pin, hnl.pins m (List.mem_of_getElem? hm) ▸ hlt, hend.2⟩
  rcases hend with h | h
  · exact hpin hp h
  · exact hpin hq h

theorem no_extra_iff :
    (∀ i m, nl.normals[i]? = some m →
      extraComponents (((exportedNets host nl).flatMap star).map toWire) (host.randString i) m = []) ↔
    ∀ i m, nl.normals[i]? = some m → m.kind = .randomGenerator4 →
      ∃ q, IsPin nl q ∧ q ≠ ⟨i, 5⟩ ∧ pinNode nl q = pinNode nl ⟨i, 5⟩ := by
  refine forall_congr' fun i => forall_congr' fun m => forall_congr' fun hm => ?_
  rw [extraComponents]
  by_cases hkind : m.kind = .randomGenerator4
  · have hpin : IsPin nl ⟨i, 5⟩ := by
      refine ⟨m, hm, ?_⟩
      rw [hnl.pins m (List.mem_of_getElem? hm), hkind]
      show 5 < 6
      decide
    have hend : endpointOf host nl ⟨i, 5⟩ = ⟨host.randString i, 5⟩ := by
      have hlast : plPin .randomGenerator4 5 = 5 := by decide
      rw [endpointOf, hm]
      show (⟨host.randString i, plPin m.kind 5⟩ : PlEndpoint) = _
      rw [hkind, hlast]
    have hused : 5 ∈ usedPins (((exportedNets host nl).flatMap star).map toWire) (host.randString i) ↔
        ∃ q, IsPin nl q ∧ q ≠ ⟨i, 5⟩ ∧ pinNode nl q = pinNode nl ⟨i, 5⟩ := by
      rw [← used_iff hnl hids hpin, hend]
      exact mem_usedPins_toWire (e := ⟨host.randString i, 5⟩)
    rw [← hused]
    by_cases h : 5 ∈ usedPins (((exportedNets host nl).flatMap star).map toWire) (host.randString i)
    · rw [if_neg fun hx => hx.2 h]
      exact iff_of_true rfl fun _ => h
    · rw [if_pos ⟨hkind, h⟩]
      exact iff_of_false (cons_ne_nil _ _) fun hx => h (hx hkind)
  · rw [if_neg fun hx => hkind hx.1]
    exact iff_of_true rfl fun hx => absurd hx hkind

theorem lookup_endpointOf {st : BuildState}
    (hst : Built (((exportedNets host nl).flatMap star).map toWire) host.randString nl.normals
      nl.normals.length st)
    (hno : ∀ i m, nl.normals[i]? = some m →
      extraComponents (((exportedNets host nl).flatMap star).map toWire) (host.randString i) m = [])
    (hp : IsPin nl p)
    (hused : ∃ w ∈ (exportedNets host nl).flatMap star, w.1 = endpointOf host nl p ∨ w.2 = endpointOf host nl p) :
    ∃ table, st.pinMap.lookup (endpointOf host nl p).elementIdentifier = some table ∧
      table.lookup (endpointOf host nl p).pin = some (mirror nl p) := by
  have hpins := mem_usedPins_toWire.mpr hused
  obtain ⟨m, hm, hlt⟩ := hp
  have hend : endpointOf host nl p = ⟨host.randString p.elementIndex, plPin m.kind p.pin⟩ := by rw [endpointOf, hm]
  rw [hend] at hpins ⊢
  obtain ⟨table, hmem, htable⟩ := hst.tables hno p.elementIndex (List.getElem?_eq_some_iff.mp hm).1 m hm
  have hlookup := AssocMap.lookup_of_mem (hst.keys ▸ hids) hmem
  rw [lawful_beq_subsingleton instBEqOfDecidableEq instBEq] at hlookup
  refine ⟨table, hlookup, ?_⟩
  rw [htable p.pin (hnl.pins m (List.mem_of_getElem? hm) ▸ hlt) hpins, mirror, hm]

end

noncomputable def comesBack (host : Host) (nl : Netlist) (e : PlEndpoint) : PePin :=
  mirror nl (Function.invFunOn (endpointOf host nl) {p | IsPin nl p} e)

section
variable {host : Host} {nl : Netlist} (hnl : Convertible nl)
  (hids : ((List.range nl.normals.length).map host.randString).Nodup)
include hnl hids

theorem comesBack_endpointOf (hp : IsPin nl p) : comesBack host nl (endpointOf host nl p) = mirror nl p := by
  rw [comesBack, (endpointOf_injOn hnl hids).leftInvOn_invFunOn hp]

theorem joined_comesBack {q : PePin} (hp : IsPin nl p) (hq : IsPin nl q) :
    Joined (((exportedNets host nl).map (List.map (comesBack host nl))).flatMap star) p q ↔
      pinNode nl (mirror nl p) = pinNode nl (mirror nl q) := by
  refine @joined_stars_iff _ _ p q (fun p => pinNode nl (mirror nl p)) _ ?_ ?_
  · intro net hmem
    obtain ⟨_, hnet, rfl⟩ := mem_map.mp hmem
    obtain ⟨_, n, _, rfl⟩ := (mem_exportedNets hnl).mp hnet
    have hlab {a : PePin} (ha : a ∈ (netEndpoints (exportedEndpoints host.randString nl.normals) n).map
        (comesBack host nl)) : pinNode nl (mirror nl a) = some n := by
      obtain ⟨e, he, rfl⟩ := mem_map.mp ha
      obtain ⟨p', hp', rfl⟩ := (mem_exportedEndpoints_iff hnl).mp (mem_netEndpoints.mp he)
      have hpin := (isPin_iff_pinNode hnl).mpr ⟨n, hp'⟩
      rw [comesBack_endpointOf hnl hids hpin, (mirror_mirror hnl hpin).2, hp']
    intro a ha b hb
    exact (hlab ha).trans (hlab hb).symm
  · intro hlab
    obtain ⟨hmp, hmmp⟩ := mirror_mirror hnl hp
    obtain ⟨hmq, hmmq⟩ := mirror_mirror hnl hq
    obtain ⟨n, hn⟩ := (isPin_iff_pinNode hnl).mp hmp
    have hmem {a : PePin} (ha : IsPin nl a) (hback : mirror nl (mirror nl a) = a) (hma : IsPin nl (mirror nl a))
        (hnode : pinNode nl (mirror nl a) = some n) :
        a ∈ (netEndpoints (exportedEndpoints host.randString nl.normals) n).map (comesBack host nl) := by
      have heq : comesBack host nl (endpointOf host nl (mirror nl a)) = a := by
        rw [comesBack_endpointOf hnl hids hma, hback]
      rw [← heq]
      exact mem_map_of_mem (mem_netEndpoints.mpr ((mem_exportedEndpoints_iff hnl).mpr ⟨_, hnode, rfl⟩))
    exact ⟨_, mem_map_of_mem ((mem_exportedNets hnl).mpr ⟨_, n, hn, rfl⟩), hmem hp hmmp hmp hn,
      hmem hq hmmq hmq (hlab ▸ hn)⟩

theorem mapM_translateWire {st : BuildState}
    (hst : Built (((exportedNets host nl).flatMap star).map toWire) host.randString nl.normals
      nl.normals.length st)
    (hno : ∀ i m, nl.normals[i]? = some m →
      extraComponents (((exportedNets host nl).flatMap star).map toWire) (host.randString i) m = []) :
    ((((exportedNets host nl).flatMap star).map toWire).mapM (translateWire st.pinMap)) =
      .ok ((((exportedNets host nl).map (List.map (comesBack host nl))).flatMap star).map some) := by
  have hwires : ((exportedNets host nl).map (List.map (comesBack host nl))).flatMap star =
      ((exportedNets host nl).flatMap star).map (Prod.map (comesBack host nl) (comesBack host nl)) := by
    rw [flatMap_map, map_flatMap]
    simp only [star_map]
  rw [hwires, List.map_map]
  apply mapM_of_forall₂
  rw [forall₂_map_left_iff, forall₂_map_right_iff, forall₂_same]
  intro w hw
  obtain ⟨p, q, hp, hq, rfl⟩ := ends_of_wire hnl hw
  obtain ⟨s, hs, hsp⟩ := lookup_endpointOf hnl hids hst hno hp ⟨_, hw, .inl rfl⟩
  obtain ⟨t, ht, htq⟩ := lookup_endpointOf hnl hids hst hno hq ⟨_, hw, .inr rfl⟩
  simp only [translateWire, toWire, hs, ht, hsp, htq, Function.comp_apply, Prod.map_apply,
    comesBack_endpointOf hnl hids hp,
    comesBack_endpointOf hnl hids hq]

end

theorem sameModel_componentOf {m : Model} (hkind : m.kind ∈ exportedKinds) : SameModel m (componentOf m) := by
  have hall : ∀ kind ∈ exportedKinds, (codeOf kind).kind = some kind := by decide
  exact ⟨hall m.kind hkind, fun h => if_pos h⟩

theorem build_converted {host : Host} {nl : Netlist} {r : Result} (hnl : Convertible nl)
    (hr : convert host {} nl = .ok r) :
    (∀ c, build r.ex = .ok c → nl.normals ≠ [] ∧
      c.components = allComponents r.ex.wires host.randString nl.normals) ∧
    (nl.normals ≠ [] →
      (∀ i m, nl.normals[i]? = some m → extraComponents r.ex.wires (host.randString i) m = []) →
      build r.ex = .ok ⟨nl.normals.map componentOf,
        ((exportedNets host nl).map (List.map (comesBack host nl))).flatMap star⟩) := by
  obtain ⟨hids, helements, hwires⟩ := (convert_eq hnl.kind hnl.pins).2 r hr
  have hnets : r.ex.wires = ((exportedNets host nl).flatMap star).map toWire := by
    rw [hwires, exportedNets, flatMap_map]
  have hempty : r.ex.elements = [] ↔ nl.normals = [] := by
    rw [← length_eq_zero_iff, helements, length_exportedElements, length_eq_zero_iff]
  obtain ⟨st, hrun, hst⟩ := foldlM_expandElement hnl.kind hnl.level
    (fun i m hm pin hpin => plPin_of_used hnl hids hm (hnets ▸ hpin)) (Nat.le_refl nl.normals.length)
  rw [take_of_length_le (length_exportedElements _ _).le, ← helements] at hrun
  constructor
  · intro c hc
    rw [build] at hc
    split_ifs at hc with hnil
    rw [hrun, ok_bind] at hc
    obtain ⟨ws, _, hc⟩ := bind_eq_ok hc
    cases hc
    refine ⟨fun h => hnil (hempty.mpr h), ?_⟩
    rw [hst.components, take_length]
  · intro hne hno
    have hinternal := hst.internalWires hno
    have hcomponents : st.components = nl.normals.map componentOf := by
      rw [hst.components, take_length, allComponents_of_no_extra hno]
    rw [hnets] at hst hno
    rw [build, if_neg fun h => hne (hempty.mp h), hrun, ok_bind, hnets, mapM_translateWire hnl hids hst hno, ok_bind,
      hcomponents, hinternal, append_nil, reduceOption, filterMap_map]
    exact congrArg (fun ws => Except.ok (⟨nl.normals.map componentOf, ws⟩ : Circuit)) filterMap_some

def ResetsUsed : Prop :=
  ∀ i m, nl.normals[i]? = some m → m.kind = .randomGenerator4 →
    ∃ q, IsPin nl q ∧ q ≠ ⟨i, 5⟩ ∧ pinNode nl q = pinNode nl ⟨i, 5⟩

/-- Reversing the pins of the multipliers changes nothing in which pins share a node. -/
def MirrorsNodes : Prop :=
  ∀ p q, IsPin nl p → IsPin nl q → (pinNode nl (mirror nl p) = pinNode nl (mirror nl q) ↔ pinNode nl p = pinNode nl q)

section
variable {host : Host} {nl : Netlist} {r : Result} (hnl : Convertible nl) (hr : convert host {} nl = .ok r)
include hnl hr

theorem no_extra_iff_resetsUsed :
    (∀ i m, nl.normals[i]? = some m → extraComponents r.ex.wires (host.randString i) m = []) ↔ ResetsUsed nl := by
  obtain ⟨hids, _, hwires⟩ := (convert_eq hnl.kind hnl.pins).2 r hr
  have hnets : r.ex.wires = ((exportedNets host nl).flatMap star).map toWire := by
    rw [hwires, exportedNets, flatMap_map]
  rw [hnets]
  exact no_extra_iff hnl hids

theorem keepsCircuit_of_mirrorsNodes (hne : nl.normals ≠ []) (hresets : ResetsUsed nl)
    (hmirror : MirrorsNodes nl) :
    ∃ c, build r.ex = .ok c ∧ KeepsCircuit nl c := by
  obtain ⟨hids, _⟩ := (convert_eq hnl.kind hnl.pins).2 r hr
  refine ⟨_, (build_converted hnl hr).2 hne ((no_extra_iff_resetsUsed hnl hr).mpr hresets), ?_, fun p q hp hq => ?_⟩
  · rw [forall₂_map_right_iff, forall₂_same]
    exact fun m hm => sameModel_componentOf (hnl.kind m hm)
  · exact (joined_comesBack hnl hids hp hq).trans (hmirror p q hp hq)

theorem mirrorsNodes_of_keepsCircuit {c : Circuit} (hc : build r.ex = .ok c) (hkeeps : KeepsCircuit nl c) :
    nl.normals ≠ [] ∧ ResetsUsed nl ∧ MirrorsNodes nl := by
  obtain ⟨hids, _⟩ := (convert_eq hnl.kind hnl.pins).2 r hr
  obtain ⟨hne, hcomponents⟩ := (build_converted hnl hr).1 c hc
  -- There are as many components as models, so no generator has got a second one.
  have hno := no_extra_of_length (hcomponents ▸ hkeeps.models.length_eq.symm)
  refine ⟨hne, (no_extra_iff_resetsUsed hnl hr).mp hno, fun p q hp hq => ?_⟩
  have hbuild := (build_converted hnl hr).2 hne hno
  rw [hc] at hbuild
  cases hbuild
  exact (joined_comesBack hnl hids hp hq).symm.trans (hkeeps.joined p q hp hq)

/-- When a converted netlist comes back as it was. -/
theorem keepsCircuit_iff : (∃ c, build r.ex = .ok c ∧ KeepsCircuit nl c) ↔
    nl.normals ≠ [] ∧ ResetsUsed nl ∧ MirrorsNodes nl := by
  constructor
  · rintro ⟨c, hc, hkeeps⟩
    exact mirrorsNodes_of_keepsCircuit hnl hr hc hkeeps
  · rintro ⟨hne, hresets, hmirror⟩
    exact keepsCircuit_of_mirrorsNodes hnl hr hne hresets hmirror

end

/-- Identifiers of different lengths, and nodes in the order of their pins. -/
def plainHost : Host where
  randString k := List.replicate k 'a'
  order := id
  order_perm ns := .refl ns

theorem nodup_plainHost (n : Nat) : ((List.range n).map plainHost.randString).Nodup := by
  refine List.Nodup.map (fun a b h => ?_) nodup_range
  have hlen := congrArg List.length h
  rwa [plainHost, length_replicate, length_replicate] at hlen

def inputAndGate : Netlist := .ofModels 2 [.port .input [0] "" [.digital .H], .on .not [0, 1]]

theorem mirrorsNodes_of_no_mul2 {nl : Netlist} (h : ∀ m ∈ nl.normals, m.kind ≠ .mul2) : MirrorsNodes nl := by
  have hmirror (p : PePin) : mirror nl p = p := by
    rw [mirror]
    split
    · rename_i m hm
      rw [mirrorPin, if_neg (h m (List.mem_of_getElem? hm))]
    · rfl
  intro p q _ _
  rw [hmirror, hmirror]

theorem keepsCircuit_iff_gate : Convertible inputAndGate ∧ ∃ r, convert plainHost {} inputAndGate = .ok r ∧
    ∃ c, build r.ex = .ok c ∧ KeepsCircuit inputAndGate c := by
  have hnl : Convertible inputAndGate :=
    ⟨by decide, by simp [inputAndGate, Netlist.normals_ofModels, HasLevel, Model.on, Model.port, Model.getAttribute],
      by decide, by decide⟩
  obtain ⟨r, hr⟩ := (@convert_eq plainHost _ hnl.kind hnl.pins).1 (nodup_plainHost _)
  refine ⟨hnl, r, hr, (keepsCircuit_iff hnl hr).mpr ⟨by decide, ?_, mirrorsNodes_of_no_mul2 (by decide)⟩⟩
  have hall : ∀ m ∈ inputAndGate.normals, m.kind ≠ .randomGenerator4 := by decide
  exact fun i m hm hkind => absurd hkind (hall m (List.mem_of_getElem? hm))

def oneMultiplier : Netlist :=
  let nl := ({} : Netlist).createNode.1
  let nl := (nl.addModel { kind := .mul2, name := "", attrs := [], pins := List.replicate 8 none }).1
  let nl := (nl.addToNode ⟨0, 0⟩ 0 (.node 0)).1
  let nl := (nl.addToNode ⟨0, 0⟩ 1 .ground).1
  let nl := (nl.addToNode ⟨0, 0⟩ 2 .ground).1
  let nl := (nl.addToNode ⟨0, 0⟩ 3 .ground).1
  let nl := (nl.addToNode ⟨0, 0⟩ 4 .ground).1
  let nl := (nl.addToNode ⟨0, 0⟩ 5 .ground).1
  let nl := (nl.addToNode ⟨0, 0⟩ 6 .ground).1
  (nl.addToNode ⟨0, 0⟩ 7 .ground).1

theorem reachable_oneMultiplier : Netlist.Reachable oneMultiplier := by
  refine .addToNode ?_ rfl rfl rfl
  refine .addToNode ?_ rfl rfl rfl
  refine .addToNode ?_ rfl rfl rfl
  refine .addToNode ?_ rfl rfl rfl
  refine .addToNode ?_ rfl rfl rfl
  refine .addToNode ?_ rfl rfl rfl
  refine .addToNode ?_ rfl rfl rfl
  exact .addToNode (.addModel (.createNode .empty) (by simp [Netlist.Fresh])) rfl rfl rfl

/-- The multiplier comes back with its first and its last pin exchanged. -/
theorem oneMultiplier_reversed : oneMultiplier.Consistent ∧ Convertible oneMultiplier ∧
    ∃ r, convert plainHost {} oneMultiplier = .ok r ∧ ¬∃ c, build r.ex = .ok c ∧ KeepsCircuit oneMultiplier c := by
  have hmodels : oneMultiplier.normals =
      [⟨.mul2, "", [], some (.node 0) :: List.replicate 7 (some .ground)⟩] := by decide
  have hnl : Convertible oneMultiplier := by
    refine ⟨?_, ?_, ?_, ?_⟩
    all_goals
      rw [hmodels]
      intro m hm
      rw [List.mem_singleton.mp hm]
    · decide
    · exact fun h => by cases h
    · decide
    · decide
  obtain ⟨r, hr⟩ := (@convert_eq plainHost _ hnl.kind hnl.pins).1 (nodup_plainHost _)
  refine ⟨reachable_oneMultiplier.sound.consistent, hnl, r, hr, fun ⟨c, hc, hkeeps⟩ => ?_⟩
  have hmirror := (mirrorsNodes_of_keepsCircuit hnl hr hc hkeeps).2.2 ⟨0, 0⟩ ⟨0, 1⟩
    ⟨_, by rw [hmodels]; rfl, by decide⟩ ⟨_, by rw [hmodels]; rfl, by decide⟩
  simp only [mirror, pinNode, hmodels] at hmirror
  exact absurd hmirror (by decide)

end PhyEngine.PhyLab
