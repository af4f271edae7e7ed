import PhyEngine.Library.Stars
import PhyEngine.PhyLab.Expansion

/-!
# The experiment of a netlist

What `convert_ec` makes of a netlist with known models: an element for each model and a
star of wires for each node (`convert_eq`).
-/

namespace PhyEngine.PhyLab

open Failing Stars List

section
variable {host : Host} {ms : List Model}

structure Exported (host : Host) (ms : List Model) (st : ExportState) : Prop where
  elements : st.ex.elements = exportedElements host.randString ms
  wires : st.ex.wires = []
  mapped : st.mapped = ms.zipIdx.map fun p => ⟨p.1, host.randString p.2, (plMapping p.1.kind).peToPlPin⟩

variable (ids : Nat → Identifier)

theorem exportedElements_concat (ms : List Model) (m : Model) :
    exportedElements ids (ms ++ [m]) = exportedElements ids ms ++ [exportedElement (ids ms.length) m] := by
  rw [exportedElements, zipIdx_append, map_append]
  simp [exportedElements]

theorem identifiers_exported (ms : List Model) :
    (exportedElements ids ms).map Element.identifier = (List.range ms.length).map ids := by
  induction ms using reverseRecOn with
  | nil => rfl
  | append_singleton ms m ih =>
    rw [exportedElements_concat, map_append, ih, length_append, length_singleton, range_succ,
      map_append, map_singleton, map_singleton, exportedElement_identifier]

theorem length_exportedElements (ms : List Model) : (exportedElements ids ms).length = ms.length := by
  rw [exportedElements, length_map, length_zipIdx]

theorem exportModel_eq (nl : Netlist) {st : ExportState} (hst : Exported host ms st) {m : Model}
    (hkind : m.kind ∈ exportedKinds) :
    (host.randString ms.length ∈ (List.range ms.length).map host.randString →
      ∃ e, exportModel host {} nl st m = .error e) ∧
    (host.randString ms.length ∉ (List.range ms.length).map host.randString →
      ∃ st', exportModel host {} nl st m = .ok st' ∧ Exported host (ms ++ [m]) st') := by
  obtain ⟨htype, hmap, hid⟩ := mapPeModelToPl_eq hkind
  have hlen : st.ex.elements.length = ms.length := by rw [hst.elements, length_exportedElements]
  have hids : st.ex.identifiers = (List.range ms.length).map host.randString := by
    rw [Experiment.identifiers, hst.elements, identifiers_exported]
  simp only [exportModel, htype, hmap, ok_bind, hid, hlen, Experiment.addCircuitElement, hids, ne_eq, not_true_eq_false,
    if_false, Bool.false_eq_true, false_and]
  constructor
  · intro hmem
    rw [if_pos hmem]
    exact ⟨_, rfl⟩
  · intro hmem
    have hold : st.ex.elements.map (fun e => if e.identifier =
      host.randString ms.length then setPlProperties m e else e) =
        st.ex.elements := by
      rw [map_congr_left (g := id), map_id]
      intro e he
      rw [if_neg, id]
      intro heq
      apply hmem
      rw [← heq, ← hids]
      exact mem_map_of_mem he
    rw [if_neg hmem]
    refine ⟨_, rfl, ?_, hst.wires, ?_⟩
    · show (st.ex.elements ++ [_]).map _ = _
      rw [map_append, hold, hst.elements, exportedElements_concat, map_singleton]
      exact congrArg (fun e => exportedElements host.randString ms ++ [e]) (if_pos rfl)
    · show st.mapped ++ [_] = _
      rw [hst.mapped, zipIdx_append, map_append]
      simp

theorem foldlM_exportModel (nl : Netlist) (hkind : ∀ m ∈ ms, m.kind ∈ exportedKinds) :
    (((List.range ms.length).map host.randString).Nodup → ∃ st, ms.foldlM (exportModel host {} nl) {} = .ok st) ∧
      ∀ st, ms.foldlM (exportModel host {} nl) {} = .ok st →
        ((List.range ms.length).map host.randString).Nodup ∧ Exported host ms st := by
  induction ms using reverseRecOn with
  | nil =>
    refine ⟨fun _ => ⟨{}, rfl⟩, fun st h => ?_⟩
    cases h
    exact ⟨nodup_nil, rfl, rfl, rfl⟩
  | append_singleton ms m ih =>
    obtain ⟨hok, hinv⟩ := ih fun m' hm' => hkind m' (mem_append_left _ hm')
    have hm : m.kind ∈ exportedKinds := hkind m (by simp)
    have hrange : (List.range (ms ++ [m]).length).map host.randString =
        (List.range ms.length).map host.randString ++ [host.randString ms.length] := by
      rw [length_append, length_singleton, range_succ, map_append, map_singleton]
    have hstep (st : ExportState) : [m].foldlM (exportModel host {} nl) st = exportModel host {} nl st m := by
      rw [foldlM_cons]
      exact bind_pure _
    rw [hrange, nodup_append_comm, singleton_append, nodup_cons]
    constructor
    · intro ⟨hfresh, hnodup⟩
      obtain ⟨st, hst⟩ := hok hnodup
      obtain ⟨st', hst', _⟩ := (exportModel_eq nl (hinv st hst).2 hm).2 hfresh
      exact ⟨st', by rw [foldlM_append, hst, ok_bind, hstep, hst']⟩
    · intro st h
      rw [foldlM_append] at h
      obtain ⟨st₁, hst₁, h⟩ := bind_eq_ok h
      rw [hstep] at h
      obtain ⟨hnodup, hexported⟩ := hinv st₁ hst₁
      obtain ⟨hdup, hfresh⟩ := exportModel_eq nl hexported hm
      have hnew : host.randString ms.length ∉ (List.range ms.length).map host.randString := by
        intro hmem
        obtain ⟨e, he⟩ := hdup hmem
        rw [h] at he
        cases he
      obtain ⟨st', hst', hexported'⟩ := hfresh hnew
      rw [h] at hst'
      cases hst'
      exact ⟨⟨hnew, hnodup⟩, hexported'⟩

def exportedEndpoints (ms : List Model) : List (NodeId × PlEndpoint) :=
  (ms.zipIdx.map fun p => (⟨p.1, ids p.2, (plMapping p.1.kind).peToPlPin⟩ : MappedElement)).flatMap
    MappedElement.endpoints

variable {e : PlEndpoint} {n : NodeId}

theorem mem_exportedEndpoints {ids : Nat → Identifier} (hkind : ∀ m ∈ ms, m.kind ∈ exportedKinds)
    (hpins : ∀ m ∈ ms, m.pins.length = pinCount m.kind) :
    (n, e) ∈ exportedEndpoints ids ms ↔
      ∃ i m k, ms[i]? = some m ∧ m.pins[k]? = some (some n) ∧ e = ⟨ids i, plPin m.kind k⟩ := by
  have hlookup {i : Nat} {m : Model} {k : Nat} (hm : ms[i]? = some m) (hk : k < m.pins.length) :
      (plMapping m.kind).peToPlPin.lookup k = some (plPin m.kind k) := by
    have hmem := List.mem_of_getElem? hm
    exact lookup_peToPlPin (hkind m hmem) (hpins m hmem ▸ hk)
  simp only [exportedEndpoints, mem_flatMap, mem_map, MappedElement.endpoints, mem_filterMap]
  constructor
  · rintro ⟨_, ⟨⟨m, i⟩, hmi, rfl⟩, ⟨o, k⟩, hk, h⟩
    have hm := mk_mem_zipIdx_iff_getElem?.mp hmi
    have hpin := mk_mem_zipIdx_iff_getElem?.mp hk
    obtain ⟨hlt, _⟩ := List.getElem?_eq_some_iff.mp hpin
    cases o with
    | none => cases h
    | some n' =>
      simp only [hlookup hm hlt] at h
      cases h
      exact ⟨i, m, k, hm, hpin, rfl⟩
  · rintro ⟨i, m, k, hm, hpin, rfl⟩
    obtain ⟨hlt, _⟩ := List.getElem?_eq_some_iff.mp hpin
    refine ⟨_, ⟨(m, i), mk_mem_zipIdx_iff_getElem?.mpr hm, rfl⟩, (some n, k),
      mk_mem_zipIdx_iff_getElem?.mpr hpin, ?_⟩
    simp only [hlookup hm hlt]
    rfl

theorem mem_netEndpoints {eps : List (NodeId × PlEndpoint)} :
    e ∈ netEndpoints eps n ↔ (n, e) ∈ eps := by
  rw [netEndpoints, mem_dedup, (perm_insertionSort _ _).mem_iff, mem_map]
  constructor
  · rintro ⟨⟨n', e'⟩, hmem, rfl⟩
    obtain ⟨heps, hn⟩ := mem_filter.mp hmem
    obtain rfl : n' = n := of_decide_eq_true hn
    exact heps
  · intro h
    exact ⟨(n, e), mem_filter.mpr ⟨h, decide_eq_true rfl⟩, rfl⟩

def toWire (p : PlEndpoint × PlEndpoint) : Wire := ⟨p.1, p.2⟩

theorem foldlM_connect (root : PlEndpoint) (rest : List PlEndpoint) (ex : Experiment) :
    (root.elementIdentifier ∈ ex.identifiers → (∀ e ∈ rest, e.elementIdentifier ∈ ex.identifiers) →
      ∃ ex', rest.foldlM (fun ex e => ex.connect root e) ex = .ok ex') ∧
    ∀ ex', rest.foldlM (fun ex e => ex.connect root e) ex = .ok ex' →
      ex' = { ex with wires := ex.wires ++ (rest.map (Prod.mk root)).map toWire } := by
  induction rest generalizing ex with
  | nil =>
    refine ⟨fun _ _ => ⟨ex, rfl⟩, fun ex' h => ?_⟩
    cases h
    rw [map_nil, map_nil, append_nil]
  | cons e rest ih =>
    obtain ⟨hok, hinv⟩ := ih { ex with wires := ex.wires ++ [⟨root, e⟩] }
    rw [foldlM_cons]
    constructor
    · intro hroot hrest
      obtain ⟨he, hrest⟩ := forall_mem_cons.mp hrest
      rw [Experiment.connect, if_neg (not_not_intro hroot), if_neg (not_not_intro he), ok_bind]
      exact hok hroot hrest
    · intro ex' h
      obtain ⟨ex₁, hconnect, h⟩ := bind_eq_ok h
      rw [Experiment.connect] at hconnect
      split_ifs at hconnect
      cases hconnect
      rw [hinv ex' h, append_assoc]
      rfl

theorem star_eq_nil {es : List PlEndpoint} (h : ¬2 ≤ es.length) : star es = [] := by
  rcases es with _ | ⟨a, _ | ⟨b, es⟩⟩
  · rfl
  · rfl
  · exact absurd (show 2 ≤ es.length + 2 by omega) h

theorem exportNet_eq (eps : List (NodeId × PlEndpoint)) (st : Experiment × List Net) (n : NodeId) :
    ((∀ e ∈ netEndpoints eps n, e.elementIdentifier ∈ st.1.identifiers) → ∃ st', exportNet {} eps st n = .ok st') ∧
    ∀ st', exportNet {} eps st n = .ok st' → st'.1 =
      { st.1 with wires := st.1.wires ++ (star (netEndpoints eps n)).map toWire } := by
  by_cases h : 2 ≤ (netEndpoints eps n).length
  · cases hes : netEndpoints eps n with
    | nil =>
      rw [hes] at h
      exact absurd h (by decide)
    | cons root rest =>
      obtain ⟨hok, hinv⟩ := foldlM_connect root rest st.1
      rw [hes] at h
      have heq : exportNet {} eps st n = (rest.foldlM (fun ex e => ex.connect root e) st.1 >>= fun ex =>
          pure (ex, st.2 ++ [⟨n, root :: rest⟩])) := by
        simp only [exportNet, hes, true_and, if_pos h]
      rw [heq]
      constructor
      · intro hids
        obtain ⟨hroot, hrest⟩ := forall_mem_cons.mp hids
        obtain ⟨ex', hex'⟩ := hok hroot hrest
        exact ⟨_, by rw [hex']; rfl⟩
      · intro st' hst'
        obtain ⟨ex', hex', hst'⟩ := bind_eq_ok hst'
        cases hst'
        exact hinv ex' hex'
  · have heq : exportNet {} eps st n = .ok (st.1, st.2 ++ [⟨n, netEndpoints eps n⟩]) := by
      simp only [exportNet, true_and, if_neg h]
      rfl
    rw [heq, star_eq_nil h, map_nil, append_nil]
    exact ⟨fun _ => ⟨_, rfl⟩, fun st' hst' => by cases hst'; rfl⟩

theorem foldlM_exportNet (eps : List (NodeId × PlEndpoint)) (ns : List NodeId) (st : Experiment × List Net) :
    ((∀ p ∈ eps, p.2.elementIdentifier ∈ st.1.identifiers) → ∃ st', ns.foldlM (exportNet {} eps) st = .ok st') ∧
    ∀ st', ns.foldlM (exportNet {} eps) st = .ok st' → st'.1 =
      { st.1 with wires := st.1.wires ++ (ns.flatMap fun n => star (netEndpoints eps n)).map toWire } := by
  induction ns generalizing st with
  | nil =>
    refine ⟨fun _ => ⟨st, rfl⟩, fun st' h => ?_⟩
    cases h
    rw [flatMap_nil, map_nil, append_nil]
  | cons n ns ih =>
    obtain ⟨hok, hinv⟩ := exportNet_eq eps st n
    rw [foldlM_cons]
    constructor
    · intro hids
      obtain ⟨st₁, hst₁⟩ := hok fun e he => hids (n, e) (mem_netEndpoints.mp he)
      rw [hst₁, ok_bind]
      apply (ih st₁).1
      rw [hinv st₁ hst₁]
      exact hids
    · intro st' h
      obtain ⟨st₁, hst₁, h⟩ := bind_eq_ok h
      rw [(ih st₁).2 st' h, hinv st₁ hst₁, flatMap_cons, map_append, append_assoc]

theorem convert_eq {nl : Netlist} (hkind : ∀ m ∈ nl.normals, m.kind ∈ exportedKinds)
    (hpins : ∀ m ∈ nl.normals, m.pins.length = pinCount m.kind) :
    (((List.range nl.normals.length).map host.randString).Nodup → ∃ r, convert host {} nl = .ok r) ∧
    ∀ r, convert host {} nl = .ok r → ((List.range nl.normals.length).map host.randString).Nodup ∧
      r.ex.elements = exportedElements host.randString nl.normals ∧
      r.ex.wires = ((host.order ((exportedEndpoints host.randString nl.normals).map Prod.fst).dedup).flatMap
        fun n =>
        star (netEndpoints (exportedEndpoints host.randString nl.normals) n)).map toWire := by
  have hmodels := @foldlM_exportModel host nl.normals nl hkind
  obtain ⟨hok, hinv⟩ := hmodels
  have heps {st : ExportState} (hst : Exported host nl.normals st) :
      st.mapped.flatMap MappedElement.endpoints ++ [] = exportedEndpoints host.randString nl.normals := by
    rw [hst.mapped, append_nil]
    rfl
  have hconvert {st : ExportState} (hrun : nl.normals.foldlM (exportModel host {} nl) {} = .ok st) :
      convert host {} nl = ((host.order ((exportedEndpoints host.randString nl.normals).map Prod.fst).dedup).foldlM
        (exportNet {} (exportedEndpoints host.randString nl.normals)) (st.ex, []) >>= fun p =>
          pure ⟨p.1, p.2, st.warnings⟩) := by
    rw [← heps (hinv st hrun).2, convert, hrun]
    rfl
  constructor
  · intro hnodup
    obtain ⟨st, hst⟩ := hok hnodup
    obtain ⟨_, hexported⟩ := hinv st hst
    rw [hconvert hst]
    have hids : ∀ p ∈ exportedEndpoints host.randString nl.normals, p.2.elementIdentifier ∈ st.ex.identifiers := by
      rintro ⟨n, e⟩ he
      obtain ⟨i, m, k, hm, _, rfl⟩ := (mem_exportedEndpoints hkind hpins).mp he
      obtain ⟨hlt, _⟩ := List.getElem?_eq_some_iff.mp hm
      rw [Experiment.identifiers, hexported.elements, identifiers_exported]
      exact mem_map_of_mem (mem_range.mpr hlt)
    obtain ⟨p, hp⟩ := (foldlM_exportNet _ (host.order
      ((exportedEndpoints host.randString nl.normals).map Prod.fst).dedup) (st.ex, [])).1 hids
    exact ⟨_, by rw [hp]; rfl⟩
  · intro r h
    have hrun := h
    rw [convert] at hrun
    obtain ⟨st, hst, _⟩ := bind_eq_ok hrun
    obtain ⟨hnodup, hexported⟩ := hinv st hst
    rw [hconvert hst] at h
    obtain ⟨p, hp, h⟩ := bind_eq_ok h
    cases h
    have hex := (foldlM_exportNet _ _ _).2 p hp
    refine ⟨hnodup, ?_, ?_⟩
    · rw [hex]
      exact hexported.elements
    · rw [hex]
      show st.ex.wires ++ _ = _
      rw [hexported.wires, nil_append]

end

end PhyEngine.PhyLab
