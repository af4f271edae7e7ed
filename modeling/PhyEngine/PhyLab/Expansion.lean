import PhyEngine.Library.Failing
import PhyEngine.PhyLab.Export
import PhyEngine.PhyLab.Import

/-!
# Exported models and the components they come back as

The pin tables of both directions and what `build_` makes of the element of a model. The tables
agree for all elements but the multiplier, whose pins are exported in reverse order
(`mirrorPin`).
-/

namespace PhyEngine.PhyLab

open Failing List

def exportedKinds : List ModelKind :=
  [.input, .output, .yes, .not, .and, .or, .xor, .xnor, .nand, .nor, .imp, .nimp, .halfAdder, .fullAdder, .halfSub,
    .fullSub, .mul2, .dff, .tff, .tBarFf, .jkff, .counter4, .randomGenerator4]

def pinCount : ModelKind → Nat
  | .input | .output => 1
  | .yes | .not => 2
  | .and | .or | .xor | .xnor | .nand | .nor | .imp | .nimp | .dff | .tff | .tBarFf => 3
  | .halfAdder | .halfSub | .jkff => 4
  | .fullAdder | .fullSub => 5
  | .counter4 | .randomGenerator4 => 6
  | .mul2 => 8
  | _ => 0

def plMapping (kind : ModelKind) : PlModelMapping :=
  match mapPeModelToPl {} kind with
  | .ok p => p.1
  | .error _ => {}

def plPin (kind : ModelKind) (k : Nat) : Nat := ((plMapping kind).peToPlPin.lookup k).getD 0

variable (id : Identifier)

def mirrorPin (kind : ModelKind) (k : Nat) : Nat := if kind = .mul2 then 7 - k else k

variable {kind : ModelKind} {k : Nat} {m : Model}

section

variable (hkind : kind ∈ exportedKinds)
include hkind

theorem mapPeModelToPl_eq :
    kind.deviceType = .digital ∧ mapPeModelToPl {} kind = .ok (plMapping kind, []) ∧ (plMapping kind).modelId ≠ "" := by
  have hall : ∀ kind ∈ exportedKinds, kind.deviceType = .digital ∧ (mapPeModelToPl {} kind).toOption =
    some (plMapping kind, []) ∧
      (plMapping kind).modelId ≠ "" := by decide
  obtain ⟨htype, hmap, hid⟩ := hall kind hkind
  refine ⟨htype, ?_, hid⟩
  cases h : mapPeModelToPl {} kind with
  | error e =>
    rw [h] at hmap
    cases hmap
  | ok p =>
    rw [h] at hmap
    exact congrArg Except.ok (Option.some.inj hmap)

theorem lookup_peToPlPin (hk : k < pinCount kind) :
    (plMapping kind).peToPlPin.lookup k = some (plPin kind k) := by
  have hall : ∀ kind ∈ exportedKinds, ∀ k < pinCount kind, (plMapping kind).peToPlPin.lookup k =
    some (plPin kind k) := by
    decide
  exact hall kind hkind k hk

theorem plPin_injective {j : Nat} (hj : j < pinCount kind) (hk : k < pinCount kind)
    (h : plPin kind j = plPin kind k) : j = k := by
  have hall : ∀ kind ∈ exportedKinds, ∀ j < pinCount kind, ∀ k < pinCount kind, plPin kind j = plPin kind k →
    j = k := by
    decide
  exact hall kind hkind j hj k hk h

end

theorem mirrorPin_lt (hk : k < pinCount kind) : mirrorPin kind k < pinCount kind := by
  rw [mirrorPin]
  split_ifs with h
  · subst h
    show 7 - k < 8
    omega
  · exact hk

theorem mirrorPin_mirrorPin (hk : k < pinCount kind) : mirrorPin kind (mirrorPin kind k) = k := by
  rw [mirrorPin, mirrorPin]
  split_ifs with h
  · subst h
    have hk' : k < 8 := hk
    omega
  · rfl

def exportedElement (m : Model) : Element :=
  setPlProperties m (.circuit id (plMapping m.kind).modelId (plMapping m.kind).isBigElement)

def codeOf : ModelKind → PeCode
  | .input => .digitalInput
  | .output => .digitalOutput
  | .yes => .digitalYes
  | .not => .digitalNot
  | .and => .digitalAnd
  | .or => .digitalOr
  | .xor => .digitalXor
  | .xnor => .digitalXnor
  | .nand => .digitalNand
  | .nor => .digitalNor
  | .imp => .digitalImp
  | .nimp => .digitalNimp
  | .halfAdder => .digitalHalfAdder
  | .fullAdder => .digitalFullAdder
  | .halfSub => .digitalHalfSubtractor
  | .fullSub => .digitalFullSubtractor
  | .mul2 => .digitalMul2
  | .dff => .digitalDff
  | .tff => .digitalTff
  | .tBarFf => .digitalTBarFf
  | .jkff => .digitalJkff
  | .counter4 => .digitalCounter4
  | .randomGenerator4 => .digitalRandomGenerator4
  | _ => .ground

def switchValue (m : Model) : UInt64 := if m.getAttribute 0 = .digital .H then dOne else dZero

def componentOf (m : Model) : Component :=
  ⟨codeOf m.kind,
    if m.kind = .input then [.num (switchValue m)]
    else if m.kind = .counter4 then [.num dZero]
    else if m.kind = .randomGenerator4 then [.num dOne]
    else []⟩

theorem setPlProperties_data (m : Model) (e : Element) :
    (setPlProperties m e).modelId = e.modelId ∧ (setPlProperties m e).identifier = e.identifier := by
  have hlabel : ∀ b : Prop, ∀ _ : Decidable b, (if b then e else { e with label := some m.name }).modelId = e.modelId ∧
      (if b then e else { e with label := some m.name }).identifier = e.identifier := by
    intro b _
    split_ifs
    · exact ⟨rfl, rfl⟩
    · exact ⟨rfl, rfl⟩
  rw [setPlProperties]
  by_cases hkind : m.kind = .input
  · rw [if_pos hkind]
    cases m.getAttribute 0 with
    | digital v => exact hlabel _ _
    | invalid | integer v | boolean v | d v => exact hlabel _ _
  · rw [if_neg hkind]
    exact hlabel _ _

theorem exportedElement_modelId (m : Model) :
    (exportedElement id m).modelId = (plMapping m.kind).modelId := (setPlProperties_data m _).1

theorem exportedElement_identifier (m : Model) : (exportedElement id m).identifier = id :=
  (setPlProperties_data m _).2

def HasLevel (m : Model) : Prop := m.kind = .input → m.getAttribute 0 = .digital .L ∨ m.getAttribute 0 = .digital .H

theorem getRequiredInt01_exported (hkind : m.kind = .input) (hlevel : HasLevel m) :
    getRequiredInt01 (exportedElement id m) "开关" = .ok (switchValue m) := by
  have hlookup : (exportedElement id m).properties.lookup "开关" = some (switchValue m) := by
    rw [exportedElement, setPlProperties, switchValue]
    rcases hlevel hkind with h | h
    · split_ifs <;> simp_all [Element.setProperty]
    · split_ifs <;> simp_all [Element.setProperty]
  have hvalue : (if isZero (switchValue m) then dZero else dOne) = switchValue m := by
    rw [switchValue]
    by_cases h : m.getAttribute 0 = .digital .H
    · rw [if_pos h]
      rfl
    · rw [if_neg h]
      rfl
  rw [getRequiredInt01, getRequiredFloat, hlookup]
  exact congrArg Except.ok hvalue

/-- The second component of an element, for a generator without a reset. -/
def extraComponents (wires : List Wire) (id : Identifier) (m : Model) : List Component :=
  if m.kind = .randomGenerator4 ∧ 5 ∉ usedPins wires id then [⟨.digitalInput, [.num dOne]⟩] else []

structure Expands (wires : List Wire) (id : Identifier) (m : Model) (st st' : BuildState) : Prop where
  components : st'.components = st.components ++ componentOf m :: extraComponents wires id m
  table : ∃ table, st'.pinMap = st.pinMap ++ [(id, table)] ∧
    ∀ k < pinCount m.kind, plPin m.kind k ∈ usedPins wires id →
      table.lookup (plPin m.kind k) = some ⟨st.components.length, mirrorPin m.kind k⟩
  internalWires : extraComponents wires id m = [] → st'.internalWires = st.internalWires

theorem addWithTable_eq (st : BuildState) (id : Identifier) {code : PeCode} {props : List PropValue}
    (h : props.length = code.propArity) (table : List (Nat × Nat)) :
    addWithTable st id code props table = .ok ⟨st.components ++ [⟨code, props⟩],
      st.pinMap ++ [(id, pinTable st.components.length table)], st.internalWires⟩ := by
  rw [addWithTable, BuildState.addPeElement, if_neg fun hne => hne.2 h]
  rfl

theorem lookup_pinTable (idx : Nat) (table : List (Nat × Nat)) (k : Nat) :
    (pinTable idx table).lookup k = (table.lookup k).map fun p => ⟨idx, p⟩ := by
  induction table with
  | nil => rfl
  | cons p table ih =>
    rw [pinTable, map_cons, List.lookup_cons, List.lookup_cons]
    split
    · rfl
    · exact ih

theorem lookup_diagonal {pins : List Nat} (h : k ∈ pins) : (pins.map fun p => (p, p)).lookup k = some k := by
  induction pins with
  | nil => cases h
  | cons p pins ih =>
    rw [map_cons, List.lookup_cons]
    split
    · rename_i heq
      rw [beq_iff_eq.mp heq]
    · rename_i heq
      exact ih ((mem_cons.mp h).resolve_left fun h => by rw [h, beq_self_eq_true] at heq; cases heq)

def plainKinds : List ModelKind :=
  [.input, .output, .yes, .not, .and, .or, .xor, .xnor, .nand, .nor, .imp, .nimp, .mul2, .tff, .tBarFf, .jkff]

theorem toPhyEngineCodeAndProps_exported (hkind : m.kind ∈ plainKinds) (hlevel : HasLevel m) :
    toPhyEngineCodeAndProps (exportedElement id m) = .ok (componentOf m) := by
  have hid := exportedElement_modelId id m
  by_cases hinput : m.kind = .input
  · have hmodel : (exportedElement id m).modelId = "Logic Input" := by rw [hid, hinput]; rfl
    simp only [toPhyEngineCodeAndProps, hmodel, getRequiredInt01_exported id hinput hlevel, ok_bind]
    rw [componentOf, if_pos hinput, hinput]
    rfl
  · simp only [plainKinds, mem_cons, not_mem_nil, or_false] at hkind
    rcases hkind with h | h | h | h | h | h | h | h | h | h | h | h | h | h | h | h
    · exact absurd h hinput
    all_goals
      rw [h] at hid
      simp only [plMapping, mapPeModelToPl, identityMapping] at hid
      simp only [toPhyEngineCodeAndProps, hid, componentOf, h, codeOf, reduceCtorEq, if_false]

theorem expandElement_plain {wires : List Wire} {st : BuildState} {e : Element}
    (h : e.modelId ∉ ["Counter", "Random Generator", "D Flipflop", "Half Adder", "Full Adder", "Half Subtractor",
      "Full Subtractor"]) :
    expandElement wires st e = (do
      let cp ← toPhyEngineCodeAndProps e
      addWithTable st e.identifier cp.code cp.props ((usedPins wires e.identifier).map fun p => (p, p))) := by
  simp only [mem_cons, not_mem_nil, or_false, not_or] at h
  obtain ⟨h₁, h₂, h₃, h₄, h₅, h₆, h₇⟩ := h
  rw [expandElement, if_neg h₁, if_neg h₂, if_neg h₃, if_neg h₄, if_neg h₅, if_neg h₆, if_neg h₇]

theorem expands_plain {wires : List Wire} (hkind : m.kind ∈ plainKinds) (hlevel : HasLevel m)
    (st : BuildState) : ∃ st', expandElement wires st (exportedElement id m) = .ok st' ∧ Expands wires id m st st' := by
  have hspecial : ∀ kind ∈ plainKinds, (plMapping kind).modelId ∉ ["Counter", "Random Generator", "D Flipflop",
    "Half Adder",
      "Full Adder", "Half Subtractor", "Full Subtractor"] ∧ kind ≠ .randomGenerator4 ∧ kind ≠ .counter4 ∧
      ∀ k < pinCount kind, plPin kind k = mirrorPin kind k := by decide
  obtain ⟨hid, hne, hne', hpins⟩ := hspecial m.kind hkind
  have harity : (componentOf m).props.length = (componentOf m).code.propArity := by
    by_cases hinput : m.kind = .input
    · rw [componentOf, if_pos hinput, hinput]
      rfl
    · rw [componentOf, if_neg hinput, if_neg hne', if_neg hne]
      have hall : ∀ kind ∈ plainKinds, kind ≠ .input → 0 = (codeOf kind).propArity := by decide
      exact hall m.kind hkind hinput
  have hextra : extraComponents wires id m = [] := if_neg fun h => hne h.1
  rw [expandElement_plain (by rw [exportedElement_modelId]; exact hid),
    toPhyEngineCodeAndProps_exported id hkind hlevel,
    ok_bind, exportedElement_identifier, addWithTable_eq st id harity]
  refine ⟨_, rfl, by rw [hextra], ⟨_, rfl, fun k hk hused => ?_⟩, fun _ => rfl⟩
  rw [lookup_pinTable, lookup_diagonal hused, Option.map_some, hpins k hk]

/-- The pin tables that are written out in `build_`. -/
def importTable : ModelKind → List (Nat × Nat)
  | .halfAdder | .halfSub => [(3, 0), (2, 1), (0, 2), (1, 3)]
  | .fullAdder | .fullSub => [(4, 0), (2, 1), (3, 2), (0, 3), (1, 4)]
  | .dff => [(2, 0), (3, 1), (0, 2)]
  | .counter4 | .randomGenerator4 => [(0, 0), (1, 1), (2, 2), (3, 3), (4, 4), (5, 5)]
  | _ => []

def tableKinds : List ModelKind := [.halfAdder, .fullAdder, .halfSub, .fullSub, .dff, .counter4, .randomGenerator4]

theorem lookup_importTable (hkind : kind ∈ tableKinds) (hk : k < pinCount kind) :
    (importTable kind).lookup (plPin kind k) = some (mirrorPin kind k) := by
  have hall : ∀ kind ∈ tableKinds, ∀ k < pinCount kind, (importTable kind).lookup (plPin kind k) =
    some (mirrorPin kind k) := by
    decide
  exact hall kind hkind k hk

theorem expandElement_table {wires : List Wire} (hkind : m.kind ∈ tableKinds)
    (hrng : m.kind ≠ .randomGenerator4) (hused : ∀ pin ∈ usedPins wires id, ∃ k < pinCount m.kind, plPin m.kind k = pin)
    (st : BuildState) : expandElement wires st (exportedElement id m) =
      addWithTable st id (componentOf m).code (componentOf m).props (importTable m.kind) := by
  have hid := exportedElement_modelId id m
  have hident := exportedElement_identifier id m
  -- Only a flip-flop looks at the wires, and its inverted output is never exported.
  have hnq : m.kind = .dff → 1 ∉ usedPins wires id := by
    intro h hmem
    obtain ⟨k, hk, hpin⟩ := hused 1 hmem
    rw [h] at hk hpin
    have hall : ∀ k < pinCount .dff, plPin .dff k ≠ 1 := by decide
    exact hall k hk hpin
  simp only [tableKinds, mem_cons, not_mem_nil, or_false] at hkind
  rcases hkind with h | h | h | h | h | h | h
  all_goals
    rw [h] at hid
    simp only [plMapping, mapPeModelToPl, identityMapping] at hid
  · simp [expandElement, hid, hident, componentOf, h, codeOf, importTable]
  · simp [expandElement, hid, hident, componentOf, h, codeOf, importTable]
  · simp [expandElement, hid, hident, componentOf, h, codeOf, importTable]
  · simp [expandElement, hid, hident, componentOf, h, codeOf, importTable]
  · simp [expandElement, hid, hident, componentOf, h, codeOf, importTable, hnq h, addWithTable]
  · simp [expandElement, hid, hident, componentOf, h, codeOf, importTable]
  · exact absurd h hrng

theorem expandElement_randomGenerator (wires : List Wire) (id : Identifier) (hkind : m.kind = .randomGenerator4)
    (st : BuildState) : ∃ ws, expandElement wires st (exportedElement id m) = .ok
      ⟨st.components ++ componentOf m :: extraComponents wires id m,
        st.pinMap ++ [(id, pinTable st.components.length (importTable m.kind))], st.internalWires ++ ws⟩ ∧
      (extraComponents wires id m = [] → ws = []) := by
  have hid : (exportedElement id m).modelId = "Random Generator" := by
    rw [exportedElement_modelId, hkind]
    rfl
  have hcomponent : componentOf m = ⟨.digitalRandomGenerator4, [.num dOne]⟩ := by
    simp [componentOf, hkind, codeOf]
  have hadd : addWithTable st id .digitalRandomGenerator4 [.num dOne] (importTable .randomGenerator4) = _ :=
    addWithTable_eq st id rfl _
  rw [importTable] at hadd
  simp only [expandElement, hid, exportedElement_identifier, hadd, ok_bind, hcomponent, hkind, importTable]
  by_cases hreset : 5 ∈ usedPins wires id
  · have hextra : extraComponents wires id m = [] := if_neg fun hx => hx.2 hreset
    refine ⟨[], ?_, fun _ => rfl⟩
    simp [hreset, hextra]
    rfl
  · have hextra : extraComponents wires id m = [⟨.digitalInput, [.num dOne]⟩] := if_pos ⟨hkind, hreset⟩
    refine ⟨[(⟨st.components.length + 1, 0⟩, ⟨st.components.length, 5⟩)], ?_, fun h => by rw [hextra] at h; cases h⟩
    simp [hreset, hextra, BuildState.addPeElement, BuildState.addWire, PeCode.propArity]

theorem expands_exported {wires : List Wire} (hkind : m.kind ∈ exportedKinds) (hlevel : HasLevel m)
    (hused : ∀ pin ∈ usedPins wires id, ∃ k < pinCount m.kind, plPin m.kind k = pin) (st : BuildState) :
    ∃ st', expandElement wires st (exportedElement id m) = .ok st' ∧ Expands wires id m st st' := by
  have hsplit : ∀ kind ∈ exportedKinds, kind ∈ plainKinds ∨ kind ∈ tableKinds := by decide
  rcases hsplit m.kind hkind with hplain | htable
  · exact expands_plain id hplain hlevel st
  · have hlookup : ∀ k < pinCount m.kind, plPin m.kind k ∈ usedPins wires id →
        (pinTable st.components.length (importTable m.kind)).lookup (plPin m.kind k) =
          some ⟨st.components.length, mirrorPin m.kind k⟩ := by
      intro k hk _
      rw [lookup_pinTable, lookup_importTable htable hk, Option.map_some]
    by_cases hrng : m.kind = .randomGenerator4
    · obtain ⟨ws, hexpand, hws⟩ := expandElement_randomGenerator wires id hrng st
      refine ⟨_, hexpand, rfl, ⟨_, rfl, hlookup⟩, fun hextra => ?_⟩
      rw [hws hextra, append_nil]
    · have hextra : extraComponents wires id m = [] := if_neg fun h => hrng h.1
      have harity : (componentOf m).props.length = (componentOf m).code.propArity := by
        simp only [tableKinds, mem_cons, not_mem_nil, or_false] at htable
        rcases htable with h | h | h | h | h | h | h
        all_goals simp [componentOf, h, codeOf, PeCode.propArity]
      rw [expandElement_table id htable hrng hused, addWithTable_eq st id harity]
      exact ⟨_, rfl, by rw [hextra], ⟨_, rfl, hlookup⟩, fun _ => rfl⟩

section
variable {ms : List Model} {ids : Nat → Identifier} {wires : List Wire}

def exportedElements (ids : Nat → Identifier) (ms : List Model) : List Element :=
  ms.zipIdx.map fun p => exportedElement (ids p.2) p.1

def allComponents (wires : List Wire) (ids : Nat → Identifier) (ms : List Model) : List Component :=
  ms.zipIdx.flatMap fun p => componentOf p.1 :: extraComponents wires (ids p.2) p.1

structure Built (wires : List Wire) (ids : Nat → Identifier) (ms : List Model) (j : Nat) (st : BuildState) : Prop where
  components : st.components = allComponents wires ids (ms.take j)
  keys : st.pinMap.map Prod.fst = (List.range j).map ids
  tables : (∀ i m, ms[i]? = some m → extraComponents wires (ids i) m = []) → ∀ i < j, ∀ m, ms[i]? = some m →
    ∃ table, (ids i, table) ∈ st.pinMap ∧ ∀ k < pinCount m.kind, plPin m.kind k ∈ usedPins wires (ids i) →
      table.lookup (plPin m.kind k) = some ⟨i, mirrorPin m.kind k⟩
  internalWires : (∀ i m, ms[i]? = some m → extraComponents wires (ids i) m = []) → st.internalWires = []

theorem allComponents_of_no_extra (h : ∀ i m, ms[i]? = some m → extraComponents wires (ids i) m = []) :
    allComponents wires ids ms = ms.map componentOf := by
  have hmap : ms.zipIdx.flatMap (fun p => componentOf p.1 :: extraComponents wires (ids p.2) p.1) =
      ms.zipIdx.flatMap fun p => [componentOf p.1] := by
    apply flatMap_congr
    intro p hp
    rw [h p.2 p.1 (mk_mem_zipIdx_iff_getElem?.mp hp)]
  have hfst : ms.zipIdx.map (componentOf ∘ Prod.fst) = ms.map componentOf := by
    rw [← List.map_map, zipIdx_map_fst]
  rw [allComponents, hmap, ← map_eq_flatMap]
  exact hfst

theorem length_flatMap_cons {α β : Type} (l : List α) (a : α → β) (f : α → List β) :
    l.length ≤ (l.flatMap fun x => a x :: f x).length ∧
      ((l.flatMap fun x => a x :: f x).length = l.length → ∀ x ∈ l, f x = []) := by
  induction l with
  | nil => exact ⟨Nat.le_refl 0, fun _ x hx => by cases hx⟩
  | cons y l ih =>
    obtain ⟨hle, hnil⟩ := ih
    rw [flatMap_cons, length_append, length_cons, length_cons]
    refine ⟨by omega, fun heq => forall_mem_cons.mpr ⟨?_, hnil (by omega)⟩⟩
    exact length_eq_zero_iff.mp (by omega)

theorem no_extra_of_length (h : (allComponents wires ids ms).length = ms.length) :
    ∀ i m, ms[i]? = some m → extraComponents wires (ids i) m = [] := by
  intro i m hm
  rw [← length_zipIdx (l := ms) (i := 0)] at h
  exact (length_flatMap_cons _ _ _).2 h (m, i) (mk_mem_zipIdx_iff_getElem?.mpr hm)

theorem foldlM_expandElement (hkind : ∀ m ∈ ms, m.kind ∈ exportedKinds) (hlevel : ∀ m ∈ ms, HasLevel m)
    (hused : ∀ i m, ms[i]? = some m → ∀ pin ∈ usedPins wires (ids i), ∃ k < pinCount m.kind, plPin m.kind k = pin)
    {j : Nat} (hj : j ≤ ms.length) :
    ∃ st, ((exportedElements ids ms).take j).foldlM (expandElement wires) {} = .ok st ∧ Built wires ids ms j st := by
  induction j with
  | zero => exact ⟨{}, rfl, rfl, rfl, fun _ i hi => absurd hi (Nat.not_lt_zero i), fun _ => rfl⟩
  | succ j ih =>
    obtain ⟨st, hrun, hbuilt⟩ := ih (by omega)
    have hm : ms[j]? = some ms[j] := getElem?_eq_getElem _
    have hmem : ms[j] ∈ ms := getElem_mem _
    obtain ⟨st', hstep, hexpands⟩ := expands_exported (ids j) (hkind _ hmem) (hlevel _ hmem) (hused j _ hm) st
    have helement : (exportedElements ids ms)[j]? = some (exportedElement (ids j) ms[j]) := by
      rw [exportedElements, getElem?_map, getElem?_zipIdx, hm]
      simp
    obtain ⟨table, hpinMap, htable⟩ := hexpands.table
    refine ⟨st', ?_, ?_, ?_, fun hno => ?_, fun hno => ?_⟩
    · rw [take_add_one, helement, foldlM_append, hrun]
      show (expandElement wires st _ >>= pure) = _
      rw [hstep]
      rfl
    · rw [hexpands.components, hbuilt.components, take_add_one, hm, allComponents, allComponents,
        Option.toList_some, zipIdx_append, flatMap_append, length_take]
      simp [Nat.min_eq_left (show j ≤ ms.length by omega)]
    · rw [hpinMap, map_append, hbuilt.keys, range_succ, map_append]
      rfl
    · intro i hi m hmi
      rw [hpinMap]
      have hlen : st.components.length = j := by
        rw [hbuilt.components, allComponents_of_no_extra, length_map, length_take,
          Nat.min_eq_left (by omega)]
        intro i m hmi
        rw [getElem?_take] at hmi
        split_ifs at hmi
        exact hno i m hmi
      by_cases h : i = j
      · subst h
        rw [hm] at hmi
        cases hmi
        rw [hlen] at htable
        exact ⟨table, mem_append_right _ (mem_singleton.mpr rfl), htable⟩
      · obtain ⟨table', hmem', htable'⟩ := hbuilt.tables hno i (by omega) m hmi
        exact ⟨table', mem_append_left _ hmem', htable'⟩
    · rw [hexpands.internalWires (hno j _ hm), hbuilt.internalWires hno]

end

end PhyEngine.PhyLab
