import PhyEngine.FileFormat.SavedBatch
import Mathlib.Data.List.ReduceOption

/-!
# A full save, loaded again

The circuit that `load_from_leveldb` makes of a full save. The pins of a model are
connected first and its state is loaded afterwards. The state of most types contains the
pins, so they get the pointers that the saved circuit had.
-/

namespace PhyEngine.FileFormat

open ByteReader Failing List
open UInt64 (ofNat toNat toNat_ofNat_of_lt')

variable {reg : Registry}

def fullMeta : Meta := ⟨.full, true, true, true, true⟩

variable {db : Database} {batch : WriteBatch}

theorem getOptional_ok {k : Key} {v : Bytes} (h : db.get k = .ok v) : getOptional db k = .ok (some v) := by
  rw [getOptional, h]

theorem readMeta_full {c : Circuit reg} (hdb : HoldsCircuit db c) : readMeta db = .ok fullMeta := by
  have hversion : parse (readTrivial UInt32) (fixedValue c .formatVersion) = .ok 1 := parse_eq (decodes_trivial 1)
  have hmode : parse (ExportMode.ofByte <$> next (corrupt "meta/mode empty")) (fixedValue c .mode) = .ok .full :=
    parse_eq (Decodes.map (decodes_next _ _) _)
  have hflags : parse readFlags (fixedValue c .flags) = .ok (true, true, true, true) := rfl
  have hhash : checkU64 (fixedValue c .structureHash) = .ok () := if_neg fun h => h rfl
  have hone : ¬(1 : UInt32) ≠ 1 := not_not_intro rfl
  simp only [readMeta, hdb.fixed, ok_bind, hversion, if_neg hone, getOptional_ok (hdb.fixed _), hmode, hhash, hflags]
  rfl

theorem Registry.find_modelName (reg : Registry) (k : reg.Kind) : reg.find (reg.type k).modelName = some k := by
  have hex : ((finRange reg.entries.length).find? fun j => (reg.type j).modelName = (reg.type k).modelName).isSome :=
    find?_isSome.mpr ⟨k, mem_finRange k, decide_eq_true rfl⟩
  obtain ⟨j, hj⟩ := Option.isSome_iff_exists.mp hex
  have hname : (reg.type j).modelName = (reg.type k).modelName := by simpa using find?_some hj
  have hlt (i : reg.Kind) : i.1 < (reg.entries.map fun e => e.type.modelName).length := by
    rw [length_map]
    exact i.2
  have hval : j.1 = k.1 := by
    apply (@List.Nodup.getElem_inj_iff _ _ reg.nodup j.1 (hlt j) k.1 (hlt k)).mp
    rw [getElem_map, getElem_map]
    exact hname
  rw [find, hj, Fin.ext hval]

theorem ownNode_eq_some {c : Circuit reg} {p : Option NodePtr} {n : NodeId} (h : c.ownNode p = some n) :
    p = some ⟨c.tag, n⟩ ∧ ∀ i, n = .node i → i < c.nodes.length := by
  rcases p with _ | ⟨t, _ | i⟩
  · cases h
  · rw [Circuit.ownNode] at h
    split_ifs at h with htag
    cases h
    exact ⟨by rw [htag], fun i hi => by cases hi⟩
  · rw [Circuit.ownNode] at h
    split_ifs at h with htag
    cases h
    refine ⟨by rw [htag.1], fun j hj => ?_⟩
    cases hj
    exact htag.2

theorem pinId_eq_ok {c : Circuit reg} (hfit : c.nodes.length < 2 ^ 64 - 2) {p : Pin} {id : UInt64}
    (h : pinId c p = .ok id) :
    (id = kNodeNull ∨ id = kNodeGround ∨ id < ofNat c.nodes.length) ∧
      (∀ q, p.nodes = some q → q.circuit = c.tag) ∧ ∀ tag, pinTarget tag id = p.nodes.map fun q => ⟨tag, q.node⟩ := by
  rw [pinId] at h
  split_ifs at h with hnull
  · cases h
    rw [hnull]
    exact ⟨.inl rfl, nofun, fun tag => if_pos rfl⟩
  · cases hown : c.ownNode p.nodes with
    | none =>
      rw [hown] at h
      cases h
    | some n =>
      obtain ⟨hp, hlt⟩ := ownNode_eq_some hown
      rw [hown] at h
      have htag : ∀ q, p.nodes = some q → q.circuit = c.tag := by
        intro q hq
        rw [hp] at hq
        cases hq
        rfl
      rw [hp]
      cases n with
      | ground =>
        cases h
        exact ⟨.inr (.inl rfl), hp ▸ htag, fun tag => rfl⟩
      | node i =>
        cases h
        have hi := hlt i rfl
        have hval {k : Nat} (hk : k < 2 ^ 64) : (ofNat k).toNat = k := toNat_ofNat_of_lt' hk
        have hne {k : Nat} (hk : i < k) (hk' : k < 2 ^ 64) : ofNat i ≠ ofNat k := by
          intro heq
          have := congrArg toNat heq
          rw [hval (by omega), hval hk'] at this
          omega
        refine ⟨.inr (.inr ?_), hp ▸ htag, fun tag => ?_⟩
        · rw [UInt64.lt_iff_toNat_lt, hval (by omega), hval (by omega)]
          exact hi
        · have hnullId : ofNat i ≠ kNodeNull := hne (by omega) (by omega)
          have hgroundId : ofNat i ≠ kNodeGround := hne (by omega) (by omega)
          rw [pinTarget, if_neg hnullId, if_neg hgroundId, hval (by omega)]
          rfl

theorem map_zipWith_right {α β γ δ : Type} {f : α → β → γ} {g : γ → δ} {h : β → δ} (hg : ∀ a b, g (f a b) = h b)
    {as : List α} {bs : List β} (hlen : as.length = bs.length) : (List.zipWith f as bs).map g = bs.map h := by
  induction as generalizing bs with
  | nil =>
    rw [length_eq_zero_iff.mp hlen.symm]
    rfl
  | cons a as ih =>
    cases bs with
    | nil => cases hlen
    | cons b bs =>
      rw [zipWith_cons_cons, map_cons, map_cons, hg, ih (Nat.succ.inj hlen)]

theorem map_pinTarget {c : Circuit reg} (hfit : c.nodes.length < 2 ^ 64 - 2) {pins : List Pin} {ids : List UInt64}
    (h : List.Forall₂ (fun p id => pinId c p = .ok id) pins ids) (tag : Nat) :
    ids.map (pinTarget tag) = pins.map fun p => p.nodes.map fun q => ⟨tag, q.node⟩ := by
  induction h with
  | nil => rfl
  | cons hp _ ih => rw [map_cons, map_cons, ih, (pinId_eq_ok hfit hp).2.2]

/-- The sizes of a circuit are numbers of the machine. Two node ids stand for no node and for
ground. -/
structure Fits (c : Circuit reg) : Prop where
  nodes : c.nodes.length < 2 ^ 64 - 2
  models : c.normals.length < 2 ^ 64
  pins : ∀ m ∈ c.normals, m.object.pins.length < 2 ^ 64
  name : ∀ m ∈ c.normals, m.wrapper.name.length < 2 ^ 64
  describe : ∀ m ∈ c.normals, m.wrapper.describe.length < 2 ^ 64

/-- The nodes that a model's pins are on, as pointers into another circuit. -/
def pinTargets (tag : Nat) (m : ModelObject reg) : List (Option NodePtr) :=
  m.object.pins.map fun p => p.nodes.map fun q => ⟨tag, q.node⟩

theorem loadStructurePart_eq {c : Circuit reg} (hdb : HoldsCircuit db c) (hfit : Fits c) {i : Nat} {m : ModelObject reg}
    (hm : c.normals[i]? = some m) (hsize : m.object.pins.length = (reg.type m.kind).initPins.length)
    (tag pos : Nat) :
    ∃ o, loadStructurePart db (ofNat c.nodes.length) tag pos i (reg.type m.kind) = .ok (m.wrapper, o) ∧
      o.pins.map Pin.nodes = pinTargets tag m := by
  have hmem : m ∈ c.normals := List.mem_of_getElem? hm
  obtain ⟨ids, state, hids, _, hget⟩ := hdb.model i m hm
  have hrel := mapM_eq_ok hids
  have hlen : ids.length = (reg.type m.kind).initPins.length := by rw [← hrel.length_eq, hsize]
  have hwrapper := parseAll_encodeWrapper (hfit.name m hmem) (hfit.describe m hmem) "trailing bytes in wrapper"
  have hattrs : parseAll "trailing bytes in attributes blob" readAttributes m.attributes = .ok _ :=
    parseAll_eq (decodes_attributes m.getAttribute (reg.type m.kind).attributeName_lt) _
  have hbound : ∀ id ∈ ids, id = kNodeNull ∨ id = kNodeGround ∨ id < ofNat c.nodes.length := by
    intro id hid
    obtain ⟨p, _, hp⟩ := exists_of_mem_left hrel.flip hid
    exact (pinId_eq_ok hfit.nodes hp).1
  have hpins := parseAll_encodePins (by rw [← hrel.length_eq]; exact hfit.pins m hmem) hbound
    "trailing bytes in pins mapping"
  rw [hlen] at hpins
  have hgetWrapper := hget (.model i .wrapper, encodeWrapper m.wrapper) (by simp [modelEntries])
  have hgetAttrs := hget (.model i .attrs, m.attributes) (by simp [modelEntries])
  have hgetPins := hget (.model i .pins, encodePins ids) (by simp [modelEntries])
  simp only [loadStructurePart, hgetWrapper, hgetAttrs, hgetPins, ok_bind, hwrapper, applyAttributes, hattrs, hpins]
  refine ⟨_, rfl, ?_⟩
  calc
    _ = ids.map (pinTarget tag) := map_zipWith_right (g := Pin.nodes) (h := pinTarget tag) (fun _ _ => rfl) hlen.symm
    _ = pinTargets tag m := map_pinTarget hfit.nodes hrel tag

/-- What connecting pins leaves as it was. -/
structure SameFrame (c c' : Circuit reg) : Prop where
  tag : c'.tag = c.tag
  env : c'.env = c.env
  analyzeType : c'.analyzeType = c.analyzeType
  analyzer : c'.analyzer = c.analyzer
  nodes : c'.nodes.length = c.nodes.length

variable (c : Circuit reg)

theorem SameFrame.refl : SameFrame c c := ⟨rfl, rfl, rfl, rfl, rfl⟩

theorem SameFrame.trans {c₁ c₂ c₃ : Circuit reg} (h : SameFrame c₁ c₂) (h' : SameFrame c₂ c₃) : SameFrame c₁ c₃ :=
  ⟨h'.tag.trans h.tag, h'.env.trans h.env, h'.analyzeType.trans h.analyzeType, h'.analyzer.trans h.analyzer,
    h'.nodes.trans h.nodes⟩

theorem attach_frame (p : PinPtr) (analog : Bool) (target : Option NodePtr) :
    SameFrame c (c.attach p analog target) ∧ (c.attach p analog target).models = c.models := by
  rcases target with _ | ⟨t, _ | i⟩
  · exact ⟨.refl c, rfl⟩
  · exact ⟨⟨rfl, rfl, rfl, rfl, rfl⟩, rfl⟩
  · exact ⟨⟨rfl, rfl, rfl, rfl, length_modify ..⟩, rfl⟩

/-- The pins of the model in slot `pos`, connected one after the other. -/
def Circuit.attachAll (pos : Nat) (analog : Bool) (targets : List (Option NodePtr × Nat)) : Circuit reg :=
  targets.foldl (fun c p => c.attach ⟨pos, p.2⟩ analog p.1) c

theorem attachAll_frame (pos : Nat) (analog : Bool) (targets : List (Option NodePtr × Nat)) :
    SameFrame c (c.attachAll pos analog targets) ∧ (c.attachAll pos analog targets).models = c.models := by
  induction targets generalizing c with
  | nil => exact ⟨.refl c, rfl⟩
  | cons p targets ih =>
    obtain ⟨hframe, hmodels⟩ := attach_frame c ⟨pos, p.2⟩ analog p.1
    obtain ⟨hframe', hmodels'⟩ := ih (c.attach ⟨pos, p.2⟩ analog p.1)
    exact ⟨hframe.trans hframe', hmodels'.trans hmodels⟩

theorem attachAll_none (pos : Nat) (analog : Bool) {targets : List (Option NodePtr × Nat)}
    (h : ∀ p ∈ targets, p.1 = none) : c.attachAll pos analog targets = c := by
  induction targets generalizing c with
  | nil => rfl
  | cons p targets ih =>
    obtain ⟨hp, htargets⟩ := forall_mem_cons.mp h
    show (c.attach ⟨pos, p.2⟩ analog p.1).attachAll pos analog targets = c
    rw [hp]
    exact ih c htargets

/-- A model as it is after loading: it has the pointers of the saved one. -/
structure Copied (m m' : ModelObject reg) : Prop where
  kind : m'.kind = m.kind
  wrapper : m'.wrapper = m.wrapper
  pins : m'.object.pins = m.object.pins
  attributes : ∀ i, m'.getAttribute i = m.getAttribute i

variable (m : ModelObject reg)

def StoredObject : Prop :=
  ∃ Stored, CopiesObject (reg.codec m.kind) Stored ∧ Stored m.object

def Unconnected : Prop := ∀ p ∈ m.object.pins, p.nodes = none

theorem loadModel_eq {c : Circuit reg} (hdb : HoldsCircuit db c) (hfit : Fits c) {i : Nat} {m : ModelObject reg}
    (hm : c.normals[i]? = some m) (hsize : m.object.pins.length = (reg.type m.kind).initPins.length)
    (hstored : StoredObject m) (c₁ : Circuit reg) :
    ∃ c₂ m', loadModel db fullMeta true (ofNat c.nodes.length) c₁ i = .ok c₂ ∧ Copied m m' ∧ SameFrame c₁ c₂ ∧
      c₂.models = c₁.models ++ [some m'] ∧ (Unconnected m → c₂.nodes = c₁.nodes ∧ c₂.ground = c₁.ground) := by
  obtain ⟨Stored, hcopies, ho⟩ := hstored
  obtain ⟨ids, state, hids, hstate, hget⟩ := hdb.model i m hm
  obtain ⟨bs, hsave, hload⟩ := hcopies.restores ho
  rw [hstate] at hsave
  cases hsave
  obtain ⟨o₁, hstructure, htargets⟩ := loadStructurePart_eq hdb hfit hm hsize c₁.tag c₁.models.length
  obtain ⟨o₂, ho₂, hpins, hattrs⟩ := hload o₁
  have hgetName := hget (.model i .modelName, m.modelName) (by simp [modelEntries])
  have hgetState := hget (.model i .state, state) (by simp [modelEntries])
  obtain ⟨hframe, hmodels⟩ := attachAll_frame c₁ c₁.models.length (!(reg.type m.kind).isDigital)
    (pinTargets c₁.tag m).zipIdx
  have hnull (hun : Unconnected m) : ∀ p ∈ (pinTargets c₁.tag m).zipIdx, p.1 = none := by
    intro p hp
    obtain ⟨q, hq, htarget⟩ := mem_map.mp (fst_mem_of_mem_zipIdx hp)
    rw [← htarget, hun q hq]
    rfl
  refine ⟨{ c₁.attachAll c₁.models.length (!(reg.type m.kind).isDigital) (pinTargets c₁.tag m).zipIdx with
    models := (c₁.attachAll c₁.models.length (!(reg.type m.kind).isDigital) (pinTargets c₁.tag m).zipIdx).models ++
      [some ⟨m.kind, o₂, m.wrapper⟩] }, ⟨m.kind, o₂, m.wrapper⟩, ?_, ⟨rfl, rfl, hpins, hattrs⟩,
    ⟨hframe.tag, hframe.env, hframe.analyzeType, hframe.analyzer, hframe.nodes⟩, by rw [hmodels], fun hun => ?_⟩
  · simp only [loadModel, hgetName, ok_bind, ModelObject.modelName, Registry.find_modelName, fullMeta, hstructure,
      loadStatePart, getOptional_ok hgetState, ho₂, htargets, if_pos]
    rfl
  · rw [attachAll_none _ _ _ (hnull hun)]
    exact ⟨rfl, rfl⟩

/-- Models with pins as their type makes them, that memory holds. -/
def Regular : Prop :=
  m.object.pins.length = (reg.type m.kind).initPins.length ∧ StoredObject m

theorem foldlM_loadModel {c : Circuit reg} (hdb : HoldsCircuit db c) (hfit : Fits c)
    (hregular : ∀ m ∈ c.normals, Regular m) (c₁ : Circuit reg) {k : Nat} (hk : k ≤ c.normals.length) :
    ∃ c₂ ms, (List.range k).foldlM (loadModel db fullMeta true (ofNat c.nodes.length)) c₁ = .ok c₂ ∧
      List.Forall₂ Copied (c.normals.take k) ms ∧ SameFrame c₁ c₂ ∧ c₂.models = c₁.models ++ ms.map some ∧
      ((∀ m ∈ c.normals, Unconnected m) → c₂.nodes = c₁.nodes ∧ c₂.ground = c₁.ground) := by
  induction k with
  | zero => exact ⟨c₁, [], rfl, .nil, .refl c₁, (append_nil _).symm, fun _ => ⟨rfl, rfl⟩⟩
  | succ k ih =>
    obtain ⟨c₂, ms, hrun, hcopied, hframe, hmodels, hnull⟩ := ih (by omega)
    have hm : c.normals[k]? = some (c.normals[k]) := getElem?_eq_getElem _
    obtain ⟨hsize, hstored⟩ := hregular c.normals[k] (getElem_mem _)
    obtain ⟨c₃, m', hload, hcopied', hframe', hmodels', hnull'⟩ := loadModel_eq hdb hfit hm hsize hstored c₂
    refine ⟨c₃, ms ++ [m'], ?_, ?_, hframe.trans hframe', ?_, fun hun => ?_⟩
    · rw [range_succ, foldlM_append, hrun]
      show (loadModel _ _ _ _ c₂ k >>= pure) = _
      rw [hload]
      rfl
    · rw [take_add_one, hm]
      exact rel_append hcopied (.cons hcopied' .nil)
    · rw [hmodels', hmodels, map_append, append_assoc]
      rfl
    · obtain ⟨hnodes, hground⟩ := hnull hun
      obtain ⟨hnodes', hground'⟩ := hnull' (hun _ (getElem_mem (by omega)))
      exact ⟨hnodes'.trans hnodes, hground'.trans hground⟩

theorem loadNodes_eq {c : Circuit reg} (hdb : HoldsCircuit db c) (hfit : Fits c) :
    loadNodes db fullMeta (ofNat c.nodes.length) = .ok (c.nodes.map fun n => some n.value.saved) := by
  have hcount : (ofNat c.nodes.length).toNat = c.nodes.length :=
    toNat_ofNat_of_lt' (Nat.lt_of_lt_of_le hfit.nodes (by decide))
  rw [loadNodes, hcount]
  apply mapM_of_forall₂
  rw [forall₂_iff_get]
  refine ⟨by rw [length_range, length_map], fun i h h' => ?_⟩
  rw [length_range] at h
  have hget := hdb.node i c.nodes[i] (getElem?_eq_getElem h)
  simp [fullMeta, hget, ok_bind, parseAll_encodeNodeState]

theorem restore_pins (n : CircuitNode) (saved : Option SavedNode) : (n.restore saved).pins = n.pins := by
  rw [CircuitNode.restore]
  split_ifs <;> rfl

def prepared (c c₀ : Circuit reg) : Circuit reg :=
  { c₀.cleared with
    env := c.env
    analyzeType := c.analyzeType
    analyzer := c.analyzer
    runtime := c.runtime
    nodes := List.replicate c.nodes.length {}
    ground := { c₀.cleared.ground with value := { c₀.cleared.ground.value with
      real := c.ground.value.real
      imag := c.ground.value.imag } } }

theorem loadFromLeveldb_eq {c : Circuit reg} (hdb : HoldsCircuit db c) (hfit : Fits c)
    (checkpoint : Circuit reg → Except Status (Circuit reg)) (requireModelState : Bool) (c₀ : Circuit reg) :
    loadFromLeveldb checkpoint db requireModelState c₀ =
      ((List.range c.normals.length).foldlM
        (loadModel db fullMeta requireModelState (ofNat c.nodes.length)) (prepared c c₀) >>= fun c₂ =>
          pure { c₂ with
            nodes := List.zipWith CircuitNode.restore c₂.nodes (c.nodes.map fun n => some n.value.saved) }) := by
  have hnodeCount : parse readUleb128 (fixedValue c .nodesCount) = .ok (ofNat c.nodes.length) :=
    parse_eq (decodes_uleb128 _)
  have hmodelCount : parse readUleb128 (fixedValue c .modelsCount) = .ok (ofNat c.normals.length) :=
    parse_eq (decodes_uleb128 _)
  have henv : decodeEnvironment (fixedValue c .env) = .ok c.env := decodeEnvironment_encode c.env
  have hanalyze : parse (readTrivial UInt32) (fixedValue c .analyzeType) = .ok c.analyzeType.toCode :=
    parse_eq (decodes_trivial _)
  have hanalyzer : decodeAnalyzer (fixedValue c .analyzer) = .ok c.analyzer := decodeAnalyzer_encode c.analyzer
  have hruntime : parse readRuntime (fixedValue c .runtimeBasic) = .ok c.runtime := parse_encodeRuntime c.runtime
  have hground : parse readGround (fixedValue c .nodesGround) = .ok (c.ground.value.real, c.ground.value.imag) :=
    parse_readGround _ _
  have hnodes : (ofNat c.nodes.length).toNat = c.nodes.length :=
    toNat_ofNat_of_lt' (Nat.lt_of_lt_of_le hfit.nodes (by decide))
  have hmodels : (ofNat c.normals.length).toNat = c.normals.length :=
    toNat_ofNat_of_lt' hfit.models
  rw [loadFromLeveldb, readMeta_full hdb, ok_bind]
  show loadStructure db fullMeta requireModelState c₀ = _
  simp only [loadStructure, hdb.fixed, getOptional_ok (hdb.fixed _), ok_bind, hnodeCount, hmodelCount, henv, hanalyze,
    hanalyzer, loadNodes_eq hdb hfit, hruntime, hground, hnodes, hmodels, AnalyzeType.ofCode_toCode]
  rfl

theorem loadFromLeveldb_full {c : Circuit reg} (hdb : HoldsCircuit db c) (hfit : Fits c)
    (hregular : ∀ m ∈ c.normals, Regular m) (checkpoint : Circuit reg → Except Status (Circuit reg))
    (c₀ : Circuit reg) :
    ∃ c' ms, loadFromLeveldb checkpoint db true c₀ = .ok c' ∧ c'.tag = c₀.tag ∧ c'.env = c.env ∧
      c'.analyzeType = c.analyzeType ∧ c'.analyzer = c.analyzer ∧ c'.nodes.length = c.nodes.length ∧
      List.Forall₂ Copied c.normals ms ∧ c'.models = ms.map some ∧
      ((∀ m ∈ c.normals, Unconnected m) → (∀ n ∈ c'.nodes, n.pins = ∅) ∧ c'.ground.pins = ∅) := by
  obtain ⟨c₂, ms, hrun, hcopied, hframe, hmodels, hnull⟩ :=
    foldlM_loadModel hdb hfit hregular (prepared c c₀) (Nat.le_refl _)
  rw [take_length] at hcopied
  refine ⟨{ c₂ with nodes := zipWith CircuitNode.restore c₂.nodes (c.nodes.map fun n => some n.value.saved) }, ms, ?_,
    hframe.tag, hframe.env, hframe.analyzeType, hframe.analyzer, ?_, hcopied, hmodels, fun hun => ?_⟩
  · rw [loadFromLeveldb_eq hdb hfit, hrun]
    rfl
  · have hlen : c₂.nodes.length = c.nodes.length := by rw [hframe.nodes, prepared, length_replicate]
    rw [length_zipWith, length_map, hlen, Nat.min_self]
  · obtain ⟨hnodes, hground⟩ := hnull hun
    refine ⟨fun n hn => ?_, by rw [hground]; rfl⟩
    rw [hnodes] at hn
    obtain ⟨i, hi, rfl⟩ := getElem_of_mem hn
    rw [getElem_zipWith, restore_pins]
    exact congrArg CircuitNode.pins (getElem_replicate _)

def Circuit.pinNode (q : PinPtr) : Option NodePtr := do
  let slot ← c.models[q.pos]?
  let m ← slot
  let p ← m.object.pins[q.k]?
  p.nodes

/-- A model as it should be after loading: its pins are on the same nodes of the circuit `tag`. -/
structure RestoresModel (tag : Nat) (m m' : ModelObject reg) : Prop where
  kind : m'.kind = m.kind
  name : m'.wrapper.name = m.wrapper.name
  describe : m'.wrapper.describe = m.wrapper.describe
  attributes : ∀ i, m'.getAttribute i = m.getAttribute i
  pins : m'.object.pins.map Pin.nodes = pinTargets tag m

structure Restores (c c' : Circuit reg) : Prop where
  nodes : c'.nodes.length = c.nodes.length
  models : List.Forall₂ (RestoresModel c'.tag) c.normals c'.normals
  nodePins : ∀ i n, c'.nodes[i]? = some n → ∀ q, q ∈ n.pins ↔ c'.pinNode q = some ⟨c'.tag, .node i⟩
  groundPins : ∀ q, q ∈ c'.ground.pins ↔ c'.pinNode q = some ⟨c'.tag, .ground⟩
  env : c'.env = c.env
  analyzeType : c'.analyzeType = c.analyzeType
  analyzer : c'.analyzer = c.analyzer

variable {ms : List (ModelObject reg)}

theorem normals_of_map_some {c : Circuit reg} (h : c.models = ms.map some) :
    c.normals = ms := by
  rw [Circuit.normals, h, reduceOption, filterMap_map]
  exact filterMap_some

theorem save_full_ok {c : Circuit reg} (hstored : ∀ m ∈ c.normals, StoredObject m)
    (hun : ∀ m ∈ c.normals, Unconnected m) : ∃ batch, saveToLeveldb .full c = .ok batch := by
  have hmodels : ∃ bs, c.normals.zipIdx.mapM (modelBatch .full c (computeStableIds c.graph).modelUid) =
    .ok bs := by
    apply exists_mapM_eq_ok
    intro ⟨m, i⟩ hp
    have hm : m ∈ c.normals := fst_mem_of_mem_zipIdx hp
    obtain ⟨ids, hids⟩ : ∃ ids, m.object.pins.mapM (pinId c) = .ok ids := by
      apply exists_mapM_eq_ok
      intro p hp
      exact ⟨kNodeNull, if_pos (hun m hm p hp)⟩
    obtain ⟨Stored, hcopies, ho⟩ := hstored m hm
    obtain ⟨state, hstate, _⟩ := hcopies.restores ho
    show ∃ b, ((m.object.pins.mapM (pinId c) >>= _) >>= fun _ => (reg.codec m.kind).saveState m.object >>= _) = .ok b
    rw [hids, hstate]
    exact ⟨_, rfl⟩
  obtain ⟨bs, hbs⟩ := hmodels
  exact ⟨_, by rw [saveToLeveldb, hbs]; rfl⟩

theorem Copied.restores {m m' : ModelObject reg} (h : Copied m m') (hun : Unconnected m) (tag : Nat) :
    RestoresModel tag m m' where
  kind := h.kind
  name := by rw [h.wrapper]
  describe := by rw [h.wrapper]
  attributes := h.attributes
  pins := by
    rw [h.pins, pinTargets]
    apply map_congr_left
    intro p hp
    rw [hun p hp]
    rfl

theorem restores_of_unconnected {c c' : Circuit reg}
    (hcopied : List.Forall₂ Copied c.normals ms) (hmodels : c'.models = ms.map some)
    (hun : ∀ m ∈ c.normals, Unconnected m) (hnodes : ∀ n ∈ c'.nodes, n.pins = ∅) (hground : c'.ground.pins = ∅)
    (hlen : c'.nodes.length = c.nodes.length) (henv : c'.env = c.env) (hanalyze : c'.analyzeType = c.analyzeType)
    (hanalyzer : c'.analyzer = c.analyzer) : Restores c c' := by
  have hnone (q : PinPtr) : c'.pinNode q = none := by
    rw [Circuit.pinNode, hmodels, getElem?_map]
    cases hm : ms[q.pos]? with
    | none => rfl
    | some m' =>
      obtain ⟨m, hmem, hcopy⟩ := exists_of_mem_left hcopied.flip (List.mem_of_getElem? hm)
      show (m'.object.pins[q.k]? >>= Pin.nodes) = none
      cases hp : m'.object.pins[q.k]? with
      | none => rfl
      | some p =>
        rw [hcopy.pins] at hp
        exact hun m hmem p (List.mem_of_getElem? hp)
  refine ⟨hlen, ?_, fun i n hn q => ?_, fun q => ?_, henv, hanalyze, hanalyzer⟩
  · rw [normals_of_map_some hmodels]
    exact ((forall₂_and_left _ _).mpr ⟨hun, hcopied⟩).imp fun m m' h => h.2.restores h.1 c'.tag
  · rw [hnodes n (List.mem_of_getElem? hn), hnone q]
    exact ⟨fun h => absurd h (Finset.notMem_empty q), fun h => nomatch h⟩
  · rw [hground, hnone q]
    exact ⟨fun h => absurd h (Finset.notMem_empty q), fun h => nomatch h⟩

theorem unconnected_of_restores {tag tag' : Nat} (htag : tag' ≠ tag) {m m' : ModelObject reg} (hcopied : Copied m m')
    (hrestores : RestoresModel tag' m m') (hown : ∀ p ∈ m.object.pins, ∀ q, p.nodes = some q → q.circuit = tag) :
    Unconnected m := by
  intro p hp
  have hpins := hrestores.pins
  rw [hcopied.pins, pinTargets, map_inj_left] at hpins
  cases hq : p.nodes with
  | none => rfl
  | some q =>
    have htarget := hpins p hp
    rw [hq] at htarget
    have hcircuit : q.circuit = tag' := congrArg NodePtr.circuit (Option.some.inj htarget)
    exact absurd (hcircuit.symm.trans (hown p hp q hq)) htag

/-- The models that save and load are for: the pins are as many as the type makes, and the state
holds the object unless the registry has no state functions for the type. -/
def Codable : Prop :=
  m.object.pins.length = (reg.type m.kind).initPins.length ∧
    (StoredObject m ∨ reg.codec m.kind = missingCodec (reg.type m.kind))

theorem not_missing_of_saveState {m : ModelObject reg} {state : Bytes}
    (h : (reg.codec m.kind).saveState m.object = .ok state) : reg.codec m.kind ≠ missingCodec (reg.type m.kind) := by
  intro hmissing
  rw [hmissing] at h
  cases h

theorem FullBatch.saveState_ok {c : Circuit reg} (h : FullBatch c batch) {m : ModelObject reg}
    (hm : m ∈ c.normals) :
    ∃ state, (reg.codec m.kind).saveState m.object = .ok state := by
  obtain ⟨i, hi⟩ := mem_iff_getElem?.mp hm
  obtain ⟨_, state, _, hstate, _⟩ := h.model i m hi
  exact ⟨state, hstate⟩

theorem FullBatch.own {c : Circuit reg} (h : FullBatch c batch) (hfit : Fits c) {m : ModelObject reg}
    (hm : m ∈ c.normals) : ∀ p ∈ m.object.pins, ∀ q, p.nodes = some q → q.circuit = c.tag := by
  intro p hp
  obtain ⟨i, hi⟩ := mem_iff_getElem?.mp hm
  obtain ⟨ids, _, hids, _, _⟩ := h.model i m hi
  obtain ⟨id, _, hid⟩ := exists_of_mem_left (mapM_eq_ok hids) hp
  exact (pinId_eq_ok hfit.nodes hid).2.1

section
variable {c c₀ : Circuit reg} (hfit : Fits c) (hcodable : ∀ m ∈ c.normals, Codable m)
  (checkpoint : Circuit reg → Except Status (Circuit reg))
include hfit hcodable

theorem unconnected_of_saveLoad (hother : c₀.tag ≠ c.tag) {c' : Circuit reg} (hsave : saveToLeveldb .full c = .ok batch)
    (hload : loadFromLeveldb checkpoint (Database.write (fun _ => none) batch) true c₀ = .ok c')
    (hrestores : Restores c c') : ∀ m ∈ c.normals, Unconnected m := by
  have hbatch := saveToLeveldb_full hsave
  have hregular : ∀ m ∈ c.normals, Regular m := by
    intro m hm
    obtain ⟨state, hstate⟩ := hbatch.saveState_ok hm
    exact ⟨(hcodable m hm).1, (hcodable m hm).2.resolve_right (not_missing_of_saveState hstate)⟩
  obtain ⟨c'', ms, hload', htag, _, _, _, _, hcopied, hmodels, _⟩ :=
    loadFromLeveldb_full (hbatch.holds_write fun _ => none) hfit hregular checkpoint c₀
  rw [hload] at hload'
  cases hload'
  have hpairs := hrestores.models
  rw [normals_of_map_some hmodels, htag] at hpairs
  have hboth := ((forall₂_and_left _ _).mpr ⟨fun m hm => hbatch.own hfit hm, hcopied⟩).mp
    (fun m m' h h' => unconnected_of_restores hother h.2 h' h.1) hpairs
  intro m hm
  obtain ⟨_, _, hun⟩ := exists_of_mem_left hboth hm
  exact hun

theorem restores_of_saveLoad (hun : ∀ m ∈ c.normals, Unconnected m)
    (hmissing : ∀ m ∈ c.normals, reg.codec m.kind ≠ missingCodec (reg.type m.kind)) :
    ∃ batch c', saveToLeveldb .full c = .ok batch ∧
      loadFromLeveldb checkpoint (Database.write (fun _ => none) batch) true c₀ = .ok c' ∧ Restores c c' := by
  have hregular : ∀ m ∈ c.normals, Regular m := fun m hm =>
    ⟨(hcodable m hm).1, (hcodable m hm).2.resolve_right (hmissing m hm)⟩
  obtain ⟨batch, hsave⟩ := save_full_ok (fun m hm => (hregular m hm).2) hun
  obtain ⟨c', ms, hload, _, henv, hanalyze, hanalyzer, hlen, hcopied, hmodels, hnull⟩ :=
    loadFromLeveldb_full ((saveToLeveldb_full hsave).holds_write fun _ => none) hfit hregular checkpoint c₀
  obtain ⟨hnodes, hground⟩ := hnull hun
  exact ⟨batch, c', hsave, hload,
    restores_of_unconnected hcopied hmodels hun hnodes hground hlen henv hanalyze hanalyzer⟩

/-- A full save restores the circuit exactly when no pin is connected and every model has state
functions. -/
theorem saveLoad_restores_iff (hother : c₀.tag ≠ c.tag) :
    (∃ batch c', saveToLeveldb .full c = .ok batch ∧
      loadFromLeveldb checkpoint (Database.write (fun _ => none) batch) true c₀ = .ok c' ∧ Restores c c') ↔
      ∀ m ∈ c.normals, Unconnected m ∧ reg.codec m.kind ≠ missingCodec (reg.type m.kind) := by
  constructor
  · intro ⟨batch, c', hsave, hload, hrestores⟩ m hm
    obtain ⟨state, hstate⟩ := (saveToLeveldb_full hsave).saveState_ok hm
    exact ⟨unconnected_of_saveLoad hfit hcodable checkpoint hother hsave hload hrestores m hm,
      not_missing_of_saveState hstate⟩
  · intro h
    exact restores_of_saveLoad hfit hcodable checkpoint (fun m hm => (h m hm).1) fun m hm => (h m hm).2

end

/-- An address space with the nodes and the models of a circuit in a block of their own, and the
texts of one letter. -/
def blockSpace : AddressSpace where
  node p :=
    match p with
    | none => 0
    | some ⟨t, .ground⟩ => ofNat (2 ^ 32 * t + 1)
    | some ⟨t, .node i⟩ => ofNat (2 ^ 32 * t + i + 2)
  nodeAt a :=
    match a.toNat % 2 ^ 32 with
    | 0 => none
    | 1 => some ⟨a.toNat / 2 ^ 32, .ground⟩
    | i + 2 => some ⟨a.toNat / 2 ^ 32, .node i⟩
  model p :=
    match p with
    | none => 0
    | some ⟨t, i⟩ => ofNat (2 ^ 32 * t + i + 1)
  modelAt a :=
    match a.toNat % 2 ^ 32 with
    | 0 => none
    | i + 1 => some ⟨a.toNat / 2 ^ 32, i⟩
  name n := (n.headD 0).toUInt64
  nameAt a k := (List.replicate k a.toUInt8)

def resistorRegistry : Registry where
  entries := [⟨resistance, rawCodec (resistanceLayout blockSpace)⟩]
  nodup := List.nodup_singleton _

def resistor (a b : Option NodePtr) : ModelObject resistorRegistry where
  kind := ⟨0, Nat.one_pos⟩
  object := ⟨resistance.init, [⟨asciiBytes "A", a, some ⟨1, 0⟩⟩, ⟨asciiBytes "B", b, some ⟨1, 0⟩⟩]⟩
  wrapper := ⟨0, false, [], []⟩

def smallCircuit (tag : Nat) (models : List (Option (ModelObject reg))) : Circuit reg where
  tag := tag
  env := ⟨0, 0, 0, 0, 0, 0, 0, 0, 0, 0⟩
  analyzeType := .op
  analyzer := ⟨.single, 0, 0, 0, 0, 0, 0, 0⟩
  runtime := ⟨false, 0, 0, .autoSelect, 0⟩
  nodes := [{}]
  ground := {}
  models := models

theorem fits_small (tag : Nat) {m : ModelObject reg} (hpins : m.object.pins.length < 2 ^ 64)
    (hname : m.wrapper.name = []) (hdescribe : m.wrapper.describe = []) : Fits (smallCircuit tag [some m]) where
  nodes := show 1 < 2 ^ 64 - 2 by decide
  models := show 1 < 2 ^ 64 by decide
  pins := by
    intro m' hm
    rw [mem_singleton.mp hm]
    exact hpins
  name := by
    intro m' hm
    rw [mem_singleton.mp hm, hname]
    exact Nat.two_pow_pos 64
  describe := by
    intro m' hm
    rw [mem_singleton.mp hm, hdescribe]
    exact Nat.two_pow_pos 64

theorem fits_resistor (tag : Nat) (a b : Option NodePtr) : Fits (smallCircuit tag [some (resistor a b)]) :=
  fits_small tag (show 2 < 2 ^ 64 by decide) rfl rfl

theorem codable_small {tag : Nat} {a b : Option NodePtr}
    (h : (resistanceLayout blockSpace).Stored (resistor a b).object) :
    ∀ m ∈ (smallCircuit tag [some (resistor a b)]).normals, Codable m := by
  intro m hm
  rw [mem_singleton.mp hm]
  exact ⟨rfl, .inl ⟨_, .raw (resistanceLayout blockSpace), h⟩⟩

/-- A resistor with two free pins is restored. -/
theorem saveLoad_restores_iff_free :
    ∃ batch c', saveToLeveldb .full (smallCircuit 1 [some (resistor none none)]) = .ok batch ∧
      loadFromLeveldb .ok (Database.write (fun _ => none) batch) true (smallCircuit 2 []) = .ok c' ∧
      Restores (smallCircuit 1 [some (resistor none none)]) c' := by
  refine (saveLoad_restores_iff (fits_resistor 1 none none) (codable_small rfl) .ok (by decide)).mpr fun m hm => ?_
  rw [List.mem_singleton.mp hm]
  refine ⟨fun p hp => ?_, not_missing_of_saveState (m := resistor none none) rfl⟩
  simp only [resistor, List.mem_cons, List.not_mem_nil, or_false] at hp
  rcases hp with rfl | rfl <;> rfl

/-- A resistor between a node and ground is not. -/
theorem saveLoad_loses_resistor :
    ¬∃ batch c', saveToLeveldb .full (smallCircuit 1 [some (resistor (some ⟨1, .node 0⟩) (some ⟨1, .ground⟩))]) =
      .ok batch ∧
      loadFromLeveldb .ok (Database.write (fun _ => none) batch) true (smallCircuit 2 []) = .ok c' ∧
      Restores (smallCircuit 1 [some (resistor (some ⟨1, .node 0⟩) (some ⟨1, .ground⟩))]) c' := by
  intro ⟨batch, c', hsave, hload, hrestores⟩
  have hstored : (resistanceLayout blockSpace).Stored (resistor (some ⟨1, .node 0⟩) (some ⟨1, .ground⟩)).object := rfl
  have hother : (2 : Nat) ≠ 1 := by decide
  have hun := unconnected_of_saveLoad (fits_resistor 1 _ _) (codable_small hstored) .ok hother hsave hload hrestores
    (resistor (some ⟨1, .node 0⟩) (some ⟨1, .ground⟩)) List.mem_cons_self
  have hpin := hun ⟨asciiBytes "A", some ⟨1, .node 0⟩, some ⟨1, 0⟩⟩ List.mem_cons_self
  cases hpin

/-- A model that has more pins than its type makes cannot be loaded: the pins are counted before
the state is read. -/
theorem not_loaded_of_pins {c c₀ : Circuit reg} (hfit : Fits c) {m : ModelObject reg} (hm : m ∈ c.normals)
    (hpins : m.object.pins.length ≠ (reg.type m.kind).initPins.length)
    (checkpoint : Circuit reg → Except Status (Circuit reg)) (requireModelState : Bool) :
    ¬∃ batch c', saveToLeveldb .full c = .ok batch ∧
      loadFromLeveldb checkpoint (Database.write (fun _ => none) batch) requireModelState c₀ = .ok c' := by
  intro ⟨batch, c', hsave, hload⟩
  have hdb := (saveToLeveldb_full hsave).holds_write fun _ => none
  rw [loadFromLeveldb_eq hdb hfit] at hload
  obtain ⟨c₂, hrun, _⟩ := bind_eq_ok hload
  obtain ⟨i, hi⟩ := mem_iff_getElem?.mp hm
  obtain ⟨hlt, _⟩ := List.getElem?_eq_some_iff.mp hi
  obtain ⟨c₃, c₄, hstep⟩ := step_of_foldlM_eq_ok hrun (mem_range.mpr hlt)
  obtain ⟨ids, state, hids, _, hget⟩ := hdb.model i m hi
  have hlen := (mapM_eq_ok hids).length_eq
  have hmismatch := parseAll_pinCount_mismatch (hlen ▸ hfit.pins m hm) (hlen ▸ hpins) (ofNat c.nodes.length)
    "trailing bytes in pins mapping"
  have hgetName := hget (.model i .modelName, m.modelName) (by simp [modelEntries])
  have hgetPins := hget (.model i .pins, encodePins ids) (by simp [modelEntries])
  simp only [loadModel, hgetName, ok_bind, ModelObject.modelName, Registry.find_modelName, fullMeta] at hstep
  obtain ⟨p, hstructure, _⟩ := bind_eq_ok hstep
  obtain ⟨wrapper, _, hstructure⟩ := bind_eq_ok hstructure
  obtain ⟨data, _, hstructure⟩ := bind_eq_ok hstructure
  obtain ⟨ids', hread, _⟩ := bind_eq_ok hstructure
  rw [hgetPins, ok_bind, hmismatch] at hread
  cases hread

/-- A circuit with a module that has a port is never loaded: without a design a `VERILOG_MODULE`
has no pins. -/
theorem verilogModule_not_loaded {c c₀ : Circuit reg} (hfit : Fits c) {m : ModelObject reg} (hm : m ∈ c.normals)
    {comp : VerilogCompiler} (hkind : reg.entries.get m.kind = verilogEntry comp) (source top : Bytes) {e : Elaborated}
    (htop : ((comp.compile source).modules.lookup top).or ((comp.compile source).modules.head?.map Prod.snd) = some e)
    (hports : e.ports ≠ [])
    (hmade : m.object.pins.map Pin.name = (makeVerilogModule comp source top).pins.map Pin.name)
    (checkpoint : Circuit reg → Except Status (Circuit reg)) (requireModelState : Bool) :
    ¬∃ batch c', saveToLeveldb .full c = .ok batch ∧
      loadFromLeveldb checkpoint (Database.write (fun _ => none) batch) requireModelState c₀ = .ok c' := by
  apply not_loaded_of_pins hfit hm
  have hinit : (reg.type m.kind).initPins = [] := by
    rw [Registry.type, hkind]
    rfl
  have hlen : m.object.pins.length = e.ports.length := by
    have hmap := congrArg List.length hmade
    rw [makeVerilogModule, htop, List.length_map, List.length_map] at hmap
    rw [hmap]
    exact List.length_map ..
  rw [hinit, hlen]
  exact fun h => hports (List.length_eq_zero_iff.mp h)

def inputSource : Bytes := asciiBytes "module m(input a); endmodule"

def inputCompiler : VerilogCompiler where
  compile source :=
    if source = inputSource then
      ⟨none, [(asciiBytes "m", ⟨.node ⟨some (asciiBytes "m"), asciiBytes "m",
        { values := [.X], prevValues := [.X], combPrevValues := [.X] }⟩ .nil, [asciiBytes "a"]⟩)]⟩
    else ⟨some "unknown source", []⟩

def inputRegistry : Registry where
  entries := [verilogEntry inputCompiler]
  nodup := List.nodup_singleton _

def inputModule : ModelObject inputRegistry where
  kind := ⟨0, Nat.one_pos⟩
  object := { makeVerilogModule inputCompiler inputSource (asciiBytes "m") with
    pins := [⟨asciiBytes "a", some ⟨1, .node 0⟩, some ⟨1, 0⟩⟩] }
  wrapper := ⟨0, false, [], []⟩

theorem fits_inputModule : Fits (smallCircuit 1 [some inputModule]) :=
  fits_small 1 (show 1 < 2 ^ 64 by decide) rfl rfl

theorem verilogModule_not_loaded_input :
    inputModule.object.pins.map Pin.name =
      (makeVerilogModule inputCompiler inputSource (asciiBytes "m")).pins.map Pin.name ∧
    ¬∃ (batch : WriteBatch) (c' : Circuit inputRegistry),
      saveToLeveldb .full (smallCircuit 1 [some inputModule]) = .ok batch ∧
      loadFromLeveldb .ok (Database.write (fun _ => none) batch) true (smallCircuit 2 []) = .ok c' :=
  ⟨rfl, verilogModule_not_loaded fits_inputModule (m := inputModule) List.mem_cons_self rfl inputSource (asciiBytes "m")
    rfl (by decide) rfl .ok true⟩

/-- The pin of the module is not restored. -/
theorem verilogModule_lost :
    ¬∃ (batch : WriteBatch) (c' : Circuit inputRegistry),
      saveToLeveldb .full (smallCircuit 1 [some inputModule]) = .ok batch ∧
      loadFromLeveldb .ok (Database.write (fun _ => none) batch) true (smallCircuit 2 []) = .ok c' ∧
      ∃ m', c'.models = [some m'] ∧ m'.object.pins.map Pin.nodes = [some ⟨2, .node 0⟩] := by
  intro ⟨batch, c', hsave, hload, _⟩
  have hpins : inputModule.object.pins.length ≠ (inputRegistry.type inputModule.kind).initPins.length :=
    show 1 ≠ 0 by decide
  exact not_loaded_of_pins fits_inputModule List.mem_cons_self hpins .ok true ⟨batch, c', hsave, hload⟩

end PhyEngine.FileFormat
