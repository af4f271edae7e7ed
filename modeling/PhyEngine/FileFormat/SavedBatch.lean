import PhyEngine.Library.Failing
import PhyEngine.FileFormat.ModelCodecs

/-!
# The batch of a full save

The keys and values that `save_to_leveldb` writes in mode `full` (`FullBatch`), and what a
database holds once they are written (`HoldsCircuit`).
-/

namespace PhyEngine.FileFormat

open ByteReader Failing List

variable {reg : Registry}

def fixedValue (c : Circuit reg) : FixedKey → Bytes
  | .formatVersion => appendTrivial (1 : UInt32)
  | .mode => appendU8 ExportMode.full.toByte
  | .structureHash => appendTrivial (computeStableIds c.graph).structureHash
  | .uidAlgoVersion => appendTrivial (1 : UInt32)
  | .flags => appendBool true ++ appendBool true ++ appendBool true ++ appendBool true
  | .env => encodeEnvironment c.env
  | .analyzeType => appendTrivial c.analyzeType.toCode
  | .analyzer => encodeAnalyzer c.analyzer
  | .runtimeBasic => encodeRuntime c.runtime
  | .nodesCount => appendUleb128 (UInt64.ofNat c.nodes.length)
  | .groundUid => appendTrivial (computeStableIds c.graph).groundUid
  | .nodesGround => appendF64 c.ground.value.real ++ appendF64 c.ground.value.imag
  | .modelsCount => appendUleb128 (UInt64.ofNat c.normals.length)

def modelEntries (m : ModelObject reg) (mid : Nat) (ids : List UInt64) (state : Bytes) : WriteBatch :=
  [(.model mid .modelName, m.modelName),
    (.model mid .identificationName, (reg.type m.kind).identificationName),
    (.model mid .attrs, m.attributes),
    (.model mid .wrapper, encodeWrapper m.wrapper),
    (.model mid .pins, encodePins ids),
    (.model mid .state, state)]

variable {c : Circuit reg}

theorem modelBatch_full {uids : List UInt64} {p : ModelObject reg × Nat} {b : WriteBatch}
    (h : modelBatch .full c uids p = .ok b) :
    ∃ ids state uid, p.1.object.pins.mapM (pinId c) = .ok ids ∧ (reg.codec p.1.kind).saveState p.1.object = .ok state ∧
      b = modelEntries p.1 p.2 ids state ++ uid ∧ ∀ e ∈ uid, e.1 = .model p.2 .uid := by
  obtain ⟨s, hs, h⟩ := bind_eq_ok h
  obtain ⟨ids, hids, hs⟩ := bind_eq_ok hs
  obtain ⟨state, hstate, h⟩ := bind_eq_ok h
  cases hs
  cases h
  refine ⟨ids, state, _, hids, hstate, rfl, ?_⟩
  intro e he
  cases hu : uids[p.2]? with
  | none =>
    rw [hu] at he
    cases he
  | some uid =>
    rw [hu] at he
    rw [mem_singleton.mp he]

variable {mid : Nat} {m : ModelObject reg} {e : Key × Bytes}

theorem key_of_mem_modelEntries {ids : List UInt64} {state : Bytes}
    (he : e ∈ modelEntries m mid ids state) : ∃ f, f ≠ .uid ∧ e.1 = .model mid f := by
  simp only [modelEntries, mem_cons, not_mem_nil, or_false] at he
  rcases he with rfl | rfl | rfl | rfl | rfl | rfl
  all_goals exact ⟨_, by decide, rfl⟩

theorem eq_of_mem_modelEntries {ids : List UInt64} {state : Bytes} {e' : Key × Bytes}
    (he : e ∈ modelEntries m mid ids state) (he' : e' ∈ modelEntries m mid ids state) (hkey : e.1 = e'.1) : e = e' := by
  have hnodup : ((modelEntries m mid ids state).map Prod.fst).Nodup := by
    simp [modelEntries]
  exact inj_on_of_nodup_map hnodup he he' hkey

structure FullBatch (c : Circuit reg) (batch : WriteBatch) : Prop where
  fixed : ∀ f, (.fixed f, fixedValue c f) ∈ batch
  node : ∀ i n, c.nodes[i]? = some n → (.node i .state, encodeNodeState n.value) ∈ batch
  model : ∀ i m, c.normals[i]? = some m → ∃ ids state, m.object.pins.mapM (pinId c) = .ok ids ∧
    (reg.codec m.kind).saveState m.object = .ok state ∧ modelEntries m i ids state ⊆ batch
  only : ∀ e ∈ batch, (∃ f, e = (.fixed f, fixedValue c f)) ∨ (∃ i, e.1 = .node i .uid) ∨
    (∃ i n, c.nodes[i]? = some n ∧ e = (.node i .state, encodeNodeState n.value)) ∨
    (∃ i m ids state, c.normals[i]? = some m ∧ m.object.pins.mapM (pinId c) = .ok ids ∧
      (reg.codec m.kind).saveState m.object = .ok state ∧ e ∈ modelEntries m i ids state) ∨ ∃ i, e.1 = .model i .uid

theorem circuitBatch_full (c : Circuit reg) :
    circuitBatch .full c =
      [(.fixed .env, fixedValue c .env), (.fixed .analyzeType, fixedValue c .analyzeType),
        (.fixed .analyzer, fixedValue c .analyzer), (.fixed .runtimeBasic, fixedValue c .runtimeBasic)] :=
  rfl

theorem nodesBatch_full (c : Circuit reg) (ids : StableGraphIds) :
    nodesBatch .full c ids =
      [(.fixed .nodesCount, fixedValue c .nodesCount), (.fixed .groundUid, appendTrivial ids.groundUid)] ++
      (ids.nodeUid.take c.nodes.length).zipIdx.map (fun p => (.node p.2 .uid, appendTrivial p.1)) ++
      (c.nodes.zipIdx.map (fun p => (.node p.2 .state, encodeNodeState p.1.value)) ++
        [(.fixed .nodesGround, fixedValue c .nodesGround)]) :=
  rfl

variable {batch : WriteBatch}

theorem saveToLeveldb_full (h : saveToLeveldb .full c = .ok batch) :
    FullBatch c batch := by
  obtain ⟨models, hmodels, h⟩ := bind_eq_ok h
  have hrel := mapM_eq_ok hmodels
  cases h
  constructor
  · intro f
    cases f <;> simp [metaBatch, circuitBatch, nodesBatch, fixedValue, ExportMode.wantRuntime, ExportMode.wantStructure]
  · intro i n hn
    have hmem : (n, i) ∈ c.nodes.zipIdx := mk_mem_zipIdx_iff_getElem?.mpr hn
    rw [nodesBatch_full]
    simp only [mem_append, mem_map]
    exact .inl (.inl (.inr (.inr (.inl ⟨(n, i), hmem, rfl⟩))))
  · intro i m hm
    have hmem : (m, i) ∈ c.normals.zipIdx := mk_mem_zipIdx_iff_getElem?.mpr hm
    obtain ⟨b, hb, hmb⟩ := exists_of_mem_left hrel hmem
    obtain ⟨ids, state, uid, hids, hstate, rfl, _⟩ := modelBatch_full hmb
    refine ⟨ids, state, hids, hstate, fun e he => ?_⟩
    exact mem_append_right _ (mem_flatten.mpr ⟨_, hb, mem_append_left _ he⟩)
  · intro e he
    rw [nodesBatch_full] at he
    simp only [mem_append, mem_map, mem_flatten] at he
    rcases he with (((he | he) | ((he | ⟨p, _, rfl⟩) | (⟨p, hp, rfl⟩ | he))) | he) | ⟨b, hb, he⟩
    · simp only [metaBatch, mem_cons, not_mem_nil, or_false] at he
      rcases he with rfl | rfl | rfl | rfl | rfl
      exacts [.inl ⟨.formatVersion, rfl⟩, .inl ⟨.mode, rfl⟩, .inl ⟨.structureHash, rfl⟩, .inl ⟨.uidAlgoVersion, rfl⟩,
        .inl ⟨.flags, rfl⟩]
    · rw [circuitBatch_full] at he
      simp only [mem_cons, not_mem_nil, or_false] at he
      rcases he with rfl | rfl | rfl | rfl
      exacts [.inl ⟨.env, rfl⟩, .inl ⟨.analyzeType, rfl⟩, .inl ⟨.analyzer, rfl⟩, .inl ⟨.runtimeBasic, rfl⟩]
    · simp only [mem_cons, not_mem_nil, or_false] at he
      rcases he with rfl | rfl
      exacts [.inl ⟨.nodesCount, rfl⟩, .inl ⟨.groundUid, rfl⟩]
    · exact .inr (.inl ⟨p.2, rfl⟩)
    · exact .inr (.inr (.inl ⟨p.2, p.1, mk_mem_zipIdx_iff_getElem?.mp hp, rfl⟩))
    · exact .inl ⟨.nodesGround, mem_singleton.mp he⟩
    · exact .inl ⟨.modelsCount, mem_singleton.mp he⟩
    · obtain ⟨p, hp, hmb⟩ := exists_of_mem_left hrel.flip hb
      obtain ⟨ids, state, uid, hids, hstate, rfl, huid⟩ := modelBatch_full hmb
      rcases mem_append.mp he with he | he
      · exact .inr (.inr (.inr (.inl ⟨p.2, p.1, ids, state, mk_mem_zipIdx_iff_getElem?.mp hp, hids, hstate, he⟩)))
      · exact .inr (.inr (.inr (.inr ⟨p.2, huid e he⟩)))

structure HoldsCircuit (db : Database) (c : Circuit reg) : Prop where
  fixed : ∀ f, db.get (.fixed f) = .ok (fixedValue c f)
  node : ∀ i n, c.nodes[i]? = some n → db.get (.node i .state) = .ok (encodeNodeState n.value)
  model : ∀ i m, c.normals[i]? = some m → ∃ ids state, m.object.pins.mapM (pinId c) = .ok ids ∧
    (reg.codec m.kind).saveState m.object = .ok state ∧ ∀ e ∈ modelEntries m i ids state, db.get e.1 = .ok e.2

theorem FullBatch.holds_write (h : FullBatch c batch) (db : Database) :
    HoldsCircuit (db.write batch) c where
  fixed f := by
    apply Database.get_write (h.fixed f)
    intro v hv
    rcases h.only _ hv with ⟨g, he⟩ | ⟨i, he⟩ | ⟨i, n, _, he⟩ | ⟨i, m, ids, state, _, _, _, he⟩ | ⟨i, he⟩
    · cases he
      rfl
    · cases he
    · cases he
    · obtain ⟨g, _, hkey⟩ := key_of_mem_modelEntries he
      cases hkey
    · cases he
  node i n hn := by
    apply Database.get_write (h.node i n hn)
    intro v hv
    rcases h.only _ hv with ⟨g, he⟩ | ⟨j, he⟩ | ⟨j, n', hn', he⟩ | ⟨j, m, ids, state, _, _, _, he⟩ | ⟨j, he⟩
    · cases he
    · cases he
    · cases he
      rw [hn] at hn'
      cases hn'
      rfl
    · obtain ⟨g, _, hkey⟩ := key_of_mem_modelEntries he
      cases hkey
    · cases he
  model i m hm := by
    obtain ⟨ids, state, hids, hstate, hsub⟩ := h.model i m hm
    refine ⟨ids, state, hids, hstate, fun ⟨k, w⟩ he => ?_⟩
    obtain ⟨f, hf, hkey⟩ := key_of_mem_modelEntries he
    obtain rfl : k = .model i f := hkey
    apply Database.get_write (hsub he)
    intro v hv
    rcases h.only _ hv with ⟨g, hv⟩ | ⟨j, hv⟩ | ⟨j, n, _, hv⟩ | ⟨j, m', ids', state', hm', hids', hstate', hv⟩ | ⟨j, hv⟩
    · cases hv
    · cases hv
    · cases hv
    · obtain ⟨g, _, hkey'⟩ := key_of_mem_modelEntries hv
      cases hkey'
      rw [hm] at hm'
      cases hm'
      rw [hids] at hids'
      cases hids'
      rw [hstate] at hstate'
      cases hstate'
      exact congrArg Prod.snd (eq_of_mem_modelEntries hv he rfl)
    · cases hv
      exact absurd rfl hf

end PhyEngine.FileFormat
