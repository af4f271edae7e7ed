import PhyEngine.FileFormat.Restore
import PhyEngine.Library.Failing

/-!
# The targets of a checkpoint

Before a database without a structure is applied to a circuit, `load_from_leveldb` maps the
stored nodes and models to those of the circuit, by their stable uids or in sequence. What
follows this phase is a parameter here.
-/

namespace PhyEngine.FileFormat

open ByteReader List

variable {reg : Registry}

inductive CheckpointMatchMode where
  | stableId
  | sequence
  deriving DecidableEq

structure LoadOptions where
  checkpointMode : CheckpointMatchMode := .stableId
  checkpointAllowFallbackToSequence : Bool := true

def getU64 (db : Database) (k : Key) : Except Status UInt64 := do
  let v ← db.get k
  checkU64 v
  parse (readTrivial UInt64) v

def expectedStructureHash (db : Database) : Except Status UInt64 := do
  match ← getOptional db (.fixed .structureHash) with
  | some _ => getU64 db (.fixed .structureHash)
  | none => pure 0

/-- The first loop: `to_index`, unless a uid occurs twice. -/
def buildIndex : List (UInt64 × Nat) → List (UInt64 × Nat) → Option (List (UInt64 × Nat))
  | [], toIndex => some toIndex
  | (uid, i) :: rest, toIndex =>
    if (toIndex.lookup uid).isSome then none else buildIndex rest ((uid, i) :: toIndex)

/-- The second loop. It stops at a uid that was seen or has no index, and leaves what it has
written of the map. -/
def fillMap (toIndex : List (UInt64 × Nat)) : List (UInt64 × Nat) → List UInt64 → List Nat → Bool × List Nat
  | [], _, outMap => (true, outMap)
  | (uid, i) :: rest, fromSeen, outMap =>
    if uid ∈ fromSeen then (false, outMap)
    else
      match toIndex.lookup uid with
      | none => (false, outMap)
      | some j => fillMap toIndex rest (uid :: fromSeen) (outMap.set i j)

def buildUniqueMap (fromUid toUid : List UInt64) (outMap : List Nat) : Bool × List Nat :=
  if fromUid.length ≠ toUid.length then (false, outMap)
  else
    match buildIndex toUid.zipIdx [] with
    | none => (false, outMap)
    | some toIndex => fillMap toIndex fromUid.zipIdx [] outMap

variable {toUid : List UInt64} {db : Database}

theorem lookup_buildIndex (ps : List (UInt64 × Nat)) : ∀ {acc toIndex : List (UInt64 × Nat)},
    buildIndex ps acc = some toIndex → (∀ p ∈ ps, toUid[p.2]? = some p.1) →
    (∀ uid i, acc.lookup uid = some i → toUid[i]? = some uid) →
    ∀ uid i, toIndex.lookup uid = some i → toUid[i]? = some uid := by
  induction ps with
  | nil =>
    intro acc toIndex hbuild _ hacc
    rw [buildIndex, Option.some.injEq] at hbuild
    exact hbuild ▸ hacc
  | cons p ps ih =>
    intro acc toIndex hbuild hps hacc
    rw [buildIndex] at hbuild
    split_ifs at hbuild
    refine ih hbuild (fun q hq => hps q (mem_cons_of_mem p hq)) fun uid i hlook => ?_
    rw [List.lookup_cons] at hlook
    by_cases huid : uid = p.1
    · rw [huid, BEq.rfl] at hlook
      obtain rfl : p.2 = i := Option.some.inj hlook
      rw [huid]
      exact hps p mem_cons_self
    · rw [beq_false_of_ne huid] at hlook
      exact hacc uid i hlook

variable {toIndex : List (UInt64 × Nat)}

/-- What the second loop has written when it succeeds: the entries of the uids it has walked
over lead to the same uids, no uid occurs twice, and the other entries are as before. -/
theorem fillMap_eq_true
    (hindex : ∀ uid i, toIndex.lookup uid = some i → toUid[i]? = some uid) (uids : List UInt64) :
    ∀ {k : Nat} {seen : List UInt64} {outMap m : List Nat}, fillMap toIndex (uids.zipIdx k) seen outMap = (true, m) →
      k + uids.length ≤ outMap.length →
      m.length = outMap.length ∧ uids.Nodup ∧ (∀ uid ∈ uids, uid ∉ seen) ∧
        (∀ i uid, uids[i]? = some uid → ∃ j, m[k + i]? = some j ∧ toUid[j]? = some uid) ∧
        ∀ i < k, m[i]? = outMap[i]? := by
  induction uids with
  | nil =>
    intro k seen outMap m h _
    rw [zipIdx_nil, fillMap, Prod.mk.injEq] at h
    obtain ⟨-, rfl⟩ := h
    simp
  | cons uid uids ih =>
    intro k seen outMap m h hlen
    rw [zipIdx_cons, fillMap] at h
    by_cases hseen : uid ∈ seen
    · rw [if_pos hseen] at h
      cases h
    rw [if_neg hseen] at h
    cases hlook : toIndex.lookup uid with
    | none => simp [hlook] at h
    | some j =>
      rw [hlook] at h
      rw [length_cons] at hlen
      obtain ⟨hm, hnodup, hfresh, hmap, hbefore⟩ := ih h (by rw [length_set]; omega)
      rw [length_set] at hm
      refine ⟨hm, nodup_cons.mpr ⟨fun hin => hfresh uid hin mem_cons_self, hnodup⟩, ?_, ?_, ?_⟩
      · intro u hu
        rcases mem_cons.mp hu with rfl | hu
        · exact hseen
        · exact fun hs => hfresh u hu (mem_cons_of_mem uid hs)
      · intro i u hu
        cases i with
        | zero =>
          obtain rfl : uid = u := by simpa using hu
          have hk := hbefore k (Nat.lt_succ_self k)
          rw [getElem?_set_self (by omega)] at hk
          exact ⟨j, hk, hindex uid j hlook⟩
        | succ i =>
          rw [getElem?_cons_succ] at hu
          obtain ⟨j', hj', hto⟩ := hmap i u hu
          exact ⟨j', by rw [← hj']; congr 1; omega, hto⟩
      · intro i hi
        rw [hbefore i (by omega), getElem?_set_ne (by omega)]

variable {fromUid : List UInt64}

/-- Two lists of uids of which a map of indices leads the one to the other: the map is a
permutation, and so are the lists. -/
theorem buildUniqueMap_eq_true {outMap m : List Nat} {n : Nat}
    (h : buildUniqueMap fromUid toUid outMap = (true, m)) (hfrom : fromUid.length = n) (hout : outMap.length = n) :
    m.Perm (List.range n) ∧ toUid.Nodup ∧ fromUid.Perm toUid ∧
      ∀ (i j : Nat), m[i]? = some j → ∃ uid, fromUid[i]? = some uid ∧ toUid[j]? = some uid := by
  rw [buildUniqueMap] at h
  by_cases hlen : fromUid.length ≠ toUid.length
  · rw [if_pos hlen] at h
    cases h
  rw [if_neg hlen] at h
  cases hindex : buildIndex toUid.zipIdx [] with
  | none => simp [hindex] at h
  | some toIndex =>
    rw [hindex] at h
    have hlook := lookup_buildIndex _ hindex (fun p hp => mem_zipIdx_iff_getElem?.mp hp)
      (fun uid i hl => by simp at hl)
    obtain ⟨hm, hnodup, -, hmap, -⟩ := fillMap_eq_true hlook fromUid (k := 0) h (by omega)
    have hkeeps : ∀ (i j : Nat), m[i]? = some j → ∃ uid, fromUid[i]? = some uid ∧ toUid[j]? = some uid := by
      intro i j hij
      have hi : i < fromUid.length := by
        have := (List.getElem?_eq_some_iff.mp hij).1
        omega
      obtain ⟨j', hj', hto⟩ := hmap i _ (getElem?_eq_getElem hi)
      rw [Nat.zero_add, hij, Option.some.injEq] at hj'
      exact ⟨_, getElem?_eq_getElem hi, hj' ▸ hto⟩
    have hinj : m.Nodup := by
      rw [nodup_iff_injective_getElem]
      intro a b hab
      have ha := hkeeps a _ (getElem?_eq_getElem a.isLt)
      have hb := hkeeps b _ (getElem?_eq_getElem b.isLt)
      obtain ⟨ua, hfa, hta⟩ := ha
      obtain ⟨ub, hfb, htb⟩ := hb
      have hab : m[a.val] = m[b.val] := hab
      rw [hab, htb, Option.some.injEq] at hta
      obtain ⟨hla, hga⟩ := List.getElem?_eq_some_iff.mp hfa
      obtain ⟨hlb, hgb⟩ := List.getElem?_eq_some_iff.mp hfb
      exact Fin.ext ((List.Nodup.getElem_inj_iff hnodup).mp (by rw [hga, hgb, hta]))
    have hsub : m ⊆ List.range n := by
      intro j hj
      obtain ⟨i, hi⟩ := mem_iff_getElem?.mp hj
      obtain ⟨uid, -, hto⟩ := hkeeps i j hi
      have := (List.getElem?_eq_some_iff.mp hto).1
      rw [mem_range]
      omega
    have hperm := (List.Nodup.subperm hinj hsub).perm_of_length_le (by rw [length_range]; omega)
    have hsame : fromUid.Perm toUid := by
      have hfromMap : fromUid = m.map fun j => toUid.getD j 0 := by
        apply List.ext_getElem?
        intro i
        rw [getElem?_map]
        cases hi : m[i]? with
        | none =>
          rw [getElem?_eq_none_iff] at hi
          exact getElem?_eq_none (by omega)
        | some j =>
          obtain ⟨uid, hfrom', hto⟩ := hkeeps i j hi
          rw [hfrom', Option.map_some, List.getD_eq_getElem?_getD, hto, Option.getD_some]
      have htoMap : (List.range n).map (fun j => toUid.getD j 0) = toUid := by
        apply List.ext_getElem (by simp; omega)
        intro i h₁ h₂
        simp [h₂]
      have hmapped := hperm.map fun j => toUid.getD j 0
      rwa [← hfromMap, htoMap] at hmapped
    exact ⟨hperm, hsame.nodup_iff.mp hnodup, hsame, hkeeps⟩

/-- The first loop runs to its end over uids that are all different, and then finds each of them. -/
theorem buildIndex_of_nodup (ps : List (UInt64 × Nat)) : ∀ {acc : List (UInt64 × Nat)},
    (ps.map Prod.fst).Nodup → (∀ uid ∈ ps.map Prod.fst, acc.lookup uid = none) →
    ∃ toIndex, buildIndex ps acc = some toIndex ∧
      ∀ uid, uid ∈ ps.map Prod.fst ∨ (acc.lookup uid).isSome → (toIndex.lookup uid).isSome := by
  induction ps with
  | nil =>
    intro acc _ _
    exact ⟨acc, rfl, fun uid h => h.resolve_left (by simp)⟩
  | cons p ps ih =>
    intro acc hnodup hacc
    rw [map_cons, nodup_cons] at hnodup
    have hlook (uid : UInt64) : lookup uid ((p.1, p.2) :: acc) =
        if uid = p.1 then some p.2 else lookup uid acc := by
      by_cases huid : uid = p.1
      · rw [List.lookup_cons, huid, BEq.rfl, if_pos rfl]
      · rw [List.lookup_cons, beq_false_of_ne huid, if_neg huid]
    obtain ⟨toIndex, hbuild, hfound⟩ := @ih ((p.1, p.2) :: acc) hnodup.2 fun uid huid => by
      have hne : uid ≠ p.1 := fun heq => hnodup.1 (heq ▸ huid)
      rw [hlook, if_neg hne]
      exact hacc uid (mem_cons_of_mem _ huid)
    refine ⟨toIndex, ?_, fun uid huid => hfound uid ?_⟩
    · rw [buildIndex, hacc p.1 mem_cons_self]
      exact hbuild
    · rw [map_cons, mem_cons] at huid
      rcases huid with (rfl | huid) | huid
      · exact .inr (by rw [hlook, if_pos rfl]; rfl)
      · exact .inl huid
      · right
        rw [hlook]
        split_ifs
        · rfl
        · exact huid

theorem fillMap_of_nodup (uids : List UInt64) : ∀ {k : Nat} {seen : List UInt64}
    {outMap : List Nat}, uids.Nodup → (∀ uid ∈ uids, uid ∉ seen) → (∀ uid ∈ uids, (toIndex.lookup uid).isSome) →
    (fillMap toIndex (uids.zipIdx k) seen outMap).1 = true := by
  induction uids with
  | nil =>
    intro k seen outMap _ _ _
    rw [zipIdx_nil, fillMap]
  | cons uid uids ih =>
    intro k seen outMap hnodup hseen hlook
    obtain ⟨j, hj⟩ := Option.isSome_iff_exists.mp (hlook uid mem_cons_self)
    obtain ⟨huid, hnodup⟩ := nodup_cons.mp hnodup
    rw [zipIdx_cons, fillMap, if_neg (hseen uid mem_cons_self), hj]
    refine ih hnodup (fun u hu hin => ?_) fun u hu => hlook u (mem_cons_of_mem _ hu)
    rcases mem_cons.mp hin with rfl | hin
    · exact huid hu
    · exact hseen u (mem_cons_of_mem _ hu) hin

theorem buildUniqueMap_of_perm (hnodup : toUid.Nodup) (hperm : fromUid.Perm toUid)
    (outMap : List Nat) : (buildUniqueMap fromUid toUid outMap).1 = true := by
  have hfst : toUid.zipIdx.map Prod.fst = toUid := List.zipIdx_map_fst 0 toUid
  obtain ⟨toIndex, hbuild, hfound⟩ := @buildIndex_of_nodup toUid.zipIdx []
    (by rwa [hfst]) fun uid _ => rfl
  rw [buildUniqueMap, if_neg (not_not_intro hperm.length_eq), hbuild]
  refine fillMap_of_nodup fromUid (hperm.nodup_iff.mpr hnodup) (fun _ _ => not_mem_nil) fun uid huid => ?_
  exact hfound uid (.inl (by rw [hfst]; exact hperm.mem_iff.mp huid))

structure TargetMaps where
  nodeMap : List Nat
  modelMap : List Nat
  deriving DecidableEq

def identityMaps (nodeCount modelCount : Nat) : TargetMaps := ⟨List.range nodeCount, List.range modelCount⟩

/-- The uids of the checkpoint under the keys of a table; `none` if one cannot be read. -/
def readUids (db : Database) (key : Nat → Key) (count : Nat) : Option (List UInt64) :=
  ((List.range count).mapM fun i => getU64 db (key i)).toOption

def fallback (opt : LoadOptions) (nodeCount modelCount : Nat) (msg : String) : Except Status TargetMaps :=
  if opt.checkpointAllowFallbackToSequence then .ok (identityMaps nodeCount modelCount)
  else .error ⟨.unsupported, msg⟩

def stableMaps (opt : LoadOptions) (db : Database) (ids : StableGraphIds) (nodeCount modelCount : Nat) :
    Except Status TargetMaps :=
  match readUids db (.node · .uid) nodeCount, readUids db (.model · .uid) modelCount with
  | some ckNodeUid, some ckModelUid =>
    let nodes := buildUniqueMap ckNodeUid ids.nodeUid (List.range nodeCount)
    let models := buildUniqueMap ckModelUid ids.modelUid (List.range modelCount)
    if nodes.1 && models.1 then .ok ⟨nodes.2, models.2⟩
    else fallback opt nodeCount modelCount "checkpoint stable-id mapping failed (duplicates or mismatch)"
  | _, _ => fallback opt nodeCount modelCount "checkpoint missing uid tables"

def checkpointMaps (opt : LoadOptions) (db : Database) (c : Circuit reg) (expectedHash : UInt64)
    (nodeCount modelCount : Nat) : Except Status TargetMaps :=
  if c.nodes.length ≠ nodeCount ∨ c.normals.length ≠ modelCount then
    .error ⟨.unsupported, "checkpoint counts mismatch"⟩
  else
    let curIds := computeStableIds c.graph
    if opt.checkpointMode = .sequence then .ok (identityMaps nodeCount modelCount)
    else if expectedHash ≠ 0 ∧ curIds.structureHash ≠ expectedHash then
      fallback opt nodeCount modelCount "checkpoint structure_hash mismatch"
    else stableMaps opt db curIds nodeCount modelCount

/-- A part of a load: it may fail, and leaves the circuit as it is by then. -/
abbrev Load (reg : Registry) := EStateM Status (Circuit reg)

def liftStatus {α : Type} : Except Status α → Load reg α
  | .ok a => pure a
  | .error e => throw e

structure CheckpointPlan where
  info : Meta
  nodeCount : UInt64
  modelCount : UInt64
  maps : TargetMaps
  deriving DecidableEq

/-- `load_from_leveldb` from the counts to the end of the mapping phase, for a database in mode
`runtime_only`. -/
def mappingPhase (opt : LoadOptions) (db : Database) (info : Meta) : Load reg CheckpointPlan := do
  let expectedHash ← liftStatus (expectedStructureHash db)
  let nodeCount ← liftStatus (db.get (.fixed .nodesCount) >>= parse readUleb128)
  let modelCount ← liftStatus (db.get (.fixed .modelsCount) >>= parse readUleb128)
  let c ← get
  let maps ← liftStatus (checkpointMaps opt db c expectedHash nodeCount.toNat modelCount.toNat)
  pure ⟨info, nodeCount, modelCount, maps⟩

/-- `load_from_leveldb`; `apply` is what follows the mapping phase of a checkpoint, `rebuild` the
load of a structure. -/
def loadOnto (opt : LoadOptions) (db : Database) (apply : CheckpointPlan → Load reg Unit)
    (rebuild : Meta → Load reg Unit) :
    Load reg Unit := do
  let info ← liftStatus (readMeta db)
  if info.mode = .runtimeOnly then
    let plan ← mappingPhase opt db info
    apply plan
  else rebuild info

/-- The target of a stored object in the loop that applies the states. -/
def target (map : List Nat) (current : Nat) (mapMsg targetMsg : String) (id : Nat) : Except Status Nat :=
  match map[id]? with
  | none => .error (corrupt mapMsg)
  | some tgt => if current ≤ tgt then .error (corrupt targetMsg) else .ok tgt

def nodeTarget (c : Circuit reg) (maps : TargetMaps) (id : Nat) : Except Status Nat :=
  target maps.nodeMap c.nodes.length "checkpoint: node map out of range" "checkpoint: node target out of range" id

def modelTarget (c : Circuit reg) (maps : TargetMaps) (id : Nat) : Except Status Nat :=
  target maps.modelMap c.normals.length "checkpoint: model map out of range"
    "checkpoint: model target out of range" id

/-- The uid at a key is that of the current item `j`. -/
def SameUid (db : Database) (k : Key) (current : List UInt64) (j : Nat) : Prop :=
  ∃ uid, getU64 db k = .ok uid ∧ current[j]? = some uid

/-- The uids of a table can be read, are those of the circuit in some order, and no uid occurs
twice. -/
def UidsMatch (db : Database) (key : Nat → Key) (current : List UInt64) : Prop :=
  current.Nodup ∧ ∃ uids : List UInt64, uids.Perm current ∧
    ∀ (i : Nat) uid, uids[i]? = some uid → getU64 db (key i) = .ok uid

/-- Stable ids decide: they are asked for, the structure hash of the checkpoint is absent or that
of the circuit, and both tables of uids match. -/
structure ByStableId (opt : LoadOptions) (db : Database) (c : Circuit reg) : Prop where
  mode : opt.checkpointMode = .stableId
  hash : ∃ hash, expectedStructureHash db = .ok hash ∧
    (hash = 0 ∨ hash = (computeStableIds c.graph).structureHash)
  nodes : UidsMatch db (.node · .uid) (computeStableIds c.graph).nodeUid
  models : UidsMatch db (.model · .uid) (computeStableIds c.graph).modelUid

/-- Both maps are permutations. Where stable ids decide, every stored object is mapped to the one
with its uid; else both maps are the identity, which the options allow. -/
structure TargetsPermuted (opt : LoadOptions) (db : Database) (c : Circuit reg) (maps : TargetMaps) : Prop where
  nodes : maps.nodeMap.Perm (List.range c.nodes.length)
  models : maps.modelMap.Perm (List.range c.normals.length)
  matched : ByStableId opt db c →
    (∀ i j : Nat, maps.nodeMap[i]? = some j → SameUid db (.node i .uid) (computeStableIds c.graph).nodeUid j) ∧
      ∀ i j : Nat, maps.modelMap[i]? = some j → SameUid db (.model i .uid) (computeStableIds c.graph).modelUid j
  sequential : ¬ByStableId opt db c →
    maps = identityMaps c.nodes.length c.normals.length ∧
      (opt.checkpointMode = .sequence ∨ opt.checkpointAllowFallbackToSequence = true)

theorem readUids_eq_some {key : Nat → Key} {count : Nat} {uids : List UInt64} (h : readUids db key count = some uids) :
    uids.length = count ∧ ∀ (i : Nat) uid, uids[i]? = some uid → getU64 db (key i) = .ok uid := by
  cases hread : (List.range count).mapM fun i => getU64 db (key i) with
  | error e =>
    rw [readUids, hread] at h
    cases h
  | ok vs =>
    rw [readUids, hread] at h
    obtain rfl : vs = uids := Option.some.inj h
    have hall := Failing.mapM_eq_ok hread
    have hlen : vs.length = count := by rw [← hall.length_eq, length_range]
    refine ⟨hlen, fun i uid hi => ?_⟩
    obtain ⟨hlt, rfl⟩ := List.getElem?_eq_some_iff.mp hi
    have hone := hall.get (i := i) (by rw [length_range]; omega) hlt
    simpa using hone

theorem readUids_of_uidsMatch {key : Nat → Key} {current : List UInt64} (h : UidsMatch db key current) :
    ∃ uids, readUids db key current.length = some uids ∧ uids.Perm current := by
  obtain ⟨-, uids, hperm, hget⟩ := h
  have hread : (List.range uids.length).mapM (fun i => getU64 db (key i)) = .ok uids := by
    apply Failing.mapM_of_forall₂
    refine List.forall₂_iff_get.mpr ⟨length_range, fun i _ hi => ?_⟩
    simpa using hget i _ (getElem?_eq_getElem hi)
  exact ⟨uids, by rw [readUids, ← hperm.length_eq, hread]; rfl, hperm⟩

/-- What `readUids` and `buildUniqueMap` say of one kind of objects together. -/
theorem uidsMatch_iff {key : Nat → Key} {current : List UInt64} {n : Nat} (hn : current.length = n) :
    UidsMatch db key current ↔
      ∃ uids, readUids db key n = some uids ∧ (buildUniqueMap uids current (List.range n)).1 = true := by
  constructor
  · intro h
    obtain ⟨uids, hread, hperm⟩ := readUids_of_uidsMatch h
    exact ⟨uids, hn ▸ hread, buildUniqueMap_of_perm h.1 hperm _⟩
  · intro ⟨uids, hread, hok⟩
    obtain ⟨hlen, hget⟩ := readUids_eq_some hread
    obtain ⟨-, hnodup, hperm, -⟩ := buildUniqueMap_eq_true (Prod.ext hok rfl) hlen length_range
    exact ⟨hnodup, uids, hperm, hget⟩

variable {opt : LoadOptions} {maps : TargetMaps} {c : Circuit reg}

theorem length_nodeUid_graph (c : Circuit reg) : (computeStableIds c.graph).nodeUid.length = c.nodes.length := by
  rw [length_nodeUid]
  exact length_map _

theorem length_modelUid_graph (c : Circuit reg) :
    (computeStableIds c.graph).modelUid.length = c.normals.length := by
  rw [length_modelUid]
  exact length_map _

theorem targetsPermuted_identity (hids : ¬ByStableId opt db c)
    (h : opt.checkpointMode = .sequence ∨ opt.checkpointAllowFallbackToSequence = true) :
    TargetsPermuted opt db c (identityMaps c.nodes.length c.normals.length) :=
  ⟨.refl _, .refl _, fun h => absurd h hids, fun _ => ⟨rfl, h⟩⟩

theorem targetsPermuted_fallback (hids : ¬ByStableId opt db c) {msg : String}
    (h : fallback opt c.nodes.length c.normals.length msg = .ok maps) :
    TargetsPermuted opt db c maps := by
  rw [fallback] at h
  split_ifs at h with hallow
  cases h
  exact targetsPermuted_identity hids (.inr hallow)

/-- The tables are read and both maps are built, or one of the two does not match and the
fallback decides. -/
theorem targetsPermuted_stableMaps (hmode : opt.checkpointMode = .stableId)
    (hhash : ∃ hash, expectedStructureHash db = .ok hash ∧ (hash = 0 ∨ hash = (computeStableIds c.graph).structureHash))
    (h : stableMaps opt db (computeStableIds c.graph) c.nodes.length c.normals.length = .ok maps) :
    TargetsPermuted opt db c maps := by
  have hnodes := @uidsMatch_iff db (.node · .uid) _ _ (length_nodeUid_graph c)
  have hmodels := @uidsMatch_iff db (.model · .uid) _ _ (length_modelUid_graph c)
  rw [stableMaps] at h
  cases hn : readUids db (.node · .uid) c.nodes.length with
  | none =>
    rw [hn] at h hnodes
    exact targetsPermuted_fallback (fun hids => by simpa using hnodes.mp hids.nodes) h
  | some nodeUids =>
    cases hm : readUids db (.model · .uid) c.normals.length with
    | none =>
      rw [hn, hm] at h
      rw [hm] at hmodels
      exact targetsPermuted_fallback (fun hids => by simpa using hmodels.mp hids.models) h
    | some modelUids =>
      rw [hn, hm] at h
      rw [hn] at hnodes
      rw [hm] at hmodels
      simp only [Option.some.injEq, exists_eq_left'] at hnodes hmodels
      dsimp only at h
      split_ifs at h with hok
      · cases h
        rw [Bool.and_eq_true] at hok
        obtain ⟨hnlen, hnget⟩ := readUids_eq_some hn
        obtain ⟨hmlen, hmget⟩ := readUids_eq_some hm
        obtain ⟨hnperm, -, -, hnkeep⟩ := buildUniqueMap_eq_true (Prod.ext hok.1 rfl) hnlen length_range
        obtain ⟨hmperm, -, -, hmkeep⟩ := buildUniqueMap_eq_true (Prod.ext hok.2 rfl) hmlen length_range
        refine ⟨hnperm, hmperm, fun _ => ⟨fun i j hij => ?_, fun i j hij => ?_⟩,
          fun hids => absurd ⟨hmode, hhash, hnodes.mpr hok.1, hmodels.mpr hok.2⟩ hids⟩
        · obtain ⟨uid, hfrom, hto⟩ := hnkeep i j hij
          exact ⟨uid, hnget i uid hfrom, hto⟩
        · obtain ⟨uid, hfrom, hto⟩ := hmkeep i j hij
          exact ⟨uid, hmget i uid hfrom, hto⟩
      · refine targetsPermuted_fallback (fun hids => hok ?_) h
        rw [Bool.and_eq_true]
        exact ⟨hnodes.mp hids.nodes, hmodels.mp hids.models⟩

theorem targetsPermuted_checkpointMaps {hash : UInt64} {nodeCount modelCount : Nat}
    (hhash : expectedStructureHash db = .ok hash)
    (h : checkpointMaps opt db c hash nodeCount modelCount = .ok maps) :
    c.nodes.length = nodeCount ∧ c.normals.length = modelCount ∧ TargetsPermuted opt db c maps := by
  rw [checkpointMaps] at h
  by_cases hcount : c.nodes.length ≠ nodeCount ∨ c.normals.length ≠ modelCount
  · rw [if_pos hcount] at h
    cases h
  rw [if_neg hcount] at h
  obtain ⟨rfl, rfl⟩ : c.nodes.length = nodeCount ∧ c.normals.length = modelCount := by tauto
  refine ⟨rfl, rfl, ?_⟩
  dsimp only at h
  split_ifs at h with hseq hdiffer
  · cases h
    refine targetsPermuted_identity (fun hids => ?_) (.inl hseq)
    rw [hids.mode] at hseq
    cases hseq
  · refine targetsPermuted_fallback (fun hids => ?_) h
    obtain ⟨hash', hread, hagree⟩ := hids.hash
    rw [hhash] at hread
    cases hread
    exact hagree.elim hdiffer.1 fun heq => hdiffer.2 heq.symm
  · have hmode : opt.checkpointMode = .stableId := by
      cases hm : opt.checkpointMode with
      | stableId => rfl
      | sequence => exact absurd hm hseq
    exact targetsPermuted_stableMaps hmode ⟨hash, hhash, by tauto⟩ h

theorem target_eq_ok {map : List Nat} {n : Nat} (h : map.Perm (List.range n)) (mapMsg targetMsg : String) {id : Nat}
    (hid : id < n) : ∃ tgt, map[id]? = some tgt ∧ target map n mapMsg targetMsg id = .ok tgt := by
  have hlen : map.length = n := by rw [h.length_eq, length_range]
  have hget := getElem?_eq_getElem (l := map) (i := id) (by omega)
  have htgt : map[id] < n := mem_range.mp (h.mem_iff.mp (getElem_mem _))
  refine ⟨_, hget, ?_⟩
  rw [target, hget]
  exact if_neg (Nat.not_le.mpr htgt)

theorem mappingPhase_cases (opt : LoadOptions) (db : Database) (info : Meta) (c : Circuit reg) :
    (∃ e, (mappingPhase opt db info).run c = .error e c) ∨
      ∃ plan : CheckpointPlan, (mappingPhase opt db info).run c = .ok plan c ∧ plan.nodeCount.toNat = c.nodes.length ∧
        plan.modelCount.toNat = c.normals.length ∧ TargetsPermuted opt db c plan.maps := by
  cases hhash : expectedStructureHash db with
  | error e => exact .inl ⟨e, by rw [mappingPhase, hhash]; rfl⟩
  | ok hash =>
  cases hnodes : db.get (.fixed .nodesCount) >>= parse readUleb128 with
  | error e => exact .inl ⟨e, by rw [mappingPhase, hhash, hnodes]; rfl⟩
  | ok nodeCount =>
  cases hmodels : db.get (.fixed .modelsCount) >>= parse readUleb128 with
  | error e => exact .inl ⟨e, by rw [mappingPhase, hhash, hnodes, hmodels]; rfl⟩
  | ok modelCount =>
  have hrun : (mappingPhase opt db info).run c = EStateM.run
      (liftStatus (checkpointMaps opt db c hash nodeCount.toNat modelCount.toNat) >>= fun maps =>
        pure ⟨info, nodeCount, modelCount, maps⟩) c := by
    rw [mappingPhase, hhash, hnodes, hmodels]
    rfl
  cases hmaps : checkpointMaps opt db c hash nodeCount.toNat modelCount.toNat with
  | error e => exact .inl ⟨e, by rw [hrun, hmaps]; rfl⟩
  | ok maps =>
    obtain ⟨hn, hm, hperm⟩ := targetsPermuted_checkpointMaps hhash hmaps
    exact .inr ⟨⟨info, nodeCount, modelCount, maps⟩, by rw [hrun, hmaps]; rfl, hn.symm, hm.symm, hperm⟩

/-- A checkpoint is refused with the circuit unchanged, or applied through permutations of its
nodes and models. -/
theorem loadOnto_checkpoint {db : Database} {info : Meta} (hmeta : readMeta db = .ok info)
    (hmode : info.mode = .runtimeOnly) (opt : LoadOptions) (apply : CheckpointPlan → Load reg Unit)
    (rebuild : Meta → Load reg Unit) (c : Circuit reg) :
    (∃ e, (mappingPhase opt db info).run c = .error e c ∧ (loadOnto opt db apply rebuild).run c = .error e c) ∨
      ∃ plan : CheckpointPlan, (mappingPhase opt db info).run c = .ok plan c ∧
        plan.nodeCount.toNat = c.nodes.length ∧ plan.modelCount.toNat = c.normals.length ∧
        TargetsPermuted opt db c plan.maps ∧
        (∀ id < c.nodes.length, ∃ tgt, plan.maps.nodeMap[id]? = some tgt ∧ nodeTarget c plan.maps id = .ok tgt) ∧
        (∀ id < c.normals.length, ∃ tgt, plan.maps.modelMap[id]? = some tgt ∧
          modelTarget c plan.maps id = .ok tgt) ∧
        (loadOnto opt db apply rebuild).run c = (apply plan).run c := by
  have hrun : (loadOnto opt db apply rebuild).run c = ((mappingPhase opt db info) >>= apply).run c := by
    rw [loadOnto, hmeta]
    simp only [liftStatus, pure_bind, hmode, if_true]
  rw [hrun, EStateM.run_bind]
  rcases mappingPhase_cases opt db info c with ⟨e, he⟩ | ⟨plan, hplan, hnodes, hmodels, hmaps⟩
  · rw [he]
    exact .inl ⟨e, rfl, rfl⟩
  · rw [hplan]
    exact .inr ⟨plan, rfl, hnodes, hmodels, hmaps, fun id hid => target_eq_ok hmaps.nodes _ _ hid,
      fun id hid => target_eq_ok hmaps.models _ _ hid, rfl⟩

/-- A resistor between two nodes, with its first pin on node `a` and its second on node `b`. -/
def twoNodes (a b : Nat) : Circuit resistorRegistry :=
  { smallCircuit 1 [some (resistor (some ⟨1, .node a⟩) (some ⟨1, .node b⟩))] with
    nodes := [{ pins := {⟨0, a⟩} }, { pins := {⟨0, b⟩} }] }

/-- The checkpoint of a circuit that has created its nodes in the other order. -/
def reorderedCheckpoint : Database :=
  Database.write (fun _ => none) ((saveToLeveldb .runtimeOnly (twoNodes 1 0)).toOption.getD [])

/-- Stable ids lead each stored node to the one that was created in its place. -/
theorem loadOnto_reordered :
    ∃ maps : TargetMaps, maps = ⟨[1, 0], [0]⟩ ∧ ByStableId {} reorderedCheckpoint (twoNodes 0 1) ∧
      TargetsPermuted {} reorderedCheckpoint (twoNodes 0 1) maps ∧
      (∀ id < 2, ∃ tgt, maps.nodeMap[id]? = some tgt ∧ nodeTarget (twoNodes 0 1) maps id = .ok tgt) ∧
      (loadOnto {} reorderedCheckpoint (fun _ => pure ()) fun _ => pure ()).run (twoNodes 0 1) =
        .ok () (twoNodes 0 1) := by
  have hmeta : readMeta reorderedCheckpoint = .ok ⟨.runtimeOnly, true, true, true, false⟩ := by
    decide +kernel
  have hphase : (mappingPhase {} reorderedCheckpoint ⟨.runtimeOnly, true, true, true, false⟩).run' (twoNodes 0 1) =
      some ⟨⟨.runtimeOnly, true, true, true, false⟩, 2, 1, ⟨[1, 0], [0]⟩⟩ := by
    decide +kernel
  rcases loadOnto_checkpoint hmeta rfl {} (fun _ => pure ()) (fun _ => pure ()) (twoNodes 0 1) with
    ⟨e, he, -⟩ | ⟨plan, hplan, -, -, hmaps, hnodes, -, hrun⟩
  · delta EStateM.run' at hphase
    rw [he] at hphase
    cases hphase
  · delta EStateM.run' at hphase
    rw [hplan] at hphase
    cases hphase
    refine ⟨_, rfl, ?_, hmaps, hnodes, hrun⟩
    by_contra hids
    exact absurd (hmaps.sequential hids).1 (by decide)

end PhyEngine.FileFormat
