import PhyEngine.FileFormat.Archive
import PhyEngine.Netlist.Basic

/-!
# Stable ids

`compute_stable_ids` of `pe_nl_fileformat.h`: labels of nodes and models, refined over the
bipartite graph of a circuit in up to eight rounds. The slot for ground is a field of its own.
Circuits that differ in the order of creation only get the same ids.
-/

namespace PhyEngine.FileFormat

open ByteReader

structure GraphPin where
  name : Bytes
  nodes : Option NodeId
  deriving DecidableEq

structure GraphModel where
  modelName : Bytes
  attributes : Bytes
  isDigital : Bool
  pins : List GraphPin
  deriving DecidableEq

/-- The nodes, by the sizes of their pin sets, and the normal models, in creation order. -/
structure Graph where
  nodePins : List Nat
  models : List GraphModel
  deriving DecidableEq

inductive Slot (n : Nat) where
  | ground
  | node (i : Fin n)
  deriving DecidableEq

def Slot.map {n k : Nat} (f : Fin n → Fin k) : Slot n → Slot k
  | .ground => .ground
  | .node i => .node (f i)

namespace Graph

abbrev nodeCount (c : Graph) : Nat := c.nodePins.length

abbrev modelCount (c : Graph) : Nat := c.models.length

def slot (c : Graph) : Option NodeId → Option (Slot c.nodeCount)
  | none => none
  | some .ground => some .ground
  | some (.node i) => if h : i < c.nodeCount then some (.node ⟨i, h⟩) else none

def pinNodes (c : Graph) (mi : Fin c.modelCount) : List (Bytes × Option (Slot c.nodeCount)) :=
  (c.models.get mi).pins.map fun p => (p.name, c.slot p.nodes)

end Graph

structure Edge (k : Nat) where
  model : Fin k
  pin : Nat
  pinName : Bytes
  deriving DecidableEq

def nodeInc (c : Graph) (s : Slot c.nodeCount) : List (Edge c.modelCount) :=
  (List.finRange c.modelCount).flatMap fun mi =>
    (c.pinNodes mi).zipIdx.filterMap fun p => if p.1.2 = some s then some ⟨mi, p.2, p.1.1⟩ else none

def fnvMixU64 (h v : UInt64) : UInt64 := fnv1aUpdate h (appendTrivial v)

def fnvMixU8 (h : UInt64) (v : UInt8) : UInt64 := fnv1aUpdate h [v]

def fnvMixStr (h : UInt64) (s : Bytes) : UInt64 := fnv1aUpdate (fnvMixU64 h (UInt64.ofNat s.length)) s

def fnvTagged (tag : Char) : UInt64 := fnvMixU8 fnv1aBasis tag.toUInt8

/-- `std::sort` of a vector of labels. -/
def sortLabels (vs : List UInt64) : List UInt64 := vs.insertionSort (· ≤ ·)

@[ext]
structure Labels (n k : Nat) where
  node : Vector UInt64 n
  ground : UInt64
  model : Vector UInt64 k
  deriving DecidableEq

def Labels.slot {n k : Nat} (l : Labels n k) : Slot n → UInt64
  | .ground => l.ground
  | .node i => l.node[i]

section Graph

variable (c : Graph)

def modelBase (mi : Fin c.modelCount) : UInt64 :=
  let m := c.models.get mi
  let h := fnvMixStr (fnvTagged 'M') m.modelName
  let h := fnvMixU64 h (UInt64.ofNat (c.pinNodes mi).length)
  let h := fnv1aUpdate h m.attributes
  (c.pinNodes mi).foldl (fun h p => fnvMixStr h p.1) h

def nodeBase : Slot c.nodeCount → UInt64
  | .ground => fnvTagged 'G'
  | .node ni =>
    let inc := nodeInc c (.node ni)
    let deg := inc.length
    let analogDeg := inc.countP fun e => !(c.models.get e.model).isDigital
    let h := fnvMixU64 (fnvTagged 'N') (UInt64.ofNat deg)
    let h := fnvMixU64 h (UInt64.ofNat analogDeg)
    fnvMixU64 h (UInt64.ofNat (c.nodePins.get ni))

def baseLabels : Labels c.nodeCount c.modelCount where
  node := Vector.ofFn fun i => nodeBase c (.node i)
  ground := nodeBase c .ground
  model := Vector.ofFn (modelBase c)

def newModel (l : Labels c.nodeCount c.modelCount) (mi : Fin c.modelCount) : UInt64 :=
  let h := fnvMixU64 (fnvTagged 'm') (modelBase c mi)
  let h := fnvMixU64 h (UInt64.ofNat (c.pinNodes mi).length)
  (c.pinNodes mi).zipIdx.foldl
    (fun h p => fnvMixU64 (fnvMixU64 h (UInt64.ofNat p.2)) ((p.1.2.map l.slot).getD 0)) h

def edgeHash {k : Nat} (models : Vector UInt64 k) (e : Edge k) : UInt64 :=
  let h := fnvMixU64 (fnvTagged 'e') (UInt64.ofNat e.pin)
  let h := fnvMixStr h e.pinName
  fnvMixU64 h models[e.model]

def newNode (models : Vector UInt64 c.modelCount) (s : Slot c.nodeCount) : UInt64 :=
  let edges := sortLabels ((nodeInc c s).map (edgeHash models))
  let h := fnvMixU64 (fnvTagged 'n') (nodeBase c s)
  let h := fnvMixU64 h (UInt64.ofNat edges.length)
  edges.foldl fnvMixU64 h

def round (l : Labels c.nodeCount c.modelCount) : Labels c.nodeCount c.modelCount :=
  let models := Vector.ofFn (newModel c l)
  { node := Vector.ofFn fun i => newNode c models (.node i)
    ground := newNode c models .ground
    model := models }

def refine : Nat → Labels c.nodeCount c.modelCount → Labels c.nodeCount c.modelCount
  | 0, l => l
  | rounds + 1, l => if round c l = l then round c l else refine rounds (round c l)

def kRounds : Nat := 8

def finalLabels : Labels c.nodeCount c.modelCount := refine c kRounds (baseLabels c)

end Graph

structure StableGraphIds where
  nodeUid : List UInt64
  modelUid : List UInt64
  groundUid : UInt64
  structureHash : UInt64
  deriving DecidableEq

def structureHash (nodes models : List UInt64) (ground : UInt64) : UInt64 :=
  let h := fnvMixU64 (fnvTagged 'S') (UInt64.ofNat nodes.length)
  let h := fnvMixU64 h (UInt64.ofNat models.length)
  let h := fnvMixU64 h ground
  let h := (sortLabels nodes).foldl fnvMixU64 h
  (sortLabels models).foldl fnvMixU64 h

def computeStableIds (c : Graph) : StableGraphIds :=
  let l := finalLabels c
  { nodeUid := l.node.toList
    modelUid := l.model.toList
    groundUid := l.ground
    structureHash := structureHash l.node.toList l.model.toList l.ground }

/-- Two circuits that differ only in the order of their nodes and models. -/
structure IsIso (c d : Graph) (f : Fin c.nodeCount ≃ Fin d.nodeCount) (g : Fin c.modelCount ≃ Fin d.modelCount) :
    Prop where
  nodePins : ∀ i, d.nodePins.get (f i) = c.nodePins.get i
  modelName : ∀ j, (d.models.get (g j)).modelName = (c.models.get j).modelName
  attributes : ∀ j, (d.models.get (g j)).attributes = (c.models.get j).attributes
  isDigital : ∀ j, (d.models.get (g j)).isDigital = (c.models.get j).isDigital
  pins : ∀ j, d.pinNodes (g j) = (c.pinNodes j).map fun p => (p.1, p.2.map (Slot.map f))

instance total_le : Std.Total (α := UInt64) (· ≤ ·) := ⟨UInt64.le_total⟩

instance trans_le : IsTrans UInt64 (· ≤ ·) := ⟨fun _ _ _ => UInt64.le_trans⟩

theorem sortLabels_eq_of_perm {vs ws : List UInt64} (h : vs.Perm ws) : sortLabels vs = sortLabels ws := by
  have hperm : (sortLabels vs).Perm (sortLabels ws) :=
    (List.perm_insertionSort _ vs).trans (h.trans (List.perm_insertionSort _ ws).symm)
  exact hperm.eq_of_pairwise (fun a b _ _ hab hba => UInt64.le_antisymm hab hba)
    (List.pairwise_insertionSort _ vs) (List.pairwise_insertionSort _ ws)

variable {n k n' k' : Nat}

variable (e : Fin n ≃ Fin k)

theorem map_finRange_perm : ((List.finRange n).map e).Perm (List.finRange k) := by
  rw [List.perm_ext_iff_of_nodup ((List.nodup_finRange n).map e.injective) (List.nodup_finRange k)]
  intro i
  simp only [List.mem_map, List.mem_finRange, true_and, iff_true]
  exact e.surjective i

theorem Slot.map_injective {f : Fin n → Fin k} (hf : Function.Injective f) :
    Function.Injective (Slot.map f) := by
  intro s t h
  cases s with
  | ground =>
    cases t with
    | ground => rfl
    | node j => cases h
  | node i =>
    cases t with
    | ground => cases h
    | node j => rw [hf (Slot.node.inj h)]

def Edge.map {k k' : Nat} (g : Fin k → Fin k') (e : Edge k) : Edge k' := { e with model := g e.model }

structure SameLabels {n k n' k' : Nat} (f : Fin n ≃ Fin n') (g : Fin k ≃ Fin k') (l : Labels n k) (l' : Labels n' k') :
    Prop where
  node : ∀ i, l'.node[f i] = l.node[i]
  ground : l'.ground = l.ground
  model : ∀ j, l'.model[g j] = l.model[j]

variable {l' : Labels n' k'} {l : Labels n k}

theorem SameLabels.slot {f : Fin n ≃ Fin n'} {g : Fin k ≃ Fin k'}
    (h : SameLabels f g l l') (s : Slot n) : l'.slot (s.map f) = l.slot s := by
  cases s with
  | ground => exact h.ground
  | node i => exact h.node i

theorem vector_eq_of_equiv {v w : Vector UInt64 k} (h : ∀ i, v[e i] = w[e i]) :
    v = w := by
  apply Vector.ext
  intro i hi
  obtain ⟨j, hj⟩ := e.surjective ⟨i, hi⟩
  have hi := h j
  simp only [hj, Fin.getElem_fin] at hi
  exact hi

theorem SameLabels.eq {f : Fin n ≃ Fin n'} {g : Fin k ≃ Fin k'} {l₁ l₂ : Labels n' k'}
    (h₁ : SameLabels f g l l₁) (h₂ : SameLabels f g l l₂) : l₁ = l₂ := by
  apply Labels.ext
  · exact vector_eq_of_equiv f fun i => (h₁.node i).trans (h₂.node i).symm
  · exact h₁.ground.trans h₂.ground.symm
  · exact vector_eq_of_equiv g fun j => (h₁.model j).trans (h₂.model j).symm

theorem SameLabels.symm {f : Fin n ≃ Fin n'} {g : Fin k ≃ Fin k'}
    (h : SameLabels f g l l') : SameLabels f.symm g.symm l' l where
  node i := by simpa using (h.node (f.symm i)).symm
  ground := h.ground.symm
  model j := by simpa using (h.model (g.symm j)).symm

theorem toList_perm {v : Vector UInt64 n} {w : Vector UInt64 k} (h : ∀ i, w[e i] = v[i]) :
    w.toList.Perm v.toList := by
  have htable {n : Nat} (v : Vector UInt64 n) : v.toList = (List.finRange n).map fun i => v[i] := by
    apply List.ext_getElem
    · simp
    · intro i h₁ h₂
      simp
  have hmap : (List.finRange n).map (fun i => v[i]) = ((List.finRange n).map e).map fun i => w[i] := by
    rw [List.map_map]
    exact List.map_congr_left fun i _ => (h i).symm
  rw [htable v, htable w, hmap]
  exact ((map_finRange_perm e).map _).symm

namespace IsIso

variable {c d : Graph} {f : Fin c.nodeCount ≃ Fin d.nodeCount} {g : Fin c.modelCount ≃ Fin d.modelCount}
  (h : IsIso c d f g)

include h

theorem length_pinNodes (j : Fin c.modelCount) : (d.pinNodes (g j)).length = (c.pinNodes j).length := by
  rw [h.pins, List.length_map]

theorem modelBase_eq (j : Fin c.modelCount) : modelBase d (g j) = modelBase c j := by
  rw [modelBase, modelBase, h.length_pinNodes, h.modelName, h.attributes, h.pins, List.foldl_map]

theorem nodeInc_perm (s : Slot c.nodeCount) : (nodeInc d (s.map f)).Perm ((nodeInc c s).map (Edge.map g)) := by
  have hmodel (j : Fin c.modelCount) :
      ((d.pinNodes (g j)).zipIdx.filterMap fun p => if p.1.2 = some (s.map f) then some (⟨g j, p.2, p.1.1⟩ : Edge _)
        else none) =
      ((c.pinNodes j).zipIdx.filterMap fun p => if p.1.2 = some s then some (⟨j, p.2, p.1.1⟩ : Edge _) else none).map
        (Edge.map g) := by
    rw [h.pins, List.zipIdx_map, List.filterMap_map, List.map_filterMap]
    refine List.filterMap_congr fun p _ => ?_
    have hiff : p.1.2.map (Slot.map f) = some (s.map f) ↔ p.1.2 = some s :=
      (Option.map_injective (Slot.map_injective f.injective)).eq_iff (b := some s)
    dsimp only [Function.comp, Prod.map]
    by_cases hp : p.1.2 = some s
    · rw [if_pos (hiff.mpr hp), if_pos hp]
      rfl
    · rw [if_neg (mt hiff.mp hp), if_neg hp]
      rfl
  rw [nodeInc, nodeInc, List.map_flatMap]
  refine ((map_finRange_perm g).symm.flatMap_right _).trans ?_
  rw [List.flatMap_map]
  simp only [hmodel]
  exact List.Perm.refl _

theorem nodeBase_eq (s : Slot c.nodeCount) : nodeBase d (s.map f) = nodeBase c s := by
  cases s with
  | ground => rfl
  | node i =>
    have hperm := h.nodeInc_perm (.node i)
    have hdeg := hperm.length_eq
    have hanalog := hperm.countP_eq fun e => !(d.models.get e.model).isDigital
    rw [List.length_map] at hdeg
    rw [List.countP_map] at hanalog
    have hcount : (nodeInc c (.node i)).countP ((fun e => !(d.models.get e.model).isDigital) ∘ Edge.map g) =
        (nodeInc c (.node i)).countP fun e => !(c.models.get e.model).isDigital := by
      refine List.countP_congr fun e _ => ?_
      rw [Function.comp, Edge.map, h.isDigital]
    rw [Slot.map] at hdeg hanalog ⊢
    rw [nodeBase, nodeBase, hdeg, hanalog, hcount, h.nodePins]

theorem sameLabels_base : SameLabels f g (baseLabels c) (baseLabels d) where
  node i := by
    simp only [baseLabels, Fin.getElem_fin, Vector.getElem_ofFn]
    exact h.nodeBase_eq (.node i)
  ground := rfl
  model j := by
    simp only [baseLabels, Fin.getElem_fin, Vector.getElem_ofFn]
    exact h.modelBase_eq j

variable {l' : Labels d.nodeCount d.modelCount} {l : Labels c.nodeCount c.modelCount}

theorem newModel_eq
    (hl : SameLabels f g l l') (j : Fin c.modelCount) : newModel d l' (g j) = newModel c l j := by
  rw [newModel, newModel, h.length_pinNodes, h.modelBase_eq, h.pins, List.zipIdx_map, List.foldl_map]
  refine List.foldl_ext _ _ _ fun x p _ => ?_
  dsimp only [Prod.map, id]
  cases p.1.2 with
  | none => rw [Option.map_none, Option.map_none, Option.map_none]
  | some s => rw [Option.map_some, Option.map_some, Option.map_some, hl.slot]

theorem newNode_eq {models : Vector UInt64 c.modelCount} {models' : Vector UInt64 d.modelCount}
    (hm : ∀ j, models'[g j] = models[j]) (s : Slot c.nodeCount) :
    newNode d models' (s.map f) = newNode c models s := by
  have hedges : sortLabels ((nodeInc d (s.map f)).map (edgeHash models')) =
      sortLabels ((nodeInc c s).map (edgeHash models)) := by
    apply sortLabels_eq_of_perm
    refine ((h.nodeInc_perm s).map _).trans ?_
    rw [List.map_map]
    refine List.Perm.of_eq (List.map_congr_left fun e _ => ?_)
    rw [Function.comp, edgeHash, edgeHash, Edge.map, hm]
  rw [newNode, newNode, hedges, h.nodeBase_eq]

theorem sameLabels_round
    (hl : SameLabels f g l l') : SameLabels f g (round c l) (round d l') := by
  have hmodel (j : Fin c.modelCount) :
      (Vector.ofFn (newModel d l'))[g j] = (Vector.ofFn (newModel c l))[j] := by
    simp only [Fin.getElem_fin, Vector.getElem_ofFn]
    exact h.newModel_eq hl j
  refine ⟨fun i => ?_, h.newNode_eq hmodel .ground, hmodel⟩
  simp only [round, Fin.getElem_fin, Vector.getElem_ofFn]
  exact h.newNode_eq hmodel (.node i)

theorem sameLabels_refine (rounds : Nat)
    (hl : SameLabels f g l l') : SameLabels f g (refine c rounds l) (refine d rounds l') := by
  induction rounds generalizing l l' with
  | zero => exact hl
  | succ rounds ih =>
    have hround := h.sameLabels_round hl
    have hstop : round d l' = l' ↔ round c l = l := by
      constructor
      · intro heq
        rw [heq] at hround
        exact hround.symm.eq hl.symm
      · intro heq
        rw [heq] at hround
        exact hround.eq hl
    by_cases hc : round c l = l
    · rw [refine, refine, if_pos hc, if_pos (hstop.mpr hc)]
      exact hround
    · rw [refine, refine, if_neg hc, if_neg (mt hstop.mp hc)]
      exact ih hround

end IsIso

theorem length_nodeUid (c : Graph) : (computeStableIds c).nodeUid.length = c.nodeCount := by
  simp [computeStableIds]

theorem length_modelUid (c : Graph) : (computeStableIds c).modelUid.length = c.modelCount := by
  simp [computeStableIds]

/-- Stable ids do not depend on the order in which nodes and models were created: every node and
every model gets an id, and the object that corresponds to it gets the same one. -/
theorem computeStableIds_iso {c d : Graph} {f : Fin c.nodeCount ≃ Fin d.nodeCount}
    {g : Fin c.modelCount ≃ Fin d.modelCount} (h : IsIso c d f g) :
    (computeStableIds c).nodeUid.length = c.nodeCount ∧
      (computeStableIds d).nodeUid.length = d.nodeCount ∧
      (computeStableIds c).modelUid.length = c.modelCount ∧
      (computeStableIds d).modelUid.length = d.modelCount ∧
      (∀ i, ∃ uid, (computeStableIds c).nodeUid[i.1]? = some uid ∧
        (computeStableIds d).nodeUid[(f i).1]? = some uid) ∧
      (∀ j, ∃ uid, (computeStableIds c).modelUid[j.1]? = some uid ∧
        (computeStableIds d).modelUid[(g j).1]? = some uid) ∧
      (computeStableIds d).groundUid = (computeStableIds c).groundUid ∧
      (computeStableIds d).structureHash = (computeStableIds c).structureHash := by
  have hl : SameLabels f g (finalLabels c) (finalLabels d) :=
    h.sameLabels_refine kRounds h.sameLabels_base
  have hnode := toList_perm f hl.node
  have hmodel := toList_perm g hl.model
  refine ⟨length_nodeUid c, length_nodeUid d, length_modelUid c, length_modelUid d, fun i => ?_,
    fun j => ?_, hl.ground, ?_⟩
  · refine ⟨(finalLabels c).node[i], ?_, ?_⟩
    · simp [computeStableIds]
    · rw [← hl.node i]
      simp [computeStableIds]
  · refine ⟨(finalLabels c).model[j], ?_, ?_⟩
    · simp [computeStableIds]
    · rw [← hl.model j]
      simp [computeStableIds]
  · simp only [computeStableIds, structureHash]
    rw [hnode.length_eq, hmodel.length_eq, hl.ground, sortLabels_eq_of_perm hnode,
      sortLabels_eq_of_perm hmodel]

def threePins (name : UInt8) (n : Nat) : GraphModel where
  modelName := [name]
  attributes := [0]
  isDigital := name = 1
  pins := [⟨[10], some (.node n)⟩, ⟨[11], some .ground⟩, ⟨[12], none⟩]

/-- Two nodes and two models in one order and in the other. -/
def inOrder : Graph := ⟨[2, 3], [threePins 1 0, threePins 2 1]⟩

def inReverse : Graph := ⟨[3, 2], [threePins 2 0, threePins 1 1]⟩

def swapTwo : Fin 2 ≃ Fin 2 := Equiv.swap 0 1

theorem isIso_inReverse : IsIso inOrder inReverse swapTwo swapTwo := by
  constructor <;> decide

/-- The first node and the first model of the one order are the last ones of the other. -/
theorem computeStableIds_iso_inReverse :
    (∃ uid, (computeStableIds inOrder).nodeUid[0]? = some uid ∧
      (computeStableIds inReverse).nodeUid[1]? = some uid) ∧
      (∃ uid, (computeStableIds inOrder).modelUid[0]? = some uid ∧
        (computeStableIds inReverse).modelUid[1]? = some uid) ∧
      (computeStableIds inReverse).structureHash = (computeStableIds inOrder).structureHash := by
  obtain ⟨-, -, -, -, hnode, hmodel, -, hhash⟩ := computeStableIds_iso isIso_inReverse
  exact ⟨hnode (0 : Fin 2), hmodel (0 : Fin 2), hhash⟩

end PhyEngine.FileFormat
