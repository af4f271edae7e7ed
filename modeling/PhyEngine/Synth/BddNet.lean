import PhyEngine.Netlist.NewGates
import PhyEngine.Synth.Bdd
import PhyEngine.Synth.TruthCones

/-!
# Gates from a decision diagram

`build_net`: the diagram becomes multiplexers, from its leaves up, with an explicit stack of
`fuel` rounds. A node is scheduled once; one that is needed while it waits on the stack is
missing, and `build_net` returns a null pointer (`none`). `bddSynthesis_iff` says when.
-/

namespace PhyEngine

open Equations Netlist PackedBits BitNumbers DecisionDiagrams List
open Prod (ext fst)

namespace BddNet

open TruthCones (Kind)
open Adders (findOrMakeConstNode)

/-- The netlist, `net`, `new_models`, `not_cache`, `neg_var`, `bin_cache`, `st` and the ids that
`scheduled` marks. -/
structure State where
  nl : Netlist
  net : List (Nat × NodeId)
  newModels : List ModelPos
  notCache : List (NodeId × NodeId)
  negVar : List (Option NodeId)
  binCache : List ((Kind × NodeId × NodeId) × NodeId)
  stack : List (Nat × Bool)
  scheduled : List Nat

/-- A gate that is added with its output node, unless a connection fails. -/
def makeGate (k : Kind) (ins : List NodeId) (st : State) : Option NodeId × State :=
  let made := st.nl.addGate k.modelKind ins
  (if made.1.2 then some made.2.2 else none,
    { st with nl := made.1.1, newModels := st.newModels ++ [made.2.1] })

section Builders

variable (addr : NodeId → Nat) (const0 const1 : NodeId) (leavesOrd : List NodeId)

def makeNot (input : NodeId) (st : State) : Option NodeId × State := makeGate .notGate [input] st

variable (a b : NodeId)

variable (st : State)

def makeAnd : Option NodeId × State :=
  if a = const0 ∨ b = const0 then (some const0, st)
  else if a = const1 then (some b, st)
  else if b = const1 then (some a, st)
  else makeGate .andGate [a, b] st

def makeOr : Option NodeId × State :=
  if a = const1 ∨ b = const1 then (some const1, st)
  else if a = const0 then (some b, st)
  else if b = const0 then (some a, st)
  else makeGate .orGate [a, b] st

/-- The gates of `make_xor_cached` and `make_xnor_cached`, which are deleted when a connection
fails. -/
def makeOrDelete (k : Kind) (a b : NodeId) (st : State) : Option NodeId × State :=
  let made := st.nl.addGate k.modelKind [a, b]
  if made.1.2 then (some made.2.2, { st with nl := made.1.1, newModels := st.newModels ++ [made.2.1] })
  else (none, { st with nl := (made.1.1.deleteModel made.2.1).1 })

def getNotNode (input : NodeId) (st : State) : Option NodeId × State :=
  if input = const0 then (some const1, st)
  else if input = const1 then (some const0, st)
  else
    match st.notCache.lookup input with
    | some out => (some out, st)
    | none =>
      match makeNot input st with
      | (none, st) => (none, st)
      | (some out, st) => (some out, { st with notCache := (input, out) :: st.notCache })

def getNotVar (v : Nat) (st : State) : Option NodeId × State :=
  match st.negVar[v]?, leavesOrd[v]? with
  | some (some n), _ => (some n, st)
  | some none, some leaf =>
    let made := getNotNode const0 const1 leaf st
    (made.1, { made.2 with negVar := made.2.negVar.set v made.1 })
  | _, _ => (none, st)

/-- A gate of `bin_cache` for two nodes in the order of their addresses. -/
def cached (k : Kind) (make : NodeId → NodeId → State → Option NodeId × State) (a b : NodeId) (st : State) :
    Option NodeId × State :=
  let ab := if addr b < addr a then (b, a) else (a, b)
  match st.binCache.lookup (k, ab) with
  | some out => (some out, st)
  | none =>
    match make ab.1 ab.2 st with
    | (none, st) => (none, st)
    | (some out, st) => (some out, { st with binCache := ((k, ab), out) :: st.binCache })

def makeAndCached : Option NodeId × State :=
  if a = const0 ∨ b = const0 then (some const0, st)
  else if a = const1 then (some b, st)
  else if b = const1 then (some a, st)
  else cached addr .andGate (makeAnd const0 const1) a b st

def makeOrCached : Option NodeId × State :=
  if a = const1 ∨ b = const1 then (some const1, st)
  else if a = const0 then (some b, st)
  else if b = const0 then (some a, st)
  else cached addr .orGate (makeOr const0 const1) a b st

def makeXorCached : Option NodeId × State :=
  if a = const0 then (some b, st)
  else if b = const0 then (some a, st)
  else if a = const1 then getNotNode const0 const1 b st
  else if b = const1 then getNotNode const0 const1 a st
  else if a = b then (some const0, st)
  else cached addr .xorGate (makeOrDelete .xorGate) a b st

def makeXnorCached : Option NodeId × State :=
  if a = const0 then getNotNode const0 const1 b st
  else if b = const0 then getNotNode const0 const1 a st
  else if a = const1 then (some b, st)
  else if b = const1 then (some a, st)
  else if a = b then (some const1, st)
  else cached addr .xnorGate (makeOrDelete .xnorGate) a b st

def withNotVar (v : Nat) (make : NodeId → State → Option NodeId × State) (st : State) : Option NodeId × State :=
  match getNotVar const0 const1 leavesOrd v st with
  | (none, st) => (none, st)
  | (some nx, st) => make nx st

def makeOut (v : Nat) (x lo hi : NodeId) (st : State) : Option NodeId × State :=
  if lo = hi then (some lo, st)
  else if x = const0 then (some lo, st)
  else if x = const1 then (some hi, st)
  else if lo = const0 ∧ hi = const1 then (some x, st)
  else if lo = const1 ∧ hi = const0 then getNotVar const0 const1 leavesOrd v st
  else if lo = const0 then makeAndCached addr const0 const1 x hi st
  else if hi = const0 then
    withNotVar const0 const1 leavesOrd v (fun nx => makeAndCached addr const0 const1 nx lo) st
  else if lo = const1 then
    withNotVar const0 const1 leavesOrd v (fun nx => makeOrCached addr const0 const1 nx hi) st
  else if hi = const1 then makeOrCached addr const0 const1 x lo st
  else
    withNotVar const0 const1 leavesOrd v (fun nx st =>
      if st.notCache.lookup lo = some hi then makeXorCached addr const0 const1 x lo st
      else if st.notCache.lookup hi = some lo then makeXnorCached addr const0 const1 x hi st
      else
        match makeAndCached addr const0 const1 x hi st with
        | (none, st) => (none, (makeAndCached addr const0 const1 nx lo st).2)
        | (some t1, st) =>
          match makeAndCached addr const0 const1 nx lo st with
          | (none, st) => (none, st)
          | (some t0, st) => makeOrCached addr const0 const1 t0 t1 st) st

end Builders

section Loop

variable (addr : NodeId → Nat) (const0 const1 : NodeId) (leavesOrd : List NodeId) (bdd : List BddNode)

def getCached (st : State) (id : Nat) : Option NodeId :=
  if id = 0 then some const0
  else if id = 1 then some const1
  else st.net.lookup id

def schedule (id : Nat) (st : State) : Option State :=
  if id ≤ 1 then some st
  else if bdd.length ≤ id then none
  else if id ∈ st.net.map fst then some st
  else if id ∈ st.scheduled then some st
  else some { st with scheduled := id :: st.scheduled, stack := (id, false) :: st.stack }

def visitTop (id : Nat) (expanded : Bool) (rest : List (Nat × Bool)) (st : State) : Option State :=
  if id ≤ 1 then some { st with stack := rest }
  else if id ∈ st.net.map fst then some { st with stack := rest }
  else
    match bdd[id]? with
    | none => none
    | some bn =>
      if expanded then
        match leavesOrd[bn.var]?, getCached const0 const1 st bn.lo, getCached const0 const1 st bn.hi with
        | some x, some lo, some hi =>
          match makeOut addr const0 const1 leavesOrd bn.var x lo hi st with
          | (none, _) => none
          | (some out, st) => some { st with net := (id, out) :: st.net, stack := rest }
        | _, _, _ => none
      else (schedule bdd bn.lo { st with stack := (id, true) :: rest }).bind (schedule bdd bn.hi)

def buildLoop : Nat → State → Option (Option State)
  | 0, _ => none
  | fuel + 1, st =>
    match st.stack with
    | [] => some (some st)
    | (id, expanded) :: rest =>
      match visitTop addr const0 const1 leavesOrd bdd id expanded rest st with
      | none => some none
      | some st => buildLoop fuel st

def buildNet (fuel root : Nat) (st : State) : Option (Option (NodeId × State)) :=
  if root = 0 then some (some (const0, st))
  else if root = 1 then some (some (const1, st))
  else if bdd.length ≤ root then some none
  else
    match schedule bdd root { st with stack := [], scheduled := [] } with
    | none => some none
    | some st => (buildLoop addr const0 const1 leavesOrd bdd fuel st).map fun res =>
        res.bind fun st => (getCached const0 const1 st root).map fun out => (out, st)

end Loop

def leavesOrd (leaves : List NodeId) (perm : List Nat) : List NodeId := perm.filterMap fun old => leaves[old]?

/-- The gates for a diagram, with the constants and the empty caches in front. -/
def synthesize (addr : NodeId → Nat) (fuel : Nat) (nl : Netlist) (leaves : List NodeId) (perm : List Nat)
    (bdd : List BddNode) (root : Nat) : Option (Option (NodeId × State)) :=
  let c0 := findOrMakeConstNode nl .L
  let c1 := findOrMakeConstNode c0.1 .H
  buildNet addr c0.2 c1.2 (leavesOrd leaves perm) bdd fuel root
    ⟨c1.1, [(0, c0.2), (1, c1.2)], [], [], List.replicate leaves.length none, [], [], []⟩

/-! ## What the gates mean -/

/-- The value of the leaf that stands for a variable of the diagram. -/
def leafVal (leavesOrd : List NodeId) (v : NodeId → Bool) (i : Nat) : Bool := ((leavesOrd[i]?).map v).getD false

/-- The caches hold nodes with the values of their keys. -/
structure Caches (const0 const1 : NodeId) (leavesOrd : List NodeId) (st : State) : Prop where
  sound : Sound st.nl
  zero : Means boolFns st.nl const0 fun _ => false
  one : Means boolFns st.nl const1 fun _ => true
  leaf : ∀ (i : Nat) (x : NodeId), leavesOrd[i]? = some x → (st.nl.node? x).isSome
  notCache : ∀ p ∈ st.notCache, Means boolFns st.nl p.2 fun v => !v p.1
  negVar_length : st.negVar.length = leavesOrd.length
  negVar : ∀ (i : Nat) (n x : NodeId), st.negVar[i]? = some (some n) → leavesOrd[i]? = some x →
    Means boolFns st.nl n fun v => !v x
  binCache : ∀ p ∈ st.binCache, Means boolFns st.nl p.2 fun v => p.1.1.fn (v p.1.2.1) (v p.1.2.2)

/-- A call returns a node with the value `f` and keeps what is there. -/
structure Makes (const0 const1 : NodeId) (leavesOrd : List NodeId) (st : State) (f : (NodeId → Bool) → Bool)
    (res : Option NodeId × State) : Prop where
  out : ∃ n, res.1 = some n ∧ Means boolFns res.2.nl n f
  caches : Caches const0 const1 leavesOrd res.2
  grown : Grown boolFns st.nl res.2.nl
  net : res.2.net = st.net
  stack : res.2.stack = st.stack
  scheduled : res.2.scheduled = st.scheduled

section Meaning

variable (addr : NodeId → Nat) {const0 const1 : NodeId} {leavesOrd : List NodeId} {st : State} {a b n x : NodeId}
  {f g : (NodeId → Bool) → Bool} {res : Option NodeId × State}

theorem Caches.grown {nl' : Netlist} {models : List ModelPos} (h : Caches const0 const1 leavesOrd st)
    (hg : Grown boolFns st.nl nl') : Caches const0 const1 leavesOrd { st with nl := nl', newModels := models } where
  sound := hg.sound
  zero := h.zero.grown hg
  one := h.one.grown hg
  leaf i x hx := hg.isSome x (h.leaf i x hx)
  notCache p hp := (h.notCache p hp).grown hg
  negVar_length := h.negVar_length
  negVar i n x hn hx := (h.negVar i n x hn hx).grown hg
  binCache p hp := (h.binCache p hp).grown hg

theorem Makes.there (h : Caches const0 const1 leavesOrd st) (hn : Means boolFns st.nl n f) :
    Makes const0 const1 leavesOrd st f (some n, st) :=
  ⟨⟨n, rfl, hn⟩, h, .refl h.sound, rfl, rfl, rfl⟩

theorem Makes.congr (h : Makes const0 const1 leavesOrd st f res)
    (hfg : ∀ v, Solves (system boolFns res.2.nl) v → f v = g v) : Makes const0 const1 leavesOrd st g res := by
  obtain ⟨n, hn, hmeans⟩ := h.out
  exact ⟨⟨n, hn, hmeans.congr hfg⟩, h.caches, h.grown, h.net, h.stack, h.scheduled⟩

theorem Makes.after {st' : State} (h : Makes const0 const1 leavesOrd st' g res) (hgrown : Grown boolFns st.nl st'.nl)
    (hnet : st'.net = st.net) (hstack : st'.stack = st.stack) (hscheduled : st'.scheduled = st.scheduled) :
    Makes const0 const1 leavesOrd st g res :=
  ⟨h.out, h.caches, hgrown.trans h.grown, h.net.trans hnet, h.stack.trans hstack, h.scheduled.trans hscheduled⟩

theorem means_self (hn : (st.nl.node? n).isSome) : Means boolFns st.nl n fun v => v n := ⟨hn, fun _ _ => rfl⟩

variable {k : Kind}

theorem addGate_binary (hs : Sound st.nl) (hk : k ≠ .notGate) (ha : (st.nl.node? a).isSome)
    (hb : (st.nl.node? b).isSome) : ∃ nl' pos out, st.nl.addGate k.modelKind [a, b] = ((nl', true), pos, out) ∧
      Grown boolFns st.nl nl' ∧ Means boolFns nl' out fun v => k.fn (v a) (v b) := by
  obtain ⟨fn, hfn, heq⟩ := TruthCones.exists_boolFns k
  rw [if_neg hk] at hfn
  simp only [if_neg hk] at heq
  obtain ⟨hok, hnew⟩ := addGate_spec hs [a, b] (by simp [ha, hb]) hfn
  exact ⟨_, _, _, ext (ext rfl hok) rfl, hnew.grown, hnew.isSome, fun v hv => (hnew.value v hv).trans (heq _ _)⟩

section

variable (h : Caches const0 const1 leavesOrd st)

include h

theorem makeGate_makes (hk : k ≠ .notGate) (ha : (st.nl.node? a).isSome) (hb : (st.nl.node? b).isSome) :
    Makes const0 const1 leavesOrd st (fun v => k.fn (v a) (v b)) (makeGate k [a, b] st) := by
  obtain ⟨nl', pos, out, heq, hgrown, hmeans⟩ := addGate_binary h.sound hk ha hb
  rw [makeGate, heq]
  exact ⟨⟨out, rfl, hmeans⟩, h.grown hgrown, hgrown, rfl, rfl, rfl⟩

theorem makeOrDelete_makes (hk : k ≠ .notGate) (ha : (st.nl.node? a).isSome) (hb : (st.nl.node? b).isSome) :
    Makes const0 const1 leavesOrd st (fun v => k.fn (v a) (v b)) (makeOrDelete k a b st) := by
  obtain ⟨nl', pos, out, heq, hgrown, hmeans⟩ := addGate_binary h.sound hk ha hb
  rw [makeOrDelete, heq]
  exact ⟨⟨out, rfl, hmeans⟩, h.grown hgrown, hgrown, rfl, rfl, rfl⟩

section

variable (ha : (st.nl.node? a).isSome)
include ha

theorem makeNot_makes :
    Makes const0 const1 leavesOrd st (fun v => !v a) (makeNot a st) := by
  obtain ⟨fn, hfn, heq⟩ := TruthCones.exists_boolFns .notGate
  obtain ⟨hok, hnew⟩ := addGate_spec h.sound [a] (by simp [ha]) hfn
  have hmade : st.nl.addGate Kind.notGate.modelKind [a] = (((st.nl.addGate Kind.notGate.modelKind [a]).1.1, true),
      (st.nl.addGate Kind.notGate.modelKind [a]).2) := ext (ext rfl hok) rfl
  rw [makeNot, makeGate, hmade]
  exact ⟨⟨_, rfl, hnew.isSome, fun v hv => (hnew.value v hv).trans (heq (v a) false)⟩, h.grown hnew.grown,
    hnew.grown, rfl, rfl, rfl⟩

theorem getNotNode_makes :
    Makes const0 const1 leavesOrd st (fun v => !v a) (getNotNode const0 const1 a st) := by
  unfold getNotNode
  split
  · rename_i heq
    refine .there h (h.one.congr fun v hv => ?_)
    rw [heq, h.zero.value v hv]
    rfl
  · split
    · rename_i heq
      refine .there h (h.zero.congr fun v hv => ?_)
      rw [heq, h.one.value v hv]
      rfl
    · split
      · rename_i out hlookup
        rw [lookup_eq_some_iff] at hlookup
        obtain ⟨l₁, l₂, heq, -⟩ := hlookup
        exact .there h (h.notCache (a, out) (by rw [heq]; simp))
      · have hmade := makeNot_makes h ha
        obtain ⟨out, hout, hmeans⟩ := hmade.out
        have hres : makeNot a st = (some out, (makeNot a st).2) := ext hout rfl
        rw [hres]
        have hcaches := hmade.caches
        refine ⟨⟨out, rfl, hmeans⟩, { hcaches with notCache := fun p hp => ?_ }, hmade.grown, hmade.net, hmade.stack,
          hmade.scheduled⟩
        rcases mem_cons.mp hp with rfl | hp
        · exact hmeans
        · exact hcaches.notCache p hp

omit ha in
theorem getNotVar_makes {v : Nat} (hx : leavesOrd[v]? = some x) :
    Makes const0 const1 leavesOrd st (fun val => !val x) (getNotVar const0 const1 leavesOrd v st) := by
  have hlt := (List.getElem?_eq_some_iff.mp hx).1
  have hlt' : v < st.negVar.length := by rw [h.negVar_length]; exact hlt
  have hget : st.negVar[v]? = some st.negVar[v] := getElem?_eq_getElem _
  unfold getNotVar
  cases hneg : st.negVar[v] with
  | some n =>
    rw [hneg] at hget
    rw [hget, hx]
    exact .there h (h.negVar v n x hget hx)
  | none =>
    rw [hneg] at hget
    rw [hget, hx]
    dsimp only
    have hmade := getNotNode_makes h (h.leaf v x hx)
    obtain ⟨out, hout, hmeans⟩ := hmade.out
    have hcaches := hmade.caches
    refine ⟨⟨out, hout, hmeans⟩, { hcaches with
      negVar_length := by rw [length_set]; exact hcaches.negVar_length
      negVar := fun i n y hn hy => ?_ }, hmade.grown, hmade.net, hmade.stack, hmade.scheduled⟩
    dsimp only at hn
    rw [getElem?_set] at hn
    split at hn
    · rename_i heq
      subst heq
      cases hx.symm.trans hy
      split at hn
      · rw [hout] at hn
        cases Option.some.inj hn
        exact hmeans
      · cases hn
    · exact hcaches.negVar i n y hn hy

omit ha in
theorem cached_makes (hcomm : ∀ x y, k.fn x y = k.fn y x) {make : NodeId → NodeId → State → Option NodeId × State}
    (ha : (st.nl.node? a).isSome) (hb : (st.nl.node? b).isSome)
    (hmake : ∀ a b, (st.nl.node? a).isSome → (st.nl.node? b).isSome →
      Makes const0 const1 leavesOrd st (fun v => k.fn (v a) (v b)) (make a b st))
    :
    Makes const0 const1 leavesOrd st (fun v => k.fn (v a) (v b)) (cached addr k make a b st) := by
  -- The order of the inputs does not matter.
  have hordered : ∀ a b, (st.nl.node? a).isSome → (st.nl.node? b).isSome →
      Makes const0 const1 leavesOrd st (fun v => k.fn (v a) (v b))
        (match st.binCache.lookup (k, a, b) with
        | some out => (some out, st)
        | none =>
          match make a b st with
          | (none, st) => (none, st)
          | (some out, st) => (some out, { st with binCache := ((k, a, b), out) :: st.binCache })) := by
    intro a b ha hb
    split
    · rename_i out hlookup
      rw [lookup_eq_some_iff] at hlookup
      obtain ⟨l₁, l₂, heq, -⟩ := hlookup
      exact .there h (h.binCache ((k, a, b), out) (by rw [heq]; simp))
    · have hmade := hmake a b ha hb
      obtain ⟨out, hout, hmeans⟩ := hmade.out
      have hres : make a b st = (some out, (make a b st).2) := ext hout rfl
      rw [hres]
      have hcaches := hmade.caches
      refine ⟨⟨out, rfl, hmeans⟩, { hcaches with binCache := fun p hp => ?_ }, hmade.grown, hmade.net, hmade.stack,
        hmade.scheduled⟩
      rcases mem_cons.mp hp with rfl | hp
      · exact hmeans
      · exact hcaches.binCache p hp
  unfold cached
  by_cases hswap : addr b < addr a
  · rw [if_pos hswap]
    exact (hordered b a hb ha).congr fun v _ => hcomm _ _
  · rw [if_neg hswap]
    exact hordered a b ha hb

section

variable (hb : (st.nl.node? b).isSome)
include hb

theorem and_makes
    (hres : Makes const0 const1 leavesOrd st (fun v => v a && v b) res) : Makes const0 const1 leavesOrd st
      (fun v => v a && v b) (if a = const0 ∨ b = const0 then (some const0, st)
        else if a = const1 then (some b, st) else if b = const1 then (some a, st) else res) := by
  split
  · rename_i hzero
    refine .there h (h.zero.congr fun v hv => ?_)
    rcases hzero with rfl | rfl
    · rw [h.zero.value v hv, Bool.false_and]
    · rw [h.zero.value v hv, Bool.and_false]
  · split
    · rename_i heq
      refine .there h ((means_self hb).congr fun v hv => ?_)
      rw [heq, h.one.value v hv, Bool.true_and]
    · split
      · rename_i heq
        refine .there h ((means_self ha).congr fun v hv => ?_)
        rw [heq, h.one.value v hv, Bool.and_true]
      · exact hres

theorem or_makes
    (hres : Makes const0 const1 leavesOrd st (fun v => v a || v b) res) : Makes const0 const1 leavesOrd st
      (fun v => v a || v b) (if a = const1 ∨ b = const1 then (some const1, st)
        else if a = const0 then (some b, st) else if b = const0 then (some a, st) else res) := by
  split
  · rename_i hone
    refine .there h (h.one.congr fun v hv => ?_)
    rcases hone with rfl | rfl
    · rw [h.one.value v hv, Bool.true_or]
    · rw [h.one.value v hv, Bool.or_true]
  · split
    · rename_i heq
      refine .there h ((means_self hb).congr fun v hv => ?_)
      rw [heq, h.zero.value v hv, Bool.false_or]
    · split
      · rename_i heq
        refine .there h ((means_self ha).congr fun v hv => ?_)
        rw [heq, h.zero.value v hv, Bool.or_false]
      · exact hres

theorem makeAndCached_makes :
    Makes const0 const1 leavesOrd st (fun v => v a && v b)
      (makeAndCached addr const0 const1 a b st) :=
  and_makes h ha hb (cached_makes addr h (k := .andGate) Bool.and_comm ha hb fun _ _ ha hb =>
    and_makes h ha hb (makeGate_makes h (k := .andGate) (by simp) ha hb))

theorem makeOrCached_makes :
    Makes const0 const1 leavesOrd st (fun v => v a || v b)
      (makeOrCached addr const0 const1 a b st) :=
  or_makes h ha hb (cached_makes addr h (k := .orGate) Bool.or_comm ha hb fun _ _ ha hb =>
    or_makes h ha hb (makeGate_makes h (k := .orGate) (by simp) ha hb))

theorem makeXorCached_makes :
    Makes const0 const1 leavesOrd st (fun v => v a ^^ v b)
      (makeXorCached addr const0 const1 a b st) := by
  unfold makeXorCached
  split
  · rename_i heq
    refine .there h ((means_self hb).congr fun v hv => ?_)
    rw [heq, h.zero.value v hv, Bool.false_xor]
  split
  · rename_i heq
    refine .there h ((means_self ha).congr fun v hv => ?_)
    rw [heq, h.zero.value v hv, Bool.xor_false]
  split
  · rename_i heq
    refine (getNotNode_makes h hb).congr fun v hv => ?_
    rw [heq, ((getNotNode_makes h hb).caches.one).value v hv, Bool.true_xor]
  split
  · rename_i heq
    refine (getNotNode_makes h ha).congr fun v hv => ?_
    rw [heq, ((getNotNode_makes h ha).caches.one).value v hv, Bool.xor_true]
  split
  · rename_i heq
    refine .there h (h.zero.congr fun v _ => ?_)
    rw [heq, Bool.xor_self]
  · exact cached_makes addr h (k := .xorGate) Bool.xor_comm ha hb fun _ _ ha hb => makeOrDelete_makes h (by simp) ha hb

theorem makeXnorCached_makes :
    Makes const0 const1 leavesOrd st (fun v => !(v a ^^ v b))
      (makeXnorCached addr const0 const1 a b st) := by
  unfold makeXnorCached
  split
  · rename_i heq
    refine (getNotNode_makes h hb).congr fun v hv => ?_
    rw [heq, ((getNotNode_makes h hb).caches.zero).value v hv, Bool.false_xor]
  split
  · rename_i heq
    refine (getNotNode_makes h ha).congr fun v hv => ?_
    rw [heq, ((getNotNode_makes h ha).caches.zero).value v hv, Bool.xor_false]
  split
  · rename_i heq
    refine .there h ((means_self hb).congr fun v hv => ?_)
    rw [heq, h.one.value v hv, Bool.true_xor, Bool.not_not]
  split
  · rename_i heq
    refine .there h ((means_self ha).congr fun v hv => ?_)
    rw [heq, h.one.value v hv, Bool.xor_true, Bool.not_not]
  split
  · rename_i heq
    refine .there h (h.one.congr fun v _ => ?_)
    rw [heq, Bool.xor_self]
    rfl
  · exact cached_makes addr h (k := .xnorGate) (fun x y => congrArg not (Bool.xor_comm x y)) ha hb fun _ _ ha hb =>
      makeOrDelete_makes h (by simp) ha hb

end

end

theorem withNotVar_makes {v : Nat} (hx : leavesOrd[v]? = some x) {make : NodeId → State → Option NodeId × State}
    (hmake : ∀ nx st', Caches const0 const1 leavesOrd st' → Grown boolFns st.nl st'.nl →
      Means boolFns st'.nl nx (fun val => !val x) → Makes const0 const1 leavesOrd st' f (make nx st'))
    :
    Makes const0 const1 leavesOrd st f (withNotVar const0 const1 leavesOrd v make st) := by
  have hmade := getNotVar_makes (v := v) h hx
  obtain ⟨nx, hout, hmeans⟩ := hmade.out
  have hres : getNotVar const0 const1 leavesOrd v st = (some nx, (getNotVar const0 const1 leavesOrd v st).2) :=
    ext hout rfl
  rw [withNotVar, hres]
  exact (hmake nx _ hmade.caches hmade.grown hmeans).after hmade.grown hmade.net hmade.stack hmade.scheduled

theorem makeOut_makes {var : Nat} (hx : leavesOrd[var]? = some x) {lo hi : NodeId} (hlo : (st.nl.node? lo).isSome)
    (hhi : (st.nl.node? hi).isSome) :
    Makes const0 const1 leavesOrd st (fun v => if v x then v hi else v lo)
      (makeOut addr const0 const1 leavesOrd var x lo hi st) := by
  have hxs := h.leaf var x hx
  unfold makeOut
  by_cases heq : lo = hi
  · rw [if_pos heq]
    refine .there h ((means_self hlo).congr fun v _ => ?_)
    rw [heq]
    split <;> rfl
  rw [if_neg heq]
  by_cases heq : x = const0
  · rw [if_pos heq]
    refine .there h ((means_self hlo).congr fun v hv => ?_)
    rw [heq, h.zero.value v hv]
    rfl
  rw [if_neg heq]
  by_cases heq : x = const1
  · rw [if_pos heq]
    refine .there h ((means_self hhi).congr fun v hv => ?_)
    rw [heq, h.one.value v hv]
    rfl
  rw [if_neg heq]
  by_cases heq : lo = const0 ∧ hi = const1
  · rw [if_pos heq]
    refine .there h ((means_self hxs).congr fun v hv => ?_)
    rw [heq.1, heq.2, h.zero.value v hv, h.one.value v hv]
    cases v x <;> rfl
  rw [if_neg heq]
  by_cases heq : lo = const1 ∧ hi = const0
  · rw [if_pos heq]
    have hmade := getNotVar_makes (v := var) h hx
    refine hmade.congr fun v hv => ?_
    rw [heq.1, heq.2, hmade.caches.zero.value v hv, hmade.caches.one.value v hv]
    cases v x <;> rfl
  rw [if_neg heq]
  by_cases heq : lo = const0
  · rw [if_pos heq]
    have hmade := makeAndCached_makes addr h hxs hhi
    refine hmade.congr fun v hv => ?_
    rw [heq, hmade.caches.zero.value v hv]
    cases v x <;> rfl
  rw [if_neg heq]
  by_cases heq : hi = const0
  · rw [if_pos heq]
    refine withNotVar_makes h hx fun nx st' h' hg hnx => ?_
    have hmade := makeAndCached_makes addr h' hnx.isSome (hg.isSome _ hlo)
    refine hmade.congr fun v hv => ?_
    rw [heq, hmade.caches.zero.value v hv, (hnx.grown hmade.grown).value v hv]
    cases v x <;> simp
  rw [if_neg heq]
  by_cases heq : lo = const1
  · rw [if_pos heq]
    refine withNotVar_makes h hx fun nx st' h' hg hnx => ?_
    have hmade := makeOrCached_makes addr h' hnx.isSome (hg.isSome _ hhi)
    refine hmade.congr fun v hv => ?_
    rw [heq, hmade.caches.one.value v hv, (hnx.grown hmade.grown).value v hv]
    cases v x <;> simp
  rw [if_neg heq]
  by_cases heq : hi = const1
  · rw [if_pos heq]
    have hmade := makeOrCached_makes addr h hxs hlo
    refine hmade.congr fun v hv => ?_
    rw [heq, hmade.caches.one.value v hv]
    cases v x <;> simp
  · rw [if_neg heq]
    refine withNotVar_makes h hx fun nx st' h' hg hnx => ?_
    have hnot : ∀ {p q : NodeId}, st'.notCache.lookup p = some q → Means boolFns st'.nl q fun v => !v p := by
      intro p q hlookup
      rw [lookup_eq_some_iff] at hlookup
      obtain ⟨l₁, l₂, heq, -⟩ := hlookup
      exact h'.notCache (p, q) (by rw [heq]; simp)
    by_cases hlookup : st'.notCache.lookup lo = some hi
    · rw [if_pos hlookup]
      have hmade := makeXorCached_makes addr h' (hg.isSome _ hxs) (hg.isSome _ hlo)
      refine hmade.congr fun v hv => ?_
      rw [((hnot hlookup).grown hmade.grown).value v hv]
      cases v x <;> simp
    rw [if_neg hlookup]
    by_cases hlookup : st'.notCache.lookup hi = some lo
    · rw [if_pos hlookup]
      have hmade := makeXnorCached_makes addr h' (hg.isSome _ hxs) (hg.isSome _ hhi)
      refine hmade.congr fun v hv => ?_
      rw [((hnot hlookup).grown hmade.grown).value v hv]
      cases v x <;> simp
    · rw [if_neg hlookup]
      have hmade₁ := makeAndCached_makes addr h' (hg.isSome _ hxs) (hg.isSome _ hhi)
      obtain ⟨t1, hout₁, hmeans₁⟩ := hmade₁.out
      rw [show makeAndCached addr const0 const1 x hi st' = (some t1, (makeAndCached addr const0 const1 x hi st').2) from
        ext hout₁ rfl]
      dsimp only
      have hg₁ := hmade₁.grown
      have hmade₀ := makeAndCached_makes addr hmade₁.caches (hg₁.isSome _ hnx.isSome)
        (hg₁.isSome _ (hg.isSome _ hlo))
      obtain ⟨t0, hout₀, hmeans₀⟩ := hmade₀.out
      have hg₀ := hmade₀.grown
      rw [show makeAndCached addr const0 const1 nx lo (makeAndCached addr const0 const1 x hi st').2 = (some t0,
        (makeAndCached addr const0 const1 nx lo (makeAndCached addr const0 const1 x hi st').2).2) from ext hout₀ rfl]
      dsimp only
      have hmade := makeOrCached_makes addr hmade₀.caches hmeans₀.isSome (hg₀.isSome _ hmeans₁.isSome)
      refine ((hmade.congr fun v hv => ?_).after hg₀ hmade₀.net hmade₀.stack hmade₀.scheduled).after hg₁ hmade₁.net
        hmade₁.stack hmade₁.scheduled
      have hgrown := hg₀.trans hmade.grown
      rw [(hmeans₀.grown hmade.grown).value v hv, (hmeans₁.grown hgrown).value v hv,
        (hnx.grown (hg₁.trans hgrown)).value v hv]
      cases v x <;> simp

end

end Meaning

/-! ## The loop -/

/-- The stack, the marks and the nodes of the diagram that are built. -/
def walk (st : State) : PostOrder.Walk Nat :=
  ⟨st.stack, st.scheduled, (st.net.map fst).filter fun id => decide (2 ≤ id)⟩

/-- The nodes of `net` have the functions of their entries, and the stack holds nodes. -/
structure Fits (const0 const1 : NodeId) (leavesOrd : List NodeId) (bdd : List BddNode) (st : State) : Prop where
  caches : Caches const0 const1 leavesOrd st
  net : ∀ p ∈ st.net, Means boolFns st.nl p.2 fun v => eval bdd p.1 (leafVal leavesOrd v)
  stack : ∀ p ∈ st.stack, 2 ≤ p.1 ∧ p.1 < bdd.length

section Rounds

variable {addr : NodeId → Nat} {const0 const1 : NodeId} {leavesOrd : List NodeId} {bdd : List BddNode} {st st' : State}
  {id c : Nat} {n : BddNode} {expanded : Bool} {rest : List (Nat × Bool)}

theorem mem_walk_built (hid : 2 ≤ id) : id ∈ (walk st).built ↔ id ∈ st.net.map fst := by
  change id ∈ (st.net.map fst).filter (fun id => decide (2 ≤ id)) ↔ _
  rw [mem_filter, decide_eq_true hid, and_iff_left rfl]

theorem ready_iff (hlt : c < bdd.length) :
    (graph bdd).Ready (walk st) c ↔ c ≤ 1 ∨ c ∈ st.net.map fst := by
  rw [PostOrder.Graph.Ready, show (graph bdd).leaf c = decide (c ≤ 1 ∨ bdd.length ≤ c) from rfl, decide_eq_true_eq]
  by_cases hc : c ≤ 1
  · simp [hc]
  · rw [mem_walk_built (by omega)]
    simp only [hc, false_or]
    constructor
    · rintro (h | h)
      · omega
      · exact h
    · exact .inr

theorem getCached_isSome (const0 const1 : NodeId) (st : State) (hlt : c < bdd.length) :
    (getCached const0 const1 st c).isSome ↔ (graph bdd).Ready (walk st) c := by
  rw [ready_iff hlt]
  unfold getCached
  by_cases h0 : c = 0
  · simp [h0]
  · rw [if_neg h0]
    by_cases h1 : c = 1
    · simp [h1]
    · rw [if_neg h1, show (c ≤ 1 ∨ c ∈ st.net.map fst) ↔ c ∈ st.net.map fst by
        constructor
        · rintro (h | h)
          · omega
          · exact h
        · exact .inr]
      constructor
      · intro hsome
        obtain ⟨out, hout⟩ := Option.isSome_iff_exists.mp hsome
        rw [lookup_eq_some_iff] at hout
        obtain ⟨l₁, l₂, heq, -⟩ := hout
        rw [heq]
        simp
      · intro hmem
        rw [Option.isSome_iff_ne_none, ne_eq, lookup_eq_none_iff]
        intro hnone
        obtain ⟨p, hp, rfl⟩ := mem_map.mp hmem
        simpa using hnone p hp

theorem Fits.getCached (h : Fits const0 const1 leavesOrd bdd st) {out : NodeId}
    (hout : getCached const0 const1 st c = some out) :
    Means boolFns st.nl out fun v => eval bdd c (leafVal leavesOrd v) := by
  unfold BddNet.getCached at hout
  split at hout
  · rename_i heq
    cases hout
    subst heq
    exact h.caches.zero
  · split at hout
    · rename_i heq
      cases hout
      subst heq
      exact h.caches.one
    · rw [lookup_eq_some_iff] at hout
      obtain ⟨l₁, l₂, heq, -⟩ := hout
      exact h.net (c, out) (by rw [heq]; simp)

theorem schedule_walk (const0 const1 : NodeId) (leavesOrd : List NodeId) (st : State) (hlt : c < bdd.length) :
    ∃ st', schedule bdd c st = some st' ∧
    walk st' = (graph bdd).schedule (walk st) c ∧
    (Fits const0 const1 leavesOrd bdd st → Fits const0 const1 leavesOrd bdd st') ∧ st'.nl = st.nl := by
  have hpushed : (graph bdd).Pushed (walk st) c ↔ ¬ c ≤ 1 ∧ c ∉ st.net.map fst ∧ c ∉ st.scheduled := by
    rw [PostOrder.Graph.Pushed, leaf_eq_false, and_iff_left hlt]
    constructor
    · rintro ⟨hpos, hnew, hsched⟩
      exact ⟨by omega, fun h => hnew ((mem_walk_built hpos).mpr h), hsched⟩
    · rintro ⟨hpos, hnew, hsched⟩
      exact ⟨by omega, fun h => hnew ((mem_walk_built (by omega)).mp h), hsched⟩
  unfold schedule PostOrder.Graph.schedule
  by_cases hterm : c ≤ 1
  · rw [if_pos hterm, if_neg fun hp => (hpushed.mp hp).1 hterm]
    exact ⟨st, rfl, rfl, fun hf => hf, rfl⟩
  rw [if_neg hterm, if_neg (by omega)]
  by_cases hnet : c ∈ st.net.map fst
  · rw [if_pos hnet, if_neg fun hp => (hpushed.mp hp).2.1 hnet]
    exact ⟨st, rfl, rfl, fun hf => hf, rfl⟩
  rw [if_neg hnet]
  by_cases hsched : c ∈ st.scheduled
  · rw [if_pos hsched, if_neg fun hp => (hpushed.mp hp).2.2 hsched]
    exact ⟨st, rfl, rfl, fun hf => hf, rfl⟩
  · rw [if_neg hsched, if_pos (hpushed.mpr ⟨hterm, hnet, hsched⟩)]
    refine ⟨_, rfl, rfl, fun hf => ⟨⟨hf.caches.sound, hf.caches.zero, hf.caches.one, hf.caches.leaf,
      hf.caches.notCache, hf.caches.negVar_length, hf.caches.negVar, hf.caches.binCache⟩, hf.net, fun p hp => ?_⟩, rfl⟩
    rcases mem_cons.mp hp with rfl | hp
    · exact ⟨show 2 ≤ c by omega, hlt⟩
    · exact hf.stack p hp

theorem Fits.withStack (h : Fits const0 const1 leavesOrd bdd st) (stack : List (Nat × Bool))
    (hstack : ∀ p ∈ stack, 2 ≤ p.1 ∧ p.1 < bdd.length) :
    Fits const0 const1 leavesOrd bdd { st with stack := stack } :=
  ⟨⟨h.caches.sound, h.caches.zero, h.caches.one, h.caches.leaf, h.caches.notCache, h.caches.negVar_length,
    h.caches.negVar, h.caches.binCache⟩, h.net, hstack⟩

theorem visitTop_walk (hbdd : Reduced bdd) (hvar : ∀ id n, IsNode bdd id n → n.var < leavesOrd.length)
    (h : Fits const0 const1 leavesOrd bdd st) (hstack : st.stack = (id, expanded) :: rest) :
    (visitTop addr const0 const1 leavesOrd bdd id expanded rest st = none ∧
      (graph bdd).visit (walk st) id expanded rest = none) ∨
    ∃ st', visitTop addr const0 const1 leavesOrd bdd id expanded rest st = some st' ∧
      (graph bdd).visit (walk st) id expanded rest = some (walk st') ∧ Fits const0 const1 leavesOrd bdd st' ∧
      Grown boolFns st.nl st'.nl := by
  obtain ⟨hpos, hlt⟩ := h.stack (id, expanded) (by rw [hstack]; exact mem_cons_self)
  have hrest : ∀ p ∈ rest, 2 ≤ p.1 ∧ p.1 < bdd.length := fun p hp => h.stack p (by
    rw [hstack]
    exact mem_cons_of_mem _ hp)
  obtain ⟨n, hn⟩ := exists_isNode hlt hpos
  have hready : (graph bdd).Ready (walk st) id ↔ id ≤ 1 ∨ id ∈ st.net.map fst := ready_iff hlt
  unfold visitTop PostOrder.Graph.visit
  rw [if_neg (show ¬ id ≤ 1 by omega)]
  by_cases hnet : id ∈ st.net.map fst
  · rw [if_pos hnet, if_pos (hready.mpr (.inr hnet))]
    exact .inr ⟨_, rfl, rfl, h.withStack rest hrest, .refl h.caches.sound⟩
  · have hnot : ¬ (graph bdd).Ready (walk st) id := fun hr => (hready.mp hr).elim (fun hle => by omega) hnet
    rw [if_neg hnet, if_neg hnot, hn.get]
    dsimp only
    have hlo := hbdd.lt id n hn n.lo (.inl rfl)
    have hhi := hbdd.lt id n hn n.hi (.inr rfl)
    rw [graph_lo hn, graph_hi hn]
    cases expanded with
    | false =>
      obtain ⟨st₁, heq₁, hwalk₁, hfits₁, hnl₁⟩ := schedule_walk const0 const1 leavesOrd
        { st with stack := (id, true) :: rest } (show n.lo < bdd.length by omega)
      obtain ⟨st₂, heq₂, hwalk₂, hfits₂, hnl₂⟩ :=
        schedule_walk const0 const1 leavesOrd st₁ (show n.hi < bdd.length by omega)
      rw [if_neg (by simp), if_neg (by simp), heq₁]
      refine .inr ⟨st₂, heq₂, ?_, hfits₂ (hfits₁ (h.withStack _ ?_)), ?_⟩
      · rw [hwalk₂, hwalk₁]
        rfl
      · intro p hp
        rcases mem_cons.mp hp with rfl | hp
        · exact ⟨hpos, hlt⟩
        · exact hrest p hp
      · rw [hnl₂, hnl₁]
        exact .refl h.caches.sound
    | true =>
      rw [if_pos rfl, if_pos rfl]
      have hx : leavesOrd[n.var]? = some (leavesOrd.get ⟨n.var, hvar id n hn⟩) := getElem?_eq_getElem (hvar id n hn)
      generalize leavesOrd.get ⟨n.var, hvar id n hn⟩ = x at hx
      have hloReady := getCached_isSome const0 const1 st (show n.lo < bdd.length by omega)
      have hhiReady := getCached_isSome const0 const1 st (show n.hi < bdd.length by omega)
      rw [hx]
      cases hgetLo : getCached const0 const1 st n.lo with
      | none =>
        rw [hgetLo] at hloReady
        rw [if_neg fun hr => by simpa using hloReady.mpr hr.1]
        exact .inl ⟨rfl, rfl⟩
      | some lo =>
        cases hgetHi : getCached const0 const1 st n.hi with
        | none =>
          rw [hgetHi] at hhiReady
          rw [if_neg fun hr => by simpa using hhiReady.mpr hr.2]
          exact .inl ⟨rfl, rfl⟩
        | some hi =>
          rw [hgetLo] at hloReady
          rw [hgetHi] at hhiReady
          rw [if_pos ⟨hloReady.mp rfl, hhiReady.mp rfl⟩]
          have hmeansLo := h.getCached hgetLo
          have hmeansHi := h.getCached hgetHi
          have hmade := makeOut_makes addr h.caches hx hmeansLo.isSome hmeansHi.isSome
          obtain ⟨out, hout, hmeans⟩ := hmade.out
          dsimp only
          rw [show makeOut addr const0 const1 leavesOrd n.var x lo hi st =
            (some out, (makeOut addr const0 const1 leavesOrd n.var x lo hi st).2) from ext hout rfl]
          have hcaches := hmade.caches
          refine .inr ⟨_, rfl, ?_, ⟨⟨hcaches.sound, hcaches.zero, hcaches.one, hcaches.leaf, hcaches.notCache,
            hcaches.negVar_length, hcaches.negVar, hcaches.binCache⟩, fun p hp => ?_, hrest⟩, hmade.grown⟩
          · refine congrArg some ?_
            simp only [walk, hmade.scheduled, hmade.net, map_cons]
            rw [filter_cons_of_pos (by simpa using hpos)]
          · rcases mem_cons.mp hp with rfl | hp
            · refine hmeans.congr fun v hv => ?_
              have hval : leafVal leavesOrd v n.var = v x := by rw [leafVal, hx]; rfl
              rw [eval_node hbdd.toOrdered hn, hval, (hmeansLo.grown hmade.grown).value v hv,
                (hmeansHi.grown hmade.grown).value v hv]
            · rw [hmade.net] at hp
              exact (h.net p hp).grown hmade.grown

theorem buildLoop_walk (addr : NodeId → Nat) (hbdd : Reduced bdd)
    (hvar : ∀ id n, IsNode bdd id n → n.var < leavesOrd.length)
    (fuel : Nat) : ∀ st, Fits const0 const1 leavesOrd bdd st →
    PostOrder.Graph.weight (Finset.range bdd.length) (walk st) < fuel →
    (∃ st', buildLoop addr const0 const1 leavesOrd bdd fuel st = some (some st') ∧
      (graph bdd).Steps (walk st) (walk st') ∧ st'.stack = [] ∧ Fits const0 const1 leavesOrd bdd st' ∧
      Grown boolFns st.nl st'.nl) ∨
    (buildLoop addr const0 const1 leavesOrd bdd fuel st = some none ∧ (graph bdd).Fails (walk st)) := by
  induction fuel with
  | zero =>
    intro st _ hfuel
    omega
  | succ fuel ih =>
    intro st hfits hfuel
    rw [buildLoop]
    cases hstack : st.stack with
    | nil => exact .inl ⟨st, rfl, .refl, hstack, hfits, .refl hfits.caches.sound⟩
    | cons top rest =>
      obtain ⟨id, expanded⟩ := top
      dsimp only
      rcases visitTop_walk hbdd hvar hfits hstack with ⟨hnone, hvisit⟩ | ⟨st₁, hsome, hvisit, hfits₁, hgrown₁⟩
      · rw [hnone]
        exact .inr ⟨rfl, walk st, id, expanded, rest, .refl, hstack, hvisit⟩
      · rw [hsome]
        have hstep : (graph bdd).Step (walk st) (walk st₁) := .visit hstack hvisit
        have hin : ∀ p ∈ (walk st).stack, p.1 ∈ Finset.range bdd.length := fun p hp =>
          Finset.mem_range.mpr (hfits.stack p hp).2
        have hweight := (hstep.weight_lt (fun x _ y _ hleaf => Finset.mem_range.mpr (leaf_eq_false.mp hleaf).2) hin).1
        rcases ih st₁ hfits₁ (by omega) with ⟨st', heq, hsteps, hempty, hfits', hgrown⟩ | ⟨heq, hfails⟩
        · exact .inl ⟨st', heq, .head hstep hsteps, hempty, hfits', hgrown₁.trans hgrown⟩
        · exact .inr ⟨heq, hfails.of_steps (.single hstep)⟩

end Rounds

section Diagram

variable {const0 const1 : NodeId} {leavesOrd : List NodeId} {bdd : List BddNode} {st : State}

theorem buildNet_spec (addr : NodeId → Nat) {fuel root : Nat} (hbdd : Reduced bdd)
    (hvar : ∀ id n, IsNode bdd id n → n.var < leavesOrd.length) (hfits : Fits const0 const1 leavesOrd bdd st)
    (hnet : st.net.map fst = [0, 1]) (hpos : 2 ≤ root) (hlt : root < bdd.length)
    (hfuel : 2 * bdd.length + 2 < fuel) :
    (¬ LateElse (eval bdd root) ∧ ∃ out st', buildNet addr const0 const1 leavesOrd bdd fuel root st =
      some (some (out, st')) ∧
      Grown boolFns st.nl st'.nl ∧ Means boolFns st'.nl out fun v => eval bdd root (leafVal leavesOrd v)) ∨
    (LateElse (eval bdd root) ∧ buildNet addr const0 const1 leavesOrd bdd fuel root st = some none) := by
  have hleaf := leaf_eq_false.mpr ⟨hpos, hlt⟩
  let st₀ : State := { st with stack := [(root, false)], scheduled := [root] }
  have hstart : schedule bdd root { st with stack := [], scheduled := [] } = some st₀ := by
    rw [schedule, if_neg (by omega), if_neg (by omega), if_neg (by rw [hnet]; simp; omega), if_neg not_mem_nil]
  have hwalk : walk st₀ = PostOrder.Graph.start root := by
    rw [walk, show st₀.net = st.net from rfl, hnet]
    rfl
  have hfits₀ : Fits const0 const1 leavesOrd bdd st₀ := by
    have hstack := hfits.withStack [(root, false)] fun p hp => by
      rw [mem_singleton.mp hp]
      exact ⟨hpos, hlt⟩
    exact ⟨⟨hfits.caches.sound, hfits.caches.zero, hfits.caches.one, hfits.caches.leaf, hfits.caches.notCache,
      hfits.caches.negVar_length, hfits.caches.negVar, hfits.caches.binCache⟩, hfits.net, hstack.stack⟩
  have hweight : PostOrder.Graph.weight (Finset.range bdd.length) (walk st₀) < fuel := by
    have hcard := Finset.card_filter_le (Finset.range bdd.length) (· ∉ [root])
    rw [Finset.card_range] at hcard
    rw [hwalk]
    change 2 * ((Finset.range bdd.length).filter (· ∉ [root])).card + 2 < fuel
    omega
  rw [buildNet, if_neg (by omega), if_neg (by omega), if_neg (by omega), hstart]
  dsimp only
  rw [← hbdd.clash_iff hlt]
  rcases buildLoop_walk addr hbdd hvar fuel st₀ hfits₀ hweight with
    ⟨st', heq, hsteps, hempty, hfits', hgrown⟩ | ⟨heq, hfails⟩
  · rw [hwalk] at hsteps
    obtain ⟨hclear, hbuilt⟩ := PostOrder.Graph.not_clash_of_steps hbdd.acyclic hleaf hsteps hempty
    obtain ⟨out, hout⟩ := Option.isSome_iff_exists.mp
      ((getCached_isSome const0 const1 st' hlt).mpr (.inr hbuilt))
    refine .inl ⟨hclear, out, st', ?_, hgrown, hfits'.getCached hout⟩
    rw [heq, Option.map_some, Option.bind_some, hout]
    rfl
  · rw [hwalk] at hfails
    refine .inr ⟨PostOrder.Graph.clash_of_fails hbdd.acyclic hleaf hfails, ?_⟩
    rw [heq]
    rfl

end Diagram

theorem findOrMakeConstNode_means {nl : Netlist} (h : Sound nl) (c : Bool) :
    Grown boolFns nl (findOrMakeConstNode nl (LogicT.ofBool c)).1 ∧
      Means boolFns (findOrMakeConstNode nl (LogicT.ofBool c)).1 (findOrMakeConstNode nl (LogicT.ofBool c)).2
        fun _ => c := by
  have hvalue : ∀ {nl' : Netlist} {b : ModelBase} {n : NodeId}, Sound nl' → b ∈ nl'.bases →
      ConstInput b (LogicT.ofBool c) n → Means boolFns nl' n fun _ => c := by
    intro nl' b n hs hb hconst
    refine ⟨hs.isSome_node? hb (by simp [hconst.pins]), fun v hv => ?_⟩
    exact hv _ (mem_system.mpr ⟨b, hb, by rw [pinEquations_const hconst]; exact mem_singleton_self _⟩)
  cases findOrMakeConstNode_spec h (LogicT.ofBool c) with
  | found b hb hconst heq =>
    rw [heq]
    exact ⟨.refl h, hvalue h hb hconst⟩
  | made b hconst hid hnode hsound hbases hget hlen hnext =>
    refine ⟨?_, hvalue hsound (by rw [hbases]; simp) hconst⟩
    refine Grown.add h hsound hbases (fun n hn => ?_) [] hconst.pins (boolFns_const hconst) (by simp) ?_
    · rw [isSome_node?] at hn ⊢
      intro i hi
      have := hn i hi
      omega
    · rw [hnode, isSome_node?]
      intro hall
      exact Nat.lt_irrefl _ (hall _ rfl)

variable {leaves : List NodeId} {perm : List Nat}

theorem leavesOrd_eq_map (hperm : ∀ j ∈ perm, j < leaves.length) :
    leavesOrd leaves perm = perm.map fun old => leaves.getD old .ground := by
  rw [leavesOrd, ← filterMap_eq_map]
  refine filterMap_congr fun j hj => ?_
  rw [getElem?_eq_getElem (hperm j hj), Function.comp_apply, getD_eq_getElem _ _ (hperm j hj)]

variable {vars : Nat}

theorem orderedFn_leafVal (hcount : leaves.length = vars) (hperm : perm.Perm (List.range vars))
    (tt : List (BitVec 64)) (v : NodeId → Bool) :
    orderedFn vars tt perm (leafVal (leavesOrd leaves perm) v) = bit tt (TruthCones.minterm leaves v) := by
  rw [orderedFn, TruthCones.minterm]
  congr 2
  refine ext_getElem (by simp [hcount]) fun j hj hj' => ?_
  have hlt : j < vars := by simpa using hj
  have hmem : j ∈ perm := hperm.mem_iff.mpr (mem_range.mpr hlt)
  have hidx := idxOf_lt_length_of_mem hmem
  have hbound : ∀ i ∈ perm, i < leaves.length := fun i hi => hcount ▸ mem_range.mp (hperm.mem_iff.mp hi)
  rw [getElem_map, getElem_map, getElem_range, leafVal, leavesOrd_eq_map hbound, getElem?_map,
    getElem?_eq_getElem hidx, getElem_idxOf, Option.map_some, Option.map_some, Option.getD_some,
    getD_eq_getElem _ _ (by omega)]

theorem exists_orderedFn (hperm : perm.Perm (List.range vars)) (tt : List (BitVec 64)) {i : Nat}
    (hi : i < 2 ^ vars) : ∃ x, orderedFn vars tt perm x = bit tt i := by
  refine ⟨fun k => i.testBit (perm.getD k 0), ?_⟩
  have hmap : (List.range vars).map (fun j => i.testBit (perm.getD (perm.idxOf j) 0)) =
      (List.range vars).map i.testBit := by
    refine map_congr_left fun j hj => ?_
    have hidx := idxOf_lt_length_of_mem (hperm.mem_iff.mpr hj)
    rw [getD_eq_getElem _ _ hidx, getElem_idxOf]
  rw [orderedFn, hmap, value_testBits, Nat.mod_eq_of_lt hi]

theorem fits_start {nl : Netlist} (h : Sound nl) (hleaves : ∀ n ∈ leaves, (nl.node? n).isSome)
    (hperm : perm.Perm (List.range leaves.length)) (bdd : List BddNode) :
    let c0 := findOrMakeConstNode nl .L
    let c1 := findOrMakeConstNode c0.1 .H
    Fits c0.2 c1.2 (leavesOrd leaves perm) bdd
      ⟨c1.1, [(0, c0.2), (1, c1.2)], [], [], replicate leaves.length none, [], [], []⟩ ∧ Grown boolFns nl c1.1 := by
  intro c0 c1
  obtain ⟨hgrown₀, hmeans₀⟩ := findOrMakeConstNode_means h false
  obtain ⟨hgrown₁, hmeans₁⟩ := findOrMakeConstNode_means hgrown₀.sound true
  have hbound : ∀ i ∈ perm, i < leaves.length := fun i hi => mem_range.mp (hperm.mem_iff.mp hi)
  have hzero : Means boolFns c1.1 c0.2 fun _ => false := hmeans₀.grown hgrown₁
  refine ⟨⟨⟨hgrown₁.sound, hzero, hmeans₁, fun i x hx => ?_, by simp, ?_, fun i n x hn => ?_, by simp⟩, ?_, by simp⟩,
    hgrown₀.trans hgrown₁⟩
  · rw [leavesOrd_eq_map hbound] at hx
    obtain ⟨old, hold, rfl⟩ := mem_map.mp (List.mem_of_getElem? hx)
    rw [getD_eq_getElem _ _ (hbound old hold)]
    exact (hgrown₀.trans hgrown₁).isSome _ (hleaves _ (getElem_mem _))
  · rw [leavesOrd_eq_map hbound, length_map, length_replicate, hperm.length_eq, length_range]
  · simp [getElem?_replicate] at hn
  · intro p hp
    rcases mem_cons.mp hp with rfl | hp
    · exact hzero
    · rw [mem_singleton.mp hp]
      exact hmeans₁

/-- The diagram of a table is reduced and ordered and has the function of the table, and the
gates for it have that function exactly when no else cofactor comes late. -/
theorem bddSynthesis_iff {limit fuel root : Nat} {tt : List (BitVec 64)} {perm : List Nat}
    {bdd : List BddNode} {nl : Netlist} {leaves : List NodeId} (addr : NodeId → Nat)
    (hlen : tt.length = (2 ^ vars + 63) / 64) (htrue : ∃ i < 2 ^ vars, bit tt i = true)
    (hfalse : ∃ i < 2 ^ vars, bit tt i = false) (hperm : perm.Perm (List.range vars))
    (hbuild : tryBuildBdd limit vars (ttTry vars tt perm) = some (root, bdd)) (h : Sound nl)
    (hcount : leaves.length = vars) (hleaves : ∀ n ∈ leaves, (nl.node? n).isSome)
    (hfuel : 2 * bdd.length + 2 < fuel) :
    Reduced bdd ∧ (∀ id n, IsNode bdd id n → n.var < vars) ∧ eval bdd root = orderedFn vars tt perm ∧
      ∃ res, synthesize addr fuel nl leaves perm bdd root = some res ∧
        ((∃ out st, res = some (out, st) ∧ Grown boolFns nl st.nl ∧
          Means boolFns st.nl out fun v => bit tt (TruthCones.minterm leaves v)) ↔
        ¬ LateElse (orderedFn vars tt perm)) := by
  obtain ⟨i, hi, hbit⟩ := htrue
  obtain ⟨j, hj, hbit'⟩ := hfalse
  obtain ⟨x, hx⟩ := exists_orderedFn hperm tt hi
  obtain ⟨y, hy⟩ := exists_orderedFn hperm tt hj
  have htable := tableFn_ttTry hperm tt
  have htrue' : ∃ i < 2 ^ vars, bit (ttTry vars tt perm) i = true := by
    have hlt := value_map_lt x (List.range' 0 vars)
    rw [List.length_range'] at hlt
    refine ⟨_, hlt, ?_⟩
    have hread := congrFun htable x
    rw [hx, hbit] at hread
    exact hread
  obtain ⟨hreduced, -, hroot, heval, hvar⟩ := tryBuildBdd_spec (length_ttTry hlen perm) htrue' hbuild
  rw [htable] at heval
  have hnonconst : Nonconstant (eval bdd root) := ⟨x, y, by rw [heval, hx, hy, hbit, hbit']; simp⟩
  subst hcount
  obtain ⟨hfits, hgrown⟩ := fits_start h hleaves hperm bdd
  have hbound : ∀ i ∈ perm, i < leaves.length := fun i hi => List.mem_range.mp (hperm.mem_iff.mp hi)
  have hvar' : ∀ id n, IsNode bdd id n → n.var < (leavesOrd leaves perm).length := by
    intro id n hn
    rw [leavesOrd_eq_map hbound, List.length_map, hperm.length_eq, List.length_range]
    exact hvar id n hn
  refine ⟨hreduced, hvar, heval, ?_⟩
  rcases buildNet_spec addr hreduced hvar' hfits rfl ((hreduced.nonconstant_iff hroot).mp hnonconst) hroot
    hfuel with ⟨hclear, out, st, hres, hgrown', hmeans⟩ | ⟨hlate, hres⟩
  · rw [heval] at hclear hmeans
    refine ⟨_, hres, iff_of_true ⟨out, st, rfl, hgrown.trans hgrown', hmeans.congr fun v _ => ?_⟩ hclear⟩
    exact orderedFn_leafVal rfl hperm tt v
  · rw [heval] at hlate
    refine ⟨_, hres, iff_of_false ?_ (not_not.mpr hlate)⟩
    rintro ⟨out, st, hnone, -⟩
    cases hnone

def threeInputs : Netlist := .ofModels 3 [.port .input [0] "a" [.digital .L],
  .port .input [1] "b" [.digital .L], .port .input [2] "c" [.digital .L]]

theorem sound_threeInputs : Sound threeInputs :=
  (binaryNetlist_of_check NodeId.index (by decide +kernel) (by decide +kernel) (by decide +kernel)).sound

theorem bddSynthesis_parity : ∃ res, synthesize NodeId.index 17 threeInputs [.node 0, .node 1, .node 2] [2, 0, 1]
      [⟨0, 0, 0⟩, ⟨0, 1, 1⟩, ⟨2, 0, 1⟩, ⟨2, 1, 0⟩, ⟨1, 2, 3⟩, ⟨1, 3, 2⟩, ⟨0, 4, 5⟩] 6 = some res ∧
    ((∃ out st, res = some (out, st) ∧ Grown boolFns threeInputs st.nl ∧
      Means boolFns st.nl out fun v => bit [0x96] (TruthCones.minterm [.node 0, .node 1, .node 2] v)) ↔
    ¬ LateElse (orderedFn 3 [0x96] [2, 0, 1])) :=
  (@bddSynthesis_iff 3 16 17 6 [0x96] [2, 0, 1] _ _ _ NodeId.index (by decide) ⟨1, by decide, by decide⟩
    ⟨0, by decide, by decide⟩
    (by decide) (by decide +kernel) sound_threeInputs rfl (by decide) (by decide)).2.2.2

/-- For `c | (a & b)` the node for `c` is the else successor of the root and of the then successor
of the root, which comes first and does not find it. -/
theorem buildNet_null : bit [0xF8] 7 = true ∧ bit [0xF8] 0 = false ∧
    tryBuildBdd 16 3 (ttTry 3 [0xF8] [0, 1, 2]) = some (4, [⟨0, 0, 0⟩, ⟨0, 1, 1⟩, ⟨2, 0, 1⟩, ⟨1, 2, 1⟩, ⟨0, 2, 3⟩]) ∧
    Sound threeInputs ∧ synthesize NodeId.index 13 threeInputs [.node 0, .node 1, .node 2] [0, 1, 2]
      [⟨0, 0, 0⟩, ⟨0, 1, 1⟩, ⟨2, 0, 1⟩, ⟨1, 2, 1⟩, ⟨0, 2, 3⟩] 4 = some none := by
  refine ⟨by decide, by decide, by decide +kernel, sound_threeInputs, ?_⟩
  have hnull : (synthesize NodeId.index 13 threeInputs [.node 0, .node 1, .node 2] [0, 1, 2]
      [⟨0, 0, 0⟩, ⟨0, 1, 1⟩, ⟨2, 0, 1⟩, ⟨1, 2, 1⟩, ⟨0, 2, 3⟩] 4).map Option.isSome = some false := by
    decide +kernel
  obtain ⟨res, hres, hnone⟩ := Option.map_eq_some_iff.mp hnull
  exact hres.trans (congrArg some (Option.not_isSome_iff_eq_none.mp (by simp [hnone])))

end BddNet

end PhyEngine
