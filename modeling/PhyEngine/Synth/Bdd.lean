import PhyEngine.Library.BitNumbers
import PhyEngine.Library.DecisionDiagrams
import PhyEngine.Library.PackedBits

/-!
# Decision diagrams of truth tables

`permute_tt` and `try_build_bdd`: a table is split on its lowest variable, with a memo of the
tables of each depth. A diagram that is built is reduced and ordered and has the function of the
table (`tryBuildBdd_spec`). The memo is one list, since its hash is a function of the key.
-/

namespace PhyEngine

open PackedBits BitNumbers DecisionDiagrams List

/-- The last word of a table of `n` bits is cut off. -/
def maskLast (n : Nat) (tt : List (BitVec 64)) : List (BitVec 64) :=
  if n % 64 ≠ 0 then tt.modify (tt.length - 1) (· &&& lowMask (n % 64)) else tt

def lastMask (n : Nat) : BitVec 64 := if n % 64 = 0 then BitVec.allOnes 64 else lowMask (n % 64)

def ttAllOne (tt : List (BitVec 64)) (mask : BitVec 64) : Bool :=
  match tt.getLast? with
  | none => false
  | some w => (tt.dropLast.all fun v => v == BitVec.allOnes 64) && (w &&& mask == mask)

variable (vars : Nat)

def oldIdx (perm : List Nat) (m : Nat) : Nat :=
  (List.range vars).foldl (fun old i => if m.testBit i then old ||| 1 <<< perm.getD i 0 else old) 0

def permuteTt (tt : List (BitVec 64)) (perm : List Nat) : List (BitVec 64) :=
  maskLast (2 ^ vars) <| (List.range (2 ^ vars)).foldl
    (fun out m => if bit tt (oldIdx vars perm m) then setBit out m else out)
    (List.replicate ((2 ^ vars + 63) / 64) 0)

def ttTry (tt : List (BitVec 64)) (perm : List Nat) : List (BitVec 64) :=
  if perm = List.range vars then tt else permuteTt vars tt perm

/-- `t0` and `t1`: the bits with an even and with an odd number. -/
def halfTt (half : Nat) (tt : List (BitVec 64)) (b : Bool) : List (BitVec 64) :=
  maskLast half <| (List.range half).foldl (fun t i => if bit tt (2 * i + b.toNat) then setBit t i else t)
    (List.replicate ((half + 63) / 64) 0)

structure MemoEntry where
  depth : Nat
  tt : List (BitVec 64)
  id : Nat

structure BddTables where
  bdd : List BddNode
  uniq : List (BddNode × Nat)
  memo : List MemoEntry

namespace BddTables

def mkNode (limit v lo hi : Nat) (st : BddTables) : Option (Nat × BddTables) :=
  if lo = hi then some (lo, st)
  else
    match st.uniq.lookup ⟨v, lo, hi⟩ with
    | some id => some (id, st)
    | none =>
      if limit ≤ st.bdd.length then none
      else some (st.bdd.length, { st with bdd := st.bdd ++ [⟨v, lo, hi⟩]
                                          uniq := (⟨v, lo, hi⟩, st.bdd.length) :: st.uniq })

def findMemo (st : BddTables) (depth : Nat) (tt : List (BitVec 64)) : Option Nat :=
  (st.memo.find? fun e => e.depth = depth ∧ e.tt = tt).map (·.id)

def remember (st : BddTables) (depth : Nat) (tt : List (BitVec 64)) (id : Nat) : BddTables :=
  { st with memo := st.memo ++ [⟨depth, tt, id⟩] }

end BddTables

def buildBdd (limit vars : Nat) : Nat → List (BitVec 64) → BddTables → Option (Nat × BddTables)
  | rest, tt, st =>
    let depth := vars - rest
    match st.findMemo depth tt with
    | some id => some (id, st)
    | none =>
      if isZero tt then some (0, st.remember depth tt 0)
      else if ttAllOne tt (lastMask (2 ^ rest)) then some (1, st.remember depth tt 1)
      else
        match rest with
        | 0 => some (0, st)
        | rest + 1 =>
          let t0 := halfTt (2 ^ rest) tt false
          let t1 := halfTt (2 ^ rest) tt true
          if t0 = t1 then
            (buildBdd limit vars rest t0 st).map fun lo => (lo.1, lo.2.remember depth tt lo.1)
          else
            (buildBdd limit vars rest t0 st).bind fun lo =>
              (buildBdd limit vars rest t1 lo.2).bind fun hi =>
                (hi.2.mkNode limit depth lo.1 hi.1).map fun made => (made.1, made.2.remember depth tt made.1)

def tryBuildBdd (limit vars : Nat) (tt : List (BitVec 64)) : Option (Nat × List BddNode) :=
  (buildBdd limit vars vars tt ⟨[⟨0, 0, 0⟩, ⟨0, 1, 1⟩], [], []⟩).map fun made => (made.1, made.2.bdd)

section Tables

variable {tt : List (BitVec 64)} {n : Nat}

@[simp] theorem length_maskLast (n : Nat) (tt : List (BitVec 64)) : (maskLast n tt).length = tt.length := by
  unfold maskLast
  split
  · exact length_modify ..
  · rfl

theorem bit_maskLast (hlen : tt.length = (n + 63) / 64) (i : Nat) :
    bit (maskLast n tt) i = (bit tt i && decide (i < n)) := by
  unfold maskLast
  split
  · have hmod : n % 64 < 64 := Nat.mod_lt _ (by omega)
    have hi : i % 64 < 64 := Nat.mod_lt _ (by omega)
    by_cases hword : tt.length - 1 = i / 64
    · rw [bit, getD_modify, if_pos ⟨hword, by omega⟩, BitVec.getLsbD_and, getLsbD_lowMask hmod, bit,
        show decide (i % 64 < n % 64) = decide (i < n) by rw [decide_eq_decide]; omega]
    · rw [bit, getD_modify, if_neg (fun h => hword h.1), ← bit]
      by_cases hlt : i < n
      · rw [decide_eq_true hlt, Bool.and_true]
      · rw [bit_eq_false_of_le (by omega), Bool.false_and]
  · by_cases hlt : i < n
    · rw [decide_eq_true hlt, Bool.and_true]
    · rw [bit_eq_false_of_le (by omega), Bool.false_and]

theorem bit_filled (p : Nat → Bool) (n i : Nat) : bit (maskLast n ((List.range n).foldl
    (fun t i => if p i then setBit t i else t) (List.replicate ((n + 63) / 64) 0))) i = (decide (i < n) && p i) := by
  rw [bit_maskLast (by rw [length_foldl_setBit, length_replicate]),
    bit_foldl_setBit p (by rw [length_replicate]; omega), bit_replicate_zero, Bool.false_or]
  cases decide (i < n) <;> simp

theorem bit_halfTt (n : Nat) (tt : List (BitVec 64)) (b : Bool) (i : Nat) :
    bit (halfTt n tt b) i = (decide (i < n) && bit tt (2 * i + b.toNat)) :=
  bit_filled (fun i => bit tt (2 * i + b.toNat)) n i

theorem length_halfTt (n : Nat) (tt : List (BitVec 64)) (b : Bool) : (halfTt n tt b).length = (n + 63) / 64 := by
  rw [halfTt, length_maskLast, length_foldl_setBit, length_replicate]

theorem bit_permuteTt (vars : Nat) (tt : List (BitVec 64)) (perm : List Nat) (m : Nat) :
    bit (permuteTt vars tt perm) m = (decide (m < 2 ^ vars) && bit tt (oldIdx vars perm m)) :=
  bit_filled (fun m => bit tt (oldIdx vars perm m)) (2 ^ vars) m

theorem length_permuteTt (vars : Nat) (tt : List (BitVec 64)) (perm : List Nat) :
    (permuteTt vars tt perm).length = (2 ^ vars + 63) / 64 := by
  rw [permuteTt, length_maskLast, length_foldl_setBit, length_replicate]

theorem getLsbD_lastMask {n j : Nat} (hj : j < 64) :
    (lastMask n).getLsbD j = (decide (n % 64 = 0) || decide (j < n % 64)) := by
  unfold lastMask
  split
  · rename_i hzero
    rw [BitVec.getLsbD_allOnes, decide_eq_true hj, decide_eq_true hzero, Bool.true_or]
  · rename_i hne
    rw [getLsbD_lowMask (Nat.mod_lt _ (by omega)), decide_eq_false hne, Bool.false_or]

theorem ttAllOne_iff (hpos : 0 < n) (hlen : tt.length = (n + 63) / 64) :
    ttAllOne tt (lastMask n) = true ↔ ∀ i < n, bit tt i = true := by
  rcases eq_nil_or_concat tt with rfl | ⟨front, w, rfl⟩
  · simp only [length_nil] at hlen
    omega
  · rw [concat_eq_append, length_append, length_singleton] at hlen
    have hlast : ∀ j < 64, bit (front ++ [w]) (64 * front.length + j) = w.getLsbD j := by
      intro j hj
      rw [bit, show (64 * front.length + j) / 64 = front.length by omega,
        show (64 * front.length + j) % 64 = j by omega, getD_append_right _ _ _ _ (Nat.le_refl _), Nat.sub_self,
        getD_cons_zero]
    have hfront : ∀ i, i / 64 < front.length → bit (front ++ [w]) i = bit front i := by
      intro i hi
      rw [bit, getD_append _ _ _ _ hi, bit]
    have hmask : (w &&& lastMask n == lastMask n) = true ↔ ∀ j, j < 64 → 64 * front.length + j < n →
      w.getLsbD j = true := by
      rw [beq_iff_eq]
      constructor
      · intro heq j hj hlt
        have hbit : (w &&& lastMask n).getLsbD j = (lastMask n).getLsbD j := by rw [heq]
        rw [BitVec.getLsbD_and, getLsbD_lastMask hj,
          show (decide (n % 64 = 0) || decide (j < n % 64)) = true by simp; omega, Bool.and_true] at hbit
        exact hbit
      · intro h
        refine BitVec.eq_of_getLsbD_eq fun j hj => ?_
        rw [BitVec.getLsbD_and, getLsbD_lastMask hj]
        by_cases hlt : 64 * front.length + j < n
        · rw [h j hj hlt, Bool.true_and]
        · rw [show (decide (n % 64 = 0) || decide (j < n % 64)) = false by simp; omega, Bool.and_false]
    have hall : (front.all fun v => v == BitVec.allOnes 64) = true ↔ ∀ i, i / 64 < front.length →
      bit front i = true := by
      rw [all_eq_true]
      constructor
      · intro h i hi
        have heq := eq_of_beq (h _ (getElem_mem hi))
        rw [bit, getD_eq_getElem _ _ hi, heq, BitVec.getLsbD_allOnes]
        simp [Nat.mod_lt]
      · intro h v hv
        obtain ⟨k, hk, rfl⟩ := getElem_of_mem hv
        refine beq_iff_eq.mpr (BitVec.eq_of_getLsbD_eq fun j hj => ?_)
        have hread := h (64 * k + j) (by omega)
        rw [bit, show (64 * k + j) / 64 = k by omega, show (64 * k + j) % 64 = j by omega,
          getD_eq_getElem _ _ hk] at hread
        rw [hread, BitVec.getLsbD_allOnes, decide_eq_true hj]
    simp only [ttAllOne, concat_eq_append, getLast?_append, getLast?_singleton, Option.some_or,
      dropLast_concat, Bool.and_eq_true]
    rw [hall, hmask]
    constructor
    · rintro ⟨hwords, hbits⟩ i hi
      by_cases hword : i / 64 < front.length
      · rw [hfront i hword]
        exact hwords i hword
      · rw [show i = 64 * front.length + (i - 64 * front.length) by omega, hlast _ (by omega)]
        exact hbits _ (by omega) (by omega)
    · intro h
      refine ⟨fun i hi => ?_, fun j hj hlt => ?_⟩
      · rw [← hfront i hi]
        exact h i (by omega)
      · rw [← hlast j hj]
        exact h _ hlt

theorem testBit_oldIdx (vars : Nat) (perm : List Nat) (m j : Nat) : (oldIdx vars perm m).testBit j =
    (List.range vars).any fun i => m.testBit i && decide (perm.getD i 0 = j) := by
  have hfold : ∀ (is : List Nat) (old : Nat), (is.foldl (fun old i => if m.testBit i then old ||| 1 <<< perm.getD i 0
      else old) old).testBit j = (old.testBit j || is.any fun i => m.testBit i && decide (perm.getD i 0 = j)) := by
    intro is
    induction is with
    | nil => intro old; simp
    | cons i is ih =>
      intro old
      rw [foldl_cons, ih, any_cons]
      cases hbit : m.testBit i with
      | false => simp
      | true =>
        rw [if_pos rfl, Nat.testBit_or, Nat.one_shiftLeft, Nat.testBit_two_pow, Bool.true_and, Bool.or_assoc]
  rw [oldIdx, hfold, Nat.zero_testBit, Bool.false_or]

end Tables

def tableFn (depth rest : Nat) (tt : List (BitVec 64)) : BoolFn := fun x =>
  bit tt (value ((List.range' depth rest).map x))

/-- The function of a table whose variables are numbered in the order `perm`. -/
def orderedFn (tt : List (BitVec 64)) (perm : List Nat) : BoolFn := fun x =>
  bit tt (value ((List.range vars).map fun j => x (perm.idxOf j)))

section Functions

variable {vars : Nat} {tt : List (BitVec 64)} {perm : List Nat}

theorem value_map_lt (x : Nat → Bool) (is : List Nat) : value (is.map x) < 2 ^ is.length := by
  have hlt := value_lt (is.map x)
  rwa [length_map] at hlt

theorem tableFn_succ (depth rest : Nat) (tt : List (BitVec 64)) (x : Nat → Bool) :
    tableFn depth (rest + 1) tt x = tableFn (depth + 1) rest (halfTt (2 ^ rest) tt (x depth)) x := by
  have hlt := value_map_lt x (range' (depth + 1) rest)
  rw [length_range'] at hlt
  rw [tableFn, tableFn, bit_halfTt, decide_eq_true hlt, Bool.true_and, range'_succ, map_cons, value_cons,
    Nat.add_comm]

theorem testBit_value_map (x : Nat → Bool) (n j : Nat) :
    (value ((List.range n).map x)).testBit j = (decide (j < n) && x j) := by
  rw [testBit_value, getD_eq_getElem?_getD, getElem?_map]
  by_cases hj : j < n
  · simp [hj]
  · rw [getElem?_eq_none (by simpa using hj)]
    simp [hj]

theorem oldIdx_value (hperm : perm.Perm (List.range vars)) (x : Nat → Bool) :
    oldIdx vars perm (value ((List.range vars).map x)) =
      value ((List.range vars).map fun j => x (perm.idxOf j)) := by
  have hnodup : perm.Nodup := hperm.nodup_iff.mpr nodup_range
  have hlen : perm.length = vars := by rw [hperm.length_eq, length_range]
  refine Nat.eq_of_testBit_eq fun j => ?_
  rw [testBit_oldIdx, testBit_value_map]
  by_cases hj : j < vars
  · have hmem : j ∈ perm := hperm.mem_iff.mpr (mem_range.mpr hj)
    have hidx : perm.idxOf j < vars := by
      have := idxOf_lt_length_of_mem hmem
      omega
    rw [decide_eq_true hj, Bool.true_and, Bool.eq_iff_iff, any_eq_true]
    constructor
    · rintro ⟨i, hi, hread⟩
      have hlt := mem_range.mp hi
      rw [testBit_value_map, decide_eq_true hlt, Bool.true_and, Bool.and_eq_true, decide_eq_true_eq,
        getD_eq_getElem _ _ (by omega)] at hread
      rw [← hread.2, hnodup.idxOf_getElem]
      exact hread.1
    · intro hx
      refine ⟨perm.idxOf j, mem_range.mpr hidx, ?_⟩
      rw [testBit_value_map, decide_eq_true hidx, hx, getD_eq_getElem _ _ (by omega), getElem_idxOf]
      simp
  · rw [decide_eq_false hj, Bool.false_and, any_eq_false]
    intro i hi hread
    have hlt := mem_range.mp hi
    rw [Bool.and_eq_true, decide_eq_true_eq, getD_eq_getElem _ _ (by omega)] at hread
    have hmem := mem_range.mp (hperm.mem_iff.mp (getElem_mem (show i < perm.length by omega)))
    omega

theorem tableFn_ttTry (hperm : perm.Perm (List.range vars)) (tt : List (BitVec 64)) :
    tableFn 0 vars (ttTry vars tt perm) = orderedFn vars tt perm := by
  funext x
  rw [tableFn, orderedFn, ttTry, ← range_eq_range']
  split
  · rename_i hident
    subst hident
    congr 2
    refine map_congr_left fun j hj => ?_
    have hlt := mem_range.mp hj
    have hget := nodup_range.idxOf_getElem j (by rwa [length_range])
    rw [getElem_range] at hget
    rw [hget]
  · have hlt := value_map_lt x (List.range vars)
    rw [length_range] at hlt
    rw [bit_permuteTt, decide_eq_true hlt, Bool.true_and, oldIdx_value hperm]

theorem length_ttTry (hlen : tt.length = (2 ^ vars + 63) / 64) (perm : List Nat) :
    (ttTry vars tt perm).length = (2 ^ vars + 63) / 64 := by
  unfold ttTry
  split
  · exact hlen
  · exact length_permuteTt ..

end Functions

structure BddTables.Valid (vars : Nat) (st : BddTables) : Prop where
  reduced : Reduced st.bdd
  var_lt : ∀ id n, IsNode st.bdd id n → n.var < vars
  uniq : ∀ n id, (n, id) ∈ st.uniq ↔ IsNode st.bdd id n
  memo : ∀ e ∈ st.memo, e.id < st.bdd.length ∧ AtOrAfter st.bdd e.id e.depth ∧
    eval st.bdd e.id = tableFn e.depth (vars - e.depth) e.tt

/-- The entry `id` has the function of a table, whose diagram took at most `size` nodes more. -/
structure BddTables.Has (vars : Nat) (st : BddTables) (depth size : Nat) (f : BoolFn) (id : Nat)
    (st' : BddTables) : Prop where
  valid : st'.Valid vars
  grows : st.bdd <+: st'.bdd
  size_le : st'.bdd.length ≤ st.bdd.length + size
  lt : id < st'.bdd.length
  after : AtOrAfter st'.bdd id depth
  eval_eq : eval st'.bdd id = f

namespace BddTables

variable {limit vars depth : Nat} {st st' : BddTables} {v lo hi id : Nat}

theorem mem_of_lookup {n : BddNode} (h : st.uniq.lookup n = some id) : (n, id) ∈ st.uniq := by
  rw [lookup_eq_some_iff] at h
  obtain ⟨l₁, l₂, heq, -⟩ := h
  rw [heq]
  simp

theorem mkNode_has (h : st.Valid vars) (hv : v < vars) (hlo : lo < st.bdd.length) (hhi : hi < st.bdd.length)
    (hlo' : AtOrAfter st.bdd lo (v + 1)) (hhi' : AtOrAfter st.bdd hi (v + 1))
    (hmade : st.mkNode limit v lo hi = some (id, st')) :
    Has vars st v 1 (fun x => if x v then eval st.bdd hi x else eval st.bdd lo x) id st' := by
  unfold mkNode at hmade
  split at hmade
  · rename_i heq
    obtain ⟨rfl, rfl⟩ := Prod.mk.inj (Option.some.inj hmade)
    refine ⟨h, prefix_refl _, by omega, hlo, hlo'.mono (by omega), ?_⟩
    funext x
    rw [← heq]
    split <;> rfl
  · rename_i hne
    split at hmade
    · rename_i old hlookup
      obtain ⟨rfl, rfl⟩ := Prod.mk.inj (Option.some.inj hmade)
      have hnode := (h.uniq _ _).mp (mem_of_lookup hlookup)
      refine ⟨h, prefix_refl _, by omega, hnode.lt, hnode.atOrAfter, ?_⟩
      exact funext (eval_node h.reduced.toOrdered hnode)
    · rename_i hlookup
      split at hmade
      · cases hmade
      · obtain ⟨rfl, rfl⟩ := Prod.mk.inj (Option.some.inj hmade)
        have hlen := h.reduced.terminals
        have hnew : ∀ id, ¬ IsNode st.bdd id ⟨v, lo, hi⟩ := by
          intro id hid
          rw [lookup_eq_none_iff] at hlookup
          simpa using hlookup _ ((h.uniq _ _).mpr hid)
        have hreduced : Reduced (st.bdd ++ [⟨v, lo, hi⟩]) := by
          refine h.reduced.add hlo hhi hne ?_ hnew
          rintro c (rfl | rfl)
          · exact hlo'
          · exact hhi'
        have hpre : st.bdd <+: st.bdd ++ [⟨v, lo, hi⟩] := prefix_append ..
        have hold : ∀ i, i < st.bdd.length → eval (st.bdd ++ [⟨v, lo, hi⟩]) i = eval st.bdd i :=
          fun i hi => eval_extended h.reduced.toOrdered hreduced.toOrdered hpre hi
        have hself : IsNode (st.bdd ++ [⟨v, lo, hi⟩]) st.bdd.length ⟨v, lo, hi⟩ :=
          (isNode_append_singleton hlen).mpr (.inr ⟨rfl, rfl⟩)
        refine ⟨⟨hreduced, fun id n hn => ?_, fun n id => ?_, fun e he => ?_⟩, hpre, ?_, ?_, hself.atOrAfter, ?_⟩
        · rcases (isNode_append_singleton hlen).mp hn with hn | ⟨-, rfl⟩
          · exact h.var_lt id n hn
          · exact hv
        · rw [isNode_append_singleton hlen, ← h.uniq, mem_cons, Prod.mk.injEq, or_comm, and_comm]
        · obtain ⟨hlt, hafter, heval⟩ := h.memo e he
          refine ⟨?_, hafter.extended hpre hlt, (hold _ hlt).trans heval⟩
          rw [length_append]
          omega
        · rw [length_append, length_singleton]
        · rw [length_append, length_singleton]
          omega
        · funext x
          rw [eval_node hreduced.toOrdered hself, hold _ hlo, hold _ hhi]

theorem Has.remember {size : Nat} {tt : List (BitVec 64)} (h : Has vars st depth size
    (tableFn depth (vars - depth) tt) id st') :
    Has vars st depth size (tableFn depth (vars - depth) tt) id (st'.remember depth tt id) := by
  refine ⟨⟨h.valid.reduced, h.valid.var_lt, h.valid.uniq, fun e he => ?_⟩, h.grows, h.size_le, h.lt, h.after, h.eval_eq⟩
  rcases mem_append.mp he with he | he
  · exact h.valid.memo e he
  · rw [mem_singleton.mp he]
    exact ⟨h.lt, h.after, h.eval_eq⟩

theorem has_const (h : st.Valid vars) (hid : id ≤ 1) (depth : Nat) :
    Has vars st depth 0 (eval st.bdd id) id st :=
  ⟨h, prefix_refl _, by omega, by have := h.reduced.terminals; omega, atOrAfter_const hid depth, rfl⟩

theorem findMemo_has {tt : List (BitVec 64)} (h : st.Valid vars) (hmemo : st.findMemo depth tt = some id) :
    Has vars st depth 0 (tableFn depth (vars - depth) tt) id st := by
  obtain ⟨e, hfind, rfl⟩ := Option.map_eq_some_iff.mp hmemo
  have hcond : e.depth = depth ∧ e.tt = tt := by simpa using find?_some hfind
  obtain ⟨hlt, hafter, heval⟩ := h.memo e (mem_of_find?_eq_some hfind)
  rw [hcond.1] at hafter heval
  rw [hcond.2] at heval
  exact ⟨h, prefix_refl _, by omega, hlt, hafter, heval⟩

theorem Has.mono {size size' : Nat} {f : BoolFn} (h : Has vars st depth size f id st') (hsize : size ≤ size') :
    Has vars st depth size' f id st' :=
  ⟨h.valid, h.grows, by have := h.size_le; omega, h.lt, h.after, h.eval_eq⟩

end BddTables

section Build

open BddTables

variable {limit vars : Nat}

variable {tt : List (BitVec 64)}

theorem tableFn_eq_const {depth rest : Nat} {b : Bool} (h : ∀ i < 2 ^ rest, bit tt i = b) :
    tableFn depth rest tt = fun _ => b := by
  funext x
  have hlt := value_map_lt x (range' depth rest)
  rw [length_range'] at hlt
  exact h _ hlt

theorem has_of_tests {rest id : Nat} {st st' : BddTables} {split : Option (Nat × BddTables)} (hle : rest ≤ vars)
    (hlen : tt.length = (2 ^ rest + 63) / 64) (hzero : (∀ i < 2 ^ rest, bit tt i = false) → isZero tt = true)
    (h : st.Valid vars)
    (hsplit : (∃ i < 2 ^ rest, bit tt i = true) → (∃ i < 2 ^ rest, bit tt i = false) → split = some (id, st') →
      Has vars st (vars - rest) (2 ^ rest - 1) (tableFn (vars - rest) rest tt) id st')
    (hbuild : (match st.findMemo (vars - rest) tt with
      | some id => some (id, st)
      | none => if isZero tt then some (0, st.remember (vars - rest) tt 0)
        else if ttAllOne tt (lastMask (2 ^ rest)) then some (1, st.remember (vars - rest) tt 1)
        else split) = some (id, st'))
    :
    Has vars st (vars - rest) (2 ^ rest - 1) (tableFn (vars - rest) rest tt) id st' := by
  have hdepth : vars - (vars - rest) = rest := by omega
  have hpos : 0 < 2 ^ rest := Nat.pow_pos (by omega)
  have hremember : ∀ c : Nat, c ≤ 1 → eval st.bdd c = tableFn (vars - rest) rest tt →
      Has vars st (vars - rest) (2 ^ rest - 1) (tableFn (vars - rest) rest tt) c
        (st.remember (vars - rest) tt c) := by
    intro c hc heval
    have hhas : Has vars st (vars - rest) 0 (tableFn (vars - rest) (vars - (vars - rest)) tt) c st := by
      rw [hdepth, ← heval]
      exact has_const h hc (vars - rest)
    have hhas' := hhas.remember
    rw [hdepth] at hhas'
    exact hhas'.mono (Nat.zero_le _)
  split at hbuild
  · rename_i old hmemo
    obtain ⟨rfl, rfl⟩ := Prod.mk.inj (Option.some.inj hbuild)
    have hhas := findMemo_has h hmemo
    rw [hdepth] at hhas
    exact hhas.mono (Nat.zero_le _)
  · split at hbuild
    · rename_i hz
      obtain ⟨rfl, rfl⟩ := Prod.mk.inj (Option.some.inj hbuild)
      refine hremember 0 (by omega) ?_
      rw [tableFn_eq_const fun i _ => isZero_iff.mp hz i]
      rfl
    · rename_i hz
      split at hbuild
      · rename_i hone
        obtain ⟨rfl, rfl⟩ := Prod.mk.inj (Option.some.inj hbuild)
        refine hremember 1 (by omega) ?_
        rw [tableFn_eq_const ((ttAllOne_iff hpos hlen).mp hone)]
        rfl
      · rename_i hone
        refine hsplit ?_ ?_ hbuild
        · by_contra hnone
          exact hz (hzero fun i hi => Bool.eq_false_iff.mpr fun hbit => hnone ⟨i, hi, hbit⟩)
        · by_contra hnone
          exact hone ((ttAllOne_iff hpos hlen).mpr fun i hi => Bool.not_eq_false _ ▸ fun hbit => hnone ⟨i, hi, hbit⟩)

theorem buildBdd_has (rest : Nat) : ∀ (tt : List (BitVec 64)) (st : BddTables), rest ≤ vars →
    tt.length = (2 ^ rest + 63) / 64 → ((∀ i < 2 ^ rest, bit tt i = false) → isZero tt = true) →
    st.Valid vars → ∀ id st', buildBdd limit vars rest tt st = some (id, st') →
      Has vars st (vars - rest) (2 ^ rest - 1) (tableFn (vars - rest) rest tt) id st' := by
  induction rest with
  | zero =>
    intro tt st hle hlen hzero h id st' hbuild
    rw [buildBdd] at hbuild
    refine has_of_tests hle hlen hzero h ?_ hbuild
    -- A table of one bit is constant.
    rintro ⟨i, hi, htrue⟩ ⟨j, hj, hfalse⟩
    have hij : i = j := by omega
    rw [hij, hfalse] at htrue
    cases htrue
  | succ rest ih =>
    intro tt st hle hlen hzero h id st' hbuild
    rw [buildBdd] at hbuild
    refine has_of_tests hle hlen hzero h (fun _ _ hsplit => ?_) hbuild
    have hdepth : vars - (vars - (rest + 1)) = rest + 1 := by omega
    have hnext : vars - rest = vars - (rest + 1) + 1 := by omega
    have hpow : 2 ^ (rest + 1) = 2 ^ rest + 2 ^ rest := by rw [Nat.pow_succ]; omega
    have hpos : 0 < 2 ^ rest := Nat.pow_pos (by omega)
    have hhalf : ∀ b, (∀ i < 2 ^ rest, bit (halfTt (2 ^ rest) tt b) i = false) →
      isZero (halfTt (2 ^ rest) tt b) = true := by
      intro b hb
      refine isZero_iff.mpr fun i => ?_
      by_cases hi : i < 2 ^ rest
      · exact hb i hi
      · rw [bit_halfTt, decide_eq_false hi, Bool.false_and]
    have hbranch : ∀ (b : Bool) (st : BddTables), st.Valid vars → ∀ id st',
        buildBdd limit vars rest (halfTt (2 ^ rest) tt b) st = some (id, st') →
          Has vars st (vars - rest) (2 ^ rest - 1) (tableFn (vars - rest) rest (halfTt (2 ^ rest) tt b)) id st' :=
      fun b st hst id st' => ih _ st (by omega) (length_halfTt _ _ b) (hhalf b) hst id st'
    dsimp only at hsplit
    split at hsplit
    · rename_i hsame
      obtain ⟨⟨lo, st₁⟩, hlo, hmade⟩ := Option.map_eq_some_iff.mp hsplit
      obtain ⟨rfl, rfl⟩ := Prod.mk.inj hmade
      have hhas := hbranch false st h lo st₁ hlo
      have hfn : tableFn (vars - rest) rest (halfTt (2 ^ rest) tt false) =
          tableFn (vars - (rest + 1)) (rest + 1) tt := by
        funext x
        rw [tableFn_succ, ← hnext]
        cases x (vars - (rest + 1))
        · rfl
        · rw [hsame]
      rw [hfn] at hhas
      have hhas' : Has vars st (vars - (rest + 1)) (2 ^ (rest + 1) - 1)
          (tableFn (vars - (rest + 1)) (vars - (vars - (rest + 1))) tt) lo st₁ := by
        rw [hdepth]
        exact ⟨hhas.valid, hhas.grows, by have := hhas.size_le; omega, hhas.lt, hhas.after.mono (by omega),
    hhas.eval_eq⟩
      have hres := hhas'.remember
      rwa [hdepth] at hres
    · obtain ⟨⟨lo, st₁⟩, hlo, hrest⟩ := Option.bind_eq_some_iff.mp hsplit
      obtain ⟨⟨hi, st₂⟩, hhi, hrest⟩ := Option.bind_eq_some_iff.mp hrest
      obtain ⟨⟨made, st₃⟩, hmk, hmade⟩ := Option.map_eq_some_iff.mp hrest
      obtain ⟨rfl, rfl⟩ := Prod.mk.inj hmade
      dsimp only at hhi hmk ⊢
      have hasLo := hbranch false st h lo st₁ hlo
      have hasHi := hbranch true st₁ hasLo.valid hi st₂ hhi
      have hltLo := Nat.lt_of_lt_of_le hasLo.lt hasHi.grows.length_le
      have hafterLo := hasLo.after.extended hasHi.grows hasLo.lt
      have hafterHi := hasHi.after
      rw [hnext] at hafterLo hafterHi
      have hasMk := mkNode_has hasHi.valid (by omega) hltLo hasHi.lt hafterLo hafterHi hmk
      have hevalLo := (eval_extended hasLo.valid.reduced.toOrdered hasHi.valid.reduced.toOrdered hasHi.grows
        hasLo.lt).trans hasLo.eval_eq
      have hfn : (fun x => if x (vars - (rest + 1)) then eval st₂.bdd hi x else eval st₂.bdd lo x) =
          tableFn (vars - (rest + 1)) (rest + 1) tt := by
        funext x
        rw [tableFn_succ, ← hnext, hevalLo, hasHi.eval_eq]
        cases x (vars - (rest + 1)) <;> rfl
      rw [hfn] at hasMk
      have hhas' : Has vars st (vars - (rest + 1)) (2 ^ (rest + 1) - 1)
          (tableFn (vars - (rest + 1)) (vars - (vars - (rest + 1))) tt) made st₃ := by
        rw [hdepth]
        refine ⟨hasMk.valid, (hasLo.grows.trans hasHi.grows).trans hasMk.grows, ?_, hasMk.lt, hasMk.after,
          hasMk.eval_eq⟩
        have := hasLo.size_le
        have := hasHi.size_le
        have := hasMk.size_le
        omega
      have hres := hhas'.remember
      rwa [hdepth] at hres

theorem valid_start (vars : Nat) : Valid vars ⟨[⟨0, 0, 0⟩, ⟨0, 1, 1⟩], [], []⟩ := by
  have hnone : ∀ id n, ¬ IsNode [⟨0, 0, 0⟩, ⟨0, 1, 1⟩] id n := by
    intro id n hn
    have hpos := hn.pos
    have hlt : id < 2 := hn.lt
    omega
  refine ⟨⟨⟨Nat.le_refl _, fun id n hn => absurd hn (hnone id n), fun id n hn => absurd hn (hnone id n)⟩,
    fun id n hn => absurd hn (hnone id n), fun i j n hn => absurd hn (hnone i n)⟩,
    fun id n hn => absurd hn (hnone id n), fun n id => ?_, fun e he => absurd he not_mem_nil⟩
  exact iff_of_false not_mem_nil (hnone id n)

/-- The diagram that `try_build_bdd` returns is reduced and ordered, has the function of the
table at its root, and is small. -/
theorem tryBuildBdd_spec (hlen : tt.length = (2 ^ vars + 63) / 64) (htrue : ∃ i < 2 ^ vars, bit tt i = true)
    {root : Nat} {bdd : List BddNode} (hbuild : tryBuildBdd limit vars tt = some (root, bdd)) :
    Reduced bdd ∧ bdd.length ≤ 2 ^ vars + 1 ∧ root < bdd.length ∧ eval bdd root = tableFn 0 vars tt ∧
      ∀ id n, IsNode bdd id n → n.var < vars := by
  obtain ⟨⟨id, st⟩, hmade, heq⟩ := Option.map_eq_some_iff.mp hbuild
  obtain ⟨rfl, rfl⟩ := Prod.mk.inj heq
  have hhas := buildBdd_has vars tt _ (Nat.le_refl _) hlen ?_ (valid_start vars) id st hmade
  · rw [Nat.sub_self] at hhas
    have hsize := hhas.size_le
    have hpos : 0 < 2 ^ vars := Nat.pow_pos (by omega)
    refine ⟨hhas.valid.reduced, ?_, hhas.lt, hhas.eval_eq, hhas.valid.var_lt⟩
    simp only [length_cons, length_nil] at hsize
    dsimp only
    omega
  · intro hfalse
    obtain ⟨i, hi, htrue⟩ := htrue
    rw [hfalse i hi] at htrue
    cases htrue

end Build

end PhyEngine
