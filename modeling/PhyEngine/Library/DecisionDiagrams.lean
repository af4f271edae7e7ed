import PhyEngine.Library.PostOrder

/-!
# Ordered binary decision diagrams

A diagram is a list of nodes with edges to earlier entries; 0 and 1 are the constants. In a
reduced one different entries have different functions. A walk that builds it from its leaves
clashes when an else cofactor shows up first below the then cofactor beside it (`LateElse`), a
property of the function alone (`Reduced.clash_iff`).
-/

namespace DecisionDiagrams

open List

structure BddNode where
  var : Nat
  lo : Nat
  hi : Nat
  deriving DecidableEq

abbrev BoolFn := (Nat → Bool) → Bool

variable (f : BoolFn)

def cofactor (w : List Bool) : BoolFn := fun x => f fun i => (w[i]?).getD (x i)

/-- The functions that are left when some of the first variables are fixed. -/
def cofactors : Set BoolFn := fun g => ∃ w, g = cofactor f w

def Nonconstant : Prop := ∃ x y, f x ≠ f y

def IgnoresBelow (v : Nat) : Prop := ∀ x y, (∀ i, v ≤ i → x i = y i) → f x = f y

/-- After some variables are fixed to `w`, the else cofactor is not constant and is found below
the then cofactor, and was not found below a then cofactor beside the way before. -/
def LateElse : Prop := ∃ w, Nonconstant (cofactor f (w ++ [false])) ∧
  cofactor f (w ++ [false]) ≠ cofactor f (w ++ [true]) ∧
  cofactor f (w ++ [false]) ∈ cofactors (cofactor f (w ++ [true])) ∧
  ∀ u r, w = u ++ false :: r → cofactor f (w ++ [false]) ∉ cofactors (cofactor f (u ++ [true]))

section Cofactors

variable {f g h : BoolFn} {v : Nat} {w u : List Bool} {b : Bool}

@[simp] theorem cofactor_nil (f : BoolFn) : cofactor f [] = f := rfl

theorem cofactor_cofactor (f : BoolFn) (w u : List Bool) :
    cofactor (cofactor f w) u = cofactor f (w ++ u.drop w.length) := by
  funext x
  unfold cofactor
  congr 1
  funext i
  by_cases hi : i < w.length
  · rw [getElem?_append_left hi, getElem?_eq_getElem hi, Option.getD_some, Option.getD_some]
  · rw [getElem?_append_right (by omega), getElem?_eq_none (by omega), Option.getD_none,
      getElem?_drop, show w.length + (i - w.length) = i by omega]

theorem mem_cofactors_self (f : BoolFn) : f ∈ cofactors f := ⟨[], rfl⟩

theorem mem_cofactors_trans (hg : g ∈ cofactors f) (hh : h ∈ cofactors g) : h ∈ cofactors f := by
  obtain ⟨w, rfl⟩ := hg
  obtain ⟨u, rfl⟩ := hh
  exact ⟨_, cofactor_cofactor f w u⟩

theorem cofactor_append (f : BoolFn) (w : List Bool) (b : Bool) :
    cofactor f (w ++ [b]) = cofactor (cofactor f w) (w ++ [b]) := by
  rw [cofactor_cofactor, drop_left]

theorem IgnoresBelow.cofactor_eq (hf : IgnoresBelow f v) (hw : w.length ≤ v) : cofactor f w = f := by
  funext x
  refine hf _ _ fun i hi => ?_
  rw [getElem?_eq_none (by omega), Option.getD_none]

theorem Nonconstant.of_cofactor (h : Nonconstant (cofactor f w)) : Nonconstant f := by
  obtain ⟨x, y, hne⟩ := h
  exact ⟨_, _, hne⟩

end Cofactors

/-- The value of an entry, which a path of `fuel` edges finds. -/
def evalFrom (bdd : List BddNode) (x : Nat → Bool) : Nat → Nat → Bool
  | 0, _ => false
  | fuel + 1, id =>
    if id ≤ 1 then decide (id = 1)
    else
      match bdd[id]? with
      | none => false
      | some n => evalFrom bdd x fuel (if x n.var then n.hi else n.lo)

def eval (bdd : List BddNode) (id : Nat) : BoolFn := fun x => evalFrom bdd x (id + 1) id

structure IsNode (bdd : List BddNode) (id : Nat) (n : BddNode) : Prop where
  pos : 2 ≤ id
  get : bdd[id]? = some n

def Child (n : BddNode) (c : Nat) : Prop := c = n.lo ∨ c = n.hi

/-- Edges go to earlier entries, and to later variables. -/
structure Ordered (bdd : List BddNode) : Prop where
  terminals : 2 ≤ bdd.length
  lt : ∀ id n, IsNode bdd id n → ∀ c, Child n c → c < id
  var_lt : ∀ id n, IsNode bdd id n → ∀ c, Child n c → ∀ m, IsNode bdd c m → n.var < m.var

/-- A constant, or a node whose variable comes at `v` or later. -/
def AtOrAfter (bdd : List BddNode) (id v : Nat) : Prop := ∀ n, IsNode bdd id n → v ≤ n.var

structure Reduced (bdd : List BddNode) : Prop extends Ordered bdd where
  lo_ne_hi : ∀ id n, IsNode bdd id n → n.lo ≠ n.hi
  unique : ∀ i j n, IsNode bdd i n → IsNode bdd j n → i = j

section Diagrams

variable {bdd : List BddNode} {id a b c : Nat} {n m : BddNode} {x y : Nat → Bool}

theorem IsNode.lt (h : IsNode bdd id n) : id < bdd.length := (List.getElem?_eq_some_iff.mp h.get).1

theorem IsNode.eq (h : IsNode bdd id n) (h' : IsNode bdd id m) : n = m :=
  Option.some.inj (h.get.symm.trans h'.get)

theorem IsNode.atOrAfter (h : IsNode bdd id n) : AtOrAfter bdd id n.var := by
  intro m hm
  rw [h.eq hm]

theorem exists_isNode (hlt : id < bdd.length) (hpos : 2 ≤ id) : ∃ n, IsNode bdd id n :=
  ⟨bdd[id], hpos, getElem?_eq_getElem hlt⟩

@[simp] theorem eval_zero (bdd : List BddNode) : eval bdd 0 = fun _ => false := rfl

@[simp] theorem eval_one (bdd : List BddNode) : eval bdd 1 = fun _ => true := rfl

section

variable (h : Ordered bdd)
include h

theorem evalFrom_stable (x : Nat → Bool) (k : Nat) : ∀ id < k, ∀ j, k ≤ j →
    evalFrom bdd x j id = evalFrom bdd x k id := by
  induction k with
  | zero => intro id hid; omega
  | succ k ih =>
    intro id hid j hj
    obtain ⟨j, rfl⟩ : ∃ i, j = i + 1 := ⟨j - 1, by omega⟩
    simp only [evalFrom]
    by_cases hterm : id ≤ 1
    · rw [if_pos hterm, if_pos hterm]
    · rw [if_neg hterm, if_neg hterm]
      cases hget : bdd[id]? with
      | none => rfl
      | some n =>
        have hnode : IsNode bdd id n := ⟨by omega, hget⟩
        have hlo := h.lt id n hnode n.lo (.inl rfl)
        have hhi := h.lt id n hnode n.hi (.inr rfl)
        exact ih _ (by split <;> omega) j (by omega)

theorem eval_eq_evalFrom (x : Nat → Bool) {k : Nat} (hk : id < k) :
    eval bdd id x = evalFrom bdd x k id :=
  (evalFrom_stable h x (id + 1) id (Nat.lt_succ_self _) k hk).symm

theorem eval_node (hnode : IsNode bdd id n) (x : Nat → Bool) :
    eval bdd id x = if x n.var then eval bdd n.hi x else eval bdd n.lo x := by
  have hlo := h.lt id n hnode n.lo (.inl rfl)
  have hhi := h.lt id n hnode n.hi (.inr rfl)
  have hpos := hnode.pos
  rw [eval, evalFrom, if_neg (by omega), hnode.get]
  dsimp only
  rw [eval_eq_evalFrom h x hhi, eval_eq_evalFrom h x hlo]
  split <;> rfl

theorem eval_append (ext : List BddNode) (id : Nat) : id < bdd.length → Ordered (bdd ++ ext) →
    eval (bdd ++ ext) id = eval bdd id := by
  induction id using Nat.strong_induction_on with
  | _ id ih =>
    intro hlt h'
    by_cases hterm : id ≤ 1
    · rcases Nat.le_one_iff_eq_zero_or_eq_one.mp hterm with rfl | rfl <;> rfl
    · obtain ⟨n, hnode⟩ := exists_isNode hlt (by omega)
      have hnode' : IsNode (bdd ++ ext) id n := ⟨hnode.pos, by rw [getElem?_append_left hlt, hnode.get]⟩
      have hlo := h.lt id n hnode n.lo (.inl rfl)
      have hhi := h.lt id n hnode n.hi (.inr rfl)
      funext x
      rw [eval_node h hnode, eval_node h' hnode', ih n.lo hlo (by omega) h', ih n.hi hhi (by omega) h']

theorem Ordered.child_atOrAfter (hnode : IsNode bdd id n) (hc : Child n c) :
    AtOrAfter bdd c (n.var + 1) := fun m hm => h.var_lt id n hnode c hc m hm

theorem Ordered.ignoresBelow (id : Nat) : ∀ {v : Nat}, id < bdd.length → AtOrAfter bdd id v →
    IgnoresBelow (eval bdd id) v := by
  induction id using Nat.strong_induction_on with
  | _ id ih =>
    intro v hlt hv x y hxy
    by_cases hterm : id ≤ 1
    · rcases Nat.le_one_iff_eq_zero_or_eq_one.mp hterm with rfl | rfl <;> rfl
    · obtain ⟨n, hnode⟩ := exists_isNode hlt (by omega)
      have hvar := hv n hnode
      have hchild : ∀ c, Child n c → eval bdd c x = eval bdd c y := by
        intro c hc
        have hclt := h.lt id n hnode c hc
        refine ih c hclt (by omega) (h.child_atOrAfter hnode hc) x y fun i hi => hxy i (by omega)
      rw [eval_node h hnode, eval_node h hnode, hxy n.var hvar, hchild _ (.inl rfl), hchild _ (.inr rfl)]

end

theorem atOrAfter_const (hid : id ≤ 1) (v : Nat) : AtOrAfter bdd id v := by
  intro n hn
  have := hn.pos
  omega

/-- The successor that a value of the tested variable selects. -/
def BddNode.child (n : BddNode) (b : Bool) : Nat := if b then n.hi else n.lo

theorem BddNode.child_child (n : BddNode) (b : Bool) : Child n (n.child b) := by
  cases b
  · exact .inl rfl
  · exact .inr rfl

theorem Ordered.cofactor_eval (h : Ordered bdd) (hnode : IsNode bdd id n) {w : List Bool} (hw : w.length = n.var)
    (b : Bool) : cofactor (eval bdd id) (w ++ [b]) = eval bdd (n.child b) := by
  have hclt := h.lt id n hnode _ (n.child_child b)
  have hlt := hnode.lt
  have hignore := h.ignoresBelow _ (by omega) (h.child_atOrAfter hnode (n.child_child b))
  funext x
  have hvar : ((w ++ [b])[n.var]?).getD (x n.var) = b := by
    rw [getElem?_append_right (by omega), hw, Nat.sub_self]
    rfl
  have hchild : eval bdd (n.child b) (fun i => ((w ++ [b])[i]?).getD (x i)) = eval bdd (n.child b) x := by
    refine hignore _ _ fun i hi => ?_
    rw [getElem?_eq_none (by rw [length_append, length_singleton]; omega), Option.getD_none]
  rw [← hchild]
  unfold cofactor
  rw [eval_node h hnode, hvar]
  cases b <;> rfl

end Diagrams

namespace Reduced

variable {bdd : List BddNode} {id a b c : Nat} {n m : BddNode}

section

variable (h : Reduced bdd)
include h

theorem depends (hnode : IsNode bdd id n) (hne : eval bdd n.lo ≠ eval bdd n.hi) {v : Nat}
    (hv : n.var < v) : ¬ IgnoresBelow (eval bdd id) v := by
  intro hignore
  have hw : (replicate n.var false).length = n.var := length_replicate
  have hlo := h.toOrdered.cofactor_eval hnode hw false
  have hhi := h.toOrdered.cofactor_eval hnode hw true
  rw [hignore.cofactor_eq (by rw [length_append, hw, length_singleton]; omega)] at hlo hhi
  exact hne (hlo.symm.trans hhi)

theorem eq_of_eval_eq_of_lt (k : Nat) : ∀ i j, i < k → j < k → k ≤ bdd.length →
    eval bdd i = eval bdd j → i = j := by
  induction k with
  | zero => intro i j hi; omega
  | succ k ih =>
    intro i j hi hj hk heq
    have hdep : ∀ l n, l < k + 1 → IsNode bdd l n → ∀ v, n.var < v → ¬ IgnoresBelow (eval bdd l) v := by
      intro l n hl hnode v hv
      have hlo := h.lt l n hnode n.lo (.inl rfl)
      have hhi := h.lt l n hnode n.hi (.inr rfl)
      refine h.depends hnode (fun hc => h.lo_ne_hi l n hnode ?_) hv
      exact ih _ _ (by omega) (by omega) (by omega) hc
    have hignore : ∀ l v, l < k + 1 → AtOrAfter bdd l v → IgnoresBelow (eval bdd l) v :=
      fun l v hl hv => h.toOrdered.ignoresBelow l (by omega) hv
    by_cases hi1 : i ≤ 1
    · by_cases hj1 : j ≤ 1
      · have hvalue := congrFun heq fun _ => false
        rcases Nat.le_one_iff_eq_zero_or_eq_one.mp hi1 with rfl | rfl <;>
          rcases Nat.le_one_iff_eq_zero_or_eq_one.mp hj1 with rfl | rfl <;> simp_all
      · obtain ⟨m, hm⟩ := exists_isNode (show j < bdd.length by omega) (show 2 ≤ j by omega)
        have hconst := hignore i (m.var + 1) hi (atOrAfter_const hi1 _)
        rw [heq] at hconst
        exact absurd hconst (hdep j m hj hm _ (Nat.lt_succ_self _))
    · obtain ⟨n, hn⟩ := exists_isNode (show i < bdd.length by omega) (show 2 ≤ i by omega)
      by_cases hj1 : j ≤ 1
      · have hconst := hignore j (n.var + 1) hj (atOrAfter_const hj1 _)
        rw [← heq] at hconst
        exact absurd hconst (hdep i n hi hn _ (Nat.lt_succ_self _))
      · obtain ⟨m, hm⟩ := exists_isNode (show j < bdd.length by omega) (show 2 ≤ j by omega)
        have hvar : n.var = m.var := by
          rcases Nat.lt_trichotomy n.var m.var with hlt | heq' | hlt
          · have := hignore j m.var hj hm.atOrAfter
            rw [← heq] at this
            exact absurd this (hdep i n hi hn _ hlt)
          · exact heq'
          · have := hignore i n.var hi hn.atOrAfter
            rw [heq] at this
            exact absurd this (hdep j m hj hm _ hlt)
        have hw : (replicate n.var false).length = n.var := length_replicate
        have hchild : ∀ b, n.child b = m.child b := by
          intro b
          have hn' := h.toOrdered.cofactor_eval hn hw b
          have hm' := h.toOrdered.cofactor_eval hm (hw.trans hvar) b
          have hni := h.lt i n hn _ (n.child_child b)
          have hmj := h.lt j m hm _ (m.child_child b)
          refine ih _ _ (by omega) (by omega) (by omega) ?_
          rw [← hn', ← hm', heq]
        have hnode : n = m := by
          have hlo : n.lo = m.lo := hchild false
          have hhi : n.hi = m.hi := hchild true
          cases n
          cases m
          simp_all
        exact h.unique i j n hn (hnode ▸ hm)

theorem eq_of_eval_eq {i j : Nat} (hi : i < bdd.length) (hj : j < bdd.length)
    (heq : eval bdd i = eval bdd j) : i = j :=
  h.eq_of_eval_eq_of_lt bdd.length i j hi hj (Nat.le_refl _) heq

theorem nonconstant_iff (hid : id < bdd.length) : Nonconstant (eval bdd id) ↔ 2 ≤ id := by
  have hterm := h.terminals
  constructor
  · rintro ⟨x, y, hne⟩
    by_contra hlt
    rcases Nat.le_one_iff_eq_zero_or_eq_one.mp (show id ≤ 1 by omega) with rfl | rfl <;> exact hne rfl
  · intro hpos
    by_contra hconst
    have hall : ∀ x, eval bdd id x = eval bdd id fun _ => false := by
      intro x
      by_contra hne
      exact hconst ⟨x, _, hne⟩
    cases hvalue : eval bdd id fun _ => false with
    | false =>
      have := h.eq_of_eval_eq (j := 0) hid (by omega) (funext fun x => (hall x).trans hvalue)
      omega
    | true =>
      have := h.eq_of_eval_eq (j := 1) hid (by omega) (funext fun x => (hall x).trans hvalue)
      omega

end

end Reduced

section Adding

variable {bdd bdd' : List BddNode} {id : Nat} {n m : BddNode}

theorem isNode_append_singleton (hlen : 2 ≤ bdd.length) :
    IsNode (bdd ++ [m]) id n ↔ IsNode bdd id n ∨ (id = bdd.length ∧ n = m) := by
  constructor
  · rintro ⟨hpos, hget⟩
    by_cases hlt : id < bdd.length
    · rw [getElem?_append_left hlt] at hget
      exact .inl ⟨hpos, hget⟩
    · have hid := (List.getElem?_eq_some_iff.mp hget).1
      rw [length_append, length_singleton] at hid
      obtain rfl : id = bdd.length := by omega
      rw [getElem?_concat_length] at hget
      exact .inr ⟨rfl, (Option.some.inj hget).symm⟩
  · rintro (h | ⟨rfl, rfl⟩)
    · exact ⟨h.pos, by rw [getElem?_append_left h.lt, h.get]⟩
    · exact ⟨hlen, getElem?_concat_length⟩

theorem Reduced.add (h : Reduced bdd) (hlo : n.lo < bdd.length) (hhi : n.hi < bdd.length) (hne : n.lo ≠ n.hi)
    (hafter : ∀ c, Child n c → AtOrAfter bdd c (n.var + 1)) (hnew : ∀ id, ¬ IsNode bdd id n) :
    Reduced (bdd ++ [n]) := by
  have hlen := h.terminals
  have hclt : ∀ c, Child n c → c < bdd.length := by
    rintro c (rfl | rfl)
    · exact hlo
    · exact hhi
  refine ⟨⟨?_, ?_, ?_⟩, ?_, ?_⟩
  · rw [length_append]
    omega
  · intro id m hm c hc
    rcases (isNode_append_singleton hlen).mp hm with hm | ⟨rfl, rfl⟩
    · exact h.lt id m hm c hc
    · exact hclt c hc
  · intro id m hm c hc l hl
    rcases (isNode_append_singleton hlen).mp hm with hm' | ⟨rfl, rfl⟩
    · have hlt := h.lt id m hm' c hc
      rcases (isNode_append_singleton hlen).mp hl with hl | ⟨rfl, rfl⟩
      · exact h.var_lt id m hm' c hc l hl
      · have := hm'.lt
        omega
    · rcases (isNode_append_singleton hlen).mp hl with hl | ⟨rfl, rfl⟩
      · exact hafter c hc l hl
      · have := hclt _ hc
        omega
  · intro id m hm
    rcases (isNode_append_singleton hlen).mp hm with hm | ⟨rfl, rfl⟩
    · exact h.lo_ne_hi id m hm
    · exact hne
  · intro i j m hi hj
    rcases (isNode_append_singleton hlen).mp hi with hi | ⟨rfl, rfl⟩ <;>
      rcases (isNode_append_singleton hlen).mp hj with hj | ⟨rfl, heq⟩
    · exact h.unique i j m hi hj
    · exact absurd (heq ▸ hi) (hnew i)
    · exact absurd hj (hnew j)
    · rfl

theorem IsNode.extended (hpre : bdd <+: bdd') (hid : id < bdd.length) : IsNode bdd' id n ↔ IsNode bdd id n := by
  obtain ⟨ext, rfl⟩ := hpre
  constructor
  · rintro ⟨hpos, hget⟩
    exact ⟨hpos, by rwa [getElem?_append_left hid] at hget⟩
  · rintro ⟨hpos, hget⟩
    exact ⟨hpos, by rwa [getElem?_append_left hid]⟩

theorem AtOrAfter.extended {v : Nat} (h : AtOrAfter bdd id v) (hpre : bdd <+: bdd') (hid : id < bdd.length) :
    AtOrAfter bdd' id v := fun n hn => h n ((IsNode.extended hpre hid).mp hn)

theorem AtOrAfter.mono {v v' : Nat} (h : AtOrAfter bdd id v) (hv : v' ≤ v) : AtOrAfter bdd id v' :=
  fun n hn => Nat.le_trans hv (h n hn)

theorem eval_extended (h : Ordered bdd) (h' : Ordered bdd') (hpre : bdd <+: bdd') (hid : id < bdd.length) :
    eval bdd' id = eval bdd id := by
  obtain ⟨ext, rfl⟩ := hpre
  exact eval_append h ext id hid h'

end Adding

open PostOrder

def graph (bdd : List BddNode) : Graph Nat where
  leaf id := decide (id ≤ 1 ∨ bdd.length ≤ id)
  lo id := (bdd[id]?.map BddNode.lo).getD 0
  hi id := (bdd[id]?.map BddNode.hi).getD 0

section Graphs

variable {bdd : List BddNode} {id a b c : Nat} {n : BddNode}

theorem leaf_eq_false : (graph bdd).leaf id = false ↔ 2 ≤ id ∧ id < bdd.length := by
  rw [show (graph bdd).leaf id = decide (id ≤ 1 ∨ bdd.length ≤ id) from rfl, decide_eq_false_iff_not]
  omega

theorem exists_isNode_of_leaf (h : (graph bdd).leaf id = false) : ∃ n, IsNode bdd id n :=
  exists_isNode (leaf_eq_false.mp h).2 (leaf_eq_false.mp h).1

section

variable (h : IsNode bdd id n)
include h

theorem IsNode.leaf : (graph bdd).leaf id = false := leaf_eq_false.mpr ⟨h.pos, h.lt⟩

@[simp] theorem graph_lo : (graph bdd).lo id = n.lo := by simp [graph, h.get]

@[simp] theorem graph_hi : (graph bdd).hi id = n.hi := by simp [graph, h.get]

theorem edge_iff : (graph bdd).Edge id c ↔ Child n c := by
  rw [Graph.Edge, graph_lo h, graph_hi h, and_iff_right h.leaf]
  rfl

end

theorem Reduced.acyclic (h : Reduced bdd) : (graph bdd).Acyclic fun i => i := by
  constructor
  · intro x y hedge
    obtain ⟨n, hn⟩ := exists_isNode_of_leaf hedge.1
    exact h.lt x n hn y ((edge_iff hn).mp hedge)
  · intro x hx
    obtain ⟨n, hn⟩ := exists_isNode_of_leaf hx
    rw [graph_lo hn, graph_hi hn]
    exact h.lo_ne_hi x n hn

theorem exists_reach_of_cofactor (h : Ordered bdd) (a : Nat) : a < bdd.length → ∀ w, ∃ b, b < bdd.length ∧
    (graph bdd).Reach a b ∧ eval bdd b = cofactor (eval bdd a) w := by
  induction a using Nat.strong_induction_on with
  | _ a ih =>
    intro hlt w
    by_cases hterm : a ≤ 1
    · refine ⟨a, hlt, .refl, ?_⟩
      rcases Nat.le_one_iff_eq_zero_or_eq_one.mp hterm with rfl | rfl <;> rfl
    · obtain ⟨n, hn⟩ := exists_isNode hlt (show 2 ≤ a by omega)
      by_cases hw : w.length ≤ n.var
      · refine ⟨a, hlt, .refl, ?_⟩
        exact ((h.ignoresBelow a hlt hn.atOrAfter).cofactor_eq hw).symm
      · -- The tested variable is fixed, so that the cofactor is one of a successor.
        obtain ⟨u, v, r, rfl, hu⟩ : ∃ u v r, w = u ++ v :: r ∧ u.length = n.var :=
          ⟨w.take n.var, w[n.var], w.drop (n.var + 1), by
            rw [← drop_eq_getElem_cons (by omega), take_append_drop],
            length_take_of_le (by omega)⟩
        have hclt := h.lt a n hn _ (n.child_child v)
        obtain ⟨b, hb, hreach, heval⟩ := ih _ hclt (by omega) (u ++ v :: r)
        refine ⟨b, hb, .head ((edge_iff hn).mpr (n.child_child v)) hreach, ?_⟩
        rw [heval, ← h.cofactor_eval hn hu v, cofactor_cofactor]
        congr 1
        rw [show u ++ v :: r = (u ++ [v]) ++ r by simp, drop_left]

theorem mem_cofactors_of_reach (h : Ordered bdd) (ha : a < bdd.length) (hreach : (graph bdd).Reach a b) :
    b < bdd.length ∧ eval bdd b ∈ cofactors (eval bdd a) := by
  induction hreach with
  | refl => exact ⟨ha, mem_cofactors_self _⟩
  | @tail b' c' _ hedge ih =>
    obtain ⟨hlt, hmem⟩ := ih
    obtain ⟨n, hn⟩ := exists_isNode_of_leaf hedge.1
    have hchild := (edge_iff hn).mp hedge
    have hclt := h.lt b' n hn c' hchild
    refine ⟨by omega, mem_cofactors_trans hmem ?_⟩
    have hw : (replicate n.var false).length = n.var := length_replicate
    rcases hchild with rfl | rfl
    · exact ⟨_, (h.cofactor_eval hn hw false).symm⟩
    · exact ⟨_, (h.cofactor_eval hn hw true).symm⟩

theorem Reduced.mem_below_iff (h : Reduced bdd) (ha : a < bdd.length) (hb : b < bdd.length) :
    b ∈ (graph bdd).below a ↔ Nonconstant (eval bdd b) ∧ eval bdd b ∈ cofactors (eval bdd a) := by
  rw [Graph.mem_below, leaf_eq_false, and_iff_left hb, h.nonconstant_iff hb, and_congr_right_iff]
  intro _
  constructor
  · intro hreach
    exact (mem_cofactors_of_reach h.toOrdered ha hreach).2
  · rintro ⟨w, hw⟩
    obtain ⟨c, hc, hreach, heval⟩ := exists_reach_of_cofactor h.toOrdered a ha w
    obtain rfl := h.eq_of_eval_eq hb hc (hw.trans heval.symm)
    exact hreach

end Graphs

/-- What is built on the way along `w`: what is below the then cofactors beside it. -/
def builtBefore (bdd : List BddNode) (f : BoolFn) (w : List Bool) : Set Nat := fun b =>
  (graph bdd).leaf b = false ∧ ∃ u r, w = u ++ false :: r ∧ eval bdd b ∈ cofactors (cofactor f (u ++ [true]))

section Late

variable {bdd : List BddNode} {f : BoolFn} {id b : Nat} {n : BddNode} {w r : List Bool}

theorem eq_append_false_of_true (hr : ∀ b ∈ r, b = true) {u t : List Bool} (h : w ++ r = u ++ false :: t) :
    ∃ t', w = u ++ false :: t' := by
  rcases append_eq_append_iff.mp h with ⟨as, rfl, hr'⟩ | ⟨bs, rfl, ht⟩
  · have := hr false (by rw [hr']; simp)
    cases this
  · cases bs with
    | nil =>
      rw [nil_append] at ht
      have := hr false (by rw [← ht]; simp)
      cases this
    | cons c bs =>
      obtain ⟨rfl, -⟩ := List.cons.inj ht
      exact ⟨bs, rfl⟩

theorem builtBefore_append_true (bdd : List BddNode) (f : BoolFn) (w : List Bool) (hr : ∀ b ∈ r, b = true) :
    builtBefore bdd f (w ++ r) = builtBefore bdd f w := by
  refine Set.ext fun b => and_congr_right fun _ => ⟨?_, ?_⟩
  · rintro ⟨u, t, heq, hmem⟩
    obtain ⟨t', heq'⟩ := eq_append_false_of_true hr heq
    exact ⟨u, t', heq', hmem⟩
  · rintro ⟨u, t, heq, hmem⟩
    exact ⟨u, t ++ r, by rw [heq, append_assoc, cons_append], hmem⟩

theorem builtBefore_append_false (h : Reduced bdd) (hid : id < bdd.length)
    (heval : cofactor f (w ++ [true]) = eval bdd id) :
    builtBefore bdd f (w ++ [false]) = builtBefore bdd f w ∪ (graph bdd).below id := by
  ext b
  constructor
  · rintro ⟨hleaf, u, t, heq, hmem⟩
    rcases eq_nil_or_concat t with rfl | ⟨t, c, rfl⟩
    · obtain ⟨rfl, -⟩ := append_inj' heq rfl
      rw [heval] at hmem
      obtain ⟨hpos, hlt⟩ := leaf_eq_false.mp hleaf
      exact .inr ((h.mem_below_iff hid hlt).mpr ⟨(h.nonconstant_iff hlt).mpr hpos, hmem⟩)
    · rw [concat_eq_append, ← cons_append, ← append_assoc] at heq
      obtain ⟨rfl, -⟩ := append_inj' heq rfl
      exact .inl ⟨hleaf, u, t, rfl, hmem⟩
  · rintro (⟨hleaf, u, t, heq, hmem⟩ | hb)
    · exact ⟨hleaf, u, t ++ [false], by rw [heq, append_assoc, cons_append], hmem⟩
    · refine ⟨hb.1, w, [], rfl, ?_⟩
      rw [heval]
      exact ((h.mem_below_iff hid (leaf_eq_false.mp hb.1).2).mp hb).2

theorem cofactor_append_of_le (h : Ordered bdd) (hn : IsNode bdd id n) (heval : cofactor f w = eval bdd id)
    (hle : (w ++ r).length ≤ n.var) : cofactor f (w ++ r) = eval bdd id := by
  have hsplit := cofactor_cofactor f w (w ++ r)
  rw [drop_left] at hsplit
  rw [← hsplit, heval]
  exact (h.ignoresBelow id hn.lt hn.atOrAfter).cofactor_eq hle

theorem cofactor_append_child (h : Ordered bdd) (hn : IsNode bdd id n) (heval : cofactor f w = eval bdd id)
    (hw : w.length = n.var) (b : Bool) : cofactor f (w ++ [b]) = eval bdd (n.child b) := by
  rw [cofactor_append, heval]
  exact h.cofactor_eval hn hw b

theorem lateElse_of_clash (h : Reduced bdd) {D : Set Nat} (hclash : (graph bdd).Clash D id) :
    ∀ w, cofactor f w = eval bdd id → AtOrAfter bdd id w.length → D = builtBefore bdd f w → LateElse f := by
  -- The way is prolonged up to the variable of the node.
  have hway : ∀ {id : Nat} {n : BddNode} {w : List Bool}, IsNode bdd id n → cofactor f w = eval bdd id →
      AtOrAfter bdd id w.length → ∃ w', cofactor f w' = eval bdd id ∧ w'.length = n.var ∧
        builtBefore bdd f w' = builtBefore bdd f w := by
    intro id n w hn heval hafter
    have hle := hafter n hn
    have hlen : (w ++ replicate (n.var - w.length) true).length = n.var := by
      rw [length_append, length_replicate]
      omega
    exact ⟨_, cofactor_append_of_le h.toOrdered hn heval hlen.le, hlen,
      builtBefore_append_true bdd f w fun b hb => eq_of_mem_replicate hb⟩
  have hafter : ∀ {id c : Nat} {n : BddNode} {w : List Bool} (b : Bool), IsNode bdd id n → w.length = n.var →
      Child n c → AtOrAfter bdd c (w ++ [b]).length := by
    intro id c n w b hn hw hc
    rw [length_append, hw]
    exact h.toOrdered.child_atOrAfter hn hc
  induction hclash with
  | @here D id hx _ hmissing hbelow =>
    intro w heval hid hD
    obtain ⟨n, hn⟩ := exists_isNode_of_leaf hx
    obtain ⟨w', heval', hw', hsame⟩ := hway hn heval hid
    have hlo : cofactor f (w' ++ [false]) = eval bdd n.lo := cofactor_append_child h.toOrdered hn heval' hw' false
    have hhi : cofactor f (w' ++ [true]) = eval bdd n.hi := cofactor_append_child h.toOrdered hn heval' hw' true
    rw [graph_lo hn] at hmissing hbelow
    rw [graph_hi hn] at hbelow
    have hltlo := (leaf_eq_false.mp hbelow.1).2
    have hlthi : n.hi < bdd.length := by
      have := h.lt id n hn n.hi (.inr rfl)
      have := hn.lt
      omega
    obtain ⟨hnc, hmem⟩ := (h.mem_below_iff hlthi hltlo).mp hbelow
    rw [← hlo, ← hhi] at hmem
    rw [← hlo] at hnc
    refine ⟨w', hnc, fun heq => ?_, hmem, fun u t hsplit hbefore => hmissing ?_⟩
    · rw [hlo, hhi] at heq
      exact h.lo_ne_hi id n hn (h.eq_of_eval_eq hltlo hlthi heq)
    · rw [hD, ← hsame]
      rw [hlo] at hbefore
      exact ⟨hbelow.1, u, t, hsplit, hbefore⟩
  | @hi D id hx _ _ ih =>
    intro w heval hid hD
    obtain ⟨n, hn⟩ := exists_isNode_of_leaf hx
    obtain ⟨w', heval', hw', hsame⟩ := hway hn heval hid
    rw [graph_hi hn] at ih
    refine ih (w' ++ [true]) (cofactor_append_child h.toOrdered hn heval' hw' true) (hafter true hn hw' (.inr rfl)) ?_
    rw [hD, ← hsame]
    exact (builtBefore_append_true bdd f w' (by simp)).symm
  | @lo D id hx _ _ ih =>
    intro w heval hid hD
    obtain ⟨n, hn⟩ := exists_isNode_of_leaf hx
    obtain ⟨w', heval', hw', hsame⟩ := hway hn heval hid
    have hlthi : n.hi < bdd.length := by
      have := h.lt id n hn n.hi (.inr rfl)
      have := hn.lt
      omega
    rw [graph_lo hn, graph_hi hn] at ih
    refine ih (w' ++ [false]) (cofactor_append_child h.toOrdered hn heval' hw' false) (hafter false hn hw' (.inl rfl))
      ?_
    rw [hD, ← hsame]
    exact (builtBefore_append_false h hlthi (cofactor_append_child h.toOrdered hn heval' hw' true)).symm

theorem clash_of_late (h : Reduced bdd) {w : List Bool} (hnc : Nonconstant (cofactor f (w ++ [false])))
    (hne : cofactor f (w ++ [false]) ≠ cofactor f (w ++ [true]))
    (hmem : cofactor f (w ++ [false]) ∈ cofactors (cofactor f (w ++ [true])))
    (hfirst : ∀ u r, w = u ++ false :: r → cofactor f (w ++ [false]) ∉ cofactors (cofactor f (u ++ [true])))
    (r : List Bool) : ∀ (p : List Bool) (id : Nat), w = p ++ r → id < bdd.length → cofactor f p = eval bdd id →
      AtOrAfter bdd id p.length → (graph bdd).Clash (builtBefore bdd f p) id := by
  -- The late cofactor is one of every function on the way.
  have hbelow : ∀ p r, w = p ++ r → cofactor f (w ++ [false]) ∈ cofactors (cofactor f p) := by
    rintro p r rfl
    refine ⟨(p ++ r) ++ [false], ?_⟩
    rw [cofactor_cofactor, append_assoc, drop_left]
  have hnode : ∀ p r id, w = p ++ r → id < bdd.length → cofactor f p = eval bdd id →
      (∃ n, IsNode bdd id n) ∧ id ∉ builtBefore bdd f p := by
    intro p r id hsplit hid heval
    have hlate := hbelow p r hsplit
    rw [heval] at hlate
    constructor
    · obtain ⟨u, hu⟩ := hlate
      rw [hu] at hnc
      exact exists_isNode hid ((h.nonconstant_iff hid).mp hnc.of_cofactor)
    · rintro ⟨-, u, t, hp, hbefore⟩
      refine hfirst u (t ++ r) ?_ (mem_cofactors_trans hbefore hlate)
      rw [hsplit, hp, append_assoc, cons_append]
  induction r with
  | nil =>
    intro p id hsplit hid heval hafter
    obtain ⟨⟨n, hn⟩, hnew⟩ := hnode p [] id hsplit hid heval
    rw [append_nil] at hsplit
    subst hsplit
    have hw : w.length = n.var := by
      by_contra hlt
      have hle := hafter n hn
      have hsame : ∀ b, cofactor f (w ++ [b]) = eval bdd id := fun b =>
        cofactor_append_of_le h.toOrdered hn heval (by rw [length_append, length_singleton]; omega)
      exact hne ((hsame false).trans (hsame true).symm)
    have hlo := cofactor_append_child h.toOrdered hn heval hw false
    have hhi := cofactor_append_child h.toOrdered hn heval hw true
    have hltlo := h.lt id n hn _ (n.child_child false)
    have hlthi := h.lt id n hn _ (n.child_child true)
    refine .here hn.leaf hnew ?_ ?_
    · rw [graph_lo hn]
      rintro ⟨-, u, t, hp, hbefore⟩
      rw [hlo] at hfirst
      exact hfirst u t hp hbefore
    · rw [graph_lo hn, graph_hi hn]
      rw [hlo] at hnc hmem
      rw [hhi] at hmem
      exact (h.mem_below_iff (show n.child true < _ by omega) (show n.child false < _ by omega)).mpr ⟨hnc, hmem⟩
  | cons b r ih =>
    intro p id hsplit hid heval hafter
    obtain ⟨⟨n, hn⟩, hnew⟩ := hnode p (b :: r) id hsplit hid heval
    have hsplit' : w = (p ++ [b]) ++ r := by rw [hsplit, append_assoc, singleton_append]
    have hle := hafter n hn
    have hlen : ∀ b : Bool, (p ++ [b]).length = p.length + 1 := fun b => by
      rw [length_append, length_singleton]
    by_cases hlt : p.length < n.var
    · have hsame : ∀ b, cofactor f (p ++ [b]) = eval bdd id := fun b =>
        cofactor_append_of_le h.toOrdered hn heval (by rw [hlen]; omega)
      cases b with
      | false =>
        refine absurd ?_ (hfirst p r hsplit)
        have := hbelow (p ++ [false]) r hsplit'
        rwa [hsame false, ← hsame true] at this
      | true =>
        have hclash := ih (p ++ [true]) id hsplit' hid (hsame true) (by
          intro m hm
          rw [hlen, hm.eq hn]
          omega)
        rwa [builtBefore_append_true bdd f p (by simp)] at hclash
    · have hw : p.length = n.var := by omega
      have hclt := h.lt id n hn _ (n.child_child b)
      have hclash := ih (p ++ [b]) (n.child b) hsplit' (by omega)
        (cofactor_append_child h.toOrdered hn heval hw b) (by
          rw [hlen, hw]
          exact h.toOrdered.child_atOrAfter hn (n.child_child b))
      cases b with
      | false =>
        have hlthi := h.lt id n hn _ (n.child_child true)
        refine .lo hn.leaf hnew ?_
        rw [builtBefore_append_false h (show n.child true < _ by omega)
          (cofactor_append_child h.toOrdered hn heval hw true)] at hclash
        rw [graph_lo hn, graph_hi hn]
        exact hclash
      | true =>
        refine .hi hn.leaf hnew ?_
        rw [builtBefore_append_true bdd f p (by simp)] at hclash
        rw [graph_hi hn]
        exact hclash

theorem Reduced.clash_iff (h : Reduced bdd) (hid : id < bdd.length) :
    (graph bdd).Clash ∅ id ↔ LateElse (eval bdd id) := by
  have hempty : builtBefore bdd (eval bdd id) [] = ∅ := by
    refine Set.eq_empty_of_forall_notMem ?_
    rintro b ⟨-, u, r, hnil, -⟩
    simp at hnil
  constructor
  · intro hclash
    exact lateElse_of_clash h hclash [] rfl (fun _ _ => Nat.zero_le _) hempty.symm
  · rintro ⟨w, hnc, hne, hmem, hfirst⟩
    have hclash := clash_of_late h hnc hne hmem hfirst w [] id rfl hid rfl fun _ _ => Nat.zero_le _
    rwa [hempty] at hclash

end Late

end DecisionDiagrams
