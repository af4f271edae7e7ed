import PhyEngine.Verilog.ExprSound

/-!
# Interned nodes and memoised evaluation

The arena that `add_node` builds: operands come before the nodes that use them, no node is
there twice, and folding keeps the values. `eval_expr_cached` keeps a memo behind a token
that wraps around; what it returns is what `eval_expr` returns.
-/

namespace PhyEngine.Verilog

open LogicT List ModuleState

/-- Builders that come from one without nodes by `add_node`, below the node limit, with operands
that an earlier call has returned. In between names and constants may be declared. -/
inductive Constructed : ExprBuilder → Prop where
  | start {m : ExprBuilder} : m.exprNodes = [] → Constructed m
  | declare {m m' : ExprBuilder} : Constructed m → m'.exprNodes = m.exprNodes → Constructed m'
  | add {m : ExprBuilder} {n : ExprNode} : Constructed m → (∀ c ∈ n.children, c < m.size) →
      (addNode n m).2.errors = m.errors → Constructed (addNode n m).2

/-- A valuation in which the constants that may be folded have their values. -/
def ConstantsHold (m : ExprBuilder) (values : List LogicT) : Prop :=
  ∀ s, s < m.signalIsConst.length → s < m.signalConstValue.length → m.signalIsConst.getD s false = true →
    m.signalIsConstFoldable.getD s false = true → values.getD s .X = m.signalConstValue.getD s .X

theorem addNode_cases (n : ExprNode) (m : ExprBuilder) (hquiet : (addNode n m).2.errors = m.errors) :
    (∃ i, m.exprNodes[i]? = some (m.foldNode n) ∧ addNode n m = (i, m)) ∨
      (m.foldNode n ∉ m.exprNodes ∧
        addNode n m = (m.exprNodes.length, { m with exprNodes := m.exprNodes ++ [m.foldNode n] })) := by
  have hrun : addNode n m = internNode (m.foldNode n) m := rfl
  obtain ⟨i, hi, h⟩ | h | h := internNode_cases (m.foldNode n) m
  · exact .inl ⟨i, hi, hrun.trans h⟩
  · rw [hrun, h] at hquiet
    exact absurd hquiet (by simp)
  · exact .inr ⟨h.1, hrun.trans h.2⟩

theorem children_foldNode (m : ExprBuilder) (n : ExprNode) : ∀ c ∈ (m.foldNode n).children, c ∈ n.children := by
  cases n with
  | signal s =>
    dsimp only [ExprBuilder.foldNode]
    split_ifs
    · exact fun c hc => by cases hc
    · exact fun c hc => hc
  | literal v | isUnknown a | unaryNot a | binaryAnd a b | binaryOr a b | binaryXor a b | binaryEq a b | binaryNeq a b
  | binaryCaseEq a b => exact (foldNode_spec (N := m.exprNodes) [] (prefix_refl _) fun s => by simp).2

variable {m : ExprBuilder}

variable {N : List ExprNode}

theorem combine_foldNode (hpre : m.exprNodes <+: N) {values : List LogicT}
    (hconst : ConstantsHold m values) (n : ExprNode) :
    (m.foldNode n).combine values (rootVal N values) = n.combine values (rootVal N values) := by
  cases n with
  | signal s =>
    dsimp only [ExprBuilder.foldNode]
    split_ifs with h
    · exact (hconst s h.1 h.2.1 h.2.2.1 h.2.2.2).symm
    · rfl
  | literal v | isUnknown a | unaryNot a | binaryAnd a b | binaryOr a b | binaryXor a b | binaryEq a b | binaryNeq a b
  | binaryCaseEq a b => exact (foldNode_spec values hpre fun s => by simp).1

theorem Constructed.arena (h : Constructed m) : OperandsFirst m.exprNodes ∧ m.exprNodes.Nodup := by
  induction h with
  | @start m hnil =>
    rw [hnil]
    refine ⟨fun i n hn => ?_, nodup_nil⟩
    cases hn
  | declare _ heq ih => rwa [heq]
  | @add m n _ hops hquiet ih =>
    obtain ⟨hord, hnodup⟩ := ih
    obtain ⟨i, -, hrun⟩ | ⟨hnew, hrun⟩ := addNode_cases n m hquiet
    · rw [hrun]
      exact ⟨hord, hnodup⟩
    · rw [hrun]
      refine ⟨hord.concat fun c hc => hops c (children_foldNode m n c hc), ?_⟩
      exact nodup_append.mpr ⟨hnodup, nodup_singleton _, fun a ha b hb => by
        rw [mem_singleton.mp hb]
        exact fun heq => hnew (heq ▸ ha)⟩

theorem rootVal_addNode (h : Constructed m) {n : ExprNode} (hops : ∀ c ∈ n.children, c < m.size)
    (hquiet : (addNode n m).2.errors = m.errors) (hpre : (addNode n m).2.exprNodes <+: N)
    {values : List LogicT} (hconst : ConstantsHold m values) :
    rootVal N values (addNode n m).1 = n.combine values (rootVal N values) := by
  have hord := (Constructed.add h hops hquiet).arena.1
  obtain ⟨i, hi, hrun⟩ | ⟨-, hrun⟩ := addNode_cases n m hquiet
  · rw [hrun] at hpre hord ⊢
    rw [rootVal_of_getElem values hord hpre hi, combine_foldNode hpre hconst]
  · have hmpre : m.exprNodes <+: N := by
      rw [hrun] at hpre
      exact (prefix_append _ _).trans hpre
    rw [hrun] at hpre hord ⊢
    have hlast : (m.exprNodes ++ [m.foldNode n])[m.exprNodes.length]? = some (m.foldNode n) := by simp
    rw [rootVal_of_getElem values hord hpre hlast, combine_foldNode hmpre hconst]

/-- `expr_eval_cache`, `expr_eval_mark` and `expr_eval_token` of `module_state`. -/
structure EvalMemo where
  cache : List LogicT := []
  mark : List UInt32 := []
  token : UInt32 := 1
  deriving DecidableEq

variable (memo : EvalMemo)

def EvalMemo.marked (r : Nat) : EvalMemo := { memo with mark := memo.mark.set r memo.token }

def EvalMemo.stored (r : Nat) (v : LogicT) : EvalMemo := { memo with cache := memo.cache.set r v }

/-- The switch of `eval_expr_cached` over the kinds of nodes. -/
def memoNode (values : List LogicT) (eval : Nat → StateM EvalMemo LogicT) (n : ExprNode) : StateM EvalMemo LogicT :=
  let unary (f : LogicT → LogicT) (a : Nat) : StateM EvalMemo LogicT := do
    let x ← eval a
    pure (f x)
  let binary (f : LogicT → LogicT → LogicT) (a b : Nat) : StateM EvalMemo LogicT := do
    let x ← eval a
    let y ← eval b
    pure (f x y)
  match n with
  | .literal v => pure v
  | .signal s => pure (values.getD s .X)
  | .isUnknown a => unary (fun x => ofBool x.isUnknown) a
  | .unaryNot a => unary logicNot a
  | .binaryAnd a b => binary logicAnd a b
  | .binaryOr a b => binary logicOr a b
  | .binaryXor a b => binary logicXor a b
  | .binaryEq a b => binary logicEq a b
  | .binaryNeq a b => binary logicNeq a b
  | .binaryCaseEq a b => binary caseEq a b

def memoEval (nodes : List ExprNode) (values : List LogicT) : Nat → Nat → StateM EvalMemo LogicT
  | 0, _ => pure .X
  | depth + 1, r => do
    let memo ← get
    match nodes[r]? with
    | none => pure .X
    | some n =>
      if memo.mark.getD r 0 = memo.token then pure (memo.cache.getD r .X)
      else
        set (memo.marked r)
        let v ← memoNode values (memoEval nodes values depth) n
        modify fun memo => memo.stored r v
        pure v

def EvalMemo.room (size : Nat) : EvalMemo :=
  if memo.cache.length < size then
    { memo with cache := grow memo.cache size .L, mark := grow memo.mark size 0 }
  else memo

/-- A new token; when it wraps around, all marks are cleared. -/
def EvalMemo.nextToken : EvalMemo :=
  if memo.token + 1 = 0 then { memo with token := 1, mark := memo.mark.map fun _ => 0 }
  else { memo with token := memo.token + 1 }

def evalExprCached (nodes : List ExprNode) (root : Nat) (values : List LogicT) : StateM EvalMemo LogicT := do
  if nodes.length ≤ root then pure .X
  else
    modify fun memo => (memo.room nodes.length).nextToken
    memoEval nodes values (root + 1) root

def EvalMemo.SoundAt (nodes : List ExprNode) (values : List LogicT) (memo : EvalMemo) (r : Nat) : Prop :=
  memo.mark.getD r 0 = memo.token → memo.cache.getD r .X = rootVal nodes values r

structure Below (nodes : List ExprNode) (values : List LogicT) (n : Nat) (memo memo' : EvalMemo) : Prop where
  token : memo'.token = memo.token
  room : memo'.cache.length = memo.cache.length
  marks : ∀ r, memo'.mark.getD r 0 = memo.mark.getD r 0 ∨ memo'.mark.getD r 0 = memo.token
  above : ∀ r, n ≤ r → memo'.mark.getD r 0 = memo.mark.getD r 0 ∧ memo'.cache.getD r .X = memo.cache.getD r .X
  sound : (∀ r < n, memo.SoundAt nodes values r) → ∀ r < n, memo'.SoundAt nodes values r

section
variable {nodes : List ExprNode} {values : List LogicT} {n : Nat}

theorem Below.refl (memo : EvalMemo) : Below nodes values n memo memo :=
  ⟨rfl, rfl, fun _ => .inl rfl, fun _ _ => ⟨rfl, rfl⟩, fun h => h⟩

variable {a b : EvalMemo}

theorem Below.trans {c : EvalMemo} (h : Below nodes values n a b) (h' : Below nodes values n b c) :
    Below nodes values n a c := by
  refine ⟨h'.token.trans h.token, h'.room.trans h.room, fun r => ?_, fun r hr => ?_, fun hs => h'.sound (h.sound hs)⟩
  · rcases h'.marks r with he | he
    · rw [he]
      exact h.marks r
    · exact .inr (he.trans h.token)
  · obtain ⟨hm, hc⟩ := h.above r hr
    obtain ⟨hm', hc'⟩ := h'.above r hr
    exact ⟨hm'.trans hm, hc'.trans hc⟩

theorem Below.mono {k : Nat} (h : Below nodes values k a b) (hk : k ≤ n) : Below nodes values n a b := by
  refine ⟨h.token, h.room, h.marks, fun r hr => h.above r (hk.trans hr), fun hs r hr => ?_⟩
  by_cases hrk : r < k
  · exact h.sound (fun j hj => hs j (by omega)) r hrk
  · obtain ⟨hm, hc⟩ := h.above r (by omega)
    intro hmark
    rw [hm, h.token] at hmark
    rw [hc, hs r hr hmark]

variable {r : Nat}

variable {e : ExprNode} {depth : Nat}

theorem memoEval_succ (he : nodes[r]? = some e) (memo : EvalMemo) :
    memoEval nodes values (depth + 1) r memo =
      if memo.mark.getD r 0 = memo.token then (memo.cache.getD r .X, memo)
      else
        let x := memoNode values (memoEval nodes values depth) e (memo.marked r)
        (x.1, x.2.stored r x.1) := by
  show (match nodes[r]? with
    | none => (pure .X : StateM EvalMemo LogicT)
    | some n => _) memo = _
  rw [he]
  dsimp only
  split_ifs <;> rfl

def Evaluates (nodes : List ExprNode) (values : List LogicT) (n : Nat) (x : StateM EvalMemo LogicT)
    (v : LogicT) : Prop :=
  ∀ memo : EvalMemo, nodes.length ≤ memo.cache.length → (∀ r < n, memo.SoundAt nodes values r) →
    (x memo).1 = v ∧ Below nodes values n memo (x memo).2

theorem Evaluates.pure (v : LogicT) : Evaluates nodes values n (pure v) v := fun memo _ _ => ⟨rfl, .refl memo⟩

theorem Evaluates.bind {x : StateM EvalMemo LogicT} {f : LogicT → StateM EvalMemo LogicT} {v w : LogicT}
    (hx : Evaluates nodes values n x v) (hf : Evaluates nodes values n (f v) w) :
      Evaluates nodes values n (x >>= f) w := by
  intro memo hroom hs
  obtain ⟨hv, hbelow⟩ := hx memo hroom hs
  obtain ⟨hw, hbelow'⟩ := hf (x memo).2 (hbelow.room ▸ hroom) (hbelow.sound hs)
  have hrun : (x >>= f) memo = f v (x memo).2 := congrArg (fun v => f v (x memo).2) hv
  rw [hrun]
  exact ⟨hw, hbelow.trans hbelow'⟩

theorem evaluates_memoNode {eval : Nat → StateM EvalMemo LogicT} {val : Nat → LogicT}
    (h : ∀ c ∈ e.children, Evaluates nodes values n (eval c) (val c)) :
    Evaluates nodes values n (memoNode values eval e) (e.combine values val) := by
  cases e with
  | literal v => exact .pure v
  | signal s => exact .pure _
  | isUnknown a | unaryNot a =>
    have ha := h a (by simp [ExprNode.children])
    exact ha.bind (.pure _)
  | binaryAnd a b | binaryOr a b | binaryXor a b | binaryEq a b | binaryNeq a b | binaryCaseEq a b =>
    have ha := h a (by simp [ExprNode.children])
    have hb := h b (by simp [ExprNode.children])
    exact ha.bind (hb.bind (.pure _))

theorem getD_marked (memo : EvalMemo) (r j : Nat) :
    (memo.marked r).mark.getD j 0 = memo.mark.getD j 0 ∨ (j = r ∧ (memo.marked r).mark.getD j 0 = memo.token) := by
  rw [EvalMemo.marked, getD_eq_getElem?_getD, getD_eq_getElem?_getD, getElem?_set]
  split_ifs with heq hlt
  · exact .inr ⟨heq.symm, rfl⟩
  · left
    rw [← heq, getElem?_eq_none (Nat.le_of_not_lt hlt)]
  · exact .inl rfl

theorem getD_stored_ne (memo : EvalMemo) {j : Nat} (h : j ≠ r) (v : LogicT) :
    (memo.stored r v).cache.getD j .X = memo.cache.getD j .X := by
  rw [EvalMemo.stored, getD_eq_getElem?_getD, getElem?_set_ne h.symm, ← getD_eq_getElem?_getD]

theorem getD_stored (memo : EvalMemo) (h : r < memo.cache.length) (v : LogicT) :
    (memo.stored r v).cache.getD r .X = v := by
  rw [EvalMemo.stored, getD_eq_getElem?_getD, getElem?_set_self h, Option.getD_some]

variable {memo : EvalMemo}

theorem Below.stored {memo' : EvalMemo} (h : Below nodes values r (memo.marked r) memo') (hlt : r < memo.cache.length) :
    Below nodes values (r + 1) memo (memo'.stored r (rootVal nodes values r)) := by
  refine ⟨h.token, ?_, fun j => ?_, fun j hj => ?_, fun hs j hj hmark => ?_⟩
  · rw [EvalMemo.stored, length_set]
    exact h.room
  · show memo'.mark.getD j 0 = _ ∨ memo'.mark.getD j 0 = _
    rcases h.marks j with he | he
    · rw [he]
      exact (getD_marked memo r j).imp_right And.right
    · exact .inr he
  · obtain ⟨hm, hc⟩ := h.above j (by omega)
    rw [getD_stored_ne memo' (by omega)]
    refine ⟨hm.trans ?_, hc⟩
    rcases getD_marked memo r j with he | ⟨he, -⟩
    · exact he
    · omega
  · by_cases hjr : j = r
    · rw [hjr]
      exact getD_stored memo' (by rw [h.room]; exact hlt) _
    · rw [getD_stored_ne memo' hjr]
      refine h.sound (fun i hi hi' => hs i (by omega) ?_) j (by omega) hmark
      rcases getD_marked memo r i with he | ⟨he, -⟩
      · rw [← he]
        exact hi'
      · omega

theorem evaluates_memoEval (hord : OperandsFirst nodes) (hr : r < depth) :
    Evaluates nodes values (r + 1) (memoEval nodes values depth r) (rootVal nodes values r) := by
  induction depth generalizing r with
  | zero => omega
  | succ depth ih =>
    intro memo hroom hs
    cases he : nodes[r]? with
    | none =>
      have hrun : memoEval nodes values (depth + 1) r memo = (.X, memo) := by
        show (match nodes[r]? with
          | none => (pure .X : StateM EvalMemo LogicT)
          | some n => _) memo = _
        rw [he]
        rfl
      have hval : rootVal nodes values r = .X := by
        rw [rootVal, evalNode, he]
      rw [hrun, hval]
      exact ⟨rfl, .refl memo⟩
    | some e =>
      have hlt : r < nodes.length := (List.getElem?_eq_some_iff.mp he).1
      rw [memoEval_succ he]
      split_ifs with hmark
      · exact ⟨hs r (Nat.lt_succ_self r) hmark, .refl memo⟩
      · -- The operands are evaluated with the node already marked.
        have hops : ∀ c ∈ e.children, Evaluates nodes values r (memoEval nodes values depth c)
          (rootVal nodes values c) := by
          intro c hc memo' hroom' hs'
          have hcr : c < r := hord r e he c hc
          obtain ⟨hv, hbelow⟩ := @ih c (by omega) memo' hroom' fun j hj => hs' j (by omega)
          exact ⟨hv, hbelow.mono (by omega)⟩
        have hmarked : ∀ j < r, (memo.marked r).SoundAt nodes values j := by
          intro j hj hj'
          rcases getD_marked memo r j with h | ⟨h, -⟩
          · exact hs j (by omega) (h ▸ hj')
          · omega
        obtain ⟨hv, hbelow⟩ := evaluates_memoNode hops (memo.marked r) hroom hmarked
        have hval : rootVal nodes values r = e.combine values (rootVal nodes values) :=
          rootVal_of_getElem values hord (prefix_refl _) he
        rw [← hval] at hv
        dsimp only
        rw [hv]
        exact ⟨rfl, hbelow.stored (by exact hlt.trans_le hroom)⟩

def EvalMemo.Fresh (memo : EvalMemo) : Prop := ∀ r, memo.mark.getD r 0 ≤ memo.token

theorem getD_grow_zero (marks : List UInt32) (size r : Nat) :
    (grow marks size 0).getD r 0 = marks.getD r 0 := by
  rw [grow]
  rcases Nat.lt_or_ge r marks.length with h | h
  · rw [getD_append _ _ _ _ h]
  · rw [getD_append_right _ _ _ _ h, getD_eq_default _ _ h, getD_eq_getElem?_getD, getElem?_replicate]
    split_ifs <;> rfl

theorem EvalMemo.Fresh.room (h : memo.Fresh) (size : Nat) :
    size ≤ (memo.room size).cache.length ∧ (memo.room size).Fresh := by
  rw [EvalMemo.room]
  split_ifs with hsmall
  · refine ⟨?_, fun r => ?_⟩
    · dsimp only
      rw [grow, length_append, length_replicate]
      omega
    · dsimp only
      rw [getD_grow_zero]
      exact h r
  · exact ⟨Nat.le_of_not_lt hsmall, h⟩

theorem EvalMemo.Fresh.nextToken (h : memo.Fresh) (r : Nat) :
    memo.nextToken.mark.getD r 0 < memo.nextToken.token := by
  rw [EvalMemo.nextToken]
  split_ifs with hwrap
  · have hzero : (memo.mark.map fun _ => (0 : UInt32)).getD r 0 = 0 := by
      rw [getD_eq_getElem?_getD, getElem?_map]
      cases memo.mark[r]? <;> rfl
    dsimp only
    rw [hzero]
    decide
  · have hle := UInt32.le_iff_toNat_le.mp (h r)
    have hlt := memo.token.toNat_lt
    have hone : (1 : UInt32).toNat = 1 := rfl
    have hzero : (0 : UInt32).toNat = 0 := rfl
    rw [← UInt32.toNat_inj, UInt32.toNat_add] at hwrap
    dsimp only
    rw [UInt32.lt_iff_toNat_lt, UInt32.toNat_add]
    omega

theorem length_nextToken (memo : EvalMemo) : memo.nextToken.cache.length = memo.cache.length := by
  rw [EvalMemo.nextToken]
  split_ifs <;> rfl

theorem evalExprCached_eq (hord : OperandsFirst nodes) (root : Nat) (values : List LogicT) (h : memo.Fresh) :
    (evalExprCached nodes root values memo).1 = rootVal nodes values root ∧
      (evalExprCached nodes root values memo).2.Fresh := by
  rw [evalExprCached]
  split_ifs with hroot
  · refine ⟨?_, h⟩
    rw [rootVal, evalNode, getElem?_eq_none hroot]
    rfl
  · obtain ⟨hroom, hfresh⟩ := h.room nodes.length
    obtain ⟨hv, hbelow⟩ := evaluates_memoEval hord (Nat.lt_succ_self root) (memo.room nodes.length).nextToken
      (by rw [length_nextToken]; exact hroom) fun r _ hmark => absurd hmark (UInt32.ne_of_lt (hfresh.nextToken r))
    refine ⟨hv, fun r => ?_⟩
    show (memoEval nodes values (root + 1) root _).2.mark.getD r 0 ≤ (memoEval nodes values (root + 1) root _).2.token
    rw [hbelow.token]
    rcases hbelow.marks r with hmark | hmark
    · rw [hmark]
      exact UInt32.le_of_lt (hfresh.nextToken r)
    · rw [hmark]
      exact UInt32.le_refl _

/-- One evaluation after the other, each with the values of its moment. -/
def evalCalls (nodes : List ExprNode) (calls : List (Nat × List LogicT)) : StateM EvalMemo (List LogicT) :=
  calls.mapM fun c => evalExprCached nodes c.1 c.2

theorem evalCalls_eq (hord : OperandsFirst nodes) (calls : List (Nat × List LogicT)) (h : memo.Fresh) :
    (evalCalls nodes calls memo).1 = calls.map fun c => evalNode nodes c.2 (c.1 + 1) c.1 := by
  induction calls generalizing memo with
  | nil => rfl
  | cons c calls ih =>
    obtain ⟨hv, hfresh⟩ := evalExprCached_eq hord c.1 c.2 h
    have hrest := ih hfresh
    rw [evalCalls, mapM_cons]
    show (evalExprCached nodes c.1 c.2 memo).1 :: (evalCalls nodes calls (evalExprCached nodes c.1 c.2 memo).2).1 = _
    rw [hv, hrest]
    rfl

end

/-- Interning, folding and the memo are transparent. The evaluations start with cleared vectors
and any token. -/
theorem interning_transparent {m : ExprBuilder} (h : Constructed m) :
    OperandsFirst m.exprNodes ∧ m.exprNodes.Nodup ∧
      (∀ (n : ExprNode) (values : List LogicT), (∀ c ∈ n.children, c < m.size) → (addNode n m).2.errors = m.errors →
        ConstantsHold m values →
        ∀ N, (addNode n m).2.exprNodes <+: N →
          rootVal N values (addNode n m).1 = n.combine values (rootVal N values)) ∧
      ∀ calls token, (evalCalls m.exprNodes calls { token }).1 =
        calls.map fun c => evalNode m.exprNodes c.2 (c.1 + 1) c.1 := by
  obtain ⟨hord, hnodup⟩ := h.arena
  refine ⟨hord, hnodup, fun n values hops hquiet hconst N hpre => rootVal_addNode h hops hquiet hpre hconst, ?_⟩
  intro calls token
  apply evalCalls_eq hord
  intro r
  exact UInt32.zero_le

def gateOfSignals : ExprBuilder :=
  (addNode (.binaryAnd 0 1) (addNode (.signal 1) (addNode (.signal 0) {}).2).2).2

theorem constructed_gateOfSignals : Constructed gateOfSignals := by
  refine .add (.add (.add (.start rfl) (fun c hc => ?_) rfl) (fun c hc => ?_) rfl) (fun c hc => ?_) rfl
  · cases hc
  · cases hc
  · have hsize : ExprBuilder.size (addNode (.signal 1) (addNode (.signal 0) {}).2).2 = 2 := rfl
    simp only [ExprNode.children, mem_cons, not_mem_nil, or_false] at hc
    omega

/-- Three evaluations, with a token that wraps around at the second. -/
theorem interning_transparent_gate : Constructed gateOfSignals ∧
    (evalCalls gateOfSignals.exprNodes [(2, [.H, .H]), (2, [.H, .Z]), (2, [.H, .L])] { token := 4294967294 }).1 =
      [.H, .X, .L] := by
  refine ⟨constructed_gateOfSignals, ?_⟩
  rw [(interning_transparent constructed_gateOfSignals).2.2.2]
  rfl

end PhyEngine.Verilog
