import PhyEngine.Verilog.SelectExact
import PhyEngine.Verilog.StmtRuns

/-!
# Assignments to selects

The lowering of `a[i] = e`, `a[i +: W] = e` and `a[i -: W] = e` in `parse_proc_stmt`. With a
variable index it is a block of `if` statements, one for each index; its writes are collected in
order, each with the value at that moment.
-/

namespace PhyEngine.Verilog

open LogicT BitNumbers List ModuleState

/-- `lvalue_ref` of a select: the signals of the vector from the most significant bit on, its
range and the index. -/
structure SelectLvalue where
  vectorSignals : List Nat
  msb : Int
  lsb : Int
  indexExpr : ExprValue

namespace SelectLvalue

variable (lhs : SelectLvalue)

def signalAt (idx : Int) : Option Nat :=
  (vectorPos lhs.msb lhs.lsb idx).bind fun pos => lhs.vectorSignals[pos]?

def compareWidth : Nat := max lhs.indexExpr.width (needBits (max lhs.msb lhs.lsb).toNat)

def positions : List Nat :=
  (List.range lhs.vectorSignals.length).filter fun pos => 0 ≤ vectorIndexAt lhs.msb lhs.lsb pos

def startMin (w : Nat) (plus : Bool) : Int :=
  if plus then min lhs.msb lhs.lsb else min lhs.msb lhs.lsb + (w - 1)

def startMax (w : Nat) (plus : Bool) : Int :=
  if plus then max lhs.msb lhs.lsb - (w - 1) else max lhs.msb lhs.lsb

def starts (w : Nat) (plus : Bool) : List Int :=
  ((List.range (lhs.startMax w plus - lhs.startMin w plus + 1).toNat).map fun i : Nat => lhs.startMin w plus + i).filter
    (0 ≤ ·)

/-- The signals that a part select from `start` on takes in the range, each with what belongs to
its bit. -/
def selected {β : Type} (w : Nat) (plus : Bool) (start : Int) (bits : List β) : List (Nat × β) :=
  ((sliceIndices lhs.msb lhs.lsb w plus start).zip bits).filterMap fun p => (lhs.signalAt p.1).map fun sig => (sig, p.2)

end SelectLvalue

/-- An `if` on the index with the assignments of the bits that it selects, each a signal and the
root of its value. -/
structure GuardedAssigns where
  cond : Nat
  assigns : List (Nat × Nat)

variable (nonblocking : Bool)

def bitAssign (p : Nat × Nat) : Assign :=
  { nonblocking, lhs := [p.1], rhs := [p.2], scalar := fun _ => ⟨rfl, rfl⟩ }

def GuardedAssigns.stmt (g : GuardedAssigns) : Stmt :=
  .ifStmt g.cond (g.assigns.map fun p => .assign (bitAssign nonblocking p)) []

def guardedBlock (gs : List GuardedAssigns) : Stmt := .block (gs.map (GuardedAssigns.stmt nonblocking))

variable (lhs : SelectLvalue)

def lowerBitSelect (rhs : ExprValue) : Build (List GuardedAssigns) := do
  let arg1 ← resize rhs 1 false
  let idxNorm ← resize lhs.indexExpr lhs.compareWidth false
  lhs.positions.mapM fun pos => do
    let cond ← matchIndex idxNorm lhs.compareWidth (vectorIndexAt lhs.msb lhs.lsb pos)
    let sig := lhs.vectorSignals.getD pos sizeMax
    let _cur ← makeSignalRoot sig
    let res1 ← resize arg1 1 false
    return ⟨cond, [(sig, res1.scalarRoot)]⟩

def lowerIndexedPartSelect (w : Nat) (plus : Bool) (rhs : ExprValue) : Build (List GuardedAssigns) := do
  if w = 0 then
    reportError "indexed part-select lvalue width must be positive"
    return []
  else
    let rhsBits ← resizeToVector rhs w rhs.isSigned
    if lhs.startMax w plus < lhs.startMin w plus then
      reportError "indexed part-select out of range"
      return []
    else
      let idxNorm ← resize lhs.indexExpr lhs.compareWidth false
      (lhs.starts w plus).mapM fun s => do
        let cond ← matchIndex idxNorm lhs.compareWidth s
        return ⟨cond, lhs.selected w plus s rhsBits⟩

/-- `a[k] = e` with a constant `k`. The signal of a bit outside the range is one that
`get_or_create_vector_bit` makes up, `hidden`. -/
def lowerConstBitSelect (hidden : Int → Nat) (k : Int) (nonblocking : Bool) (rhs : ExprValue) :
    Build Assign := do
  let sig := (lhs.signalAt k).getD (hidden k)
  let _cur ← makeSignalRoot sig
  let rhs1 ← resize rhs 1 false
  return bitAssign nonblocking (sig, rhs1.scalarRoot)

def lowerConstPartSelect (hidden : Int → Nat) (w : Nat) (plus : Bool) (k : Int) (nonblocking : Bool)
    (rhs : ExprValue) : Build Assign := do
  let sigs := (sliceIndices lhs.msb lhs.lsb w plus k).map fun idx => (lhs.signalAt idx).getD (hidden idx)
  let roots ← sigs.mapM makeSignalRoot
  let _cur ← makeVectorWithRange roots (sigs.length - 1) 0 false
  let rhsBits ← resizeToVector rhs sigs.length rhs.isSigned
  return { nonblocking, isVector := true, lhs := sigs, rhs := rhsBits, scalar := nofun }

section Log

variable (m : CompiledModule) (nonblocking : Bool)

def afterWrites (st : ModuleState) (ws : List (Nat × LogicT)) : ModuleState :=
  if nonblocking then { st with nbaQueue := st.nbaQueue ++ existing st ws } else (st.assignAll ws).1

def perform (x : Exec) (ws : List (Nat × LogicT)) : Exec :=
  { x with st := afterWrites nonblocking x.st ws, changed := !nonblocking && (x.st.assignAll ws).2 || x.changed }

def assignLog : List (Nat × Nat) → ModuleState → List (Nat × LogicT)
  | [], _ => []
  | p :: ps, st =>
    let w := (p.1, evalExpr m p.2 st.values)
    w :: assignLog ps (afterWrites nonblocking st [w])

def guardLog : List GuardedAssigns → ModuleState → List (Nat × LogicT)
  | [], _ => []
  | g :: gs, st =>
    if holds m g.cond st then
      let ws := assignLog m nonblocking g.assigns st
      ws ++ guardLog gs (afterWrites nonblocking st ws)
    else guardLog gs st

end Log

section Exec

variable {m : CompiledModule} {tick : UInt64} {nonblocking : Bool}

variable (st : ModuleState)

theorem values_afterWrites_nonblocking (ws : List (Nat × LogicT)) :
    (afterWrites true st ws).values = st.values := rfl

theorem afterWrites_nil : afterWrites nonblocking st [] = st := by
  cases nonblocking with
  | false => rfl
  | true =>
    rw [afterWrites, if_pos rfl, existing, filter_nil, append_nil]

theorem afterWrites_append (ws ws' : List (Nat × LogicT)) :
    afterWrites nonblocking (afterWrites nonblocking st ws) ws' = afterWrites nonblocking st (ws ++ ws') := by
  cases nonblocking with
  | false => exact (assignAll_append st ws ws').symm
  | true =>
    rw [afterWrites, if_pos rfl, afterWrites, if_pos rfl, afterWrites, if_pos rfl, existing, existing, existing,
      filter_append, append_assoc]

theorem snd_assignAll_append (ws ws' : List (Nat × LogicT)) :
    (st.assignAll (ws ++ ws')).2 = ((st.assignAll ws).2 || ((st.assignAll ws).1.assignAll ws').2) := by
  induction ws generalizing st with
  | nil => rfl
  | cons w ws ih =>
    rw [cons_append, assignAll, assignAll]
    dsimp only
    rw [ih, Bool.or_assoc]

theorem perform_nil (x : Exec) : perform nonblocking x [] = x := by
  rw [perform, afterWrites_nil, assignAll, Bool.and_false, Bool.false_or]

theorem perform_append (x : Exec) (ws ws' : List (Nat × LogicT)) :
    perform nonblocking (perform nonblocking x ws) ws' = perform nonblocking x (ws ++ ws') := by
  have hchanged : (!nonblocking && ((afterWrites nonblocking x.st ws).assignAll ws').2 ||
      (!nonblocking && (x.st.assignAll ws).2 || x.changed)) =
        (!nonblocking && (x.st.assignAll (ws ++ ws')).2 || x.changed) := by
    cases nonblocking with
    | false =>
      have hafter : afterWrites false x.st ws = (x.st.assignAll ws).1 := rfl
      rw [hafter, snd_assignAll_append, Bool.not_false, Bool.true_and, Bool.true_and, Bool.true_and, ← Bool.or_assoc]
      exact congrArg (· || x.changed) (Bool.or_comm _ _)
    | true => rfl
  rw [perform, perform, perform]
  dsimp only
  rw [afterWrites_append, hchanged]

theorem existing_of_le {st : ModuleState} {sig : Nat} {v : LogicT} (h : st.values.length ≤ sig) :
    existing st [(sig, v)] = [] := by
  rw [existing, filter_cons, if_neg (by simpa using h), filter_nil]

theorem execAssign_eq_perform {a : Assign} (hlen : a.lhs.length = a.rhs.length) (hne : a.lhs ≠ [])
    (hdelay : a.delayTicks = 0) (x : Exec) :
    execAssign m tick a x = perform a.nonblocking x (sampleWrites m x.st a.lhs a.rhs) := by
  have hnot : ¬ (a.lhs.length ≠ a.rhs.length ∨ a.lhs = []) := by
    rintro (h | h)
    · exact h hlen
    · exact hne h
  rw [execAssign, if_neg hnot]
  split_ifs with hout hd hnb
  · -- A scalar assignment to a signal that does not exist writes nothing.
    obtain ⟨sig, hsig⟩ := length_eq_one_iff.mp (a.scalar hout.1).1
    obtain ⟨root, hroot⟩ := length_eq_one_iff.mp (a.scalar hout.1).2
    have hle : x.st.values.length ≤ sig := by
      have h := hout.2
      rw [hsig] at h
      exact h
    have hws : sampleWrites m x.st a.lhs a.rhs = [(sig, evalExpr m root x.st.values)] := by
      rw [sampleWrites, hsig, hroot]
      rfl
    have hassign : x.st.assignAll [(sig, evalExpr m root x.st.values)] = (x.st, false) := by
      apply assignAll_of_in_place
      intro w hw hlt
      rw [mem_singleton.mp hw] at hlt
      omega
    rw [hws, perform, hassign, afterWrites, existing_of_le hle, hassign, append_nil, Bool.and_false, Bool.false_or]
    split_ifs <;> rfl
  · exact absurd hdelay hd
  · rw [perform, afterWrites, if_pos hnb, hnb]
    rfl
  · rw [perform, afterWrites, if_neg hnb]
    simp only [Bool.not_eq_true] at hnb
    rw [hnb]
    rfl

theorem execStmts_bitAssigns (ps : List (Nat × Nat)) (x : Exec) (hflow : x.flow = .none) :
    execStmts m tick (ps.map fun p => .assign (bitAssign nonblocking p)) x =
      perform nonblocking x (assignLog m nonblocking ps x.st) := by
  induction ps generalizing x with
  | nil =>
    rw [map_nil, execStmts, assignLog, perform_nil]
  | cons p ps ih =>
    have hstep : execStmt m tick (.assign (bitAssign nonblocking p)) x =
        perform nonblocking x [(p.1, evalExpr m p.2 x.st.values)] := by
      rw [execStmt, execAssign_eq_perform rfl (cons_ne_nil _ _) rfl]
      rfl
    rw [map_cons, execStmts, if_neg (by rw [hflow]; exact fun h => h rfl), hstep, ih (perform nonblocking x _) hflow,
      perform_append]
    rfl

theorem execStmt_guardedBlock (gs : List GuardedAssigns) (x : Exec) (hflow : x.flow = .none) :
    execStmt m tick (guardedBlock nonblocking gs) x = perform nonblocking x (guardLog m nonblocking gs x.st) := by
  rw [guardedBlock, execStmt]
  induction gs generalizing x with
  | nil => rw [map_nil, execStmts, guardLog, perform_nil]
  | cons g gs ih =>
    rw [map_cons, execStmts, if_neg (by rw [hflow]; exact fun h => h rfl), GuardedAssigns.stmt, execStmt, guardLog]
    split_ifs with hcond
    · rw [execStmts_bitAssigns _ _ hflow, ih (perform nonblocking x _) hflow, perform_append]
      rfl
    · rw [execStmts, ih _ hflow]

end Exec

section Atomic

variable {m : CompiledModule} {nonblocking : Bool}

variable {ws : List (Nat × LogicT)}

/-- The writes are given by the values that each right-hand side has when the writes before it
have been made. -/
theorem assignLog_eq_iff {ps : List (Nat × Nat)} (hws : ws.map Prod.fst = ps.map Prod.fst)
    (st : ModuleState) :
    assignLog m nonblocking ps st = ws ↔ ∀ j < ps.length,
      evalExpr m ((ps.map Prod.snd).getD j sizeMax) (afterWrites nonblocking st (ws.take j)).values =
        (ws.map Prod.snd).getD j .X := by
  induction ps generalizing ws st with
  | nil =>
    rw [map_nil, map_eq_nil_iff] at hws
    rw [hws, assignLog]
    exact ⟨fun _ j hj => absurd hj (Nat.not_lt_zero j), fun _ => rfl⟩
  | cons p ps ih =>
    obtain ⟨w, ws, rfl⟩ : ∃ w ws', ws = w :: ws' := by
      cases ws with
      | nil => cases hws
      | cons w ws => exact ⟨w, ws, rfl⟩
    rw [map_cons, map_cons, List.cons.injEq] at hws
    obtain ⟨hfst, htail⟩ := hws
    have hafter (j : Nat) : afterWrites nonblocking st ((w :: ws).take (j + 1)) =
        afterWrites nonblocking (afterWrites nonblocking st [w]) (ws.take j) := by
      rw [afterWrites_append]
      rfl
    rw [assignLog, List.cons.injEq]
    constructor
    · rintro ⟨hhead, hrest⟩ j hj
      rw [hhead] at hrest
      cases j with
      | zero =>
        rw [take_zero, afterWrites_nil]
        exact congrArg Prod.snd hhead
      | succ j =>
        rw [hafter]
        exact (ih htail _).mp hrest j (Nat.lt_of_succ_lt_succ hj)
    · intro h
      have hhead : (p.1, evalExpr m p.2 st.values) = w := by
        have h0 := h 0 (Nat.succ_pos _)
        rw [take_zero, afterWrites_nil] at h0
        exact Prod.ext hfst.symm h0
      refine ⟨hhead, ?_⟩
      rw [hhead]
      refine (ih htail _).mpr fun j hj => ?_
      have hj' := h (j + 1) (Nat.succ_lt_succ hj)
      rw [hafter] at hj'
      exact hj'

theorem length_assignLog (ps : List (Nat × Nat)) (st : ModuleState) :
    (assignLog m nonblocking ps st).length = ps.length := by
  induction ps generalizing st with
  | nil => rfl
  | cons p ps ih => exact congrArg Nat.succ (ih _)

variable {gs : List GuardedAssigns}

theorem guardLog_eq_nil_iff (hne : ∀ g ∈ gs, g.assigns ≠ []) (st : ModuleState) :
    guardLog m nonblocking gs st = [] ↔ ∀ g ∈ gs, holds m g.cond st = false := by
  induction gs with
  | nil => exact ⟨fun _ g hg => (not_mem_nil hg).elim, fun _ => rfl⟩
  | cons g gs ih =>
    rw [forall_mem_cons] at hne ⊢
    rw [guardLog]
    split_ifs with hcond
    · rw [append_eq_nil_iff, ← length_eq_zero_iff, length_assignLog, length_eq_zero_iff]
      constructor
      · exact fun h => absurd h.1 hne.1
      · intro h
        rw [hcond] at h
        exact absurd h.1 (by simp)
    · rw [ih hne.2]
      exact ⟨fun h => ⟨Bool.eq_false_iff.mpr hcond, h⟩, fun h => h.2⟩

/-- A block whose first condition holds makes the writes `ws` if its assignments do and no later
condition holds afterwards. -/
theorem guardLog_eq_iff {g : GuardedAssigns} (hne : ∀ g ∈ gs, g.assigns ≠ [])
    {st : ModuleState} (hg : holds m g.cond st = true) (hlen : ws.length = g.assigns.length) :
    guardLog m nonblocking (g :: gs) st = ws ↔
      assignLog m nonblocking g.assigns st = ws ∧ ∀ g ∈ gs, holds m g.cond (afterWrites nonblocking st ws) = false := by
  rw [guardLog, if_pos hg]
  dsimp only
  constructor
  · intro h
    have hlen' : (assignLog m nonblocking g.assigns st).length = ws.length := by rw [length_assignLog, hlen]
    have hnil : guardLog m nonblocking gs (afterWrites nonblocking st (assignLog m nonblocking g.assigns st)) = [] := by
      rw [← length_eq_zero_iff]
      have htotal := congrArg List.length h
      rw [length_append] at htotal
      omega
    rw [hnil, append_nil] at h
    rw [h] at hnil
    exact ⟨h, (guardLog_eq_nil_iff hne _).mp hnil⟩
  · rintro ⟨hws, hlater⟩
    rw [hws, (guardLog_eq_nil_iff hne _).mpr hlater, append_nil]

end Atomic

end PhyEngine.Verilog
