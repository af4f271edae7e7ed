import PhyEngine.Synth.Rollback
import PhyEngine.Synth.Verify

/-!
# The Omax search

`run_pass` with its node budget and rollback, `run_once`, the fixpoint loop of O4, and the search
that restarts from the best netlist so far. The passes are arbitrary functions; `PassSet` carries
what all of them keep.
-/

namespace PhyEngine

open Netlist

inductive PassId where
  | wires | mul2 | adders | constprop | factor | absorb | xorRewrite | flatten
  | binarySimplify | constprop2 | aigRewrite | bddDecompose | qm2lvl | pushInv | doubleNot
  | fuseInv | strash | techmap | resub | sweep | dce
  deriving DecidableEq

namespace PassId

def name : PassId → String
  | wires => "wires"
  | mul2 => "mul2"
  | adders => "adders"
  | constprop => "constprop"
  | factor => "factor"
  | absorb => "absorb"
  | xorRewrite => "xor_rewrite"
  | flatten => "flatten"
  | binarySimplify => "binary_simplify"
  | constprop2 => "constprop2"
  | aigRewrite => "aig_rewrite"
  | bddDecompose => "bdd_decompose"
  | qm2lvl => "qm_2lvl"
  | pushInv => "push_inv"
  | doubleNot => "double_not"
  | fuseInv => "fuse_inv"
  | strash => "strash"
  | techmap => "techmap"
  | resub => "resub"
  | sweep => "sweep"
  | dce => "dce"

def enabled (lvl : Nat) (opt : PeSynthOptions) : PassId → Bool
  | wires => opt.optimizeWires || 1 ≤ lvl
  | mul2 => opt.optimizeMul2 || 2 ≤ lvl
  | adders => opt.optimizeAdders || 2 ≤ lvl
  | constprop | doubleNot | fuseInv | strash | dce => 1 ≤ lvl
  | factor | absorb | xorRewrite | flatten | pushInv => 2 ≤ lvl
  | binarySimplify | constprop2 | aigRewrite | qm2lvl | resub | sweep =>
    3 ≤ lvl && opt.assumeBinaryInputs
  | bddDecompose => 3 ≤ lvl && opt.assumeBinaryInputs && opt.decomposeLargeFunctions
  | techmap => 4 ≤ lvl && opt.assumeBinaryInputs && opt.techmapEnable

def order : List PassId :=
  [wires, mul2, adders, constprop, factor, absorb, xorRewrite, flatten, binarySimplify,
    constprop2, aigRewrite, bddDecompose, qm2lvl, pushInv, doubleNot, fuseInv, strash, techmap,
    resub, sweep, dce]

end PassId

/-- `pe_synth_pass_stat` without the time. -/
structure PassStat where
  pass : String
  before : Nat
  after : Nat
  deriving DecidableEq

structure PeSynthReport where
  passes : List PassStat := []
  iterGateCount : List Nat := []
  omaxBestGateCount : List Nat := []
  omaxBestCost : List Nat := []
  omaxSummary : String := ""
  deriving DecidableEq

structure Netlist.Optimisable (nl : Netlist) : Prop where
  pins_valid : nl.PinsValid
  no_verilog : ∀ m ∈ nl.normals, ¬ m.IsConnectedVerilog

structure PassSet where
  fn : PassId → PeSynthOptions → Netlist → Netlist
  grows : ∀ id opt nl, nl.nodes.length ≤ (fn id opt nl).nodes.length
  pins_valid : ∀ id opt nl, nl.PinsValid → (fn id opt nl).PinsValid
  no_verilog : ∀ id opt nl, nl.Optimisable → (fn id opt nl).Optimisable

namespace Omax

structure RunState where
  net : Netlist
  nodeBudgetHit : Bool := false
  passes : List PassStat := []

section Pipeline

variable (passes : PassSet) (opt optRun : PeSynthOptions)

def overNodeBudget (net : Netlist) : Prop :=
  optRun.maxTotalNodes ≠ 0 ∧ optRun.maxTotalNodes < net.countTotalNodes

instance (net : Netlist) : Decidable (overNodeBudget optRun net) :=
  inferInstanceAs (Decidable (_ ∧ _))

/-- `too_many_models || too_many_gates`, which needs a budget to be set. -/
def overModelBudget (net : Netlist) : Prop :=
  (optRun.maxTotalModels ≠ 0 ∧ optRun.maxTotalModels < net.countTotalModels) ∨
    (optRun.maxTotalLogicGates ≠ 0 ∧ optRun.maxTotalLogicGates < net.countLogicGates)

instance (net : Netlist) : Decidable (overModelBudget optRun net) :=
  inferInstanceAs (Decidable (_ ∨ _))

/-- The netlist after a pass, rolled back to the copy from before when it is too large. -/
def passResult (id : PassId) (net : Netlist) : Netlist :=
  let after := passes.fn id optRun net
  if overModelBudget optRun after then after.restoreFromSnapshot net.copy else after

def runPass (st : RunState) (id : PassId) : RunState :=
  if id.enabled 4 opt = false then st
  else if st.nodeBudgetHit then st
  else if overNodeBudget optRun st.net then { st with nodeBudgetHit := true }
  else
    let net := passResult passes optRun id st.net
    { net
      nodeBudgetHit := overNodeBudget optRun (passes.fn id optRun st.net)
      passes := st.passes ++ [⟨id.name, st.net.countLogicGates, net.countLogicGates⟩] }

def runOnce (net : Netlist) : Netlist × List PassStat :=
  let st := PassId.order.foldl (runPass passes opt optRun) { net }
  (st.net, st.passes)

/-- The loop of `run_o34_fixpoint` at level 4, with at most `iters` iterations left. The
report collects the statistics of the passes and the gate counts. -/
def fixpointLoop : Nat → Netlist × PeSynthReport → Netlist × PeSynthReport
  | 0, st => st
  | iters + 1, (net, rep) =>
    let before := net.countLogicGates
    let (net, stats) := runOnce passes opt optRun net
    let after := net.countLogicGates
    let rep := { rep with passes := rep.passes ++ stats
                          iterGateCount := rep.iterGateCount ++ [before, after] }
    if before ≤ after then (net, rep) else fixpointLoop iters (net, rep)

def runO34Fixpoint (net : Netlist) : Netlist × PeSynthReport :=
  fixpointLoop passes opt optRun 8 (net, {})

end Pipeline

def makeTryOpt (opt : PeSynthOptions) (iter : Nat) : PeSynthOptions :=
  let o := if 4 < opt.optLevel then { opt with optLevel := 4 } else opt
  if iter = 0 then o
  else
    let target := min (max opt.decompVarOrderTries 8 + iter * 4) 64
    { o with
      decompVarOrderTries := max target o.decompVarOrderTries
      omaxRandSeed := opt.omaxRandSeed ^^^ (0x9e3779b97f4a7c15 + UInt64.ofNat iter) }

/-- The state of the search. `reached` lists the netlists after each try; the source does
not keep them. -/
structure SearchState where
  nl : Netlist
  bestCost : Nat
  bestGate : Nat
  bestSnapshot : Netlist
  bestRep : Option PeSynthReport := none
  omaxBestGateCount : List Nat := []
  omaxBestCost : List Nat := []
  reached : List Netlist := []

/-- `timed_out` at the start of a try, for a clock that counts milliseconds since `t0`. -/
def timedOut (opt : PeSynthOptions) (elapsedMs : Nat → Nat) (iter : Nat) : Prop :=
  opt.omaxTimeoutMs ≠ 0 ∧ opt.omaxTimeoutMs ≤ elapsedMs iter

instance (opt : PeSynthOptions) (elapsedMs : Nat → Nat) (iter : Nat) :
    Decidable (timedOut opt elapsedMs iter) := inferInstanceAs (Decidable (_ ∧ _))

section Search

variable (passes : PassSet) (order : MapOrder) (opt : PeSynthOptions) (elapsedMs : Nat → Nat)

def tryStart (iter : Nat) (st : SearchState) : Netlist :=
  if iter ≠ 0 ∧ opt.omaxAllowRegress = false then st.nl.restoreFromSnapshot st.bestSnapshot
  else st.nl

variable (st : SearchState)

def keepBest (nl : Netlist) (rep : PeSynthReport) : SearchState :=
  let cost := nl.computeOmaxCost opt
  let st := { st with nl, reached := st.reached ++ [nl] }
  let st := if cost < st.bestCost then
      { st with bestCost := cost, bestGate := nl.countLogicGates, bestSnapshot := nl.copy
                bestRep := some rep }
    else st
  { st with omaxBestGateCount := st.omaxBestGateCount ++ [st.bestGate]
            omaxBestCost := st.omaxBestCost ++ [st.bestCost] }

def runTry (refSnapshot : Netlist) (iter : Nat) (st : SearchState) : Except String SearchState :=
  let (nl, rep) := runO34Fixpoint passes opt (makeTryOpt opt iter) (tryStart opt iter st)
  if opt.omaxVerify then
    match omaxVerifyEquivalence order refSnapshot nl opt with
    | .error why => .error why
    | .ok () => .ok (keepBest opt st nl rep)
  else .ok (keepBest opt st nl rep)

def searchLoop (refSnapshot : Netlist) : (left iter : Nat) → SearchState → Except String SearchState
  | 0, _, st => .ok st
  | left + 1, iter, st =>
    if timedOut opt elapsedMs iter then .ok st
    else
      match runTry passes order opt refSnapshot iter st with
      | .error why => .error why
      | .ok st => searchLoop refSnapshot left (iter + 1) st

def initState (nl : Netlist) : SearchState where
  nl := nl
  bestCost := nl.computeOmaxCost opt
  bestGate := nl.countLogicGates
  bestSnapshot := nl.copy

def tries : Nat := if opt.omaxMaxIter = 0 then 1 else opt.omaxMaxIter

def summary : String :=
  let bit (b : Bool) := if b then "1" else "0"
  "omax seed=" ++ toString opt.omaxRandSeed.toNat ++ " tries=" ++ toString (tries opt) ++
    " timeout_ms=" ++ toString opt.omaxTimeoutMs ++ " randomize=" ++ bit opt.omaxRandomize ++
    " allow_regress=" ++ bit opt.omaxAllowRegress ++ " verify=" ++ bit opt.omaxVerify ++
    " best_gate=" ++ toString st.bestGate ++ " best_cost=" ++ toString st.bestCost

def report : Option PeSynthReport :=
  if opt.reportEnable then
    let best := st.bestRep.getD {}
    some { best with omaxBestGateCount := st.omaxBestGateCount
                     omaxBestCost := st.omaxBestCost
                     omaxSummary := summary opt st }
  else none

/-- The result of the search: the netlist left in `nl`, the report, and the netlists the
tries reached. -/
structure Result where
  nl : Netlist
  report : Option PeSynthReport
  reached : List Netlist

/-- The `is_omax` branch of `synthesize_to_pe_netlist`. -/
def search (nl : Netlist) : Except String Result :=
  match searchLoop passes order opt elapsedMs nl.copy (tries opt) 0 (initState opt nl) with
  | .error why => .error why
  | .ok st => .ok ⟨st.nl.restoreFromSnapshot st.bestSnapshot, report opt st, st.reached⟩

end Search

variable {nl net : Netlist}

theorem restore_copy_spec {best : Netlist} (h : best.Optimisable) (hlen : best.nodes.length ≤ nl.nodes.length) :
    (nl.restoreFromSnapshot best.copy).normals = best.normals ∧
      (nl.restoreFromSnapshot best.copy).nodes.length = nl.nodes.length ∧
      (nl.restoreFromSnapshot best.copy).Optimisable := by
  have hlen' : best.copy.nodes.length ≤ nl.nodes.length := by rwa [length_nodes_copy]
  have hmodels : (nl.restoreFromSnapshot best.copy).normals = best.normals := by
    rw [normals_restore_copy h.pins_valid nl hlen]
    exact (map_clone_eq_iff _).mpr h.no_verilog
  have hnodes := restoreFromSnapshot_length nl best.copy hlen'
  refine ⟨hmodels, hnodes, ?_, ?_⟩
  · intro m hm n hn
    rw [hmodels] at hm
    have hsome := h.pins_valid m hm n hn
    rw [isSome_node?] at hsome ⊢
    intro i hi
    have hlt := hsome i hi
    omega
  · rw [hmodels]
    exact h.no_verilog

section Pipeline

variable {passes : PassSet} {opt optRun : PeSynthOptions} {k : Nat}

/-- A netlist with at least `k` nodes that the pipeline may be run on. -/
def Live (k : Nat) (nl : Netlist) : Prop := nl.Optimisable ∧ k ≤ nl.nodes.length

theorem live_passResult (h : Live k net) (id : PassId) :
    Live k (passResult passes optRun id net) := by
  obtain ⟨hopt, hk⟩ := h
  have hgrow := passes.grows id optRun net
  have hafter := passes.no_verilog id optRun net hopt
  unfold passResult
  dsimp only
  split
  · obtain ⟨-, hnodes, hrest⟩ := restore_copy_spec hopt hgrow
    refine ⟨hrest, ?_⟩
    omega
  · exact ⟨hafter, by omega⟩

theorem live_runPass {st : RunState} (h : Live k st.net) (id : PassId) :
    Live k (runPass passes opt optRun st id).net := by
  unfold runPass
  split
  · exact h
  split
  · exact h
  split
  · exact h
  · exact live_passResult h id

theorem live_runOnce (h : Live k net) :
    Live k (runOnce passes opt optRun net).1 := by
  have hfold (ids : List PassId) (st : RunState) (hst : Live k st.net) :
      Live k (ids.foldl (runPass passes opt optRun) st).net := by
    induction ids generalizing st with
    | nil => exact hst
    | cons id ids ih => exact ih _ (live_runPass hst id)
  exact hfold PassId.order { net } h

theorem live_fixpointLoop (iters : Nat) (rep : PeSynthReport) (h : Live k net) :
    Live k (fixpointLoop passes opt optRun iters (net, rep)).1 := by
  induction iters generalizing net rep with
  | zero => exact h
  | succ iters ih =>
    have honce : Live k (runOnce passes opt optRun net).1 := live_runOnce h
    unfold fixpointLoop
    dsimp only
    split
    · exact honce
    · exact ih _ honce

theorem live_runO34Fixpoint (h : Live k net) :
    Live k (runO34Fixpoint passes opt optRun net).1 :=
  live_fixpointLoop 8 {} h

end Pipeline

def cheapest {β : Type*} (cost : β → Nat) (start : β) (xs : List β) : β :=
  xs.foldl (fun best x => if cost x < cost best then x else best) start

variable {β : Type*}

theorem cheapest_append (cost : β → Nat) (start : β) (xs : List β) (x : β) :
    cheapest cost start (xs ++ [x]) =
      if cost x < cost (cheapest cost start xs) then x else cheapest cost start xs := by
  rw [cheapest, List.foldl_append]
  rfl

theorem cost_cheapest_le (cost : β → Nat) (start : β) (xs : List β) :
    ∀ x ∈ start :: xs, cost (cheapest cost start xs) ≤ cost x := by
  induction xs using List.reverseRecOn with
  | nil => simp [cheapest]
  | append_singleton xs y ih =>
    intro x hx
    rw [cheapest_append]
    have hle : ∀ z ∈ start :: xs, cost (cheapest cost start xs) ≤ cost z := ih
    have hcase : x ∈ start :: xs ∨ x = y := by simpa [or_assoc] using hx
    split
    · rcases hcase with hx | rfl
      · have := hle x hx
        omega
      · exact le_rfl
    · rcases hcase with hx | rfl
      · exact hle x hx
      · omega

section Search

variable {passes : PassSet} {order : MapOrder} {opt : PeSynthOptions} {elapsedMs : Nat → Nat}
  {start : Netlist}

structure Inv (opt : PeSynthOptions) (start : Netlist) (st : SearchState) : Prop where
  live : Live start.nodes.length st.nl
  best_optimisable : (cheapest (·.computeOmaxCost opt) start st.reached).Optimisable
  best_nodes : (cheapest (·.computeOmaxCost opt) start st.reached).nodes.length ≤ st.nl.nodes.length
  best_snapshot : st.bestSnapshot = (cheapest (·.computeOmaxCost opt) start st.reached).copy
  best_cost : st.bestCost = (cheapest (·.computeOmaxCost opt) start st.reached).computeOmaxCost opt
  last_cost : st.reached ≠ [] → st.omaxBestCost.getLast? = some st.bestCost

theorem inv_initState (h : start.Optimisable) : Inv opt start (initState opt start) where
  live := ⟨h, le_rfl⟩
  best_optimisable := h
  best_nodes := le_rfl
  best_snapshot := rfl
  best_cost := rfl
  last_cost := fun hne => absurd rfl hne

variable {st : SearchState} {ref : Netlist}

theorem live_tryStart (h : Inv opt start st) (iter : Nat) :
    Live st.nl.nodes.length (tryStart opt iter st) := by
  unfold tryStart
  split
  · rw [h.best_snapshot]
    obtain ⟨-, hnodes, hopt⟩ := restore_copy_spec h.best_optimisable h.best_nodes
    exact ⟨hopt, hnodes.ge⟩
  · exact ⟨h.live.1, le_rfl⟩

theorem inv_keepBest (h : Inv opt start st) {rep : PeSynthReport} (hnl : Live st.nl.nodes.length nl) :
    Inv opt start (keepBest opt st nl rep) := by
  have hstart : start.nodes.length ≤ nl.nodes.length := h.live.2.trans hnl.2
  have hbest : (cheapest (·.computeOmaxCost opt) start st.reached).nodes.length ≤
      nl.nodes.length := h.best_nodes.trans hnl.2
  unfold keepBest
  dsimp only
  by_cases hlt : nl.computeOmaxCost opt < st.bestCost
  · have hcheap : cheapest (·.computeOmaxCost opt) start (st.reached ++ [nl]) = nl := by
      rw [cheapest_append, if_pos (h.best_cost ▸ hlt)]
    simp only [hlt, if_true]
    constructor <;> simp only [hcheap]
    · exact ⟨hnl.1, hstart⟩
    · exact hnl.1
    · exact le_rfl
    · simp
  · have hcheap : cheapest (·.computeOmaxCost opt) start (st.reached ++ [nl]) =
        cheapest (·.computeOmaxCost opt) start st.reached := by
      rw [cheapest_append, if_neg (h.best_cost ▸ hlt)]
    simp only [hlt, if_false]
    constructor <;> simp only [hcheap]
    · exact ⟨hnl.1, hstart⟩
    · exact h.best_optimisable
    · exact hbest
    · exact h.best_snapshot
    · exact h.best_cost
    · simp

variable {st' : SearchState}

variable {iter : Nat}

theorem runTry_spec (h : Inv opt start st) (hrun : runTry passes order opt ref iter st = .ok st') :
    Inv opt start st' ∧ st'.reached = st.reached ++
      [(runO34Fixpoint passes opt (makeTryOpt opt iter) (tryStart opt iter st)).1] := by
  have hlive : Live _ (runO34Fixpoint passes opt (makeTryOpt opt iter) (tryStart opt iter st)).1 :=
    live_runO34Fixpoint (live_tryStart h iter)
  have hkeep {nl : Netlist} {rep : PeSynthReport} :
      (keepBest opt st nl rep).reached = st.reached ++ [nl] := by
    unfold keepBest
    dsimp only
    split <;> rfl
  unfold runTry at hrun
  dsimp only at hrun
  split at hrun
  · split at hrun
    · cases hrun
    · cases hrun
      exact ⟨inv_keepBest h hlive, hkeep⟩
  · cases hrun
    exact ⟨inv_keepBest h hlive, hkeep⟩

theorem searchLoop_spec (hclock : ∀ i, ¬ timedOut opt elapsedMs i) (left iter : Nat) (h : Inv opt start st)
    (hrun : searchLoop passes order opt elapsedMs ref left iter st = .ok st') :
    Inv opt start st' ∧ ∃ more, st'.reached = st.reached ++ more ∧ more.length = left ∧
      ∀ x, more.head? = some x →
        x = (runO34Fixpoint passes opt (makeTryOpt opt iter) (tryStart opt iter st)).1 := by
  induction left generalizing iter st with
  | zero =>
    cases hrun
    exact ⟨h, [], by simp⟩
  | succ left ih =>
    unfold searchLoop at hrun
    rw [if_neg (hclock iter)] at hrun
    split at hrun
    · cases hrun
    · rename_i st₁ htry
      obtain ⟨h₁, hreached⟩ := runTry_spec h htry
      obtain ⟨h', more, hmore, hlen, -⟩ := ih (iter + 1) h₁ hrun
      refine ⟨h', (runO34Fixpoint passes opt (makeTryOpt opt iter) (tryStart opt iter st)).1 :: more,
        ?_, by simp [hlen], ?_⟩
      · rw [hmore, hreached, List.append_assoc]
        rfl
      · intro x hx
        exact (Option.some.inj hx).symm

/-- What the search is for: the netlist left in `nl` is the first cheapest of the netlist
before optimisation and the netlists after each try, the first of which is a plain O4 run. -/
structure Exact (passes : PassSet) (opt : PeSynthOptions) (start : Netlist) (r : Result) : Prop where
  models : r.nl.normals = (cheapest (·.computeOmaxCost opt) start r.reached).normals
  pins_exact : r.nl.PinsExact
  all_tries : r.reached.length = tries opt
  plain_first : r.reached.head? = some (runO34Fixpoint passes opt (makeTryOpt opt 0) start).1
  cost_le : ∀ nl ∈ start :: r.reached, r.nl.computeOmaxCost opt ≤ nl.computeOmaxCost opt
  last_cost : ∀ rep, r.report = some rep →
    rep.omaxBestCost.getLast? = some (r.nl.computeOmaxCost opt)

theorem tries_pos : 0 < tries opt := by
  unfold tries
  split <;> omega

theorem exact_of_optimisable (hclock : ∀ i, ¬ timedOut opt elapsedMs i) (h : start.Optimisable)
    {r : Result} (hrun : search passes order opt elapsedMs start = .ok r) :
    Exact passes opt start r := by
  unfold search at hrun
  split at hrun
  · cases hrun
  rename_i st hloop
  cases hrun
  obtain ⟨hinv, more, hmore, hlen, hhead⟩ := searchLoop_spec hclock (tries opt) 0
    (inv_initState h) hloop
  have hmore : st.reached = more := hmore
  have hpos : 0 < tries opt := tries_pos
  have hne : st.reached ≠ [] := by
    intro hnil
    rw [← hlen, ← hmore, hnil] at hpos
    simp at hpos
  obtain ⟨hmodels, -, -⟩ := restore_copy_spec hinv.best_optimisable hinv.best_nodes
  rw [← hinv.best_snapshot] at hmodels
  have hcost : (st.nl.restoreFromSnapshot st.bestSnapshot).computeOmaxCost opt = st.bestCost :=
    (computeOmaxCost_congr opt hmodels).trans hinv.best_cost.symm
  refine ⟨hmodels, ?_, hmore ▸ hlen, ?_, ?_, ?_⟩
  · refine restoreFromSnapshot_pinsExact st.nl st.bestSnapshot ?_
    rw [hinv.best_snapshot, length_nodes_copy]
    exact hinv.best_nodes
  · obtain ⟨x, hx⟩ : ∃ x, more.head? = some x := by
      cases hm : more with
      | nil => exact absurd (hmore.trans hm) hne
      | cons x xs => exact ⟨x, rfl⟩
    rw [hmore, hx, hhead x hx]
    rfl
  · intro nl hnl
    rw [hcost, hinv.best_cost]
    exact cost_cheapest_le _ start st.reached nl hnl
  · intro rep hrep
    rw [hcost, ← hinv.last_cost hne]
    unfold report at hrep
    split at hrep
    · cases hrep
      rfl
    · cases hrep

def idPasses : PassSet where
  fn := fun _ _ nl => nl
  grows := fun _ _ _ => le_rfl
  pins_valid := fun _ _ _ h => h
  no_verilog := fun _ _ _ h => h

def SameKinds (start nl : Netlist) : Prop :=
  nl.PinsValid ∧ nl.nodes.length = start.nodes.length ∧
    nl.normals.map Model.clone = start.normals.map Model.clone

theorem sameKinds_restore {nl' : Netlist} (h : SameKinds start nl) (h' : SameKinds start nl') :
    SameKinds start (nl'.restoreFromSnapshot nl.copy) := by
  obtain ⟨hvalid, hnodes, hclone⟩ := h
  have hlen : nl.nodes.length ≤ nl'.nodes.length := by
    rw [hnodes, h'.2.1]
  have hlen' : nl.copy.nodes.length ≤ nl'.nodes.length := by rwa [length_nodes_copy]
  have hmodels := normals_restore_copy hvalid nl' hlen
  have hkept := restoreFromSnapshot_length nl' nl.copy hlen'
  refine ⟨?_, hkept.trans h'.2.1, ?_⟩
  · intro m hm n hn
    rw [hmodels] at hm
    obtain ⟨m₀, hm₀, rfl⟩ := List.mem_map.mp hm
    have hsome := hvalid m₀ hm₀ n (Model.mem_clone_pins hn)
    rw [isSome_node?] at hsome ⊢
    intro i hi
    have hlt := hsome i hi
    omega
  · rw [hmodels, List.map_map, ← hclone]
    exact List.map_congr_left fun m _ => Model.clone_clone m

theorem cost_of_sameKinds (h : SameKinds start nl) :
    nl.computeOmaxCost opt = start.computeOmaxCost opt := by
  have hkinds (x : Netlist) : x.normals.map (·.kind) =
      (x.normals.map Model.clone).map (·.kind) := by
    rw [List.map_map]
    exact List.map_congr_left fun m _ => (Model.clone_kind m).symm
  have hsame : nl.normals.map (·.kind) = start.normals.map (·.kind) := by
    rw [hkinds, h.2.2, ← hkinds]
  exact computeOmaxCost_of_kinds opt hsame

variable {optRun : PeSynthOptions}

theorem sameKinds_runPass {st : RunState} (h : SameKinds start st.net)
    (id : PassId) : SameKinds start (runPass idPasses opt optRun st id).net := by
  unfold runPass
  split
  · exact h
  split
  · exact h
  split
  · exact h
  · unfold passResult
    dsimp only
    split
    · exact sameKinds_restore h h
    · exact h

theorem sameKinds_fixpointLoop (iters : Nat) (rep : PeSynthReport) (h : SameKinds start net) :
    SameKinds start (fixpointLoop idPasses opt optRun iters (net, rep)).1 := by
  have hfold (ids : List PassId) (st : RunState) (hst : SameKinds start st.net) :
      SameKinds start (ids.foldl (runPass idPasses opt optRun) st).net := by
    induction ids generalizing st with
    | nil => exact hst
    | cons id ids ih => exact ih _ (sameKinds_runPass hst id)
  induction iters generalizing net rep with
  | zero => exact h
  | succ iters ih =>
    have honce : SameKinds start (runOnce idPasses opt optRun net).1 :=
      hfold PassId.order { net } h
    unfold fixpointLoop
    dsimp only
    split
    · exact honce
    · exact ih _ honce

/-- What a search with passes that change nothing maintains. -/
structure IdInv (opt : PeSynthOptions) (start : Netlist) (st : SearchState) : Prop where
  live : SameKinds start st.nl
  best_snapshot : st.bestSnapshot = start.copy
  best_cost : st.bestCost = start.computeOmaxCost opt
  best : cheapest (·.computeOmaxCost opt) start st.reached = start

theorem idInv_runTry (hvalid : start.PinsValid) (h : IdInv opt start st)
    (hrun : runTry idPasses order opt ref iter st = .ok st') :
    IdInv opt start st' := by
  have hstart : SameKinds start (tryStart opt iter st) := by
    unfold tryStart
    split
    · rw [h.best_snapshot]
      exact sameKinds_restore ⟨hvalid, rfl, rfl⟩ h.live
    · exact h.live
  have hkeep {nl : Netlist} {rep : PeSynthReport} (hnl : SameKinds start nl) :
      IdInv opt start (keepBest opt st nl rep) := by
    have hcost : nl.computeOmaxCost opt = start.computeOmaxCost opt := cost_of_sameKinds hnl
    have hbest : cheapest (·.computeOmaxCost opt) start (st.reached ++ [nl]) = start := by
      rw [cheapest_append, h.best, if_neg (by omega)]
    have hlt : ¬ nl.computeOmaxCost opt < st.bestCost := by
      rw [h.best_cost]
      omega
    unfold keepBest
    dsimp only
    simp only [hlt, if_false]
    exact ⟨hnl, h.best_snapshot, h.best_cost, hbest⟩
  have hreach : SameKinds start (fixpointLoop idPasses opt (makeTryOpt opt iter) 8
      (tryStart opt iter st, {})).1 := sameKinds_fixpointLoop 8 {} hstart
  unfold runTry at hrun
  dsimp only at hrun
  split at hrun
  · split at hrun
    · cases hrun
    · cases hrun
      exact hkeep hreach
  · cases hrun
    exact hkeep hreach

theorem idInv_searchLoop (hvalid : start.PinsValid) (left iter : Nat) (h : IdInv opt start st)
    (hrun : searchLoop idPasses order opt elapsedMs ref left iter st = .ok st') :
    IdInv opt start st' := by
  induction left generalizing iter st with
  | zero =>
    cases hrun
    exact h
  | succ left ih =>
    unfold searchLoop at hrun
    split at hrun
    · cases hrun
      exact h
    · split at hrun
      · cases hrun
      · rename_i st₁ htry
        exact ih (iter + 1) (idInv_runTry hvalid h htry) hrun

theorem searchLoop_ok (hverify : opt.omaxVerify = false) (ref : Netlist) (left iter : Nat)
    (st : SearchState) :
    ∃ st', searchLoop passes order opt elapsedMs ref left iter st = .ok st' := by
  induction left generalizing iter st with
  | zero => exact ⟨st, rfl⟩
  | succ left ih =>
    unfold searchLoop
    split
    · exact ⟨st, rfl⟩
    · simp only [runTry, hverify]
      exact ih _ _

theorem search_idPasses (hverify : opt.omaxVerify = false) (hvalid : start.PinsValid) :
    ∃ r, search idPasses order opt elapsedMs start = .ok r ∧
      r.nl.normals = start.normals.map Model.clone ∧
      cheapest (·.computeOmaxCost opt) start r.reached = start := by
  have hok : ∃ st, searchLoop idPasses order opt elapsedMs start.copy (tries opt) 0
      (initState opt start) = .ok st := searchLoop_ok hverify _ _ _ _
  obtain ⟨st, hst⟩ := hok
  have hinv : IdInv opt start st :=
    idInv_searchLoop hvalid (tries opt) 0 ⟨⟨hvalid, rfl, rfl⟩, rfl, rfl, rfl⟩ hst
  refine ⟨_, by rw [search, hst], ?_, hinv.best⟩
  rw [hinv.best_snapshot]
  exact normals_restore_copy hvalid st.nl hinv.live.2.1.ge

theorem not_search_ok_of_verilog (hclock : ∀ i, ¬ timedOut opt elapsedMs i)
    (hverify : opt.omaxVerify = true) {m : Model} (hm : m ∈ start.normals)
    (hk : m.kind = .verilogModule) (r : Result) :
    search passes order opt elapsedMs start ≠ .ok r := by
  have hread : buildCombEvalNet start.copy = none := by
    by_contra hne
    obtain ⟨net, hnet⟩ := Option.ne_none_iff_exists'.mp hne
    have hacc := (CombEvalNet.buildCombEvalNet_eq_some.mp hnet).1 m.clone (by
      rw [normals_copy]
      exact List.mem_map_of_mem hm)
    simp [CombEvalNet.accepted, hk, ModelKind.deviceType, CombEvalNet.readGate,
      CombEvalNet.isUnaryGate, CombEvalNet.isBinaryGate] at hacc
  have htry (st : SearchState) : ∃ why, runTry passes order opt start.copy 0 st = .error why := by
    refine ⟨"omax_verify: unsupported netlist for comb verification", ?_⟩
    simp [runTry, hverify, omaxVerifyEquivalence, hread]
  have hpos : 0 < tries opt := tries_pos
  obtain ⟨n, hn⟩ := Nat.exists_eq_succ_of_ne_zero hpos.ne'
  obtain ⟨why, hwhy⟩ := htry (initState opt start)
  simp [search, hn, searchLoop, hclock 0, hwhy]

/-- Whatever the passes, a search that is not cut short leaves the cheapest netlist, if and
only if no connected `VERILOG_MODULE` is in the netlist it starts from (or the verification,
which rejects such a netlist, is on). -/
theorem search_exact_iff (order : MapOrder) (opt : PeSynthOptions) (elapsedMs : Nat → Nat)
    (start : Netlist) (hvalid : start.PinsValid) (hclock : ∀ i, ¬ timedOut opt elapsedMs i) :
    (∀ passes r, search passes order opt elapsedMs start = .ok r → Exact passes opt start r) ↔
      opt.omaxVerify = true ∨ ∀ m ∈ start.normals, ¬ m.IsConnectedVerilog := by
  constructor
  · intro hall
    by_cases hverify : opt.omaxVerify = true
    · exact Or.inl hverify
    · right
      have hrun : ∃ r, search idPasses order opt elapsedMs start = .ok r ∧ _ :=
        search_idPasses (Bool.not_eq_true _ ▸ hverify) hvalid
      obtain ⟨r, hr, hmodels, hbest⟩ := hrun
      have hexact := (hall idPasses r hr).models
      rw [hmodels, hbest] at hexact
      exact (map_clone_eq_iff _).mp hexact
  · intro hcond passes r hr
    by_cases hv : ∀ m ∈ start.normals, ¬ m.IsConnectedVerilog
    · exact exact_of_optimisable hclock ⟨hvalid, hv⟩ hr
    · obtain hverify | hv' := hcond
      · push Not at hv
        obtain ⟨m, hm, hk, -⟩ := hv
        exact absurd hr (not_search_ok_of_verilog hclock hverify hm hk r)
      · exact absurd hv' hv

end Search

/-- The search on a single connected `INPUT`. -/
theorem search_exact_input :
    ∃ r, search idPasses OmaxVerify.insertionOrder { optLevel := 5, omaxMaxIter := 1 } (fun _ => 0)
      (single .input 0) = .ok r ∧
      Exact idPasses { optLevel := 5, omaxMaxIter := 1 } (single .input 0) r := by
  refine ⟨_, rfl, ?_⟩
  refine (search_exact_iff OmaxVerify.insertionOrder { optLevel := 5, omaxMaxIter := 1 } (fun _ => 0)
    (single .input 0) (consistent_single .input 0).pins_valid ?_).mpr
    (Or.inr ?_) idPasses _ rfl
  · intro i h
    exact h.1 rfl
  · rintro m hm ⟨hk, -⟩
    have hmodels : (single .input 0).normals =
        [⟨.input, "m", [], [some (.node 0)]⟩] := by decide
    rw [hmodels, List.mem_singleton] at hm
    subst hm
    cases hk

/-- One connected `VERILOG_MODULE`, one try, passes that change nothing: the netlist that is
left has lost the connection, and so equals neither candidate. -/
theorem search_loses_connection :
    (single .verilogModule 0).Consistent ∧
      ∃ r, search idPasses OmaxVerify.insertionOrder { optLevel := 5, omaxMaxIter := 1 }
        (fun _ => 0) (single .verilogModule 0) = .ok r ∧
        ∀ nl ∈ single .verilogModule 0 :: r.reached,
          r.nl.normals ≠ nl.normals := by
  refine ⟨consistent_single _ _, _, rfl, ?_⟩
  decide

end Omax

end PhyEngine
