import Mathlib.Algebra.GroupWithZero.Nat
import Mathlib.Data.List.Perm.Subperm
import Mathlib.Data.List.Nodup
import Mathlib.Data.List.Range
import Mathlib.Algebra.Order.BigOperators.Group.List
import Mathlib.Algebra.Order.Group.Nat

/-!
# Covers of the Quine-McCluskey minimiser

`qm_prime_implicants` and `qm_exact_minimum_cover`. The first frame of the exact cover is pruned
against the cost of the essential primes themselves, so nothing is ever added to them
(`qmExactMinimumCover_eq`). Costs stay far below `2 ^ 64` and are natural numbers here.
-/

namespace PhyEngine

open List

/-- `qm_implicant`; a set bit of the mask is a variable the cube does not read. The flag
`combined` lives only inside one round and is computed there. -/
structure QmImplicant where
  value : UInt16
  mask : UInt16
  deriving DecidableEq

inductive TwoLevelCostModel where
  | gateCount
  | literalCount
  deriving DecidableEq

structure TwoLevelCostWeights where
  notW : UInt16 := 1
  andW : UInt16 := 1
  orW : UInt16 := 1

/-- The fields of `pe_synth_options` that the cost of a cover reads. -/
structure TwoLevelOptions where
  twoLevelCost : TwoLevelCostModel := .gateCount
  twoLevelWeights : TwoLevelCostWeights := {}

def popcount16 (x : UInt16) : Nat :=
  ((List.range 16).map fun i => (x.toNat.testBit i).toNat).sum

variable (imp : QmImplicant)

def implicantCovers (m : UInt16) : Bool :=
  (m &&& ~~~imp.mask) == (imp.value &&& ~~~imp.mask)

def implicantLiterals (vars : Nat) : Nat :=
  popcount16 (~~~imp.mask &&& UInt16.ofNat (2 ^ vars - 1))

/-- The cube two implicants merge into, when they differ in one variable that both read. -/
def mergeImplicants (varMask : UInt16) (a b : QmImplicant) : Option QmImplicant :=
  let diff := (a.value ^^^ b.value) &&& ~~~a.mask &&& varMask
  if a.mask = b.mask ∧ popcount16 diff = 1 then
    some { value := a.value &&& ~~~diff, mask := a.mask ||| diff }
  else none

def orderedPairs {α : Type} : List α → List (α × α)
  | [] => []
  | a :: as => as.map (fun b => (a, b)) ++ orderedPairs as

def pushNew {α : Type} [DecidableEq α] (xs : List α) (x : α) : List α :=
  if x ∈ xs then xs else xs ++ [x]

def nextRound (varMask : UInt16) (current : List QmImplicant) : List QmImplicant :=
  ((orderedPairs current).filterMap fun p => mergeImplicants varMask p.1 p.2).foldl pushNew []

/-- The flag `combined` after the two loops of a round: no entry merges with itself, and
the test is symmetric. -/
def isCombined (varMask : UInt16) (current : List QmImplicant) (a : QmImplicant) : Bool :=
  current.any fun b => (mergeImplicants varMask a b).isSome

/-- The loop of `qm_prime_implicants`; without fuel it has not ended. -/
def primeRounds (varMask : UInt16) :
    Nat → List QmImplicant → List QmImplicant → Option (List QmImplicant)
  | 0, _, _ => none
  | fuel + 1, current, primes =>
    let primes :=
      (current.filter fun a => !isCombined varMask current a).foldl pushNew primes
    let next := nextRound varMask current
    if next = [] then some primes else primeRounds varMask fuel next primes

def qmPrimeImplicants (fuel : Nat) (on dc : List UInt16) (vars : Nat) :
    Option (List QmImplicant) :=
  let varMask := if 16 ≤ vars then 0xFFFF else UInt16.ofNat (2 ^ vars - 1)
  primeRounds varMask fuel
    (on.map (fun m => ⟨m, 0⟩) ++ dc.map (fun m => ⟨m, 0⟩)) []

def cubeLits (vars : Nat) : Nat :=
  (List.range vars).countP fun v => !imp.mask.toNat.testBit v

variable (cover : List QmImplicant)

def negUsed (v : Nat) : Bool :=
  cover.any fun imp => !imp.mask.toNat.testBit v && !imp.value.toNat.testBit v

/-- `two_level_cover_cost`; the truncated subtractions are the guards `>= 2`. -/
def twoLevelCoverCost (vars : Nat) (opt : TwoLevelOptions) : Nat :=
  match opt.twoLevelCost with
  | .literalCount => (cover.map fun imp => implicantLiterals imp vars).sum
  | .gateCount =>
    let notCost := (List.range vars).countP fun v => negUsed cover v
    let andCost := (cover.map fun imp => cubeLits imp vars - 1).sum
    let orCost := cover.length - 1
    opt.twoLevelWeights.notW.toNat * notCost + opt.twoLevelWeights.andW.toNat * andCost
      + opt.twoLevelWeights.orW.toNat * orCost

def pickCubes (primes : List QmImplicant) (pick : List Nat) : List QmImplicant :=
  pick.filterMap fun idx => primes[idx]?

def qmCoverCost (primes : List QmImplicant) (pick : List Nat) (vars : Nat)
    (opt : TwoLevelOptions) : Nat :=
  twoLevelCoverCost (pickCubes primes pick) vars opt

/-- `static_cast<std::size_t>(-1)`, the cost of no solution. -/
def noCost : Nat := 2 ^ 64 - 1

structure QmSolution where
  pick : List Nat := []
  cost : Nat := noCost
  deriving DecidableEq

def primeCovers (primes : List QmImplicant) (m : UInt16) (pi : Nat) : Bool :=
  match primes[pi]? with
  | some imp => implicantCovers imp m
  | none => false

def coversOf (primes : List QmImplicant) (m : UInt16) : List Nat :=
  (List.range primes.length).filter (primeCovers primes m)

def scanCandidates (picked : List Nat) : List Nat → Nat → Nat → Nat × Nat
  | [], alive, last => (alive, last)
  | pi :: rest, alive, last =>
    if pi ∈ picked then (2, last)
    else if 1 < alive + 1 then (alive + 1, pi)
    else scanCandidates picked rest (alive + 1) pi

def markCovered (primes : List QmImplicant) (on : List UInt16) (covered : List Bool) (pi : Nat) :
    List Bool :=
  List.zipWith (fun c m => c || primeCovers primes m pi) covered on

structure Essentials where
  covered : List Bool
  picked : List Nat
  changed : Bool

def essentialAt (primes : List QmImplicant) (on : List UInt16) (s : Essentials)
    (entry : UInt16 × Nat) : Essentials :=
  if s.covered.getD entry.2 false then s
  else
    let scan := scanCandidates s.picked (coversOf primes entry.1) 0 0
    if scan.1 = 1 then
      { covered := markCovered primes on s.covered scan.2
        picked := s.picked ++ [scan.2]
        changed := true }
    else s

def essentialPass (primes : List QmImplicant) (on : List UInt16) (s : Essentials) : Essentials :=
  on.zipIdx.foldl (essentialAt primes on) { s with changed := false }

def essentialLoop (primes : List QmImplicant) (on : List UInt16) : Nat → Essentials → Option Essentials
  | 0, _ => none
  | fuel + 1, s =>
    let s' := essentialPass primes on s
    if s'.changed then essentialLoop primes on fuel s' else some s'

structure CoverFrame where
  pickMark : Nat
  covMark : Nat
  nextM : Nat := 0
  optionI : Nat := 0
  inited : Bool := false

structure CoverSearch where
  best : QmSolution
  covered : List Bool
  picked : List Nat
  selected : List Bool
  covTrail : List Nat

def CoverSearch.undoTo (s : CoverSearch) (pickMark covMark : Nat) : CoverSearch :=
  { s with
    covered := (s.covTrail.drop covMark).foldr (fun mj c => c.set mj false) s.covered
    covTrail := s.covTrail.take covMark
    selected := (s.picked.drop pickMark).foldr (fun pi c => c.set pi false) s.selected
    picked := s.picked.take pickMark }

/-- The selection of an option: the prime is picked if it was not, and the minterms that it
newly covers go on the trail. -/
def CoverSearch.select (primes : List QmImplicant) (on : List UInt16) (s : CoverSearch)
    (pi : Nat) : CoverSearch :=
  let fresh := on.zipIdx.filter fun entry =>
    !s.covered.getD entry.2 false && primeCovers primes entry.1 pi
  let newlyPicked := !s.selected.getD pi true
  { s with
    selected := if newlyPicked then s.selected.set pi true else s.selected
    picked := if newlyPicked then s.picked ++ [pi] else s.picked
    covered := markCovered primes on s.covered pi
    covTrail := s.covTrail ++ fresh.map (·.2) }

/-- The loop over the stack of frames; the head of the list is the back of `st`. -/
def coverLoop (primes : List QmImplicant) (on : List UInt16) (vars : Nat)
    (opt : TwoLevelOptions) : Nat → List CoverFrame → CoverSearch → Option QmSolution
  | _, [], s => some s.best
  | 0, _ :: _, _ => none
  | fuel + 1, f :: st, s =>
    if f.inited = false then
      let cost := qmCoverCost primes s.picked vars opt
      if s.best.cost ≠ noCost ∧ s.best.cost ≤ cost then
        coverLoop primes on vars opt fuel st (s.undoTo f.pickMark f.covMark)
      else
        match s.covered.findIdx? (fun c => !c) with
        | none =>
          let s := if cost < s.best.cost then { s with best := ⟨s.picked, cost⟩ } else s
          coverLoop primes on vars opt fuel st (s.undoTo f.pickMark f.covMark)
        | some mi =>
          coverLoop primes on vars opt fuel
            ({ f with nextM := mi, optionI := 0, inited := true } :: st) s
    else
      match ((on[f.nextM]?.map (coversOf primes)).getD [])[f.optionI]? with
      | none => coverLoop primes on vars opt fuel st (s.undoTo f.pickMark f.covMark)
      | some pi =>
        let f := { f with optionI := f.optionI + 1 }
        if primes.length ≤ pi then coverLoop primes on vars opt fuel (f :: st) s
        else
          coverLoop primes on vars opt fuel
            ({ pickMark := s.picked.length, covMark := s.covTrail.length } :: f :: st)
            (s.select primes on pi)

def qmExactMinimumCover (fuel : Nat) (primes : List QmImplicant) (on : List UInt16)
    (vars : Nat) (opt : TwoLevelOptions) : Option QmSolution :=
  if on = [] then some { pick := [], cost := 0 }
  else if on.any (fun m => (coversOf primes m).isEmpty) then some {}
  else
    match essentialLoop primes on fuel
        { covered := on.map fun _ => false, picked := [], changed := true } with
    | none => none
    | some s =>
      let best : QmSolution :=
        { pick := s.picked, cost := qmCoverCost primes s.picked vars opt }
      if s.covered.all id then some best
      else
        coverLoop primes on vars opt fuel
          [{ pickMark := s.picked.length, covMark := 0 }]
          { best := best
            covered := s.covered
            picked := s.picked
            selected := s.picked.foldl (fun sel pi => sel.set pi true) (primes.map fun _ => false)
            covTrail := [] }

theorem popcount16_le (x : UInt16) : popcount16 x ≤ 16 := by
  have h := sum_le_card_nsmul
    ((List.range 16).map fun i => (x.toNat.testBit i).toNat) 1 (by
      intro n hn
      obtain ⟨i, -, rfl⟩ := mem_map.mp hn
      exact Bool.toNat_le _)
  simpa [popcount16] using h

theorem popcount16_or {a d : UInt16} (h : a &&& d = 0) :
    popcount16 (a ||| d) = popcount16 a + popcount16 d := by
  unfold popcount16
  rw [← sum_map_add]
  congr 1
  refine map_congr_left fun i _ => ?_
  have hbit : (a &&& d).toNat.testBit i = false := by
    rw [h]
    simp
  rw [UInt16.toNat_and, Nat.testBit_and] at hbit
  rw [UInt16.toNat_or, Nat.testBit_or]
  cases ha : a.toNat.testBit i <;> cases hd : d.toNat.testBit i <;> simp_all

theorem and_complement_and (a x v : UInt16) : a &&& (x &&& ~~~a &&& v) = 0 := by
  apply UInt16.toBitVec_inj.mp
  simp only [UInt16.toBitVec_and, UInt16.toBitVec_not]
  ext i hi
  simp
  grind

variable {varMask : UInt16} {c : QmImplicant}

theorem popcount16_merge {a b : QmImplicant}
    (h : mergeImplicants varMask a b = some c) : popcount16 c.mask = popcount16 a.mask + 1 := by
  simp only [mergeImplicants] at h
  split at h
  · rename_i hcond
    cases h
    rw [popcount16_or (and_complement_and _ _ _), hcond.2]
  · cases h

variable {α : Type}

theorem mem_of_mem_orderedPairs {xs : List α} {p : α × α} (h : p ∈ orderedPairs xs) :
    p.1 ∈ xs := by
  induction xs with
  | nil => cases h
  | cons a as ih =>
    rcases mem_append.mp h with hmap | hrest
    · obtain ⟨b, -, rfl⟩ := mem_map.mp hmap
      exact mem_cons_self
    · exact mem_cons_of_mem _ (ih hrest)

theorem mem_foldl_pushNew [DecidableEq α] {x : α} (ys xs : List α)
    (h : x ∈ ys.foldl pushNew xs) : x ∈ xs ∨ x ∈ ys := by
  induction ys generalizing xs with
  | nil => exact .inl h
  | cons y ys ih =>
    rcases ih _ h with hx | hx
    · simp only [pushNew] at hx
      split at hx
      · exact .inl hx
      · rcases mem_append.mp hx with hx | hx
        · exact .inl hx
        · exact .inr (by simp_all)
    · exact .inr (mem_cons_of_mem _ hx)

theorem popcount16_of_mem_nextRound {current : List QmImplicant} {k : Nat}
    (hk : ∀ a ∈ current, popcount16 a.mask = k)
    (hc : c ∈ nextRound varMask current) : popcount16 c.mask = k + 1 := by
  rcases mem_foldl_pushNew _ _ hc with hnil | hmem
  · cases hnil
  · obtain ⟨p, hp, hmerge⟩ := mem_filterMap.mp hmem
    rw [popcount16_merge hmerge, hk _ (mem_of_mem_orderedPairs hp)]

-- In round `k` every mask has `k` bits, so the round of the full mask merges nothing.
theorem primeRounds_eq_some (varMask : UInt16) (fuel k : Nat) (current primes : List QmImplicant)
    (hk : ∀ a ∈ current, popcount16 a.mask = k) (hfuel : 17 ≤ fuel + k) (hle : k ≤ 16) :
    ∃ primes', primeRounds varMask fuel current primes = some primes' := by
  induction fuel generalizing k current primes with
  | zero => omega
  | succ fuel ih =>
    simp only [primeRounds]
    split
    · exact ⟨_, rfl⟩
    · rename_i hnext
      have hk' := fun c (hc : c ∈ nextRound varMask current) => popcount16_of_mem_nextRound hk hc
      obtain ⟨c, hc⟩ := exists_mem_of_ne_nil _ hnext
      have := hk' c hc
      have := popcount16_le c.mask
      exact ih (k + 1) _ _ hk' (by omega) (by omega)

theorem qmPrimeImplicants_eq_some (fuel : Nat) (hfuel : 17 ≤ fuel) (on dc : List UInt16)
    (vars : Nat) : ∃ primes, qmPrimeImplicants fuel on dc vars = some primes := by
  unfold qmPrimeImplicants
  refine primeRounds_eq_some _ fuel 0 _ _ ?_ (by omega) (by omega)
  intro a ha
  rcases mem_append.mp ha with ha | ha
  all_goals
    obtain ⟨m, -, rfl⟩ := mem_map.mp ha
    simp [popcount16]

theorem twoLevelCoverCost_perm {c c' : List QmImplicant} (h : c.Perm c') (vars : Nat)
    (opt : TwoLevelOptions) :
    twoLevelCoverCost c vars opt = twoLevelCoverCost c' vars opt := by
  have hneg : ∀ v, negUsed c v = negUsed c' v := fun v => h.any_eq
  unfold twoLevelCoverCost
  cases opt.twoLevelCost with
  | literalCount => exact (h.map _).sum_eq
  | gateCount => simp only [hneg, h.length_eq, (h.map _).sum_eq]

theorem twoLevelCoverCost_sublist {c c' : List QmImplicant} (h : c.Sublist c') (vars : Nat)
    (opt : TwoLevelOptions) :
    twoLevelCoverCost c vars opt ≤ twoLevelCoverCost c' vars opt := by
  have hsum : ∀ f : QmImplicant → Nat, (c.map f).sum ≤ (c'.map f).sum :=
    fun f => (h.map f).sum_le_sum (by simp)
  unfold twoLevelCoverCost
  cases opt.twoLevelCost with
  | literalCount => exact hsum _
  | gateCount =>
    have hnot : (List.range vars).countP (fun v => negUsed c v)
        ≤ (List.range vars).countP (fun v => negUsed c' v) := by
      refine countP_mono_left fun v _ hv => ?_
      obtain ⟨imp, himp, hlit⟩ := any_eq_true.mp hv
      exact any_eq_true.mpr ⟨imp, h.subset himp, hlit⟩
    have hor : c.length - 1 ≤ c'.length - 1 := by
      have := h.length_le
      omega
    exact Nat.add_le_add (Nat.add_le_add (Nat.mul_le_mul_left _ hnot)
      (Nat.mul_le_mul_left _ (hsum _))) (Nat.mul_le_mul_left _ hor)

theorem qmCoverCost_mono (primes : List QmImplicant) {pick pick' : List Nat} (hnodup : pick.Nodup)
    (hsub : pick ⊆ pick') (vars : Nat) (opt : TwoLevelOptions) :
    qmCoverCost primes pick vars opt ≤ qmCoverCost primes pick' vars opt := by
  obtain ⟨mid, hperm, hmid⟩ := subperm_of_subset hnodup hsub
  calc qmCoverCost primes pick vars opt
      = qmCoverCost primes mid vars opt :=
        (twoLevelCoverCost_perm (hperm.filterMap _) vars opt).symm
    _ ≤ qmCoverCost primes pick' vars opt :=
        twoLevelCoverCost_sublist (hmid.filterMap _) vars opt

variable {primes : List QmImplicant} {pi vars : Nat} {on : List UInt16} {entry : UInt16 × Nat}

theorem primeCovers_iff {m : UInt16} :
    primeCovers primes m pi = true ↔ pi ∈ coversOf primes m := by
  simp only [coversOf, mem_filter, mem_range]
  refine ⟨fun h => ⟨?_, h⟩, fun h => h.2⟩
  by_contra hlt
  simp [primeCovers, getElem?_eq_none (Nat.le_of_not_lt hlt)] at h

/-- A prime that is the only one to cover some minterm of the ON-set. -/
def IsEssential (primes : List QmImplicant) (on : List UInt16) (pi : Nat) : Prop :=
  ∃ m ∈ on, coversOf primes m = [pi]

instance (primes : List QmImplicant) (on : List UInt16) (pi : Nat) :
    Decidable (IsEssential primes on pi) :=
  inferInstanceAs (Decidable (∃ m ∈ on, coversOf primes m = [pi]))

structure EssentialInv (primes : List QmImplicant) (on : List UInt16) (s : Essentials) : Prop where
  covered : s.covered = on.map fun m => s.picked.any (primeCovers primes m)
  nodup : s.picked.Nodup
  essential : ∀ pi ∈ s.picked, IsEssential primes on pi

theorem scanCandidates_singleton (picked : List Nat) (h : pi ∉ picked) :
    scanCandidates picked [pi] 0 0 = (1, pi) := by
  simp [scanCandidates, h]

theorem scanCandidates_eq_one {picked cand : List Nat} (h : ∀ pi ∈ cand, pi ∉ picked)
    (hone : (scanCandidates picked cand 0 0).1 = 1) : ∃ pi, cand = [pi] := by
  match cand with
  | [] => cases hone
  | [pi] => exact ⟨pi, rfl⟩
  | p :: q :: rest => simp [scanCandidates, h p (by simp), h q (by simp)] at hone

variable {s : Essentials}

section

variable (hs : EssentialInv primes on s) (hentry : entry ∈ on.zipIdx)

include hs hentry

theorem EssentialInv.getD_covered :
    s.covered.getD entry.2 false = s.picked.any (primeCovers primes entry.1) := by
  have hget : on[entry.2]? = some entry.1 := mem_zipIdx_iff_getElem?.mp hentry
  rw [hs.covered, getD_eq_getElem?_getD, getElem?_map, hget]
  rfl

/-- What the body of the loop does: nothing, or it picks the only prime of an uncovered
minterm. -/
theorem essentialAt_cases :
    (essentialAt primes on s entry = s ∧
      ∀ pi, coversOf primes entry.1 = [pi] → pi ∈ s.picked) ∨
    ∃ pi, coversOf primes entry.1 = [pi] ∧ pi ∉ s.picked ∧
      essentialAt primes on s entry =
        { covered := markCovered primes on s.covered pi
          picked := s.picked ++ [pi]
          changed := true } := by
  have hcov := hs.getD_covered hentry
  unfold essentialAt
  rw [hcov]
  by_cases hany : s.picked.any (primeCovers primes entry.1) = true
  · refine .inl ⟨by simp [hany], ?_⟩
    intro pi hpi
    obtain ⟨q, hq, hcovers⟩ := any_eq_true.mp hany
    have hmem := primeCovers_iff.mp hcovers
    rw [hpi, mem_singleton] at hmem
    exact hmem ▸ hq
  · have hfresh : ∀ pi ∈ coversOf primes entry.1, pi ∉ s.picked := by
      intro pi hpi hmem
      exact hany (any_eq_true.mpr ⟨pi, hmem, primeCovers_iff.mpr hpi⟩)
    rw [if_neg hany]
    by_cases hone : (scanCandidates s.picked (coversOf primes entry.1) 0 0).1 = 1
    · obtain ⟨pi, hpi⟩ := scanCandidates_eq_one hfresh hone
      have hpick : pi ∉ s.picked := hfresh pi (by simp [hpi])
      refine .inr ⟨pi, hpi, hpick, ?_⟩
      simp only [hpi, scanCandidates_singleton _ hpick, if_true]
    · refine .inl ⟨by simp [hone], ?_⟩
      intro pi hpi
      have hpick : pi ∉ s.picked := hfresh pi (by simp [hpi])
      rw [hpi, scanCandidates_singleton _ hpick] at hone
      exact absurd rfl hone

theorem EssentialInv.pick (hpi : coversOf primes entry.1 = [pi]) (hnew : pi ∉ s.picked) :
    EssentialInv primes on
      { covered := markCovered primes on s.covered pi, picked := s.picked ++ [pi], changed := true } := by
  constructor
  · show markCovered primes on s.covered pi = _
    rw [hs.covered, markCovered]
    apply ext_getElem
    · simp
    · intro i h₁ h₂
      simp
  · exact nodup_append.mpr ⟨hs.nodup, nodup_singleton _, by
      intro a ha b hb
      rw [mem_singleton.mp hb]
      exact fun hab => hnew (hab ▸ ha)⟩
  · intro q hq
    rcases mem_append.mp hq with hq | hq
    · exact hs.essential q hq
    · rw [mem_singleton.mp hq]
      exact ⟨entry.1, (mem_zipIdx hentry).2.2 ▸ getElem_mem _, hpi⟩

theorem EssentialInv.essentialAt :
    EssentialInv primes on (essentialAt primes on s entry) := by
  obtain ⟨heq, -⟩ | ⟨pi, hpi, hnew, heq⟩ := essentialAt_cases hs hentry
  · rw [heq]
    exact hs
  · rw [heq]
    exact hs.pick hentry hpi hnew

end

theorem essentialPass_spec (entries : List (UInt16 × Nat)) (hsub : ∀ e ∈ entries, e ∈ on.zipIdx) (s : Essentials)
    (hs : EssentialInv primes on s) :
    EssentialInv primes on (entries.foldl (essentialAt primes on) s) ∧
      s.picked ⊆ (entries.foldl (essentialAt primes on) s).picked ∧
      (entries.foldl (essentialAt primes on) s).picked.length ≤ s.picked.length + entries.length ∧
      ∀ e ∈ entries, ∀ pi, coversOf primes e.1 = [pi] →
        pi ∈ (entries.foldl (essentialAt primes on) s).picked := by
  induction entries generalizing s with
  | nil => exact ⟨hs, List.Subset.refl _, by simp, by simp⟩
  | cons e entries ih =>
    have he := hsub e mem_cons_self
    obtain ⟨hinv, hgrow, hlen, hall⟩ :=
      ih (fun e' he' => hsub e' (mem_cons_of_mem _ he')) _ (hs.essentialAt he)
    have hstep : s.picked ⊆ (essentialAt primes on s e).picked ∧
        (essentialAt primes on s e).picked.length ≤ s.picked.length + 1 ∧
        ∀ pi, coversOf primes e.1 = [pi] → pi ∈ (essentialAt primes on s e).picked := by
      obtain ⟨heq, hpick⟩ | ⟨pi, hpi, -, heq⟩ := essentialAt_cases hs he
      · rw [heq]
        exact ⟨List.Subset.refl _, by omega, hpick⟩
      · rw [heq]
        refine ⟨subset_append_left _ _, by simp, ?_⟩
        intro q hq
        rw [hpi] at hq
        simp_all
    simp only [foldl_cons]
    refine ⟨hinv, List.Subset.trans hstep.1 hgrow, ?_, ?_⟩
    · have := hstep.2.1
      simp only [length_cons]
      omega
    · intro e' he' pi hpi
      rcases mem_cons.mp he' with rfl | hmem
      · exact hgrow (hstep.2.2 pi hpi)
      · exact hall e' hmem pi hpi

theorem foldl_essentialAt_of_complete (entries : List (UInt16 × Nat)) (hsub : ∀ e ∈ entries, e ∈ on.zipIdx)
    (s : Essentials) (hs : EssentialInv primes on s)
    (hall : ∀ e ∈ entries, ∀ pi, coversOf primes e.1 = [pi] → pi ∈ s.picked) :
    entries.foldl (essentialAt primes on) s = s := by
  induction entries with
  | nil => rfl
  | cons e entries ih =>
    have he : essentialAt primes on s e = s := by
      obtain ⟨heq, -⟩ | ⟨pi, hpi, hnew, -⟩ := essentialAt_cases hs (hsub e mem_cons_self)
      · exact heq
      · exact absurd (hall e mem_cons_self pi hpi) hnew
    rw [foldl_cons, he]
    exact ih (fun e' he' => hsub e' (mem_cons_of_mem _ he'))
      (fun e' he' => hall e' (mem_cons_of_mem _ he'))

theorem essentialLoop_eq_some (primes : List QmImplicant) (on : List UInt16) (fuel : Nat)
    (hfuel : 2 ≤ fuel) :
    ∃ s, essentialLoop primes on fuel
        { covered := on.map fun _ => false, picked := [], changed := true } = some s ∧
      EssentialInv primes on s ∧ s.picked.length ≤ on.length ∧
      ∀ pi, IsEssential primes on pi → pi ∈ s.picked := by
  obtain ⟨fuel, rfl⟩ : ∃ n, fuel = n + 2 := ⟨fuel - 2, by omega⟩
  have hinit : EssentialInv primes on
      { covered := on.map fun _ => false, picked := [], changed := false } :=
    ⟨by simp, nodup_nil, by simp⟩
  obtain ⟨hinv, -, hlen, hall⟩ := essentialPass_spec on.zipIdx (fun e he => he) _ hinit
  set s := on.zipIdx.foldl (essentialAt primes on)
    { covered := on.map fun _ => false, picked := [], changed := false } with hsdef
  have hess : ∀ pi, IsEssential primes on pi → pi ∈ s.picked := by
    rintro pi ⟨m, hm, hpi⟩
    obtain ⟨i, hi, rfl⟩ := mem_iff_getElem.mp hm
    exact hall (on[i], i) (by simp [mem_zipIdx_iff_getElem?, hi]) pi hpi
  have hlen' : s.picked.length ≤ on.length := by simpa using hlen
  by_cases hch : s.changed = true
  · have hsecond : essentialPass primes on s = { s with changed := false } :=
      foldl_essentialAt_of_complete on.zipIdx (fun e he => he) _
        ⟨hinv.covered, hinv.nodup, hinv.essential⟩ hall
    refine ⟨{ s with changed := false }, ?_, ⟨hinv.covered, hinv.nodup, hinv.essential⟩,
      hlen', hess⟩
    simp only [essentialLoop, essentialPass, ← hsdef, hch, if_true]
    simp only [essentialPass] at hsecond
    simp [hsecond]
  · refine ⟨s, ?_, hinv, hlen', hess⟩
    simp only [essentialLoop, essentialPass, ← hsdef]
    simp [hch]

theorem sum_map_le_mul (xs : List α) (f : α → Nat) {b : Nat} (h : ∀ x ∈ xs, f x ≤ b) :
    (xs.map f).sum ≤ xs.length * b := by
  have := sum_le_card_nsmul (xs.map f) b (by simpa using h)
  simpa using this

theorem twoLevelCoverCost_lt (vars : Nat) (opt : TwoLevelOptions)
    (hlen : cover.length ≤ 2 ^ 32) (hvar : vars ≤ 32) :
    twoLevelCoverCost cover vars opt < noCost := by
  unfold twoLevelCoverCost noCost
  cases opt.twoLevelCost with
  | literalCount =>
    have := sum_map_le_mul cover (fun imp => implicantLiterals imp vars)
      fun imp _ => popcount16_le _
    simp only
    omega
  | gateCount =>
    have hnot : (List.range vars).countP (fun v => negUsed cover v) ≤ 32 := by
      have := countP_le_length (p := fun v => negUsed cover v) (l := List.range vars)
      simp only [length_range] at this
      omega
    have hlits : ∀ imp ∈ cover, cubeLits imp vars - 1 ≤ 32 := by
      intro imp _
      have := countP_le_length (p := fun v => !imp.mask.toNat.testBit v)
        (l := List.range vars)
      simp only [length_range] at this
      unfold cubeLits
      omega
    have hand : (cover.map fun imp => cubeLits imp vars - 1).sum ≤ 2 ^ 37 := by
      have := sum_map_le_mul cover _ hlits
      omega
    have hw : ∀ w : UInt16, ∀ n ≤ 2 ^ 37, w.toNat * n ≤ 65536 * 2 ^ 37 := fun w n hn =>
      Nat.mul_le_mul (Nat.le_of_lt w.toNat_lt) hn
    have h₁ := hw opt.twoLevelWeights.notW _ (Nat.le_trans hnot (by omega))
    have h₂ := hw opt.twoLevelWeights.andW _ hand
    have h₃ := hw opt.twoLevelWeights.orW (cover.length - 1) (by omega)
    simp only
    omega

def PickCovers (primes : List QmImplicant) (on : List UInt16) (pick : List Nat) : Prop :=
  ∀ m ∈ on, ∃ pi ∈ pick, pi ∈ coversOf primes m

instance (primes : List QmImplicant) (on : List UInt16) (pick : List Nat) :
    Decidable (PickCovers primes on pick) :=
  inferInstanceAs (Decidable (∀ m ∈ on, ∃ pi ∈ pick, pi ∈ coversOf primes m))

def EssentialsCover (primes : List QmImplicant) (on : List UInt16) : Prop :=
  ∀ m ∈ on, ∃ pi ∈ coversOf primes m, IsEssential primes on pi

instance (primes : List QmImplicant) (on : List UInt16) : Decidable (EssentialsCover primes on) :=
  inferInstanceAs (Decidable (∀ m ∈ on, ∃ pi ∈ coversOf primes m, IsEssential primes on pi))

/-- A solution that picks primes, covers the ON-set, has the cost of its pick, and costs no
more than any other choice of primes that covers the ON-set. -/
structure ExactCover (primes : List QmImplicant) (on : List UInt16) (vars : Nat)
    (opt : TwoLevelOptions) (sol : QmSolution) : Prop where
  indices : ∀ pi ∈ sol.pick, pi < primes.length
  covers : PickCovers primes on sol.pick
  cost_eq : sol.cost = qmCoverCost primes sol.pick vars opt
  least : ∀ pick : List Nat, pick.Nodup → (∀ pi ∈ pick, pi < primes.length) →
    PickCovers primes on pick → sol.cost ≤ qmCoverCost primes pick vars opt

-- The first frame costs as much as the best solution known, which is the frame itself.
theorem coverLoop_pruned (primes : List QmImplicant) (on : List UInt16) (vars : Nat)
    (opt : TwoLevelOptions) (fuel : Nat) (f : CoverFrame) (s : CoverSearch)
    (hf : f.inited = false) (hcost : s.best.cost = qmCoverCost primes s.picked vars opt)
    (hlt : s.best.cost < noCost) :
    coverLoop primes on vars opt (fuel + 1) [f] s = some s.best := by
  have hprune : s.best.cost ≠ noCost ∧
      s.best.cost ≤ qmCoverCost primes s.picked vars opt := ⟨by omega, by omega⟩
  simp only [coverLoop, hf, if_true, if_pos hprune]
  cases fuel <;> rfl

variable {fuel : Nat}

theorem qmExactMinimumCover_eq_of_cost (primes : List QmImplicant) (hne : on ≠ []) (opt : TwoLevelOptions)
    (hsome : ∀ m ∈ on, coversOf primes m ≠ [])
    (hcost : ∀ pick : List Nat, pick.Nodup → (∀ pi ∈ pick, IsEssential primes on pi) → pick.length ≤ on.length →
      qmCoverCost primes pick vars opt < noCost)
    (hfuel : 2 ≤ fuel) :
    ∃ pick, qmExactMinimumCover fuel primes on vars opt
        = some { pick := pick, cost := qmCoverCost primes pick vars opt } ∧
      pick.Nodup ∧ ∀ pi, pi ∈ pick ↔ IsEssential primes on pi := by
  obtain ⟨s, hloop, hinv, hpicked, hall⟩ := essentialLoop_eq_some primes on fuel hfuel
  refine ⟨s.picked, ?_, hinv.nodup, fun pi => ⟨hinv.essential pi, hall pi⟩⟩
  have hempty : on.any (fun m => (coversOf primes m).isEmpty) = false := by
    rw [any_eq_false]
    intro m hm
    simpa using hsome m hm
  simp only [qmExactMinimumCover, if_neg hne, hempty, hloop]
  split
  · rename_i h
    cases h
  split
  · rfl
  · obtain ⟨fuel, rfl⟩ : ∃ n, fuel = n + 1 := ⟨fuel - 1, by omega⟩
    exact coverLoop_pruned primes on vars opt fuel _ _ rfl rfl (hcost _ hinv.nodup hinv.essential hpicked)

theorem qmExactMinimumCover_eq (primes : List QmImplicant) (hne : on ≠ []) (hlen : on.length ≤ 64) (hvar : vars ≤ 6)
    (opt : TwoLevelOptions) (hsome : ∀ m ∈ on, coversOf primes m ≠ []) (hfuel : 2 ≤ fuel) :
    ∃ pick, qmExactMinimumCover fuel primes on vars opt
        = some { pick := pick, cost := qmCoverCost primes pick vars opt } ∧
      pick.Nodup ∧ ∀ pi, pi ∈ pick ↔ IsEssential primes on pi := by
  refine qmExactMinimumCover_eq_of_cost primes hne opt hsome (fun pick _ _ hpick => ?_) hfuel
  refine twoLevelCoverCost_lt _ vars opt ?_ (by omega)
  have := length_filterMap_le (fun idx => primes[idx]?) pick
  simp only [pickCubes]
  omega

theorem mem_of_pickCovers {pick : List Nat} (h : PickCovers primes on pick) (hpi : IsEssential primes on pi) :
    pi ∈ pick := by
  obtain ⟨m, hm, hsingle⟩ := hpi
  obtain ⟨q, hq, hcov⟩ := h m hm
  rw [hsingle, mem_singleton] at hcov
  exact hcov ▸ hq

theorem length_le_of_lt (hnodup : on.Nodup) (hlt : ∀ m ∈ on, m.toNat < 2 ^ vars) (hvar : vars ≤ 6) :
    on.length ≤ 64 := by
  have hmap : (on.map UInt16.toNat).Nodup := hnodup.map fun _ _ h => UInt16.toNat_inj.mp h
  have hsub : on.map UInt16.toNat ⊆ List.range (2 ^ vars) := by
    intro n hn
    obtain ⟨m, hm, rfl⟩ := mem_map.mp hn
    exact mem_range.mpr (hlt m hm)
  have hle := (subperm_of_subset hmap hsub).length_le
  have hpow : 2 ^ vars ≤ 2 ^ 6 := Nat.pow_le_pow_right (by omega) hvar
  simp only [length_map, length_range] at hle
  omega

/-- The cover is exact if and only if the essential primes alone cover the ON-set. -/
theorem qmExactMinimumCover_exact_iff (vars : Nat) (hvar : 1 ≤ vars ∧ vars ≤ 6)
    (on dc : List UInt16) (hne : on ≠ []) (hnodup : on.Nodup)
    (hlt : ∀ m ∈ on, m.toNat < 2 ^ vars) (opt : TwoLevelOptions)
    (fuel : Nat) (hfuel : 17 ≤ fuel) :
    ∃ primes sol, qmPrimeImplicants fuel on dc vars = some primes ∧
      qmExactMinimumCover fuel primes on vars opt = some sol ∧
      (ExactCover primes on vars opt sol ↔ EssentialsCover primes on) := by
  obtain ⟨primes, hprimes⟩ := qmPrimeImplicants_eq_some fuel hfuel on dc vars
  have hlen := length_le_of_lt hnodup hlt hvar.2
  by_cases hsome : ∀ m ∈ on, coversOf primes m ≠ []
  · obtain ⟨pick, hsol, hpick, hess⟩ :=
      qmExactMinimumCover_eq primes hne hlen hvar.2 opt hsome (by omega : 2 ≤ fuel)
    refine ⟨primes, _, hprimes, hsol, ?_, ?_⟩
    · intro hexact m hm
      obtain ⟨pi, hpi, hcov⟩ := hexact.covers m hm
      exact ⟨pi, hcov, (hess pi).mp hpi⟩
    · intro hcover
      constructor
      · intro pi hpi
        obtain ⟨m, -, hsingle⟩ := (hess pi).mp hpi
        have hmem : pi ∈ coversOf primes m := by simp [hsingle]
        exact List.mem_range.mp (List.mem_of_mem_filter hmem)
      · intro m hm
        obtain ⟨pi, hcov, hpi⟩ := hcover m hm
        exact ⟨pi, (hess pi).mpr hpi, hcov⟩
      · rfl
      · intro pick' _ _ hcovers
        refine qmCoverCost_mono primes hpick ?_ vars opt
        intro pi hpi
        exact mem_of_pickCovers hcovers ((hess pi).mp hpi)
  · -- A minterm without a prime: the answer is the empty pick, which covers nothing.
    push Not at hsome
    obtain ⟨m, hm, hnil⟩ := hsome
    have hany : on.any (fun m => (coversOf primes m).isEmpty) = true :=
      List.any_eq_true.mpr ⟨m, hm, by simp [hnil]⟩
    refine ⟨primes, {}, hprimes, by simp only [qmExactMinimumCover, if_neg hne, hany, if_true], ?_, ?_⟩
    · intro hexact
      obtain ⟨pi, hpi, -⟩ := hexact.covers m hm
      cases hpi
    · intro hcover
      obtain ⟨pi, hcov, -⟩ := hcover m hm
      rw [hnil] at hcov
      cases hcov

/-- Two variables, the ON-set of their disjunction: both primes are essential. -/
theorem qmExactMinimumCover_exact_or :
    ∃ primes sol, qmPrimeImplicants 17 [1, 2, 3] [] 2 = some primes ∧
      qmExactMinimumCover 17 primes [1, 2, 3] 2 {} = some sol ∧
      (ExactCover primes [1, 2, 3] 2 {} sol ↔ EssentialsCover primes [1, 2, 3]) := by
  have hlt : ∀ m ∈ ([1, 2, 3] : List UInt16), m.toNat < 2 ^ 2 := by
    intro m hm
    simp only [List.mem_cons, List.not_mem_nil, or_false] at hm
    rcases hm with rfl | rfl | rfl <;> decide
  exact qmExactMinimumCover_exact_iff 2 (by omega) [1, 2, 3] [] (by simp) (by simp) hlt {} 17 (by omega)

def cyclicOn : List UInt16 := [0, 1, 2, 5, 6, 7]

def cyclicPrimes : List QmImplicant := [⟨0, 1⟩, ⟨0, 2⟩, ⟨1, 4⟩, ⟨2, 4⟩, ⟨5, 2⟩, ⟨6, 1⟩]

/-- The cyclic ON-set of three variables has six primes and no essential one: the empty
pick is returned at cost `0`. -/
theorem qmExactMinimumCover_cyclic :
    qmPrimeImplicants 17 cyclicOn [] 3 = some cyclicPrimes ∧
      qmExactMinimumCover 17 cyclicPrimes cyclicOn 3 {} = some { pick := [], cost := 0 } ∧
      ¬ ExactCover cyclicPrimes cyclicOn 3 {} { pick := [], cost := 0 } := by
  refine ⟨by decide +kernel, by decide +kernel, ?_⟩
  intro h
  obtain ⟨pi, hpi, -⟩ := h.covers 0 (by simp [cyclicOn])
  cases hpi

end PhyEngine
