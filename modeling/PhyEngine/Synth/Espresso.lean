import PhyEngine.Library.SortedLists
import PhyEngine.Library.SwapPop
import PhyEngine.Synth.CubeWords

/-!
# The Espresso loop

`espresso_two_level_minimize` without CUDA: the minterms of the ON-set are expanded, made
irredundant and reduced in turn; the cheapest valid cover is kept (`EspressoBest`). Costs and
positions are natural numbers; the choice of `expand_cover_batch` is written for one cube.
-/

namespace PhyEngine

open PackedBits SwapPop SortedLists List

structure VarStat where
  v : Nat
  c0 : Nat
  c1 : Nat
  binate : Bool

def VarStat.before (a b : VarStat) : Bool :=
  if a.binate ≠ b.binate then a.binate && !b.binate
  else
    let amin := if a.c0 < a.c1 then a.c0 else a.c1
    let bmin := if b.c0 < b.c1 then b.c0 else b.c1
    if a.binate ∧ amin ≠ bmin then decide (bmin < amin)
    else
      let atot := a.c0 + a.c1
      let btot := b.c0 + b.c1
      if atot ≠ btot then decide (btot < atot) else decide (a.v < b.v)

variable (on dc : List UInt16)

def varStat (v : Nat) : VarStat :=
  let c1 := (on ++ dc).countP fun m => m.toNat.testBit v
  let c0 := (on ++ dc).countP fun m => !m.toNat.testBit v
  { v, c0, c1, binate := decide (c0 ≠ 0 ∧ c1 ≠ 0) }

def espressoBinateVarOrder (vars : Nat) : List Nat :=
  (((List.range vars).map (varStat on dc)).insertionSort fun a b => b.before a = false).map (·.v)

/-- The comparison of `step_expand`: cubes with more minterms of the ON-set come first. -/
def moreFirst (a b : Nat × QmImplicant) : Bool := decide (b.1 < a.1)

def QmImplicant.relax (c : QmImplicant) (b : UInt16) : QmImplicant := ⟨c.value &&& ~~~b, c.mask ||| b⟩

def QmImplicant.le (a b : QmImplicant) : Prop := a.mask < b.mask ∨ a.mask = b.mask ∧ a.value ≤ b.value

instance : DecidableRel QmImplicant.le := fun a b =>
  inferInstanceAs (Decidable (a.mask < b.mask ∨ a.mask = b.mask ∧ a.value ≤ b.value))

def dedupe (cover : List QmImplicant) : List QmImplicant :=
  (cover.insertionSort QmImplicant.le).destutter (· ≠ ·)

variable {i : Nat}

section Steps

variable (vars : Nat) (on dc : List UInt16) (order : List Nat)

variable (c : QmImplicant)

def cubeHitsOff : Bool := !isZero (inter (cubeRow vars c) (offBits vars on dc))

def coverHitsOff (cover : List QmImplicant) : Bool := cover.any (cubeHitsOff vars on dc)

def covRow : List (BitVec 64) := inter (cubeRow vars c) (onBits vars on)

def zeroRow : List (BitVec 64) := List.replicate (blocksU vars) 0

def coverCoversAllOn (cover : List QmImplicant) : Bool :=
  on.isEmpty ||
    cover.foldl (fun acc c => union acc (covRow vars on c)) (zeroRow vars) == onBits vars on

/-- The candidates of a cube: one variable less, then two, each with their number. -/
def expandCandidates : List (QmImplicant × Nat) :=
  let bits := (order.take (min order.length 12)).filterMap fun v =>
    if c.mask.toNat.testBit v then none else some (UInt16.ofNat (2 ^ v))
  bits.map (fun b => (c.relax b, 1)) ++ (orderedPairs bits).map fun p => (c.relax (p.1 ||| p.2), 2)

/-- `best` and `best_drop` of a cube: the first safe candidate with the most variables dropped. -/
def bestCandidate : Option QmImplicant × Nat :=
  (expandCandidates order c).foldl (fun best cand =>
    if cubeHitsOff vars on dc cand.1 then best
    else if best.2 < cand.2 then (some cand.1, cand.2) else best) (none, 0)

def expandRounds : Nat → List QmImplicant → List QmImplicant
  | 0, cover => cover
  | rounds + 1, cover =>
    let next := cover.map fun c => (bestCandidate vars on dc order c).1.getD c
    if next = cover then cover else expandRounds rounds next

def suffixOr (cover : List QmImplicant) : List (BitVec 64) :=
  cover.foldr (fun c ws => union ws (covRow vars on c)) (zeroRow vars)

/-- The test of `irredundant` against the rows of the other cubes. -/
def isRedundant (pre suf row : List (BitVec 64)) : Bool := isZero (diff row (union pre suf)) || isZero row

def firstRedundant : List (BitVec 64) → List QmImplicant → Option Nat
  | _, [] => none
  | pre, c :: cover =>
    if isRedundant pre (suffixOr vars on cover) (covRow vars on c) then some 0
    else (firstRedundant (union pre (covRow vars on c)) cover).map (· + 1)

theorem firstRedundant_lt {pre : List (BitVec 64)} {cover : List QmImplicant}
    (h : firstRedundant vars on pre cover = some i) : i < cover.length := by
  induction cover generalizing pre i with
  | nil => cases h
  | cons c cover ih =>
    rw [firstRedundant] at h
    split at h
    · cases h
      exact Nat.zero_lt_succ _
    · obtain ⟨j, hj, rfl⟩ := Option.map_eq_some_iff.mp h
      exact Nat.succ_lt_succ (ih hj)

/-- `irredundant`: after a removal the scan starts again. -/
def irredundant (cover : List QmImplicant) : List QmImplicant :=
  match _h : firstRedundant vars on (zeroRow vars) cover with
  | none => cover
  | some i => irredundant (swapPop cover i)
termination_by cover.length
decreasing_by
  have hlt := firstRedundant_lt vars on _h
  rw [length_swapPop]
  omega

/-- The variables that all minterms of `anchor` agree on are fixed. -/
def specialize (anchor : List (BitVec 64)) (c : QmImplicant) : QmImplicant :=
  order.foldl (fun c v =>
    let bit := UInt16.ofNat (2 ^ v)
    if c.mask.toNat.testBit v = false then c
    else
      let pat := (List.range (blocksU vars)).map fun w => varWord16 w v
      let any1 := !isZero (inter anchor pat)
      let any0 := !isZero (diff anchor pat)
      if any0 = any1 then c
      else ⟨if any1 then c.value ||| bit else c.value &&& ~~~bit, c.mask &&& ~~~bit⟩) c

/-- `reduce_step` from a cube on; the rows are those of the cubes before the step. -/
def reduceRows : List (BitVec 64) → List QmImplicant → List QmImplicant
  | _, [] => []
  | pre, c :: cover =>
    let row := covRow vars on c
    let unique := diff row (union pre (suffixOr vars on cover))
    let anchor := if isZero unique then row else unique
    specialize vars order anchor c :: reduceRows (union pre row) cover

/-- The minterms of the ON-set in a cube, counted word by word. -/
def onCount : Nat := countOnes (covRow vars on c)

variable (sort : StdSort moreFirst)

def stepExpand (cover : List QmImplicant) : List QmImplicant :=
  let ranked := sort.sort (cover.map fun c => (onCount vars on c, c))
  irredundant vars on (dedupe (expandRounds vars on dc order 3 (ranked.map (·.2))))

def stepReduce (cover : List QmImplicant) : List QmImplicant :=
  irredundant vars on (dedupe (reduceRows vars on order (zeroRow vars) cover))

structure EspressoState where
  cover : List QmImplicant
  bestCover : List QmImplicant
  bestCost : Nat

variable (opt : TwoLevelOptions)

/-- The cover at hand becomes the best one when it is valid and cheaper. -/
def EspressoState.improve (s : EspressoState) : EspressoState :=
  if coverCoversAllOn vars on s.cover && !coverHitsOff vars on dc s.cover then
    let cst := twoLevelCoverCost s.cover vars opt
    if cst < s.bestCost then { s with bestCost := cst, bestCover := s.cover } else s
  else s

def espressoIterate : Nat → EspressoState → EspressoState
  | 0, s => s
  | iter + 1, s =>
    let s₁ : EspressoState := { s with cover := stepExpand vars on dc order sort s.cover }
    let s₁ := s₁.improve vars on dc opt
    let s₂ : EspressoState := { s₁ with cover := stepReduce vars on order s₁.cover }
    let s₂ := s₂.improve vars on dc opt
    if s.bestCost ≤ s₂.bestCost then s₂ else espressoIterate iter s₂

def lastGasp (s : EspressoState) (attempt : Nat) : EspressoState :=
  let idx := attempt * 2654435761 % s.bestCover.length
  match s.bestCover[idx]? with
  | none => s
  | some c =>
    match on.find? fun m => implicantCovers c m with
    | none => { s with cover := s.bestCover }
    | some anchor =>
      let cover := s.bestCover.set idx ⟨anchor, 0⟩
      let cover := Nat.repeat
        (fun cover => stepReduce vars on order (stepExpand vars on dc order sort cover)) 4 cover
      let s : EspressoState := { s with cover }
      s.improve vars on dc opt

end Steps

structure EspressoSolution where
  cover : List QmImplicant := []
  cost : Nat := noCost
  complemented : Bool := false

def espressoTwoLevelMinimizeBase (sort : StdSort moreFirst) (on dc : List UInt16) (vars : Nat)
    (opt : TwoLevelOptions) : EspressoSolution :=
  if vars = 0 then { cover := if on = [] then [] else [⟨0, 0⟩], cost := 0 }
  else if 16 < vars then {}
  else
    let order := espressoBinateVarOrder on dc vars
    let order := if order.length = vars then order else List.range vars
    let cover := on.map fun m => (⟨m, 0⟩ : QmImplicant)
    let s : EspressoState := ⟨cover, cover, twoLevelCoverCost cover vars opt⟩
    let s := espressoIterate vars on dc order sort opt 8 s
    let s := if s.bestCover = [] then s
      else (List.range 4).foldl (lastGasp vars on dc order sort opt) s
    if coverCoversAllOn vars on s.bestCover = false then {}
    else if coverHitsOff vars on dc s.bestCover then {}
    else { cover := s.bestCover, cost := s.bestCost }

def TwoLevelOptions.complementPenalty (opt : TwoLevelOptions) : Nat :=
  match opt.twoLevelCost with
  | .literalCount => 1
  | .gateCount => opt.twoLevelWeights.notW.toNat

def offMinterms (vars : Nat) : List UInt16 :=
  ((List.range (2 ^ vars)).map UInt16.ofNat).filter fun m => !(on.contains m || dc.contains m)

def espressoTwoLevelMinimize (sort : StdSort moreFirst) (on dc : List UInt16) (vars : Nat)
    (opt : TwoLevelOptions) : EspressoSolution :=
  let best := espressoTwoLevelMinimizeBase sort on dc vars opt
  if best.cost = noCost then best
  else if vars = 0 ∨ 16 < vars then best
  else
    let off := offMinterms on dc vars
    if off = [] then best
    else
      let comp := espressoTwoLevelMinimizeBase sort off dc vars opt
      if comp.cost = noCost then best
      else if comp.cost + opt.complementPenalty < best.cost then
        { comp with cost := comp.cost + opt.complementPenalty, complemented := true }
      else best

section Rows

variable {vars : Nat} {on dc : List UInt16} {c : QmImplicant} {cover : List QmImplicant}

theorem cubeHitsOff_eq_false : cubeHitsOff vars on dc c = false ↔
    ∀ i, bit (cubeRow vars c) i = true → bit (offBits vars on dc) i = false := by
  rw [cubeHitsOff, Bool.not_eq_false', isZero_iff]
  refine forall_congr' fun i => ?_
  rw [bit_inter (by simp)]
  cases bit (cubeRow vars c) i <;> simp

theorem coverHitsOff_eq_false : coverHitsOff vars on dc cover = false ↔
    ∀ c ∈ cover, cubeHitsOff vars on dc c = false := by
  simp only [coverHitsOff, any_eq_false, Bool.not_eq_true]

@[simp] theorem length_covRow : (covRow vars on c).length = blocksU vars := by simp [covRow]

@[simp] theorem length_zeroRow : (zeroRow vars).length = blocksU vars := length_replicate

theorem bit_covRow (i : Nat) :
    bit (covRow vars on c) i = (bit (cubeRow vars c) i && bit (onBits vars on) i) :=
  bit_inter (by simp) i

theorem bit_foldl_union (vars : Nat) (on : List UInt16) (cover : List QmImplicant) (acc : List (BitVec 64))
    (hlen : acc.length = blocksU vars)
    (i : Nat) : (cover.foldl (fun acc c => union acc (covRow vars on c)) acc).length = blocksU vars ∧
      (bit (cover.foldl (fun acc c => union acc (covRow vars on c)) acc) i = true ↔
        bit acc i = true ∨ ∃ c ∈ cover, bit (covRow vars on c) i = true) := by
  induction cover generalizing acc with
  | nil => simp [hlen]
  | cons c cover ih =>
    rw [foldl_cons]
    obtain ⟨hlength, hbit⟩ := ih (union acc (covRow vars on c)) (by simp [hlen])
    refine ⟨hlength, hbit.trans ?_⟩
    rw [bit_union (by simp [hlen]), Bool.or_eq_true, exists_mem_cons_iff, or_assoc]

theorem coverCoversAllOn_iff : coverCoversAllOn vars on cover = true ↔
    ∀ i, bit (onBits vars on) i = true → ∃ c ∈ cover, bit (cubeRow vars c) i = true := by
  have hacc := fun i => bit_foldl_union vars on cover _ length_zeroRow i
  have hread : ∀ i, bit (cover.foldl (fun acc c => union acc (covRow vars on c)) (zeroRow vars)) i = true ↔
      (∃ c ∈ cover, bit (cubeRow vars c) i = true) ∧ bit (onBits vars on) i = true := by
    intro i
    rw [(hacc i).2, zeroRow, bit_replicate_zero]
    simp only [bit_covRow, Bool.and_eq_true]
    grind
  rw [coverCoversAllOn, Bool.or_eq_true, beq_iff_eq, List.isEmpty_iff]
  constructor
  · rintro (rfl | heq) i hi
    · obtain ⟨-, m, hm, -⟩ := bit_onBits.mp hi
      cases hm
    · rw [← heq] at hi
      exact ((hread i).mp hi).1
  · intro h
    refine .inr (PackedBits.ext (by rw [(hacc 0).1, length_onBits]) fun i => ?_)
    rw [Bool.eq_iff_iff, hread]
    exact ⟨fun hi => hi.2, fun hi => ⟨h i hi, hi⟩⟩

@[simp] theorem length_suffixOr (cover : List QmImplicant) :
    (suffixOr vars on cover).length = blocksU vars := by
  induction cover with
  | nil => simp [suffixOr]
  | cons c cover ih =>
    rw [suffixOr, foldr_cons, length_union, ← suffixOr, ih, length_covRow, Nat.min_self]

theorem bit_suffixOr (cover : List QmImplicant) (i : Nat) :
    bit (suffixOr vars on cover) i = true ↔ ∃ c ∈ cover, bit (covRow vars on c) i = true := by
  induction cover with
  | nil =>
    rw [suffixOr, foldr_nil, zeroRow, bit_replicate_zero]
    simp
  | cons c cover ih =>
    rw [suffixOr, foldr_cons, ← suffixOr, bit_union (by simp), Bool.or_eq_true, ih,
      exists_mem_cons_iff, or_comm]

end Rows

/-- The cover contains the ON-set, avoids the OFF-set and reads only variables of the cone. -/
structure ValidCover (vars : Nat) (on dc : List UInt16) (cover : List QmImplicant) : Prop where
  covers : ∀ i, bit (onBits vars on) i = true → ∃ c ∈ cover, bit (cubeRow vars c) i = true
  avoids : ∀ c ∈ cover, cubeHitsOff vars on dc c = false
  small : ∀ c ∈ cover, c.value.toNat < 2 ^ vars

structure CorrectCover (vars : Nat) (on dc : List UInt16) (cover : List QmImplicant) : Prop where
  covers : ∀ i, bit (onBits vars on) i = true → ∃ c ∈ cover, bit (cubeRow vars c) i = true
  avoids : ∀ c ∈ cover, cubeHitsOff vars on dc c = false

section Valid

variable {vars : Nat} {on dc : List UInt16} {order : List Nat} {c : QmImplicant} {cover cover' : List QmImplicant}

theorem ValidCover.correct (h : ValidCover vars on dc cover) : CorrectCover vars on dc cover :=
  ⟨h.covers, h.avoids⟩

theorem CorrectCover.of_mem_iff (h : CorrectCover vars on dc cover) (hmem : ∀ c, c ∈ cover' ↔ c ∈ cover) :
    CorrectCover vars on dc cover' := by
  refine ⟨fun i hi => ?_, fun c hc => h.avoids c ((hmem c).mp hc)⟩
  obtain ⟨c, hc, hbit⟩ := h.covers i hi
  exact ⟨c, (hmem c).mpr hc, hbit⟩

theorem ValidCover.checks (h : ValidCover vars on dc cover) :
    coverCoversAllOn vars on cover = true ∧ coverHitsOff vars on dc cover = false :=
  ⟨coverCoversAllOn_iff.mpr h.covers, coverHitsOff_eq_false.mpr h.avoids⟩

theorem validCover_minterms (hon : ∀ m ∈ on, m.toNat < 2 ^ vars) :
    ValidCover vars on dc (on.map fun m => ⟨m, 0⟩) := by
  have hself : ∀ m : UInt16, ∀ i, Agrees vars ⟨m, 0⟩ i ↔ ∀ v < vars, i.testBit v = m.toNat.testBit v :=
    fun m i => forall_congr' fun v => by simp
  refine ⟨fun i hi => ?_, fun c hc => ?_, fun c hc => ?_⟩
  · obtain ⟨hlt, m, hm, rfl⟩ := bit_onBits.mp hi
    exact ⟨⟨m, 0⟩, mem_map.mpr ⟨m, hm, rfl⟩, bit_cubeRow_iff.mpr ⟨hlt, (hself m _).mpr fun _ _ => rfl⟩⟩
  · obtain ⟨m, hm, rfl⟩ := mem_map.mp hc
    refine cubeHitsOff_eq_false.mpr fun i hi => ?_
    obtain ⟨hlt, hagrees⟩ := bit_cubeRow_iff.mp hi
    have heq : m.toNat = i := by
      refine Nat.eq_of_testBit_eq fun v => ?_
      by_cases hv : v < vars
      · exact ((hself m i).mp hagrees v hv).symm
      · have hle : 2 ^ vars ≤ 2 ^ v := Nat.pow_le_pow_right (by omega) (by omega)
        rw [Nat.testBit_lt_two_pow (Nat.lt_of_lt_of_le (hon m hm) hle),
          Nat.testBit_lt_two_pow (Nat.lt_of_lt_of_le hlt hle)]
    refine Bool.eq_false_iff.mpr fun hoff => ?_
    exact (bit_offBits.mp hoff).2 m (.inl hm) heq
  · obtain ⟨m, hm, rfl⟩ := mem_map.mp hc
    exact hon m hm

theorem relax_value_le (c : QmImplicant) (b : UInt16) : (c.relax b).value.toNat ≤ c.value.toNat := by
  rw [QmImplicant.relax, UInt16.toNat_and]
  exact Nat.and_le_left

theorem bit_cubeRow_relax (hvar : vars ≤ 16) (b : UInt16) (h : bit (cubeRow vars c) i = true) :
    bit (cubeRow vars (c.relax b)) i = true := by
  obtain ⟨hlt, hagrees⟩ := bit_cubeRow_iff.mp h
  refine bit_cubeRow_iff.mpr ⟨hlt, fun v hv hmask => ?_⟩
  rw [QmImplicant.relax, WordBits.testBit_or, Bool.or_eq_false_iff] at hmask
  rw [hagrees v hv hmask.1, QmImplicant.relax, WordBits.testBit_and, WordBits.testBit_not _ (by omega), hmask.2]
  simp

theorem exists_relax_of_mem_expandCandidates {cand : QmImplicant × Nat} (h : cand ∈ expandCandidates order c) :
    ∃ b, cand.1 = c.relax b := by
  rcases mem_append.mp h with hmem | hmem
  · obtain ⟨b, -, rfl⟩ := mem_map.mp hmem
    exact ⟨b, rfl⟩
  · obtain ⟨p, -, rfl⟩ := mem_map.mp hmem
    exact ⟨p.1 ||| p.2, rfl⟩

theorem bestCandidate_spec {cand : QmImplicant} (h : (bestCandidate vars on dc order c).1 = some cand) :
    (∃ b, cand = c.relax b) ∧ cubeHitsOff vars on dc cand = false := by
  have hloop : ∀ (cands : List (QmImplicant × Nat)) (best : Option QmImplicant × Nat),
      (∀ x ∈ cands, ∃ b, x.1 = c.relax b) →
      (∀ x, best.1 = some x → (∃ b, x = c.relax b) ∧ cubeHitsOff vars on dc x = false) →
      ∀ x, (cands.foldl (fun best cand =>
        if cubeHitsOff vars on dc cand.1 then best
        else if best.2 < cand.2 then (some cand.1, cand.2) else best) best).1 = some x →
        (∃ b, x = c.relax b) ∧ cubeHitsOff vars on dc x = false := by
    intro cands
    induction cands with
    | nil => exact fun best _ hbest => hbest
    | cons y cands ih =>
      intro best hcands hbest
      rw [foldl_cons]
      refine ih _ (fun x hx => hcands x (mem_cons_of_mem _ hx)) fun x hx => ?_
      split at hx
      · exact hbest x hx
      · rename_i hoff
        split at hx
        · cases hx
          exact ⟨hcands y mem_cons_self, Bool.eq_false_iff.mpr hoff⟩
        · exact hbest x hx
  exact hloop _ _ (fun x hx => exists_relax_of_mem_expandCandidates hx) (fun x hx => by cases hx) cand h

theorem expandRounds_correct (hvar : vars ≤ 16) (rounds : Nat) (h : CorrectCover vars on dc cover) :
    CorrectCover vars on dc (expandRounds vars on dc order rounds cover) := by
  induction rounds generalizing cover with
  | zero => exact h
  | succ rounds ih =>
    rw [expandRounds]
    split
    · exact h
    -- every cube grows or stays, and none reaches the OFF-set
    have hstep : ∀ c ∈ cover, let d := (bestCandidate vars on dc order c).1.getD c
        (∀ i, bit (cubeRow vars c) i = true → bit (cubeRow vars d) i = true) ∧
          cubeHitsOff vars on dc d = false := by
      intro c hc
      cases hbest : (bestCandidate vars on dc order c).1 with
      | none => exact ⟨fun i hi => hi, h.avoids c hc⟩
      | some cand =>
        obtain ⟨⟨b, rfl⟩, hoff⟩ := bestCandidate_spec hbest
        exact ⟨fun i hi => bit_cubeRow_relax hvar b hi, hoff⟩
    refine ih ⟨fun i hi => ?_, fun d hd => ?_⟩
    · obtain ⟨c, hc, hbit⟩ := h.covers i hi
      exact ⟨_, mem_map.mpr ⟨c, hc, rfl⟩, (hstep c hc).1 i hbit⟩
    · obtain ⟨c, hc, rfl⟩ := mem_map.mp hd
      exact (hstep c hc).2

theorem mem_dedupe {c : QmImplicant} : c ∈ dedupe cover ↔ c ∈ cover := by
  rw [dedupe, SortedLists.mem_destutter_ne, (perm_insertionSort QmImplicant.le cover).mem_iff]

theorem nodup_dedupe (cover : List QmImplicant) : (dedupe cover).Nodup := by
  have htotal : ∀ a b : QmImplicant, a.le b ∨ b.le a := by
    intro a b
    unfold QmImplicant.le
    simp only [UInt16.lt_iff_toNat_lt, UInt16.le_iff_toNat_le, ← UInt16.toNat_inj]
    omega
  have htrans : ∀ a b c : QmImplicant, a.le b → b.le c → a.le c := by
    intro a b c
    unfold QmImplicant.le
    simp only [UInt16.lt_iff_toNat_lt, UInt16.le_iff_toNat_le, ← UInt16.toNat_inj]
    omega
  have hanti : ∀ a b : QmImplicant, a.le b → b.le a → a = b := by
    intro a b hab hba
    unfold QmImplicant.le at hab hba
    simp only [UInt16.lt_iff_toNat_lt, UInt16.le_iff_toNat_le, ← UInt16.toNat_inj] at hab hba
    have hmask : a.mask = b.mask := UInt16.toNat_inj.mp (by omega)
    have hvalue : a.value = b.value := UInt16.toNat_inj.mp (by omega)
    cases a
    cases b
    simp_all
  have : Std.Total QmImplicant.le := ⟨htotal⟩
  have : IsTrans QmImplicant QmImplicant.le := ⟨htrans⟩
  exact SortedLists.nodup_destutter hanti (pairwise_insertionSort QmImplicant.le cover)

theorem firstRedundant_spec {pre : List (BitVec 64)} (hlen : pre.length = blocksU vars)
    (h : firstRedundant vars on pre cover = some i) : ∃ hi : i < cover.length,
      ∀ j, bit (covRow vars on (cover[i])) j = true →
        bit pre j = true ∨ ∃ d ∈ cover.eraseIdx i, bit (covRow vars on d) j = true := by
  induction cover generalizing pre i with
  | nil => cases h
  | cons c cover ih =>
    rw [firstRedundant] at h
    split at h
    · rename_i hred
      cases h
      refine ⟨Nat.zero_lt_succ _, fun j hj => ?_⟩
      rw [getElem_cons_zero] at hj
      rw [isRedundant, Bool.or_eq_true, isZero_iff, isZero_iff] at hred
      rcases hred with hred | hred
      · have hbit := hred j
        rw [bit_diff (by simp [hlen]), hj, Bool.true_and, Bool.not_eq_false', bit_union (by simp [hlen]),
          Bool.or_eq_true, bit_suffixOr] at hbit
        exact hbit
      · rw [hred j] at hj
        cases hj
    · obtain ⟨k, hk, rfl⟩ := Option.map_eq_some_iff.mp h
      obtain ⟨hlt, hcov⟩ := ih (by simp [hlen]) hk
      refine ⟨Nat.succ_lt_succ hlt, fun j hj => ?_⟩
      rw [eraseIdx_cons_succ, exists_mem_cons_iff]
      rcases hcov j hj with hpre | hrest
      · rw [bit_union (by simp [hlen]), Bool.or_eq_true] at hpre
        tauto
      · exact .inr (.inr hrest)

theorem irredundant_spec (vars : Nat) (on : List UInt16) (cover : List QmImplicant) :
    (irredundant vars on cover).length ≤ cover.length ∧ irredundant vars on cover ⊆ cover ∧
      ∀ j, (∃ c ∈ cover, bit (covRow vars on c) j = true) →
        ∃ c ∈ irredundant vars on cover, bit (covRow vars on c) j = true := by
  fun_induction irredundant vars on cover with
  | case1 cover hnone => exact ⟨Nat.le_refl _, List.Subset.refl _, fun j hj => hj⟩
  | case2 cover i hi ih =>
    obtain ⟨hlength, hsub, hcov⟩ := ih
    obtain ⟨hlt, hred⟩ := firstRedundant_spec length_zeroRow hi
    have hperm := swapPop_perm hlt
    refine ⟨?_, ?_, fun j hj => hcov j ?_⟩
    · rw [length_swapPop] at hlength
      omega
    · exact fun c hc => eraseIdx_subset (hperm.subset (hsub hc))
    · obtain ⟨c, hc, hbit⟩ := hj
      rcases mem_cons.mp ((getElem_cons_eraseIdx_perm hlt).mem_iff.mpr hc) with rfl | hrest
      · rcases hred j hbit with hzero | ⟨d, hd, hdbit⟩
        · rw [zeroRow, bit_replicate_zero] at hzero
          cases hzero
        · exact ⟨d, hperm.mem_iff.mpr hd, hdbit⟩
      · exact ⟨c, hperm.mem_iff.mpr hrest, hbit⟩

theorem irredundant_correct (h : CorrectCover vars on dc cover) :
    CorrectCover vars on dc (irredundant vars on cover) := by
  obtain ⟨-, hsub, hcov⟩ := irredundant_spec vars on cover
  refine ⟨fun i hi => ?_, fun c hc => h.avoids c (hsub hc)⟩
  obtain ⟨c, hc, hbit⟩ := h.covers i hi
  obtain ⟨d, hd, hdbit⟩ := hcov i ⟨c, hc, by rw [bit_covRow, hbit, hi]; rfl⟩
  rw [bit_covRow, Bool.and_eq_true] at hdbit
  exact ⟨d, hd, hdbit.1⟩

variable (sort : StdSort moreFirst)

theorem stepExpand_correct (hvar : vars ≤ 16) (h : CorrectCover vars on dc cover) :
    CorrectCover vars on dc (stepExpand vars on dc order sort cover) := by
  have hranked : ∀ c, c ∈ (sort.sort (cover.map fun c => (onCount vars on c, c))).map (·.2) ↔ c ∈ cover := by
    intro c
    rw [((sort.perm _).map _).mem_iff, List.map_map]
    exact iff_of_eq (congrArg (c ∈ ·) (map_id' cover))
  exact irredundant_correct (((expandRounds_correct hvar 3 (h.of_mem_iff hranked)).of_mem_iff fun c => mem_dedupe))

theorem stepExpand_cost_lt (hvar : vars ≤ 16) (opt : TwoLevelOptions) :
    twoLevelCoverCost (stepExpand vars on dc order sort cover) vars opt < noCost :=
  twoLevelCoverCost_lt _ vars opt
    (Nat.le_trans (irredundant_spec vars on _).1 (length_le_of_nodup (nodup_dedupe _))) (by omega)

def SmallCover (vars : Nat) (cover : List QmImplicant) : Prop := ∀ c ∈ cover, c.value.toNat < 2 ^ vars

theorem specialize_small {anchor : List (BitVec 64)} (horder : ∀ v ∈ order, v < vars)
    (hc : c.value.toNat < 2 ^ vars) : (specialize vars order anchor c).value.toNat < 2 ^ vars := by
  unfold specialize
  induction order generalizing c with
  | nil => exact hc
  | cons v order ih =>
    rw [foldl_cons]
    refine ih (fun w hw => horder w (mem_cons_of_mem _ hw)) ?_
    dsimp only
    split
    · exact hc
    split
    · exact hc
    dsimp only
    split
    · have hpow : 2 ^ v < 2 ^ vars := Nat.pow_lt_pow_right (by omega) (horder v mem_cons_self)
      rw [UInt16.toNat_or]
      refine Nat.or_lt_two_pow hc ?_
      rw [UInt16.toNat_ofNat']
      exact Nat.lt_of_le_of_lt (Nat.mod_le ..) hpow
    · rw [UInt16.toNat_and]
      exact Nat.lt_of_le_of_lt Nat.and_le_left hc

theorem reduceRows_small (horder : ∀ v ∈ order, v < vars) (pre : List (BitVec 64))
    (h : SmallCover vars cover) : SmallCover vars (reduceRows vars on order pre cover) := by
  induction cover generalizing pre with
  | nil => exact h
  | cons c cover ih =>
    intro d hd
    rw [reduceRows] at hd
    rcases mem_cons.mp hd with rfl | hrest
    · exact specialize_small horder (h c mem_cons_self)
    · exact ih _ (fun x hx => h x (mem_cons_of_mem _ hx)) d hrest

theorem stepReduce_small (on : List UInt16) (horder : ∀ v ∈ order, v < vars) (h : SmallCover vars cover) :
    SmallCover vars (stepReduce vars on order cover) := fun c hc =>
  reduceRows_small horder _ h c (mem_dedupe.mp ((irredundant_spec vars on _).2.1 hc))

theorem expandRounds_small (rounds : Nat) (h : SmallCover vars cover) :
    SmallCover vars (expandRounds vars on dc order rounds cover) := by
  induction rounds generalizing cover with
  | zero => exact h
  | succ rounds ih =>
    rw [expandRounds]
    split
    · exact h
    refine ih fun d hd => ?_
    obtain ⟨c, hc, rfl⟩ := mem_map.mp hd
    cases hbest : (bestCandidate vars on dc order c).1 with
    | none => exact h c hc
    | some cand =>
      obtain ⟨⟨b, rfl⟩, -⟩ := bestCandidate_spec hbest
      exact Nat.lt_of_le_of_lt (relax_value_le c b) (h c hc)

theorem stepExpand_small (on dc : List UInt16) (order : List Nat) (sort : StdSort moreFirst)
    (h : SmallCover vars cover) :
    SmallCover vars (stepExpand vars on dc order sort cover) := by
  intro c hc
  refine expandRounds_small 3 (fun d hd => ?_) c (mem_dedupe.mp ((irredundant_spec vars on _).2.1 hc))
  rw [((sort.perm _).map _).mem_iff, List.map_map] at hd
  exact h d ((congrArg (d ∈ ·) (map_id' cover)).mp hd)

theorem stepExpand_valid (hvar : vars ≤ 16) (h : ValidCover vars on dc cover) :
    ValidCover vars on dc (stepExpand vars on dc order sort cover) :=
  have hcorrect := stepExpand_correct sort hvar h.correct
  ⟨hcorrect.covers, hcorrect.avoids, stepExpand_small on dc order sort h.small⟩

end Valid

/-- What holds of `best_cover` and `best_cost` all along; `first` is the cost of the minterms. -/
structure EspressoBest (vars : Nat) (on dc : List UInt16) (opt : TwoLevelOptions) (first : Nat)
    (s : EspressoState) : Prop where
  covers : coverCoversAllOn vars on s.bestCover = true
  avoids : coverHitsOff vars on dc s.bestCover = false
  small : SmallCover vars s.bestCover
  coverSmall : SmallCover vars s.cover
  cost : s.bestCost = twoLevelCoverCost s.bestCover vars opt
  le : s.bestCost ≤ first

section Loop

variable {vars : Nat} {on dc : List UInt16} {order : List Nat} {opt : TwoLevelOptions} {sort : StdSort moreFirst}
  {first : Nat} {s : EspressoState}

theorem EspressoBest.withCover (h : EspressoBest vars on dc opt first s) {cover : List QmImplicant}
    (hcover : SmallCover vars cover) : EspressoBest vars on dc opt first { s with cover } :=
  ⟨h.covers, h.avoids, h.small, hcover, h.cost, h.le⟩

theorem improve_bestCost_le (s : EspressoState) : (s.improve vars on dc opt).bestCost ≤ s.bestCost := by
  unfold EspressoState.improve
  dsimp only
  split
  · split
    · exact Nat.le_of_lt ‹_›
    · exact Nat.le_refl _
  · exact Nat.le_refl _

theorem EspressoBest.improve (h : EspressoBest vars on dc opt first s) :
    EspressoBest vars on dc opt first (s.improve vars on dc opt) := by
  unfold EspressoState.improve
  dsimp only
  split
  · rename_i hvalid
    rw [Bool.and_eq_true, Bool.not_eq_true'] at hvalid
    split
    · rename_i hlt
      exact ⟨hvalid.1, hvalid.2, h.coverSmall, h.coverSmall, rfl, Nat.le_trans (Nat.le_of_lt hlt) h.le⟩
    · exact h
  · exact h

theorem improve_le_of_valid (opt : TwoLevelOptions) (h : ValidCover vars on dc s.cover) :
    (s.improve vars on dc opt).bestCost ≤ twoLevelCoverCost s.cover vars opt := by
  unfold EspressoState.improve
  rw [h.checks.1, h.checks.2, if_pos (by rfl)]
  dsimp only
  split
  · exact Nat.le_refl _
  · exact Nat.not_lt.mp ‹_›

theorem espressoIterate_bestCost_le (iter : Nat) (s : EspressoState) :
    (espressoIterate vars on dc order sort opt iter s).bestCost ≤ s.bestCost := by
  induction iter generalizing s with
  | zero => exact Nat.le_refl _
  | succ iter ih =>
    rw [espressoIterate]
    split
    · exact Nat.le_trans (improve_bestCost_le _) (improve_bestCost_le _)
    · exact Nat.le_trans (ih _) (Nat.le_trans (improve_bestCost_le _) (improve_bestCost_le _))

theorem espressoIterate_le_stepExpand {iter : Nat} (hvar : vars ≤ 16) (h : ValidCover vars on dc s.cover) :
    (espressoIterate vars on dc order sort opt (iter + 1) s).bestCost ≤
      twoLevelCoverCost (stepExpand vars on dc order sort s.cover) vars opt := by
  have hexpand : ValidCover vars on dc
      ({ s with cover := stepExpand vars on dc order sort s.cover } : EspressoState).cover :=
    stepExpand_valid sort hvar h
  have hfirst := improve_le_of_valid opt hexpand
  rw [espressoIterate]
  split
  · exact Nat.le_trans (improve_bestCost_le _) hfirst
  · exact Nat.le_trans (espressoIterate_bestCost_le iter _) (Nat.le_trans (improve_bestCost_le _) hfirst)

theorem EspressoBest.iterate (sort : StdSort moreFirst) (horder : ∀ v ∈ order, v < vars) (iter : Nat)
    (h : EspressoBest vars on dc opt first s) :
    EspressoBest vars on dc opt first (espressoIterate vars on dc order sort opt iter s) := by
  induction iter generalizing s with
  | zero => exact h
  | succ iter ih =>
    have h₁ := (h.withCover (stepExpand_small on dc order sort h.coverSmall)).improve
    have h₂ := (h₁.withCover (stepReduce_small on horder h₁.coverSmall)).improve
    rw [espressoIterate]
    split
    · exact h₂
    · exact ih h₂

theorem EspressoBest.lastGasp (sort : StdSort moreFirst) (horder : ∀ v ∈ order, v < vars)
    (hon : ∀ m ∈ on, m.toNat < 2 ^ vars)
    (attempt : Nat) (h : EspressoBest vars on dc opt first s) :
    EspressoBest vars on dc opt first (lastGasp vars on dc order sort opt s attempt) ∧
      (lastGasp vars on dc order sort opt s attempt).bestCost ≤ s.bestCost := by
  unfold PhyEngine.lastGasp
  dsimp only
  split
  · exact ⟨h, Nat.le_refl _⟩
  split
  · exact ⟨h.withCover h.small, Nat.le_refl _⟩
  · rename_i anchor hanchor
    have hset : SmallCover vars
        (s.bestCover.set (attempt * 2654435761 % s.bestCover.length) ⟨anchor, 0⟩) := by
      intro d hd
      rcases mem_or_eq_of_mem_set hd with hmem | rfl
      · exact h.small d hmem
      · exact hon anchor (mem_of_find?_eq_some hanchor)
    have hrepeat : ∀ n cover, SmallCover vars cover → SmallCover vars (Nat.repeat
        (fun cover => stepReduce vars on order (stepExpand vars on dc order sort cover)) n cover) := by
      intro n cover hcover
      induction n with
      | zero => exact hcover
      | succ n ih => exact stepReduce_small on horder (stepExpand_small on dc order sort ih)
    exact ⟨(h.withCover (hrepeat 4 _ hset)).improve, improve_bestCost_le _⟩

theorem EspressoBest.lastGasps (sort : StdSort moreFirst) (horder : ∀ v ∈ order, v < vars)
    (hon : ∀ m ∈ on, m.toNat < 2 ^ vars)
    (attempts : List Nat) (h : EspressoBest vars on dc opt first s) :
    EspressoBest vars on dc opt first (attempts.foldl (PhyEngine.lastGasp vars on dc order sort opt) s) ∧
      (attempts.foldl (PhyEngine.lastGasp vars on dc order sort opt) s).bestCost ≤ s.bestCost := by
  induction attempts generalizing s with
  | nil => exact ⟨h, Nat.le_refl _⟩
  | cons attempt attempts ih =>
    obtain ⟨hnext, hle⟩ := h.lastGasp sort horder hon attempt
    obtain ⟨hrest, hle'⟩ := ih hnext
    exact ⟨hrest, Nat.le_trans hle' hle⟩

end Loop

/-- A successful result: the cover is one of the function, or of its complement when the result
says so, and costs what the result says and no more than the minterms. -/
structure EspressoValid (vars : Nat) (on dc : List UInt16) (opt : TwoLevelOptions) (sol : EspressoSolution) :
    Prop where
  success : sol.cost ≠ noCost
  plain : sol.complemented = false → IsCoverOf vars (· ∈ on) (fun m => m ∈ on ∨ m ∈ dc) sol.cover
  complement : sol.complemented = true →
    IsCoverOf vars (fun m => m.toNat < 2 ^ vars ∧ m ∉ on ∧ m ∉ dc) (· ∉ on) sol.cover
  cost : sol.cost = twoLevelCoverCost sol.cover vars opt +
    if sol.complemented then opt.complementPenalty else 0
  le : sol.cost ≤ twoLevelCoverCost (on.map fun m => ⟨m, 0⟩) vars opt

section Result

variable {on dc : List UInt16} {vars : Nat}

theorem mem_espressoBinateVarOrder {v : Nat} (h : v ∈ espressoBinateVarOrder on dc vars) : v < vars := by
  obtain ⟨st, hst, rfl⟩ := mem_map.mp h
  obtain ⟨w, hw, rfl⟩ := mem_map.mp ((perm_insertionSort _ _).mem_iff.mp hst)
  exact mem_range.mp hw

theorem isCoverOf_of_checks (hon : ∀ m ∈ on, m.toNat < 2 ^ vars) {cover : List QmImplicant}
    (hcovers : coverCoversAllOn vars on cover = true) (havoids : coverHitsOff vars on dc cover = false)
    (hsmall : SmallCover vars cover) : IsCoverOf vars (· ∈ on) (fun m => m ∈ on ∨ m ∈ dc) cover := by
  refine ⟨fun m hm => ?_, fun m hm c hc hcov => ?_⟩
  · obtain ⟨c, hc, hbit⟩ := coverCoversAllOn_iff.mp hcovers m.toNat (bit_onBits.mpr ⟨hon m hm, m, hm, rfl⟩)
    exact ⟨c, hc, (bit_cubeRow (hsmall c hc) (hon m hm)).symm.trans hbit⟩
  · by_contra hout
    have hoff : bit (offBits vars on dc) m.toNat = true :=
      bit_offBits.mpr ⟨hm, fun x hx heq => hout (UInt16.toNat_inj.mp heq ▸ hx)⟩
    have hfree := cubeHitsOff_eq_false.mp (coverHitsOff_eq_false.mp havoids c hc) m.toNat
      ((bit_cubeRow (hsmall c hc) hm).trans hcov)
    rw [hoff] at hfree
    cases hfree

theorem espressoTwoLevelMinimizeBase_spec (sort : StdSort moreFirst) (on dc : List UInt16) (opt : TwoLevelOptions)
    (hpos : 1 ≤ vars)
    (hvar : vars ≤ 16) (hon : ∀ m ∈ on, m.toNat < 2 ^ vars) :
    let sol := espressoTwoLevelMinimizeBase sort on dc vars opt
    sol.complemented = false ∧ sol.cost < noCost ∧
      IsCoverOf vars (· ∈ on) (fun m => m ∈ on ∨ m ∈ dc) sol.cover ∧
      sol.cost = twoLevelCoverCost sol.cover vars opt ∧
      sol.cost ≤ twoLevelCoverCost (on.map fun m => ⟨m, 0⟩) vars opt := by
  intro sol
  let order := if (espressoBinateVarOrder on dc vars).length = vars then
    espressoBinateVarOrder on dc vars else List.range vars
  have horder : ∀ v ∈ order, v < vars := by
    intro v hv
    dsimp only [order] at hv
    split at hv
    · exact mem_espressoBinateVarOrder hv
    · exact mem_range.mp hv
  let cover := on.map fun m => (⟨m, 0⟩ : QmImplicant)
  have hvalid : ValidCover vars on dc cover := validCover_minterms hon
  let s₀ : EspressoState := ⟨cover, cover, twoLevelCoverCost cover vars opt⟩
  have h₀ : EspressoBest vars on dc opt (twoLevelCoverCost cover vars opt) s₀ :=
    ⟨hvalid.checks.1, hvalid.checks.2, hvalid.small, hvalid.small, rfl, Nat.le_refl _⟩
  let s₁ := espressoIterate vars on dc order sort opt 8 s₀
  have h₁ := h₀.iterate sort horder 8
  have hlt : s₁.bestCost < noCost :=
    Nat.lt_of_le_of_lt (espressoIterate_le_stepExpand (s := s₀) hvar hvalid) (stepExpand_cost_lt sort hvar opt)
  let s₂ := if s₁.bestCover = [] then s₁ else (List.range 4).foldl (lastGasp vars on dc order sort opt) s₁
  have h₂ : EspressoBest vars on dc opt (twoLevelCoverCost cover vars opt) s₂ ∧ s₂.bestCost ≤ s₁.bestCost := by
    dsimp only [s₂]
    split
    · exact ⟨h₁, Nat.le_refl _⟩
    · exact h₁.lastGasps sort horder hon (List.range 4)
  have hsol : sol = { cover := s₂.bestCover, cost := s₂.bestCost } := by
    dsimp only [sol, espressoTwoLevelMinimizeBase]
    rw [if_neg (by omega), if_neg (by omega)]
    change (if coverCoversAllOn vars on s₂.bestCover = false then ({} : EspressoSolution)
      else if coverHitsOff vars on dc s₂.bestCover = true then {}
      else { cover := s₂.bestCover, cost := s₂.bestCost }) = _
    rw [h₂.1.covers, h₂.1.avoids, if_neg (by simp), if_neg (by simp)]
  rw [hsol]
  exact ⟨rfl, Nat.lt_of_le_of_lt h₂.2 hlt, isCoverOf_of_checks hon h₂.1.covers h₂.1.avoids h₂.1.small, h₂.1.cost,
    h₂.1.le⟩

theorem mem_offMinterms {m : UInt16} (hm : m.toNat < 2 ^ vars) :
    m ∈ offMinterms on dc vars ↔ m ∉ on ∧ m ∉ dc := by
  have hrange : m ∈ (List.range (2 ^ vars)).map UInt16.ofNat :=
    mem_map.mpr ⟨m.toNat, mem_range.mpr hm, UInt16.ofNat_toNat⟩
  rw [offMinterms, mem_filter, and_iff_right hrange]
  simp

theorem lt_of_mem_offMinterms {m : UInt16} (hm : m ∈ offMinterms on dc vars) :
    m.toNat < 2 ^ vars := by
  obtain ⟨i, hi, rfl⟩ := mem_map.mp (mem_of_mem_filter hm)
  exact Nat.lt_of_le_of_lt (UInt16.toNat_ofNat' ▸ Nat.mod_le ..) (mem_range.mp hi)

/-- `espresso_two_level_minimize` succeeds and its result is valid. -/
theorem espressoTwoLevelMinimize_valid (sort : StdSort moreFirst) (on dc : List UInt16) (vars : Nat)
    (opt : TwoLevelOptions) (hpos : 1 ≤ vars) (hvar : vars ≤ 16) (hon : ∀ m ∈ on, m.toNat < 2 ^ vars)
    (hdisj : on.Disjoint dc) :
    EspressoValid vars on dc opt (espressoTwoLevelMinimize sort on dc vars opt) := by
  obtain ⟨hplain, hlt, hcover, hcost, hle⟩ :=
    espressoTwoLevelMinimizeBase_spec sort on dc opt hpos hvar hon
  have hbest : EspressoValid vars on dc opt (espressoTwoLevelMinimizeBase sort on dc vars opt) :=
    { success := Nat.ne_of_lt hlt
      plain := fun _ => hcover
      complement := fun h => absurd (hplain.symm.trans h) (by simp)
      cost := by simp only [hplain, Bool.false_eq_true, if_false, Nat.add_zero, hcost]
      le := hle }
  obtain ⟨-, -, hcover', hcost', -⟩ :=
    espressoTwoLevelMinimizeBase_spec sort (offMinterms on dc vars) dc opt hpos hvar
      fun m hm => lt_of_mem_offMinterms hm
  rw [espressoTwoLevelMinimize, if_neg (Nat.ne_of_lt hlt), if_neg (by omega)]
  dsimp only
  split
  · exact hbest
  split
  · exact hbest
  split
  · rename_i hcheap
    refine ⟨?_, fun h => (by cases h), fun _ => ⟨?_, ?_⟩, ?_, Nat.le_trans (Nat.le_of_lt hcheap) hle⟩
    · exact Nat.ne_of_lt (Nat.lt_trans hcheap hlt)
    · exact fun m hm => hcover'.contains m ((mem_offMinterms hm.1).mpr hm.2)
    · intro m hm c hc hcov hmon
      rcases hcover'.avoids m hm c hc hcov with hmem | hmem
      · exact ((mem_offMinterms hm).mp hmem).1 hmon
      · exact hdisj hmon hmem
    · simp only [if_true, hcost']
  · exact hbest

theorem moreFirst_total (a b : Nat × QmImplicant) : moreFirst b a = false ∨ moreFirst a b = false := by
  simpa [moreFirst] using Nat.le_total b.1 a.1

theorem moreFirst_trans (a b c : Nat × QmImplicant) (hab : moreFirst b a = false) (hbc : moreFirst c b = false) :
    moreFirst c a = false := by
  simp only [moreFirst, decide_eq_false_iff_not, Nat.not_lt] at *
  exact Nat.le_trans hbc hab

def moreFirstInsertion : StdSort moreFirst := .insertion moreFirst_total moreFirst_trans

/-- The minterms 1, 2 and 3 over two variables, sorted by insertion. -/
theorem espressoTwoLevelMinimize_valid_or :
    EspressoValid 2 [1, 2, 3] [] {} (espressoTwoLevelMinimize moreFirstInsertion [1, 2, 3] [] 2 {}) :=
  espressoTwoLevelMinimize_valid _ [1, 2, 3] [] 2 {} (by decide) (by decide) (by simp) (by simp)

end Result

end PhyEngine
