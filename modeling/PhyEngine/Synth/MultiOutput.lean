import PhyEngine.Library.Failing
import PhyEngine.Synth.GreedyCover

/-!
# Covers of several outputs

`multi_output_two_level_minimize` without CUDA: a greedy choice among the primes of all outputs,
and the cleanup for each. The cubes of an output are the picks of a greedy cover (`OutputInv`),
and no round is without a new cube (`multiLoop_eq_some`). Failed results are left empty here.
-/

namespace PhyEngine

open PackedBits SortedLists List

def cubeNegMask (imp : QmImplicant) (vars : Nat) : UInt16 :=
  (List.range vars).foldl (fun m v =>
    if imp.mask.toNat.testBit v then m
    else if imp.value.toNat.testBit v then m
    else m ||| UInt16.ofNat (2 ^ v)) 0

def toCubeKey (imp : QmImplicant) : UInt16 × UInt16 := (imp.mask, imp.value &&& ~~~imp.mask)

variable (cubes : List QmImplicant)

def addCube (imp : QmImplicant) : List QmImplicant :=
  if cubes.any fun c => toCubeKey c == toCubeKey imp then cubes else cubes ++ [imp]

def multiOutputGateCost (covers : List (List QmImplicant)) (vars : Nat) (opt : TwoLevelOptions) : Nat :=
  let uniq := covers.flatten.foldl addCube []
  match opt.twoLevelCost with
  | .literalCount => (uniq.map fun imp => implicantLiterals imp vars).sum
  | .gateCount =>
    let notCost := (List.range vars).countP fun v => negUsed uniq v
    let andCost := (uniq.map fun imp => implicantLiterals imp vars - 1).sum
    let orCost := (covers.map fun cv => cv.length - 1).sum
    opt.twoLevelWeights.notW.toNat * notCost + opt.twoLevelWeights.andW.toNat * andCost
      + opt.twoLevelWeights.orW.toNat * orCost

structure MultiOutputSolution where
  covers : List (List QmImplicant) := []
  cost : Nat := noCost

structure OutputState where
  on : List UInt16
  dc : List UInt16
  rows : List (List (BitVec 64))
  uncovered : List (BitVec 64)
  useIdx : List Nat

structure MultiState where
  outs : List OutputState
  selected : List Nat := []
  negMaskUsed : UInt16 := 0

def cubeValid (on dc : List UInt16) (vars : Nat) (c : QmImplicant) : Bool :=
  ((List.range (2 ^ vars)).map UInt16.ofNat).all fun m =>
    on.contains m || dc.contains m || !implicantCovers c m

def outputRows (on dc : List UInt16) (vars : Nat) : List (List (BitVec 64)) :=
  cubes.map fun c =>
    if cubeValid on dc vars c then coverRow (implicantCovers c) on
    else List.replicate ((on.length + 63) / 64) 0

/-- The number of minterms that a cube would newly cover at an output. -/
def OutputState.gain (o : OutputState) (ci : Nat) : Nat := countOnes (inter (rowAt o.rows ci) o.uncovered)

def OutputState.take (o : OutputState) (ci : Nat) : OutputState :=
  let row := rowAt o.rows ci
  let contributed := !isZero (inter row o.uncovered)
  { o with
    uncovered := diff o.uncovered row
    useIdx := if contributed then o.useIdx ++ [ci] else o.useIdx }

section Search

variable (cubes : List QmImplicant) (vars : Nat) (opt : TwoLevelOptions)

def candOfCube (s : MultiState) (ci : Nat) : GreedyCand :=
  let c := cubes.getD ci ⟨0, 0⟩
  let gain := (s.outs.map fun o => o.gain ci).sum
  let andIncr := implicantLiterals c vars - 1
  let notIncr := popcount16 (cubeNegMask c vars &&& ~~~s.negMaskUsed)
  let orIncr := s.outs.countP fun o => o.gain ci ≠ 0 && 1 ≤ o.useIdx.length
  let cost := opt.twoLevelWeights.notW.toNat * notIncr + opt.twoLevelWeights.andW.toNat * andIncr
    + opt.twoLevelWeights.orW.toNat * orIncr
  { pi := ci, gain, cost, score := (gain : Int) * 64 - (cost : Int) }

/-- The cubes of a round that are not selected and cover something new. -/
def multiCandidates (s : MultiState) : List GreedyCand :=
  (List.range cubes.length).filterMap fun ci =>
    let c := candOfCube cubes vars opt s ci
    if ci ∈ s.selected ∨ c.gain = 0 then none else some c

def MultiState.select (s : MultiState) (ci : Nat) : MultiState :=
  { outs := s.outs.map fun o => o.take ci
    selected := ci :: s.selected
    negMaskUsed := s.negMaskUsed ||| cubeNegMask (cubes.getD ci ⟨0, 0⟩) vars }

/-- `while(any_uncovered())`; the flag says that nothing is left uncovered. -/
def multiLoop : Nat → MultiState → Option (MultiState × Bool)
  | 0, _ => none
  | fuel + 1, s =>
    if s.outs.all fun o => isZero o.uncovered then some (s, true)
    else
      match bestCand (multiCandidates cubes vars opt s) with
      | none => some (s, false)
      | some c => multiLoop fuel (s.select cubes vars c.pi)

def coverOfOutput (o : OutputState) : Option (List QmImplicant) :=
  if o.on = [] then some []
  else if o.useIdx = [] then none
  else some ((cleanup o.rows o.on.length o.useIdx).filterMap fun ci => cubes[ci]?)

end Search

def twoLevelCoverCoversAllOn (cover : List QmImplicant) (on : List UInt16) : Bool :=
  on.all fun m => cover.any fun c => implicantCovers c m

def unionOfCubes (primesByOut : List (List QmImplicant)) : List QmImplicant := primesByOut.flatten.foldl addCube []

def multiStart (vars : Nat) (lists : List (List UInt16 × List UInt16)) : MultiState :=
  { outs := lists.map fun p =>
      { on := p.1, dc := p.2, rows := outputRows cubes p.1 p.2 vars, uncovered := firstBits p.1.length, useIdx := [] } }

def multiSearch (fuel : Nat) (lists : List (List UInt16 × List UInt16)) (primesByOut : List (List QmImplicant))
    (vars : Nat) (opt : TwoLevelOptions) : Option (MultiState × Bool) :=
  let cubes := unionOfCubes primesByOut
  multiLoop cubes vars opt fuel (multiStart cubes vars lists)

def multiOutputTwoLevelMinimize (fuel : Nat) (onList dcList : List (List UInt16)) (vars : Nat)
    (opt : TwoLevelOptions) : Option MultiOutputSolution :=
  if onList = [] ∨ onList.length ≠ dcList.length then some {}
  else if vars = 0 ∨ 16 < vars then some {}
  else
    let lists := onList.zip dcList
    (lists.mapM fun p => qmPrimeImplicants fuel p.1 p.2 vars).bind fun primesByOut =>
      if (lists.zip primesByOut).any fun p => p.2.isEmpty && !p.1.1.isEmpty then some {}
      else if unionOfCubes primesByOut = [] then some {}
      else (multiSearch fuel lists primesByOut vars opt).map fun found =>
        if found.2 = false then {}
        else
          match found.1.outs.mapM (coverOfOutput (unionOfCubes primesByOut)) with
          | none => {}
          | some covers =>
            if (lists.zip covers).any fun p => !twoLevelCoverCoversAllOn p.2 p.1.1 then {}
            else { covers, cost := multiOutputGateCost covers vars opt }

variable {ci : Nat}

section Cubes

variable {cubes : List QmImplicant} {on dc : List UInt16} {vars : Nat}

theorem implicantCovers_of_key {c d : QmImplicant} (h : toCubeKey c = toCubeKey d) (m : UInt16) :
    implicantCovers c m = implicantCovers d m := by
  obtain ⟨hmask, hvalue⟩ := Prod.mk.inj h
  rw [implicantCovers, implicantCovers, hvalue, hmask]

theorem addCubes_spec (imps cubes : List QmImplicant) (hnodup : cubes.Nodup) :
    (imps.foldl addCube cubes).Nodup ∧ (∀ c ∈ cubes, c ∈ imps.foldl addCube cubes) ∧
      ∀ c ∈ imps, ∃ d ∈ imps.foldl addCube cubes, toCubeKey d = toCubeKey c := by
  induction imps generalizing cubes with
  | nil => exact ⟨hnodup, fun c hc => hc, by simp⟩
  | cons imp imps ih =>
    have hstep : (addCube cubes imp).Nodup ∧ (∀ c ∈ cubes, c ∈ addCube cubes imp) ∧
        ∃ d ∈ addCube cubes imp, toCubeKey d = toCubeKey imp := by
      unfold addCube
      split
      · rename_i hany
        obtain ⟨d, hd, hkey⟩ := any_eq_true.mp hany
        exact ⟨hnodup, fun c hc => hc, d, hd, eq_of_beq hkey⟩
      · rename_i hany
        refine ⟨nodup_append.mpr ⟨hnodup, nodup_singleton imp, fun a ha b hb => ?_⟩,
          fun c hc => mem_append_left _ hc, imp, by simp, rfl⟩
        obtain rfl := mem_singleton.mp hb
        rintro rfl
        exact hany (any_eq_true.mpr ⟨a, ha, beq_self_eq_true _⟩)
    obtain ⟨hnodup', hkeep, d, hd, hkey⟩ := hstep
    obtain ⟨h₁, h₂, h₃⟩ := ih _ hnodup'
    rw [foldl_cons]
    refine ⟨h₁, fun c hc => h₂ c (hkeep c hc), fun c hc => ?_⟩
    rcases mem_cons.mp hc with rfl | hc
    · exact ⟨d, h₂ d hd, hkey⟩
    · exact h₃ c hc

theorem mem_of_mem_addCubes {c : QmImplicant} (imps cubes : List QmImplicant)
    (hc : c ∈ imps.foldl addCube cubes) : c ∈ cubes ∨ c ∈ imps := by
  induction imps generalizing cubes with
  | nil => exact .inl hc
  | cons imp imps ih =>
    rcases ih _ hc with hc | hc
    · unfold addCube at hc
      split at hc
      · exact .inl hc
      · rcases mem_append.mp hc with hc | hc
        · exact .inl hc
        · exact .inr (mem_singleton.mp hc ▸ mem_cons_self)
    · exact .inr (mem_cons_of_mem _ hc)

theorem cubeValid_iff (hvar : vars ≤ 16) {c : QmImplicant} : cubeValid on dc vars c = true ↔
    ∀ m : UInt16, m.toNat < 2 ^ vars → implicantCovers c m = true → m ∈ on ∨ m ∈ dc := by
  rw [cubeValid, all_eq_true]
  have hpow : 2 ^ vars ≤ 2 ^ 16 := Nat.pow_le_pow_right (by omega) hvar
  constructor
  · intro h m hm hcov
    have hbool := h m (mem_map.mpr ⟨m.toNat, mem_range.mpr hm, UInt16.ofNat_toNat⟩)
    simpa [hcov] using hbool
  · intro h m hm
    obtain ⟨i, hi, rfl⟩ := mem_map.mp hm
    have hlt : (UInt16.ofNat i).toNat < 2 ^ vars := by
      have := mem_range.mp hi
      rw [UInt16.toNat_ofNat', Nat.mod_eq_of_lt (by omega)]
      exact this
    have himp := h _ hlt
    cases hcov : implicantCovers c (UInt16.ofNat i) with
    | false => simp
    | true => simpa using himp hcov

def outputCov (cubes : List QmImplicant) (on dc : List UInt16) (vars : Nat) (ci : Nat) (m : UInt16) : Bool :=
  match cubes[ci]? with
  | some c => cubeValid on dc vars c && implicantCovers c m
  | none => false

theorem outputCov_iff {m : UInt16} : outputCov cubes on dc vars ci m = true ↔
    ∃ c, cubes[ci]? = some c ∧ cubeValid on dc vars c = true ∧ implicantCovers c m = true := by
  unfold outputCov
  cases cubes[ci]? with
  | none => simp
  | some c => simp

theorem rowsOf_outputRows (cubes : List QmImplicant) (on dc : List UInt16) (vars : Nat) :
    RowsOf on (outputCov cubes on dc vars) (outputRows cubes on dc vars) := by
  have hrow : ∀ ci, rowAt (outputRows cubes on dc vars) ci = ((cubes[ci]?.map fun c =>
      if cubeValid on dc vars c then coverRow (implicantCovers c) on
      else replicate ((on.length + 63) / 64) 0).getD []) := by
    intro ci
    rw [rowAt, outputRows, getD_eq_getElem?_getD, getElem?_map]
  refine ⟨fun ci hci => ?_, fun ci j => ?_⟩
  · rw [outputRows, length_map] at hci
    rw [hrow, getElem?_eq_getElem hci, Option.map_some, Option.getD_some]
    split
    · exact (coverRow_spec _ on).1
    · exact length_replicate
  · simp only [hrow, outputCov]
    cases cubes[ci]? with
    | none =>
      rw [Option.map_none, Option.getD_none, bit_eq_false_of_le (Nat.zero_le _)]
      simp
    | some c =>
      rw [Option.map_some, Option.getD_some]
      cases hvalid : cubeValid on dc vars c with
      | true => rw [if_pos rfl, (coverRow_spec _ on).2]; simp [hvalid]
      | false => rw [if_neg (by simp), bit_replicate_zero]; simp [hvalid]

theorem length_outputRows : (outputRows cubes on dc vars).length = cubes.length := by
  rw [outputRows, length_map]

end Cubes

section Search

variable {cubes : List QmImplicant} {vars : Nat} {opt : TwoLevelOptions} {selected : List Nat} {o : OutputState}
  {s : MultiState}

structure OutputInv (cubes : List QmImplicant) (vars : Nat) (selected : List Nat) (o : OutputState) : Prop where
  rows : o.rows = outputRows cubes o.on o.dc vars
  greedy : Greedy o.on (outputCov cubes o.on o.dc vars) o.rows o.uncovered o.useIdx
  done : ∀ ci ∈ selected, ∀ j, bit o.uncovered j = true → bit (rowAt o.rows ci) j = false

section

variable (h : OutputInv cubes vars selected o)

include h

theorem OutputInv.rowsOf :
    RowsOf o.on (outputCov cubes o.on o.dc vars) o.rows := h.rows ▸ rowsOf_outputRows cubes o.on o.dc vars

section

variable (hci : ci < cubes.length)
include hci

theorem OutputInv.length_row :
    o.uncovered.length = (rowAt o.rows ci).length := by
  rw [h.greedy.length, h.rowsOf.length ci (by rw [h.rows, length_outputRows]; exact hci)]

theorem OutputInv.gain_pos_iff :
    0 < o.gain ci ↔ ∃ j, bit o.uncovered j = true ∧ bit (rowAt o.rows ci) j = true := by
  rw [OutputState.gain, countOnes_pos_iff]
  refine exists_congr fun j => ?_
  rw [bit_inter (h.length_row hci).symm, Bool.and_eq_true, and_comm]

theorem OutputInv.take :
    OutputInv cubes vars (ci :: selected) (o.take ci) := by
  have hlen := h.length_row hci
  have hbits : ∀ j, bit (o.take ci).uncovered j = (bit o.uncovered j && !bit (rowAt o.rows ci) j) :=
    fun j => bit_diff hlen j
  refine ⟨h.rows, ?_, fun c hc j hj => ?_⟩
  · rw [OutputState.take]
    dsimp only
    cases hzero : isZero (inter (rowAt o.rows ci) o.uncovered) with
    | false =>
      obtain ⟨j, hj⟩ := isZero_eq_false_iff.mp hzero
      rw [bit_inter hlen.symm, Bool.and_eq_true] at hj
      exact h.greedy.snoc h.rowsOf (by rw [h.rows, length_outputRows]; exact hci) hj.2 hj.1
    | true =>
      have hsame : diff o.uncovered (rowAt o.rows ci) = o.uncovered := by
        refine PackedBits.ext (by rw [length_diff, hlen, Nat.min_self]) fun j => ?_
        have hnone := isZero_iff.mp hzero j
        rw [bit_inter hlen.symm] at hnone
        rw [bit_diff hlen]
        cases hj : bit o.uncovered j with
        | false => rfl
        | true =>
          rw [hj, Bool.and_true] at hnone
          rw [hnone]
          rfl
      rw [hsame]
      exact h.greedy
  · rw [hbits, Bool.and_eq_true, Bool.not_eq_true'] at hj
    rcases mem_cons.mp hc with rfl | hc
    · exact hj.2
    · exact h.done c hc j hj.1

end

end

theorem mem_multiCandidates {c : GreedyCand} : c ∈ multiCandidates cubes vars opt s ↔
    c.pi < cubes.length ∧ c.pi ∉ s.selected ∧ 0 < (s.outs.map fun o => o.gain c.pi).sum ∧
      c = candOfCube cubes vars opt s c.pi := by
  rw [multiCandidates, mem_filterMap]
  constructor
  · rintro ⟨ci, hci, hc⟩
    dsimp only at hc
    split at hc
    · cases hc
    · rename_i hnot
      obtain ⟨hsel, hgain⟩ := not_or.mp hnot
      cases hc
      exact ⟨mem_range.mp hci, hsel, Nat.pos_of_ne_zero hgain, rfl⟩
  · rintro ⟨hci, hsel, hgain, hc⟩
    have hnot : ¬ (c.pi ∈ s.selected ∨ (candOfCube cubes vars opt s c.pi).gain = 0) :=
      not_or.mpr ⟨hsel, Nat.ne_of_gt hgain⟩
    refine ⟨c.pi, mem_range.mpr hci, ?_⟩
    dsimp only
    rw [if_neg hnot, ← hc]

theorem multiLoop_eq_some (cubes : List QmImplicant) (vars : Nat) (opt : TwoLevelOptions) {s : MultiState}
    (hcovers : ∀ o ∈ s.outs, ∀ m ∈ o.on, ∃ ci < cubes.length, outputCov cubes o.on o.dc vars ci m = true)
    (hinv : ∀ o ∈ s.outs, OutputInv cubes vars s.selected o) (hnodup : s.selected.Nodup)
    (hlt : ∀ ci ∈ s.selected, ci < cubes.length) (fuel : Nat) (hfuel : cubes.length < fuel + s.selected.length) :
    ∃ s', multiLoop cubes vars opt fuel s = some (s', true) ∧
      (∀ o ∈ s'.outs, OutputInv cubes vars s'.selected o ∧ isZero o.uncovered = true) ∧
      s'.outs.map (fun o => (o.on, o.dc)) = s.outs.map fun o => (o.on, o.dc) := by
  induction fuel generalizing s with
  | zero =>
    have hlen := (subperm_of_subset hnodup fun ci hci => mem_range.mpr (hlt ci hci)).length_le
    rw [length_range] at hlen
    omega
  | succ fuel ih =>
    rw [multiLoop]
    by_cases hall : (s.outs.all fun o => isZero o.uncovered) = true
    · rw [if_pos hall]
      exact ⟨s, rfl, fun o ho => ⟨hinv o ho, all_eq_true.mp hall o ho⟩, rfl⟩
    · rw [if_neg hall]
      obtain ⟨hbest, hnone⟩ := bestCand_spec (multiCandidates cubes vars opt s)
      split
      · rename_i hno
        -- an uncovered minterm would give a candidate
        obtain ⟨o, ho, hzero⟩ : ∃ o ∈ s.outs, isZero o.uncovered = false := by
          by_contra hnot
          refine hall (all_eq_true.mpr fun o ho => ?_)
          by_contra hzero
          exact hnot ⟨o, ho, by simpa using hzero⟩
        obtain ⟨j, hj⟩ := isZero_eq_false_iff.mp hzero
        obtain ⟨hjlt, -⟩ := ((hinv o ho).greedy.uncovered_iff j).mp hj
        obtain ⟨ci, hci, hcov⟩ := hcovers o ho _ (getElem_mem hjlt)
        have hbit : bit (rowAt o.rows ci) j = true :=
          ((hinv o ho).rowsOf.bit_iff ci j).mpr ⟨_, getElem?_eq_getElem hjlt, hcov⟩
        have hsel : ci ∉ s.selected := fun hmem => by
          rw [(hinv o ho).done ci hmem j hj] at hbit
          cases hbit
        have hgain : 0 < (s.outs.map fun o => o.gain ci).sum :=
          Nat.lt_of_lt_of_le (((hinv o ho).gain_pos_iff hci).mpr ⟨j, hj, hbit⟩)
            (single_le_sum (by simp) _ (mem_map.mpr ⟨o, ho, rfl⟩))
        have hmem : candOfCube cubes vars opt s ci ∈ multiCandidates cubes vars opt s :=
          mem_multiCandidates.mpr ⟨hci, hsel, hgain, rfl⟩
        rw [hnone hno] at hmem
        cases hmem
      · rename_i c hc
        obtain ⟨hci, hsel, -, -⟩ := mem_multiCandidates.mp (hbest c hc)
        have hstep := ih (s := s.select cubes vars c.pi)
          (fun o ho => by
            obtain ⟨o', ho', rfl⟩ := mem_map.mp ho
            exact hcovers o' ho')
          (fun o ho => by
            obtain ⟨o', ho', rfl⟩ := mem_map.mp ho
            exact (hinv o' ho').take hci)
          (nodup_cons.mpr ⟨hsel, hnodup⟩)
          (fun x hx => by
            rcases mem_cons.mp hx with rfl | hx
            · exact hci
            · exact hlt x hx)
          (by
            change cubes.length < fuel + (c.pi :: s.selected).length
            rw [length_cons]
            omega)
        obtain ⟨s', hs', hinv', hmap⟩ := hstep
        refine ⟨s', hs', hinv', hmap.trans ?_⟩
        rw [MultiState.select, List.map_map]
        rfl

end Search

/-- Each cube covers a minterm that no other one does. -/
def IrredundantCover (on : List UInt16) (cover : List QmImplicant) : Prop :=
  ∀ xs c ys, cover = xs ++ c :: ys → ∃ m ∈ on, ∀ d ∈ xs ++ ys, implicantCovers d m = false

section Covers

variable {cubes : List QmImplicant} {vars : Nat} {on dc : List UInt16} {selected : List Nat} {o : OutputState}

theorem irredundantCover_iff {picks : List Nat}
    (hvalid : ∀ ci ∈ picks, ∃ m, outputCov cubes on dc vars ci m = true) :
    IrredundantCover on (picks.filterMap fun ci => cubes[ci]?) ↔
      IrredundantPick on (outputCov cubes on dc vars) picks := by
  let g : Nat → QmImplicant := fun ci => cubes.getD ci ⟨0, 0⟩
  have hget : ∀ ci ∈ picks, cubes[ci]? = some (g ci) ∧
      ∀ m, outputCov cubes on dc vars ci m = implicantCovers (g ci) m := by
    intro ci hci
    obtain ⟨m, hm⟩ := hvalid ci hci
    obtain ⟨c, hc, hcube, -⟩ := outputCov_iff.mp hm
    have hg : g ci = c := by
      dsimp only [g]
      rw [getD_eq_getElem?_getD, hc, Option.getD_some]
    refine ⟨hg ▸ hc, fun x => ?_⟩
    rw [outputCov, hc, hg]
    dsimp only
    rw [hcube, Bool.true_and]
  have hmap : (picks.filterMap fun ci => cubes[ci]?) = picks.map g := by
    rw [← filterMap_eq_map]
    exact filterMap_congr fun ci hci => (hget ci hci).1
  rw [hmap]
  constructor
  · intro h xs ci ys hsplit
    obtain ⟨m, hm, hnone⟩ := h (xs.map g) (g ci) (ys.map g) (by rw [hsplit, map_append, map_cons])
    refine ⟨m, hm, fun q hq => ?_⟩
    have hqmem : q ∈ picks := by
      rw [hsplit]
      rcases mem_append.mp hq with hq | hq
      · exact mem_append_left _ hq
      · exact mem_append_right _ (mem_cons_of_mem _ hq)
    rw [(hget q hqmem).2]
    exact hnone (g q) (by rw [← map_append]; exact mem_map_of_mem hq)
  · intro h xs c ys hsplit
    obtain ⟨pxs, rest, hpicks, hxs, hrest⟩ := map_eq_append_iff.mp hsplit
    obtain ⟨ci, pys, hcons, -, hys⟩ := map_eq_cons_iff.mp hrest
    obtain ⟨m, hm, hnone⟩ := h pxs ci pys (by rw [hpicks, hcons])
    refine ⟨m, hm, fun d hd => ?_⟩
    rw [← hxs, ← hys, ← map_append] at hd
    obtain ⟨q, hq, rfl⟩ := mem_map.mp hd
    have hqmem : q ∈ picks := by
      rw [hpicks, hcons]
      rcases mem_append.mp hq with hq | hq
      · exact mem_append_left _ hq
      · exact mem_append_right _ (mem_cons_of_mem _ hq)
    rw [← (hget q hqmem).2]
    exact hnone q hq

/-- The cover of an output is valid, and irredundant where no counter can stop. -/
theorem OutputInv.cover (hvar : vars ≤ 16) (h : OutputInv cubes vars selected o)
    (hzero : isZero o.uncovered = true) : ∃ cover, coverOfOutput cubes o = some cover ∧
      IsCoverOf vars (· ∈ o.on) (fun m => m ∈ o.on ∨ m ∈ o.dc) cover ∧
      (CountersSuffice o.on (· ∈ cubes) → IrredundantCover o.on cover) := by
  rw [coverOfOutput]
  by_cases hnil : o.on = []
  · refine ⟨[], if_pos hnil, ⟨fun m hm => ?_, by simp⟩, fun _ xs c ys hsplit => ?_⟩
    · rw [hnil] at hm
      cases hm
    · simp at hsplit
  have hn : 0 < o.on.length := length_pos_of_ne_nil hnil
  have hrows := h.rowsOf
  have hcov : ∀ m ∈ o.on, ∃ ci ∈ o.useIdx, outputCov cubes o.on o.dc vars ci m = true := by
    intro m hm
    obtain ⟨j, hj, rfl⟩ := getElem_of_mem hm
    by_contra hnone
    have hfree := (h.greedy.uncovered_iff j).mpr ⟨hj, fun ci hci => by
      by_contra hbit
      obtain ⟨m, hm, hcov⟩ := (hrows.bit_iff ci j).mp (by simpa using hbit)
      rw [getElem?_eq_getElem hj] at hm
      exact hnone ⟨ci, hci, Option.some.inj hm ▸ hcov⟩⟩
    rw [isZero_iff.mp hzero j] at hfree
    cases hfree
  have hpicks : o.useIdx ≠ [] := by
    intro hempty
    obtain ⟨ci, hci, -⟩ := hcov _ (getElem_mem hn)
    rw [hempty] at hci
    cases hci
  have hsub := (cleanup_spec o.rows hn h.greedy.nodup).2.1
  have hvalid : ∀ ci ∈ cleanup o.rows o.on.length o.useIdx, ∃ m, outputCov cubes o.on o.dc vars ci m = true :=
    fun ci hci => h.greedy.useful ci (hsub hci)
  refine ⟨_, by rw [if_neg hnil, if_neg hpicks], ⟨fun m hm => ?_, fun m hm c hc hcm => ?_⟩, ?_⟩
  · obtain ⟨ci, hci, hm'⟩ := cov_cleanup hrows h.greedy.nodup hm (hcov m hm)
    obtain ⟨c, hc, -, hcm⟩ := outputCov_iff.mp hm'
    exact ⟨c, mem_filterMap.mpr ⟨ci, hci, hc⟩, hcm⟩
  · obtain ⟨ci, hci, hget⟩ := mem_filterMap.mp hc
    obtain ⟨x, hx⟩ := hvalid ci hci
    obtain ⟨c', hc', hcube, -⟩ := outputCov_iff.mp hx
    rw [hget] at hc'
    cases hc'
    exact (cubeValid_iff hvar).mp hcube m hm hcm
  · intro hsuffice
    rw [irredundantCover_iff hvalid]
    exact irredundant_cleanup hrows hn (h.greedy.not_saturates hrows (fun ci m => outputCov_iff) hsuffice)

end Covers

/-- The primes of all outputs together. -/
def PrimeOfSome (vars : Nat) (lists : List (List UInt16 × List UInt16)) (c : QmImplicant) : Prop :=
  ∃ p ∈ lists, IsPrimeImplicant vars p.1 p.2 c

/-- The result of the minimiser: a valid cover for each output, irredundant where no counter can
stop, and their common cost. -/
structure MultiValid (vars : Nat) (onList dcList : List (List UInt16)) (opt : TwoLevelOptions)
    (sol : MultiOutputSolution) : Prop where
  covers : List.Forall₂ (fun p cover => IsCoverOf vars (· ∈ p.1) (fun m => m ∈ p.1 ∨ m ∈ p.2) cover ∧
    (CountersSuffice p.1 (PrimeOfSome vars (onList.zip dcList)) → IrredundantCover p.1 cover))
    (onList.zip dcList) sol.covers
  cost : sol.cost = multiOutputGateCost sol.covers vars opt

section Result

variable {onList dcList : List (List UInt16)} {vars : Nat} {opt : TwoLevelOptions}

theorem multiSearch_eq_some (opt : TwoLevelOptions) (hvar : vars ≤ 16) {fuel : Nat} (hfuel : 2 ^ 32 < fuel)
    {lists : List (List UInt16 × List UInt16)} (hmin : ∀ p ∈ lists, ∀ m, m ∈ p.1 ∨ m ∈ p.2 → m.toNat < 2 ^ vars)
    {primesByOut : List (List QmImplicant)}
    (hprimes : List.Forall₂ (fun p primes => qmPrimeImplicants fuel p.1 p.2 vars = some primes) lists primesByOut) :
    ∃ s selected, multiSearch fuel lists primesByOut vars opt = some (s, true) ∧
      (∀ o ∈ s.outs, OutputInv (unionOfCubes primesByOut) vars selected o ∧ isZero o.uncovered = true) ∧
      s.outs.map (fun o => (o.on, o.dc)) = lists := by
  obtain ⟨hnodup, -, hunion⟩ := addCubes_spec primesByOut.flatten [] nodup_nil
  have hlen : (unionOfCubes primesByOut).length ≤ 2 ^ 32 := length_le_of_nodup hnodup
  have hcovers : ∀ p ∈ lists, ∀ m ∈ p.1, ∃ ci < (unionOfCubes primesByOut).length,
      outputCov (unionOfCubes primesByOut) p.1 p.2 vars ci m = true := by
    intro p hp m hm
    obtain ⟨primes, hmem, hqm⟩ := Failing.exists_of_mem_left hprimes hp
    obtain ⟨primes', hqm', -, hexact⟩ := qmPrimeImplicants_spec hvar (fun x hx => hmin p hp x (.inl hx))
      (fun x hx => hmin p hp x (.inr hx)) fuel (by omega)
    rw [hqm] at hqm'
    cases hqm'
    obtain ⟨c, hc, hcm⟩ := exists_prime_of_mem hvar p.1 p.2 (.inl hm) (hmin p hp m (.inl hm))
    obtain ⟨d, hd, hkey⟩ := hunion c (mem_flatten.mpr ⟨primes, hmem, (hexact c).mpr hc⟩)
    obtain ⟨ci, hci, hget⟩ := getElem_of_mem hd
    refine ⟨ci, hci, outputCov_iff.mpr ⟨d, List.getElem?_eq_some_iff.mpr ⟨hci, hget⟩, ?_, ?_⟩⟩
    · refine (cubeValid_iff hvar).mpr fun x _ hx => hc.implicant x ?_
      rwa [← implicantCovers_of_key hkey]
    · rwa [implicantCovers_of_key hkey]
  obtain ⟨s, hs, hinv, hmap⟩ := multiLoop_eq_some (unionOfCubes primesByOut) vars opt
    (s := multiStart (unionOfCubes primesByOut) vars lists)
    (fun o ho => by
      obtain ⟨p, hp, rfl⟩ := mem_map.mp ho
      exact hcovers p hp)
    (fun o ho => by
      obtain ⟨p, hp, rfl⟩ := mem_map.mp ho
      exact ⟨rfl, greedy_nil, by simp [multiStart]⟩)
    nodup_nil (by simp [multiStart]) fuel (by omega)
  refine ⟨s, s.selected, hs, hinv, hmap.trans ?_⟩
  rw [multiStart, List.map_map]
  exact map_id' lists

/-- `multi_output_two_level_minimize` succeeds when there is a prime implicant. -/
theorem multiOutputTwoLevelMinimize_spec (opt : TwoLevelOptions) (hpos : 1 ≤ vars) (hvar : vars ≤ 16) {fuel : Nat}
    (hfuel : 2 ^ 32 < fuel) (hlen : onList.length = dcList.length)
    (hmin : ∀ p ∈ onList.zip dcList, ∀ m, m ∈ p.1 ∨ m ∈ p.2 → m.toNat < 2 ^ vars)
    (hsome : ∃ p ∈ onList.zip dcList, ∃ c, IsPrimeImplicant vars p.1 p.2 c) :
    ∃ sol, multiOutputTwoLevelMinimize fuel onList dcList vars opt = some sol ∧
      MultiValid vars onList dcList opt sol := by
  obtain ⟨p₀, hp₀, c₀, hc₀⟩ := hsome
  have hexact : ∀ p ∈ onList.zip dcList, ∃ primes, qmPrimeImplicants fuel p.1 p.2 vars = some primes ∧
      ∀ c, c ∈ primes ↔ IsPrimeImplicant vars p.1 p.2 c := by
    intro p hp
    obtain ⟨primes, hqm, -, hiff⟩ := qmPrimeImplicants_spec hvar (fun x hx => hmin p hp x (.inl hx))
      (fun x hx => hmin p hp x (.inr hx)) fuel (by omega)
    exact ⟨primes, hqm, hiff⟩
  obtain ⟨primesByOut, hmapM, hprimes⟩ := Failing.exists_mapM_eq_some fun p hp =>
    (hexact p hp).imp fun _ h => h.1
  have hnonempty : onList ≠ [] := by
    rintro rfl
    cases hp₀
  -- an output with minterms has a prime
  have hfound : ((onList.zip dcList).zip primesByOut).any (fun p => p.2.isEmpty && !p.1.1.isEmpty) = false := by
    rw [any_eq_false]
    rintro ⟨p, primes⟩ hp
    have hmem : p ∈ onList.zip dcList := (of_mem_zip hp).1
    obtain ⟨primes', hqm, hiff⟩ := hexact p hmem
    rw [forall₂_zip hprimes hp] at hqm
    cases hqm
    cases hon : p.1 with
    | nil => simp
    | cons m rest =>
      have hm : m ∈ p.1 := by rw [hon]; exact mem_cons_self
      obtain ⟨c, hc, -⟩ := exists_prime_of_mem hvar p.1 p.2 (.inl hm) (hmin p hmem m (.inl hm))
      have hcmem := (hiff c).mpr hc
      cases hlist : primes with
      | nil => rw [hlist] at hcmem; cases hcmem
      | cons x xs => simp
  have hunion : unionOfCubes primesByOut ≠ [] := by
    obtain ⟨primes, hmem, hqm⟩ := Failing.exists_of_mem_left hprimes hp₀
    obtain ⟨primes', hqm', hiff⟩ := hexact p₀ hp₀
    rw [hqm] at hqm'
    cases hqm'
    obtain ⟨d, hd, -⟩ := (addCubes_spec primesByOut.flatten [] nodup_nil).2.2 c₀
      (mem_flatten.mpr ⟨primes, hmem, (hiff c₀).mpr hc₀⟩)
    exact ne_nil_of_mem hd
  obtain ⟨s, selected, hs, hinv, hmap⟩ := multiSearch_eq_some opt hvar hfuel hmin hprimes
  obtain ⟨covers, hcovers, hall⟩ := Failing.exists_mapM_eq_some (f := coverOfOutput (unionOfCubes primesByOut))
    fun o (ho : o ∈ s.outs) => ((hinv o ho).1.cover hvar (hinv o ho).2).imp fun _ h => h.1
  have hgood : List.Forall₂ (fun o cover =>
      IsCoverOf vars (· ∈ o.on) (fun m => m ∈ o.on ∨ m ∈ o.dc) cover ∧
      (CountersSuffice o.on (· ∈ unionOfCubes primesByOut) → IrredundantCover o.on cover)) s.outs covers := by
    refine ((forall₂_and_left (p := (· ∈ s.outs)) _ _).mpr ⟨fun o ho => ho, hall⟩).imp fun o cover h => ?_
    obtain ⟨cover', hcover', hvalid⟩ := (hinv o h.1).1.cover hvar (hinv o h.1).2
    rw [h.2] at hcover'
    cases hcover'
    exact hvalid
  have hlists : ∀ {R : List UInt16 × List UInt16 → List QmImplicant → Prop},
      List.Forall₂ R (onList.zip dcList) covers ↔ List.Forall₂ (fun o cover => R (o.on, o.dc) cover) s.outs covers := by
    intro R
    rw [← hmap, forall₂_map_left_iff]
  have hcheck : ((onList.zip dcList).zip covers).any (fun p => !twoLevelCoverCoversAllOn p.2 p.1.1) = false := by
    rw [any_eq_false]
    rintro ⟨p, cover⟩ hp
    have hcov : IsCoverOf vars (· ∈ p.1) (fun m => m ∈ p.1 ∨ m ∈ p.2) cover :=
      forall₂_zip ((hlists (R := fun p cover =>
        IsCoverOf vars (· ∈ p.1) (fun m => m ∈ p.1 ∨ m ∈ p.2) cover)).mpr (hgood.imp fun o cover h => h.1)) hp
    have hyes : twoLevelCoverCoversAllOn cover p.1 = true :=
      all_eq_true.mpr fun m hm => any_eq_true.mpr (hcov.contains m hm)
    simp [hyes]
  have hprime : ∀ c ∈ unionOfCubes primesByOut, PrimeOfSome vars (onList.zip dcList) c := by
    intro c hc
    have hflat := (mem_of_mem_addCubes _ _ hc).resolve_left not_mem_nil
    obtain ⟨primes, hmem, hcp⟩ := mem_flatten.mp hflat
    obtain ⟨p, hp, hqm⟩ := Failing.exists_of_mem_left hprimes.flip hmem
    obtain ⟨primes', hqm', hiff⟩ := hexact p hp
    rw [hqm] at hqm'
    cases hqm'
    exact ⟨p, hp, (hiff c).mp hcp⟩
  refine ⟨{ covers, cost := multiOutputGateCost covers vars opt }, ?_, ?_⟩
  · rw [multiOutputTwoLevelMinimize, if_neg (not_or.mpr ⟨hnonempty, not_not.mpr hlen⟩), if_neg (by omega)]
    dsimp only
    rw [hmapM, Option.bind_some, hfound, if_neg (by simp), if_neg hunion, hs, Option.map_some]
    dsimp only
    rw [if_neg (by simp), hcovers]
    dsimp only
    rw [hcheck, if_neg (by simp)]
  · exact ⟨hlists.mpr (hgood.imp fun o cover h => ⟨h.1, fun hsuffice => h.2 (hsuffice.mono hprime)⟩), rfl⟩

end Result

/-- Both greedy covers are found and cover their ON-sets. They are irredundant unless an ON-set
has all 65536 minterms and all the cubes around one of them are among the primes; of the prime
implicants of one function this is never so. -/
theorem greedyCovers_valid (vars : Nat) (hpos : 1 ≤ vars) (hvar : vars ≤ 16) (opt : TwoLevelOptions)
    (fuel : Nat) (hfuel : 2 ^ 32 < fuel) (onList dcList : List (List UInt16))
    (hlen : onList.length = dcList.length)
    (hmin : ∀ p ∈ onList.zip dcList, ∀ m, m ∈ p.1 ∨ m ∈ p.2 → m.toNat < 2 ^ vars)
    (hsome : ∃ p ∈ onList.zip dcList, ∃ c, IsPrimeImplicant vars p.1 p.2 c)
    (sort : StdSort GreedyCand.before) (primes : List QmImplicant) (on : List UInt16)
    (hcovers : ∀ m ∈ on, ∃ imp ∈ primes, implicantCovers imp m = true) :
    (∃ sol, multiOutputTwoLevelMinimize fuel onList dcList vars opt = some sol ∧
        MultiValid vars onList dcList opt sol) ∧
      ∃ sol, qmGreedyCover sort fuel primes on vars opt = some sol ∧ PickCovers primes on sol.pick ∧
        (CountersSuffice on (· ∈ primes) → GreedyValid primes on sol) ∧
        ∀ dc, (∀ c ∈ primes, IsPrimeImplicant vars on dc c) → GreedyValid primes on sol := by
  refine ⟨multiOutputTwoLevelMinimize_spec opt hpos hvar hfuel hlen hmin hsome, ?_⟩
  obtain ⟨sol, hsol, hcov, -, hirr⟩ := qmGreedyCover_spec sort fuel (by omega) vars opt hcovers
  exact ⟨sol, hsol, hcov, fun h => ⟨hcov, hirr h⟩, fun dc h => ⟨hcov, hirr (countersSuffice_of_primes hpos h)⟩⟩

/-- Two outputs over three variables that share a cube, and the six primes of a function with two
irredundant covers. -/
theorem greedyCovers_valid_shared :
    ∃ sol, multiOutputTwoLevelMinimize (2 ^ 32 + 1) [[1, 3, 7], [2, 3]] [[5], []] 3 {} = some sol ∧
      List.Forall₂ (fun p cover => IsCoverOf 3 (· ∈ p.1) (fun m => m ∈ p.1 ∨ m ∈ p.2) cover ∧
        IrredundantCover p.1 cover)
        [([1, 3, 7], [5]), ([2, 3], [])] sol.covers ∧
      ∃ sol', qmGreedyCover GreedyCand.insertion (2 ^ 32 + 1) cyclicPrimes cyclicOn 3 {} = some sol' ∧
        GreedyValid cyclicPrimes cyclicOn sol' := by
  have hmin : ∀ p ∈ ([([1, 3, 7], [5]), ([2, 3], [])] : List (List UInt16 × List UInt16)),
      ∀ m, m ∈ p.1 ∨ m ∈ p.2 → m.toNat < 2 ^ 3 := by
    intro p hp m hm
    rw [← List.mem_append] at hm
    have hall : ∀ p ∈ ([([1, 3, 7], [5]), ([2, 3], [])] : List (List UInt16 × List UInt16)),
        (p.1 ++ p.2).Forall fun m => m.toNat < 2 ^ 3 := by decide
    exact List.forall_iff_forall_mem.mp (hall p hp) m hm
  have hsome : ∃ c, IsPrimeImplicant 3 [1, 3, 7] [5] c :=
    (exists_prime_of_mem (show 3 ≤ 16 by omega) [1, 3, 7] [5] (m := 1) (by simp) (by decide)).imp fun _ h => h.1
  obtain ⟨⟨sol, hsol, hvalid⟩, sol', hsol', -, hgreedy, -⟩ := greedyCovers_valid 3 (by omega) (by omega) {}
    (2 ^ 32 + 1) (by omega) [[1, 3, 7], [2, 3]] [[5], []] rfl hmin ⟨_, List.mem_cons_self, hsome⟩ GreedyCand.insertion
    cyclicPrimes cyclicOn (List.forall_iff_forall_mem.mp (by decide))
  refine ⟨sol, hsol, ?_, sol', hsol', hgreedy
    (@countersSuffice_of_lt 3 (by omega) _ (List.forall_iff_forall_mem.mp (by decide)) _)⟩
  refine (((forall₂_and_left (p := (· ∈ [([1, 3, 7], [5]), ([2, 3], [])])) _ _).mpr
    ⟨fun p hp => hp, hvalid.covers⟩).imp fun p cover h => ⟨h.2.1, h.2.2 ?_⟩)
  exact countersSuffice_of_lt (by omega) (fun m hm => hmin p h.1 m (.inl hm)) _

end PhyEngine
