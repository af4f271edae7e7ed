import PhyEngine.Library.SortedLists
import PhyEngine.Synth.CoverCleanup

/-!
# The greedy cover

`qm_greedy_cover` without CUDA: the essential primes, then the prime with the best score, then
the cleanup. Every pick covers a minterm that was uncovered, so the loop ends with all of `on`
covered (`greedySearch_eq_some`). The sort of the candidates is a parameter.
-/

namespace PhyEngine

open PackedBits SortedLists List

structure GreedyState where
  uncovered : List (BitVec 64)
  pick : List Nat

def applyPick (rows : List (List (BitVec 64))) (s : GreedyState) (pi : Nat) : GreedyState :=
  if rows.length ≤ pi ∨ pi ∈ s.pick then s
  else { uncovered := diff s.uncovered (rowAt rows pi), pick := s.pick ++ [pi] }

/-- The rows counted in `cover_count`, the last of them being `last_prime`. -/
def rowsCovering (rows : List (List (BitVec 64))) (mi : Nat) : List Nat :=
  (List.range rows.length).filter fun pi => bit (rowAt rows pi) mi

def pickEssential (rows : List (List (BitVec 64))) (st : GreedyState × Bool) (mi : Nat) : GreedyState × Bool :=
  if bit st.1.uncovered mi = false then st
  else if (rowsCovering rows mi).length = 1 then
    match (rowsCovering rows mi).getLast? with
    | some pi => (applyPick rows st.1 pi, true)
    | none => st
  else st

/-- The loop over the essential primes; without fuel it has not ended. -/
def pickEssentials (rows : List (List (BitVec 64))) (n : Nat) : Nat → GreedyState → Option GreedyState
  | 0, _ => none
  | fuel + 1, s =>
    let st := (List.range n).foldl (pickEssential rows) (s, false)
    if st.2 then pickEssentials rows n fuel st.1 else some st.1

structure GreedyCand where
  pi : Nat
  gain : Nat
  cost : Nat
  score : Int

def GreedyCand.before (a b : GreedyCand) : Bool :=
  if a.score ≠ b.score then decide (b.score < a.score)
  else if a.gain ≠ b.gain then decide (b.gain < a.gain)
  else decide (a.cost < b.cost)

theorem GreedyCand.before_total (a b : GreedyCand) : b.before a = false ∨ a.before b = false := by
  unfold GreedyCand.before
  grind

theorem GreedyCand.before_trans (a b c : GreedyCand) (hab : b.before a = false) (hbc : c.before b = false) :
    c.before a = false := by
  unfold GreedyCand.before at *
  grind

def GreedyCand.insertion : StdSort GreedyCand.before := .insertion GreedyCand.before_total GreedyCand.before_trans

def GreedyCand.better (c best : GreedyCand) : Bool :=
  decide (best.score < c.score ∨
    c.score = best.score ∧ (best.gain < c.gain ∨ c.gain = best.gain ∧ c.cost < best.cost))

def bestCand (cands : List GreedyCand) : Option GreedyCand :=
  cands.foldl (fun best c =>
    match best with
    | none => some c
    | some b => some (if c.better b then c else b)) none

section Round

variable (rows : List (List (BitVec 64))) (cost : Nat → Nat) (s : GreedyState)

def candOfPrime (pi : Nat) : GreedyCand :=
  let gain := countOnes (inter (rowAt rows pi) s.uncovered)
  { pi, gain, cost := cost pi, score := (gain : Int) * 64 - (cost pi : Int) }

/-- The candidates of a round: the primes that are not picked and cover something new. -/
def candidates : List GreedyCand :=
  (List.range rows.length).filterMap fun pi =>
    let c := candOfPrime rows cost s pi
    if pi ∈ s.pick ∨ c.gain = 0 then none else some c

variable (top : List GreedyCand)

def bestNextScore (p : GreedyCand) : Option Int :=
  let tmpUncovered := diff s.uncovered (rowAt rows p.pi)
  top.foldl (fun best q =>
    if q.pi = p.pi then best
    else
      let g2 := countOnes (inter (rowAt rows q.pi) tmpUncovered)
      if g2 = 0 then best
      else
        let s2 := (g2 : Int) * 64 - (q.cost : Int)
        match best with
        | none => some s2
        | some b => some (if b < s2 then s2 else b)) none

def combinedScore (p : GreedyCand) : Int :=
  p.score + (bestNextScore rows s top p).getD 0

def lookahead : Option (Int × GreedyCand) :=
  top.foldl (fun best p =>
    match best with
    | none => some (combinedScore rows s top p, p)
    | some b => if b.1 < combinedScore rows s top p then some (combinedScore rows s top p, p) else some b) none

variable (sort : StdSort GreedyCand.before)

def greedyChoice : Option Nat :=
  let all := candidates rows cost s
  let cands := all.take 64
  (bestCand all).map fun best =>
    if 2 ≤ cands.length then
      match lookahead rows s ((sort.sort cands).take 16) with
      | none => best.pi
      | some b => b.2.pi
    else best.pi

/-- `while(any_uncovered())`; the flag says that nothing is left uncovered. -/
def greedyLoop : Nat → GreedyState → Option (GreedyState × Bool)
  | 0, _ => none
  | fuel + 1, s =>
    if isZero s.uncovered then some (s, true)
    else
      match greedyChoice rows cost s sort with
      | none => some (s, false)
      | some pi => greedyLoop fuel (applyPick rows s pi)

end Round

def greedyRows (primes : List QmImplicant) (on : List UInt16) : List (List (BitVec 64)) :=
  primes.map fun imp => coverRow (implicantCovers imp) on

def greedySearch (sort : StdSort GreedyCand.before) (fuel : Nat) (primes : List QmImplicant) (on : List UInt16)
    (vars : Nat) (opt : TwoLevelOptions) : Option (GreedyState × Bool) :=
  let rows := greedyRows primes on
  (pickEssentials rows on.length fuel { uncovered := firstBits on.length, pick := [] }).bind fun s =>
    greedyLoop rows (fun pi => qmCoverCost primes [pi] vars opt) sort fuel s

def qmGreedyCover (sort : StdSort GreedyCand.before) (fuel : Nat) (primes : List QmImplicant) (on : List UInt16)
    (vars : Nat) (opt : TwoLevelOptions) : Option QmSolution :=
  if on = [] then some { pick := [], cost := 0 }
  else (greedySearch sort fuel primes on vars opt).map fun found =>
    if found.2 then
      let pick := cleanup (greedyRows primes on) on.length found.1.pick
      { pick, cost := qmCoverCost primes pick vars opt }
    else { pick := found.1.pick, cost := noCost }

section Search

variable {on : List UInt16} {cov : Nat → UInt16 → Bool} {rows : List (List (BitVec 64))} {s : GreedyState}

theorem greedy_applyPick (h : Greedy on cov rows s.uncovered s.pick) (hrows : RowsOf on cov rows) {pi j : Nat}
    (hpi : pi < rows.length) (hj : bit s.uncovered j = true) (hbit : bit (rowAt rows pi) j = true) :
    Greedy on cov rows (applyPick rows s pi).uncovered (applyPick rows s pi).pick ∧
      (applyPick rows s pi).pick.length = s.pick.length + 1 ∧
      (∀ k, bit (applyPick rows s pi).uncovered k = true → bit s.uncovered k = true) ∧
      bit (applyPick rows s pi).uncovered j = false := by
  have hnew : pi ∉ s.pick := by
    intro hmem
    rw [((h.uncovered_iff j).mp hj).2 pi hmem] at hbit
    cases hbit
  have hlen : s.uncovered.length = (rowAt rows pi).length := by rw [h.length, hrows.length pi hpi]
  rw [applyPick, if_neg (by rintro (hle | hmem); exacts [by omega, hnew hmem])]
  refine ⟨h.snoc hrows hpi hj hbit, by simp, fun k hk => ?_, ?_⟩
  · rw [bit_diff hlen, Bool.and_eq_true] at hk
    exact hk.1
  · rw [bit_diff hlen, hbit, Bool.not_true, Bool.and_false]

theorem mem_rowsCovering {mi pi : Nat} : pi ∈ rowsCovering rows mi ↔ pi < rows.length ∧
    bit (rowAt rows pi) mi = true := by
  rw [rowsCovering, mem_filter, mem_range]

theorem pickEssential_pass (hrows : RowsOf on cov rows) (mis : List Nat) (st : GreedyState × Bool)
    (h : Greedy on cov rows st.1.uncovered st.1.pick) :
    let st' := mis.foldl (pickEssential rows) st
    Greedy on cov rows st'.1.uncovered st'.1.pick ∧
      (∀ k, bit st'.1.uncovered k = true → bit st.1.uncovered k = true) ∧
      ∀ mi ∈ mis, bit st'.1.uncovered mi = true → (rowsCovering rows mi).length ≠ 1 := by
  induction mis generalizing st with
  | nil => exact ⟨h, fun k hk => hk, by simp⟩
  | cons mi mis ih =>
    have hstep : Greedy on cov rows (pickEssential rows st mi).1.uncovered (pickEssential rows st mi).1.pick ∧
        (∀ k, bit (pickEssential rows st mi).1.uncovered k = true → bit st.1.uncovered k = true) ∧
        (bit (pickEssential rows st mi).1.uncovered mi = true → (rowsCovering rows mi).length ≠ 1) := by
      unfold pickEssential
      split
      · rename_i hfalse
        exact ⟨h, fun k hk => hk, fun hbit => by rw [hfalse] at hbit; cases hbit⟩
      rename_i huncovered
      split
      · split
        · rename_i pi hlast
          obtain ⟨hpi, hbit⟩ := mem_rowsCovering.mp (mem_of_getLast? hlast)
          obtain ⟨hgreedy, -, hsub, hfalse⟩ := greedy_applyPick h hrows hpi (by simpa using huncovered) hbit
          exact ⟨hgreedy, hsub, fun hbit => by rw [hfalse] at hbit; cases hbit⟩
        · rename_i hone _ hlast
          rw [getLast?_eq_none_iff.mp hlast] at hone
          cases hone
      · exact ⟨h, fun k hk => hk, fun _ => ‹_›⟩
    obtain ⟨hgreedy, hsub, hmi⟩ := hstep
    obtain ⟨hgreedy', hsub', hmis⟩ := ih _ hgreedy
    rw [foldl_cons]
    refine ⟨hgreedy', fun k hk => hsub k (hsub' k hk), fun k hk hbit => ?_⟩
    rcases mem_cons.mp hk with rfl | hk
    · exact hmi (hsub' k hbit)
    · exact hmis k hk hbit

theorem pickEssentials_eq_some (hrows : RowsOf on cov rows) (h : Greedy on cov rows s.uncovered s.pick) (fuel : Nat)
    (hfuel : 2 ≤ fuel) : ∃ s', pickEssentials rows on.length fuel s = some s' ∧
      Greedy on cov rows s'.uncovered s'.pick := by
  obtain ⟨fuel, rfl⟩ : ∃ k, fuel = k + 2 := ⟨fuel - 2, by omega⟩
  obtain ⟨hgreedy, -, hnone⟩ := pickEssential_pass hrows (List.range on.length) (s, false) h
  have hstay : ∀ (mis : List Nat) (t : GreedyState),
      (∀ mi ∈ mis, bit t.uncovered mi = true → (rowsCovering rows mi).length ≠ 1) →
      mis.foldl (pickEssential rows) (t, false) = (t, false) := by
    intro mis t ht
    induction mis with
    | nil => rfl
    | cons mi mis ih =>
      have hfirst : pickEssential rows (t, false) mi = (t, false) := by
        unfold pickEssential
        split
        · rfl
        · rename_i hbit
          rw [if_neg (ht mi mem_cons_self (by simpa using hbit))]
      rw [foldl_cons, hfirst]
      exact ih fun k hk => ht k (mem_cons_of_mem _ hk)
  rw [pickEssentials]
  split
  · refine ⟨_, ?_, hgreedy⟩
    rw [pickEssentials, hstay _ _ hnone]
    rfl
  · exact ⟨_, rfl, hgreedy⟩

theorem mem_candidates {cost : Nat → Nat} {c : GreedyCand} : c ∈ candidates rows cost s ↔
    c.pi < rows.length ∧ c.pi ∉ s.pick ∧ 0 < countOnes (inter (rowAt rows c.pi) s.uncovered) ∧
      c = candOfPrime rows cost s c.pi := by
  rw [candidates, mem_filterMap]
  constructor
  · rintro ⟨pi, hpi, hc⟩
    dsimp only at hc
    split at hc
    · cases hc
    · rename_i hnot
      obtain ⟨hpick, hgain⟩ := not_or.mp hnot
      cases hc
      exact ⟨mem_range.mp hpi, hpick, Nat.pos_of_ne_zero hgain, rfl⟩
  · rintro ⟨hpi, hpick, hgain, hc⟩
    have hnot : ¬ (c.pi ∈ s.pick ∨ (candOfPrime rows cost s c.pi).gain = 0) :=
      not_or.mpr ⟨hpick, Nat.ne_of_gt hgain⟩
    refine ⟨c.pi, mem_range.mpr hpi, ?_⟩
    dsimp only
    rw [if_neg hnot, ← hc]

theorem bestCand_spec (cands : List GreedyCand) :
    (∀ c, bestCand cands = some c → c ∈ cands) ∧ (bestCand cands = none → cands = []) := by
  have hloop : ∀ (cs : List GreedyCand) (best : Option GreedyCand), (∀ c, best = some c → c ∈ cands) → cs ⊆ cands →
      let best' := cs.foldl (fun best c =>
        match best with
        | none => some c
        | some b => some (if c.better b then c else b)) best
      (∀ c, best' = some c → c ∈ cands) ∧ (best' = none → best = none ∧ cs = []) := by
    intro cs
    induction cs with
    | nil => exact fun best hbest _ => ⟨hbest, fun hnone => ⟨hnone, rfl⟩⟩
    | cons c cs ih =>
      intro best hbest hsub
      rw [foldl_cons]
      have hc : c ∈ cands := hsub mem_cons_self
      have hrest : cs ⊆ cands := fun x hx => hsub (mem_cons_of_mem _ hx)
      cases best with
      | none =>
        obtain ⟨hmem, hnone⟩ := ih (some c) (fun x hx => Option.some.inj hx ▸ hc) hrest
        exact ⟨hmem, fun h => absurd (hnone h).1 (by simp)⟩
      | some b =>
        have hnext : (if c.better b then c else b) ∈ cands := by
          split
          · exact hc
          · exact hbest b rfl
        obtain ⟨hmem, hnone⟩ := ih (some _) (fun x hx => Option.some.inj hx ▸ hnext) hrest
        exact ⟨hmem, fun h => absurd (hnone h).1 (by simp)⟩
  obtain ⟨hmem, hnone⟩ := hloop cands none (by simp) (List.Subset.refl _)
  exact ⟨hmem, fun h => (hnone h).2⟩

theorem mem_of_lookahead {top : List GreedyCand} {b : Int × GreedyCand} (h : lookahead rows s top = some b) :
    b.2 ∈ top := by
  have hloop : ∀ (cands : List GreedyCand) (best : Option (Int × GreedyCand)), (∀ b, best = some b → b.2 ∈ top) →
      cands ⊆ top → ∀ b, cands.foldl (fun best p =>
        match best with
        | none => some (combinedScore rows s top p, p)
        | some b => if b.1 < combinedScore rows s top p then some (combinedScore rows s top p, p) else some b) best =
          some b →
        b.2 ∈ top := by
    intro cands
    induction cands with
    | nil => exact fun best hbest _ => hbest
    | cons p cands ih =>
      intro best hbest hsub b hb
      rw [foldl_cons] at hb
      refine ih _ (fun b' hb' => ?_) (fun c hc => hsub (mem_cons_of_mem _ hc)) b hb
      have hp : p ∈ top := hsub mem_cons_self
      split at hb'
      · exact Option.some.inj hb' ▸ hp
      · rename_i best'
        split at hb'
        · exact Option.some.inj hb' ▸ hp
        · exact hbest b' hb'
  exact hloop top none (by simp) (List.Subset.refl _) b h

theorem greedyChoice_spec (rows : List (List (BitVec 64))) (s : GreedyState) (cost : Nat → Nat)
    (sort : StdSort GreedyCand.before) :
    (∀ pi, greedyChoice rows cost s sort = some pi →
      pi < rows.length ∧ 0 < countOnes (inter (rowAt rows pi) s.uncovered)) ∧
    (greedyChoice rows cost s sort = none → ∀ pi < rows.length, pi ∉ s.pick →
      countOnes (inter (rowAt rows pi) s.uncovered) = 0) := by
  obtain ⟨hbest, hnone⟩ := bestCand_spec (candidates rows cost s)
  have hcand : ∀ c ∈ candidates rows cost s, c.pi < rows.length ∧ 0 < countOnes (inter (rowAt rows c.pi) s.uncovered) :=
    fun c hc => ⟨(mem_candidates.mp hc).1, (mem_candidates.mp hc).2.2.1⟩
  unfold greedyChoice
  dsimp only
  refine ⟨fun pi hpi => ?_, fun h pi hpi hpick => ?_⟩
  · obtain ⟨best, hsome, rfl⟩ := Option.map_eq_some_iff.mp hpi
    split
    · split
      · exact hcand best (hbest best hsome)
      · rename_i b hlook
        have hmem := (sort.perm _).mem_iff.mp (mem_of_mem_take (mem_of_lookahead hlook))
        exact hcand b.2 (mem_of_mem_take hmem)
    · exact hcand best (hbest best hsome)
  · by_contra hgain
    have hmem : candOfPrime rows cost s pi ∈ candidates rows cost s :=
      mem_candidates.mpr ⟨hpi, hpick, Nat.pos_of_ne_zero hgain, rfl⟩
    rw [hnone (Option.map_eq_none_iff.mp h)] at hmem
    cases hmem

theorem greedyLoop_eq_some (hrows : RowsOf on cov rows) (cost : Nat → Nat) (sort : StdSort GreedyCand.before)
    (hcovers : ∀ j < on.length, ∃ pi < rows.length, bit (rowAt rows pi) j = true)
    (h : Greedy on cov rows s.uncovered s.pick) {fuel : Nat} (hfuel : 65537 ≤ fuel + s.pick.length) :
    ∃ s', greedyLoop rows cost sort fuel s = some (s', true) ∧ Greedy on cov rows s'.uncovered s'.pick ∧
      isZero s'.uncovered = true := by
  induction fuel generalizing s with
  | zero =>
    obtain ⟨ms, hlength, hnodup, -⟩ := h.owned
    have := (length_words_le hnodup).1
    omega
  | succ fuel ih =>
    rw [greedyLoop]
    by_cases hzero : isZero s.uncovered = true
    · rw [if_pos hzero]
      exact ⟨s, rfl, h, hzero⟩
    · rw [if_neg hzero]
      obtain ⟨hchoice, hnone⟩ := greedyChoice_spec rows s cost sort
      split
      · rename_i hno
        obtain ⟨j, hj⟩ := isZero_eq_false_iff.mp (by simpa using hzero)
        obtain ⟨hlt, hun⟩ := (h.uncovered_iff j).mp hj
        obtain ⟨pi, hpi, hbit⟩ := hcovers j hlt
        have hnot : pi ∉ s.pick := fun hmem => by
          rw [hun pi hmem] at hbit
          cases hbit
        have hgain := hnone hno pi hpi hnot
        have hpos : 0 < countOnes (inter (rowAt rows pi) s.uncovered) := countOnes_pos_iff.mpr
          ⟨j, by rw [bit_inter (by rw [h.length, hrows.length pi hpi]), hbit, hj]; rfl⟩
        omega
      · rename_i pi hpi
        obtain ⟨hlt, hpos⟩ := hchoice pi hpi
        obtain ⟨j, hj⟩ := countOnes_pos_iff.mp hpos
        rw [bit_inter (by rw [h.length, hrows.length pi hlt]), Bool.and_eq_true] at hj
        obtain ⟨hgreedy, hlength, -⟩ := greedy_applyPick h hrows hlt hj.2 hj.1
        exact ih hgreedy (by omega)

end Search

section Result

variable {primes : List QmImplicant} {on : List UInt16}

theorem rowsOf_greedyRows (primes : List QmImplicant) (on : List UInt16) :
    RowsOf on (fun pi m => primeCovers primes m pi) (greedyRows primes on) := by
  have hrow : ∀ pi, rowAt (greedyRows primes on) pi =
      ((primes[pi]?.map fun imp => coverRow (implicantCovers imp) on).getD []) := by
    intro pi
    rw [rowAt, greedyRows, getD_eq_getElem?_getD, getElem?_map]
  refine ⟨fun pi hpi => ?_, fun pi j => ?_⟩
  · rw [greedyRows, length_map] at hpi
    rw [hrow, getElem?_eq_getElem hpi]
    exact (coverRow_spec _ on).1
  · simp only [hrow, primeCovers]
    cases primes[pi]? with
    | none =>
      rw [Option.map_none, Option.getD_none, bit_eq_false_of_le (Nat.zero_le _)]
      simp
    | some imp => exact (coverRow_spec _ on).2 j

theorem implicantCovers_of_corners {c : QmImplicant} {m : UInt16} (h : implicantCovers c m = true)
    (h' : implicantCovers c (~~~m) = true) (x : UInt16) : implicantCovers c x = true := by
  rw [implicantCovers_iff] at h h' ⊢
  intro i hi hmask
  have hbit := (h i hi hmask).trans (h' i hi hmask).symm
  rw [WordBits.testBit_not m hi] at hbit
  cases hm : m.toNat.testBit i <;> simp [hm] at hbit

theorem implicantCovers_of_mask {c d : QmImplicant} {m : UInt16} (hmask : c.mask = d.mask)
    (hc : implicantCovers c m = true) (hd : implicantCovers d m = true) (x : UInt16) :
    implicantCovers c x = implicantCovers d x := by
  have hvalue : c.value &&& ~~~c.mask = d.value &&& ~~~d.mask := by
    rw [implicantCovers, beq_iff_eq] at hc hd
    rw [← hc, ← hd, hmask]
  rw [implicantCovers, implicantCovers, hvalue, hmask]

/-- No counter of a cleanup can stop: some minterm is not in the ON-set, or around each minterm
a cube is missing. -/
def CountersSuffice (on : List UInt16) (P : QmImplicant → Prop) : Prop :=
  (∃ m, m ∉ on) ∨ ∀ m, ∃ k : UInt16, ∀ c, P c → c.mask = k → implicantCovers c m = false

theorem CountersSuffice.mono {on : List UInt16} {P Q : QmImplicant → Prop} (h : CountersSuffice on Q)
    (hPQ : ∀ c, P c → Q c) : CountersSuffice on P :=
  h.imp_right fun h m => (h m).imp fun _ hk c hc => hk c (hPQ c hc)

/-- With fewer than 16 variables there are minterms enough that no list holds. -/
theorem countersSuffice_of_lt {vars : Nat} (hvar : vars < 16) {on : List UInt16}
    (hon : ∀ m ∈ on, m.toNat < 2 ^ vars) (P : QmImplicant → Prop) : CountersSuffice on P := by
  refine .inl ⟨UInt16.ofNat (2 ^ vars), fun hmem => ?_⟩
  have hlt := hon _ hmem
  have hpow : 2 ^ vars < 2 ^ 16 := Nat.pow_lt_pow_right (by omega) hvar
  rw [UInt16.toNat_ofNat', Nat.mod_eq_of_lt hpow] at hlt
  omega

/-- The prime implicants of the whole ON-set do not contain the single minterms. -/
theorem countersSuffice_of_primes {vars : Nat} (hpos : 1 ≤ vars) {on dc : List UInt16} {P : QmImplicant → Prop}
    (h : ∀ c, P c → IsPrimeImplicant vars on dc c) : CountersSuffice on P := by
  by_cases hall : ∃ m, m ∉ on
  · exact .inl hall
  · refine .inr fun m => ⟨0, fun c hc hmask => ?_⟩
    refine absurd (fun x _ => ?_) ((h c hc).maximal 0 hpos (by rw [hmask]; rfl))
    exact .inl (by_contra fun hx => hall ⟨x, hx⟩)

/-- The rows of a greedy cover are those of the cubes `cubeAt`. -/
theorem Greedy.not_saturates {on : List UInt16} {cov : Nat → UInt16 → Bool} {rows : List (List (BitVec 64))}
    {uncovered : List (BitVec 64)} {pick : List Nat} (h : Greedy on cov rows uncovered pick)
    (hrows : RowsOf on cov rows) {cubes : List QmImplicant} {valid : QmImplicant → Bool}
    (hcov : ∀ pi m, cov pi m = true ↔ ∃ c, cubes[pi]? = some c ∧ valid c = true ∧ implicantCovers c m = true)
    (hsuffice : CountersSuffice on (· ∈ cubes)) : ¬ Saturates rows on.length pick := by
  intro hsat
  have hagree (p q : Nat) (m : UInt16) (hmask : (cubes.getD p ⟨0, 0⟩).mask = (cubes.getD q ⟨0, 0⟩).mask)
      (hp : cov p m = true) (hq : cov q m = true) (x : UInt16) (hx : cov q x = true) : cov p x = true := by
    obtain ⟨c, hc, hvalid, hcm⟩ := (hcov p m).mp hp
    obtain ⟨d, hd, -, hdm⟩ := (hcov q m).mp hq
    obtain ⟨d', hd', -, hdx⟩ := (hcov q x).mp hx
    rw [hd] at hd'
    cases hd'
    rw [getD_eq_getElem?_getD, getD_eq_getElem?_getD, hc, hd, Option.getD_some, Option.getD_some] at hmask
    exact (hcov p x).mpr ⟨c, hc, hvalid, by rw [implicantCovers_of_mask hmask hcm hdm, hdx]⟩
  obtain ⟨hall, m, hm⟩ := h.masks_of_saturates hrows hsat hagree
  rcases hsuffice with ⟨x, hx⟩ | hmissing
  · exact hx (hall x)
  · obtain ⟨k, hk⟩ := hmissing m
    obtain ⟨pi, hmask, hpi⟩ := hm k
    obtain ⟨c, hc, -, hcm⟩ := (hcov pi m).mp hpi
    rw [getD_eq_getElem?_getD, hc] at hmask
    rw [hk c (List.mem_of_getElem? hc) hmask] at hcm
    cases hcm

structure GreedyValid (primes : List QmImplicant) (on : List UInt16) (sol : QmSolution) : Prop where
  covers : PickCovers primes on sol.pick
  irredundant : IrredundantPick on (fun pi m => primeCovers primes m pi) sol.pick

variable (sort : StdSort GreedyCand.before)

theorem greedySearch_eq_some {fuel : Nat} (hfuel : 65537 ≤ fuel) (vars : Nat)
    (opt : TwoLevelOptions) (hcovers : ∀ m ∈ on, ∃ imp ∈ primes, implicantCovers imp m = true) :
    ∃ s, greedySearch sort fuel primes on vars opt = some (s, true) ∧
      Greedy on (fun pi m => primeCovers primes m pi) (greedyRows primes on) s.uncovered s.pick ∧
      isZero s.uncovered = true := by
  have hrows := rowsOf_greedyRows primes on
  obtain ⟨s, hs, hgreedy⟩ := pickEssentials_eq_some hrows
    (s := { uncovered := firstBits on.length, pick := [] }) greedy_nil fuel (by omega)
  rw [greedySearch, hs, Option.bind_some]
  refine greedyLoop_eq_some hrows _ sort (fun j hj => ?_) hgreedy (by omega)
  obtain ⟨imp, himp, hcov⟩ := hcovers _ (getElem_mem hj)
  obtain ⟨pi, hpi, rfl⟩ := getElem_of_mem himp
  refine ⟨pi, by rwa [greedyRows, length_map], (hrows.bit_iff pi j).mpr ⟨_, getElem?_eq_getElem hj, ?_⟩⟩
  rw [primeCovers, getElem?_eq_getElem hpi]
  exact hcov

def greedyPicks (fuel : Nat) (primes : List QmImplicant) (on : List UInt16)
    (vars : Nat) (opt : TwoLevelOptions) : List Nat :=
  ((greedySearch sort fuel primes on vars opt).map fun found => found.1.pick).getD []

/-- `qm_greedy_cover` returns; its pick covers `on`, and it is irredundant exactly when no counter
stops. It does not where `CountersSuffice`. -/
theorem qmGreedyCover_spec (fuel : Nat) (hfuel : 65537 ≤ fuel) (vars : Nat)
    (opt : TwoLevelOptions) (hcovers : ∀ m ∈ on, ∃ imp ∈ primes, implicantCovers imp m = true) :
    ∃ sol, qmGreedyCover sort fuel primes on vars opt = some sol ∧ PickCovers primes on sol.pick ∧
      (IrredundantPick on (fun pi m => primeCovers primes m pi) sol.pick ↔
        ¬ Saturates (greedyRows primes on) on.length (greedyPicks sort fuel primes on vars opt)) ∧
      (CountersSuffice on (· ∈ primes) → IrredundantPick on (fun pi m => primeCovers primes m pi) sol.pick) := by
  rw [qmGreedyCover]
  by_cases hnil : on = []
  · subst hnil
    have hirr : IrredundantPick [] (fun pi m => primeCovers primes m pi) [] := by
      intro xs pi ys hsplit
      simp at hsplit
    refine ⟨_, if_pos rfl, by simp [PickCovers], ⟨fun _ => ?_, fun _ => hirr⟩, fun _ => hirr⟩
    rintro ⟨j, hj, -⟩
    cases hj
  · have hn : 0 < on.length := length_pos_of_ne_nil hnil
    obtain ⟨s, hs, hgreedy, hzero⟩ := greedySearch_eq_some sort hfuel vars opt hcovers
    have hrows := rowsOf_greedyRows primes on
    have hpicks : greedyPicks sort fuel primes on vars opt = s.pick := by
      rw [greedyPicks, hs]
      rfl
    rw [if_neg hnil, hs, hpicks]
    have hsuffice : CountersSuffice on (· ∈ primes) → ¬ Saturates (greedyRows primes on) on.length s.pick :=
      @Greedy.not_saturates on _ _ _ _ hgreedy hrows primes (fun _ => true) fun pi m => by
        rw [primeCovers]
        cases primes[pi]? <;> simp
    refine ⟨_, rfl, fun m hm => ?_, ?_, fun h => irredundant_cleanup hrows hn (hsuffice h)⟩
    · obtain ⟨j, hj, rfl⟩ := getElem_of_mem hm
      have hcov : ∃ pi ∈ s.pick, primeCovers primes on[j] pi = true := by
        by_contra hnone
        have hfree := (hgreedy.uncovered_iff j).mpr ⟨hj, fun pi hpi => by
          by_contra hbit
          obtain ⟨m, hm, hcov⟩ := (hrows.bit_iff pi j).mp (by simpa using hbit)
          rw [getElem?_eq_getElem hj] at hm
          exact hnone ⟨pi, hpi, Option.some.inj hm ▸ hcov⟩⟩
        rw [isZero_iff.mp hzero j] at hfree
        cases hfree
      obtain ⟨pi, hpi, hpicov⟩ := cov_cleanup hrows hgreedy.nodup (getElem_mem hj) hcov
      exact ⟨pi, hpi, primeCovers_iff.mp hpicov⟩
    · refine ⟨fun hirr hsat => not_irredundant_cleanup hrows hgreedy (fun pi m hm hm' x => ?_) hsat hirr,
        irredundant_cleanup hrows hn⟩
      rw [primeCovers] at hm hm' ⊢
      cases hget : primes[pi]? with
      | none =>
        rw [hget] at hm
        cases hm
      | some imp =>
        rw [hget] at hm hm'
        exact implicantCovers_of_corners hm hm' x

end Result

end PhyEngine
