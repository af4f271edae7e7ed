import PhyEngine.Library.SortedLists
import PhyEngine.Synth.QmCover

/-!
# Petrick's method

`qm_petrick_minimum_cover`: after the essential primes every minterm left is a clause, and the
product of the clauses is expanded. Pruning leaves a subset of every term
(`exists_prune_subset`), so the cover has least cost (`qmPetrickMinimumCover_exact`).
-/

namespace PhyEngine

open List

/-- The primes of a minterm, counted up to two, with the last one that was counted. -/
def countPrimes (primes : List QmImplicant) (m : UInt16) : Nat × Nat :=
  match coversOf primes m with
  | [] => (0, 0)
  | [pi] => (1, pi)
  | _ :: pi :: _ => (2, pi)

/-- The body of the essential loop. A minterm without a prime ends the search; what is thrown
is `sol.pick`. -/
def petrickAt (primes : List QmImplicant) (on : List UInt16) (s : Essentials) (entry : UInt16 × Nat) :
    Except (List Nat) Essentials :=
  if s.covered.getD entry.2 false then .ok s
  else
    match countPrimes primes entry.1 with
    | (0, _) => .error s.picked
    | (1, last) =>
      .ok { covered := markCovered primes on s.covered last
            picked := if last ∈ s.picked then s.picked else s.picked ++ [last]
            changed := true }
    | _ => .ok s

def petrickPass (primes : List QmImplicant) (on : List UInt16) (s : Essentials) : Except (List Nat) Essentials :=
  on.zipIdx.foldlM (petrickAt primes on) { s with changed := false }

/-- `while(changed)`. The second pass finds nothing to pick, so that two passes are enough
(`petrickEssentials_stable`). -/
def petrickEssentials (primes : List QmImplicant) (on : List UInt16) :
    Nat → Essentials → Except (List Nat) Essentials
  | 0, s => .ok s
  | fuel + 1, s => do
    let s' ← petrickPass primes on s
    if s'.changed then petrickEssentials primes on fuel s' else .ok s'

def clauseOf (primes : List QmImplicant) (picked : List Nat) (m : UInt16) : List Nat :=
  (coversOf primes m).filter fun pi => pi ∉ picked

def termPrimes (primes : List QmImplicant) (t : Nat) : List Nat := (List.range primes.length).filter t.testBit

def bitCost (primes : List QmImplicant) (picked : List Nat) (vars : Nat) (opt : TwoLevelOptions) (t : Nat) : Nat :=
  qmCoverCost primes (picked ++ termPrimes primes t) vars opt

/-- The inner loop of the pruning, over the terms behind the term `a` at `i`. -/
def dominate (cost : Nat → Nat) (a i : Nat) : List (Nat × Nat) → List Bool → List Bool
  | [], drop => drop
  | (b, j) :: rest, drop =>
    if drop.getD j false then dominate cost a i rest drop
    else if a &&& b = a then dominate cost a i rest (if cost a ≤ cost b then drop.set j true else drop)
    else if a &&& b = b then
      if cost b ≤ cost a then drop.set i true else dominate cost a i rest drop
    else dominate cost a i rest drop

def dropFlags (cost : Nat → Nat) (next : List Nat) : List Bool :=
  next.zipIdx.foldl (fun drop e =>
    if drop.getD e.2 false then drop else dominate cost e.1 e.2 (next.zipIdx.drop (e.2 + 1)) drop)
    (next.map fun _ => false)

def prune (cost : Nat → Nat) (next : List Nat) : List Nat :=
  (next.zipIdx.filter fun e => !(dropFlags cost next).getD e.2 false).map Prod.fst

def maxTerms : Nat := 16384

def expandTerms (cost : Nat → Nat) (clause terms : List Nat) : Option (List Nat) :=
  if clause = [] then none
  else
    let next := terms.flatMap fun t => clause.map fun b => t ||| 2 ^ b
    if maxTerms < next.length then none
    else
      let pruned := prune cost ((next.insertionSort (· ≤ ·)).destutter (· ≠ ·))
      if pruned = [] then none else some pruned

def bestTerm (cost : Nat → Nat) (terms : List Nat) : Nat × Nat :=
  terms.foldl (fun best t => if cost t < best.2 then (t, cost t) else best) (0, noCost)

def remainingOf (on : List UInt16) (covered : List Bool) : List UInt16 :=
  (on.zipIdx.filter fun e => !covered.getD e.2 false).map Prod.fst

def qmPetrickMinimumCover (primes : List QmImplicant) (on : List UInt16) (vars : Nat)
    (opt : TwoLevelOptions) : QmSolution :=
  if on = [] then { pick := [], cost := 0 }
  else if primes.length = 0 ∨ 64 < primes.length then {}
  else
    match petrickEssentials primes on (on.length + 1)
        { covered := on.map fun _ => false, picked := [], changed := true } with
    | .error pick => { pick, cost := noCost }
    | .ok s =>
      let remaining := remainingOf on s.covered
      if remaining = [] then { pick := s.picked, cost := qmCoverCost primes s.picked vars opt }
      else
        let cost := bitCost primes s.picked vars opt
        match remaining.foldlM (fun terms m => expandTerms cost (clauseOf primes s.picked m) terms) [0] with
        | none => { pick := s.picked, cost := noCost }
        | some terms =>
          let best := bestTerm cost terms
          if best.2 = noCost then { pick := s.picked, cost := noCost }
          else
            let pick := s.picked ++ termPrimes primes best.1
            { pick, cost := qmCoverCost primes pick vars opt }

section Essential

variable {primes : List QmImplicant} {on : List UInt16} {s s' : Essentials} {entry : UInt16 × Nat}

section

variable (hs : EssentialInv primes on s)
include hs

theorem petrickAt_cases (hentry : entry ∈ on.zipIdx)
    (h : petrickAt primes on s entry = .ok s') :
    (s' = s ∧ (s.picked.any (primeCovers primes entry.1) = true ∨ 2 ≤ (coversOf primes entry.1).length)) ∨
      ∃ pi, coversOf primes entry.1 = [pi] ∧ pi ∉ s.picked ∧
        s' = { covered := markCovered primes on s.covered pi, picked := s.picked ++ [pi], changed := true } := by
  unfold petrickAt at h
  rw [hs.getD_covered hentry] at h
  split at h
  · rename_i hcov
    exact .inl ⟨(Except.ok.inj h).symm, .inl hcov⟩
  rename_i hcov
  match hcovers : coversOf primes entry.1 with
  | [] =>
    simp only [countPrimes, hcovers] at h
    cases h
  | [pi] =>
    have hnew : pi ∉ s.picked := by
      intro hmem
      exact hcov (any_eq_true.mpr ⟨pi, hmem, primeCovers_iff.mpr (by simp [hcovers])⟩)
    simp only [countPrimes, hcovers, if_neg hnew] at h
    exact .inr ⟨pi, rfl, hnew, (Except.ok.inj h).symm⟩
  | p :: q :: rest =>
    simp only [countPrimes, hcovers] at h
    exact .inl ⟨(Except.ok.inj h).symm, .inr (by simp)⟩

theorem EssentialInv.petrickAt (hentry : entry ∈ on.zipIdx)
    (h : petrickAt primes on s entry = .ok s') : EssentialInv primes on s' := by
  obtain ⟨rfl, -⟩ | ⟨pi, hpi, hnew, rfl⟩ := petrickAt_cases hs hentry h
  · exact hs
  · exact hs.pick hentry hpi hnew

theorem EssentialInv.petrickFold {entries : List (UInt16 × Nat)}
    (hsub : ∀ e ∈ entries, e ∈ on.zipIdx) (h : entries.foldlM (PhyEngine.petrickAt primes on) s = .ok s') :
    EssentialInv primes on s' ∧ s.picked ⊆ s'.picked ∧
      ∀ e ∈ entries, s'.picked.any (primeCovers primes e.1) = true ∨ 2 ≤ (coversOf primes e.1).length := by
  induction entries generalizing s with
  | nil =>
    cases h
    exact ⟨hs, List.Subset.refl _, by simp⟩
  | cons e entries ih =>
    rw [foldlM_cons] at h
    cases hfirst : PhyEngine.petrickAt primes on s e with
    | error pick =>
      rw [hfirst] at h
      cases h
    | ok s₁ =>
      rw [hfirst] at h
      have he := hsub e mem_cons_self
      obtain ⟨hinv, hgrow, hall⟩ := ih (hs.petrickAt he hfirst) (fun e' he' => hsub e' (mem_cons_of_mem _ he')) h
      have hany : ∀ pick pick' : List Nat, pick ⊆ pick' → pick.any (primeCovers primes e.1) = true →
          pick'.any (primeCovers primes e.1) = true := by
        intro pick pick' hsub hp
        obtain ⟨pi, hpi, hcov⟩ := any_eq_true.mp hp
        exact any_eq_true.mpr ⟨pi, hsub hpi, hcov⟩
      obtain ⟨rfl, hcase⟩ | ⟨pi, hpi, hnew, rfl⟩ := petrickAt_cases hs he hfirst
      · refine ⟨hinv, hgrow, fun e' he' => ?_⟩
        rcases mem_cons.mp he' with rfl | he'
        · exact hcase.imp_left (hany _ _ hgrow)
        · exact hall e' he'
      · refine ⟨hinv, List.Subset.trans (subset_append_left _ _) hgrow, fun e' he' => ?_⟩
        rcases mem_cons.mp he' with rfl | he'
        · refine .inl (any_eq_true.mpr ⟨pi, hgrow (by simp), primeCovers_iff.mpr (by simp [hpi])⟩)
        · exact hall e' he'

theorem petrickFold_stable {entries : List (UInt16 × Nat)}
    (hsub : ∀ e ∈ entries, e ∈ on.zipIdx)
    (hall : ∀ e ∈ entries, s.picked.any (primeCovers primes e.1) = true ∨ 2 ≤ (coversOf primes e.1).length) :
    entries.foldlM (petrickAt primes on) s = .ok s := by
  induction entries with
  | nil => rfl
  | cons e entries ih =>
    have hfirst : petrickAt primes on s e = .ok s := by
      unfold petrickAt
      rw [hs.getD_covered (hsub e mem_cons_self)]
      split
      · rfl
      · rename_i hcov
        have htwo := (hall e mem_cons_self).resolve_left hcov
        match hcovers : coversOf primes e.1, htwo with
        | p :: q :: rest, _ => simp only [countPrimes, hcovers]
    rw [foldlM_cons, hfirst]
    exact ih (fun e' he' => hsub e' (mem_cons_of_mem _ he')) fun e' he' => hall e' (mem_cons_of_mem _ he')

omit hs in
theorem essentialInv_start (changed : Bool) :
    EssentialInv primes on { covered := on.map fun _ => false, picked := [], changed } :=
  ⟨by simp, nodup_nil, by simp⟩

theorem EssentialInv.petrickEssentials {fuel : Nat}
    (h : petrickEssentials primes on fuel s = .ok s') : EssentialInv primes on s' := by
  induction fuel generalizing s with
  | zero => exact Except.ok.inj h ▸ hs
  | succ fuel ih =>
    unfold PhyEngine.petrickEssentials at h
    cases hpass : petrickPass primes on s with
    | error pick =>
      rw [hpass] at h
      cases h
    | ok s₁ =>
      rw [hpass] at h
      have hinv := (EssentialInv.petrickFold (s := { s with changed := false }) ⟨hs.covered, hs.nodup, hs.essential⟩
        (fun _ he => he) hpass).1
      change (if s₁.changed = true then PhyEngine.petrickEssentials primes on fuel s₁ else .ok s₁) = .ok s' at h
      split at h
      · exact ih hinv h
      · exact Except.ok.inj h ▸ hinv

end

theorem petrickEssentials_stable {fuel : Nat} (hfuel : 2 ≤ fuel) (hs : EssentialInv primes on s)
    (h : petrickEssentials primes on fuel s = .ok s') : petrickPass primes on s' = .ok s' := by
  have hend : ∀ s₀ s₁, EssentialInv primes on s₀ → petrickPass primes on s₀ = .ok s₁ →
      petrickPass primes on s₁ = .ok { s₁ with changed := false } := by
    intro s₀ s₁ hs₀ hpass
    obtain ⟨hinv, -, hall⟩ := EssentialInv.petrickFold (s := { s₀ with changed := false })
      ⟨hs₀.covered, hs₀.nodup, hs₀.essential⟩ (fun _ he => he) hpass
    exact petrickFold_stable (s := { s₁ with changed := false }) ⟨hinv.covered, hinv.nodup, hinv.essential⟩
      (fun _ he => he) hall
  obtain ⟨fuel, rfl⟩ : ∃ n, fuel = n + 2 := ⟨fuel - 2, by omega⟩
  unfold petrickEssentials at h
  cases hpass : petrickPass primes on s with
  | error pick =>
    rw [hpass] at h
    cases h
  | ok s₁ =>
    rw [hpass] at h
    change (if s₁.changed = true then petrickEssentials primes on (fuel + 1) s₁ else .ok s₁) = .ok s' at h
    have hnext := hend s s₁ hs hpass
    split at h
    · unfold petrickEssentials at h
      rw [hnext] at h
      change (if false = true then petrickEssentials primes on fuel { s₁ with changed := false }
        else .ok { s₁ with changed := false }) = Except.ok s' at h
      rw [if_neg (by simp)] at h
      cases h
      exact hnext
    · rename_i hfalse
      obtain rfl := Except.ok.inj h
      rw [hnext]
      cases s₁
      simp only [Bool.not_eq_true] at hfalse
      rw [← hfalse]

end Essential

section Prune

variable {cost : Nat → Nat} {next : List Nat} {drop : List Bool} {a b i j : Nat}

/-- A dropped term contains another term. -/
structure Dropped (next : List Nat) (drop : List Bool) : Prop where
  length : drop.length = next.length
  smaller : ∀ j, drop.getD j false = true → ∃ b, next[j]? = some b ∧ ∃ a ∈ next, a &&& b = a ∧ a ≠ b

theorem getD_set (drop : List Bool) (i j : Nat) :
    (drop.set i true).getD j false = true → i = j ∨ drop.getD j false = true := by
  rw [getD_eq_getElem?_getD, getD_eq_getElem?_getD, getElem?_set]
  intro h
  by_cases hij : i = j
  · exact .inl hij
  · rw [if_neg hij] at h
    exact .inr h

theorem Dropped.set (h : Dropped next drop) (hb : next[j]? = some b) (ha : a ∈ next) (hsub : a &&& b = a)
    (hne : a ≠ b) : Dropped next (drop.set j true) := by
  refine ⟨by rw [length_set, h.length], fun k hk => ?_⟩
  rcases getD_set drop j k hk with rfl | hk
  · exact ⟨b, hb, a, ha, hsub, hne⟩
  · exact h.smaller k hk

theorem Dropped.dominate (h : Dropped next drop) (hnodup : next.Nodup) (hi : next[i]? = some a)
    {rest : List (Nat × Nat)} (hrest : ∀ e ∈ rest, next[e.2]? = some e.1 ∧ i < e.2) :
    Dropped next (dominate cost a i rest drop) := by
  induction rest generalizing drop with
  | nil => exact h
  | cons e rest ih =>
    obtain ⟨b, j⟩ := e
    have hrest' := fun e he => hrest e (mem_cons_of_mem _ he)
    obtain ⟨hj, hlt⟩ := hrest (b, j) mem_cons_self
    have hne : a ≠ b := by
      rintro rfl
      obtain ⟨hilt, hi⟩ := List.getElem?_eq_some_iff.mp hi
      obtain ⟨hjlt, hj⟩ := List.getElem?_eq_some_iff.mp hj
      have := (List.Nodup.getElem_inj_iff hnodup).mp (hi.trans hj.symm)
      omega
    unfold PhyEngine.dominate
    split
    · exact ih h hrest'
    split
    · rename_i hsub
      refine ih ?_ hrest'
      split
      · exact h.set hj (List.mem_of_getElem? hi) hsub hne
      · exact h
    split
    · rename_i hsub
      split
      · exact h.set hi (List.mem_of_getElem? hj) ((Nat.and_comm b a).trans hsub) hne.symm
      · exact ih h hrest'
    · exact ih h hrest'

theorem dropped_dropFlags (cost : Nat → Nat) (hnodup : next.Nodup) : Dropped next (dropFlags cost next) := by
  have hfold : ∀ (es : List (Nat × Nat)) (drop : List Bool), (∀ e ∈ es, next[e.2]? = some e.1) →
      Dropped next drop → Dropped next (es.foldl (fun drop e =>
        if drop.getD e.2 false then drop else dominate cost e.1 e.2 (next.zipIdx.drop (e.2 + 1)) drop) drop) := by
    intro es
    induction es with
    | nil => exact fun _ _ h => h
    | cons e es ih =>
      intro drop hes h
      refine ih _ (fun e' he' => hes e' (mem_cons_of_mem _ he')) ?_
      dsimp only
      by_cases hdrop : drop.getD e.2 false = true
      · rw [if_pos hdrop]
        exact h
      · rw [if_neg hdrop]
        refine h.dominate hnodup (hes e mem_cons_self) fun e' he' => ?_
        obtain ⟨k, hk, rfl⟩ := mem_iff_getElem.mp he'
        rw [getElem_drop, getElem_zipIdx]
        have hlt : e.2 + 1 + k < next.length := by
          rw [length_drop, length_zipIdx] at hk
          omega
        refine ⟨?_, by omega⟩
        rw [Nat.zero_add]
        exact List.getElem?_eq_some_iff.mpr ⟨hlt, rfl⟩
  refine hfold _ _ (fun e he => mem_zipIdx_iff_getElem?.mp he) ⟨by simp, fun j hj => ?_⟩
  rw [getD_eq_getElem?_getD, getElem?_map] at hj
  cases h : next[j]? <;> rw [h] at hj <;> cases hj

theorem mem_of_mem_prune (h : a ∈ prune cost next) : a ∈ next := by
  obtain ⟨e, he, rfl⟩ := mem_map.mp h
  exact List.mem_of_getElem? (mem_zipIdx_iff_getElem?.mp (mem_of_mem_filter he))

theorem land_trans {c : Nat} (hab : a &&& b = a) (hbc : b &&& c = b) : a &&& c = a := by
  rw [← hab, Nat.and_assoc, hbc]

theorem land_le (hab : a &&& b = a) : a ≤ b := by
  rw [← hab]
  exact Nat.and_le_right

theorem exists_prune_subset (cost : Nat → Nat) (hnodup : next.Nodup) (hb : b ∈ next) :
    ∃ a ∈ prune cost next, a &&& b = a := by
  induction b using Nat.strong_induction_on with
  | _ b ih =>
    obtain ⟨j, hj⟩ := mem_iff_getElem?.mp hb
    cases hdrop : (dropFlags cost next).getD j false with
    | false =>
      refine ⟨b, mem_map.mpr ⟨(b, j), mem_filter.mpr ⟨mem_zipIdx_iff_getElem?.mpr hj, ?_⟩, rfl⟩,
        Nat.and_self b⟩
      rw [hdrop]
      rfl
    | true =>
      obtain ⟨b', hb', a, ha, hsub, hne⟩ := (dropped_dropFlags cost hnodup).smaller j hdrop
      cases hj.symm.trans hb'
      have hle := land_le hsub
      obtain ⟨a', ha', hsub'⟩ := ih a (by omega) ha
      exact ⟨a', ha', land_trans hsub' hsub⟩

end Prune

section Expand

variable {primes : List QmImplicant} {picked : List Nat} {cost : Nat → Nat} {done : List UInt16}
  {terms terms' : List Nat} {m : UInt16} {t pi : Nat}

theorem mem_termPrimes : pi ∈ termPrimes primes t ↔ pi < primes.length ∧ t.testBit pi = true := by
  rw [termPrimes, mem_filter, mem_range]

theorem mem_clauseOf : pi ∈ clauseOf primes picked m ↔ pi ∈ coversOf primes m ∧ pi ∉ picked := by
  rw [clauseOf, mem_filter, decide_eq_true_iff]

theorem lt_of_mem_coversOf (h : pi ∈ coversOf primes m) : pi < primes.length :=
  mem_range.mp (mem_of_mem_filter h)

structure Expanded (primes : List QmImplicant) (picked : List Nat) (done : List UInt16) (terms : List Nat) : Prop where
  covers : ∀ t ∈ terms, PickCovers primes done (termPrimes primes t)
  fresh : ∀ t ∈ terms, ∀ pi, t.testBit pi = true → pi < primes.length ∧ pi ∉ picked
  complete : ∀ pick, PickCovers primes done pick → ∃ t ∈ terms, ∀ pi, t.testBit pi = true → pi ∈ pick

theorem expanded_start : Expanded primes picked [] [0] := by
  refine ⟨?_, ?_, fun pick _ => ⟨0, mem_singleton_self 0, fun pi hpi => ?_⟩⟩
  · intro t _ m hm
    cases hm
  · intro t ht pi hpi
    rw [mem_singleton.mp ht, Nat.zero_testBit] at hpi
    cases hpi
  · rw [Nat.zero_testBit] at hpi
    cases hpi

theorem testBit_of_land {a b : Nat} (h : a &&& b = a) (hpi : a.testBit pi = true) : b.testBit pi = true := by
  rw [← h, Nat.testBit_and, Bool.and_eq_true] at hpi
  exact hpi.2

theorem Expanded.expand (h : Expanded primes picked done terms)
    (hleft : picked.any (primeCovers primes m) = false)
    (hterms : expandTerms cost (clauseOf primes picked m) terms = some terms') :
    Expanded primes picked (done ++ [m]) terms' := by
  unfold expandTerms at hterms
  split at hterms
  · cases hterms
  dsimp only at hterms
  split at hterms
  · cases hterms
  split at hterms
  · cases hterms
  cases hterms
  set next := terms.flatMap fun t => (clauseOf primes picked m).map fun b => t ||| 2 ^ b with hnext
  have hmem : ∀ x, x ∈ (next.insertionSort (· ≤ ·)).destutter (· ≠ ·) ↔
      ∃ t ∈ terms, ∃ b ∈ clauseOf primes picked m, x = t ||| 2 ^ b := by
    intro x
    rw [SortedLists.mem_destutter_ne, mem_insertionSort, hnext, mem_flatMap]
    simp only [mem_map, eq_comm]
  have hnodup : ((next.insertionSort (· ≤ ·)).destutter (· ≠ ·)).Nodup :=
    SortedLists.nodup_destutter (fun _ _ => Nat.le_antisymm) (pairwise_insertionSort (· ≤ ·) next)
  have hbit : ∀ t b pi : Nat, (t ||| 2 ^ b).testBit pi = true ↔ t.testBit pi = true ∨ b = pi := by
    intro t b pi
    rw [Nat.testBit_or, Nat.testBit_two_pow, Bool.or_eq_true, decide_eq_true_iff]
  constructor
  · intro x hx m' hm'
    obtain ⟨t, ht, b, hb, rfl⟩ := (hmem x).mp (mem_of_mem_prune hx)
    rcases mem_append.mp hm' with hm' | hm'
    · obtain ⟨pi, hpi, hcov⟩ := h.covers t ht m' hm'
      obtain ⟨hlt, htest⟩ := mem_termPrimes.mp hpi
      exact ⟨pi, mem_termPrimes.mpr ⟨hlt, (hbit t b pi).mpr (.inl htest)⟩, hcov⟩
    · have hcov := (mem_clauseOf.mp hb).1
      rw [mem_singleton.mp hm']
      exact ⟨b, mem_termPrimes.mpr ⟨lt_of_mem_coversOf hcov, (hbit t b b).mpr (.inr rfl)⟩, hcov⟩
  · intro x hx pi hpi
    obtain ⟨t, ht, b, hb, rfl⟩ := (hmem x).mp (mem_of_mem_prune hx)
    rcases (hbit t b pi).mp hpi with hpi | rfl
    · exact h.fresh t ht pi hpi
    · exact ⟨lt_of_mem_coversOf (mem_clauseOf.mp hb).1, (mem_clauseOf.mp hb).2⟩
  · intro pick hpick
    obtain ⟨t, ht, hsub⟩ := h.complete pick fun m' hm' => hpick m' (mem_append_left _ hm')
    obtain ⟨b, hb, hcov⟩ := hpick m (by simp)
    -- No picked prime covers the minterm, so that the prime of the choice is in its clause.
    have hclause : b ∈ clauseOf primes picked m := by
      refine mem_clauseOf.mpr ⟨hcov, fun hbp => ?_⟩
      rw [any_eq_false] at hleft
      exact hleft b hbp (primeCovers_iff.mpr hcov)
    obtain ⟨x, hx, hxsub⟩ := exists_prune_subset cost hnodup ((hmem _).mpr ⟨t, ht, b, hclause, rfl⟩)
    refine ⟨x, hx, fun pi hpi => ?_⟩
    rcases (hbit t b pi).mp (testBit_of_land hxsub hpi) with hpi | rfl
    · exact hsub pi hpi
    · exact hb

theorem Expanded.expandAll (h : Expanded primes picked done terms) (ms : List UInt16)
    (hleft : ∀ m ∈ ms, picked.any (primeCovers primes m) = false)
    (hterms : ms.foldlM (fun terms m => expandTerms cost (clauseOf primes picked m) terms) terms = some terms') :
    Expanded primes picked (done ++ ms) terms' := by
  induction ms generalizing done terms with
  | nil =>
    cases hterms
    rw [append_nil]
    exact h
  | cons m ms ih =>
    rw [foldlM_cons] at hterms
    obtain ⟨mid, hmid, hrest⟩ := Option.bind_eq_some_iff.mp hterms
    have hstep := h.expand (hleft m mem_cons_self) hmid
    have happ : done ++ m :: ms = (done ++ [m]) ++ ms := by simp
    rw [happ]
    exact ih hstep (fun m' hm' => hleft m' (mem_cons_of_mem _ hm')) hrest

theorem bestTerm_spec (cost : Nat → Nat) (terms : List Nat) (h : (bestTerm cost terms).2 ≠ noCost) :
    (bestTerm cost terms).1 ∈ terms ∧ ∀ t ∈ terms, cost (bestTerm cost terms).1 ≤ cost t := by
  have hfold : ∀ (ts : List Nat) (best : Nat × Nat) (seen : List Nat),
      (best.2 ≠ noCost → best.1 ∈ seen ∧ best.2 = cost best.1) → (∀ t ∈ seen, best.2 ≤ cost t) →
      let best' := ts.foldl (fun best t => if cost t < best.2 then (t, cost t) else best) best
      (best'.2 ≠ noCost → best'.1 ∈ seen ++ ts ∧ best'.2 = cost best'.1) ∧ ∀ t ∈ seen ++ ts, best'.2 ≤ cost t := by
    intro ts
    induction ts with
    | nil =>
      intro best seen hbest hle
      rw [append_nil]
      exact ⟨hbest, hle⟩
    | cons t ts ih =>
      intro best seen hbest hle
      have happ : seen ++ t :: ts = (seen ++ [t]) ++ ts := by simp
      rw [happ, foldl_cons]
      by_cases hlt : cost t < best.2
      · rw [if_pos hlt]
        refine ih _ (seen ++ [t]) (fun _ => ⟨by simp, rfl⟩) fun t' ht' => ?_
        rcases mem_append.mp ht' with ht' | ht'
        · exact Nat.le_trans (Nat.le_of_lt hlt) (hle t' ht')
        · rw [mem_singleton.mp ht']
      · rw [if_neg hlt]
        refine ih _ (seen ++ [t]) (fun hne => ?_) fun t' ht' => ?_
        · obtain ⟨hmem, heq⟩ := hbest hne
          exact ⟨mem_append_left _ hmem, heq⟩
        · rcases mem_append.mp ht' with ht' | ht'
          · exact hle t' ht'
          · rw [mem_singleton.mp ht']
            omega
  obtain ⟨hbest, hle⟩ := hfold terms (0, noCost) [] (fun hne => absurd rfl hne) (by simp)
  obtain ⟨hmem, heq⟩ := hbest h
  rw [nil_append] at hmem
  refine ⟨hmem, fun t ht => ?_⟩
  exact heq ▸ hle t (by simpa using ht)

end Expand

section Least

variable {primes : List QmImplicant} {on : List UInt16} {vars : Nat} {opt : TwoLevelOptions} {s : Essentials}

section

variable (hs : EssentialInv primes on s)
include hs

theorem mem_remainingOf {m : UInt16} : m ∈ remainingOf on s.covered ↔
    m ∈ on ∧ s.picked.any (primeCovers primes m) = false := by
  unfold remainingOf
  constructor
  · intro h
    obtain ⟨e, he, rfl⟩ := mem_map.mp h
    obtain ⟨hmem, hcov⟩ := mem_filter.mp he
    rw [hs.getD_covered hmem, Bool.not_eq_true'] at hcov
    exact ⟨List.mem_of_getElem? (mem_zipIdx_iff_getElem?.mp hmem), hcov⟩
  · rintro ⟨hm, hcov⟩
    obtain ⟨i, hi⟩ := mem_iff_getElem?.mp hm
    have hmem : (m, i) ∈ on.zipIdx := mem_zipIdx_iff_getElem?.mpr hi
    refine mem_map.mpr ⟨(m, i), mem_filter.mpr ⟨hmem, ?_⟩, rfl⟩
    rw [hs.getD_covered hmem, hcov]
    rfl

theorem pickCovers_append {rest : List Nat}
    (hrest : PickCovers primes (remainingOf on s.covered) rest) : PickCovers primes on (s.picked ++ rest) := by
  intro m hm
  cases hcov : s.picked.any (primeCovers primes m) with
  | true =>
    obtain ⟨pi, hpi, hc⟩ := any_eq_true.mp hcov
    exact ⟨pi, mem_append_left _ hpi, primeCovers_iff.mp hc⟩
  | false =>
    obtain ⟨pi, hpi, hc⟩ := hrest m ((mem_remainingOf hs).mpr ⟨hm, hcov⟩)
    exact ⟨pi, mem_append_right _ hpi, hc⟩

omit hs in
theorem lt_of_isEssential {pi : Nat} (h : IsEssential primes on pi) : pi < primes.length := by
  obtain ⟨m, -, hcovers⟩ := h
  exact lt_of_mem_coversOf (by rw [hcovers]; exact mem_singleton_self pi)

theorem exactCover_append {rest : List Nat}
    (hfresh : ∀ pi ∈ rest, pi < primes.length ∧ pi ∉ s.picked)
    (hrest : PickCovers primes (remainingOf on s.covered) rest)
    (hleast : ∀ pick : List Nat, PickCovers primes (remainingOf on s.covered) pick →
      ∃ least : List Nat, least.Nodup ∧ (∀ pi ∈ least, pi ∈ pick ∧ pi ∉ s.picked) ∧
        qmCoverCost primes (s.picked ++ rest) vars opt ≤ qmCoverCost primes (s.picked ++ least) vars opt) :
    ExactCover primes on vars opt
      { pick := s.picked ++ rest, cost := qmCoverCost primes (s.picked ++ rest) vars opt } := by
  refine ⟨fun pi hpi => ?_, pickCovers_append hs hrest, rfl, fun pick _ _ hcovers => ?_⟩
  · rcases mem_append.mp hpi with hpi | hpi
    · exact lt_of_isEssential (hs.essential pi hpi)
    · exact (hfresh pi hpi).1
  · obtain ⟨least, hlnodup, hlsub, hcost⟩ := hleast pick fun m hm => hcovers m ((mem_remainingOf hs).mp hm).1
    refine Nat.le_trans hcost (qmCoverCost_mono primes ?_ (fun pi hpi => ?_) vars opt)
    · refine nodup_append.mpr ⟨hs.nodup, hlnodup, fun p hp q hq => ?_⟩
      rintro rfl
      exact (hlsub p hq).2 hp
    · rcases mem_append.mp hpi with hpi | hpi
      · exact mem_of_pickCovers hcovers (hs.essential pi hpi)
      · exact (hlsub pi hpi).1

end

theorem qmPetrickMinimumCover_exact (primes : List QmImplicant) (on : List UInt16) (vars : Nat)
    (opt : TwoLevelOptions) (hcost : (qmPetrickMinimumCover primes on vars opt).cost ≠ noCost) :
    ExactCover primes on vars opt (qmPetrickMinimumCover primes on vars opt) := by
  have hempty : qmCoverCost primes [] vars opt = 0 := by
    unfold qmCoverCost twoLevelCoverCost pickCubes
    cases opt.twoLevelCost with
    | gateCount => simp [negUsed]
    | literalCount => rfl
  unfold qmPetrickMinimumCover at hcost ⊢
  split at hcost
  · rename_i hnil
    rw [if_pos hnil]
    refine ⟨by simp, ?_, hempty.symm, fun _ _ _ _ => Nat.zero_le _⟩
    intro m hm
    rw [hnil] at hm
    cases hm
  rename_i hne
  split at hcost
  · exact absurd rfl hcost
  rename_i hlen
  rw [if_neg hne, if_neg hlen]
  cases hloop : petrickEssentials primes on (on.length + 1)
      { covered := on.map fun _ => false, picked := [], changed := true } with
  | error pick =>
    rw [hloop] at hcost
    exact absurd rfl hcost
  | ok s =>
    rw [hloop] at hcost
    have hs := (essentialInv_start true).petrickEssentials hloop
    dsimp only at hcost ⊢
    by_cases hrem : remainingOf on s.covered = []
    · rw [if_pos hrem]
      have happ : ExactCover primes on vars opt
          { pick := s.picked ++ [], cost := qmCoverCost primes (s.picked ++ []) vars opt } :=
        exactCover_append hs (by simp) (by rw [hrem]; intro m hm; cases hm)
          fun pick _ => ⟨[], nodup_nil, by simp, Nat.le_refl _⟩
      rwa [append_nil] at happ
    · rw [if_neg hrem] at hcost ⊢
      cases hterms : (remainingOf on s.covered).foldlM
          (fun terms m => expandTerms (bitCost primes s.picked vars opt) (clauseOf primes s.picked m) terms) [0] with
      | none =>
        rw [hterms] at hcost
        exact absurd rfl hcost
      | some terms =>
        rw [hterms] at hcost
        dsimp only at hcost ⊢
        by_cases hbest : (bestTerm (bitCost primes s.picked vars opt) terms).2 = noCost
        · rw [if_pos hbest] at hcost
          exact absurd rfl hcost
        · rw [if_neg hbest]
          have hexp := expanded_start.expandAll (remainingOf on s.covered)
            (fun m hm => ((mem_remainingOf hs).mp hm).2) hterms
          rw [nil_append] at hexp
          obtain ⟨hmem, hle⟩ := bestTerm_spec _ _ hbest
          have hnodup : ∀ t, (termPrimes primes t).Nodup := fun t => nodup_range.filter _
          refine exactCover_append hs (fun pi hpi => hexp.fresh _ hmem pi (mem_termPrimes.mp hpi).2)
            (hexp.covers _ hmem) fun pick hpick => ?_
          obtain ⟨t, ht, hsub⟩ := hexp.complete pick hpick
          exact ⟨termPrimes primes t, hnodup t, fun pi hpi => ⟨hsub pi (mem_termPrimes.mp hpi).2,
            (hexp.fresh t ht pi (mem_termPrimes.mp hpi).2).2⟩, hle t ht⟩

def essentialPrimes (primes : List QmImplicant) (on : List UInt16) : List Nat :=
  (List.range primes.length).filter fun pi => IsEssential primes on pi

/-- Some choice of primes covers the ON-set at no more than the cost of the essential primes. -/
def EssentialsSuffice (primes : List QmImplicant) (on : List UInt16) (vars : Nat) (opt : TwoLevelOptions) : Prop :=
  ∃ pick : List Nat, pick.Nodup ∧ (∀ pi ∈ pick, pi < primes.length) ∧ PickCovers primes on pick ∧
    qmCoverCost primes pick vars opt ≤ qmCoverCost primes (essentialPrimes primes on) vars opt

theorem mem_essentialPrimes {pi : Nat} : pi ∈ essentialPrimes primes on ↔ IsEssential primes on pi := by
  rw [essentialPrimes, mem_filter, mem_range, decide_eq_true_iff]
  exact ⟨fun h => h.2, fun h => ⟨lt_of_isEssential h, h⟩⟩

/-- Where Petrick's method returns a cost it is the least, and the exact search agrees with it
if and only if the essential primes are all that has to be paid for. -/
theorem qmPetrickMinimumCover_agrees_iff (primes : List QmImplicant)
    (hprimes : 1 ≤ primes.length ∧ primes.length ≤ 64) (on : List UInt16) (vars : Nat) (hvar : vars ≤ 32)
    (opt : TwoLevelOptions) (hcost : (qmPetrickMinimumCover primes on vars opt).cost ≠ noCost) (fuel : Nat)
    (hfuel : 2 ≤ fuel) :
    ExactCover primes on vars opt (qmPetrickMinimumCover primes on vars opt) ∧
      ∃ sol, qmExactMinimumCover fuel primes on vars opt = some sol ∧
        (sol.cost = (qmPetrickMinimumCover primes on vars opt).cost ↔
          EssentialsSuffice primes on vars opt) := by
  have hexact := qmPetrickMinimumCover_exact primes on vars opt hcost
  refine ⟨hexact, ?_⟩
  have hsub : essentialPrimes primes on ⊆ (qmPetrickMinimumCover primes on vars opt).pick := by
    intro pi hpi
    exact mem_of_pickCovers hexact.covers (mem_essentialPrimes.mp hpi)
  have hnodup : (essentialPrimes primes on).Nodup := List.nodup_range.filter _
  have hlow := qmCoverCost_mono primes hnodup hsub vars opt
  rw [← hexact.cost_eq] at hlow
  have hiff : qmCoverCost primes (essentialPrimes primes on) vars opt =
      (qmPetrickMinimumCover primes on vars opt).cost ↔ EssentialsSuffice primes on vars opt := by
    constructor
    · intro heq
      refine ⟨(qmPetrickMinimumCover primes on vars opt).pick.dedup, List.nodup_dedup _, fun pi hpi =>
        hexact.indices pi (List.mem_dedup.mp hpi), fun m hm => ?_, ?_⟩
      · obtain ⟨pi, hpi, hcov⟩ := hexact.covers m hm
        exact ⟨pi, List.mem_dedup.mpr hpi, hcov⟩
      · rw [heq, hexact.cost_eq]
        exact qmCoverCost_mono primes (List.nodup_dedup _) (List.dedup_subset _) vars opt
    · rintro ⟨pick, hpick, hindices, hcovers, hle⟩
      exact Nat.le_antisymm hlow (Nat.le_trans (hexact.least pick hpick hindices hcovers) hle)
  by_cases hne : on = []
  · refine ⟨{ pick := [], cost := 0 }, by rw [qmExactMinimumCover, if_pos hne], ?_⟩
    have hess : essentialPrimes primes on = [] := by
      refine List.eq_nil_iff_forall_not_mem.mpr fun pi hpi => ?_
      obtain ⟨m, hm, -⟩ := mem_essentialPrimes.mp hpi
      rw [hne] at hm
      cases hm
    rw [← hiff, hess]
    have hzero : (qmPetrickMinimumCover primes on vars opt).cost = 0 := by
      rw [qmPetrickMinimumCover, if_pos hne]
    have hle := hlow
    rw [hess, hzero] at hle
    rw [hzero]
    exact ⟨fun _ => Nat.le_zero.mp hle, fun _ => rfl⟩
  · have hsome : ∀ m ∈ on, coversOf primes m ≠ [] := by
      intro m hm hnil
      obtain ⟨pi, -, hcov⟩ := hexact.covers m hm
      rw [hnil] at hcov
      cases hcov
    obtain ⟨pick, hsol, hpick, hess⟩ := qmExactMinimumCover_eq_of_cost primes hne opt hsome
      (fun pick hnodup hess _ => by
        refine twoLevelCoverCost_lt _ vars opt ?_ hvar
        have hfilter := List.length_filterMap_le (fun idx => primes[idx]?) pick
        have hrange : pick ⊆ List.range primes.length := fun pi hpi =>
          List.mem_range.mpr (lt_of_isEssential (hess pi hpi))
        have hlen := (List.subperm_of_subset hnodup hrange).length_le
        rw [List.length_range] at hlen
        rw [pickCubes]
        omega) hfuel
    refine ⟨_, hsol, ?_⟩
    dsimp only
    rw [← hiff]
    have hsame : qmCoverCost primes pick vars opt =
        qmCoverCost primes (essentialPrimes primes on) vars opt :=
      Nat.le_antisymm
        (qmCoverCost_mono primes hpick (fun pi hpi => mem_essentialPrimes.mpr ((hess pi).mp hpi)) vars opt)
        (qmCoverCost_mono primes hnodup (fun pi hpi => (hess pi).mpr (mem_essentialPrimes.mp hpi)) vars opt)
    rw [hsame]

end Least

/-- No prime of the cyclic ON-set is essential, and Petrick's method expands all six clauses. -/
theorem qmPetrickMinimumCover_agrees_sixPrimes :
    ExactCover cyclicPrimes cyclicOn 3 {} (qmPetrickMinimumCover cyclicPrimes cyclicOn 3 {}) ∧
      ∃ sol, qmExactMinimumCover 17 cyclicPrimes cyclicOn 3 {} = some sol ∧
        (sol.cost = (qmPetrickMinimumCover cyclicPrimes cyclicOn 3 {}).cost ↔
          EssentialsSuffice cyclicPrimes cyclicOn 3 {}) :=
  qmPetrickMinimumCover_agrees_iff cyclicPrimes (by decide) cyclicOn 3 (by omega) {} (by decide +kernel) 17 (by omega)

/-- Petrick's method finds three cubes of cost `8`, and the exact search returns cost `0`. -/
theorem qmPetrickMinimumCover_cyclic :
    (qmPetrickMinimumCover cyclicPrimes cyclicOn 3 {}).cost = 8 ∧
      qmExactMinimumCover 17 cyclicPrimes cyclicOn 3 {} = some { pick := [], cost := 0 } :=
  ⟨by decide +kernel, by decide +kernel⟩

end PhyEngine
