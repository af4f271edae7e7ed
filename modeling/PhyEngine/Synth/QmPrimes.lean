import PhyEngine.Library.WordBits
import PhyEngine.Synth.QmCover

/-!
# The prime implicants are exact

`qm_prime_implicants` returns the prime implicants of ON and DC, each once
(`qmPrimeImplicants_exact`): round `k` holds the implicants with `k` free variables (`Round`),
with zeros on these.
-/

namespace PhyEngine

open WordBits List

def QmImplicant.expand (c : QmImplicant) (v : Nat) : QmImplicant :=
  ⟨c.value &&& ~~~single v, c.mask ||| single v⟩

structure IsCube (vars : Nat) (c : QmImplicant) : Prop where
  mask_lt : c.mask.toNat < 2 ^ vars
  value_lt : c.value.toNat < 2 ^ vars
  disjoint : c.value &&& c.mask = 0

def IsImplicant (on dc : List UInt16) (c : QmImplicant) : Prop :=
  ∀ m, implicantCovers c m = true → m ∈ on ∨ m ∈ dc

structure IsPrimeImplicant (vars : Nat) (on dc : List UInt16) (c : QmImplicant) : Prop where
  cube : IsCube vars c
  implicant : IsImplicant on dc c
  maximal : ∀ v < vars, c.mask.toNat.testBit v = false → ¬ IsImplicant on dc (c.expand v)

/-- The cover contains the minterms of `must`, and no minterm but those of `may`. -/
structure IsCoverOf (vars : Nat) (must may : UInt16 → Prop) (cover : List QmImplicant) : Prop where
  contains : ∀ m, must m → ∃ c ∈ cover, implicantCovers c m = true
  avoids : ∀ m, m.toNat < 2 ^ vars → ∀ c ∈ cover, implicantCovers c m = true → may m

variable {m : UInt16}

theorem implicantCovers_iff {c : QmImplicant} : implicantCovers c m = true ↔
    ∀ i < 16, c.mask.toNat.testBit i = false → m.toNat.testBit i = c.value.toNat.testBit i := by
  rw [implicantCovers, beq_iff_eq]
  constructor
  · intro h i hi hmask
    have hbit := congrArg (fun x : UInt16 => x.toNat.testBit i) h
    simp only [testBit_and, testBit_not _ hi, hmask, Bool.not_false, Bool.and_true] at hbit
    exact hbit
  · intro h
    refine ext fun i hi => ?_
    rw [testBit_and, testBit_and, testBit_not _ hi]
    cases hmask : c.mask.toNat.testBit i with
    | true => simp
    | false => rw [h i hi hmask]

theorem popcount16_eq (x : UInt16) : popcount16 x = (ones x).card := by
  have hcard : ∀ n, ((List.range n).map fun i => (x.toNat.testBit i).toNat).sum =
      ((Finset.range n).filter fun i => x.toNat.testBit i = true).card := by
    intro n
    induction n with
    | zero => rfl
    | succ n ih =>
      rw [range_succ, map_append, sum_append, ih, Finset.range_add_one, Finset.filter_insert]
      cases hbit : x.toNat.testBit n with
      | false => simp [hbit]
      | true => simp [hbit]
  exact hcard 16

section Cubes

variable {vars : Nat} {c : QmImplicant} {v : Nat}

theorem IsCube.lt_of_mask (h : IsCube vars c) (hv : c.mask.toNat.testBit v = true) : v < vars :=
  lt_two_pow_iff.mp h.mask_lt v hv

theorem IsCube.lt_of_value (h : IsCube vars c) (hv : c.value.toNat.testBit v = true) : v < vars :=
  lt_two_pow_iff.mp h.value_lt v hv

theorem IsCube.value_of_mask (h : IsCube vars c) (hv : c.mask.toNat.testBit v = true) :
    c.value.toNat.testBit v = false := by
  have hbit := congrArg (fun x : UInt16 => x.toNat.testBit v) h.disjoint
  simpa [hv] using hbit

theorem isCube_of_bits (hmask : ∀ i, c.mask.toNat.testBit i = true → i < vars)
    (hvalue : ∀ i, c.value.toNat.testBit i = true → i < vars ∧ c.mask.toNat.testBit i = false) :
    IsCube vars c := by
  refine ⟨lt_two_pow_iff.mpr hmask, lt_two_pow_iff.mpr fun i hi => (hvalue i hi).1, ext fun i _ => ?_⟩
  rw [testBit_and, testBit_zero]
  cases hbit : c.value.toNat.testBit i with
  | false => rfl
  | true => rw [(hvalue i hbit).2]; rfl

theorem implicantCovers_value (c : QmImplicant) : implicantCovers c c.value = true :=
  implicantCovers_iff.mpr fun _ _ _ => rfl

def QmImplicant.flip (c : QmImplicant) (v : Nat) : QmImplicant := ⟨c.value ^^^ single v, c.mask⟩

theorem testBit_flip (hv : v < 16) (i : Nat) :
    (c.flip v).value.toNat.testBit i = (c.value.toNat.testBit i ^^ decide (v = i)) := by
  rw [QmImplicant.flip, testBit_xor, testBit_single hv]

theorem testBit_expand_mask (hv : v < 16) (i : Nat) :
    (c.expand v).mask.toNat.testBit i = (c.mask.toNat.testBit i || decide (v = i)) := by
  rw [QmImplicant.expand, testBit_or, testBit_single hv]

theorem testBit_expand_value (hv : v < 16) {i : Nat} (hi : i < 16) :
    (c.expand v).value.toNat.testBit i = (c.value.toNat.testBit i && !decide (v = i)) := by
  rw [QmImplicant.expand, testBit_and, testBit_not _ hi, testBit_single hv]

theorem IsCube.flip (h : IsCube vars c) (hvar : vars ≤ 16) (hv : v < vars)
    (hmask : c.mask.toNat.testBit v = false) : IsCube vars (c.flip v) := by
  refine isCube_of_bits (fun i hi => h.lt_of_mask hi) fun i hi => ?_
  rw [testBit_flip (by omega)] at hi
  by_cases hvi : v = i
  · subst hvi
    exact ⟨hv, hmask⟩
  · rw [decide_eq_false hvi, Bool.xor_false] at hi
    refine ⟨h.lt_of_value hi, ?_⟩
    cases hm : c.mask.toNat.testBit i with
    | false => exact hm
    | true => exact absurd (h.value_of_mask hm) (by simp [hi])

theorem IsCube.expand (h : IsCube vars c) (hvar : vars ≤ 16) (hv : v < vars) :
    IsCube vars (c.expand v) := by
  refine isCube_of_bits (fun i hi => ?_) fun i hi => ?_
  · rw [testBit_expand_mask (by omega), Bool.or_eq_true, decide_eq_true_iff] at hi
    rcases hi with hi | rfl
    · exact h.lt_of_mask hi
    · exact hv
  · have hlt := lt_of_testBit hi
    rw [testBit_expand_value (by omega) hlt, Bool.and_eq_true, Bool.not_eq_true', decide_eq_false_iff_not] at hi
    refine ⟨h.lt_of_value hi.1, ?_⟩
    rw [testBit_expand_mask (by omega), decide_eq_false hi.2, Bool.or_false]
    cases hm : c.mask.toNat.testBit i with
    | false => rfl
    | true => exact absurd (h.value_of_mask hm) (by simp [hi.1])

theorem implicantCovers_expand (hv : v < 16) (m : UInt16) : implicantCovers (c.expand v) m = true ↔
    implicantCovers c m = true ∨ implicantCovers (c.flip v) m = true := by
  have hother : ∀ i, v ≠ i → (c.flip v).value.toNat.testBit i = c.value.toNat.testBit i := by
    intro i hvi
    rw [testBit_flip hv, decide_eq_false hvi, Bool.xor_false]
  constructor
  · intro h
    rw [implicantCovers_iff] at h
    have hrest : ∀ i < 16, v ≠ i → c.mask.toNat.testBit i = false → m.toNat.testBit i = c.value.toNat.testBit i := by
      intro i hi hvi hm
      have hbit := h i hi (by rw [testBit_expand_mask hv, hm, decide_eq_false hvi]; rfl)
      rwa [testBit_expand_value hv hi, decide_eq_false hvi, Bool.not_false, Bool.and_true] at hbit
    by_cases hsame : m.toNat.testBit v = c.value.toNat.testBit v
    · refine .inl (implicantCovers_iff.mpr fun i hi hm => ?_)
      by_cases hvi : v = i
      · rw [← hvi, hsame]
      · exact hrest i hi hvi hm
    · refine .inr (implicantCovers_iff.mpr fun i hi hm => ?_)
      by_cases hvi : v = i
      · subst hvi
        rw [testBit_flip hv, decide_eq_true rfl, Bool.xor_true]
        exact Bool.eq_not_of_ne hsame
      · rw [hother i hvi]
        exact hrest i hi hvi hm
  · intro h
    refine implicantCovers_iff.mpr fun i hi hm => ?_
    rw [testBit_expand_mask hv, Bool.or_eq_false_iff, decide_eq_false_iff_not] at hm
    rw [testBit_expand_value hv hi, decide_eq_false hm.2, Bool.not_false, Bool.and_true]
    rcases h with h | h
    · exact implicantCovers_iff.mp h i hi hm.1
    · rw [← hother i hm.2]
      exact implicantCovers_iff.mp h i hi hm.1

theorem isImplicant_expand {on dc : List UInt16} (hv : v < 16) :
    IsImplicant on dc (c.expand v) ↔ IsImplicant on dc c ∧ IsImplicant on dc (c.flip v) := by
  constructor
  · intro h
    exact ⟨fun m hm => h m ((implicantCovers_expand hv m).mpr (.inl hm)),
      fun m hm => h m ((implicantCovers_expand hv m).mpr (.inr hm))⟩
  · rintro ⟨h, hflip⟩ m hm
    rcases (implicantCovers_expand hv m).mp hm with hm | hm
    · exact h m hm
    · exact hflip m hm

theorem popcount16_expand (hv : v < 16) (hmask : c.mask.toNat.testBit v = false) :
    popcount16 (c.expand v).mask = popcount16 c.mask + 1 := by
  have hzero : c.mask &&& single v = 0 := by
    refine ext fun i _ => ?_
    rw [testBit_and, testBit_single hv, testBit_zero]
    by_cases hvi : v = i
    · rw [← hvi, hmask]
      rfl
    · rw [decide_eq_false hvi, Bool.and_false]
  have hone : popcount16 (single v) = 1 := by
    rw [popcount16_eq, ones_single hv, Finset.card_singleton]
  rw [QmImplicant.expand, popcount16_or hzero, hone]

theorem IsCube.exists_expand (h : IsCube vars c) (hvar : vars ≤ 16) (hv : c.mask.toNat.testBit v = true) :
    ∃ a, IsCube vars a ∧ a.mask.toNat.testBit v = false ∧ a.expand v = c := by
  have hlt := h.lt_of_mask hv
  have hv16 : v < 16 := by omega
  have hbit : ∀ i < 16, (c.mask &&& ~~~single v).toNat.testBit i = (c.mask.toNat.testBit i && !decide (v = i)) := by
    intro i hi
    rw [testBit_and, testBit_not _ hi, testBit_single hv16]
  refine ⟨⟨c.value, c.mask &&& ~~~single v⟩, isCube_of_bits (fun i hi => ?_) (fun i hi => ⟨h.lt_of_value hi, ?_⟩),
    ?_, ?_⟩
  · rw [testBit_and, Bool.and_eq_true] at hi
    exact h.lt_of_mask hi.1
  · cases hm : c.mask.toNat.testBit i with
    | false => rw [hbit i (lt_of_testBit hi), hm]; rfl
    | true => exact absurd (h.value_of_mask hm) (by simp [hi])
  · rw [hbit v hv16, decide_eq_true rfl, Bool.not_true, Bool.and_false]
  · rw [QmImplicant.expand, QmImplicant.mk.injEq]
    constructor
    · refine ext fun i hi => ?_
      rw [testBit_and, testBit_not _ hi, testBit_single hv16]
      by_cases hvi : v = i
      · rw [← hvi, h.value_of_mask hv]
        rfl
      · rw [decide_eq_false hvi, Bool.not_false, Bool.and_true]
    · refine ext fun i hi => ?_
      rw [testBit_or, hbit i hi, testBit_single hv16]
      by_cases hvi : v = i
      · rw [← hvi, hv, decide_eq_true rfl, Bool.or_true]
      · rw [decide_eq_false hvi, Bool.not_false, Bool.and_true, Bool.or_false]

end Cubes

theorem length_le_of_nodup {cover : List QmImplicant} (h : cover.Nodup) : cover.length ≤ 2 ^ 32 := by
  let key := fun c : QmImplicant => c.mask.toNat * 2 ^ 16 + c.value.toNat
  have hinj : Function.Injective key := by
    intro a b (hab : a.mask.toNat * 2 ^ 16 + a.value.toNat = b.mask.toNat * 2 ^ 16 + b.value.toNat)
    have ha := a.value.toNat_lt
    have hb := b.value.toNat_lt
    have hmask : a.mask = b.mask := UInt16.toNat_inj.mp (by omega)
    have hvalue : a.value = b.value := UInt16.toNat_inj.mp (by omega)
    cases a
    cases b
    simp_all
  have hrange : cover.map key ⊆ List.range (2 ^ 32) := by
    intro k hk
    obtain ⟨c, -, rfl⟩ := mem_map.mp hk
    have hmask := c.mask.toNat_lt
    have hvalue := c.value.toNat_lt
    exact mem_range.mpr (by dsimp only [key]; omega)
  have hlen := (subperm_of_subset (h.map hinj) hrange).length_le
  rwa [length_map, length_range] at hlen

section Rounds

variable {vars : Nat} {on dc : List UInt16} {a b c : QmImplicant} {current : List QmImplicant} {k : Nat}

theorem varMask_eq (hvar : vars ≤ 16) :
    (if 16 ≤ vars then 0xFFFF else UInt16.ofNat (2 ^ vars - 1)) = low vars := by
  by_cases h : 16 ≤ vars
  · rw [if_pos h, show vars = 16 by omega]
    rfl
  · rw [if_neg h]
    rfl

theorem mergeImplicants_iff (hvar : vars ≤ 16) (ha : IsCube vars a) (hb : IsCube vars b) :
    mergeImplicants (low vars) a b = some c ↔
      ∃ v < vars, a.mask.toNat.testBit v = false ∧ b = a.flip v ∧ c = a.expand v := by
  -- The difference of two cubes with one mask is already free of that mask.
  have hdiff : a.mask = b.mask → (a.value ^^^ b.value) &&& ~~~a.mask &&& low vars = a.value ^^^ b.value := by
    intro hmask
    refine ext fun i hi => ?_
    rw [testBit_and, testBit_and, testBit_xor, testBit_not _ hi, testBit_low hvar]
    cases hm : a.mask.toNat.testBit i with
    | true => rw [ha.value_of_mask hm, hb.value_of_mask (hmask ▸ hm)]; rfl
    | false =>
      by_cases hlt : i < vars
      · rw [decide_eq_true hlt, Bool.not_false, Bool.and_true, Bool.and_true]
      · have hav : a.value.toNat.testBit i = false := Bool.eq_false_iff.mpr fun h => hlt (ha.lt_of_value h)
        have hbv : b.value.toNat.testBit i = false := Bool.eq_false_iff.mpr fun h => hlt (hb.lt_of_value h)
        rw [hav, hbv]
        rfl
  unfold mergeImplicants
  dsimp only
  constructor
  · intro h
    split at h
    · rename_i hcond
      rw [hdiff hcond.1, popcount16_eq, card_ones_eq_one] at hcond
      obtain ⟨hmask, v, hv, hsingle⟩ := hcond
      rw [hdiff hmask, hsingle] at h
      have hbits : ∀ i, (a.value.toNat.testBit i ^^ b.value.toNat.testBit i) = decide (v = i) := by
        intro i
        rw [← testBit_xor, hsingle, testBit_single hv]
      have hbit := hbits v
      rw [decide_eq_true rfl] at hbit
      have hone : a.value.toNat.testBit v = true ∨ b.value.toNat.testBit v = true := by
        cases hav : a.value.toNat.testBit v with
        | true => exact .inl rfl
        | false => rw [hav, Bool.false_xor] at hbit; exact .inr hbit
      refine ⟨v, hone.elim ha.lt_of_value hb.lt_of_value, ?_, ?_, (Option.some.inj h).symm⟩
      · refine Bool.eq_false_iff.mpr fun hm => ?_
        rw [ha.value_of_mask hm, hb.value_of_mask (hmask ▸ hm)] at hbit
        cases hbit
      · have hvalue : b.value = a.value ^^^ single v := by
          rw [← hsingle, ← UInt16.xor_assoc, UInt16.xor_self, UInt16.zero_xor]
        rw [QmImplicant.flip, ← hvalue, hmask]
    · cases h
  · rintro ⟨v, hv, hm, rfl, rfl⟩
    have hsingle : a.value ^^^ (a.flip v).value = single v := by
      rw [QmImplicant.flip, ← UInt16.xor_assoc, UInt16.xor_self, UInt16.zero_xor]
    have hd := hdiff rfl
    rw [hd, hsingle, if_pos ⟨rfl, by rw [popcount16_eq, ones_single (by omega), Finset.card_singleton]⟩]
    rfl

theorem flip_flip (c : QmImplicant) (v : Nat) : (c.flip v).flip v = c := by
  rw [QmImplicant.flip, QmImplicant.flip, UInt16.xor_assoc, UInt16.xor_self, UInt16.xor_zero]

theorem flip_ne {v : Nat} (hv : v < 16) : a.flip v ≠ a := by
  intro h
  have hbit : (a.flip v).value.toNat.testBit v = a.value.toNat.testBit v := by rw [h]
  rw [testBit_flip hv, decide_eq_true rfl, Bool.xor_true] at hbit
  cases hav : a.value.toNat.testBit v <;> rw [hav] at hbit <;> cases hbit

theorem expand_flip {v : Nat} (hv : v < 16) : (a.flip v).expand v = a.expand v := by
  rw [QmImplicant.expand, QmImplicant.expand, QmImplicant.mk.injEq]
  refine ⟨ext fun i hi => ?_, rfl⟩
  rw [testBit_and, testBit_and, testBit_flip hv, testBit_not _ hi, testBit_single hv]
  by_cases hvi : v = i
  · rw [decide_eq_true hvi, Bool.not_true, Bool.and_false, Bool.and_false]
  · rw [decide_eq_false hvi, Bool.xor_false]

variable {α : Type} {x : α} {xs : List α}

theorem orderedPairs_of_mem {y : α} (hx : x ∈ xs) (hy : y ∈ xs) (hne : x ≠ y) :
    (x, y) ∈ orderedPairs xs ∨ (y, x) ∈ orderedPairs xs := by
  induction xs with
  | nil => cases hx
  | cons z zs ih =>
    unfold orderedPairs
    simp only [mem_append, mem_map, Prod.mk.injEq]
    rcases mem_cons.mp hx with hxz | hxs <;> rcases mem_cons.mp hy with hyz | hys
    · exact absurd (hxz.trans hyz.symm) hne
    · exact .inl (.inl ⟨y, hys, hxz.symm, rfl⟩)
    · exact .inr (.inl ⟨x, hxs, hyz.symm, rfl⟩)
    · exact (ih hxs hys).imp .inr .inr

theorem mem_of_mem_orderedPairs_snd {p : α × α} (h : p ∈ orderedPairs xs) : p.2 ∈ xs := by
  induction xs with
  | nil => cases h
  | cons x xs ih =>
    rcases mem_append.mp h with hmap | hrest
    · obtain ⟨y, hy, rfl⟩ := mem_map.mp hmap
      exact mem_cons_of_mem _ hy
    · exact mem_cons_of_mem _ (ih hrest)

theorem mem_foldl_pushNew_iff [DecidableEq α] (ys xs : List α) :
    x ∈ ys.foldl pushNew xs ↔ x ∈ xs ∨ x ∈ ys := by
  refine ⟨mem_foldl_pushNew ys xs, ?_⟩
  have hmono : ∀ (zs ws : List α), x ∈ ws → x ∈ zs.foldl pushNew ws := by
    intro zs
    induction zs with
    | nil => exact fun ws h => h
    | cons z zs ih =>
      intro ws h
      refine ih _ ?_
      unfold pushNew
      split
      · exact h
      · exact mem_append_left _ h
  rintro (h | h)
  · exact hmono ys xs h
  · induction ys generalizing xs with
    | nil => cases h
    | cons y ys ih =>
      rcases mem_cons.mp h with rfl | h
      · refine hmono ys _ ?_
        unfold pushNew
        split
        · assumption
        · simp
      · exact ih _ h

theorem nodup_foldl_pushNew [DecidableEq α] (ys : List α) (hxs : xs.Nodup) :
    (ys.foldl pushNew xs).Nodup := by
  induction ys generalizing xs with
  | nil => exact hxs
  | cons y ys ih =>
    refine ih ?_
    unfold pushNew
    split
    · exact hxs
    · rename_i hy
      refine nodup_append.mpr ⟨hxs, nodup_singleton y, fun x hx z hz => ?_⟩
      rw [mem_singleton.mp hz]
      rintro rfl
      exact hy hx

/-- The entries of round `k` are the implicants with `k` free variables. -/
def Round (vars : Nat) (on dc : List UInt16) (k : Nat) (current : List QmImplicant) : Prop :=
  ∀ c, c ∈ current ↔ IsCube vars c ∧ IsImplicant on dc c ∧ popcount16 c.mask = k

theorem round_zero (hon : ∀ m ∈ on, m.toNat < 2 ^ vars) (hdc : ∀ m ∈ dc, m.toNat < 2 ^ vars) :
    Round vars on dc 0 (on.map (fun m => ⟨m, 0⟩) ++ dc.map (fun m => ⟨m, 0⟩)) := by
  have hpos : 0 < 2 ^ vars := Nat.pow_pos (by omega)
  have hmem : ∀ c : QmImplicant, c ∈ on.map (fun m => (⟨m, 0⟩ : QmImplicant)) ++ dc.map (fun m => ⟨m, 0⟩) ↔
      (c.value ∈ on ∨ c.value ∈ dc) ∧ c.mask = 0 := by
    intro c
    obtain ⟨value, mask⟩ := c
    simp only [mem_append, mem_map, QmImplicant.mk.injEq]
    constructor
    · rintro (⟨m, hm, rfl, rfl⟩ | ⟨m, hm, rfl, rfl⟩)
      · exact ⟨.inl hm, rfl⟩
      · exact ⟨.inr hm, rfl⟩
    · rintro ⟨hm | hm, rfl⟩
      · exact .inl ⟨value, hm, rfl, rfl⟩
      · exact .inr ⟨value, hm, rfl, rfl⟩
  intro c
  rw [hmem, popcount16_eq, card_ones_eq_zero]
  constructor
  · rintro ⟨hm, hmask⟩
    refine ⟨⟨by rw [hmask]; exact hpos, hm.elim (hon _) (hdc _), by rw [hmask, UInt16.and_zero]⟩, fun m hcov =>
      ?_, hmask⟩
    have heq : m = c.value := by
      refine ext fun i hi => implicantCovers_iff.mp hcov i hi ?_
      rw [hmask, testBit_zero]
    rwa [heq]
  · rintro ⟨-, himp, hmask⟩
    exact ⟨himp _ (implicantCovers_value c), hmask⟩

section

variable (hvar : vars ≤ 16) (hround : Round vars on dc k current)

include hvar hround

theorem IsCube.mem_next :
    c ∈ nextRound (low vars) current ↔ ∃ a ∈ current, ∃ v < vars,
      a.mask.toNat.testBit v = false ∧ a.flip v ∈ current ∧ c = a.expand v := by
  rw [nextRound, mem_foldl_pushNew_iff]
  simp only [not_mem_nil, false_or, mem_filterMap]
  constructor
  · rintro ⟨p, hp, hmerge⟩
    have h₁ := mem_of_mem_orderedPairs hp
    have h₂ := mem_of_mem_orderedPairs_snd hp
    obtain ⟨v, hv, hm, hflip, rfl⟩ :=
      (mergeImplicants_iff hvar ((hround _).mp h₁).1 ((hround _).mp h₂).1).mp hmerge
    exact ⟨p.1, h₁, v, hv, hm, hflip ▸ h₂, rfl⟩
  · rintro ⟨a, ha, v, hv, hm, hflip, rfl⟩
    have hv16 : v < 16 := by omega
    have hcube := ((hround _).mp ha).1
    have hcube' := ((hround _).mp hflip).1
    rcases orderedPairs_of_mem ha hflip (flip_ne hv16).symm with hp | hp
    · exact ⟨_, hp, (mergeImplicants_iff hvar hcube hcube').mpr ⟨v, hv, hm, rfl, rfl⟩⟩
    · exact ⟨_, hp, (mergeImplicants_iff hvar hcube' hcube).mpr
        ⟨v, hv, hm, (flip_flip a v).symm, (expand_flip hv16).symm⟩⟩

theorem Round.next :
    Round vars on dc (k + 1) (nextRound (low vars) current) := by
  intro c
  rw [IsCube.mem_next hvar hround]
  constructor
  · rintro ⟨a, ha, v, hv, hm, hflip, rfl⟩
    obtain ⟨hcube, himp, hk⟩ := (hround a).mp ha
    have hv16 : v < 16 := by omega
    refine ⟨hcube.expand hvar hv, (isImplicant_expand hv16).mpr ⟨himp, ((hround _).mp hflip).2.1⟩, ?_⟩
    rw [popcount16_expand hv16 hm, hk]
  · rintro ⟨hcube, himp, hk⟩
    have hne : (ones c.mask).Nonempty := by
      rw [← Finset.card_pos, ← popcount16_eq]
      omega
    obtain ⟨v, hv⟩ := hne
    obtain ⟨a, ha, hm, rfl⟩ := hcube.exists_expand hvar (mem_ones.mp hv)
    have hlt := hcube.lt_of_mask (mem_ones.mp hv)
    have hv16 : v < 16 := by omega
    obtain ⟨himp, himp'⟩ := (isImplicant_expand hv16).mp himp
    rw [popcount16_expand hv16 hm] at hk
    exact ⟨a, (hround a).mpr ⟨ha, himp, by omega⟩, v, hlt, hm,
      (hround _).mpr ⟨ha.flip hvar hlt hm, himp', Nat.succ.inj hk⟩, rfl⟩

theorem Round.not_combined_iff (ha : a ∈ current) :
    isCombined (low vars) current a = false ↔ IsPrimeImplicant vars on dc a := by
  obtain ⟨hcube, himp, hk⟩ := (hround a).mp ha
  rw [isCombined, any_eq_false]
  constructor
  · intro h
    refine ⟨hcube, himp, fun v hv hm hexp => ?_⟩
    obtain ⟨-, himp'⟩ := (isImplicant_expand (by omega)).mp hexp
    have hcube' := hcube.flip hvar hv hm
    have hmem : a.flip v ∈ current := (hround _).mpr ⟨hcube', himp', hk⟩
    have hmerge := (mergeImplicants_iff hvar hcube hcube').mpr ⟨v, hv, hm, rfl, rfl⟩
    exact h _ hmem (by rw [hmerge]; rfl)
  · intro hprime b hb hsome
    obtain ⟨hcube', himp', -⟩ := (hround b).mp hb
    obtain ⟨c, hmerge⟩ := Option.isSome_iff_exists.mp hsome
    obtain ⟨v, hv, hm, rfl, rfl⟩ := (mergeImplicants_iff hvar hcube hcube').mp hmerge
    exact hprime.maximal v hv hm ((isImplicant_expand (by omega)).mpr ⟨himp, himp'⟩)

theorem Round.no_larger (hnil : current = []) (hcube : IsCube vars c) (himp : IsImplicant on dc c) :
    popcount16 c.mask < k := by
  by_contra hge
  have hlevel : ∀ n, ∀ c, IsCube vars c → IsImplicant on dc c → popcount16 c.mask = k + n → False := by
    intro n
    induction n with
    | zero =>
      intro c hc hi hn
      have hmem := (hround c).mpr ⟨hc, hi, hn⟩
      rw [hnil] at hmem
      cases hmem
    | succ n ih =>
      intro c hc hi hn
      have hne : (ones c.mask).Nonempty := by
        rw [← Finset.card_pos, ← popcount16_eq]
        omega
      obtain ⟨v, hv⟩ := hne
      obtain ⟨a, ha, hm, rfl⟩ := hc.exists_expand hvar (mem_ones.mp hv)
      have hlt := hc.lt_of_mask (mem_ones.mp hv)
      rw [popcount16_expand (by omega) hm] at hn
      exact ih a ha ((isImplicant_expand (by omega)).mp hi).1 (by omega)
  exact hlevel (popcount16 c.mask - k) c hcube himp (by omega)

end

structure PrimesBelow (vars : Nat) (on dc : List UInt16) (k : Nat) (primes : List QmImplicant) : Prop where
  nodup : primes.Nodup
  mem_iff : ∀ c, c ∈ primes ↔ IsPrimeImplicant vars on dc c ∧ popcount16 c.mask < k

variable {primes : List QmImplicant}

theorem PrimesBelow.round (hvar : vars ≤ 16) (hround : Round vars on dc k current)
    (hp : PrimesBelow vars on dc k primes) :
    PrimesBelow vars on dc (k + 1)
      ((current.filter fun a => !isCombined (low vars) current a).foldl pushNew primes) := by
  refine ⟨nodup_foldl_pushNew _ hp.nodup, fun c => ?_⟩
  rw [mem_foldl_pushNew_iff, hp.mem_iff, mem_filter, Bool.not_eq_true']
  constructor
  · rintro (⟨hprime, hlt⟩ | ⟨hmem, hfree⟩)
    · exact ⟨hprime, by omega⟩
    · have hk := ((hround c).mp hmem).2.2
      exact ⟨(hround.not_combined_iff hvar hmem).mp hfree, by omega⟩
  · rintro ⟨hprime, hlt⟩
    by_cases hk : popcount16 c.mask < k
    · exact .inl ⟨hprime, hk⟩
    · have hmem : c ∈ current := (hround c).mpr ⟨hprime.cube, hprime.implicant, by omega⟩
      exact .inr ⟨hmem, (hround.not_combined_iff hvar hmem).mpr hprime⟩

theorem PrimesBelow.rounds (hvar : vars ≤ 16) {fuel : Nat} (hround : Round vars on dc k current)
    (hp : PrimesBelow vars on dc k primes) {primes' : List QmImplicant}
    (hrun : primeRounds (low vars) fuel current primes = some primes') :
    primes'.Nodup ∧ ∀ c, c ∈ primes' ↔ IsPrimeImplicant vars on dc c := by
  induction fuel generalizing k current primes with
  | zero => cases hrun
  | succ fuel ih =>
    unfold primeRounds at hrun
    dsimp only at hrun
    have hp' := hp.round hvar hround
    have hnext := hround.next hvar
    split at hrun
    · rename_i hnil
      rw [← Option.some.inj hrun]
      refine ⟨hp'.nodup, fun c => ?_⟩
      rw [hp'.mem_iff]
      exact ⟨fun h => h.1, fun h => ⟨h, hnext.no_larger hvar hnil h.cube h.implicant⟩⟩
    · exact ih hnext hp' hrun

end Rounds

theorem IsImplicant.exists_prime {vars : Nat} (hvar : vars ≤ 16) {on dc : List UInt16} {c : QmImplicant}
    (hc : IsCube vars c) (h : IsImplicant on dc c) :
    ∃ p, IsPrimeImplicant vars on dc p ∧ ∀ m, implicantCovers c m = true → implicantCovers p m = true := by
  induction hk : 16 - popcount16 c.mask generalizing c with
  | zero =>
    refine ⟨c, ⟨hc, h, fun v hv hmask _ => ?_⟩, fun m hm => hm⟩
    have hmore := popcount16_expand (c := c) (v := v) (by omega) hmask
    have := popcount16_le (c.expand v).mask
    omega
  | succ k ih =>
    by_cases hmax : ∀ v < vars, c.mask.toNat.testBit v = false → ¬ IsImplicant on dc (c.expand v)
    · exact ⟨c, ⟨hc, h, hmax⟩, fun m hm => hm⟩
    · push Not at hmax
      obtain ⟨v, hv, hmask, himp⟩ := hmax
      have hmore := popcount16_expand (c := c) (v := v) (by omega) hmask
      obtain ⟨p, hp, hcov⟩ := ih (hc.expand hvar hv) himp (by omega)
      exact ⟨p, hp, fun m hm => hcov m ((implicantCovers_expand (by omega) m).mpr (.inl hm))⟩

theorem exists_prime_of_mem {vars : Nat} (hvar : vars ≤ 16) (on dc : List UInt16)
    (hm : m ∈ on ∨ m ∈ dc) (hlt : m.toNat < 2 ^ vars) :
    ∃ p, IsPrimeImplicant vars on dc p ∧ implicantCovers p m = true := by
  have hcube : IsCube vars ⟨m, 0⟩ := ⟨Nat.pow_pos (by omega), hlt, by simp⟩
  have himp : IsImplicant on dc ⟨m, 0⟩ := by
    intro x hx
    have heq : x = m := ext fun i hi => implicantCovers_iff.mp hx i hi (by simp)
    rwa [heq]
  obtain ⟨p, hp, hcov⟩ := himp.exists_prime hvar hcube
  exact ⟨p, hp, hcov m (implicantCovers_value ⟨m, 0⟩)⟩

theorem qmPrimeImplicants_spec {vars : Nat} (hvar : vars ≤ 16) {on dc : List UInt16}
    (hon : ∀ m ∈ on, m.toNat < 2 ^ vars) (hdc : ∀ m ∈ dc, m.toNat < 2 ^ vars) (fuel : Nat)
    (hfuel : 17 ≤ fuel) :
    ∃ primes, qmPrimeImplicants fuel on dc vars = some primes ∧ primes.Nodup ∧
      ∀ c, c ∈ primes ↔ IsPrimeImplicant vars on dc c := by
  obtain ⟨primes, hprimes⟩ := qmPrimeImplicants_eq_some fuel hfuel on dc vars
  have hstart : PrimesBelow vars on dc 0 [] := ⟨nodup_nil, by simp⟩
  have hrun := hprimes
  unfold qmPrimeImplicants at hrun
  dsimp only at hrun
  rw [varMask_eq hvar] at hrun
  exact ⟨primes, hprimes, hstart.rounds hvar (round_zero hon hdc) hrun⟩

/-- The list of the prime implicants is exact. -/
theorem qmPrimeImplicants_exact (vars : Nat) (hvar : 1 ≤ vars ∧ vars ≤ 16) (on dc : List UInt16)
    (hon : ∀ m ∈ on, m.toNat < 2 ^ vars) (hdc : ∀ m ∈ dc, m.toNat < 2 ^ vars) (fuel : Nat)
    (hfuel : 17 ≤ fuel) :
    ∃ primes, qmPrimeImplicants fuel on dc vars = some primes ∧ primes.Nodup ∧
      ∀ c, c ∈ primes ↔ IsPrimeImplicant vars on dc c :=
  qmPrimeImplicants_spec hvar.2 hon hdc fuel hfuel

/-- Three minterms of two variables, one of them twice and one a don't-care. -/
theorem qmPrimeImplicants_exact_or :
    ∃ primes, qmPrimeImplicants 17 [1, 2, 1] [3, 2] 2 = some primes ∧ primes.Nodup ∧
      ∀ c, c ∈ primes ↔ IsPrimeImplicant 2 [1, 2, 1] [3, 2] c := by
  refine qmPrimeImplicants_exact 2 (by omega) [1, 2, 1] [3, 2] ?_ ?_ 17 (by omega)
  · intro m hm
    simp only [List.mem_cons, List.not_mem_nil, or_false] at hm
    rcases hm with rfl | rfl | rfl <;> decide
  · intro m hm
    simp only [List.mem_cons, List.not_mem_nil, or_false] at hm
    rcases hm with rfl | rfl <;> decide

end PhyEngine
