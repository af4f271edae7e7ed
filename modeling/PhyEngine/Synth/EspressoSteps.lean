import PhyEngine.Synth.Espresso

/-!
# What the steps of the Espresso loop keep

`step_expand` and `step_reduce` on any cover that contains the ON-set and touches nothing outside
ON and DC. A reduction shrinks a cube to its own minterms, and two cubes can both let go of one
they share: `ReduceKeeps` says when none is lost (`espressoSteps_iff`).
-/

namespace PhyEngine

open PackedBits WordBits SortedLists

def varOrder (on dc : List UInt16) (vars : Nat) : List Nat :=
  let order := espressoBinateVarOrder on dc vars
  if order.length = vars then order else List.range vars

/-- The cover contains the ON-set and touches no minterm outside ON and DC. -/
structure CoverProperties (vars : Nat) (on dc : List UInt16) (cover : List QmImplicant) : Prop where
  contains : ∀ m ∈ on, ∃ c ∈ cover, Agrees vars c m.toNat
  touches : ∀ m : UInt16, m.toNat < 2 ^ vars → (∃ c ∈ cover, Agrees vars c m.toNat) → m ∈ on ∨ m ∈ dc

section Anchors

variable (vars : Nat) (on : List UInt16) (others : List QmImplicant) (c : QmImplicant)

def Own (m : UInt16) : Prop := m ∈ on ∧ Agrees vars c m.toNat ∧ ∀ d ∈ others, ¬Agrees vars d m.toNat

/-- A minterm that the cube keeps: one of its own, or any of the ON-set if it has none of its
own. -/
def Anchors (m : UInt16) : Prop :=
  m ∈ on ∧ Agrees vars c m.toNat ∧ (Own vars on others c m ∨ ∀ m', ¬Own vars on others c m')

/-- Where the minterms that the cube keeps agree with each other, `m` agrees with them. -/
def Spanned (m : UInt16) : Prop :=
  ∀ v < vars, (∀ a a', Anchors vars on others c a → Anchors vars on others c a' →
      a.toNat.testBit v = a'.toNat.testBit v) →
    ∀ a, Anchors vars on others c a → m.toNat.testBit v = a.toNat.testBit v

end Anchors

/-- Every minterm of the ON-set is spanned by what some cube of it keeps. -/
def ReduceKeeps (vars : Nat) (on : List UInt16) (cover : List QmImplicant) : Prop :=
  ∀ m ∈ on, ∃ before c after, cover = before ++ c :: after ∧ Agrees vars c m.toNat ∧
    Spanned vars on (before ++ after) c m

section Specialize

variable {vars : Nat} {on dc : List UInt16} {order : List Nat} {c : QmImplicant} {cover : List QmImplicant}
  {anchor : List (BitVec 64)} {i v : Nat}

def AgreesOn (anchor : List (BitVec 64)) (i v : Nat) : Prop :=
  (∀ a a', bit anchor a = true → bit anchor a' = true → a.testBit v = a'.testBit v) →
    ∀ a, bit anchor a = true → i.testBit v = a.testBit v

theorem bit_varPattern (hi : i < 2 ^ vars) :
    bit ((List.range (blocksU vars)).map fun w => varWord16 w v) i = i.testBit v := by
  rw [bit_map_range, decide_eq_true (lt_blocksU hi), Bool.true_and, getLsbD_varWord16 (Nat.mod_lt _ (by omega)),
    Nat.div_add_mod]

theorem agrees_fix (hv : v < vars) (hvar : vars ≤ 16) (hmask : c.mask.toNat.testBit v = true) (b : Bool) :
    Agrees vars ⟨if b then c.value ||| UInt16.ofNat (2 ^ v) else c.value &&& ~~~UInt16.ofNat (2 ^ v),
      c.mask &&& ~~~UInt16.ofNat (2 ^ v)⟩ i ↔ Agrees vars c i ∧ i.testBit v = b := by
  have hsingle : ∀ w, w < vars → (~~~UInt16.ofNat (2 ^ v)).toNat.testBit w = !decide (v = w) := by
    intro w hw
    rw [← single, testBit_not _ (by omega), testBit_single (by omega)]
  have hvalue : ∀ w < vars, (if b then c.value ||| UInt16.ofNat (2 ^ v)
      else c.value &&& ~~~UInt16.ofNat (2 ^ v)).toNat.testBit w =
        if v = w then b else c.value.toNat.testBit w := by
    intro w hw
    cases b with
    | true =>
      rw [if_pos rfl, testBit_or, ← single, testBit_single (by omega)]
      by_cases hvw : v = w <;> simp [hvw]
    | false =>
      rw [if_neg Bool.false_ne_true, testBit_and, hsingle w hw]
      by_cases hvw : v = w <;> simp [hvw]
  constructor
  · intro h
    have hfixed := h v hv (by rw [testBit_and, hsingle v hv]; simp)
    rw [hvalue v hv, if_pos rfl] at hfixed
    refine ⟨fun w hw hfree => ?_, hfixed⟩
    have hne : v ≠ w := by
      rintro rfl
      rw [hmask] at hfree
      cases hfree
    have hkept := h w hw (by rw [testBit_and, hfree, Bool.false_and])
    rwa [hvalue w hw, if_neg hne] at hkept
  · rintro ⟨h, hfixed⟩ w hw hfree
    rw [hvalue w hw]
    by_cases hvw : v = w
    · rw [if_pos hvw, ← hvw, hfixed]
    · rw [if_neg hvw]
      refine h w hw ?_
      rwa [testBit_and, hsingle w hw, decide_eq_false hvw, Bool.not_false, Bool.and_true] at hfree

theorem agreesOn_iff {b : Bool} (hsome : ∃ a, bit anchor a = true) (hall : ∀ a, bit anchor a = true → a.testBit v = b) :
    AgreesOn anchor i v ↔ i.testBit v = b := by
  obtain ⟨a, ha⟩ := hsome
  constructor
  · intro h
    rw [h (fun a a' ha ha' => (hall a ha).trans (hall a' ha').symm) a ha, hall a ha]
  · intro h _ a' ha'
    rw [h, hall a' ha']

variable (hvar : vars ≤ 16) (hlen : anchor.length = blocksU vars)
  (hanchor : ∀ a, bit anchor a = true → a < 2 ^ vars ∧ Agrees vars c a)

include hvar hlen hanchor

theorem agrees_specialize_one (hv : v < vars) : Agrees vars (specialize vars [v] anchor c) i ↔
    Agrees vars c i ∧ AgreesOn anchor i v := by
  have hlenpat : anchor.length = ((List.range (blocksU vars)).map fun w => varWord16 w v).length := by
    rw [hlen, List.length_map, List.length_range]
  have hany1 : (!isZero (inter anchor ((List.range (blocksU vars)).map fun w => varWord16 w v))) = true ↔
      ∃ a, bit anchor a = true ∧ a.testBit v = true := by
    rw [Bool.not_eq_true', isZero_eq_false_iff]
    refine exists_congr fun a => ?_
    rw [bit_inter hlenpat, Bool.and_eq_true]
    refine and_congr_right fun ha => ?_
    rw [bit_varPattern (hanchor a ha).1]
  have hany0 : (!isZero (diff anchor ((List.range (blocksU vars)).map fun w => varWord16 w v))) = true ↔
      ∃ a, bit anchor a = true ∧ a.testBit v = false := by
    rw [Bool.not_eq_true', isZero_eq_false_iff]
    refine exists_congr fun a => ?_
    rw [bit_diff hlenpat, Bool.and_eq_true, Bool.not_eq_true']
    refine and_congr_right fun ha => ?_
    rw [bit_varPattern (hanchor a ha).1]
  rw [specialize, List.foldl_cons, List.foldl_nil]
  dsimp only
  revert hany1 hany0
  generalize (!isZero (inter anchor ((List.range (blocksU vars)).map fun w => varWord16 w v))) = any1
  generalize (!isZero (diff anchor ((List.range (blocksU vars)).map fun w => varWord16 w v))) = any0
  intro hany1 hany0
  by_cases hmask : c.mask.toNat.testBit v = false
  · rw [if_pos hmask]
    refine (and_iff_left_of_imp fun h _ a ha => ?_).symm
    rw [h v hv hmask, (hanchor a ha).2 v hv hmask]
  rw [if_neg hmask]
  by_cases hsame : any0 = any1
  · -- no minterm in the anchor, or two that differ here
    rw [if_pos hsame]
    refine (and_iff_left_of_imp fun _ hagree a ha => ?_).symm
    have hboth : any1 = true := by
      cases hbit : a.testBit v with
      | true => exact hany1.mpr ⟨a, ha, hbit⟩
      | false => exact hsame ▸ hany0.mpr ⟨a, ha, hbit⟩
    obtain ⟨x, hx, hx1⟩ := hany1.mp hboth
    obtain ⟨y, hy, hy0⟩ := hany0.mp (hsame.trans hboth)
    rw [hagree x y hx hy, hy0] at hx1
    cases hx1
  · rw [if_neg hsame, agrees_fix hv hvar (by simpa using hmask)]
    refine and_congr_right fun _ => (agreesOn_iff ?_ fun a ha => ?_).symm
    · cases hone : any1 with
      | true => exact (hany1.mp hone).imp fun _ => And.left
      | false =>
        have hzero : any0 = true := by
          rw [hone] at hsame
          simpa using hsame
        exact (hany0.mp hzero).imp fun _ => And.left
    · cases hbit : a.testBit v with
      | true => exact (hany1.mpr ⟨a, ha, hbit⟩).symm
      | false =>
        have hzero := hany0.mpr ⟨a, ha, hbit⟩
        cases hone : any1 with
        | true => exact absurd (hzero.trans hone.symm) hsame
        | false => rfl

theorem agrees_specialize (horder : ∀ v ∈ order, v < vars) :
    Agrees vars (specialize vars order anchor c) i ↔
      Agrees vars c i ∧ ∀ v ∈ order, AgreesOn anchor i v := by
  induction order generalizing c with
  | nil => simp [specialize]
  | cons v order ih =>
    rw [List.forall_mem_cons] at horder
    have hone := fun i => agrees_specialize_one (i := i) hvar hlen hanchor horder.1
    have hnext : ∀ a, bit anchor a = true → a < 2 ^ vars ∧ Agrees vars (specialize vars [v] anchor c) a :=
      fun a ha => ⟨(hanchor a ha).1, (hone a).mpr ⟨(hanchor a ha).2, fun h a' ha' => h a a' ha ha'⟩⟩
    have hsplit : specialize vars (v :: order) anchor c = specialize vars order anchor (specialize vars [v] anchor c) :=
      rfl
    rw [hsplit, ih hnext horder.2, hone, List.forall_mem_cons, and_assoc]

end Specialize

section Reduce

variable {vars : Nat} {on dc : List UInt16} {order : List Nat} {c : QmImplicant} {cover : List QmImplicant}
  {m : UInt16}

/-- `unique` of `reduce_step` for a cube between the others. -/
def uniqueRow (vars : Nat) (on : List UInt16) (pre suf : List (BitVec 64)) (c : QmImplicant) : List (BitVec 64) :=
  diff (covRow vars on c) (union pre suf)

def anchorRow (vars : Nat) (on : List UInt16) (pre suf : List (BitVec 64)) (c : QmImplicant) : List (BitVec 64) :=
  if isZero (uniqueRow vars on pre suf c) then covRow vars on c else uniqueRow vars on pre suf c

/-- `prefix` of `reduce_step` after some cubes. -/
def prefixOr (vars : Nat) (on : List UInt16) (before : List QmImplicant) (pre : List (BitVec 64)) :
    List (BitVec 64) :=
  before.foldl (fun ws c => union ws (covRow vars on c)) pre

theorem mem_reduceRows {d : QmImplicant} (pre : List (BitVec 64)) : d ∈ reduceRows vars on order pre cover ↔
    ∃ before c after, cover = before ++ c :: after ∧ d = specialize vars order
      (anchorRow vars on (prefixOr vars on before pre) (suffixOr vars on after) c) c := by
  induction cover generalizing pre with
  | nil => simp [reduceRows]
  | cons c cover ih =>
    rw [reduceRows, List.mem_cons, ih]
    constructor
    · rintro (rfl | ⟨before, x, after, rfl, rfl⟩)
      · exact ⟨[], c, cover, rfl, rfl⟩
      · exact ⟨c :: before, x, after, rfl, rfl⟩
    · rintro ⟨before, x, after, hsplit, rfl⟩
      cases before with
      | nil =>
        cases hsplit
        exact .inl rfl
      | cons y before =>
        cases hsplit
        exact .inr ⟨before, x, after, rfl, rfl⟩

theorem exists_of_bit_covRow {i : Nat} (h : bit (covRow vars on c) i = true) :
    i < 2 ^ vars ∧ ∃ m ∈ on, m.toNat = i := by
  rw [bit_covRow, Bool.and_eq_true] at h
  exact bit_onBits.mp h.2

variable (hon : ∀ m ∈ on, m.toNat < 2 ^ vars)

include hon

theorem bit_covRow_iff : bit (covRow vars on c) m.toNat = true ↔ m ∈ on ∧ Agrees vars c m.toNat := by
  rw [bit_covRow, Bool.and_eq_true, bit_cubeRow_iff, bit_onBits]
  constructor
  · rintro ⟨⟨-, hagrees⟩, -, m', hm', heq⟩
    exact ⟨UInt16.toNat_inj.mp heq ▸ hm', hagrees⟩
  · rintro ⟨hm, hagrees⟩
    exact ⟨⟨hon m hm, hagrees⟩, hon m hm, m, hm, rfl⟩

theorem coverProperties_iff (hvar : vars ≤ 16) : CoverProperties vars on dc cover ↔ CorrectCover vars on dc cover := by
  constructor
  · refine fun h => ⟨fun i hi => ?_, fun c hc => cubeHitsOff_eq_false.mpr fun i hi => ?_⟩
    · obtain ⟨hlt, m, hm, rfl⟩ := bit_onBits.mp hi
      obtain ⟨c, hc, hagrees⟩ := h.contains m hm
      exact ⟨c, hc, bit_cubeRow_iff.mpr ⟨hlt, hagrees⟩⟩
    · obtain ⟨hlt, hagrees⟩ := bit_cubeRow_iff.mp hi
      have hword : (UInt16.ofNat i).toNat = i := by
        rw [UInt16.toNat_ofNat']
        exact Nat.mod_eq_of_lt (Nat.lt_of_lt_of_le hlt (Nat.pow_le_pow_right (by omega) hvar))
      have hmem := h.touches (UInt16.ofNat i) (by rwa [hword]) ⟨c, hc, by rwa [hword]⟩
      exact Bool.eq_false_iff.mpr fun hoff => (bit_offBits.mp hoff).2 _ hmem hword
  · refine fun h => ⟨fun m hm => ?_, fun m hm ⟨c, hc, hagrees⟩ => ?_⟩
    · obtain ⟨c, hc, hbit⟩ := h.covers m.toNat (bit_onBits.mpr ⟨hon m hm, m, hm, rfl⟩)
      exact ⟨c, hc, (bit_cubeRow_iff.mp hbit).2⟩
    · by_contra hout
      have hoff : bit (offBits vars on dc) m.toNat = true :=
        bit_offBits.mpr ⟨hm, fun x hx heq => hout (UInt16.toNat_inj.mp heq ▸ hx)⟩
      have hfree := cubeHitsOff_eq_false.mp (h.avoids c hc) m.toNat (bit_cubeRow_iff.mpr ⟨hm, hagrees⟩)
      rw [hoff] at hfree
      cases hfree

section Anchor

variable (before after : List QmImplicant) (c : QmImplicant)

theorem bit_uniqueRow : bit (uniqueRow vars on (prefixOr vars on before (zeroRow vars))
      (suffixOr vars on after) c) m.toNat = true ↔ Own vars on (before ++ after) c m := by
  obtain ⟨hlen, hbit⟩ := bit_foldl_union vars on before _ length_zeroRow m.toNat
  rw [← prefixOr] at hlen hbit
  rw [zeroRow, bit_replicate_zero, ← zeroRow] at hbit
  rw [uniqueRow, bit_diff (by rw [length_covRow, length_union, hlen, length_suffixOr, Nat.min_self]), Bool.and_eq_true,
    Bool.not_eq_true', bit_union (by rw [hlen, length_suffixOr]), Bool.or_eq_false_iff, Bool.eq_false_iff,
    Bool.eq_false_iff, Ne, Ne, hbit, bit_suffixOr]
  simp only [bit_covRow_iff hon, Own, List.mem_append, Bool.false_eq_true, false_or]
  grind

theorem bit_anchorRow {i : Nat} : bit (anchorRow vars on (prefixOr vars on before (zeroRow vars))
      (suffixOr vars on after) c) i = true ↔ ∃ m, m.toNat = i ∧ Anchors vars on (before ++ after) c m := by
  have hunique := fun m => bit_uniqueRow (m := m) hon before after c
  unfold anchorRow
  split_ifs with hzero
  · have hnone : ∀ m, ¬Own vars on (before ++ after) c m := by
      intro m hown
      have hbit := (hunique m).mpr hown
      rw [isZero_iff.mp hzero] at hbit
      cases hbit
    constructor
    · intro h
      obtain ⟨-, m, -, rfl⟩ := exists_of_bit_covRow h
      obtain ⟨hm, hagrees⟩ := (bit_covRow_iff hon).mp h
      exact ⟨m, rfl, hm, hagrees, .inr hnone⟩
    · rintro ⟨m, rfl, hm, hagrees, -⟩
      exact (bit_covRow_iff hon).mpr ⟨hm, hagrees⟩
  · have hbits : ∀ i, bit (uniqueRow vars on (prefixOr vars on before (zeroRow vars))
        (suffixOr vars on after) c) i = true → ∃ m, m.toNat = i ∧ Own vars on (before ++ after) c m := by
      intro i hi
      have hrow : bit (covRow vars on c) i = true := by
        rw [uniqueRow, bit_diff (by simp [prefixOr, (bit_foldl_union vars on before _ length_zeroRow 0).1]),
          Bool.and_eq_true] at hi
        exact hi.1
      obtain ⟨-, m, -, rfl⟩ := exists_of_bit_covRow hrow
      exact ⟨m, rfl, (hunique m).mp hi⟩
    obtain ⟨j, hj⟩ := isZero_eq_false_iff.mp (Bool.eq_false_iff.mpr hzero)
    obtain ⟨m₀, -, hown₀⟩ := hbits j hj
    constructor
    · intro h
      obtain ⟨m, rfl, hown⟩ := hbits i h
      exact ⟨m, rfl, hown.1, hown.2.1, .inl hown⟩
    · rintro ⟨m, rfl, -, -, hown | hnone⟩
      · exact (hunique m).mpr hown
      · exact absurd hown₀ (hnone m₀)

end Anchor

variable (hvar : vars ≤ 16) (horder : ∀ v, v ∈ order ↔ v < vars)

include hvar horder

theorem exists_mem_reduceRows_iff : (∃ d ∈ reduceRows vars on order (zeroRow vars) cover,
      Agrees vars d m.toNat) ↔ ∃ before c after, cover = before ++ c :: after ∧ Agrees vars c m.toNat ∧
        Spanned vars on (before ++ after) c m := by
  have hspecialize : ∀ before c after, Agrees vars (specialize vars order (anchorRow vars on
      (prefixOr vars on before (zeroRow vars)) (suffixOr vars on after) c) c) m.toNat ↔
        Agrees vars c m.toNat ∧ Spanned vars on (before ++ after) c m := by
    intro before c after
    have hbit := fun i => bit_anchorRow (i := i) hon before after c
    rw [agrees_specialize hvar ?_ (fun a ha => ?_) fun v hv => (horder v).mp hv]
    · refine and_congr_right fun _ => forall_congr' fun v => ?_
      rw [horder]
      refine imp_congr_right fun _ => ?_
      constructor
      · intro h hall a ha
        refine h (fun x y hx hy => ?_) _ ((hbit _).mpr ⟨a, rfl, ha⟩)
        obtain ⟨x', rfl, hx'⟩ := (hbit x).mp hx
        obtain ⟨y', rfl, hy'⟩ := (hbit y).mp hy
        exact hall x' y' hx' hy'
      · intro h hall a ha
        obtain ⟨a', rfl, ha'⟩ := (hbit a).mp ha
        exact h (fun x y hx hy => hall _ _ ((hbit _).mpr ⟨x, rfl, hx⟩) ((hbit _).mpr ⟨y, rfl, hy⟩)) a' ha'
    · have hlen := (bit_foldl_union vars on before _ length_zeroRow 0).1
      rw [anchorRow, uniqueRow, prefixOr]
      split_ifs <;> simp [hlen]
    · obtain ⟨a', rfl, ha', hagrees, -⟩ := (hbit a).mp ha
      exact ⟨hon a' ha', hagrees⟩
  constructor
  · rintro ⟨d, hd, hagrees⟩
    obtain ⟨before, c, after, hsplit, rfl⟩ := (mem_reduceRows _).mp hd
    exact ⟨before, c, after, hsplit, (hspecialize before c after).mp hagrees⟩
  · rintro ⟨before, c, after, hsplit, hspanned⟩
    exact ⟨_, (mem_reduceRows _).mpr ⟨before, c, after, hsplit, rfl⟩, (hspecialize before c after).mpr hspanned⟩

theorem stepReduce_properties_iff (h : CoverProperties vars on dc cover) :
    CoverProperties vars on dc (stepReduce vars on order cover) ↔ ReduceKeeps vars on cover := by
  have hmem : ∀ m, (∃ d ∈ reduceRows vars on order (zeroRow vars) cover, Agrees vars d m.toNat) ↔
      ∃ before c after, cover = before ++ c :: after ∧ Agrees vars c m.toNat ∧
        Spanned vars on (before ++ after) c m := fun m => exists_mem_reduceRows_iff hon hvar horder
  constructor
  · intro hreduced m hm
    obtain ⟨d, hd, hagrees⟩ := hreduced.contains m hm
    exact (hmem m).mp ⟨d, mem_dedupe.mp ((irredundant_spec vars on _).2.1 hd), hagrees⟩
  · intro hkeeps
    have hrows : CoverProperties vars on dc (reduceRows vars on order (zeroRow vars) cover) := by
      refine ⟨fun m hm => (hmem m).mpr (hkeeps m hm), fun m hm hex => ?_⟩
      obtain ⟨before, c, after, rfl, hagrees, -⟩ := (hmem m).mp hex
      exact h.touches m hm ⟨c, List.mem_append_right _ List.mem_cons_self, hagrees⟩
    refine (coverProperties_iff hon hvar).mpr (irredundant_correct ?_)
    exact ((coverProperties_iff hon hvar).mp hrows).of_mem_iff fun c => mem_dedupe

end Reduce

theorem mem_varOrder {on dc : List UInt16} {vars v : Nat} : v ∈ varOrder on dc vars ↔ v < vars := by
  have hperm : (espressoBinateVarOrder on dc vars).Perm (List.range vars) := by
    refine ((List.perm_insertionSort _ _).map _).trans ?_
    rw [List.map_map]
    exact (List.map_id'' (fun _ => rfl) _) ▸ List.Perm.refl _
  rw [varOrder, if_pos (by rw [hperm.length_eq, List.length_range]), hperm.mem_iff, List.mem_range]

/-- The covers of the runs of the loop in which every reduction spans the ON-set and every last gasp
leaves the other minterms of the cube that it replaces to other cubes. -/
inductive Works (vars : Nat) (on dc : List UInt16) (sort : StdSort moreFirst) : List QmImplicant → Prop where
  | minterms : Works vars on dc sort (on.map fun m => ⟨m, 0⟩)
  | expand {cover} (h : Works vars on dc sort cover) :
    Works vars on dc sort (stepExpand vars on dc (varOrder on dc vars) sort cover)
  | reduce {cover} (h : Works vars on dc sort cover) (hkeeps : ReduceKeeps vars on cover) :
    Works vars on dc sort (stepReduce vars on (varOrder on dc vars) cover)
  | gasp {cover} (h : Works vars on dc sort cover) {idx : Nat} {c : QmImplicant} {anchor : UInt16}
    (hc : cover[idx]? = some c) (hanchor : anchor ∈ on) (hrest : ∀ m ∈ on, m ≠ anchor → Agrees vars c m.toNat →
      ∃ j d, j ≠ idx ∧ cover[j]? = some d ∧ Agrees vars d m.toNat) :
    Works vars on dc sort (cover.set idx ⟨anchor, 0⟩)

/-- One iteration of the loop. -/
def espressoRound (vars : Nat) (on dc : List UInt16) (sort : StdSort moreFirst) (cover : List QmImplicant) :
    List QmImplicant :=
  stepReduce vars on (varOrder on dc vars) (stepExpand vars on dc (varOrder on dc vars) sort cover)

section Loop

variable {vars : Nat} {on dc : List UInt16} {cover : List QmImplicant}

theorem agrees_minterm {a m : UInt16} (ha : a.toNat < 2 ^ vars) (hm : m.toNat < 2 ^ vars)
    (h : Agrees vars ⟨a, 0⟩ m.toNat) : m = a := by
  refine WordBits.ext fun v _ => ?_
  by_cases hv : v < vars
  · exact h v hv (by simp)
  · have hle : 2 ^ vars ≤ 2 ^ v := Nat.pow_le_pow_right (by omega) (by omega)
    rw [Nat.testBit_lt_two_pow (Nat.lt_of_lt_of_le hm hle), Nat.testBit_lt_two_pow (Nat.lt_of_lt_of_le ha hle)]

theorem Works.properties {sort : StdSort moreFirst} (hvar : vars ≤ 16) (hon : ∀ m ∈ on, m.toNat < 2 ^ vars)
    (h : Works vars on dc sort cover) : CoverProperties vars on dc cover := by
  induction h with
  | minterms => exact (coverProperties_iff hon hvar).mpr (validCover_minterms hon).correct
  | expand _ ih =>
    exact (coverProperties_iff hon hvar).mpr (stepExpand_correct sort hvar ((coverProperties_iff hon hvar).mp ih))
  | reduce _ hkeeps ih => exact (stepReduce_properties_iff hon hvar (fun _ => mem_varOrder) ih).mpr hkeeps
  | @gasp cover _ idx c anchor hc hanchor hrest ih =>
    refine ⟨fun m hm => ?_, fun m hm ⟨d, hd, hagrees⟩ => ?_⟩
    · have hset {j : Nat} {d : QmImplicant} (hj : j ≠ idx) (hd : cover[j]? = some d) : d ∈ cover.set idx ⟨anchor, 0⟩ :=
        List.mem_of_getElem? ((List.getElem?_set_ne hj.symm).trans hd)
      obtain ⟨d, hd, hagrees⟩ := ih.contains m hm
      obtain ⟨j, hj⟩ := List.mem_iff_getElem?.mp hd
      by_cases heq : j = idx
      · -- the minterm was in the replaced cube
        rw [heq, hc] at hj
        cases hj
        by_cases hma : m = anchor
        · exact ⟨_, List.mem_set (List.getElem?_eq_some_iff.mp hc).1 _, fun v _ _ => by rw [hma]⟩
        · obtain ⟨i, e, hi, he, hagrees⟩ := hrest m hm hma hagrees
          exact ⟨e, hset hi he, hagrees⟩
      · exact ⟨d, hset heq hj, hagrees⟩
    rcases List.mem_or_eq_of_mem_set hd with hmem | rfl
    · exact ih.touches m hm ⟨d, hmem, hagrees⟩
    · exact .inl (agrees_minterm (hon _ hanchor) hm hagrees ▸ hanchor)

variable {sort : StdSort moreFirst} {opt : TwoLevelOptions} {s : EspressoState}

theorem Works.rounds {k : Nat} (h : Works vars on dc sort cover) (hkeeps : ∀ i < k, ReduceKeeps vars on
      (stepExpand vars on dc (varOrder on dc vars) sort ((espressoRound vars on dc sort)^[i] cover))) :
    Works vars on dc sort ((espressoRound vars on dc sort)^[k] cover) := by
  induction k with
  | zero => exact h
  | succ k ih =>
    rw [Function.iterate_succ_apply']
    exact .reduce (.expand (ih fun i hi => hkeeps i (by omega))) (hkeeps k (by omega))

theorem cover_improve (s : EspressoState) : (s.improve vars on dc opt).cover = s.cover := by
  unfold EspressoState.improve
  dsimp only
  split_ifs <;> rfl

theorem Works.improve (h : Works vars on dc sort s.cover) (hbest : Works vars on dc sort s.bestCover) :
    Works vars on dc sort (s.improve vars on dc opt).bestCover := by
  unfold EspressoState.improve
  dsimp only
  split_ifs
  · exact h
  · exact hbest
  · exact hbest

/-- The loop works on such covers while its reductions span the ON-set. -/
theorem Works.espressoIterate (iter : Nat) (h : Works vars on dc sort s.cover)
    (hbest : Works vars on dc sort s.bestCover) (hkeeps : ∀ i < iter, ReduceKeeps vars on
      (stepExpand vars on dc (varOrder on dc vars) sort ((espressoRound vars on dc sort)^[i] s.cover))) :
    let s' := PhyEngine.espressoIterate vars on dc (varOrder on dc vars) sort opt iter s
    Works vars on dc sort s'.cover ∧ Works vars on dc sort s'.bestCover := by
  induction iter generalizing s with
  | zero => exact ⟨h, hbest⟩
  | succ iter ih =>
    have hround : Works vars on dc sort (espressoRound vars on dc sort s.cover) :=
      .reduce h.expand (hkeeps 0 (by omega))
    have hnext (s₂ : EspressoState) (hcover : s₂.cover = espressoRound vars on dc sort s.cover)
        (hb : Works vars on dc sort s₂.bestCover) :
        let s' := if s.bestCost ≤ s₂.bestCost then s₂
          else PhyEngine.espressoIterate vars on dc (varOrder on dc vars) sort opt iter s₂
        Works vars on dc sort s'.cover ∧ Works vars on dc sort s'.bestCover := by
      dsimp only
      split_ifs
      · exact ⟨hcover ▸ hround, hb⟩
      · refine ih (hcover ▸ hround) hb fun i hi => ?_
        rw [hcover, ← Function.iterate_succ_apply]
        exact hkeeps (i + 1) (by omega)
    rw [PhyEngine.espressoIterate]
    refine hnext _ ?_ (Works.improve ?_ (Works.improve h.expand hbest))
    · rw [cover_improve, cover_improve]
      rfl
    · rw [cover_improve]
      exact hround

/-- A last gasp works on such covers when the cube that it replaces leaves its minterms to
others. -/
theorem Works.lastGasp (attempt : Nat) (h : Works vars on dc sort s.cover)
    (hbest : Works vars on dc sort s.bestCover) (hgasp : ∀ idx c anchor, s.bestCover[idx]? = some c → anchor ∈ on →
      Works vars on dc sort (s.bestCover.set idx ⟨anchor, 0⟩) ∧ ∀ i < 4, ReduceKeeps vars on (stepExpand vars on dc
        (varOrder on dc vars) sort ((espressoRound vars on dc sort)^[i] (s.bestCover.set idx ⟨anchor, 0⟩)))) :
    let s' := PhyEngine.lastGasp vars on dc (varOrder on dc vars) sort opt s attempt
    Works vars on dc sort s'.cover ∧ Works vars on dc sort s'.bestCover := by
  rw [PhyEngine.lastGasp]
  dsimp only
  split
  · exact ⟨h, hbest⟩
  · rename_i c hc
    split
    · exact ⟨hbest, hbest⟩
    · rename_i anchor hanchor
      obtain ⟨hstart, hkeeps⟩ := hgasp _ c anchor hc (List.mem_of_find?_eq_some hanchor)
      have hrun := hstart.rounds hkeeps
      exact ⟨(cover_improve _).symm ▸ hrun, Works.improve hrun hbest⟩

/-- Expansion keeps the two properties of a cover, reduction keeps them if and only if every minterm
of the ON-set is spanned, and a run whose steps meet this works on such covers all along. -/
theorem espressoSteps_iff (sort : StdSort moreFirst) (vars : Nat) (on dc : List UInt16) (cover : List QmImplicant)
    (hvar : vars ≤ 16) (hon : ∀ m ∈ on, m.toNat < 2 ^ vars) (h : CoverProperties vars on dc cover) :
    CoverProperties vars on dc (stepExpand vars on dc (varOrder on dc vars) sort cover) ∧
      (CoverProperties vars on dc (stepReduce vars on (varOrder on dc vars) cover) ↔
        ReduceKeeps vars on cover) ∧
      ∀ cover', Works vars on dc sort cover' → CoverProperties vars on dc cover' :=
  ⟨(coverProperties_iff hon hvar).mpr (stepExpand_correct sort hvar ((coverProperties_iff hon hvar).mp h)),
    stepReduce_properties_iff hon hvar (fun _ => mem_varOrder) h, fun _ hworks => hworks.properties hvar hon⟩

def sharedCover : List QmImplicant := [⟨0, 1⟩, ⟨1, 2⟩]

theorem sharedCover_properties : CoverProperties 2 [0, 1, 3] [] sharedCover :=
  (coverProperties_iff (by simp) (by decide)).mpr
    ⟨coverCoversAllOn_iff.mp (by decide +kernel), coverHitsOff_eq_false.mp (by decide +kernel)⟩

def apartMinterms : List UInt16 := [0, 1, 6, 7]

/-- The minterms of two cubes without a common one, expanded to them. -/
def apartCover : List QmImplicant := stepExpand 3 apartMinterms [] (varOrder apartMinterms [] 3) moreFirstInsertion
  (apartMinterms.map fun m => ⟨m, 0⟩)

theorem espressoSteps_iff_apart : CoverProperties 3 apartMinterms [] apartCover ∧
    ReduceKeeps 3 apartMinterms apartCover ∧
    CoverProperties 3 apartMinterms [] (stepReduce 3 apartMinterms (varOrder apartMinterms [] 3) apartCover) := by
  have hon : ∀ m ∈ apartMinterms, m.toNat < 2 ^ 3 := List.forall_iff_forall_mem.mp (by decide)
  have hsteps := espressoSteps_iff moreFirstInsertion 3 apartMinterms []
  obtain ⟨hexpand, -, hruns⟩ := hsteps (apartMinterms.map fun m => ⟨m, 0⟩) (by omega) hon
    ((coverProperties_iff hon (by omega)).mpr
      ⟨coverCoversAllOn_iff.mp (by decide +kernel), coverHitsOff_eq_false.mp (by decide +kernel)⟩)
  have hkeeps := (hsteps apartCover (by omega) hon hexpand).2.1.mp ((coverProperties_iff hon (by omega)).mpr
    ⟨coverCoversAllOn_iff.mp (by decide +kernel), coverHitsOff_eq_false.mp (by decide +kernel)⟩)
  exact ⟨hexpand, hkeeps, hruns _ (.reduce (.expand .minterms) hkeeps)⟩

/-- Both cubes have a minterm of their own and let go of the one that they share. -/
theorem stepReduce_loses_shared : CoverProperties 2 [0, 1, 3] [] sharedCover ∧
    ¬CoverProperties 2 [0, 1, 3] [] (stepReduce 2 [0, 1, 3] (varOrder [0, 1, 3] [] 2) sharedCover) := by
  refine ⟨sharedCover_properties, fun h => ?_⟩
  have hrows : reduceRows 2 [0, 1, 3] (varOrder [0, 1, 3] [] 2) (zeroRow 2) sharedCover = [⟨0, 0⟩, ⟨3, 0⟩] := by
    decide +kernel
  obtain ⟨d, hd, hagrees⟩ := h.contains 1 (by simp)
  have hmem := mem_dedupe.mp ((irredundant_spec 2 [0, 1, 3] _).2.1 hd)
  rw [hrows] at hmem
  have hnone : ∀ d ∈ ([⟨0, 0⟩, ⟨3, 0⟩] : List QmImplicant), ¬Agrees 2 d 1 := by
    unfold Agrees
    decide
  exact hnone d hmem hagrees

end Loop

end PhyEngine
