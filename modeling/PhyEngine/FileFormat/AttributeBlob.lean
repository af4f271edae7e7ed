import PhyEngine.FileFormat.Records

/-!
# The attribute blob of a model

`encode_attributes` and `apply_attributes` of `pe_nl_fileformat.h`, for a model given by its
attributes. A scan of the indices gives up after 64 without a name in a row; `encode_attributes`
makes it twice, once to count and once to write.
-/

namespace PhyEngine.FileFormat

open ByteReader

/-- What `get_attribute_name` and `get_attribute` of a model return. -/
structure AttributeTable where
  name : Nat → Bytes
  value : Nat → Variant
  name_lt : ∀ i, (name i).length < 2 ^ 64

namespace AttributeTable

section Passes

variable (t : AttributeTable)

def record (i : Nat) : AttributeRecord := ⟨i, t.name i, t.value i⟩

/-- The first pass of `encode_attributes` over `n` more indices. -/
def countPresent : Nat → Nat → Bool → Nat → Nat → Nat
  | 0, _, _, _, count => count
  | n + 1, idx, seenAny, emptyRun, count =>
    if t.name idx = [] then
      if seenAny then
        if kMaxConsecutiveEmpty ≤ emptyRun + 1 then count
        else countPresent n (idx + 1) seenAny (emptyRun + 1) count
      else countPresent n (idx + 1) seenAny emptyRun count
    else countPresent n (idx + 1) true 0 (count + 1)

def appendPresent : Nat → Nat → Bool → Nat → Bytes
  | 0, _, _, _ => []
  | n + 1, idx, seenAny, emptyRun =>
    if t.name idx = [] then
      if seenAny then
        if kMaxConsecutiveEmpty ≤ emptyRun + 1 then [] else appendPresent n (idx + 1) seenAny (emptyRun + 1)
      else appendPresent n (idx + 1) seenAny emptyRun
    else appendAttribute (t.record idx) ++ appendPresent n (idx + 1) true 0

def encode : Bytes :=
  appendUleb128 (UInt64.ofNat (t.countPresent kMaxScan 0 false 0 0)) ++ t.appendPresent kMaxScan 0 false 0

/-- No 64 indices in a row without a name stand between a named index and `i`. -/
def Reached (i : Nat) : Prop :=
  ∀ s < i, s + kMaxConsecutiveEmpty ≤ i → (∃ k < s, t.name k ≠ []) → ∃ j < kMaxConsecutiveEmpty, t.name (s + j) ≠ []

instance : DecidablePred t.Reached := fun i => by
  unfold Reached
  infer_instance

def present : List Nat := (List.range kMaxScan).filter fun i => t.name i ≠ [] ∧ t.Reached i

end Passes

variable {t : AttributeTable} {idx run : Nat} {seen : Bool}

theorem passes_eq (t : AttributeTable) (n idx : Nat) (seen : Bool) (run count : Nat) :
    t.countPresent n idx seen run count = count + (scanAttributes t.name n idx seen run).length ∧
      t.appendPresent n idx seen run =
        (scanAttributes t.name n idx seen run).flatMap fun i => appendAttribute (t.record i) := by
  induction n generalizing idx seen run count with
  | zero => exact ⟨rfl, rfl⟩
  | succ n ih =>
    rw [countPresent, appendPresent, scanAttributes]
    split_ifs
    · exact ⟨rfl, rfl⟩
    · exact ih _ _ _ _
    · exact ih _ _ _ _
    · obtain ⟨hcount, happend⟩ := ih (idx + 1) true 0 (count + 1)
      rw [hcount, happend, List.length_cons, List.flatMap_cons, Nat.add_right_comm]
      exact ⟨rfl, rfl⟩

structure ScanAt (t : AttributeTable) (idx : Nat) (seen : Bool) (run : Nat) : Prop where
  unseen : seen = false → ∀ k < idx, t.name k = []
  last : seen = true → run < kMaxConsecutiveEmpty ∧ ∃ k, k + run + 1 = idx ∧ t.name k ≠ [] ∧
    ∀ j, k < j → j < idx → t.name j = []
  reached : t.Reached idx

theorem Reached.succ (h : t.Reached idx) (hwindow : ∀ s, s + kMaxConsecutiveEmpty = idx + 1 →
    (∃ k < s, t.name k ≠ []) → ∃ j < kMaxConsecutiveEmpty, t.name (s + j) ≠ []) : t.Reached (idx + 1) := by
  intro s _ hs hnamed
  have hk : kMaxConsecutiveEmpty = 64 := rfl
  by_cases hlast : s + kMaxConsecutiveEmpty = idx + 1
  · exact hwindow s hlast hnamed
  · exact h s (by omega) (by omega) hnamed

theorem ScanAt.named (h : ScanAt t idx seen run) (hname : t.name idx ≠ []) : ScanAt t (idx + 1) true 0 := by
  have hk : kMaxConsecutiveEmpty = 64 := rfl
  refine ⟨nofun, fun _ => ⟨by omega, idx, rfl, hname, fun j _ _ => by omega⟩, ?_⟩
  refine h.reached.succ fun s hs _ => ⟨63, by omega, ?_⟩
  rwa [show s + 63 = idx by omega]

theorem ScanAt.skip (h : ScanAt t idx true run) (hname : t.name idx = []) (hrun : run + 1 < kMaxConsecutiveEmpty) :
    ScanAt t (idx + 1) true (run + 1) := by
  obtain ⟨-, k, hk, hnamed, hempty⟩ := h.last rfl
  refine ⟨nofun, fun _ => ⟨hrun, k, by omega, hnamed, fun j hkj hj => ?_⟩, ?_⟩
  · rcases Nat.lt_succ_iff_lt_or_eq.mp hj with hlt | rfl
    · exact hempty j hkj hlt
    · exact hname
  · refine h.reached.succ fun s hs _ => ⟨k - s, by omega, ?_⟩
    rwa [show s + (k - s) = k by omega]

theorem ScanAt.unnamed (h : ScanAt t idx false run) (hname : t.name idx = []) : ScanAt t (idx + 1) false run := by
  have hempty : ∀ k < idx + 1, t.name k = [] := by
    intro k hk
    rcases Nat.lt_succ_iff_lt_or_eq.mp hk with hlt | rfl
    · exact h.unseen rfl k hlt
    · exact hname
  have hwidth : kMaxConsecutiveEmpty = 64 := rfl
  refine ⟨fun _ => hempty, nofun, h.reached.succ ?_⟩
  intro s hs ⟨k, hks, hnamed⟩
  exact absurd (hempty k (by omega)) hnamed

theorem ScanAt.not_reached (h : ScanAt t idx true run) (hname : t.name idx = []) (hrun : kMaxConsecutiveEmpty ≤ run + 1)
    {i : Nat} (hi : idx < i) : ¬t.Reached i := by
  intro hreached
  obtain ⟨hlt, k, hk, hnamed, hempty⟩ := h.last rfl
  obtain ⟨j, hj, hne⟩ := hreached (k + 1) (by omega) (by omega) ⟨k, by omega, hnamed⟩
  by_cases hlast : k + 1 + j = idx
  · exact hne (hlast ▸ hname)
  · exact hne (hempty _ (by omega) (by omega))

theorem scanAttributes_eq (n : Nat) (h : ScanAt t idx seen run) : scanAttributes t.name n idx seen run =
    (List.range' idx n).filter fun i => t.name i ≠ [] ∧ t.Reached i := by
  induction n generalizing idx seen run with
  | zero => rfl
  | succ n ih =>
    rw [scanAttributes, List.range'_succ, List.filter_cons]
    by_cases hname : t.name idx = []
    · have hskip : ¬decide (t.name idx ≠ [] ∧ t.Reached idx) = true := by simp [hname]
      rw [if_pos hname, if_neg hskip]
      cases seen with
      | false => exact ih (h.unnamed hname)
      | true =>
        rw [if_pos rfl]
        split_ifs with hrun
        · refine (List.filter_eq_nil_iff.mpr fun i hi => ?_).symm
          have hlt := (List.mem_range'_1.mp hi).1
          simp [h.not_reached hname hrun hlt]
        · exact ih (h.skip hname (by omega))
    · rw [if_neg hname, if_pos (by simp [hname, h.reached]), ih (h.named hname)]

theorem attributeIndices_eq (t : AttributeTable) : attributeIndices t.name = t.present := by
  rw [attributeIndices, present, List.range_eq_range']
  refine scanAttributes_eq kMaxScan ⟨fun _ k hk => by omega, fun h => absurd h Bool.false_ne_true, fun s hs => by omega⟩

theorem encode_eq (t : AttributeTable) : t.encode =
    appendUleb128 (UInt64.ofNat t.present.length) ++ t.present.flatMap fun i => appendAttribute (t.record i) := by
  obtain ⟨hcount, happend⟩ := passes_eq t kMaxScan 0 false 0 0
  rw [encode, hcount, happend, Nat.zero_add, ← attributeIndices_eq, attributeIndices]

end AttributeTable

def applyLoop (input : Bytes) : Nat → Nat → List (Nat × Variant) → Except Status Nat × List (Nat × Variant)
  | 0, off, calls => (.ok off, calls)
  | n + 1, off, calls =>
    match readAttribute input off with
    | .error e => (.error e, calls)
    | .ok (a, off) => applyLoop input n off (calls ++ [(a.idx, a.value)])

def attributeCalls (input : Bytes) : Except Status Unit × List (Nat × Variant) :=
  match readUleb128 input 0 with
  | .error e => (.error e, [])
  | .ok (count, off) =>
    match applyLoop input count.toNat off [] with
    | (.error e, calls) => (.error e, calls)
    | (.ok off, calls) =>
      (if off ≠ input.length then .error (corrupt "trailing bytes in attributes blob") else .ok (), calls)

theorem applyLoop_eq {records : List AttributeRecord} (h : ∀ a ∈ records, Decodes readAttribute (appendAttribute a) a)
    (pre : Bytes) (calls : List (Nat × Variant)) :
    applyLoop (pre ++ records.flatMap appendAttribute) records.length pre.length calls =
      (.ok (pre.length + (records.flatMap appendAttribute).length), calls ++ records.map fun a =>
        (a.idx, a.value)) := by
  induction records generalizing pre calls with
  | nil => simp [applyLoop]
  | cons a records ih =>
    rw [List.forall_mem_cons] at h
    have hread := h.1 pre (records.flatMap appendAttribute)
    have hrest := ih h.2 (pre ++ appendAttribute a) (calls ++ [(a.idx, a.value)])
    rw [List.append_assoc, List.length_append] at hrest
    rw [List.flatMap_cons, List.length_cons, applyLoop, hread]
    refine hrest.trans ?_
    rw [List.length_append, Nat.add_assoc, List.append_assoc, List.map_cons, List.singleton_append]

/-- The count stands for the entries that follow, and every entry is set once, in order, with the
variant that was there. -/
theorem attributeCalls_encode (t : AttributeTable) :
    t.encode = appendUleb128 (UInt64.ofNat t.present.length) ++
        t.present.flatMap (fun i => appendAttribute ⟨i, t.name i, t.value i⟩) ∧ t.present.length ≤ 512 ∧
      attributeCalls t.encode = (.ok (), t.present.map fun i => (i, t.value i)) := by
  obtain ⟨hlen, hlt⟩ := scanAttributes_le t.name kMaxScan 0 false 0
  rw [← attributeIndices, t.attributeIndices_eq] at hlen hlt
  have hscan : kMaxScan = 512 := rfl
  refine ⟨t.encode_eq, by omega, ?_⟩
  obtain ⟨count, hcount, hread⟩ := decodes_size (n := t.present.length) (by omega)
  have hrecords : ∀ a ∈ t.present.map t.record, Decodes readAttribute (appendAttribute a) a := by
    intro a ha
    obtain ⟨i, hi, rfl⟩ := List.mem_map.mp ha
    exact decodes_attribute (Nat.lt_trans (hlt i hi) (by omega)) (t.name_lt i)
  have hloop := applyLoop_eq hrecords (appendUleb128 (UInt64.ofNat t.present.length)) []
  rw [List.length_map, List.flatMap_map, ← t.encode_eq] at hloop
  have hstart := hread.run (t.present.flatMap fun i => appendAttribute (t.record i))
  rw [← t.encode_eq] at hstart
  rw [attributeCalls, hstart]
  dsimp only
  rw [hcount, hloop]
  dsimp only
  rw [if_neg (by rw [t.encode_eq, List.length_append]; exact not_not_intro rfl), List.nil_append, List.map_map]
  rfl

end PhyEngine.FileFormat
