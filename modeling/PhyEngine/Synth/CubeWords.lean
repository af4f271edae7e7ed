import PhyEngine.Library.PackedBits
import PhyEngine.Synth.QmPrimes
import PhyEngine.Synth.TruthCones

/-!
# Cubes over packed minterms

The word-parallel coverage of `espresso_two_level_minimize_base`: the word of a cube is put
together from patterns for the variables below 6 and the word index for the others. Its bits are
the minterms that `implicant_covers` accepts (`bit_cubeRow`).
-/

namespace PhyEngine

open WordBits PackedBits List

variable (vars : Nat)

def blocksU : Nat := (2 ^ vars + 63) / 64

def varWord16 (wordIdx v : Nat) : BitVec 64 :=
  if v < 6 then TruthCones.leafPat.getD v 0
  else if (wordIdx >>> (v - 6)).testBit 0 then BitVec.allOnes 64 else 0

/-- `wmask`: the last word holds fewer minterms when there are fewer than six variables. -/
def wordMask (vars wordIdx : Nat) : BitVec 64 :=
  let U := 2 ^ vars
  if wordIdx + 1 = blocksU vars ∧ U % 64 ≠ 0 then
    (if U % 64 = 64 then BitVec.allOnes 64 else lowMask (U % 64))
  else BitVec.allOnes 64

/-- `cube_cover_word`; the loop may be left at zero, which changes nothing. -/
def cubeCoverWord (c : QmImplicant) (wordIdx : Nat) : BitVec 64 :=
  let wmask := wordMask vars wordIdx
  let r := (List.range vars).foldl (fun r v =>
    if c.mask.toNat.testBit v then r
    else r &&& (if c.value.toNat.testBit v then varWord16 wordIdx v else ~~~varWord16 wordIdx v)) wmask
  r &&& wmask

def cubeRow (c : QmImplicant) : List (BitVec 64) :=
  (List.range (blocksU vars)).map (cubeCoverWord vars c)

variable (ws : List (BitVec 64))

def trimLast : List (BitVec 64) :=
  let U := 2 ^ vars
  if U % 64 = 0 then ws
  else ws.modify (ws.length - 1) (· &&& if U % 64 = 64 then BitVec.allOnes 64 else lowMask (U % 64))

/-- A minterm is added to the words; those past the universe are skipped. -/
def setMinterm (m : UInt16) : List (BitVec 64) :=
  if 2 ^ vars ≤ m.toNat then ws else setBit ws m.toNat

def clearMinterm (m : UInt16) : List (BitVec 64) :=
  if 2 ^ vars ≤ m.toNat then ws else clearBit ws m.toNat

def onBits (on : List UInt16) : List (BitVec 64) :=
  trimLast vars (on.foldl (setMinterm vars) (List.replicate (blocksU vars) 0))

def offBits (on dc : List UInt16) : List (BitVec 64) :=
  trimLast vars <|
    dc.foldl (clearMinterm vars) <|
      on.foldl (clearMinterm vars) (List.replicate (blocksU vars) (BitVec.allOnes 64))

section Words

variable {vars : Nat}

theorem blocksU_of_lt (h : vars < 6) : blocksU vars = 1 ∧ 2 ^ vars < 64 := by
  have hlt : 2 ^ vars < 2 ^ 6 := Nat.pow_lt_pow_right (by omega) h
  have hpos : 0 < 2 ^ vars := Nat.pow_pos (by omega)
  unfold blocksU
  omega

theorem blocksU_of_le (h : 6 ≤ vars) : 64 * blocksU vars = 2 ^ vars ∧ 2 ^ vars % 64 = 0 := by
  obtain ⟨k, rfl⟩ := Nat.exists_eq_add_of_le h
  unfold blocksU
  rw [Nat.pow_add]
  omega

variable {i w j : Nat}

theorem lt_blocksU (h : i < 2 ^ vars) : i / 64 < blocksU vars := by
  unfold blocksU
  omega

theorem getLsbD_wordMask (hw : w < blocksU vars) (hj : j < 64) :
    (wordMask vars w).getLsbD j = decide (64 * w + j < 2 ^ vars) := by
  unfold wordMask
  dsimp only
  rcases Nat.lt_or_ge vars 6 with hlt | hge
  · obtain ⟨hblocks, hsmall⟩ := blocksU_of_lt hlt
    have hpos : 0 < 2 ^ vars := Nat.pow_pos (by omega)
    have hmod : 2 ^ vars % 64 = 2 ^ vars := Nat.mod_eq_of_lt hsmall
    obtain rfl : w = 0 := by omega
    rw [hmod, if_pos ⟨by omega, by omega⟩, if_neg (by omega), getLsbD_lowMask hsmall, decide_eq_decide]
    omega
  · obtain ⟨hblocks, hmod⟩ := blocksU_of_le hge
    rw [if_neg (fun h => h.2 hmod), BitVec.getLsbD_allOnes, decide_eq_decide]
    omega

theorem getLsbD_varWord16 {v : Nat} (hj : j < 64) :
    (varWord16 w v).getLsbD j = (64 * w + j).testBit v := by
  rw [show 64 * w + j = 2 ^ 6 * w + j by omega, Nat.testBit_two_pow_mul_add _ (by omega), varWord16]
  by_cases hv : v < 6
  · rw [if_pos hv, if_pos hv, TruthCones.getLsbD_leafPat hv hj]
  · rw [if_neg hv, if_neg hv, Nat.testBit_shiftRight, Nat.add_zero]
    cases w.testBit (v - 6) with
    | true => rw [if_pos rfl, BitVec.getLsbD_allOnes, decide_eq_true hj]
    | false => simp

/-- The minterm agrees with the cube on the variables that it reads. -/
def Agrees (vars : Nat) (c : QmImplicant) (i : Nat) : Prop :=
  ∀ v < vars, c.mask.toNat.testBit v = false → i.testBit v = c.value.toNat.testBit v

theorem getLsbD_cubeCoverWord (c : QmImplicant) (hw : w < blocksU vars) (hj : j < 64) :
    (cubeCoverWord vars c w).getLsbD j = true ↔
      64 * w + j < 2 ^ vars ∧ Agrees vars c (64 * w + j) := by
  have hloop : ∀ (n : Nat) (r : BitVec 64),
      (((List.range n).foldl (fun r v =>
        if c.mask.toNat.testBit v then r
        else r &&& (if c.value.toNat.testBit v then varWord16 w v else ~~~varWord16 w v)) r).getLsbD j = true ↔
        r.getLsbD j = true ∧ Agrees n c (64 * w + j)) := by
    intro n r
    induction n with
    | zero => simp [Agrees]
    | succ n ih =>
      have hagrees : Agrees (n + 1) c (64 * w + j) ↔ Agrees n c (64 * w + j) ∧
          (c.mask.toNat.testBit n = false → (64 * w + j).testBit n = c.value.toNat.testBit n) := by
        constructor
        · exact fun h => ⟨fun v hv => h v (by omega), h n (by omega)⟩
        · rintro ⟨h, hn⟩ v hv
          rcases Nat.lt_succ_iff_lt_or_eq.mp hv with hlt | rfl
          · exact h v hlt
          · exact hn
      rw [range_succ, foldl_append, foldl_cons, foldl_nil, hagrees, ← and_assoc, ← ih]
      have hbit := getLsbD_varWord16 (w := w) (v := n) hj
      cases hmask : c.mask.toNat.testBit n with
      | true => simp
      | false =>
        rw [if_neg (by simp), BitVec.getLsbD_and, Bool.and_eq_true]
        refine and_congr_right fun _ => ?_
        cases hvalue : c.value.toNat.testBit n with
        | true => rw [if_pos rfl, hbit]; simp
        | false => rw [if_neg (by simp), BitVec.getLsbD_not, decide_eq_true hj, Bool.true_and, hbit]; simp
  rw [cubeCoverWord, BitVec.getLsbD_and, Bool.and_eq_true, hloop, getLsbD_wordMask hw hj, decide_eq_true_iff]
  tauto

@[simp] theorem length_cubeRow (c : QmImplicant) : (cubeRow vars c).length = blocksU vars := by
  rw [cubeRow, length_map, length_range]

theorem bit_cubeRow_iff {c : QmImplicant} :
    bit (cubeRow vars c) i = true ↔ i < 2 ^ vars ∧ Agrees vars c i := by
  have hsplit : 64 * (i / 64) + i % 64 = i := Nat.div_add_mod i 64
  rw [cubeRow, bit_map_range, Bool.and_eq_true, decide_eq_true_iff]
  constructor
  · rintro ⟨hw, hbit⟩
    have h := (getLsbD_cubeCoverWord c hw (Nat.mod_lt _ (by omega))).mp hbit
    rwa [hsplit] at h
  · rintro ⟨hlt, hagrees⟩
    refine ⟨lt_blocksU hlt, (getLsbD_cubeCoverWord c (lt_blocksU hlt) (Nat.mod_lt _ (by omega))).mpr ?_⟩
    rw [hsplit]
    exact ⟨hlt, hagrees⟩

theorem bit_cubeRow {c : QmImplicant} (hc : c.value.toNat < 2 ^ vars) {m : UInt16}
    (hm : m.toNat < 2 ^ vars) : bit (cubeRow vars c) m.toNat = implicantCovers c m := by
  rw [Bool.eq_iff_iff, bit_cubeRow_iff, implicantCovers_iff]
  constructor
  · rintro ⟨-, hagrees⟩ i _ hmask
    by_cases hi : i < vars
    · exact hagrees i hi hmask
    · have hzero : ∀ x : UInt16, x.toNat < 2 ^ vars → x.toNat.testBit i = false := by
        intro x hx
        exact Nat.testBit_lt_two_pow (Nat.lt_of_lt_of_le hx (Nat.pow_le_pow_right (by omega) (by omega)))
      rw [hzero m hm, hzero c.value hc]
  · intro h
    refine ⟨hm, fun v _ hmask => ?_⟩
    by_cases hv : v < 16
    · exact h v hv hmask
    · rw [testBit_eq_false_of_le m (by omega), testBit_eq_false_of_le c.value (by omega)]

@[simp] theorem length_trimLast (ws : List (BitVec 64)) : (trimLast vars ws).length = ws.length := by
  unfold trimLast
  dsimp only
  split
  · rfl
  · exact length_modify ..

theorem bit_trimLast {ws : List (BitVec 64)} (hlen : ws.length = blocksU vars) (i : Nat) :
    bit (trimLast vars ws) i = (bit ws i && decide (i < 2 ^ vars)) := by
  have hi : i % 64 < 64 := Nat.mod_lt _ (by omega)
  unfold trimLast
  dsimp only
  rcases Nat.lt_or_ge vars 6 with hlt | hge
  · obtain ⟨hblocks, hsmall⟩ := blocksU_of_lt hlt
    have hpos : 0 < 2 ^ vars := Nat.pow_pos (by omega)
    have hmod : 2 ^ vars % 64 = 2 ^ vars := Nat.mod_eq_of_lt hsmall
    rw [hmod, if_neg (by omega), if_neg (by omega), bit, getD_modify, bit]
    by_cases hword : i / 64 = 0
    · have hlow : decide (i % 64 < 2 ^ vars) = decide (i < 2 ^ vars) := by
        rw [decide_eq_decide]
        omega
      rw [if_pos (by omega), BitVec.getLsbD_and, getLsbD_lowMask hsmall, hlow]
    · rw [if_neg (by omega), getD_eq_default _ _ (by omega)]
      simp
  · obtain ⟨hblocks, hmod⟩ := blocksU_of_le hge
    rw [if_pos hmod]
    cases hbit : bit ws i with
    | false => rfl
    | true =>
      have := lt_of_bit hbit
      rw [decide_eq_true (by omega), Bool.and_true]

theorem length_foldl_setMinterm (ms : List UInt16) (ws : List (BitVec 64)) :
    (ms.foldl (setMinterm vars) ws).length = ws.length := by
  induction ms generalizing ws with
  | nil => rfl
  | cons m ms ih =>
    rw [foldl_cons, ih, setMinterm]
    split
    · rfl
    · exact length_setBit ..

theorem length_foldl_clearMinterm (ms : List UInt16) (ws : List (BitVec 64)) :
    (ms.foldl (clearMinterm vars) ws).length = ws.length := by
  induction ms generalizing ws with
  | nil => rfl
  | cons m ms ih =>
    rw [foldl_cons, ih, clearMinterm]
    split
    · rfl
    · exact length_clearBit ..

theorem bit_foldl_setMinterm (hi : i < 2 ^ vars) (ms : List UInt16) {ws : List (BitVec 64)}
    (hlen : ws.length = blocksU vars) :
    bit (ms.foldl (setMinterm vars) ws) i = true ↔ bit ws i = true ∨ ∃ m ∈ ms, m.toNat = i := by
  induction ms generalizing ws with
  | nil => simp
  | cons m ms ih =>
    rw [foldl_cons, exists_mem_cons_iff, setMinterm]
    split
    · rw [ih hlen]
      have hne : m.toNat ≠ i := by omega
      tauto
    · rw [ih (by rw [length_setBit, hlen]), bit_setBit (by rw [hlen]; exact lt_blocksU (by omega)),
        Bool.or_eq_true, decide_eq_true_iff, or_assoc]

theorem bit_foldl_clearMinterm (hi : i < 2 ^ vars) (ms : List UInt16) (ws : List (BitVec 64)) :
    bit (ms.foldl (clearMinterm vars) ws) i = true ↔ bit ws i = true ∧ ∀ m ∈ ms, m.toNat ≠ i := by
  induction ms generalizing ws with
  | nil => simp
  | cons m ms ih =>
    rw [foldl_cons, forall_mem_cons, ih, clearMinterm]
    split
    · have hne : m.toNat ≠ i := by omega
      tauto
    · rw [bit_clearBit, Bool.and_eq_true, Bool.not_eq_true', decide_eq_false_iff_not, and_assoc]

@[simp] theorem length_onBits (on : List UInt16) : (onBits vars on).length = blocksU vars := by
  rw [onBits, length_trimLast, length_foldl_setMinterm, length_replicate]

@[simp] theorem length_offBits (on dc : List UInt16) : (offBits vars on dc).length = blocksU vars := by
  rw [offBits, length_trimLast, length_foldl_clearMinterm, length_foldl_clearMinterm, length_replicate]

theorem bit_onBits {on : List UInt16} :
    bit (onBits vars on) i = true ↔ i < 2 ^ vars ∧ ∃ m ∈ on, m.toNat = i := by
  rw [onBits, bit_trimLast (by rw [length_foldl_setMinterm, length_replicate]), Bool.and_eq_true,
    decide_eq_true_iff, and_comm]
  refine and_congr_right fun hi => ?_
  rw [bit_foldl_setMinterm hi _ length_replicate, bit_replicate_zero]
  simp

theorem bit_offBits {on dc : List UInt16} :
    bit (offBits vars on dc) i = true ↔
      i < 2 ^ vars ∧ ∀ m, (m ∈ on ∨ m ∈ dc) → m.toNat ≠ i := by
  rw [offBits, bit_trimLast (by
    rw [length_foldl_clearMinterm, length_foldl_clearMinterm, length_replicate]), Bool.and_eq_true,
    decide_eq_true_iff, and_comm]
  refine and_congr_right fun hi => ?_
  rw [bit_foldl_clearMinterm hi, bit_foldl_clearMinterm hi, bit_replicate_allOnes,
    decide_eq_true (lt_blocksU hi)]
  constructor
  · rintro ⟨⟨-, hon⟩, hdc⟩ m (hm | hm)
    · exact hon m hm
    · exact hdc m hm
  · exact fun h => ⟨⟨rfl, fun m hm => h m (.inl hm)⟩, fun m hm => h m (.inr hm)⟩

end Words

end PhyEngine
