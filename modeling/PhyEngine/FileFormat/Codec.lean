import PhyEngine.Library.ByteReader
import Mathlib.Data.Nat.Bitwise
import Mathlib.Tactic.Ring

/-!
# Primitive encodings

`details` of `pe_nl_fileformat/codec.h`. An `append_…` function is the bytes that it adds
to its output. A `read_…` function is a reader that fails with a `status`. Values of
trivially copyable types are copied byte by byte; the host is little endian.
-/

namespace PhyEngine.FileFormat

open ByteReader List
open UInt64 (le_iff_toNat_le ofNat ofNat_toNat toNat_ofNat')

inductive Errc where
  | invalidArgument
  | ioError
  | dbError
  | corrupt
  | unsupported
  | notFound
  deriving DecidableEq

structure Status where
  code : Errc
  message : String
  deriving DecidableEq

abbrev Read := ByteReader Status

def corrupt (message : String) : Status := ⟨.corrupt, message⟩

def appendU8 (v : UInt8) : Bytes := [v]

/-- `append_uleb128`: seven bits a byte, the top bit marks that more follow. -/
def appendUleb128 (v : UInt64) : Bytes :=
  if 0x80 ≤ v then appendU8 (v.toUInt8 ||| 0x80) ++ appendUleb128 (v >>> 7) else appendU8 v.toUInt8
termination_by v.toNat
decreasing_by
  have h : 128 ≤ v.toNat := by simpa [le_iff_toNat_le] using ‹0x80 ≤ v›
  rw [UInt64.toNat_shiftRight]
  simp only [UInt64.reduceToNat, Nat.reduceMod, Nat.shiftRight_eq_div_pow]
  omega

def readUleb128From (v : UInt64) (shift : Nat) : Read UInt64 := do
  let b ← next (corrupt "unexpected EOF while reading varint")
  let v := v ||| ((b &&& 0x7f).toUInt64 <<< ofNat shift)
  if b &&& 0x80 = 0 then pure v
  else if 64 ≤ shift + 7 then throw (corrupt "varint overflow")
  else readUleb128From v (shift + 7)
termination_by 64 - shift

def readUleb128 : Read UInt64 := readUleb128From 0 0

/-- The types that `append_trivial` is used at, with their bytes in memory. -/
class TriviallyCopyable (T : Type) where
  sizeof : Nat
  toBytes : T → Bytes
  ofBytes : Bytes → T
  sizeof_pos : 0 < sizeof
  length_toBytes : ∀ v, (toBytes v).length = sizeof
  ofBytes_toBytes : ∀ v, ofBytes (toBytes v) = v

export TriviallyCopyable (sizeof)

instance : TriviallyCopyable UInt32 where
  sizeof := 4
  toBytes v := leBytes 4 v.toNat
  ofBytes bs := UInt32.ofNat (ofLeBytes bs)
  sizeof_pos := by omega
  length_toBytes v := length_leBytes 4 v.toNat
  ofBytes_toBytes v := by rw [ofLeBytes_leBytes v.toNat_lt, UInt32.ofNat_toNat]

instance : TriviallyCopyable UInt64 where
  sizeof := 8
  toBytes v := leBytes 8 v.toNat
  ofBytes bs := ofNat (ofLeBytes bs)
  sizeof_pos := by omega
  length_toBytes v := length_leBytes 8 v.toNat
  ofBytes_toBytes v := by rw [ofLeBytes_leBytes v.toNat_lt, ofNat_toNat]

section Trivial

variable {T : Type} [TriviallyCopyable T]

def appendTrivial (v : T) : Bytes := TriviallyCopyable.toBytes v

def readTrivial (T : Type) [TriviallyCopyable T] : Read T := do
  let bs ← take (corrupt "unexpected EOF while reading fixed-size value") (sizeof T)
  pure (TriviallyCopyable.ofBytes bs)

def appendTrivialVector (v : List T) : Bytes :=
  appendUleb128 (ofNat v.length) ++ v.flatMap appendTrivial

/-- The first `n` values that lie in a block of memory. -/
def elements (T : Type) [TriviallyCopyable T] : Nat → Bytes → List T
  | 0, _ => []
  | n + 1, bs => TriviallyCopyable.ofBytes (bs.take (sizeof T)) :: elements T n (bs.drop (sizeof T))

def readTrivialVector (T : Type) [TriviallyCopyable T] : Read (List T) := do
  let n ← readUleb128
  check (corrupt "vector length overflow") (n.toNat ≤ (2 ^ 64 - 1) / sizeof T)
  let bs ← take (corrupt "unexpected EOF while reading vector") (n.toNat * sizeof T)
  pure (elements T n.toNat bs)

end Trivial

def appendString (s : Bytes) : Bytes := appendUleb128 (ofNat s.length) ++ s

def readString : Read Bytes := do
  let n ← readUleb128
  take (corrupt "invalid string length") n.toNat

theorem toNat_shiftRight_seven (v : UInt64) : (v >>> 7).toNat = v.toNat / 128 := by
  rw [UInt64.toNat_shiftRight]
  simp [Nat.shiftRight_eq_div_pow]

theorem toNat_and_low (b : UInt8) : (b &&& 0x7f).toNat = b.toNat % 128 := by
  rw [UInt8.toNat_and]
  exact Nat.and_two_pow_sub_one_eq_mod b.toNat 7

theorem and_high_eq_zero_iff (b : UInt8) : b &&& 0x80 = 0 ↔ b.toNat < 128 := by
  have hnat : (b &&& 0x80).toNat = b.toNat &&& 2 ^ 7 := by
    rw [UInt8.toNat_and]
    rfl
  rw [← UInt8.toNat_inj, hnat, Nat.and_two_pow]
  have hlt := b.toNat_lt
  rw [Nat.testBit_eq_decide_div_mod_eq]
  constructor
  · intro h
    by_contra hge
    have h1 : b.toNat / 2 ^ 7 % 2 = 1 := by omega
    rw [h1] at h
    simp at h
  · intro h
    have h0 : b.toNat / 2 ^ 7 % 2 = 0 := by omega
    rw [h0]
    simp

theorem toNat_or_high (v : UInt64) : (v.toUInt8 ||| 0x80).toNat = v.toNat % 128 + 128 := by
  have hor : (v.toUInt8 ||| 0x80).toNat = v.toNat % 256 ||| 2 ^ 7 := by
    rw [UInt8.toNat_or, UInt64.toNat_toUInt8]
    rfl
  rw [hor]
  have hsplit : v.toNat % 256 = 2 ^ 7 * (v.toNat / 128 % 2) + v.toNat % 128 := by omega
  have hlow : v.toNat % 128 < 2 ^ 7 := by omega
  have hbit : v.toNat / 128 % 2 = 0 ∨ v.toNat / 128 % 2 = 1 := by omega
  have hone : 2 ^ 7 + v.toNat % 128 = 2 ^ 7 ||| v.toNat % 128 := Nat.two_pow_add_eq_or_of_lt hlow 1
  rcases hbit with hbit | hbit
  · rw [hsplit, hbit, Nat.mul_zero, Nat.zero_add, Nat.or_comm]
    omega
  · rw [hsplit, hbit, Nat.mul_one, hone, Nat.or_comm, ← Nat.or_assoc, Nat.or_self]
    omega

theorem toNat_or_shiftLeft {v : UInt64} (b : UInt8) {shift : Nat} (hshift : shift < 64) (hv : v.toNat < 2 ^ shift) :
    (v ||| ((b &&& 0x7f).toUInt64 <<< ofNat shift)).toNat = v.toNat + b.toNat % 128 * 2 ^ shift % 2 ^ 64 := by
  have hsh : (ofNat shift).toNat % 64 = shift := by
    rw [toNat_ofNat']
    omega
  have hsplit : b.toNat % 128 * 2 ^ shift % 2 ^ 64 = 2 ^ shift * (b.toNat % 128 % 2 ^ (64 - shift)) := by
    rw [← Nat.mul_mod_mul_left, ← Nat.pow_add, Nat.add_sub_cancel' (Nat.le_of_lt hshift), Nat.mul_comm]
  rw [UInt64.toNat_or, UInt64.toNat_shiftLeft, hsh, UInt8.toNat_toUInt64, toNat_and_low, Nat.shiftLeft_eq, hsplit,
    Nat.or_comm, ← Nat.two_pow_add_eq_or_of_lt hv, Nat.add_comm]

/-- The number that the payloads stand for, however large: `b₀ + 128 * b₁ + 128² * b₂ …`, each
byte without its top bit. -/
def uleb128Value : Bytes → Nat
  | [] => 0
  | b :: bs => b.toNat % 128 + 128 * uleb128Value bs

inductive IsUleb128 : Bytes → Prop where
  | last {b : UInt8} (h : b.toNat < 128) : IsUleb128 [b]
  | more {b : UInt8} {bs : Bytes} (h : 128 ≤ b.toNat) (hbs : IsUleb128 bs) : IsUleb128 (b :: bs)

theorem IsUleb128.pos {bs : Bytes} (h : IsUleb128 bs) : 0 < bs.length := by
  cases h <;> exact Nat.zero_lt_succ _

theorem uleb128Value_lt (bs : Bytes) : uleb128Value bs < 128 ^ bs.length := by
  induction bs with
  | nil => exact Nat.one_pos
  | cons b bs ih =>
    rw [uleb128Value, length_cons, Nat.pow_succ]
    omega

theorem uleb128Value_append (as bs : Bytes) :
    uleb128Value (as ++ bs) = uleb128Value as + 128 ^ as.length * uleb128Value bs := by
  induction as with
  | nil => simp [uleb128Value]
  | cons a as ih =>
    rw [cons_append, uleb128Value, ih, uleb128Value, length_cons, Nat.pow_succ]
    ring

theorem isUleb128_iff {bs : Bytes} :
    IsUleb128 bs ↔ ∃ init b, bs = init ++ [b] ∧ (∀ x ∈ init, 128 ≤ x.toNat) ∧ b.toNat < 128 := by
  constructor
  · intro h
    induction h with
    | last h => exact ⟨[], _, rfl, by simp, h⟩
    | more h hbs ih =>
      obtain ⟨init, b, rfl, hinit, hb⟩ := ih
      exact ⟨_ :: init, b, rfl, forall_mem_cons.mpr ⟨h, hinit⟩, hb⟩
  · intro ⟨init, b, hbs, hinit, hb⟩
    subst hbs
    induction init with
    | nil => exact .last hb
    | cons x init ih =>
      rw [forall_mem_cons] at hinit
      exact .more hinit.1 (ih hinit.2)

theorem appendUleb128_spec (v : UInt64) : IsUleb128 (appendUleb128 v) ∧ uleb128Value (appendUleb128 v) = v.toNat ∧
    ∀ n, v.toNat < 128 ^ (n + 1) → (appendUleb128 v).length ≤ n + 1 := by
  induction v using appendUleb128.induct with
  | case1 v hge ih =>
    have hv : 128 ≤ v.toNat := by simpa [le_iff_toNat_le] using hge
    have hhigh := toNat_or_high v
    obtain ⟨henc, hvalue, hlen⟩ := ih
    rw [toNat_shiftRight_seven] at hvalue hlen
    rw [appendUleb128, if_pos hge, appendU8, singleton_append]
    refine ⟨.more (by omega) henc, by rw [uleb128Value, hvalue]; omega, fun n hn => ?_⟩
    cases n with
    | zero => omega
    | succ n => exact Nat.succ_le_succ (hlen n (Nat.div_lt_of_lt_mul (by rwa [Nat.pow_succ, Nat.mul_comm] at hn)))
  | case2 v hlt =>
    have hv : v.toNat < 128 := by simpa [le_iff_toNat_le] using hlt
    have hbyte : v.toUInt8.toNat = v.toNat := by
      rw [UInt64.toNat_toUInt8]
      omega
    rw [appendUleb128, if_neg hlt, appendU8]
    refine ⟨.last (by omega), ?_, fun n _ => Nat.succ_le_succ n.zero_le⟩
    rw [uleb128Value, uleb128Value]
    omega

section Loop

variable {bs : Bytes} {k : Nat}

theorem readUleb128From_next (acc : UInt64) (shift : Nat) (b : UInt8) (pre post : Bytes) :
    readUleb128From acc shift (pre ++ b :: post) pre.length =
      let v := acc ||| ((b &&& 0x7f).toUInt64 <<< ofNat shift)
      if b.toNat < 128 then .ok (v, pre.length + 1)
      else if 64 ≤ shift + 7 then .error (corrupt "varint overflow")
      else readUleb128From v (shift + 7) (pre ++ b :: post) (pre.length + 1) := by
  have hnext := decodes_next (corrupt "unexpected EOF while reading varint") b pre post
  rw [readUleb128From]
  show (next _ _ _ >>= _) = _
  rw [← singleton_append, hnext]
  simp only [and_high_eq_zero_iff]
  show (ite _ _ _ : Read UInt64) _ _ = _
  split_ifs <;> rfl

/-- With `acc` below the bits still to come, the loop adds the number in front of it, as far as it
fits, and stops after the tenth byte. -/
theorem IsUleb128.read (h : IsUleb128 bs) (acc : UInt64) (hk : k ≤ 9) (hacc : acc.toNat < 2 ^ (7 * k))
    (pre post : Bytes) :
    readUleb128From acc (7 * k) (pre ++ (bs ++ post)) pre.length =
      if k + bs.length ≤ 10 then
        .ok (ofNat (acc.toNat + uleb128Value bs * 2 ^ (7 * k)), pre.length + bs.length)
      else .error (corrupt "varint overflow") := by
  induction h generalizing acc k pre with
  | @last b hb =>
    have hor := toNat_or_shiftLeft b (by omega) hacc
    have hfit := (acc ||| ((b &&& 0x7f).toUInt64 <<< ofNat (7 * k))).toNat_lt
    rw [singleton_append, readUleb128From_next, if_pos hb, if_pos (by rw [length_singleton]; omega)]
    refine congrArg (fun v => Except.ok (v, pre.length + 1)) (UInt64.toNat_inj.mp ?_)
    rw [toNat_ofNat', uleb128Value, uleb128Value, Nat.mul_zero, Nat.add_zero, ← Nat.add_mod_mod, hor]
    exact (Nat.mod_eq_of_lt (hor ▸ hfit)).symm
  | @more b bs hb hbs ih =>
    have hpos := hbs.pos
    rw [cons_append, readUleb128From_next, if_neg (by omega)]
    by_cases hlast : k = 9
    · rw [if_pos (by omega), if_neg (by rw [length_cons]; omega)]
    have hpow : 2 ^ (7 * (k + 1)) = 128 * 2 ^ (7 * k) := by rw [Nat.mul_add, Nat.pow_add, Nat.mul_comm]
    have hbyte : b.toNat % 128 * 2 ^ (7 * k) < 2 ^ (7 * (k + 1)) := by
      rw [hpow]
      exact Nat.mul_lt_mul_of_pos_right (Nat.mod_lt _ (by omega)) (Nat.two_pow_pos _)
    have hroom : 2 ^ (7 * (k + 1)) ≤ 2 ^ 63 := Nat.pow_le_pow_right (by omega) (by omega)
    have hor := toNat_or_shiftLeft b (by omega) hacc
    rw [Nat.mod_eq_of_lt (by omega)] at hor
    have hle : b.toNat % 128 * 2 ^ (7 * k) ≤ 127 * 2 ^ (7 * k) := Nat.mul_le_mul_right _ (by omega)
    have hrest := ih (k := k + 1) (acc ||| ((b &&& 0x7f).toUInt64 <<< ofNat (7 * k))) (by omega)
      (by omega) (pre ++ [b])
    have hvalue : acc.toNat + b.toNat % 128 * 2 ^ (7 * k) + uleb128Value bs * 2 ^ (7 * (k + 1)) =
        acc.toNat + uleb128Value (b :: bs) * 2 ^ (7 * k) := by
      rw [hpow, uleb128Value]
      ring
    have hcount : k + 1 + bs.length = k + (b :: bs).length := by
      rw [length_cons]
      omega
    have hend : pre.length + [b].length + bs.length = pre.length + (b :: bs).length := by
      simp only [length_cons, length_nil]
      omega
    rw [append_assoc, singleton_append, length_append, hor, hvalue, hcount, hend] at hrest
    rw [if_neg (by omega)]
    exact hrest

end Loop

theorem decodes_uleb128 (v : UInt64) : Decodes readUleb128 (appendUleb128 v) v := by
  intro pre post
  obtain ⟨henc, hvalue, hlen⟩ := appendUleb128_spec v
  have hshort := hlen 9 (Nat.lt_trans v.toNat_lt (by omega))
  have hread := henc.read (k := 0) 0 (by omega) (by decide) pre post
  rw [if_pos (by omega), hvalue, UInt64.toNat_zero, Nat.mul_zero, Nat.pow_zero, Nat.mul_one, Nat.zero_add,
    ofNat_toNat] at hread
  exact hread

section Exact

variable {input : Bytes} {off : Nat}

/-- What is read is the number that stands there, and a number that does not fit is refused. -/
structure ReadsExactly (input : Bytes) (off : Nat) : Prop where
  exact : ∀ v off', readUleb128 input off = .ok (v, off') → ∃ bs post, input.drop off = bs ++ post ∧
    off' = off + bs.length ∧ IsUleb128 bs ∧ v.toNat = uleb128Value bs
  overflow : ∀ bs post, input.drop off = bs ++ post → IsUleb128 bs → 2 ^ 64 ≤ uleb128Value bs →
    readUleb128 input off = .error (corrupt "varint overflow")

/-- Nine bytes with the top bit, then a last one of which only the lowest bit fits. -/
def LosesBits (input : Bytes) (off : Nat) : Prop :=
  ∃ init b post, input.drop off = init ++ b :: post ∧ init.length = 9 ∧ (∀ x ∈ init, 128 ≤ x.toNat) ∧
    2 ≤ b.toNat ∧ b.toNat < 128

theorem readUleb128_of_drop {bs post : Bytes} (h : input.drop off = bs ++ post) (hbs : IsUleb128 bs) :
    readUleb128 input off =
      if bs.length ≤ 10 then .ok (ofNat (uleb128Value bs), off + bs.length)
      else .error (corrupt "varint overflow") := by
  have hpos := hbs.pos
  have hlen : off + (bs.length + post.length) = input.length := by
    have := congrArg List.length h
    rw [length_drop, length_append] at this
    omega
  have hread := hbs.read (k := 0) 0 (by omega) (by decide) (input.take off) post
  rw [← h, take_append_drop, length_take, Nat.min_eq_left (by omega), Nat.zero_add] at hread
  simpa [readUleb128] using hread

theorem exists_of_readUleb128From (acc : UInt64) (shift : Nat) {v : UInt64} {off' : Nat}
    (h : readUleb128From acc shift input off = .ok (v, off')) :
    ∃ bs post, input.drop off = bs ++ post ∧ IsUleb128 bs := by
  induction acc, shift using readUleb128From.induct generalizing off with
  | _ acc shift ih =>
    by_cases hoff : off < input.length
    · obtain ⟨pre, b, post, rfl, rfl⟩ : ∃ pre b post, input = pre ++ b :: post ∧ off = pre.length :=
        ⟨input.take off, input[off], input.drop (off + 1), by simp, by simp; omega⟩
      rw [drop_left]
      rw [readUleb128From_next] at h
      dsimp only at h
      split_ifs at h with hb hshift
      · exact ⟨[b], post, rfl, .last hb⟩
      · obtain ⟨bs, rest, hdrop, hbs⟩ := ih b hshift h
        have hpost : (pre ++ b :: post).drop (pre.length + 1) = post := by simp
        exact ⟨b :: bs, rest, by rw [← hpost, hdrop, cons_append], .more (by omega) hbs⟩
    · rw [readUleb128From] at h
      change (next _ input off >>= _) = _ at h
      rw [ByteReader.next, getElem?_eq_none (by omega)] at h
      cases h

theorem LosesBits.overflow (h : LosesBits input off) : ∃ bs post, input.drop off = bs ++ post ∧ IsUleb128 bs ∧
    2 ^ 64 ≤ uleb128Value bs ∧ ∃ p, readUleb128 input off = .ok p := by
  obtain ⟨init, b, post, hdrop, hlen, hinit, hge, hlt⟩ := h
  have henc : IsUleb128 (init ++ [b]) := isUleb128_iff.mpr ⟨init, b, rfl, hinit, hlt⟩
  have hsplit : input.drop off = (init ++ [b]) ++ post := by rw [hdrop, append_assoc, singleton_append]
  have hread := readUleb128_of_drop hsplit henc
  rw [if_pos (by rw [length_append, hlen, length_singleton])] at hread
  refine ⟨init ++ [b], post, hsplit, henc, ?_, _, hread⟩
  rw [uleb128Value_append, hlen, uleb128Value, uleb128Value]
  omega

theorem losesBits_of_large {bs post : Bytes} (hdrop : input.drop off = bs ++ post) (hbs : IsUleb128 bs)
    (hlen : bs.length ≤ 10) (hlarge : 2 ^ 64 ≤ uleb128Value bs) : LosesBits input off := by
  obtain ⟨init, b, rfl, hinit, hb⟩ := isUleb128_iff.mp hbs
  rw [length_append, length_singleton] at hlen
  rw [uleb128Value_append, uleb128Value, uleb128Value, Nat.mul_zero, Nat.add_zero, Nat.mod_eq_of_lt hb] at hlarge
  have hlow := uleb128Value_lt init
  have hnine : init.length = 9 := by
    by_contra hne
    have hpow : 128 ^ init.length ≤ 128 ^ 8 := Nat.pow_le_pow_right (by omega) (by omega)
    have hmul : 128 ^ init.length * b.toNat ≤ 128 ^ 8 * 127 := Nat.mul_le_mul hpow (by omega)
    omega
  rw [hnine] at hlow hlarge
  exact ⟨init, b, post, by rw [hdrop, append_assoc, singleton_append], hnine, hinit, by omega, hb⟩

/-- A number is read exactly unless its tenth byte loses bits, and what was written is read back. -/
theorem readsExactly_iff (input : Bytes) (off : Nat) : (ReadsExactly input off ↔ ¬LosesBits input off) ∧
    ∀ v, Decodes readUleb128 (appendUleb128 v) v := by
  refine ⟨⟨fun h hloses => ?_, fun h => ⟨fun v off' hread => ?_, fun bs post hdrop hbs hlarge => ?_⟩⟩,
    decodes_uleb128⟩
  · obtain ⟨bs, post, hdrop, hbs, hlarge, p, hread⟩ := hloses.overflow
    rw [h.overflow bs post hdrop hbs hlarge] at hread
    cases hread
  · obtain ⟨bs, post, hdrop, hbs⟩ := exists_of_readUleb128From 0 0 hread
    rw [readUleb128_of_drop hdrop hbs] at hread
    split_ifs at hread with hlen
    cases hread
    have hfits : uleb128Value bs < 2 ^ 64 := by
      by_contra hlarge
      exact h (losesBits_of_large hdrop hbs hlen (Nat.not_lt.mp hlarge))
    exact ⟨bs, post, hdrop, rfl, hbs, UInt64.toNat_ofNat_of_lt' hfits⟩
  · rw [readUleb128_of_drop hdrop hbs]
    split_ifs with hlen
    · exact absurd (losesBits_of_large hdrop hbs hlen hlarge) h
    · rfl

/-- Nine bytes `80` and a byte `02` stand for `2^64` and are read as zero. -/
theorem not_readsExactly : ¬ReadsExactly [128, 128, 128, 128, 128, 128, 128, 128, 128, 2] 0 := by
  intro h
  have hloses : LosesBits [128, 128, 128, 128, 128, 128, 128, 128, 128, 2] 0 :=
    ⟨List.replicate 9 128, 2, [], rfl, rfl, by simp, by decide, by decide⟩
  obtain ⟨bs, post, hdrop, hbs, hlarge, p, hread⟩ := hloses.overflow
  rw [h.overflow bs post hdrop hbs hlarge] at hread
  cases hread

end Exact

theorem decodes_size {n : Nat} (h : n < 2 ^ 64) :
    ∃ v : UInt64, v.toNat = n ∧ Decodes readUleb128 (appendUleb128 (ofNat n)) v :=
  ⟨ofNat n, UInt64.toNat_ofNat_of_lt' h, decodes_uleb128 _⟩

theorem decodes_trivial {T : Type} [TriviallyCopyable T] (v : T) : Decodes (readTrivial T) (appendTrivial v) v := by
  have htake : Decodes (take (corrupt "unexpected EOF while reading fixed-size value") (sizeof T))
      (appendTrivial v) (appendTrivial v) := decodes_take _ (TriviallyCopyable.length_toBytes v)
  have h := htake.bind_pure (f := TriviallyCopyable.ofBytes (T := T))
  rwa [appendTrivial, TriviallyCopyable.ofBytes_toBytes] at h

theorem elements_flatMap {T : Type} [TriviallyCopyable T] (v : List T) :
    elements T v.length (v.flatMap appendTrivial) = v := by
  induction v with
  | nil => rfl
  | cons x v ih =>
    have hx : (appendTrivial x).length = sizeof T := TriviallyCopyable.length_toBytes x
    rw [flatMap_cons, length_cons, elements, ← hx, take_left, drop_left, ih, appendTrivial,
      TriviallyCopyable.ofBytes_toBytes]

theorem length_flatMap_appendTrivial {T : Type} [TriviallyCopyable T] (v : List T) :
    (v.flatMap appendTrivial).length = v.length * sizeof T := by
  induction v with
  | nil => simp
  | cons x v ih =>
    have hx : (appendTrivial x).length = sizeof T := TriviallyCopyable.length_toBytes x
    rw [flatMap_cons, length_append, ih, hx, length_cons, Nat.succ_mul, Nat.add_comm]

theorem decodes_trivialVector {T : Type} [TriviallyCopyable T] {v : List T} (h : v.length * sizeof T < 2 ^ 64) :
    Decodes (readTrivialVector T) (appendTrivialVector v) v := by
  have hpos : 0 < sizeof T := TriviallyCopyable.sizeof_pos
  have hlen : v.length ≤ (2 ^ 64 - 1) / sizeof T := by
    rw [Nat.le_div_iff_mul_le hpos]
    omega
  have hsize : v.length < 2 ^ 64 := lt_of_le_of_lt (Nat.le_mul_of_pos_right _ hpos) h
  obtain ⟨n, hn, hread⟩ := decodes_size hsize
  apply hread.bind
  rw [hn]
  apply Decodes.check_bind hlen
  have hbytes := (decodes_take (corrupt "unexpected EOF while reading vector")
    (length_flatMap_appendTrivial v)).bind_pure
    (f := elements T v.length)
  rwa [elements_flatMap] at hbytes

theorem decodes_string {s : Bytes} (h : s.length < 2 ^ 64) : Decodes readString (appendString s) s := by
  obtain ⟨n, hn, hread⟩ := decodes_size h
  apply hread.bind
  rw [hn]
  exact decodes_take _ rfl

end PhyEngine.FileFormat
