import Mathlib.Data.List.Basic
import Mathlib.Data.Nat.Bitwise
import PhyEngine.Model.Logic

/-!
# Number literals

`parse_dec_uint64`, `parse_dec_int64`, `hex_digit_value` and `parse_literal_bits` of `digital.h`,
with the most significant bit first, and the value of a based literal in the language
(`BasedLiteral.ieee`).
-/

namespace PhyEngine.Verilog

open List
open Option (bind_some getD_some isSome_none map_some some)

abbrev Text := List Char

def isDecDigit (c : Char) : Bool := decide ('0' ≤ c ∧ c ≤ '9')

/-- `c - u8'0'`. -/
def decDigit (c : Char) : Nat := c.toNat - '0'.toNat

def uint64Max : Nat := 2 ^ 64 - 1

def int64Max : Nat := 2 ^ 63 - 1

/-- One round of the loops of `parse_dec_uint64` and `parse_dec_int64`. -/
def decStep (v : Nat) (c : Char) : Option Nat :=
  if c = '_' then some v
  else if isDecDigit c then
    if v > (uint64Max - decDigit c) / 10 then none else some (v * 10 + decDigit c)
  else none

def parseDecUint64 (t : Text) : Option Nat :=
  if t = [] then none else t.foldlM decStep 0

def parseDecInt64 (t : Text) : Option Int :=
  match t with
  | [] => none
  | '-' :: [] => none
  | '-' :: digits => do
    let v ← digits.foldlM decStep 0
    if v > int64Max + 1 then none else some (-(v : Int))
  | digits => do
    let v ← digits.foldlM decStep 0
    if v > int64Max then none else some (v : Int)

def hexDigitValue (c : Char) : Option Nat :=
  if '0' ≤ c ∧ c ≤ '9' then some (c.toNat - '0'.toNat)
  else if 'a' ≤ c ∧ c ≤ 'f' then some (10 + (c.toNat - 'a'.toNat))
  else if 'A' ≤ c ∧ c ≤ 'F' then some (10 + (c.toNat - 'A'.toNat))
  else none

def lowBits (n v : Nat) : List LogicT := (List.range n).map fun i => LogicT.ofBool (v.testBit i)

/-- What a digit of `width` bits writes, least significant bit first: `width` copies of an
unknown digit, or the bits of a number. -/
def digitBits (width : Nat) (number : Char → Option Nat) (c : Char) : Option (List LogicT) :=
  if c = 'x' ∨ c = 'X' then some (List.replicate width .X)
  else if c = 'z' ∨ c = 'Z' then some (List.replicate width .Z)
  else (number c).map (lowBits width)

def binDigitBits (c : Char) : Option (List LogicT) :=
  digitBits 1 (fun c => if c = '0' then some 0 else if c = '1' then some 1 else none) c

def hexDigitBits (c : Char) : Option (List LogicT) := digitBits 4 hexDigitValue c

def octDigitBits (c : Char) : Option (List LogicT) :=
  digitBits 3 (fun c => if '0' ≤ c ∧ c ≤ '7' then some (decDigit c) else none) c

/-- `bits_out` together with `pos`, where `none` is `SIZE_MAX`. -/
structure BitWriter where
  bits : List LogicT
  pos : Option Nat
  deriving DecidableEq

def BitWriter.writeBit (w : BitWriter) (v : LogicT) : BitWriter :=
  match w.pos with
  | none => w
  | some p => ⟨w.bits.set p v, if p = 0 then none else some (p - 1)⟩

/-- One round of the loops over the digits of a literal, which go from the right to the left. -/
def writeDigit (digit : Char → Option (List LogicT)) (w : BitWriter) (c : Char) : Option BitWriter :=
  if c = '_' then some w else (digit c).map fun vs => vs.foldl BitWriter.writeBit w

def writeDigits (digit : Char → Option (List LogicT)) (width : Nat) (digits : Text) :
    Option (List LogicT) :=
  (digits.reverse.foldlM (writeDigit digit) ⟨List.replicate width .L, some (width - 1)⟩).map
    BitWriter.bits

/-- The loop over `bits_out` with the bits of a `uint64_t`, beyond which every bit is `above`. -/
def writeNumber (width raw : Nat) (above : Bool) : List LogicT :=
  ((List.range width).map fun i =>
    LogicT.ofBool (if i < 64 then raw.testBit i else above)).reverse

def parseDecBits (width : Nat) (signedLit : Bool) (digits : Text) : Option (List LogicT) :=
  if digits.head? = some '-' then
    if signedLit then
      (parseDecInt64 digits).map fun iv => writeNumber width (iv % 2 ^ 64).toNat (decide (iv < 0))
    else none
  else (parseDecUint64 digits).map fun v => writeNumber width v false

/-- The part of `parse_literal_bits` behind the sign: the base and the digits. -/
def parseBaseDigits (width : Nat) (signedLit : Bool) : Text → Option (List LogicT)
  | [] => none
  | base :: digits =>
    if base = 'b' ∨ base = 'B' then writeDigits binDigitBits width digits
    else if base = 'h' ∨ base = 'H' then writeDigits hexDigitBits width digits
    else if base = 'o' ∨ base = 'O' then writeDigits octDigitBits width digits
    else if base = 'd' ∨ base = 'D' then parseDecBits width signedLit digits
    else none

def intMax : Nat := 2 ^ 31 - 1

/-- The width of a literal with a base, from the text before the apostrophe. -/
def parseWidth (size : Text) : Option Nat :=
  if size = [] then some 32
  else (parseDecUint64 size).bind fun w => if w = 0 ∨ w > intMax then none else some w

/-- The part of `parse_literal_bits` behind the apostrophe. -/
def parseBased (wantSign : Bool) (size rest : Text) : Option (List LogicT × Bool) :=
  if rest = [] then none
  else
    (parseWidth size).bind fun width =>
      match rest with
      | 's' :: rest | 'S' :: rest => (parseBaseDigits width wantSign rest).map (·, wantSign)
      | rest => (parseBaseDigits width false rest).map (·, false)

def fillBit (c : Char) : Option LogicT :=
  if c = '0' then some .L
  else if c = '1' then some .H
  else if c = 'x' ∨ c = 'X' then some .X
  else if c = 'z' ∨ c = 'Z' then some .Z
  else none

/-- `parse_literal_bits` with the bits and the flag behind `is_signed_out`, which stays
`false` where the pointer is null: `wantSign` says that it is not. What a rejected text leaves
in `bits_out` is read by no caller. -/
def parseLiteralBits (t : Text) (wantSign : Bool) : Option (List LogicT × Bool) :=
  match t with
  | [] => none
  | ['\'', v] => (fillBit v).map fun b => ([b], wantSign)
  | t =>
    if '\'' ∈ t then
      parseBased wantSign (t.takeWhile (· ≠ '\'')) ((t.dropWhile (· ≠ '\'')).drop 1)
    else (parseDecUint64 t).map fun v => (writeNumber 32 v false, wantSign)

/-- The writer after the bits `vs`, least significant first, in a literal of `width` bits. -/
def writtenBits (width : Nat) (vs : List LogicT) : BitWriter :=
  ⟨List.replicate (width - vs.length) .L ++ (vs.take width).reverse,
    if vs.length < width then some (width - 1 - vs.length) else none⟩

theorem writeBit_written (width : Nat) (vs : List LogicT) (v : LogicT) :
    (writtenBits width vs).writeBit v = writtenBits width (vs ++ [v]) := by
  rcases Nat.lt_or_ge vs.length width with hlt | hge
  · obtain ⟨k, hk⟩ : ∃ k, width = vs.length + (k + 1) := ⟨width - vs.length - 1, by omega⟩
    have hroom : width - vs.length = k + 1 := by omega
    have hnext : width - (vs ++ [v]).length = k := by
      rw [length_append, length_singleton]
      omega
    have hset : (replicate (k + 1) LogicT.L ++ vs.reverse).set k v =
        replicate k .L ++ (v :: vs.reverse) := by
      rw [replicate_succ', append_assoc, set_append_right _ _ (by simp)]
      simp
    have hpos : width - 1 - vs.length = k := by omega
    simp only [writtenBits, BitWriter.writeBit, if_pos hlt, hroom, hnext, hpos,
      take_of_length_le hlt.le, hset]
    rw [take_of_length_le (by rw [length_append, length_singleton]; omega),
      reverse_append, length_append, length_singleton]
    congr 1
    split_ifs with hzero hmore <;> first | rfl | omega | (congr 1; omega)
  · have hlong : ¬ vs.length + 1 < width := by omega
    simp only [writtenBits, BitWriter.writeBit, if_neg (Nat.not_lt.mpr hge), length_append,
      length_singleton, if_neg hlong, take_append_of_le_length hge]
    rw [show width - vs.length = width - (vs.length + 1) by omega]

theorem foldl_writeBit (width : Nat) (vs more : List LogicT) :
    more.foldl BitWriter.writeBit (writtenBits width vs) = writtenBits width (vs ++ more) := by
  induction more generalizing vs with
  | nil => rw [append_nil]; rfl
  | cons v more ih => rw [foldl_cons, writeBit_written, ih, append_assoc]; rfl

/-- The bits of the digits, least significant first, where the underscores count for nothing. -/
def bitsFromRight (digit : Char → Option (List LogicT)) : Text → List LogicT
  | [] => []
  | c :: digits => bitsFromRight digit digits ++ (if c = '_' then [] else (digit c).getD [])

def AllDigits (digit : Char → Option (List LogicT)) (digits : Text) : Prop :=
  ∀ c ∈ digits, c = '_' ∨ (digit c).isSome

theorem foldlM_writeDigit {digit : Char → Option (List LogicT)} (width : Nat) {digits : Text}
    (hd : AllDigits digit digits) :
    digits.reverse.foldlM (writeDigit digit) (writtenBits width []) =
      some (writtenBits width (bitsFromRight digit digits)) := by
  induction digits with
  | nil => rfl
  | cons c digits ih =>
    have hrest := ih fun c hc => hd c (mem_cons_of_mem _ hc)
    rw [reverse_cons, foldlM_append, hrest]
    simp only [foldlM_cons, foldlM_nil, Option.bind_eq_bind, bind_some, Option.pure_def,
      bitsFromRight, writeDigit]
    rcases hd c (mem_cons_self ..) with rfl | hc
    · simp
    · obtain ⟨vs, hvs⟩ := Option.isSome_iff_exists.mp hc
      by_cases hu : c = '_'
      · simp [hu]
      · simp only [if_neg hu, hvs, map_some, bind_some, getD_some, foldl_writeBit]

theorem writeDigits_eq {digit : Char → Option (List LogicT)} {width : Nat} (hw : 0 < width)
    {digits : Text} (hd : AllDigits digit digits) :
    writeDigits digit width digits = some (writtenBits width (bitsFromRight digit digits)).bits := by
  have hstart : writtenBits width [] = ⟨replicate width .L, some (width - 1)⟩ := by
    simp [writtenBits, hw]
  rw [writeDigits, ← hstart, foldlM_writeDigit width hd]
  rfl

def decValueFrom (v : Nat) (t : Text) : Nat :=
  t.foldl (fun v c => if c = '_' then v else v * 10 + decDigit c) v

def decValue (t : Text) : Nat := decValueFrom 0 t

theorem le_decValueFrom (v : Nat) (t : Text) : v ≤ decValueFrom v t := by
  induction t generalizing v with
  | nil => exact le_rfl
  | cons c t ih =>
    rw [decValueFrom, foldl_cons]
    split
    · exact ih v
    · exact le_trans (by omega) (ih (v * 10 + decDigit c))

variable {c : Char}

theorem decDigit_le (hc : isDecDigit c = true) : decDigit c ≤ 9 := by
  have h := (of_decide_eq_true hc).2
  have h9 : c.toNat ≤ 57 := h
  have h0 : '0'.toNat = 48 := rfl
  rw [decDigit, h0]
  omega

def AllDec (t : Text) : Prop := ∀ c ∈ t, c = '_' ∨ isDecDigit c = true

variable {t : Text}

theorem foldlM_decStep (ht : AllDec t) (v : Nat) (hv : v ≤ uint64Max) :
    t.foldlM decStep v = if decValueFrom v t ≤ uint64Max then some (decValueFrom v t) else none := by
  induction t generalizing v with
  | nil => rw [foldlM_nil, decValueFrom, foldl_nil, if_pos hv]; rfl
  | cons c t ih =>
    have htail : AllDec t := fun d hd => ht d (mem_cons_of_mem _ hd)
    rw [foldlM_cons, decValueFrom, foldl_cons]
    by_cases hu : c = '_'
    · rw [decStep, if_pos hu, if_pos hu]
      exact ih htail v hv
    · have hc : isDecDigit c = true := (ht c (mem_cons_self ..)).resolve_left hu
      have hd := decDigit_le hc
      have hmax : uint64Max = 18446744073709551615 := rfl
      rw [decStep, if_neg hu, if_neg hu, if_pos hc]
      by_cases hover : v > (uint64Max - decDigit c) / 10
      · have hlarge : uint64Max < v * 10 + decDigit c := by omega
        have hend := le_decValueFrom (v * 10 + decDigit c) t
        rw [decValueFrom] at hend
        rw [if_pos hover, if_neg (by omega)]
        rfl
      · have hfits : v * 10 + decDigit c ≤ uint64Max := by omega
        rw [if_neg hover]
        exact ih htail _ hfits

theorem parseDecUint64_eq (hne : t ≠ []) (ht : AllDec t) :
    parseDecUint64 t = if decValue t ≤ uint64Max then some (decValue t) else none := by
  rw [parseDecUint64, if_neg hne, foldlM_decStep ht 0 (Nat.zero_le _)]
  rfl

theorem length_digitBits {w : Nat} {number : Char → Option Nat} {vs : List LogicT}
    (h : digitBits w number c = some vs) :
    vs.length = w := by
  rw [digitBits] at h
  split_ifs at h
  · rw [← some.inj h, length_replicate]
  · rw [← some.inj h, length_replicate]
  · obtain ⟨v, -, rfl⟩ := Option.map_eq_some_iff.mp h
    rw [lowBits, length_map, length_range]

inductive Base where
  | bin
  | oct
  | dec
  | hex
  deriving DecidableEq

namespace Base

def letters : Base → List Char
  | bin => ['b', 'B']
  | oct => ['o', 'O']
  | dec => ['d', 'D']
  | hex => ['h', 'H']

/-- The bits of one digit. A decimal digit has none of its own. -/
def width : Base → Nat
  | bin => 1
  | oct => 3
  | dec => 0
  | hex => 4

def digit : Base → Char → Option (List LogicT)
  | bin => binDigitBits
  | oct => octDigitBits
  | dec => fun c => if isDecDigit c then some [] else none
  | hex => hexDigitBits

theorem length_digit {b : Base} {vs : List LogicT} (h : b.digit c = some vs) :
    vs.length = b.width := by
  cases b with
  | dec =>
    simp only [digit] at h
    split at h
    · rw [← some.inj h]; rfl
    · cases h
  | bin =>
    rw [digit, binDigitBits] at h
    exact length_digitBits h
  | oct =>
    rw [digit, octDigitBits] at h
    exact length_digitBits h
  | hex =>
    rw [digit, hexDigitBits] at h
    exact length_digitBits h

end Base

/-- `[size]'[s]base digits`: the size is a decimal number up to the limit of the parser, and
behind the base stand digits of it with underscores after the first one, or no digit. -/
structure BasedLiteral where
  size : Option Text
  sign : Option Char
  kind : Base
  base : Char
  digits : Text
  size_wf : ∀ s ∈ size, AllDec s ∧ 1 ≤ decValue s ∧ decValue s ≤ intMax
  sign_wf : ∀ c ∈ sign, c = 's' ∨ c = 'S'
  base_wf : base ∈ kind.letters
  digits_wf : AllDigits kind.digit digits
  first_wf : digits.head? = some '_' → ∀ c ∈ digits, c = '_'

namespace BasedLiteral

variable (lit : BasedLiteral)

def text : Text := lit.size.getD [] ++ '\'' :: (lit.sign.toList ++ lit.base :: lit.digits)

def bitCount : Nat := (lit.size.map decValue).getD 32

def proper : Text := lit.digits.filter (· ≠ '_')

def padding : LogicT :=
  match lit.proper.head? with
  | some c => if c = 'x' ∨ c = 'X' then .X else if c = 'z' ∨ c = 'Z' then .Z else .L
  | none => .L

def digitsBits : List LogicT := lit.proper.flatMap fun c => ((lit.kind.digit c).getD []).reverse

/-- The bits of the literal, most significant first; `none` for a literal without digits. -/
def ieee : Option (List LogicT) :=
  if lit.proper = [] then none
  else if lit.kind = .dec then some (lowBits lit.bitCount (decValue lit.digits)).reverse
  else some (List.replicate (lit.bitCount - lit.digitsBits.length) lit.padding ++
    lit.digitsBits.drop (lit.digitsBits.length - lit.bitCount))

/-- Where the function has the value of the language: a number that fits `uint64_t`, or enough
digits or a leftmost digit that is not repeated; and where there is no digit, one of the two
texts that are rejected for another reason. -/
def Met : Prop :=
  if lit.proper = [] then lit.digits = [] ∧ (lit.kind = .dec ∨ lit.size = none ∧ lit.sign = none)
  else if lit.kind = .dec then decValue lit.digits < 2 ^ 64
  else lit.bitCount ≤ lit.kind.width * lit.proper.length ∨
    ∀ c ∈ lit.proper.head?, c ∉ ['x', 'X', 'z', 'Z']

end BasedLiteral

theorem parseLiteralBits_based (wantSign : Bool) {size rest : Text} (hs : '\'' ∉ size)
    (hlong : size ≠ [] ∨ rest.length ≠ 1) :
    parseLiteralBits (size ++ '\'' :: rest) wantSign = parseBased wantSign size rest := by
  have htake : (size ++ '\'' :: rest).takeWhile (· ≠ '\'') = size := by
    rw [takeWhile_append_of_pos]
    · simp
    · intro c hc
      simp only [ne_eq, decide_not, Bool.not_eq_true', decide_eq_false_iff_not]
      rintro rfl
      exact hs hc
  have hdrop : (size ++ '\'' :: rest).dropWhile (· ≠ '\'') = '\'' :: rest := by
    rw [dropWhile_append_of_pos]
    · simp
    · intro c hc
      simp only [ne_eq, decide_not, Bool.not_eq_true', decide_eq_false_iff_not]
      rintro rfl
      exact hs hc
  unfold parseLiteralBits
  split
  · next h => simp at h
  · next v h =>
    exfalso
    cases size with
    | nil =>
      rcases hlong with hnil | hone
      · exact hnil rfl
      · rw [nil_append, List.cons.injEq] at h
        rw [h.2] at hone
        exact hone rfl
    | cons c size =>
      rw [cons_append, List.cons.injEq] at h
      exact hs (h.1 ▸ mem_cons_self ..)
  · rw [if_pos (by simp), htake, hdrop]
    rfl

theorem AllDec.notMem (ht : AllDec t) : '\'' ∉ t := by
  intro hm
  rcases ht _ hm with h | h
  · exact absurd h (by decide)
  · exact absurd h (by decide)

theorem writeNumber_eq {width v : Nat} (hv : v ≤ uint64Max) :
    writeNumber width v false = (lowBits width v).reverse := by
  rw [writeNumber, lowBits]
  congr 1
  apply map_congr_left
  intro i _
  split
  · rfl
  · next hi =>
    have hlow : v < 2 ^ i := calc
      v < 2 ^ 64 := by rw [uint64Max] at hv; omega
      _ ≤ 2 ^ i := Nat.pow_le_pow_right (by omega) (by omega)
    rw [Nat.testBit_lt_two_pow hlow]

theorem bitsFromRight_reverse (digit : Char → Option (List LogicT)) (digits : Text) :
    (bitsFromRight digit digits).reverse =
      (digits.filter (· ≠ '_')).flatMap fun c => ((digit c).getD []).reverse := by
  induction digits with
  | nil => rfl
  | cons c digits ih =>
    rw [bitsFromRight, reverse_append, ih]
    by_cases hu : c = '_'
    · rw [if_pos hu, filter_cons_of_neg (by simp [hu])]
      rfl
    · rw [if_neg hu, filter_cons_of_pos (by simp [hu]), flatMap_cons]

namespace BasedLiteral

variable (lit : BasedLiteral)

theorem one_le_bitCount : 1 ≤ lit.bitCount := by
  rw [bitCount]
  cases hs : lit.size with
  | none => exact Nat.succ_le_of_lt (Nat.succ_pos 31)
  | some s => exact (lit.size_wf s hs).2.1

theorem parseWidth_size : parseWidth (lit.size.getD []) = some lit.bitCount := by
  rw [parseWidth, bitCount]
  cases hs : lit.size with
  | none => rfl
  | some s =>
    obtain ⟨hdec, hone, hmax⟩ := lit.size_wf s hs
    have hne : s ≠ [] := by
      rintro rfl
      exact absurd hone (by decide)
    have hfits : decValue s ≤ uint64Max := hmax.trans (by decide)
    simp only [getD_some, map_some, if_neg hne, parseDecUint64_eq hne hdec,
      if_pos hfits, bind_some]
    rw [if_neg (by omega)]

theorem parseBased_text (wantSign : Bool) :
    (parseBased wantSign (lit.size.getD []) (lit.sign.toList ++ lit.base :: lit.digits)).map Prod.fst =
      parseBaseDigits lit.bitCount (wantSign && lit.sign.isSome) (lit.base :: lit.digits) := by
  have hbase := lit.base_wf
  have hne : lit.sign.toList ++ lit.base :: lit.digits ≠ [] := by simp
  rw [parseBased, if_neg hne, parseWidth_size, bind_some]
  cases hs : lit.sign with
  | some c =>
    rcases lit.sign_wf c hs with rfl | rfl <;>
      simp [Option.map_map, Function.comp_def]
  | none =>
    have hnot : lit.base ≠ 's' ∧ lit.base ≠ 'S' := by
      constructor <;>
        · intro h
          rw [h] at hbase
          cases hk : lit.kind <;> rw [hk] at hbase <;> exact absurd hbase (by decide)
    simp only [Option.toList_none, nil_append, isSome_none, Bool.and_false]
    split
    · next h => exact absurd (List.cons.inj h).1 hnot.1
    · next h => exact absurd (List.cons.inj h).1 hnot.2
    · simp [Option.map_map, Function.comp_def]

theorem parseBaseDigits_kind (width : Nat) (signedLit : Bool) :
    parseBaseDigits width signedLit (lit.base :: lit.digits) =
      if lit.kind = .dec then parseDecBits width signedLit lit.digits
      else writeDigits lit.kind.digit width lit.digits := by
  have hbase := lit.base_wf
  cases hk : lit.kind <;> rw [hk] at hbase <;>
    rcases mem_pair.mp hbase with h | h <;> rw [h] <;> rfl

theorem parseLiteralBits_text (wantSign : Bool) :
    (parseLiteralBits lit.text wantSign).map Prod.fst =
      if lit.digits = [] ∧ lit.size = none ∧ lit.sign = none then none
      else if lit.kind = .dec then
        parseDecBits lit.bitCount (wantSign && lit.sign.isSome) lit.digits
      else writeDigits lit.kind.digit lit.bitCount lit.digits := by
  have hquote : '\'' ∉ lit.size.getD [] := by
    cases hs : lit.size with
    | none => simp
    | some s => exact (lit.size_wf s hs).1.notMem
  by_cases hshort : lit.digits = [] ∧ lit.size = none ∧ lit.sign = none
  · obtain ⟨hd, hz, hg⟩ := hshort
    have hbase := lit.base_wf
    rw [if_pos ⟨hd, hz, hg⟩, text, hd, hz, hg]
    cases hk : lit.kind <;> rw [hk] at hbase <;>
      rcases mem_pair.mp hbase with h | h <;> rw [h] <;> rfl
  · have hlong : lit.size.getD [] ≠ [] ∨ (lit.sign.toList ++ lit.base :: lit.digits).length ≠ 1 := by
      by_cases hz : lit.size = none
      · right
        intro hone
        rw [length_append, length_cons] at hone
        have hd : lit.digits = [] := length_eq_zero_iff.mp (by omega)
        have hg : lit.sign = none := by
          cases hs : lit.sign with
          | none => rfl
          | some c => rw [hs, Option.toList_some, length_singleton] at hone; omega
        exact hshort ⟨hd, hz, hg⟩
      · left
        obtain ⟨s, hs⟩ := Option.ne_none_iff_exists'.mp hz
        intro hnil
        rw [hs, getD_some] at hnil
        have hone := (lit.size_wf s hs).2.1
        rw [hnil] at hone
        exact absurd hone (by decide)
    rw [if_neg hshort, text, parseLiteralBits_based wantSign hquote hlong, parseBased_text,
      parseBaseDigits_kind]

theorem digitsBits_eq : lit.digitsBits = (bitsFromRight lit.kind.digit lit.digits).reverse :=
  (bitsFromRight_reverse _ _).symm

theorem length_digitsBits : lit.digitsBits.length = lit.kind.width * lit.proper.length := by
  have hall : ∀ c ∈ lit.proper, (lit.kind.digit c).isSome := by
    intro c hc
    obtain ⟨hmem, hu⟩ := mem_filter.mp hc
    exact (lit.digits_wf c hmem).resolve_left (by simpa using hu)
  rw [digitsBits]
  generalize lit.proper = proper at hall
  induction proper with
  | nil => rfl
  | cons c proper ih =>
    obtain ⟨vs, hvs⟩ := Option.isSome_iff_exists.mp (hall c (mem_cons_self ..))
    rw [flatMap_cons, length_append, ih fun c hc => hall c (mem_cons_of_mem _ hc), hvs,
      getD_some, length_reverse, Base.length_digit hvs, length_cons, Nat.mul_succ,
      Nat.add_comm]

theorem allDec_digits (hk : lit.kind = .dec) : AllDec lit.digits := by
  intro c hc
  have h := lit.digits_wf c hc
  rw [hk, Base.digit] at h
  refine h.imp id fun hsome => ?_
  by_contra hno
  simp only [hno, Bool.false_eq_true, if_false, isSome_none] at hsome

theorem padding_eq_low :
    lit.padding = .L ↔ ∀ c ∈ lit.proper.head?, c ∉ ['x', 'X', 'z', 'Z'] := by
  rw [padding]
  cases lit.proper.head? with
  | none => simp
  | some c =>
    simp only [Option.mem_def, some.injEq, forall_eq', mem_cons, not_mem_nil, or_false]
    split_ifs with hx hz
    · simp only [false_iff, not_not]
      exact hx.imp id Or.inl
    · simp only [false_iff, not_not]
      exact .inr (.inr hz)
    · simp only [true_iff]
      rintro (h | h | h)
      · exact hx (.inl h)
      · exact hx (.inr h)
      · exact hz h

theorem parseDecBits_iff (hk : lit.kind = .dec) (hne : lit.proper ≠ []) (signedLit : Bool) :
    parseDecBits lit.bitCount signedLit lit.digits = lit.ieee ↔ decValue lit.digits < 2 ^ 64 := by
  have hdec := lit.allDec_digits hk
  have hnil : lit.digits ≠ [] := by
    intro h
    rw [proper, h] at hne
    exact hne rfl
  have hminus : lit.digits.head? ≠ some '-' := by
    intro h
    rcases hdec _ (mem_of_head? h) with hc | hc <;> exact absurd hc (by decide)
  rw [parseDecBits, if_neg hminus, parseDecUint64_eq hnil hdec, ieee, if_neg hne, if_pos hk]
  have hmax : decValue lit.digits ≤ uint64Max ↔ decValue lit.digits < 2 ^ 64 := by
    rw [uint64Max]
    omega
  by_cases hv : decValue lit.digits ≤ uint64Max
  · rw [if_pos hv, map_some, writeNumber_eq hv, ← hmax]
    exact ⟨fun _ => hv, fun _ => rfl⟩
  · rw [if_neg hv, Option.map_none, ← hmax]
    exact ⟨fun h => (nomatch h), fun h => absurd h hv⟩

theorem writeDigits_iff (hk : lit.kind ≠ .dec) (hne : lit.proper ≠ []) :
    writeDigits lit.kind.digit lit.bitCount lit.digits = lit.ieee ↔
      lit.bitCount ≤ lit.kind.width * lit.proper.length ∨
        ∀ c ∈ lit.proper.head?, c ∉ ['x', 'X', 'z', 'Z'] := by
  have hbits := writeDigits_eq (Nat.lt_of_succ_le lit.one_le_bitCount) lit.digits_wf
  have hlen : lit.digitsBits.length = (bitsFromRight lit.kind.digit lit.digits).length := by
    rw [digitsBits_eq, length_reverse]
  have htail : ((bitsFromRight lit.kind.digit lit.digits).take lit.bitCount).reverse =
      lit.digitsBits.drop (lit.digitsBits.length - lit.bitCount) := by
    rw [hlen, digitsBits_eq, drop_reverse]
    congr 1
    rcases Nat.lt_or_ge lit.bitCount (bitsFromRight lit.kind.digit lit.digits).length with h | h
    · rw [Nat.sub_sub_self h.le]
    · rw [Nat.sub_eq_zero_of_le h, Nat.sub_zero, take_of_length_le h, take_length]
  rw [hbits, ieee, if_neg hne, if_neg hk, some.injEq, writtenBits, htail, ← hlen,
    append_left_inj, replicate_inj, ← length_digitsBits, ← padding_eq_low,
    Nat.sub_eq_zero_iff_le, eq_comm (a := LogicT.L)]
  simp

theorem parseLiteralBits_ieee_iff (wantSign : Bool) :
    (parseLiteralBits lit.text wantSign).map Prod.fst = lit.ieee ↔ lit.Met := by
  rw [parseLiteralBits_text, Met]
  by_cases hne : lit.proper = []
  · rw [ieee, if_pos hne, if_pos hne]
    by_cases hnil : lit.digits = []
    · by_cases hfill : lit.size = none ∧ lit.sign = none
      · simp [hnil, hfill]
      · by_cases hk : lit.kind = .dec
        · simp [hnil, hfill, hk, parseDecBits, parseDecUint64]
        · simp [hnil, hfill, hk, writeDigits]
    · -- only underscores: every loop passes over them
      simp only [hnil, false_and, if_false, iff_false]
      by_cases hk : lit.kind = .dec
      · have hdec := lit.allDec_digits hk
        have hall : ∀ c ∈ lit.digits, c = '_' := by
          simpa [proper, List.filter_eq_nil_iff] using hne
        have hminus : lit.digits.head? ≠ some '-' := by
          intro h
          exact absurd (hall _ (List.mem_of_head? h)) (by decide)
        have hzero : decValue lit.digits = 0 := by
          rw [decValue, decValueFrom]
          generalize lit.digits = digits at hall
          induction digits with
          | nil => rfl
          | cons c digits ih =>
            rw [List.foldl_cons, if_pos (hall c (List.mem_cons_self ..))]
            exact ih fun c hc => hall c (List.mem_cons_of_mem _ hc)
        rw [if_pos hk, parseDecBits, if_neg hminus, parseDecUint64_eq hnil hdec, hzero,
          if_pos (Nat.zero_le _)]
        exact fun h => nomatch h
      · rw [if_neg hk, writeDigits_eq (Nat.lt_of_succ_le lit.one_le_bitCount) lit.digits_wf]
        exact fun h => nomatch h
  · have hnil : lit.digits ≠ [] := by
      intro h
      rw [proper, h] at hne
      exact hne rfl
    rw [if_neg fun h => hnil h.1, if_neg hne]
    by_cases hk : lit.kind = .dec
    · rw [if_pos hk, if_pos hk]
      exact lit.parseDecBits_iff hk hne _
    · rw [if_neg hk, if_neg hk]
      exact lit.writeDigits_iff hk hne

def eightHexX : BasedLiteral where
  size := some ['8']
  sign := none
  kind := .hex
  base := 'h'
  digits := ['x']
  size_wf := by
    intro s hs
    cases hs
    exact ⟨fun c hc => .inr (List.mem_singleton.mp hc ▸ rfl), by decide, by decide⟩
  sign_wf := fun _ h => nomatch h
  base_wf := List.mem_cons_self ..
  digits_wf := fun c hc => .inr (List.mem_singleton.mp hc ▸ rfl)
  first_wf := fun h => absurd h (by decide)

theorem eightHexX_padded_low :
    (parseLiteralBits eightHexX.text true).map Prod.fst = some [.L, .L, .L, .L, .X, .X, .X, .X] ∧
      eightHexX.ieee = some [.X, .X, .X, .X, .X, .X, .X, .X] := by
  decide

end BasedLiteral

end PhyEngine.Verilog
