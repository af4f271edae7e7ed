import PhyEngine.Verilog.Lexer

/-!
# Reading a slice of tokens again

`tokens_to_text` writes a space between two words only, so two neighbours are read as they were
unless the lexer goes on with the first one into the second (`glues`). A slice with such a pair
is never read back (`length_render_le`).
-/

namespace PhyEngine.Verilog

open Munch List

abbrev Word := TokenKind × Text

def LexToken.word (t : LexToken) : Word := (t.kind, t.text)

def front : Text → Piece
  | [] => ⟨none, [], []⟩
  | c :: rest => scan c rest

/-- The words that the rounds of the loop take off a text. -/
inductive Lexes : Text → List Word → Prop
  | done : Lexes [] []
  | skip {c : Char} {rest : Text} {ws : List Word} (hk : (scan c rest).kind = none)
      (hrest : Lexes (scan c rest).rest ws) : Lexes (c :: rest) ws
  | token {c : Char} {rest : Text} {k : TokenKind} {ws : List Word} (hk : (scan c rest).kind = some k)
      (hrest : Lexes (scan c rest).rest ws) : Lexes (c :: rest) ((k, (scan c rest).text) :: ws)

theorem one_le_symbolLength (t : Text) : 1 ≤ symbolLength t := by
  rw [symbolLength]
  cases h : longSymbols.find? (·.isPrefixOf t) with
  | none => exact le_rfl
  | some s =>
    have hmem := mem_of_find?_eq_some h
    have hlen : ∀ s ∈ longSymbols, 1 ≤ s.length := by decide
    exact hlen s hmem

variable {σ : Type} {ok : σ → Char → Bool}

theorem Piece.ofMunch_append {next : σ → Char → σ} (s : σ)
    (kind : Option TokenKind) (c : Char) (rest : Text) :
    (Piece.ofMunch kind c (munch ok next s rest)).text ++
      (Piece.ofMunch kind c (munch ok next s rest)).rest = c :: rest :=
  congrArg (c :: ·) (munch_fst_append_snd s rest)

theorem scan_text_append_rest (c : Char) (rest : Text) :
    (scan c rest).text ++ (scan c rest).rest = c :: rest := by
  rw [scan]
  split_ifs with hspace hline hblock
  · rfl
  · exact Piece.ofMunch_append ..
  · obtain ⟨d, more, rfl⟩ : ∃ d more, rest = d :: more := exists_cons_of_ne_nil (by
      rintro rfl
      cases hblock.2)
    have hd : d = '*' := Option.some.inj hblock.2
    rw [hd, tail_cons, cons_append, cons_append, blockComment_append]
  · exact Piece.ofMunch_append ..
  · exact Piece.ofMunch_append ..
  · exact congrArg (c :: ·) (take_append_drop 1 rest)
  · exact Piece.ofMunch_append ..
  · exact Piece.ofMunch_append ..
  · exact take_append_drop _ _

theorem scan_text_ne_nil (c : Char) (rest : Text) : (scan c rest).text ≠ [] := by
  have hone := one_le_symbolLength (c :: rest)
  rw [scan]
  split_ifs
  all_goals
    first
    | exact cons_ne_nil _ _
    | (intro h
       rw [take_eq_nil_iff] at h
       rcases h with h | h
       · omega
       · cases h)

theorem length_scan_rest (c : Char) (rest : Text) : (scan c rest).rest.length ≤ rest.length := by
  have happend := congrArg List.length (scan_text_append_rest c rest)
  have hpos := length_pos_iff.mpr (scan_text_ne_nil c rest)
  rw [length_append, length_cons] at happend
  omega

theorem lexLoop_words (smap : Option (List SourcePosition)) {fuel : Nat} (offset : Nat)
    (p : SourcePosition) {src : Text} (hf : src.length ≤ fuel) :
    ∃ ws, Lexes src ws ∧
      (lexLoop smap fuel offset p src).tokens.map LexToken.word = ws ++ [(.eof, [])] := by
  induction fuel generalizing offset p src with
  | zero =>
    rw [length_eq_zero_iff.mp (Nat.le_zero.mp hf)]
    exact ⟨[], .done, rfl⟩
  | succ fuel ih =>
    cases src with
    | nil => exact ⟨[], .done, rfl⟩
    | cons c rest =>
      have hlen := length_scan_rest c rest
      rw [length_cons] at hf
      have hfuel : (scan c rest).rest.length ≤ fuel := by omega
      obtain ⟨ws, hws, heq⟩ := ih (offset + (scan c rest).text.length)
        ((scan c rest).text.foldl bump p) hfuel
      rw [lexLoop]
      dsimp only
      cases hk : (scan c rest).kind with
      | none => exact ⟨ws, .skip hk hws, heq⟩
      | some k => exact ⟨_, .token hk hws, congrArg ((k, (scan c rest).text) :: ·) heq⟩

theorem lex_words (src : Text) (smap : Option (List SourcePosition)) :
    ∃ ws, Lexes src ws ∧ (lex src smap).tokens.map LexToken.word = ws ++ [(.eof, [])] :=
  lexLoop_words smap 0 ⟨1, 1⟩ le_rfl

variable {t w r u : Text} {us : List Word} {c b : Char} {k : TokenKind}

namespace Lexes

variable {ws : List Word}

theorem unique (h : Lexes t ws) (hu : Lexes t us) : ws = us := by
  induction h generalizing us with
  | done =>
    cases hu
    rfl
  | skip hk _ ih =>
    cases hu with
    | skip _ hrest => exact ih hrest
    | token hk' _ => rw [hk] at hk'; cases hk'
  | token hk _ ih =>
    cases hu with
    | skip hk' _ => rw [hk] at hk'; cases hk'
    | token hk' hrest =>
      rw [hk, Option.some.injEq] at hk'
      rw [hk', ih hrest]

theorem skip_iff {rest : Text} (hk : (scan c rest).kind = none) :
    Lexes (c :: rest) ws ↔ Lexes (scan c rest).rest ws := by
  refine ⟨fun h => ?_, skip hk⟩
  cases h with
  | skip _ hrest => exact hrest
  | token hk' _ => rw [hk] at hk'; cases hk'

theorem cons_of_front {v : Text} (hf : front (w ++ v) = ⟨some k, w, v⟩) (hv : Lexes v ws) :
    Lexes (w ++ v) ((k, w) :: ws) := by
  cases ht : w ++ v with
  | nil =>
    rw [ht] at hf
    cases hf
  | cons c rest =>
    rw [ht, front] at hf
    have h := @token c rest k ws (by rw [hf]) (by rw [hf]; exact hv)
    rw [hf] at h
    exact h

theorem front_of_cons (h : Lexes t ((k, w) :: ws)) :
    ∃ skipped v, t = skipped ++ (w ++ v) ∧ front (w ++ v) = ⟨some k, w, v⟩ ∧ Lexes v ws := by
  generalize hx : (k, w) :: ws = words at h
  induction h with
  | done => cases hx
  | @skip c rest _ hk _ ih =>
    obtain ⟨skipped, v, heq, hf, hv⟩ := ih hx
    refine ⟨(scan c rest).text ++ skipped, v, ?_, hf, hv⟩
    rw [append_assoc, ← heq, scan_text_append_rest]
  | @token c rest k' _ hk hrest ih =>
    rw [List.cons.injEq, Prod.mk.injEq] at hx
    obtain ⟨⟨rfl, rfl⟩, rfl⟩ := hx
    refine ⟨[], (scan c rest).rest, (scan_text_append_rest c rest).symm, ?_, hrest⟩
    rw [scan_text_append_rest, front, ← hk]

theorem exists_front (h : Lexes t ws) (hm : (k, w) ∈ ws) : ∃ v, front (w ++ v) = ⟨some k, w, v⟩ := by
  induction h with
  | done => cases hm
  | skip _ _ ih => exact ih hm
  | @token c rest k' _ hk _ ih =>
    rcases mem_cons.mp hm with heq | hm
    · obtain ⟨rfl, rfl⟩ := Prod.mk.inj heq
      refine ⟨(scan c rest).rest, ?_⟩
      rw [scan_text_append_rest, front, ← hk]
    · exact ih hm

end Lexes

def IsWord (t : Word) : Prop := ∃ v, front (t.2 ++ v) = ⟨some t.1, t.2, v⟩

variable {p : Char → Prop}

theorem forall_of_all {l : List Char} [DecidablePred p] (h : (l.all fun c => p c) = true) :
    ∀ c ∈ l, p c := by
  intro c hc
  exact of_decide_eq_true (all_eq_true.mp h c hc)

theorem forall_isSpace (h : ∀ c ∈ [' ', '\t', '\n', '\r', '\x0c', '\x0b'], ¬ p c) (hc : p c) :
    isSpace c = false := by
  by_contra hs
  rw [Bool.not_eq_false, isSpace, decide_eq_true_eq] at hs
  exact h c hs hc

theorem scan_ident (hc : isAlpha c = true ∨ c = '$') (rest : Text) :
    scan c rest = .ofMunch (some .identifier) c
      (munch (fun _ c => isIdentContinue c) (fun s _ => s) () rest) := by
  have hspace : isSpace c = false :=
    forall_isSpace (p := fun c => isAlpha c = true ∨ c = '$') (forall_of_all (by decide)) hc
  have hslash : c ≠ '/' := by
    rintro rfl
    exact absurd hc (by decide)
  have hquote : c ≠ '"' := by
    rintro rfl
    exact absurd hc (by decide)
  rw [scan, if_neg (by rw [hspace]; exact Bool.false_ne_true), if_neg fun h => hslash h.1,
    if_neg fun h => hslash h.1, if_neg hquote, if_pos hc]

theorem scan_digit (hc : isDigit c = true) (rest : Text) :
    scan c rest = .ofMunch (some .number) c (munch numberOk numberNext (numberStart c) rest) := by
  have hspace : isSpace c = false := forall_isSpace (p := fun c => isDigit c = true) (forall_of_all (by decide)) hc
  have hslash : c ≠ '/' := by
    rintro rfl
    exact absurd hc (by decide)
  have hquote : c ≠ '"' := by
    rintro rfl
    exact absurd hc (by decide)
  have happos : c ≠ '\'' := by
    rintro rfl
    exact absurd hc (by decide)
  have halpha : ¬ (isAlpha c = true ∨ c = '$') := by
    have hrange : 48 ≤ c.toNat ∧ c.toNat ≤ 57 := of_decide_eq_true hc
    rintro (h | rfl)
    · have h' := of_decide_eq_true h
      rcases h' with ⟨h₁, -⟩ | ⟨h₁, -⟩ | rfl
      · have : 97 ≤ c.toNat := h₁
        omega
      · have : 65 ≤ c.toNat := h₁
        omega
      · exact absurd hrange (by decide)
    · exact absurd hrange (by decide)
  rw [scan, if_neg (by rw [hspace]; exact Bool.false_ne_true), if_neg fun h => hslash h.1,
    if_neg fun h => hslash h.1, if_neg hquote, if_neg halpha, if_neg fun h => happos h.1,
    if_neg fun h => happos h.1, if_pos hc]

theorem scan_quote (rest : Text) :
    scan '"' rest = .ofMunch (some .symbol) '"' (munch stringOk stringNext .inside rest) := rfl

/-- A character that begins neither a blank, a string nor a word, except that an apostrophe may
begin a number. -/
def isPlain (c : Char) : Bool :=
  !isSpace c && c ≠ '"' && !isAlpha c && c ≠ '$' && !isDigit c

theorem scan_plain (hc : isPlain c = true) (rest : Text) :
    scan c rest =
      if c = '/' ∧ rest.head? = some '/' then
        .ofMunch none c (munch (fun _ c => c ≠ '\n') (fun s _ => s) () rest)
      else if c = '/' ∧ rest.head? = some '*' then
        ⟨none, c :: '*' :: (blockComment rest.tail).1, (blockComment rest.tail).2⟩
      else if c = '\'' ∧ rest.head?.any isFill then ⟨some .number, c :: rest.take 1, rest.drop 1⟩
      else if c = '\'' ∧ (baseMark rest).isSome then
        .ofMunch (some .number) c (munch (basedOk ((baseMark rest).getD c)) basedNext '\'' rest)
      else ⟨some .symbol, (c :: rest).take (symbolLength (c :: rest)),
        (c :: rest).drop (symbolLength (c :: rest))⟩ := by
  simp only [isPlain, Bool.and_eq_true, Bool.not_eq_true', decide_eq_true_eq, ne_eq] at hc
  obtain ⟨⟨⟨⟨hspace, hquote⟩, halpha⟩, hdollar⟩, hdigit⟩ := hc
  have hident : ¬ (isAlpha c = true ∨ c = '$') := by
    rintro (h | h)
    · rw [halpha] at h
      cases h
    · exact hdollar h
  rw [scan, if_neg (by rw [hspace]; exact Bool.false_ne_true), if_neg hquote, if_neg hident]
  simp only [hdigit, Bool.false_eq_true, if_false]

theorem class_of_scan {rest : Text} (h : (scan c rest).kind ≠ none) :
    c = '"' ∨ (isAlpha c = true ∨ c = '$') ∨ isDigit c = true ∨ isPlain c = true := by
  by_cases hquote : c = '"'
  · exact .inl hquote
  · by_cases hident : isAlpha c = true ∨ c = '$'
    · exact .inr (.inl hident)
    · by_cases hdigit : isDigit c = true
      · exact .inr (.inr (.inl hdigit))
      · refine .inr (.inr (.inr ?_))
        have hspace : isSpace c = false := by
          by_contra hs
          rw [Bool.not_eq_false] at hs
          rw [scan, if_pos hs] at h
          exact h rfl
        rw [not_or] at hident
        simp [isPlain, hspace, hquote, hident, hdigit]

theorem length_longSymbols : ∀ s ∈ longSymbols, s.length = 2 ∨ s.length = 3 := by decide

theorem take_two_longSymbols : ∀ s ∈ longSymbols, s.take 2 ∈ longSymbols := by decide

theorem symbolLength_cases (t : Text) :
    (∃ s ∈ longSymbols, s <+: t ∧ symbolLength t = s.length) ∨
      (∀ s ∈ longSymbols, ¬ s <+: t) ∧ symbolLength t = 1 := by
  rw [symbolLength]
  cases h : longSymbols.find? (·.isPrefixOf t) with
  | none =>
    refine .inr ⟨fun s hs hp => ?_, rfl⟩
    exact (find?_eq_none.mp h) s hs (List.isPrefixOf_iff_prefix.mpr hp)
  | some s =>
    have hp := find?_some h
    exact .inl ⟨s, mem_of_find?_eq_some h, List.isPrefixOf_iff_prefix.mp hp, rfl⟩

theorem take_symbol (t : Text) :
    t.take (symbolLength t) ∈ longSymbols ∨ t.take (symbolLength t) = t.take 1 := by
  rcases symbolLength_cases t with ⟨s, hs, hp, hlen⟩ | ⟨-, hone⟩
  · left
    rw [hlen, ← prefix_iff_eq_take.mp hp]
    exact hs
  · right
    rw [hone]

theorem symbolLength_single (c : Char) (v : Text) :
    symbolLength (c :: v) = 1 ↔ ∀ a ∈ v.head?, [c] ++ [a] ∉ longSymbols := by
  constructor
  · intro hone a ha hmem
    obtain ⟨v, rfl⟩ : ∃ u, v = a :: u := ⟨v.tail, (cons_head?_tail ha).symm⟩
    rcases symbolLength_cases (c :: a :: v) with ⟨s, hs, -, hlen⟩ | ⟨hnone, -⟩
    · have := length_longSymbols s hs
      omega
    · exact hnone _ hmem ⟨v, rfl⟩
  · intro hfree
    rcases symbolLength_cases (c :: v) with ⟨s, hs, hp, -⟩ | ⟨-, hone⟩
    · exfalso
      have hlen : 2 ≤ s.length := by
        have := length_longSymbols s hs
        omega
      have htake : s.take 2 = (c :: v).take 2 := by
        obtain ⟨u, hu⟩ := hp
        rw [← hu, take_append_of_le_length hlen]
      cases v with
      | nil =>
        have := congrArg List.length htake
        rw [length_take, length_take, length_singleton] at this
        omega
      | cons a v =>
        refine hfree a rfl ?_
        have h := take_two_longSymbols s hs
        rw [htake] at h
        exact h
    · exact hone

theorem longSymbols_three :
    ∀ s ∈ longSymbols, s.length = 3 → s = ['=', '=', '='] ∨ s = ['!', '=', '='] := by
  decide

theorem symbolLength_table (hw : w ∈ longSymbols) (v : Text) :
    symbolLength (w ++ v) = w.length ↔ ∀ a ∈ v.head?, w ++ [a] ∉ longSymbols := by
  rcases length_longSymbols w hw with htwo | hthree
  · constructor
    · intro hlen a ha hmem
      obtain ⟨v, rfl⟩ : ∃ u, v = a :: u := ⟨v.tail, (cons_head?_tail ha).symm⟩
      have hsplit : w ++ a :: v = (w ++ [a]) ++ v := by rw [append_assoc]; rfl
      rw [hsplit] at hlen
      rcases longSymbols_three _ hmem (by rw [length_append, length_singleton]; omega) with h | h
      · rw [h] at hlen
        have hcount : symbolLength (['=', '=', '='] ++ v) = 3 := rfl
        omega
      · rw [h] at hlen
        have hcount : symbolLength (['!', '=', '='] ++ v) = 3 := rfl
        omega
    · intro hfree
      rcases symbolLength_cases (w ++ v) with ⟨s, hs, hp, hlen⟩ | ⟨hnone, -⟩
      · rw [hlen, htwo]
        rcases length_longSymbols s hs with h | h
        · exact h
        · exfalso
          obtain ⟨u, hu⟩ := hp
          cases v with
          | nil =>
            have := congrArg List.length hu
            rw [length_append, append_nil] at this
            omega
          | cons a v =>
            refine hfree a rfl ?_
            have heq : s = w ++ [a] := by
              have htake := congrArg (List.take 3) hu
              rw [take_append_of_le_length h.ge, take_of_length_le h.le,
                show w ++ a :: v = (w ++ [a]) ++ v by rw [append_assoc]; rfl,
                take_append_of_le_length (by rw [length_append, length_singleton]; omega),
                take_of_length_le (by rw [length_append, length_singleton]; omega)] at htake
              exact htake
            rw [← heq]
            exact hs
      · exact absurd ⟨v, rfl⟩ (hnone w hw)
  · have hfree : ∀ a ∈ v.head?, w ++ [a] ∉ longSymbols := by
      intro a _ hmem
      have := length_longSymbols _ hmem
      rw [length_append, length_singleton] at this
      omega
    refine ⟨fun _ => hfree, fun _ => ?_⟩
    rcases longSymbols_three w hw hthree with rfl | rfl
    · rfl
    · rfl

local instance lawfulBEq_symbol : LawfulBEq Text := inferInstance

/-- The lexer reads on behind the word when the text `v` follows it. -/
def goesOn : Word → Text → Bool
  | (.symbol, '"' :: r), v => v.head?.any (stringOk (r.foldl stringNext .inside))
  | (.symbol, ['/']), v => v.head?.any (· ∈ ['/', '*'])
  | (.symbol, ['\'']), v => v.head?.any isFill || (baseMark v).isSome
  | (.symbol, w), v => v.head?.any fun a => w ++ [a] ∈ longSymbols
  | (.number, '\'' :: r), v =>
    if r.head?.any isFill then false
    else v.head?.any (basedOk ((baseMark r).getD '\'') (r.foldl basedNext '\''))
  | (.number, c :: r), v => v.head?.any (numberOk (r.foldl numberNext (numberStart c)))
  | (.identifier, _), v => v.head?.any isIdentContinue
  | _, _ => false

theorem goesOn_number (hc : c ≠ '\'') (r v : Text) :
    goesOn (.number, c :: r) v = v.head?.any (numberOk (r.foldl numberNext (numberStart c))) := by
  unfold goesOn
  split <;> first | rfl | simp_all

theorem any_head_eq_false (v : Text) (p : Char → Bool) :
    v.head?.any p = false ↔ ∀ a ∈ v.head?, p a = false := by
  cases v with
  | nil => simp
  | cons a v => simp

theorem ofMunch_eq_iff {next : σ → Char → σ} {s : σ} {kind : Option TokenKind}
    (hu : Piece.ofMunch kind c (munch ok next s (r ++ u)) = ⟨kind, c :: r, u⟩) (v : Text) :
    Piece.ofMunch kind c (munch ok next s (r ++ v)) = ⟨kind, c :: r, v⟩ ↔
      v.head?.any (ok (r.foldl next s)) = false := by
  have hmunch (t : Text) : Piece.ofMunch kind c (munch ok next s (r ++ t)) = ⟨kind, c :: r, t⟩ ↔
      munch ok next s (r ++ t) = (r, t) := by
    rw [Piece.ofMunch, Piece.mk.injEq, List.cons.injEq, Prod.ext_iff]
    simp
  rw [hmunch, munch_append_of_munch ((hmunch u).mp hu), any_head_eq_false]

theorem front_iff_of_machine (hclass : c = '"' ∨ (isAlpha c = true ∨ c = '$') ∨ isDigit c = true)
    (hu : scan c (r ++ u) = ⟨some k, c :: r, u⟩) (v : Text) :
    scan c (r ++ v) = ⟨some k, c :: r, v⟩ ↔ goesOn (k, c :: r) v = false := by
  rcases hclass with rfl | hident | hdigit
  · rw [scan_quote] at hu ⊢
    obtain rfl : TokenKind.symbol = k := Option.some.inj (congrArg Piece.kind hu)
    exact ofMunch_eq_iff hu v
  · rw [scan_ident hident] at hu ⊢
    obtain rfl : TokenKind.identifier = k := Option.some.inj (congrArg Piece.kind hu)
    exact ofMunch_eq_iff hu v
  · rw [scan_digit hdigit] at hu ⊢
    obtain rfl : TokenKind.number = k := Option.some.inj (congrArg Piece.kind hu)
    have happos : c ≠ '\'' := by
      rintro rfl
      exact absurd hdigit (by decide)
    rw [goesOn_number happos]
    exact ofMunch_eq_iff hu v

theorem symbolLength_le (c : Char) (t : Text) : symbolLength (c :: t) ≤ (c :: t).length := by
  rcases symbolLength_cases (c :: t) with ⟨s, -, hp, hlen⟩ | ⟨-, hone⟩
  · rw [hlen]
    exact hp.length_le
  · rw [hone, length_cons]
    omega

theorem symbol_eq_iff (c : Char) (r v : Text) :
    (⟨some .symbol, (c :: (r ++ v)).take (symbolLength (c :: (r ++ v))),
        (c :: (r ++ v)).drop (symbolLength (c :: (r ++ v)))⟩ : Piece) = ⟨some .symbol, c :: r, v⟩ ↔
      symbolLength (c :: r ++ v) = (c :: r).length := by
  have hle := symbolLength_le c (r ++ v)
  rw [← cons_append] at hle ⊢
  rw [Piece.mk.injEq]
  constructor
  · intro h
    have hlen := congrArg List.length h.2.1
    rw [length_take, Nat.min_eq_left hle] at hlen
    exact hlen
  · intro h
    rw [h, take_left, drop_left]
    exact ⟨rfl, rfl, rfl⟩

theorem symbolLength_iff (hu : (c :: (r ++ u)).take (symbolLength (c :: (r ++ u))) = c :: r) (v : Text) :
    symbolLength (c :: r ++ v) = (c :: r).length ↔ ∀ a ∈ v.head?, c :: r ++ [a] ∉ longSymbols := by
  rcases take_symbol (c :: (r ++ u)) with hmem | hone
  · rw [hu] at hmem
    exact symbolLength_table hmem v
  · rw [hu, take_succ_cons, take_zero, List.cons.injEq] at hone
    rw [hone.2]
    exact symbolLength_single c v

theorem baseMark_append (h : baseMark r = some b) (v : Text) :
    baseMark (r ++ v) = some b := by
  cases r with
  | nil => cases h
  | cons c r =>
    rw [baseMark] at h
    rw [cons_append, baseMark]
    split_ifs at h ⊢
    · cases r with
      | nil => cases h
      | cons d r => exact h
    · exact h

theorem isAlpha_of_isBase (h : isBase b = true) : isAlpha b = true := by
  rw [isBase, decide_eq_true_eq] at h
  exact forall_of_all (p := fun b => isAlpha b = true) (by decide) b h

theorem baseMark_cases (h : baseMark t = some b) :
    isBase b = true ∧
      ((∃ rest, t = b :: rest) ∨ ∃ s rest, (s = 's' ∨ s = 'S') ∧ t = s :: b :: rest) := by
  cases t with
  | nil => cases h
  | cons c t =>
    rw [baseMark] at h
    split_ifs at h with hs hb
    · obtain ⟨hhead, hb⟩ := Option.filter_eq_some_iff.mp h
      cases t with
      | nil => cases hhead
      | cons d t =>
        obtain rfl : d = b := Option.some.inj hhead
        exact ⟨hb, .inr ⟨c, t, hs, rfl⟩⟩
    · obtain rfl : c = b := Option.some.inj h
      exact ⟨hb, .inl ⟨t, rfl⟩⟩

theorem baseMark_word (hb : baseMark (r ++ u) = some b)
    (hstop : ∀ a ∈ u.head?, basedOk b (r.foldl basedNext '\'') a = false) : baseMark r = some b := by
  have halpha {a p : Char} (h : isAlpha a = true) : basedOk b p a = true := by
    rw [basedOk, h]
    rfl
  obtain ⟨hbase, ⟨rest, heq⟩ | ⟨s, rest, hs, heq⟩⟩ := baseMark_cases hb
  · cases r with
    | nil =>
      have := hstop b (by rw [← nil_append u, heq]; rfl)
      rw [halpha (isAlpha_of_isBase hbase)] at this
      cases this
    | cons c r =>
      rw [cons_append, List.cons.injEq] at heq
      rw [heq.1, baseMark, if_neg, if_pos hbase]
      rintro (rfl | rfl) <;> exact absurd hbase (by decide)
  · cases r with
    | nil =>
      have := hstop s (by rw [← nil_append u, heq]; rfl)
      rw [halpha (by rcases hs with rfl | rfl <;> rfl)] at this
      cases this
    | cons c r =>
      rw [cons_append, List.cons.injEq] at heq
      obtain ⟨rfl, heq⟩ := heq
      cases r with
      | nil =>
        have := hstop b (by rw [← nil_append u, heq]; rfl)
        rw [halpha (isAlpha_of_isBase hbase)] at this
        cases this
      | cons d r =>
        rw [cons_append, List.cons.injEq] at heq
        rw [heq.1, baseMark, if_pos hs]
        exact Option.filter_eq_some_iff.mpr ⟨rfl, hbase⟩

theorem baseMark_not_isFill (h : baseMark t = some b) :
    t.head?.any isFill = false := by
  have hdisjoint : ∀ b ∈ ['b', 'B', 'o', 'O', 'd', 'D', 'h', 'H'], isFill b = false :=
    forall_of_all (by decide)
  obtain ⟨hbase, ⟨rest, rfl⟩ | ⟨s, rest, rfl | rfl, rfl⟩⟩ := baseMark_cases h
  · rw [isBase, decide_eq_true_eq] at hbase
    exact hdisjoint b hbase
  · rfl
  · rfl

theorem longSymbols_head :
    ∀ s ∈ longSymbols, s.head? ≠ some '/' ∧ s.head? ≠ some '\'' ∧ s.head? ≠ some '"' := by decide

theorem goesOn_symbol (hquote : c ≠ '"') (hslash : c :: r ≠ ['/']) (happos : c :: r ≠ ['\'']) (v : Text) :
    goesOn (.symbol, c :: r) v = v.head?.any fun a => c :: r ++ [a] ∈ longSymbols := by
  unfold goesOn
  split <;> first | rfl | simp_all

theorem front_iff_of_apostrophe (hk : k = .number) (hu : scan '\'' (r ++ u) = ⟨some k, '\'' :: r, u⟩) (v : Text) :
    scan '\'' (r ++ v) = ⟨some k, '\'' :: r, v⟩ ↔ goesOn (k, '\'' :: r) v = false := by
  have hplain : isPlain '\'' = true := by decide
  have hslash : '\'' ≠ '/' := by decide
  subst hk
  rw [scan_plain hplain, if_neg fun h => hslash h.1, if_neg fun h => hslash h.1] at hu ⊢
  by_cases hfill : (r ++ u).head?.any isFill = true
  · -- a fill literal is its two characters, whatever follows
    rw [if_pos ⟨rfl, hfill⟩, Piece.mk.injEq, List.cons.injEq] at hu
    obtain ⟨f, rest, heq⟩ : ∃ f rest, r ++ u = f :: rest := by
      cases h : r ++ u with
      | nil =>
        rw [h] at hfill
        cases hfill
      | cons f rest => exact ⟨f, rest, rfl⟩
    rw [heq] at hu hfill
    obtain rfl : [f] = r := hu.2.1.2
    have hf : isFill f = true := hfill
    rw [if_pos ⟨rfl, by rw [singleton_append]; exact hf⟩]
    simp [goesOn, hf]
  · rw [if_neg fun h => hfill h.2] at hu
    by_cases hbase : (baseMark (r ++ u)).isSome = true
    · rw [if_pos ⟨rfl, hbase⟩] at hu
      obtain ⟨b, hb⟩ := Option.isSome_iff_exists.mp hbase
      rw [hb, Option.getD_some] at hu
      have hmunch : munch (basedOk b) basedNext '\'' (r ++ u) = (r, u) := by
        rw [Piece.ofMunch, Piece.mk.injEq, List.cons.injEq] at hu
        exact Prod.ext hu.2.1.2 hu.2.2
      have hword := baseMark_word hb ((munch_append_iff '\'' r u).mp hmunch).2
      have hall := baseMark_append hword v
      have hnofill := baseMark_not_isFill hword
      have hnofill' := baseMark_not_isFill hall
      rw [if_neg (by rw [hnofill']; exact fun h => Bool.false_ne_true h.2),
        if_pos ⟨rfl, by rw [hall]; rfl⟩, hall, Option.getD_some, ofMunch_eq_iff hu v]
      simp only [goesOn, hnofill, hword, Option.getD_some, Bool.false_eq_true, if_false]
    · rw [if_neg fun h => hbase h.2] at hu
      cases congrArg Piece.kind hu

theorem front_iff_of_symbol (hplain : isPlain c = true) (hu : scan c (r ++ u) = ⟨some .symbol, c :: r, u⟩) (v : Text) :
    scan c (r ++ v) = ⟨some .symbol, c :: r, v⟩ ↔ goesOn (.symbol, c :: r) v = false := by
  have hquote : c ≠ '"' := by
    rintro rfl
    exact absurd hplain (by decide)
  -- only the last branch leaves a symbol
  have htake : (c :: (r ++ u)).take (symbolLength (c :: (r ++ u))) = c :: r := by
    rw [scan_plain hplain] at hu
    split_ifs at hu
    all_goals first | exact congrArg Piece.text hu | cases congrArg Piece.kind hu
  have hlen := symbolLength_iff htake v
  have hlone (hc : c = '/' ∨ c = '\'') : r = [] ∧ symbolLength (c :: r ++ v) = (c :: r).length := by
    have hfree : ∀ s ∈ longSymbols, s.head? ≠ some c := by
      intro s hs
      rcases hc with rfl | rfl
      · exact (longSymbols_head s hs).1
      · exact (longSymbols_head s hs).2.1
    refine ⟨?_, hlen.mpr fun a _ hmem => hfree _ hmem rfl⟩
    rcases take_symbol (c :: (r ++ u)) with hmem | hone
    · exact absurd rfl (hfree _ (htake ▸ hmem))
    · rw [htake, take_succ_cons, take_zero, List.cons.injEq] at hone
      exact hone.2
  rw [scan_plain hplain]
  by_cases hslash : c = '/'
  · obtain ⟨hr, hone⟩ := hlone (.inl hslash)
    have hsymbol := (symbol_eq_iff c r v).mpr hone
    have happos : c ≠ '\'' := by
      rw [hslash]
      decide
    rw [if_neg (c := c = '\'' ∧ _) fun h => happos h.1, if_neg (c := c = '\'' ∧ _) fun h => happos h.1,
      hsymbol, hr, nil_append]
    subst hslash
    cases v with
    | nil => simp [goesOn]
    | cons a v =>
      simp only [head?_cons, Option.some.injEq, true_and, goesOn, Option.any_some]
      by_cases h₁ : a = '/'
      · simp [h₁, Piece.ofMunch]
      · by_cases h₂ : a = '*'
        · simp [h₂]
        · simp [h₁, h₂]
  · rw [if_neg fun h => hslash h.1, if_neg fun h => hslash h.1]
    by_cases happos : c = '\''
    · obtain ⟨hr, hone⟩ := hlone (.inr happos)
      have hsymbol := (symbol_eq_iff c r v).mpr hone
      rw [hsymbol, hr, nil_append]
      subst happos
      simp only [goesOn, Bool.or_eq_false_iff, true_and]
      split_ifs with h₁ h₂
      · simp [h₁]
      · simp [h₂, Piece.ofMunch]
      · simp [h₁, h₂]
    · rw [if_neg fun h => happos h.1, if_neg fun h => happos h.1, symbol_eq_iff, hlen,
        goesOn_symbol hquote (fun h => hslash (List.cons.inj h).1) fun h => happos (List.cons.inj h).1,
        any_head_eq_false]
      simp

/-- A word is read before a text as it was read once before another one, unless the lexer goes
on behind it. -/
theorem front_iff (hw : IsWord (k, w)) (v : Text) :
    front (w ++ v) = ⟨some k, w, v⟩ ↔ goesOn (k, w) v = false := by
  obtain ⟨u, hu⟩ := hw
  cases w with
  | nil =>
    exfalso
    cases u with
    | nil => cases hu
    | cons c u => exact scan_text_ne_nil c u (congrArg Piece.text hu)
  | cons c r =>
    have hscan : scan c (r ++ u) = ⟨some k, c :: r, u⟩ := hu
    have hkind : (scan c (r ++ u)).kind ≠ none := by
      rw [hscan]
      exact fun h => nomatch h
    rcases class_of_scan hkind with h | h | h | hplain
    · exact front_iff_of_machine (.inl h) hscan v
    · exact front_iff_of_machine (.inr (.inl h)) hscan v
    · exact front_iff_of_machine (.inr (.inr h)) hscan v
    · cases k with
      | symbol => exact front_iff_of_symbol hplain hscan v
      | number =>
        have happos : c = '\'' := by
          by_contra hne
          rw [scan_plain hplain, if_neg (c := c = '\'' ∧ _) fun h => hne h.1,
            if_neg (c := c = '\'' ∧ _) fun h => hne h.1] at hscan
          split_ifs at hscan
          all_goals cases congrArg Piece.kind hscan
        subst happos
        exact front_iff_of_apostrophe rfl hscan v
      | identifier | eof =>
        exfalso
        rw [scan_plain hplain] at hscan
        split_ifs at hscan
        all_goals cases congrArg Piece.kind hscan

def wordLike (t : Word) : Bool := t.1 = .identifier || t.1 = .number

/-- What `tokens_to_text` writes between a token and the next one. -/
def gap (t : Word) (ts : List Word) : Text :=
  if wordLike t ∧ ts.head?.any wordLike then [' '] else []

def render : List Word → Text
  | [] => []
  | t :: ts => t.2 ++ (gap t ts ++ render ts)

/-- Two neighbours that are not read as they were. -/
def glues (a b : Word) : Bool := !(wordLike a && wordLike b) && goesOn a b.2

theorem IsWord.exists_cons {t : Word} (h : IsWord t) : ∃ c r, t.2 = c :: r ∧ isSpace c = false := by
  obtain ⟨k, w⟩ := t
  obtain ⟨u, hu⟩ := h
  cases w with
  | nil =>
    cases u with
    | nil => cases hu
    | cons c u => exact absurd (congrArg Piece.text hu) (scan_text_ne_nil c u)
  | cons c r =>
    refine ⟨c, r, rfl, ?_⟩
    by_contra hs
    rw [Bool.not_eq_false] at hs
    have hscan : scan c (r ++ u) = ⟨some k, c :: r, u⟩ := hu
    rw [scan, if_pos hs] at hscan
    cases congrArg Piece.kind hscan

theorem IsWord.kind_of_isAlpha (h : IsWord (k, c :: r)) (hc : isAlpha c = true) : k = .identifier := by
  obtain ⟨u, hu⟩ := h
  have hscan : scan c (r ++ u) = ⟨some k, c :: r, u⟩ := hu
  rw [scan_ident (.inl hc)] at hscan
  exact (Option.some.inj (congrArg Piece.kind hscan)).symm

theorem goesOn_space {t : Word} (ht : wordLike t = true) (v : Text) : goesOn t (' ' :: v) = false := by
  obtain ⟨k, w⟩ := t
  cases k with
  | identifier => rfl
  | number =>
    cases w with
    | nil => rfl
    | cons c r =>
      by_cases hc : c = '\''
      · rw [hc, goesOn]
        split
        · rfl
        · rfl
      · rw [goesOn_number hc]
        rfl
  | symbol | eof => cases ht

variable {ts : List Word}

theorem baseMark_render {t : Word} (ht : IsWord t) (hts : ∀ t ∈ ts, IsWord t) :
    baseMark (t.2 ++ (gap t ts ++ render ts)) = baseMark t.2 := by
  obtain ⟨k, w⟩ := t
  obtain ⟨c, r, hw, -⟩ := ht.exists_cons
  obtain rfl : w = c :: r := hw
  cases r with
  | cons d r => rfl
  | nil =>
    rw [singleton_append, baseMark, baseMark]
    by_cases hs : c = 's' ∨ c = 'S'
    · rw [if_pos hs, if_pos hs]
      have hident : k = .identifier := ht.kind_of_isAlpha (by rcases hs with rfl | rfl <;> rfl)
      have hlike : wordLike (k, [c]) = true := by
        rw [hident]
        rfl
      rw [gap, hlike]
      cases ts with
      | nil => rfl
      | cons e ts =>
        by_cases he : wordLike e = true
        · rw [if_pos ⟨rfl, he⟩]
          rfl
        · rw [if_neg fun h => he h.2]
          obtain ⟨k', w'⟩ := e
          have hword := hts _ (mem_cons_self ..)
          obtain ⟨d, r', hw', -⟩ := hword.exists_cons
          obtain rfl : w' = d :: r' := hw'
          have hd : ¬ isBase d = true := by
            intro hb
            rw [hword.kind_of_isAlpha (isAlpha_of_isBase hb)] at he
            exact he rfl
          exact Option.filter_some_neg (Bool.eq_false_iff.mpr hd)
    · rw [if_neg hs, if_neg hs]

theorem goesOn_render {a b : Word} (hb : IsWord b) (hts : ∀ t ∈ ts, IsWord t) :
    goesOn a (gap a (b :: ts) ++ render (b :: ts)) = glues a b := by
  by_cases hlike : wordLike a = true ∧ wordLike b = true
  · have hgap : gap a (b :: ts) = [' '] := if_pos hlike
    rw [hgap, singleton_append, goesOn_space hlike.1, glues, hlike.1, hlike.2]
    rfl
  · have hnot : (!(wordLike a && wordLike b)) = true := by
      rw [Bool.not_eq_true', Bool.and_eq_false_iff, ← Bool.not_eq_true, ← Bool.not_eq_true]
      exact not_and_or.mp hlike
    have hbase := baseMark_render hb hts
    obtain ⟨c, r, hw, -⟩ := hb.exists_cons
    have hgap : gap a (b :: ts) = [] := if_neg hlike
    rw [hgap, nil_append, glues, hnot, Bool.true_and, render]
    have hhead (t : Text) : (b.2 ++ t).head? = b.2.head? := by rw [hw]; rfl
    unfold goesOn
    split <;> simp only [hhead, hbase]

theorem append_space_ne {a : Char} (hw : w = a :: r) (ha : isSpace a = false) {skipped : Text}
    (hone : skipped.length = 1) (t : Text) :
    w ++ ([' '] ++ t) ≠ skipped ++ (w ++ t) := by
  intro h
  rw [← append_assoc, ← append_assoc, append_left_inj] at h
  obtain ⟨c, rfl⟩ := length_eq_one_iff.mp hone
  have hall : ∀ (w : Text) (c : Char), w ++ [' '] = [c] ++ w → ∀ x ∈ w, x = ' ' := by
    intro w
    induction w with
    | nil => exact fun _ _ x hx => (nomatch hx)
    | cons d w ih =>
      intro c hc
      have htail : w ++ [' '] = [d] ++ w := (List.cons.inj hc).2
      have hrest := ih d htail
      have hd : d = ' ' := by
        cases w with
        | nil => exact (List.cons.inj htail).1.symm
        | cons e w => exact (List.cons.inj htail).1.symm.trans (hrest e (mem_cons_self ..))
      intro x hx
      rcases mem_cons.mp hx with rfl | hx
      · exact hd
      · exact hrest x hx
  have hspace : a = ' ' := hall w c h a (hw ▸ mem_cons_self ..)
  rw [hspace] at ha
  exact absurd ha (by decide)

theorem length_gap_le (t : Word) (ts : List Word) : (gap t ts).length ≤ 1 := by
  rw [gap]
  split
  · exact le_rfl
  · exact Nat.zero_le _

theorem gap_eq_nil_or (t : Word) (ts : List Word) : gap t ts = [] ∨ gap t ts = [' '] := by
  rw [gap]
  split
  · exact .inr rfl
  · exact .inl rfl

theorem length_render_le (hts : ∀ t ∈ ts, IsWord t) {left : Text} (hleft : left <:+ render ts) (hlex : Lexes left ts) :
    (render ts).length ≤ left.length := by
  induction ts generalizing left with
  | nil => exact Nat.zero_le _
  | cons t ts ih =>
    obtain ⟨k, w⟩ := t
    obtain ⟨a, r, hw, ha⟩ := (hts _ (mem_cons_self ..)).exists_cons
    obtain ⟨skipped, v, rfl, -, hv⟩ := hlex.front_of_cons
    have htail : ∀ t ∈ ts, IsWord t := fun t ht => hts t (mem_cons_of_mem _ ht)
    have hgap := length_gap_le (k, w) ts
    have hsuffix : v <:+ render ((k, w) :: ts) :=
      ((suffix_append w v).trans (suffix_append skipped _)).trans hleft
    have hrender : render ts <:+ render ((k, w) :: ts) :=
      (suffix_append (gap (k, w) ts) _).trans (suffix_append w _)
    rw [render, length_append, length_append, length_append, length_append]
    dsimp only
    rcases Nat.lt_or_ge (render ts).length v.length with hlong | hshort
    · omega
    · have hle := ih htail (suffix_of_suffix_length_le hsuffix hrender hshort) hv
      have heq : v = render ts :=
        (suffix_of_suffix_length_le hsuffix hrender hshort).eq_of_length (by omega)
      by_contra hless
      obtain ⟨before, hbefore⟩ := hleft
      rw [render, heq] at hbefore
      have hlen := congrArg List.length hbefore
      simp only [length_append] at hlen
      rcases gap_eq_nil_or (k, w) ts with hg | hg
      · rw [hg, length_nil] at hless
        omega
      · rw [hg, length_singleton] at hlen hless
        rw [hg, length_eq_zero_iff.mp (show skipped.length = 0 by omega), nil_append] at hbefore
        exact append_space_ne hw ha (show before.length = 1 by omega) _ hbefore.symm

/-- A text that is read back begins with its first word as it was, and the rest is the text of
the rest. -/
theorem lexes_render_cons {t : Word} (ht : IsWord t) (hts : ∀ t ∈ ts, IsWord t) :
    Lexes (render (t :: ts)) (t :: ts) ↔
      goesOn t (gap t ts ++ render ts) = false ∧ Lexes (render ts) ts := by
  obtain ⟨k, w⟩ := t
  have hgap := length_gap_le (k, w) ts
  have hspace : Lexes (gap (k, w) ts ++ render ts) ts ↔ Lexes (render ts) ts := by
    rcases gap_eq_nil_or (k, w) ts with hg | hg
    · rw [hg, nil_append]
    · rw [hg, singleton_append]
      exact Lexes.skip_iff rfl
  rw [← hspace, ← front_iff ht, render]
  constructor
  · intro hlex
    obtain ⟨skipped, v, heq, hfront, hv⟩ := hlex.front_of_cons
    have hsuffix : v <:+ w ++ (gap (k, w) ts ++ render ts) := by
      rw [heq]
      exact (suffix_append w v).trans (suffix_append skipped _)
    have hrender : render ts <:+ w ++ (gap (k, w) ts ++ render ts) :=
      (suffix_append (gap (k, w) ts) _).trans (suffix_append w _)
    have hlen := congrArg List.length heq
    simp only [length_append] at hlen
    -- nothing is passed over, or the word would be shifted by one place
    have hnone : skipped = [] := by
      rcases Nat.lt_or_ge (render ts).length v.length with hlong | hshort
      · exact length_eq_zero_iff.mp (by omega)
      · have hle := length_render_le hts (suffix_of_suffix_length_le hsuffix hrender hshort) hv
        have hsame : v = render ts :=
          (suffix_of_suffix_length_le hsuffix hrender hshort).eq_of_length (by omega)
        rcases gap_eq_nil_or (k, w) ts with hg | hg
        · rw [hg, length_nil] at hlen
          exact length_eq_zero_iff.mp (by omega)
        · obtain ⟨a, r, hw, ha⟩ := ht.exists_cons
          rw [hg, hsame] at heq
          rw [hg, length_singleton] at hlen
          exact absurd heq (append_space_ne hw ha (by omega) _)
    rw [hnone, nil_append, append_right_inj] at heq
    rw [heq]
    exact ⟨hfront, hv⟩
  · rintro ⟨hfront, hv⟩
    exact Lexes.cons_of_front hfront hv

theorem lexes_render_iff (hts : ∀ t ∈ ts, IsWord t) :
    Lexes (render ts) ts ↔ ts.IsChain fun a b => glues a b = false := by
  induction ts with
  | nil => exact ⟨fun _ => .nil, fun _ => .done⟩
  | cons t ts ih =>
    have ht := hts t (mem_cons_self ..)
    have htail : ∀ t ∈ ts, IsWord t := fun t ht => hts t (mem_cons_of_mem _ ht)
    rw [lexes_render_cons ht htail, ih htail]
    cases ts with
    | nil =>
      have hend : goesOn t (gap t [] ++ render []) = false := by
        have hgap : gap t [] = [] := if_neg fun h => nomatch h.2
        rw [hgap]
        unfold goesOn
        split <;> first | rfl | (split <;> rfl)
      simp [hend]
    | cons b ts =>
      rw [goesOn_render (htail b (mem_cons_self ..)) fun t ht => htail t (mem_cons_of_mem _ ht),
        isChain_cons_cons]

/-- The kinds and texts of the tokens `[b, e)`, without the mark of the end. -/
def sliceWords (toks : List LexToken) (b e : Nat) : List Word :=
  ((tokenSlice toks b e).map LexToken.word).filter (·.1 ≠ .eof)

theorem IsWord.kind_ne_eof {t : Word} (h : IsWord t) : t.1 ≠ .eof := by
  obtain ⟨k, w⟩ := t
  obtain ⟨c, r, hw, -⟩ := h.exists_cons
  obtain rfl : w = c :: r := hw
  obtain ⟨u, hu⟩ := h
  have hscan : scan c (r ++ u) = ⟨some k, c :: r, u⟩ := hu
  have hkind := congrArg Piece.kind hscan
  rw [scan] at hkind
  rintro rfl
  split_ifs at hkind <;> cases hkind

variable {toks : List LexToken} {rest : List Word}

theorem textLoop_eq (hm : toks.map LexToken.word = us ++ rest)
    (hus : ∀ t ∈ us, IsWord t) (hrest : ∀ t ∈ rest.head?, t.1 = .eof) {s : Text} (hs : s ≠ []) (prevWord : Bool) :
    textLoop s prevWord toks =
      s ++ ((if prevWord ∧ us.head?.any wordLike then [' '] else []) ++ render us) := by
  induction us generalizing toks s prevWord with
  | nil =>
    cases toks with
    | nil => simp [textLoop, render]
    | cons t toks =>
      have heof : t.kind = .eof := hrest t.word (by rw [← nil_append rest, ← hm]; rfl)
      simp [textLoop, render, heof]
  | cons u us ih =>
    cases toks with
    | nil => cases hm
    | cons t toks =>
      obtain ⟨rfl, htail⟩ := List.cons.inj hm
      have hne : t.kind ≠ .eof := (hus _ (mem_cons_self ..)).kind_ne_eof
      obtain ⟨c, r, hw, -⟩ := (hus _ (mem_cons_self ..)).exists_cons
      have htext : t.text = c :: r := hw
      have hlike : wordLike t.word = t.isWord := rfl
      rw [textLoop, if_neg hne,
        ih htail (fun v hv => hus v (mem_cons_of_mem _ hv)) (by rw [htext]; simp)]
      have hhead : (t.word :: us).head?.any wordLike = t.isWord := rfl
      rw [render, gap, hlike, hhead]
      by_cases hp : prevWord = true ∧ t.isWord = true
      · rw [if_pos ⟨hs, hp⟩, if_pos hp]
        simp only [append_assoc]
        rfl
      · rw [if_neg fun h => hp h.2, if_neg hp]
        simp only [append_assoc]
        rfl

theorem textLoop_nil (hm : toks.map LexToken.word = us ++ rest)
    (hus : ∀ t ∈ us, IsWord t) (hrest : ∀ t ∈ rest.head?, t.1 = .eof) :
    textLoop [] false toks = render us := by
  cases us with
  | nil =>
    cases toks with
    | nil => rfl
    | cons t toks =>
      have heof : t.kind = .eof := hrest t.word (by rw [← nil_append rest, ← hm]; rfl)
      rw [textLoop, if_pos heof]
      rfl
  | cons u us =>
    cases toks with
    | nil => cases hm
    | cons t toks =>
      obtain ⟨rfl, htail⟩ := List.cons.inj hm
      have hne : t.kind ≠ .eof := (hus _ (mem_cons_self ..)).kind_ne_eof
      obtain ⟨c, r, hw, -⟩ := (hus _ (mem_cons_self ..)).exists_cons
      have htext : t.text ≠ [] := by
        rw [show t.text = c :: r from hw]
        exact cons_ne_nil _ _
      rw [textLoop, if_neg hne, if_neg fun h => h.1 rfl, nil_append,
        textLoop_eq htail (fun v hv => hus v (mem_cons_of_mem _ hv)) hrest htext]
      rfl

theorem tokensToText_lex (src : Text) (smap : Option (List SourcePosition)) (b e : Nat) :
    (∀ t ∈ sliceWords (lex src smap).tokens b e, IsWord t) ∧
      tokensToText (lex src smap).tokens b e = render (sliceWords (lex src smap).tokens b e) := by
  obtain ⟨ws, hlex, htokens⟩ := lex_words src smap
  have hws : ∀ t ∈ ws, IsWord t := fun t ht => hlex.exists_front ht
  obtain ⟨rest, hrest, hslice⟩ : ∃ rest : List Word, (∀ t ∈ rest, t.1 = .eof) ∧
      (tokenSlice (lex src smap).tokens b e).map LexToken.word = (ws.take e).drop b ++ rest := by
    refine ⟨([(.eof, [])].take (e - ws.length)).drop (b - (ws.take e).length), ?_, ?_⟩
    · intro t ht
      rw [mem_singleton.mp (mem_of_mem_take (mem_of_mem_drop ht))]
    · rw [tokenSlice, map_drop, map_take, htokens, take_append, drop_append]
  have hus : ∀ t ∈ (ws.take e).drop b, IsWord t :=
    fun t ht => hws t (mem_of_mem_take (mem_of_mem_drop ht))
  have hwords : sliceWords (lex src smap).tokens b e = (ws.take e).drop b := by
    rw [sliceWords, hslice, filter_append, filter_eq_self.mpr, filter_eq_nil_iff.mpr,
      append_nil]
    · intro t ht
      simp [hrest t ht]
    · intro t ht
      simpa using (hus t ht).kind_ne_eof
  rw [hwords]
  exact ⟨hus, textLoop_nil hslice hus fun t ht => hrest t (mem_of_head? ht)⟩

theorem lex_tokensToText_iff (src : Text) (smap : Option (List SourcePosition)) (b e : Nat) :
    (lex (tokensToText (lex src smap).tokens b e) none).tokens.map LexToken.word =
        sliceWords (lex src smap).tokens b e ++ [(.eof, [])] ↔
      (sliceWords (lex src smap).tokens b e).IsChain fun s t => glues s t = false := by
  obtain ⟨hus, htext⟩ := tokensToText_lex src smap b e
  obtain ⟨ws, hlex, hwords⟩ := lex_words (tokensToText (lex src smap).tokens b e) none
  rw [hwords, List.append_left_inj, ← lexes_render_iff hus, ← htext]
  constructor
  · rintro rfl
    exact hlex
  · exact fun h => hlex.unique h

/-- `a & &b`: the conjunction with a reduction comes back as one operator. -/
theorem lex_tokensToText_amp_amp :
    (lex (tokensToText (lex ['a', ' ', '&', ' ', '&', 'b'] none).tokens 0 4) none).tokens.map
        LexToken.word =
      [(.identifier, ['a']), (.symbol, ['&', '&']), (.identifier, ['b']), (.eof, [])] ∧
    (lex (tokensToText (lex ['a', ' ', '&', ' ', '&', 'b'] none).tokens 0 4) none).tokens.map
        LexToken.word ≠
      sliceWords (lex ['a', ' ', '&', ' ', '&', 'b'] none).tokens 0 4 ++ [(.eof, [])] := by
  refine ⟨rfl, fun h => ?_⟩
  have hlen := congrArg List.length h
  exact absurd hlen (by decide)

end PhyEngine.Verilog
