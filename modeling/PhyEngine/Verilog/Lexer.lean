import PhyEngine.Library.Munch
import PhyEngine.Verilog.Literal

/-!
# The lexer

`lex` and `tokens_to_text` of `digital.h`. A round of `lex` takes a blank, a comment or a token
off the text (`scan`). The positions follow `bump`, and the source map replaces them where it has
an entry.
-/

namespace PhyEngine.Verilog

open Munch

inductive TokenKind where
  | eof
  | identifier
  | number
  | symbol
  deriving DecidableEq

variable (c : Char)

/-- `preprocess_result::source_position`, also the position that `lex` keeps. -/
structure SourcePosition where
  line : Nat
  column : Nat
  deriving DecidableEq

structure LexToken where
  kind : TokenKind
  text : Text
  position : SourcePosition
  deriving DecidableEq

structure CompileError where
  message : String
  offset : Nat
  position : SourcePosition
  deriving DecidableEq

structure LexResult where
  tokens : List LexToken
  errors : List CompileError
  deriving DecidableEq

def isSpace : Bool := c ∈ [' ', '\t', '\n', '\r', '\x0c', '\x0b']

def isDigit : Bool := decide ('0' ≤ c ∧ c ≤ '9')

def isAlpha : Bool :=
  decide (('a' ≤ c ∧ c ≤ 'z') ∨ ('A' ≤ c ∧ c ≤ 'Z') ∨ c = '_')

def isIdentContinue : Bool := isAlpha c || isDigit c || c = '$'

/-- How far a string literal has been read. -/
inductive StringState where
  | inside
  | escaped
  | closed
  deriving DecidableEq

def stringNext : StringState → Char → StringState
  | .inside, '\\' => .escaped
  | .inside, '"' => .closed
  | .inside, _ => .inside
  | .escaped, _ => .inside
  | .closed, _ => .closed

def stringOk (s : StringState) (_ : Char) : Bool := s ≠ .closed

/-- The local variables of the loop over a number that begins with a digit. -/
structure NumberState where
  afterApos : Bool
  afterBase : Bool
  allowMinus : Bool
  base : Option Char
  prev : Char
  deriving DecidableEq

def numberOk (s : NumberState) (c : Char) : Bool :=
  isDigit c || isAlpha c || c = '\'' || c = '_' || (c = '-' && s.allowMinus && some s.prev = s.base)

def numberNext (s : NumberState) (c : Char) : NumberState :=
  if c = '\'' then ⟨true, false, false, none, c⟩
  else if s.afterApos ∧ ¬ s.afterBase ∧ c ≠ 's' ∧ c ≠ 'S' then
    ⟨s.afterApos, true, c = 'd' ∨ c = 'D', some c, c⟩
  else { s with prev := c }

def numberStart : NumberState := ⟨false, false, false, none, c⟩

/-- The loop over a number that begins with an apostrophe. The state is `prev`. -/
def basedOk (base prev c : Char) : Bool :=
  isAlpha c || isDigit c || c = '_' || (c = '-' && (base = 'd' || base = 'D') && prev = base)

def basedNext (_ c : Char) : Char := c

def isFill : Bool := c ∈ ['0', '1', 'x', 'X', 'z', 'Z']

def isBase : Bool := c ∈ ['b', 'B', 'o', 'O', 'd', 'D', 'h', 'H']

/-- The base of the literal that an apostrophe begins, from what stands behind it. -/
def baseMark : Text → Option Char
  | c :: rest =>
    if c = 's' ∨ c = 'S' then rest.head?.filter isBase else if isBase c then some c else none
  | [] => none

def longSymbols : List Text :=
  [['=', '=', '='], ['!', '=', '='], ['*', '*'], ['~', '&'], ['~', '|'], ['~', '^'], ['^', '~'],
    ['=', '='], ['!', '='], ['&', '&'], ['|', '|'], ['<', '='], ['>', '='], ['<', '<'], ['>', '>'],
    ['+', ':'], ['-', ':']]

def symbolLength (t : Text) : Nat := ((longSymbols.find? (·.isPrefixOf t)).map List.length).getD 1

def blockComment : Text → Text × Text
  | [] => ([], [])
  | '*' :: '/' :: rest => (['*', '/'], rest)
  | c :: rest => (c :: (blockComment rest).1, (blockComment rest).2)

theorem blockComment_append (t : Text) : (blockComment t).1 ++ (blockComment t).2 = t := by
  fun_induction blockComment t with
  | case1 => rfl
  | case2 rest => rfl
  | case3 c rest hend ih => rw [List.cons_append, ih]

/-- What one round of the loop takes off the front. A blank or a comment has no kind. -/
structure Piece where
  kind : Option TokenKind
  text : Text
  rest : Text
  deriving DecidableEq

/-- The piece that begins with `c` and goes on with the letters that a machine takes. -/
def Piece.ofMunch (kind : Option TokenKind) (c : Char) (taken : Text × Text) : Piece :=
  ⟨kind, c :: taken.1, taken.2⟩

def scan (rest : Text) : Piece :=
  if isSpace c then ⟨none, [c], rest⟩
  else if c = '/' ∧ rest.head? = some '/' then
    .ofMunch none c (munch (fun _ c => c ≠ '\n') (fun s _ => s) () rest)
  else if c = '/' ∧ rest.head? = some '*' then
    ⟨none, c :: '*' :: (blockComment rest.tail).1, (blockComment rest.tail).2⟩
  else if c = '"' then .ofMunch (some .symbol) c (munch stringOk stringNext .inside rest)
  else if isAlpha c ∨ c = '$' then
    .ofMunch (some .identifier) c (munch (fun _ c => isIdentContinue c) (fun s _ => s) () rest)
  else if c = '\'' ∧ rest.head?.any isFill then ⟨some .number, c :: rest.take 1, rest.drop 1⟩
  else if c = '\'' ∧ (baseMark rest).isSome then
    .ofMunch (some .number) c (munch (basedOk ((baseMark rest).getD c)) basedNext '\'' rest)
  else if isDigit c then .ofMunch (some .number) c (munch numberOk numberNext (numberStart c) rest)
  else ⟨some .symbol, (c :: rest).take (symbolLength (c :: rest)),
    (c :: rest).drop (symbolLength (c :: rest))⟩

def bump (p : SourcePosition) (c : Char) : SourcePosition :=
  if c = '\n' then ⟨p.line + 1, 1⟩ else ⟨p.line, p.column + 1⟩

def remapLineCol (smap : Option (List SourcePosition)) (offset : Nat) (p : SourcePosition) :
    SourcePosition :=
  ((smap.getD [])[offset]?).getD p

def unterminated : Text → Bool
  | '"' :: rest => rest.foldl stringNext .inside ≠ .closed
  | _ => false

def tokenErrors (t : Text) (offset : Nat) (p : SourcePosition) : List CompileError :=
  if unterminated t then [⟨"unterminated string literal", offset, p⟩] else []

def lexLoop (smap : Option (List SourcePosition)) :
    (fuel offset : Nat) → SourcePosition → Text → LexResult
  | fuel + 1, offset, p, c :: rest =>
    let piece := scan c rest
    let more := lexLoop smap fuel (offset + piece.text.length) (piece.text.foldl bump p) piece.rest
    match piece.kind with
    | none => more
    | some kind =>
      let p := remapLineCol smap offset p
      ⟨⟨kind, piece.text, p⟩ :: more.tokens, tokenErrors piece.text offset p ++ more.errors⟩
  | _, _, p, _ => ⟨[⟨.eof, [], p⟩], []⟩

/-- `lex`. Every piece has a character, so the length of the text is enough fuel. -/
def lex (src : Text) (smap : Option (List SourcePosition)) : LexResult :=
  lexLoop smap src.length 0 ⟨1, 1⟩ src

def LexToken.isWord (t : LexToken) : Bool := t.kind = .identifier || t.kind = .number

def textLoop (s : Text) (prevWord : Bool) : List LexToken → Text
  | [] => s
  | t :: toks =>
    if t.kind = .eof then s
    else
      textLoop ((if s ≠ [] ∧ prevWord ∧ t.isWord then s ++ [' '] else s) ++ t.text) t.isWord toks

def tokenSlice (toks : List LexToken) (b e : Nat) : List LexToken := (toks.take e).drop b

def tokensToText (toks : List LexToken) (b e : Nat) : Text := textLoop [] false (tokenSlice toks b e)

end PhyEngine.Verilog
