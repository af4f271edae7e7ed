import PhyEngine.Verilog.Lexer

/-!
# The preprocessor

`preprocess` of `digital.h` with its local functions. Each takes a text and gives back what it
read and what is left; the errors are a list of their own. The levels of `expand_text` and of
inclusions that are left are the first argument.
-/

namespace PhyEngine.Verilog

open Munch

/-- The character that begins a directive and the use of a macro. -/
def backquote : Char := Char.ofNat 96

structure MacroDef where
  functionLike : Bool
  params : List Text
  body : Text
  deriving DecidableEq

abbrev Macros := Text → Option MacroDef

def Macros.insert (m : Macros) (name : Text) (md : MacroDef) : Macros :=
  fun n => if n = name then some md else m n

def Macros.erase (m : Macros) (name : Text) : Macros := fun n => if n = name then none else m n

def isBlank (c : Char) : Bool := isSpace c && c ≠ '\n' && c ≠ '\r'

def parseIdent : Text → Text × Text
  | [] => ([], [])
  | c :: rest =>
    if isAlpha c ∨ c = '$' then
      (c :: (munch (fun _ c => isIdentContinue c) (fun s _ => s) () rest).1,
        (munch (fun _ c => isIdentContinue c) (fun s _ => s) () rest).2)
    else ([], c :: rest)

variable (t : Text)

def skipSpaces : Text := t.dropWhile isBlank

def trimSpaces : Text := ((t.dropWhile isBlank).reverse.dropWhile isBlank).reverse

/-- The loop of `parse_param_list_after_lparen`: whether the list is closed, the parameters, and
where reading stopped. -/
def paramLoop : (fuel : Nat) → List Text → Text → Bool × List Text × Text
  | 0, params, t => (false, params, t)
  | fuel + 1, params, t =>
    let name := parseIdent (skipSpaces t)
    if name.1 = [] then (false, params, skipSpaces t)
    else
      match skipSpaces name.2 with
      | ',' :: rest => paramLoop fuel (params ++ [name.1]) rest
      | ')' :: rest => (true, params ++ [name.1], rest)
      | rest => (false, params ++ [name.1], rest)

def parseParamList : Bool × List Text × Text :=
  match skipSpaces t with
  | ')' :: rest => (true, [], rest)
  | rest => paramLoop (rest.length + 1) [] rest

def substLoop (params args : List Text) : (fuel : Nat) → Text → Text
  | fuel + 1, c :: rest =>
    if isAlpha c ∨ c = '_' ∨ c = '$' then
      let word := munch (fun _ c => isIdentContinue c) (fun s _ => s) () rest
      (((params.zip args).find? (·.1 = c :: word.1)).map (·.2)).getD (c :: word.1) ++
        substLoop params args fuel word.2
    else c :: substLoop params args fuel rest
  | _, _ => []

def substituteParams (body : Text) (params args : List Text) : Text :=
  substLoop params args body.length body

/-- The local variables of `parse_macro_call_args`. `escaped` is a backslash in a string whose
character is still to come, `current` the text since `arg_begin`. -/
structure CallState where
  views : List (Nat × Text)
  start : Nat
  current : Text
  paren : Nat
  brace : Nat
  bracket : Nat
  inString : Bool
  escaped : Bool
  sawComma : Bool
  deriving DecidableEq

namespace CallState

def outside (s : CallState) : Prop := s.paren = 0 ∧ s.brace = 0 ∧ s.bracket = 0

instance (s : CallState) : Decidable s.outside := inferInstanceAs (Decidable (_ ∧ _))

def put (s : CallState) (c : Char) : CallState := { s with current := s.current ++ [c] }

/-- The arguments when the list is closed: none for a list with nothing in it. -/
def close (s : CallState) : List (Nat × Text) :=
  if s.views = [] ∧ s.sawComma = false ∧ trimSpaces s.current = [] then s.views
  else s.views ++ [(s.start, s.current)]

/-- One round of the loop, but for the parenthesis that closes the list. -/
def step (s : CallState) (c : Char) : CallState :=
  if s.inString then
    if s.escaped then { s.put c with escaped := false }
    else if c = '\\' then { s.put c with escaped := true }
    else if c = '"' then { s.put c with inString := false }
    else s.put c
  else if c = '"' then { s.put c with inString := true }
  else if c = '(' then { s.put c with paren := s.paren + 1 }
  else if c = ')' then { s.put c with paren := s.paren - 1 }
  else if c = '\x7b' then { s.put c with brace := s.brace + 1 }
  else if c = '\x7d' then { s.put c with brace := s.brace - 1 }
  else if c = '[' then { s.put c with bracket := s.bracket + 1 }
  else if c = ']' then { s.put c with bracket := s.bracket - 1 }
  else if c = ',' ∧ s.outside then
    { s with
      views := s.views ++ [(s.start, s.current)]
      start := s.start + s.current.length + 1
      current := []
      sawComma := true }
  else s.put c

end CallState

/-- The loop of `parse_macro_call_args`: the arguments with their offsets, and the rest behind
the closing parenthesis. -/
def callLoop (s : CallState) : Text → Option (List (Nat × Text) × Text)
  | [] => none
  | c :: rest =>
    if s.inString = false ∧ c = ')' ∧ s.outside then some (s.close, rest)
    else callLoop (s.step c) rest

/-- `parse_macro_call_args` behind the parenthesis, where `start` is the offset from the
backquote. -/
def parseMacroCallArgs (start : Nat) (t : Text) : Option (List (Nat × Text) × Text) :=
  callLoop ⟨[], start, [], 0, 0, 0, false, false, false⟩ t

structure Expanded where
  text : Text
  map : List SourcePosition
  errors : List CompileError
  deriving DecidableEq

namespace Expanded

def empty : Expanded := ⟨[], [], []⟩

def append (a b : Expanded) : Expanded := ⟨a.text ++ b.text, a.map ++ b.map, a.errors ++ b.errors⟩

instance : Append Expanded := ⟨append⟩

def error (message : String) (line column : Nat) : Expanded := ⟨[], [], [⟨message, 0, ⟨line, column⟩⟩]⟩

end Expanded

/-- A position of the map, where both numbers are cast to `uint32_t`. -/
def mapPosition (line column : Nat) : SourcePosition := ⟨line % 2 ^ 32, column % 2 ^ 32⟩

def appendChar (c : Char) (line column : Nat) : Expanded := ⟨[c], [mapPosition line column], []⟩

def appendPassthrough : Text → (line column : Nat) → Expanded
  | [], _, _ => .empty
  | c :: rest, line, column => appendChar c line column ++ appendPassthrough rest line (column + 1)

/-- The names that are being expanded, and `expand_text` one level deeper: text, line, column. -/
abbrev Expander := List Text → Text → Nat → Nat → Expanded

def expandArgs (self : Expander) (stack : List Text) (line column : Nat) (views : List (Nat × Text)) :
    List Expanded :=
  views.map fun v =>
    self stack (trimSpaces v.2) line (column + v.1 + (v.2.length - (skipSpaces v.2).length))

def expandCall (self : Expander) (stack : List Text) (md : MacroDef) (line column : Nat)
    (args : List Expanded) : Expanded :=
  let repl := self stack (substituteParams md.body md.params (args.map Expanded.text)) line column
  ⟨repl.text, repl.map, args.flatMap Expanded.errors ++
    (if args.length ≠ md.params.length then
      (Expanded.error "macro argument count mismatch" line column).errors else []) ++ repl.errors⟩

local instance lawfulBEq_name : LawfulBEq Text := inferInstance

/-- The use of a macro with the text behind its name: what it is replaced by, and what is left.
The column is that of the backquote. -/
def macroUse (self : Expander) (macros : Macros) (stack : List Text) (line column : Nat)
    (name behind : Text) : Expanded × Text :=
  match macros name with
  | none => (.error "undefined Verilog macro" line column, behind)
  | some md =>
    if name ∈ stack then (.error "recursive macro expansion" line column, behind)
    else if md.functionLike then
      match behind with
      | '(' :: inside =>
        match parseMacroCallArgs (name.length + 2) inside with
        | none => (.error "unterminated macro argument list" line column, behind)
        | some (views, left) =>
          (expandCall self (name :: stack) md line column
            (expandArgs self (name :: stack) line column views), left)
      | _ => (.error "function-like macro requires '('" line column, behind)
    else (self (name :: stack) md.body line column, behind)

def expandLoop (self : Expander) (macros : Macros) (stack : List Text) (line : Nat) :
    (fuel column : Nat) → Text → Expanded
  | fuel + 1, column, c :: rest =>
    if c ≠ backquote ∨ (parseIdent rest).1 = [] then
      appendChar c line column ++ expandLoop self macros stack line fuel (column + 1) rest
    else
      let use := macroUse self macros stack line column (parseIdent rest).1 (parseIdent rest).2
      use.1 ++
        expandLoop self macros stack line fuel (column + 1 + (rest.length - use.2.length)) use.2
  | _, _, _ => .empty

def maxMacroDepth : Nat := 32

def expandText (macros : Macros) : (levels : Nat) → Expander
  | 0, _, text, line, column =>
    Expanded.error "macro expansion depth exceeded" line column ++ appendPassthrough text line column
  | levels + 1, stack, text, line, column =>
    expandLoop (expandText macros levels) macros stack line text.length column text

def plainSpan : Text → Text × Text
  | [] => ([], [])
  | c :: rest =>
    if c = '"' ∨ c = '/' ∧ (rest.head? = some '/' ∨ rest.head? = some '*') then ([], c :: rest)
    else (c :: (plainSpan rest).1, (plainSpan rest).2)

/-- One round of the loop of `expand_line_with_comments`: the part that is taken, whether it is
expanded, the rest, and `in_block` behind it. A line comment takes the whole line. -/
def linePart (inBlock : Bool) (t : Text) : (Bool × Text) × Text × Bool :=
  if inBlock then
    ((false, (blockComment t).1), (blockComment t).2, decide ((blockComment t).2 = []))
  else if (plainSpan t).1 ≠ [] then ((true, (plainSpan t).1), (plainSpan t).2, false)
  else
    match t with
    | '"' :: rest =>
      ((false, '"' :: (munch stringOk stringNext .inside rest).1),
        (munch stringOk stringNext .inside rest).2, false)
    | '/' :: '*' :: rest =>
      ((false, '/' :: '*' :: (blockComment rest).1), (blockComment rest).2,
        decide ((blockComment rest).2 = []))
    | t => ((false, t), [], false)

/-- The parts of a line, those that are expanded marked, and `in_block` behind it. -/
def lineParts : (fuel : Nat) → Bool → Text → List (Bool × Text) × Bool
  | fuel + 1, inBlock, c :: rest =>
    let part := linePart inBlock (c :: rest)
    let more := lineParts fuel part.2.2 part.2.1
    (part.1 :: more.1, more.2)
  | _, inBlock, _ => ([], inBlock)

def expandParts (macros : Macros) (line : Nat) : (column : Nat) → List (Bool × Text) → Expanded
  | _, [] => .empty
  | column, (expanded, text) :: parts =>
    (if expanded then expandText macros (maxMacroDepth + 1) [] text line column
      else appendPassthrough text line column) ++
    expandParts macros line (column + text.length) parts

/-- `expand_line_with_comments`, without the new value of `in_block`. -/
def expandLine (macros : Macros) (line : Nat) (inBlock : Bool) (t : Text) : Expanded :=
  expandParts macros line 1 (lineParts t.length inBlock t).1

def lineInBlock (inBlock : Bool) (t : Text) : Bool := (lineParts t.length inBlock t).2

/-- The directives that `process_text` knows. -/
inductive Keyword where
  | define | undef | ifdef | ifndef | else | endif | include | timescale | defaultNettype
  deriving DecidableEq

def Keyword.text : Keyword → Text
  | .define => ['d', 'e', 'f', 'i', 'n', 'e']
  | .undef => ['u', 'n', 'd', 'e', 'f']
  | .ifdef => ['i', 'f', 'd', 'e', 'f']
  | .ifndef => ['i', 'f', 'n', 'd', 'e', 'f']
  | .else => ['e', 'l', 's', 'e']
  | .endif => ['e', 'n', 'd', 'i', 'f']
  | .include => ['i', 'n', 'c', 'l', 'u', 'd', 'e']
  | .timescale => ['t', 'i', 'm', 'e', 's', 'c', 'a', 'l', 'e']
  | .defaultNettype =>
    ['d', 'e', 'f', 'a', 'u', 'l', 't', '_', 'n', 'e', 't', 't', 'y', 'p', 'e']

def Keyword.all : List Keyword :=
  [.define, .undef, .ifdef, .ifndef, .else, .endif, .include, .timescale, .defaultNettype]

structure IfFrame where
  parentActive : Bool
  cond : Bool
  active : Bool
  seenElse : Bool
  deriving DecidableEq

/-- What the loop over the lines keeps: `macros`, `ifs` with the innermost frame first, the
result, `line` and `in_block_comment`. -/
structure PreState where
  macros : Macros
  ifs : List IfFrame
  output : Text
  sourceMap : List SourcePosition
  errors : List CompileError
  line : Nat
  inBlock : Bool

namespace PreState

def currentActive (s : PreState) : Bool :=
  match s.ifs with
  | [] => true
  | f :: _ => f.active

def doError (s : PreState) (message : String) (column : Nat) : PreState :=
  { s with errors := s.errors ++ [⟨message, 0, ⟨s.line, column⟩⟩] }

/-- The empty line that is written for a directive and in an inactive region. -/
def newline (s : PreState) : PreState :=
  { s with output := s.output ++ ['\n'], sourceMap := s.sourceMap ++ [mapPosition s.line 1] }

def push (s : PreState) (r : Expanded) : PreState :=
  { s with
    output := s.output ++ r.text
    sourceMap := s.sourceMap ++ r.map
    errors := s.errors ++ r.errors }

end PreState

/-- The macro that stands behind its name in a definition, and whether its parameters are
well formed. -/
def parseMacroDef : MacroDef × Bool :=
  match t with
  | '(' :: rest =>
    let params := parseParamList rest
    (⟨true, if params.1 then params.2.1 else [], skipSpaces params.2.2⟩, params.1)
  | t => (⟨false, [], skipSpaces t⟩, true)

variable (s : PreState)

variable (column : Nat)

def processDefine (t : Text) : PreState :=
  let name := parseIdent (skipSpaces t)
  if name.1 = [] then s.doError "expected macro name after \x60define" column
  else
    let md := parseMacroDef name.2
    let s := if md.2 then s else s.doError "invalid macro parameter list in \x60define" column
    { s with macros := s.macros.insert name.1 md.1 }

def processUndef (t : Text) : PreState :=
  let name := parseIdent (skipSpaces t)
  if name.1 = [] then s.doError "expected macro name after \x60undef" column
  else { s with macros := s.macros.erase name.1 }

/-- Whether the name behind an `ifdef` is in the table. -/
def isDefined (macros : Macros) (t : Text) : Bool :=
  let name := parseIdent (skipSpaces t)
  if name.1 = [] then false else (macros name.1).isSome

def processIf (cond : Bool) : PreState :=
  { s with ifs := ⟨s.currentActive, cond, s.currentActive && cond, false⟩ :: s.ifs }

def processElse : PreState :=
  match s.ifs with
  | [] => s.doError "\x60else without matching \x60ifdef/\x60ifndef" column
  | f :: ifs =>
    if f.seenElse then s.doError "multiple \x60else in the same conditional block" column
    else { s with ifs := { f with seenElse := true, active := f.parentActive && !f.cond } :: ifs }

def processEndif : PreState :=
  match s.ifs with
  | [] => s.doError "\x60endif without matching \x60ifdef/\x60ifndef" column
  | _ :: ifs => { s with ifs := ifs }

structure PreOptions where
  includeResolver : Option (Text → Option Text)
  includeDepthLimit : Nat

def includePath : Except String Text :=
  match skipSpaces t with
  | [] => .error "expected path after \x60include"
  | opening :: rest =>
    let closing := if opening = '<' then '>' else '"'
    if opening ≠ '"' ∧ opening ≠ '<' then
      .error "expected \x60include \"path\" or \x60include <path>"
    else if closing ∈ rest then .ok (rest.takeWhile (· ≠ closing))
    else .error "unterminated \x60include path"

/-- An active `include`. `included` processes a text one level deeper, and is missing at the
limit. -/
def processInclude (opt : PreOptions) (included : Option (PreState → Text → PreState)) (s : PreState)
    (column : Nat) (t : Text) : PreState :=
  match included, opt.includeResolver with
  | none, _ => (s.doError "\x60include depth limit exceeded" column).newline
  | some _, none => (s.doError "\x60include requires an include_resolver" column).newline
  | some process, some resolver =>
    match includePath t with
    | .error message => (s.doError message column).newline
    | .ok path =>
      match resolver path with
      | none => (s.doError "failed to resolve \x60include" column).newline
      | some text =>
        let deep := process { s with line := 1, inBlock := false } text
        { deep with line := s.line, inBlock := s.inBlock }

def processKeyword (opt : PreOptions) (included : Option (PreState → Text → PreState)) (s : PreState)
    (column : Nat) (t : Text) : Option Keyword → PreState
  | some .define => (if s.currentActive then processDefine s column t else s).newline
  | some .undef => (if s.currentActive then processUndef s column t else s).newline
  | some .ifdef => (processIf s (isDefined s.macros t)).newline
  | some .ifndef => (processIf s (!isDefined s.macros t)).newline
  | some .else => (processElse s column).newline
  | some .endif => (processEndif s column).newline
  | some .include => if s.currentActive then processInclude opt included s column t else s.newline
  | some .timescale => s.newline
  | some .defaultNettype => s.newline
  | none => (s.doError "unsupported Verilog preprocessor directive" column).newline

/-- The line without its trailing carriage return. -/
def logicalLine : Text := if t.getLast? = some '\r' then t.dropLast else t

def afterBackquote : Option Text :=
  match skipSpaces t with
  | c :: rest => if c = backquote then some rest else none
  | [] => none

def directiveWord (rest : Text) : Text × Text := parseIdent (rest.dropWhile isSpace)

def keywordOf (word : Text) : Option Keyword := Keyword.all.find? (·.text = word)

def processLine (opt : PreOptions) (included : Option (PreState → Text → PreState)) (s : PreState)
    (rawLine : Text) : PreState :=
  let t := logicalLine rawLine
  let next :=
    match if s.inBlock then none else afterBackquote t with
    | some rest =>
      processKeyword opt included s (t.length - (skipSpaces t).length + 1) (directiveWord rest).2
        (keywordOf (directiveWord rest).1)
    | none =>
      if s.currentActive then
        { (s.push (expandLine s.macros s.line s.inBlock t)).newline with inBlock := lineInBlock s.inBlock t }
      else s.newline
  { next with line := s.line + 1 }

def sourceLines : Text → List Text
  | [] => []
  | c :: rest =>
    if c = '\n' then [] :: sourceLines rest
    else
      match sourceLines rest with
      | [] => [[c]]
      | l :: ls => (c :: l) :: ls

def processText (opt : PreOptions) : (levels : Nat) → PreState → Text → PreState
  | 0, s, t => (sourceLines t).foldl (processLine opt none) s
  | levels + 1, s, t => (sourceLines t).foldl (processLine opt (some (processText opt levels))) s

def PreState.start : PreState := ⟨fun _ => none, [], [], [], [], 1, false⟩

def preprocess (src : Text) (opt : PreOptions) : PreState :=
  processText opt opt.includeDepthLimit .start src

end PhyEngine.Verilog
