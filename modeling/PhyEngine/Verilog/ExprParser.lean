import PhyEngine.Library.Precedence
import PhyEngine.Verilog.ExprBuild

/-!
# Parsing expressions

`parse_primary` to `parse_expr` of `expr_parser`, over the tokens of the lexer; a symbol token is
a whole operator. Casts, calls and concatenations are the parameter `other`, selects after an
operand the parameter `select`.
-/

namespace PhyEngine.Verilog

/-- The symbol tokens that expressions are made of. -/
inductive Sym where
  | star | slash | percent | plus | minus | shl | shr
  | amp | caret | tildeCaret | caretTilde | bar
  | lt | le | gt | ge | eqEq | bangEq | eqEqEq | bangEqEq | ampAmp | barBar
  | question | colon | lparen | rparen
  | starStar | bang | tilde | tildeAmp | tildeBar
  | lbracket | lbrace | dot
  | text (s : String)
  | other (s : String)
  deriving DecidableEq

inductive Token where
  | ident (name : String)
  | number (lit : Option (List LogicT × Bool))
  | sym (s : Sym)
  deriving DecidableEq

/-- The binary operators. The two spellings of the exclusive nor are apart. -/
inductive BinOp where
  | mul | div | mod | add | sub | shl | shr
  | and | xor | xnor | xnorAlt | or
  | lt | le | gt | ge | caseEq | caseNeq | eq | neq | land | lor
  deriving DecidableEq

namespace BinOp

def sym : BinOp → Sym
  | mul => .star
  | div => .slash
  | mod => .percent
  | add => .plus
  | sub => .minus
  | shl => .shl
  | shr => .shr
  | and => .amp
  | xor => .caret
  | xnor => .tildeCaret
  | xnorAlt => .caretTilde
  | or => .bar
  | lt => .lt
  | le => .le
  | gt => .gt
  | ge => .ge
  | caseEq => .eqEqEq
  | caseNeq => .bangEqEq
  | eq => .eqEq
  | neq => .bangEq
  | land => .ampAmp
  | lor => .barBar

/-- What the parse functions do with the two operands. -/
def apply : BinOp → ExprValue → ExprValue → Build ExprValue
  | mul, l, r => arithMul l r
  | div, l, r => arithDiv l r
  | mod, l, r => arithMod l r
  | add, l, r => arithAdd l r
  | sub, l, r => arithSub l r
  | shl, l, r => shiftLeft l r
  | shr, l, r => shiftRight l r
  | and, l, r => bitwiseBinary l r .binaryAnd
  | xor, l, r => bitwiseBinary l r .binaryXor
  | xnor, l, r | xnorAlt, l, r => do bitwiseUnary (← bitwiseBinary l r .binaryXor) .unaryNot
  | or, l, r => bitwiseBinary l r .binaryOr
  | lt, l, r => do return makeBit (← compareLt l r)
  | le, l, r => do return makeBit (← compareLe l r)
  | gt, l, r => do return makeBit (← compareGt l r)
  | ge, l, r => do return makeBit (← compareGe l r)
  | caseEq, l, r => do return makeBit (← compareCaseEq l r)
  | caseNeq, l, r => do return makeBit (← makeNot (← compareCaseEq l r))
  | eq, l, r => do return makeBit (← compareEq l r)
  | neq, l, r => do return makeBit (← makeNot (← compareEq l r))
  | land, l, r => do
    let a ← toBoolRoot l
    let b ← toBoolRoot r
    return makeBit (← makeAnd a b)
  | lor, l, r => do
    let a ← toBoolRoot l
    let b ← toBoolRoot r
    return makeBit (← makeOr a b)

end BinOp

/-- A parse function of `expr_parser`. No tokens left is the end of the input. -/
abbrev ExprParse := OpTree.Parse Token ExprValue ExprBuilder

def onBuilder {α : Type} (x : Build α) (b : ExprBuilder) : α × ExprBuilder := Id.run (x.run b)

def andThen (p : ExprParse) (k : ExprValue → Build ExprValue) : ExprParse := fun ts b =>
  let r := p ts b
  let v := onBuilder (k r.1) r.2.2
  (v.1, r.2.1, v.2)

def expectSym (s : Sym) (msg : String) (ts : List Token) (b : ExprBuilder) : List Token × ExprBuilder :=
  match ts with
  | .sym t :: rest => if t = s then (rest, b) else (ts, (onBuilder (reportError msg) b).2)
  | _ => (ts, (onBuilder (reportError msg) b).2)

def isCastType (name : String) : Bool :=
  name ∈ ["int", "integer", "logic", "reg", "wire", "bit", "byte", "shortint", "longint", "void"]

def isSystemFunction (name : String) : Bool :=
  name ∈ ["$urandom", "$random", "$clog2", "$bits", "$signed", "$unsigned"]

def isPlainName (name : String) : Bool := !isCastType name && !isSystemFunction name

/-- A call, a hierarchical name or a scoped name goes on after the identifier. -/
def nameGoesOn : List Token → Bool
  | .sym .lparen :: _ => true
  | .sym .dot :: _ => true
  | .sym .colon :: .sym .colon :: _ => true
  | _ => false

section

variable (other : ExprParse → ExprParse) (select : ExprParse → ExprValue → ExprParse)

def parseSelects (expr : ExprParse) (v : ExprValue) : ExprParse := fun ts b =>
  match ts with
  | .sym .lbracket :: _ => select expr v ts b
  | _ => (v, ts, b)

def parsePrimary (expr : ExprParse) : ExprParse := fun ts b =>
  match ts with
  | .ident name :: rest =>
    if !isPlainName name || nameGoesOn rest then other expr ts b
    else
      let v := onBuilder (nameValue name) b
      parseSelects select expr v.1 rest v.2
  | .number none :: rest =>
    let v := onBuilder (do
      reportError "invalid number literal"
      return makeBit (← makeLiteral .X)) b
    (v.1, rest, v.2)
  | .number (some (bits, isSigned)) :: rest =>
    let v := onBuilder (literalValue bits isSigned) b
    parseSelects select expr v.1 rest v.2
  | .sym (.text _) :: rest =>
    let v := onBuilder (do return makeBit (← makeLiteral .X)) b
    parseSelects select expr v.1 rest v.2
  | .sym .lbrace :: _ => other expr ts b
  | .sym .lparen :: rest =>
    let r := expr rest b
    let s := expectSym .rparen "expected ')'" r.2.1 r.2.2
    parseSelects select expr r.1 s.1 s.2
  | ts =>
    let v := onBuilder (do
      reportError "expected expression"
      return makeBit (← makeLiteral .X)) b
    parseSelects select expr v.1 ts.tail v.2

/-- `parse_power`. The number bounds the operators `**` in a row. -/
def parsePower (expr : ExprParse) : Nat → ExprParse
  | 0, ts, b => parsePrimary other select expr ts b
  | n + 1, ts, b =>
    let lhs := parsePrimary other select expr ts b
    match lhs.2.1 with
    | .sym .starStar :: rest => andThen (parsePower expr n) (arithPow lhs.1) rest lhs.2.2
    | _ => lhs

/-- Unary minus: the difference from zero in the width of the operand. -/
def negate (a : ExprValue) : Build ExprValue := do
  let z ← if a.isSigned then makeIntLiteral 0 a.width else makeUintLiteral 0 a.width
  resize (← arithSub z a) a.width a.isSigned

def unaryOp : Sym → Option (ExprValue → Build ExprValue)
  | .bang => some fun a => do return makeBit (← makeNot (← toBoolRoot a))
  | .tildeAmp => some fun a => do return makeBit (← makeNot (← reduceAndRoot a))
  | .tildeBar => some fun a => do return makeBit (← makeNot (← reduceOrRoot a))
  | .tildeCaret | .caretTilde => some fun a => do return makeBit (← makeNot (← reduceXorRoot a))
  | .amp => some fun a => do return makeBit (← reduceAndRoot a)
  | .bar => some fun a => do return makeBit (← reduceOrRoot a)
  | .caret => some fun a => do return makeBit (← reduceXorRoot a)
  | .plus => some pure
  | .minus => some negate
  | .tilde => some fun a => bitwiseUnary a .unaryNot
  | _ => none

/-- `parse_unary`. The number bounds the unary operators in a row. -/
def parseUnary (expr : ExprParse) : Nat → ExprParse
  | 0, ts, b => parsePower other select expr ts.length ts b
  | n + 1, ts, b =>
    match ts with
    | .sym s :: rest =>
      match unaryOp s with
      | some k => andThen (parseUnary expr n) k rest b
      | none => parsePower other select expr ts.length ts b
    | _ => parsePower other select expr ts.length ts b

/-- The loop that the parse functions of binary operators share. -/
def parseLeftAssoc (next : ExprParse) (ops : List BinOp) : ExprParse :=
  OpTree.leftAssoc (fun o => Token.sym o.sym) (fun o l r => onBuilder (o.apply l r)) next ops

def parseMul (expr : ExprParse) : ExprParse :=
  parseLeftAssoc (fun ts b => parseUnary other select expr ts.length ts b) [.mul, .div, .mod]

def parseAdd (expr : ExprParse) : ExprParse := parseLeftAssoc (parseMul other select expr) [.add, .sub]

def parseShift (expr : ExprParse) : ExprParse := parseLeftAssoc (parseAdd other select expr) [.shl, .shr]

def parseAnd (expr : ExprParse) : ExprParse := parseLeftAssoc (parseShift other select expr) [.and]

def parseXor (expr : ExprParse) : ExprParse :=
  parseLeftAssoc (parseAnd other select expr) [.xor, .xnor, .xnorAlt]

def parseOr (expr : ExprParse) : ExprParse := parseLeftAssoc (parseXor other select expr) [.or]

def parseRel (expr : ExprParse) : ExprParse := parseLeftAssoc (parseOr other select expr) [.lt, .le, .gt, .ge]

def parseEq (expr : ExprParse) : ExprParse :=
  parseLeftAssoc (parseRel other select expr) [.caseEq, .caseNeq, .eq, .neq]

def parseLand (expr : ExprParse) : ExprParse := parseLeftAssoc (parseEq other select expr) [.land]

def parseLor (expr : ExprParse) : ExprParse := parseLeftAssoc (parseLand other select expr) [.lor]

/-- `parse_cond`. The number bounds the nesting of expressions; every level of it takes a
token. -/
def parseCond : Nat → ExprParse
  | 0, ts, b => ({}, ts, b)
  | n + 1, ts, b =>
    let c := parseLor other select (parseCond n) ts b
    match c.2.1 with
    | .sym .question :: rest =>
      let t := parseCond n rest c.2.2
      let s := expectSym .colon "expected ':' in conditional operator" t.2.1 t.2.2
      let f := parseCond n s.1 s.2
      let v := onBuilder (makeConditional c.1 t.1 f.1) f.2.2
      (v.1, f.2.1, v.2)
    | _ => c

def parseExpr : ExprParse := fun ts b => parseCond other select (ts.length + 1) ts b

end

end PhyEngine.Verilog
