import Mathlib.Tactic.IntervalCases
import PhyEngine.Verilog.ExprParser

/-!
# The precedence of the operators

`ieeeLevel` is the table of IEEE 1364, `parserLevel` the order of the parse functions, where
comparisons bind weaker than bitwise operators. The two read an expression alike exactly if no
operand of a bitwise operator is a comparison outside parentheses (`Unmixed`).
-/

namespace PhyEngine.Verilog

open OpTree

inductive Atom where
  | name (s : { s : String // isPlainName s = true })
  | literal (bits : List LogicT) (isSigned : Bool)
  deriving DecidableEq

abbrev VExpr := OpTree Atom BinOp

def lexicon : Lexicon Atom BinOp Token where
  atom
    | .name s => .ident s.1
    | .literal bits isSigned => .number (some (bits, isSigned))
  op o := .sym o.sym
  lparen := .sym .lparen
  rparen := .sym .rparen
  question := .sym .question
  colon := .sym .colon

def exprActions : Actions Atom BinOp ExprValue ExprBuilder where
  atom
    | .name s => onBuilder (nameValue s.1)
    | .literal bits isSigned => onBuilder (literalValue bits isSigned)
  bin o l r := onBuilder (o.apply l r)
  cond c t f := onBuilder (makeConditional c t f)

def ieeeLevel : BinOp → Nat
  | .mul | .div | .mod => 0
  | .add | .sub => 1
  | .shl | .shr => 2
  | .lt | .le | .gt | .ge => 3
  | .eq | .neq | .caseEq | .caseNeq => 4
  | .and => 5
  | .xor | .xnor | .xnorAlt => 6
  | .or => 7
  | .land => 8
  | .lor => 9

def parserTable : List (List BinOp) :=
  [[.mul, .div, .mod], [.add, .sub], [.shl, .shr], [.and], [.xor, .xnor, .xnorAlt], [.or],
    [.lt, .le, .gt, .ge], [.caseEq, .caseNeq, .eq, .neq], [.land], [.lor]]

/-- The position of an operator in the chain of parse functions. -/
def parserLevel : BinOp → Nat
  | .mul | .div | .mod => 0
  | .add | .sub => 1
  | .shl | .shr => 2
  | .and => 3
  | .xor | .xnor | .xnorAlt => 4
  | .or => 5
  | .lt | .le | .gt | .ge => 6
  | .eq | .neq | .caseEq | .caseNeq => 7
  | .land => 8
  | .lor => 9

theorem mem_parserTable (i : Nat) (o : BinOp) :
    o ∈ parserTable.getD i [] ↔ parserLevel o = 0 + i ∧ i < parserTable.length := by
  by_cases hi : i < 10
  · interval_cases i <;> cases o <;> decide
  · have hlen : parserTable.length = 10 := rfl
    simp [List.getD, hlen, hi]

theorem parserLevel_lt (o : BinOp) : parserLevel o < 10 := by
  cases o <;> decide

theorem sym_injective (o p : BinOp) (h : lexicon.op o = lexicon.op p) : o = p := by
  revert h
  cases o <;> cases p <;> decide

/-- No select, power, call or longer name goes on after the operand. -/
def OperandEnds (R : List Token) : Prop :=
  nameGoesOn R = false ∧ R.head? ≠ some (.sym .lbracket) ∧ R.head? ≠ some (.sym .starStar)

instance (R : List Token) : Decidable (OperandEnds R) := by unfold OperandEnds; infer_instance

def ExprEnds (R : List Token) : Prop :=
  OperandEnds R ∧ R.head? ≠ some (.sym .question) ∧ ∀ o : BinOp, R.head? ≠ some (.sym o.sym)

theorem operandEnds_op (o : BinOp) (R : List Token) : OperandEnds (lexicon.op o :: R) := by
  cases o <;> exact ⟨rfl, by simp [lexicon, BinOp.sym], by simp [lexicon, BinOp.sym]⟩

theorem operandEnds_question (R : List Token) : OperandEnds (.sym .question :: R) :=
  ⟨rfl, by simp, by simp⟩

theorem exprEnds_rparen (R : List Token) : ExprEnds (.sym .rparen :: R) :=
  ⟨⟨rfl, by simp, by simp⟩, by simp, fun o => by cases o <;> simp [BinOp.sym]⟩

theorem exprEnds_colon (t : VExpr) (R : List Token) :
    ExprEnds (.sym .colon :: (t.tokens lexicon ++ R)) := by
  have hhead : nameGoesOn (.sym .colon :: (t.tokens lexicon ++ R)) = false := by
    induction t generalizing R with
    | atom k => cases k <;> rfl
    | paren t _ => rfl
    | bin o l r ihl _ => simpa [tokens] using ihl (lexicon.op o :: (r.tokens lexicon ++ R))
    | cond c t f ihc _ _ =>
      simpa [tokens] using
        ihc (lexicon.question :: (t.tokens lexicon ++ lexicon.colon :: (f.tokens lexicon ++ R)))
  exact ⟨⟨hhead, by simp, by simp⟩, by simp, fun o => by cases o <;> simp [BinOp.sym]⟩

variable {R : List Token}

theorem ExprEnds.stops (h : ExprEnds R) (j : Nat) :
    Stops lexicon parserLevel OperandEnds j R := by
  refine ⟨h.1, fun t ht o ho => absurd ?_ (h.2.2 o)⟩
  rw [show Token.sym o.sym = t from ho]
  exact ht

theorem stops_question (R : List Token) (j : Nat) :
    Stops lexicon parserLevel OperandEnds j (.sym .question :: R) := by
  refine ⟨operandEnds_question R, fun t ht o ho => ?_⟩
  obtain rfl : Token.sym .question = t := by simpa using ht
  cases o <;> simp [lexicon, BinOp.sym] at ho

section

variable (other : ExprParse → ExprParse) (select : ExprParse → ExprValue → ExprParse)

theorem parseSelects_ends (hR : OperandEnds R) (expr : ExprParse) (v : ExprValue) (b : ExprBuilder) :
    parseSelects select expr v R b = (v, R, b) := by
  unfold parseSelects
  split
  · exact absurd rfl hR.2.1
  · rfl

variable (expr : ExprParse)

theorem parsePrimary_atom (k : Atom) (hR : OperandEnds R) (b : ExprBuilder) :
    parsePrimary other select expr (lexicon.atom k :: R) b =
      ((exprActions.atom k b).1, R, (exprActions.atom k b).2) := by
  cases k with
  | name s =>
    simp only [parsePrimary, lexicon, s.2, hR.1, Bool.not_true, Bool.or_self, Bool.false_eq_true, if_false]
    exact parseSelects_ends select hR expr _ _
  | literal bits isSigned => exact parseSelects_ends select hR expr _ _

variable {ts : List Token} {b b' : ExprBuilder} {v : ExprValue}

theorem parsePrimary_paren (hR : OperandEnds R) (hexpr : expr ts b = (v, .sym .rparen :: R, b')) :
    parsePrimary other select expr (.sym .lparen :: ts) b = (v, R, b') := by
  simp only [parsePrimary, hexpr, expectSym, if_true]
  exact parseSelects_ends select hR expr v b'

theorem parsePower_primary (hR : OperandEnds R)
    (hprim : parsePrimary other select expr ts b = (v, R, b')) (n : Nat) :
    parsePower other select expr n ts b = (v, R, b') := by
  cases n with
  | zero => exact hprim
  | succ n =>
    simp only [parsePower, hprim]
    split
    · exact absurd rfl hR.2.2
    · rfl

theorem parseUnary_primary {t : Token} (ht : ∀ s, t = .sym s → unaryOp s = none) (hR : OperandEnds R)
    (hprim : parsePrimary other select expr (t :: ts) b = (v, R, b')) (n : Nat) :
    parseUnary other select expr n (t :: ts) b = (v, R, b') := by
  have hpower := parsePower_primary other select expr hR hprim (t :: ts).length
  cases n with
  | zero => exact hpower
  | succ n =>
    cases t with
    | sym s =>
      simp only [parseUnary, ht s rfl]
      exact hpower
    | ident name => exact hpower
    | number lit => exact hpower

theorem parseLor_eq_layers :
    parseLor other select expr =
      layers lexicon.op exprActions.bin (fun ts b => parseUnary other select expr ts.length ts b)
        parserTable := rfl

theorem reads_parseUnary {n : Nat} {expr : ExprParse}
    (hexpr : ∀ (t : VExpr) (R : List Token) (b : ExprBuilder), (t.tokens lexicon).length < n →
      t.WellPrec parserLevel → ExprEnds R →
      expr (t.tokens lexicon ++ R) b = ((t.build exprActions b).1, R, (t.build exprActions b).2)) :
    Reads lexicon exprActions parserLevel (fun t => (t.tokens lexicon).length ≤ n) OperandEnds 0
      (fun ts b => parseUnary other select expr ts.length ts b) := by
  intro t hc ht hs hlen R b hR
  cases t with
  | atom k =>
    refine parseUnary_primary other select expr ?_ hR.1 (parsePrimary_atom other select expr k hR.1 b) _
    cases k <;> simp [lexicon]
  | paren t =>
    have hinner : expr (t.tokens lexicon ++ .sym .rparen :: R) b =
        ((t.build exprActions b).1, .sym .rparen :: R, (t.build exprActions b).2) := by
      refine hexpr t _ b ?_ ht (exprEnds_rparen R)
      simp only [tokens, List.length_cons, List.length_append] at hlen
      omega
    have hprim := parsePrimary_paren other select expr hR.1 hinner
    simp only [tokens, List.cons_append, List.append_assoc, List.nil_append]
    refine parseUnary_primary other select expr ?_ hR.1 hprim _
    intro s hs
    obtain rfl : Sym.lparen = s := by simpa [lexicon] using hs
    rfl
  | bin o l r => exact absurd (hs o (by simp [spine])) (Nat.not_lt_zero _)
  | cond c t f => exact absurd hc (by simp [isCond])

/-- `parse_cond` reads every expression of the parser's table: it builds the tree and stops
behind it. -/
theorem parseCond_tokens (n : Nat) (t : VExpr) (R : List Token) (b : ExprBuilder)
    (hn : (t.tokens lexicon).length < n) (ht : t.WellPrec parserLevel) (hR : ExprEnds R) :
    parseCond other select n (t.tokens lexicon ++ R) b =
      ((t.build exprActions b).1, R, (t.build exprActions b).2) := by
  -- by the nesting; the loops below a level are read by the rule of `layers`
  induction n generalizing t R b with
  | zero => exact absurd hn (Nat.not_lt_zero _)
  | succ n ih =>
    have hreads : Reads lexicon exprActions parserLevel (fun t => (t.tokens lexicon).length ≤ n)
        OperandEnds (0 + parserTable.length) (parseLor other select (parseCond other select n)) := by
      rw [parseLor_eq_layers]
      refine reads_layers mem_parserTable operandEnds_op sym_injective ?_
        (reads_parseUnary other select fun t R b hlen hwp hends => ih t R b hlen hwp hends)
      intro o l r hlen
      simp only [tokens, List.length_append, List.length_cons] at hlen
      omega
    have hlow : ∀ t : VExpr, ∀ p ∈ t.spine, parserLevel p < 0 + parserTable.length :=
      fun _ p _ => parserLevel_lt p
    cases hcond : t.isCond with
    | false =>
      have hlor := hreads t hcond ht (hlow t) (by omega) R b (hR.stops _)
      simp only [parseCond, hlor]
      split
      · exact absurd rfl hR.2.1
      · rfl
    | true =>
      cases t with
      | atom k => cases hcond
      | paren t => cases hcond
      | bin o l r => cases hcond
      | cond c t f =>
        obtain ⟨hc, hwc, hwt, hwf⟩ := ht
        simp only [tokens, List.length_append, List.length_cons] at hn
        have hlor := hreads c hc hwc (hlow c) (by omega)
          (.sym .question :: (t.tokens lexicon ++ .sym .colon :: (f.tokens lexicon ++ R))) b
          (stops_question _ _)
        have hthen := ih t (.sym .colon :: (f.tokens lexicon ++ R)) (c.build exprActions b).2 (by omega)
          hwt (exprEnds_colon f R)
        have helse := ih f R (t.build exprActions (c.build exprActions b).2).2 (by omega) hwf hR
        simp only [tokens, List.append_assoc, List.cons_append]
        rw [parseCond]
        simp only [show lexicon.question = .sym .question from rfl, show lexicon.colon = .sym .colon from rfl]
        simp only [hlor, hthen, expectSym, if_true, helse]
        rfl

theorem parseExpr_tokens (t : VExpr) (R : List Token) (b : ExprBuilder)
    (ht : t.WellPrec parserLevel) (hR : ExprEnds R) :
    parseExpr other select (t.tokens lexicon ++ R) b =
      ((t.build exprActions b).1, R, (t.build exprActions b).2) := by
  refine parseCond_tokens other select _ t R b ?_ ht hR
  rw [List.length_append]
  omega

end

def BinOp.isBitwise : BinOp → Bool
  | and | xor | xnor | xnorAlt | or => true
  | _ => false

def BinOp.isComparison : BinOp → Bool
  | lt | le | gt | ge | caseEq | caseNeq | eq | neq => true
  | _ => false

/-- No operand of a bitwise operator has a comparison outside parentheses. -/
def Unmixed : VExpr → Prop
  | .atom _ => True
  | .paren t => Unmixed t
  | .bin o l r =>
    (o.isBitwise = true → ∀ p ∈ l.spine ++ r.spine, p.isComparison = false) ∧ Unmixed l ∧ Unmixed r
  | .cond c t f => Unmixed c ∧ Unmixed t ∧ Unmixed f

/-- Below an operator of the IEEE table, the parser's table agrees unless a comparison
stands below a bitwise operator. -/
theorem parserLevel_le_iff {o p : BinOp} (h : ieeeLevel p ≤ ieeeLevel o) :
    parserLevel p ≤ parserLevel o ↔ (o.isBitwise = true → p.isComparison = false) := by
  revert h
  cases o <;> cases p <;> decide

theorem parserLevel_lt_iff {o p : BinOp} (h : ieeeLevel p < ieeeLevel o) :
    parserLevel p < parserLevel o ↔ (o.isBitwise = true → p.isComparison = false) := by
  revert h
  cases o <;> cases p <;> decide

theorem wellPrec_parserLevel_iff {t : VExpr} (ht : t.WellPrec ieeeLevel) :
    t.WellPrec parserLevel ↔ Unmixed t := by
  induction t with
  | atom k => exact Iff.rfl
  | paren t ih => exact ih ht
  | cond c t f ihc iht ihf =>
    obtain ⟨hc, hwc, hwt, hwf⟩ := ht
    rw [WellPrec, Unmixed, ihc hwc, iht hwt, ihf hwf]
    exact and_iff_right hc
  | bin o l r ihl ihr =>
    obtain ⟨⟨hcl, hl⟩, ⟨hcr, hr⟩, hwl, hwr⟩ := ht
    rw [WellPrec, Unmixed, ihl hwl, ihr hwr]
    constructor
    · rintro ⟨⟨-, hpl⟩, ⟨-, hpr⟩, hul, hur⟩
      refine ⟨fun ho p hp => ?_, hul, hur⟩
      rcases List.mem_append.mp hp with hp | hp
      · exact (parserLevel_le_iff (hl p hp)).mp (hpl p hp) ho
      · exact (parserLevel_lt_iff (hr p hp)).mp (hpr p hp) ho
    · rintro ⟨ho, hul, hur⟩
      refine ⟨⟨hcl, fun p hp => ?_⟩, ⟨hcr, fun p hp => ?_⟩, hul, hur⟩
      · exact (parserLevel_le_iff (hl p hp)).mpr fun hb => ho hb p (List.mem_append_left _ hp)
      · exact (parserLevel_lt_iff (hr p hp)).mpr fun hb => ho hb p (List.mem_append_right _ hp)

/-- The values of the bits that a parse returns, in the arena it leaves. -/
def denoteParse (r : ExprValue × List Token × ExprBuilder) (values : List LogicT) : List LogicT :=
  r.2.2.denote r.1 values

/-- An expression without mixtures of bitwise operators and comparisons has the value of
its fully parenthesised form under the IEEE table. -/
theorem denoteParse_full (t : VExpr) (ht : t.WellPrec ieeeLevel) :
    (t.WellPrec parserLevel ↔ Unmixed t) ∧
      (Unmixed t → ∀ other select R b values, ExprEnds R →
        denoteParse (parseExpr other select (t.tokens lexicon ++ R) b) values =
          denoteParse (parseExpr other select (t.full.tokens lexicon ++ R) b) values) := by
  have hiff := wellPrec_parserLevel_iff ht
  refine ⟨hiff, fun hu other select R b values hR => ?_⟩
  rw [parseExpr_tokens other select t R b (hiff.mpr hu) hR,
    parseExpr_tokens other select t.full R b (wellPrec_full parserLevel t) hR, build_full]

def letter (s : String) (h : isPlainName s = true := by decide) : VExpr := .atom (.name ⟨s, h⟩)

def sumExpr : VExpr := .bin .eq (.bin .add (letter "a") (letter "b")) (letter "c")

theorem denoteParse_full_sumExpr :
    denoteParse (parseExpr id (fun _ v ts b => (v, ts, b)) (sumExpr.tokens lexicon ++ []) {}) [.H, .L, .H] =
      denoteParse (parseExpr id (fun _ v ts b => (v, ts, b)) (sumExpr.full.tokens lexicon ++ []) {})
        [.H, .L, .H] := by
  have ht : sumExpr.WellPrec ieeeLevel := by
    simp [sumExpr, letter, WellPrec, isCond, spine, ieeeLevel]
  have hu : Unmixed sumExpr := by
    simp [sumExpr, letter, Unmixed, spine, BinOp.isBitwise]
  have hend : ExprEnds [] := ⟨⟨rfl, by simp, by simp⟩, by simp, by simp⟩
  exact (denoteParse_full sumExpr ht).2 hu _ _ [] {} _ hend

/-- `a & b == c`: the table of IEEE 1364 compares first, the parser compares last. -/
def mixedExpr : VExpr := .bin .and (letter "a") (.bin .eq (letter "b") (letter "c"))

/-- With three low signals the parser finds `a & b == c` high, while `(a) & ((b) == (c))`
is low. -/
theorem not_denoteParse_full_mixed :
    ¬ ∀ t : VExpr, t.WellPrec ieeeLevel → ∀ other select R b values, ExprEnds R →
      (parseExpr other select (t.tokens lexicon ++ R) b).2.2.errors = [] →
      denoteParse (parseExpr other select (t.tokens lexicon ++ R) b) values =
        denoteParse (parseExpr other select (t.full.tokens lexicon ++ R) b) values := by
  intro h
  have ht : mixedExpr.WellPrec ieeeLevel := by
    simp [mixedExpr, letter, WellPrec, isCond, spine, ieeeLevel]
  have hend : ExprEnds [] := ⟨⟨rfl, by simp, by simp⟩, by simp, by simp⟩
  have heq := h mixedExpr ht id (fun _ v ts b => (v, ts, b)) [] {} [.L, .L, .L] hend (by decide)
  revert heq
  decide

end PhyEngine.Verilog
