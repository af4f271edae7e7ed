import PhyEngine.Verilog.Exec

/-!
# Building expressions

The part of `expr_parser` that turns operators into nodes of the expression arena: a list of
bit-level roots for every value. The state is what these functions read and write of the module;
the intern table is the arena itself.
-/

namespace PhyEngine.Verilog

open LogicT

def sizeMax : Nat := 2 ^ 64 - 1

/-- `expr_value`: one root or the roots from the most significant bit on. -/
structure ExprValue where
  isVector : Bool := false
  isSigned : Bool := false
  scalarRoot : Nat := sizeMax
  vectorRoots : List Nat := []
  msb : Int := 0
  lsb : Int := 0
  deriving DecidableEq

/-- The fields of `compiled_module` and `expr_parser` that expressions use. -/
structure ExprBuilder where
  exprNodes : List ExprNode := []
  vectors : List (String × VectorDesc) := []
  signalNames : List String := []
  signalIndex : List (String × Nat) := []
  signalIsSigned : List Bool := []
  signalIsConst : List Bool := []
  signalIsConstFoldable : List Bool := []
  signalConstValue : List LogicT := []
  constIdents : List (String × UInt64) := []
  substIdents : List (String × ExprValue) := []
  errors : List String := []
  deriving DecidableEq

abbrev Build := StateM ExprBuilder

def maxExprNodes : Nat := 100000

def maxConcatBits : Nat := 4096

def reportError (msg : String) : Build Unit := modify fun m => { m with errors := m.errors ++ [msg] }

/-- The end of `add_node`: the index of an equal node, or of a new one. -/
def internNode (n : ExprNode) : Build Nat := do
  let m ← get
  match m.exprNodes.findIdx? (· = n) with
  | some i => return i
  | none =>
    if maxExprNodes ≤ m.exprNodes.length then
      reportError "expression too large (node limit exceeded)"
      return sizeMax
    else
      set { m with exprNodes := m.exprNodes ++ [n] }
      return m.exprNodes.length

def ExprBuilder.tryGetLiteral (m : ExprBuilder) (root : Nat) : Option LogicT :=
  match m.exprNodes[root]? with
  | some (.literal v) => some v
  | _ => none

def ExprBuilder.foldNode (m : ExprBuilder) (n : ExprNode) : ExprNode :=
  let unary (f : LogicT → LogicT) (a : Nat) : ExprNode :=
    match m.tryGetLiteral a with
    | some v => .literal (f v)
    | none => n
  let binary (f : LogicT → LogicT → LogicT) (a b : Nat) : ExprNode :=
    match m.tryGetLiteral a, m.tryGetLiteral b with
    | some v, some w => .literal (f v w)
    | _, _ => n
  match n with
  | .literal v => .literal v
  | .signal s =>
    if s < m.signalIsConst.length ∧ s < m.signalConstValue.length ∧ m.signalIsConst.getD s false = true ∧
        m.signalIsConstFoldable.getD s false = true then .literal (m.signalConstValue.getD s .X)
    else .signal s
  | .isUnknown a => unary (fun v => ofBool v.isUnknown) a
  | .unaryNot a => unary logicNot a
  | .binaryAnd a b => binary logicAnd a b
  | .binaryOr a b => binary logicOr a b
  | .binaryXor a b => binary logicXor a b
  | .binaryEq a b => binary logicEq a b
  | .binaryNeq a b => binary logicNeq a b
  | .binaryCaseEq a b => binary caseEq a b

def addNode (n : ExprNode) : Build Nat := do
  let m ← get
  internNode (m.foldNode n)

def makeLiteral (v : LogicT) : Build Nat := addNode (.literal v)

def makeSignalRoot (s : Nat) : Build Nat := addNode (.signal s)

def makeIsUnknown (a : Nat) : Build Nat := addNode (.isUnknown a)

def makeNot (a : Nat) : Build Nat := addNode (.unaryNot a)

def makeAnd (a b : Nat) : Build Nat := addNode (.binaryAnd a b)

def makeOr (a b : Nat) : Build Nat := addNode (.binaryOr a b)

def makeXor (a b : Nat) : Build Nat := addNode (.binaryXor a b)

def makeMux (sel t f : Nat) : Build Nat := do
  let nsel ← makeNot sel
  let a ← makeAnd sel t
  let b ← makeAnd nsel f
  makeOr a b

def makeScalar (root : Nat) (msb lsb : Int) (isSigned : Bool) : ExprValue :=
  { isSigned, scalarRoot := root, msb, lsb }

def makeBit (root : Nat) : ExprValue := makeScalar root 0 0 false

def makeVectorWithRange (roots : List Nat) (msb lsb : Int) (isSigned : Bool) : Build ExprValue :=
  match roots with
  | [] => return makeScalar (← makeLiteral .X) 0 0 isSigned
  | [r] => return makeScalar r msb lsb isSigned
  | roots => return { isVector := true, isSigned, vectorRoots := roots, msb, lsb }

def makeVector (roots : List Nat) (isSigned : Bool) : Build ExprValue := do
  if maxConcatBits < roots.length then reportError "vector expression too wide (limit exceeded)"
  let roots := roots.take maxConcatBits
  makeVectorWithRange roots (roots.length - 1) 0 isSigned

variable (v : ExprValue)

def ExprValue.roots : List Nat := if v.isVector then v.vectorRoots else [v.scalarRoot]

def ExprValue.width : Nat := if v.isVector then v.vectorRoots.length else 1

def resizeToVector (w : Nat) (signExtend : Bool) : Build (List Nat) := do
  let src := v.roots
  if w ≤ 1 then return [src.getLastD sizeMax]
  else if src.length = w then return src
  else if w < src.length then return src.drop (src.length - w)
  else
    let z ← makeLiteral .L
    let fill := if signExtend then src.headD z else z
    return List.replicate (w - src.length) fill ++ src

def resize (w : Nat) (signExtend : Bool) : Build ExprValue := do
  if w ≤ 1 then
    let vv ← resizeToVector v 1 signExtend
    return makeScalar (vv.headD sizeMax) 0 0 v.isSigned
  else makeVector (← resizeToVector v w signExtend) v.isSigned

variable (a b : ExprValue)

/-- The two operands of a binary operator, resized to a common width. -/
def resizeOperands (w : Nat) (signedOp : Bool) : Build (List Nat × List Nat) := do
  let av ← resizeToVector a w signedOp
  let bv ← resizeToVector b w signedOp
  return (av, bv)

def signedOp : Bool := a.isSigned && b.isSigned

def toBoolRoot (v : ExprValue) : Build Nat :=
  if !v.isVector then return v.scalarRoot
  else
    match v.vectorRoots with
    | [] => makeLiteral .X
    | r :: rs => rs.foldlM makeOr r

/-- The conjunction over the bits of `compare_eq` and `compare_case_eq`. -/
def compareBits (k : Nat → Nat → ExprNode) (a b : ExprValue) : Build Nat := do
  let (av, bv) ← resizeOperands a b (max a.width b.width) (signedOp a b)
  match av.zip bv with
  | [] => return sizeMax
  | p :: ps =>
    let r ← addNode (k p.1 p.2)
    ps.foldlM (fun r q => do makeAnd r (← addNode (k q.1 q.2))) r

def compareEq : Build Nat := compareBits .binaryEq a b

def compareCaseEq : Build Nat := compareBits .binaryCaseEq a b

def bitwiseUnary (a : ExprValue) (k : Nat → ExprNode) : Build ExprValue := do
  if !a.isVector then return makeScalar (← addNode (k a.scalarRoot)) 0 0 a.isSigned
  else makeVector (← a.vectorRoots.mapM fun r => addNode (k r)) a.isSigned

def bitwiseBinary (k : Nat → Nat → ExprNode) : Build ExprValue := do
  let w := max a.width b.width
  let (av, bv) ← resizeOperands a b w (signedOp a b)
  if w = 1 then return makeScalar (← addNode (k (av.headD sizeMax) (bv.headD sizeMax))) 0 0 (signedOp a b)
  else makeVector (← (av.zip bv).mapM fun p => addNode (k p.1 p.2)) (signedOp a b)

def ExprBuilder.constValues (m : ExprBuilder) : List LogicT :=
  List.zipWith (fun c v => if c then v else .X) m.signalIsConst m.signalConstValue

/-- `eval_const_root_cached`. Operands have smaller indices, so the root bounds the depth. -/
def ExprBuilder.evalConstRoot (m : ExprBuilder) (root : Nat) : LogicT :=
  evalNode m.exprNodes m.constValues (root + 1) root

def ExprBuilder.constBits (m : ExprBuilder) (v : ExprValue) : Option (List Bool) :=
  v.roots.reverse.mapM fun r => (m.evalConstRoot r).normalizeZToX.toBool?

/-- The number that bits from the least significant one on stand for. -/
def ofBits (bits : List Bool) : Nat := bits.foldr (fun b n => b.toNat + 2 * n) 0

def ExprBuilder.tryEvalConstUint64 (m : ExprBuilder) (v : ExprValue) : Option Nat := do
  let bits ← m.constBits v
  if bits = [] ∨ true ∈ bits.drop 64 then none
  else some (ofBits (bits.take 64))

def ExprBuilder.tryEvalConstInt64 (m : ExprBuilder) (v : ExprValue) (signedValue : Bool) : Option Int := do
  let bits ← m.constBits v
  let signBit := bits.getLastD false
  let value := ofBits (bits.take 64)
  if bits = [] then none
  else if signedValue then
    if (!signBit) ∈ bits.drop 64 then none
    else if 64 < bits.length ∧ value.testBit 63 ≠ signBit then none
    else some (if signBit then (value : Int) - 2 ^ min bits.length 64 else value)
  else if true ∈ bits.drop 64 ∨ 2 ^ 63 ≤ value then none
  else some value

def ExprBuilder.tryEvalConstInt (m : ExprBuilder) (v : ExprValue) : Option Nat := do
  let u ← m.tryEvalConstUint64 v
  if 2 ^ 31 ≤ u then none else some u

/-- The literal with the bits `bit 0`, `bit 1`, … from the least significant one on. -/
def literalRoots (bit : Nat → Bool) (w : Nat) : Build (List Nat) := do
  let roots ← (List.range w).mapM fun i => makeLiteral (ofBool (bit i))
  return roots.reverse

def makeUintLiteral (value w : Nat) : Build ExprValue := do
  let bit i := i < 64 && value.testBit i
  if w ≤ 1 then return makeBit (← makeLiteral (ofBool (bit 0)))
  else makeVector (← literalRoots bit w) false

def makeIntLiteral (value : Int) (w : Nat) : Build ExprValue := do
  let raw := (value % 2 ^ 64).toNat
  let bit i := if i < 64 then raw.testBit i else decide (value < 0)
  if w ≤ 1 then return makeBit (← makeLiteral (ofBool (bit 0)))
  else makeVector (← literalRoots bit w) true

def anyUnknownRoot (v : ExprValue) : Build Nat := do
  if !v.isVector then makeIsUnknown v.scalarRoot
  else if v.vectorRoots = [] then makeLiteral .H
  else v.vectorRoots.foldlM (fun r bit => do makeOr r (← makeIsUnknown bit)) (← makeLiteral .L)

def makeUnknownVector (w : Nat) (isSigned : Bool) : Build ExprValue := do
  let x ← makeLiteral .X
  if w ≤ 1 then return makeScalar x 0 0 isSigned
  else makeVector (List.replicate w x) isSigned

def unknownSel : Build Nat := do
  let ua ← anyUnknownRoot a
  let ub ← anyUnknownRoot b
  makeOr ua ub

/-- The bits, or `X` in all of them while `sel` is high. -/
def muxUnknown (sel : Nat) (roots : List Nat) : Build (List Nat) := do
  let x ← makeLiteral .X
  roots.mapM fun r => makeMux sel x r

def limitWidth (w : Nat) (msg : String) : Build Nat := do
  if maxConcatBits < w then reportError msg
  return min w maxConcatBits

/-- The ripple-carry chain of `arith_add` and `arith_sub`. Bits are listed from the most
significant one on, the carry runs the other way; `invert` is what happens to a bit of the
second operand when its round comes. -/
def rippleCarry (invert : Nat → Build Nat) (av bv : List Nat) (carry : Nat) : Build (List Nat) := do
  let (_, out) ← (av.zip bv).reverse.foldlM (fun (c, out) (ai, b) => do
    let bi ← invert b
    let axb ← makeXor ai bi
    let s ← makeXor axb c
    let t1 ← makeAnd ai bi
    let t2 ← makeAnd ai c
    let t3 ← makeAnd bi c
    let c ← makeOr (← makeOr t1 t2) t3
    return (c, s :: out)) (carry, [])
  return out

/-- The result of one bit of `arith_add`, `arith_sub` and `arith_mul`. -/
def arithBit (k : Nat → Nat → Build Nat) (a b : ExprValue) (sel : Nat) : Build ExprValue := do
  let (av, bv) ← resizeOperands a b 1 (signedOp a b)
  let r ← k (av.headD sizeMax) (bv.headD sizeMax)
  let x ← makeLiteral .X
  return makeScalar (← makeMux sel x r) 0 0 (signedOp a b)

def arithAdd : Build ExprValue := do
  let w ← limitWidth (max a.width b.width) "addition result too wide (limit exceeded)"
  let sel ← unknownSel a b
  if w ≤ 1 then arithBit makeXor a b sel
  else
    let (av, bv) ← resizeOperands a b w (signedOp a b)
    let out ← rippleCarry pure av bv (← makeLiteral .L)
    makeVector (← muxUnknown sel out) (signedOp a b)

def arithSub : Build ExprValue := do
  let w ← limitWidth (max a.width b.width) "subtraction result too wide (limit exceeded)"
  let sel ← unknownSel a b
  if w ≤ 1 then arithBit makeXor a b sel
  else
    let (av, bv) ← resizeOperands a b w (signedOp a b)
    let out ← rippleCarry makeNot av bv (← makeLiteral .H)
    makeVector (← muxUnknown sel out) (signedOp a b)

/-- `mul2_tile`: the product of two 2-bit numbers, from the least significant bit on. -/
def mul2Tile (a0 a1 b0 b1 : Nat) : Build (List Nat) := do
  let p0 ← makeAnd a0 b0
  let t1 ← makeAnd a0 b1
  let t2 ← makeAnd a1 b0
  let p1 ← makeXor t1 t2
  let c1 ← makeAnd t1 t2
  let t3 ← makeAnd a1 b1
  let p2 ← makeXor t3 c1
  let p3 ← makeAnd t3 c1
  return [p0, p1, p2, p3]

def mulBytes (sel : Nat) : Build ExprValue := do
  let (av, bv) ← resizeOperands a b 8 false
  let z ← makeLiteral .L
  let bit (v : List Nat) (i : Nat) := v.reverse.getD i z
  let tiles := (List.range 4).flatMap fun ai => (List.range 4).map fun bi => (ai, bi)
  let acc ← tiles.foldlM (fun acc (ai, bi) => do
    let prod ← mul2Tile (bit av (2 * ai)) (bit av (2 * ai + 1)) (bit bv (2 * bi)) (bit bv (2 * bi + 1))
    let shift := 2 * (ai + bi)
    let partialBits := (List.replicate shift z ++ prod ++ List.replicate (12 - shift) z).reverse
    arithAdd acc (← makeVector partialBits false)) (← makeUintLiteral 0 16)
  return { acc with vectorRoots := ← muxUnknown sel acc.vectorRoots, isSigned := false }

def arithMul : Build ExprValue := do
  let w ← limitWidth (a.width + b.width) "multiplication result too wide (limit exceeded)"
  let sel ← unknownSel a b
  let sgn := signedOp a b
  if sgn = false ∧ a.width = 8 ∧ b.width = 8 then mulBytes a b sel
  else if w ≤ 1 then arithBit makeAnd a b sel
  else
    let (av, bv) ← resizeOperands a b w sgn
    let zero ← if sgn then makeIntLiteral 0 w else makeUintLiteral 0 w
    let z ← makeLiteral .L
    let acc ← bv.reverse.zipIdx.foldlM (fun acc (bbit, i) => do
      let shifted ← (av.drop i).mapM fun r => makeAnd r bbit
      arithAdd acc (← makeVector (shifted ++ List.replicate (w - shifted.length) z) sgn)) zero
    if !acc.isVector then return acc
    else return { acc with vectorRoots := ← muxUnknown sel acc.vectorRoots, isSigned := sgn }

/-- `arith_div` and `arith_mod`: constants only, any other operand gives unknown bits. -/
def arithConst (onInt : Int → Int → Int) (onUint : Nat → Nat → Nat) (a b : ExprValue) : Build ExprValue := do
  let sgn := signedOp a b
  let w := max a.width b.width
  let avv ← resize a w sgn
  let bvv ← resize b w sgn
  let m ← get
  if sgn then
    match m.tryEvalConstInt64 avv true, m.tryEvalConstInt64 bvv true with
    | some av, some bv => if bv = 0 then makeUnknownVector w true else makeIntLiteral (onInt av bv) w
    | _, _ => makeUnknownVector w true
  else
    match m.tryEvalConstUint64 avv, m.tryEvalConstUint64 bvv with
    | some av, some bv => if bv = 0 then makeUnknownVector w false else makeUintLiteral (onUint av bv) w
    | _, _ => makeUnknownVector w false

def arithDiv : Build ExprValue := arithConst Int.tdiv (· / ·) a b

def arithMod : Build ExprValue := arithConst Int.tmod (· % ·) a b

/-- The loop of `arith_pow`; an exponent has at most 64 bits. -/
def powLoop (mask : Nat) : Nat → Nat → Nat → Nat → Nat
  | 0, _, _, result => result
  | n + 1, exp, base, result =>
    if exp = 0 then result
    else
      let result := if exp % 2 = 1 then result * base % mask else result
      powLoop mask n (exp / 2) (base * base % mask) result

def arithPow : Build ExprValue := do
  let sgn := signedOp a b
  let w := max a.width b.width
  if 64 < w then makeUnknownVector w sgn
  else
    let avv ← resize a w sgn
    let bvv ← resize b w false
    let m ← get
    match m.tryEvalConstInt64 bvv b.isSigned, m.tryEvalConstUint64 avv with
    | some exp, some base =>
      if exp < 0 then makeUnknownVector w sgn
      else
        let result := powLoop (2 ^ w) 64 exp.toNat (base % 2 ^ w) (1 % 2 ^ w)
        if sgn then makeIntLiteral (if 2 ^ 63 ≤ result then result - 2 ^ 64 else result) w
        else makeUintLiteral result w
    | _, _ => makeUnknownVector w sgn

def shiftBits (w : Nat) : Nat := ((List.range 64).find? fun n => w ≤ 2 ^ n).getD 64

/-- `shift_left` and `shift_right`: `move s` shifts the bits by `s` places and fills in zeros. -/
def shiftBy (move : Nat → Nat → List Nat → List Nat) (v sh : ExprValue) : Build ExprValue := do
  let w := v.width
  if w ≤ 1 then resize v 1 false
  else
    let sel ← anyUnknownRoot sh
    let m ← get
    let cur ← resizeToVector v w false
    match m.tryEvalConstInt sh with
    | some s =>
      let z ← makeLiteral .L
      makeVector (← muxUnknown sel (move s z cur)) v.isSigned
    | none =>
      let nbits := shiftBits w
      let shv ← resizeToVector sh nbits false
      let z ← makeLiteral .L
      let cur ← shv.reverse.zipIdx.foldlM (fun cur (bit, k) =>
        (cur.zip (move (2 ^ k) z cur)).mapM fun p => makeMux bit p.2 p.1) cur
      makeVector (← muxUnknown sel cur) v.isSigned

def moveLeft (s z : Nat) (bits : List Nat) : List Nat :=
  bits.drop s ++ List.replicate (min s bits.length) z

def moveRight (s z : Nat) (bits : List Nat) : List Nat :=
  List.replicate (min s bits.length) z ++ bits.take (bits.length - s)

def shiftLeft (v sh : ExprValue) : Build ExprValue := shiftBy moveLeft v sh

def shiftRight (v sh : ExprValue) : Build ExprValue := shiftBy moveRight v sh

def ltScan (bits : List (Nat × Nat)) : Build Nat := do
  let eqSoFar ← makeLiteral .H
  let lt ← makeLiteral .L
  let (_, lt) ← bits.foldlM (fun (eqSoFar, lt) (ai, bi) => do
    let eqBit ← addNode (.binaryEq ai bi)
    let ltBit ← makeAnd (← makeNot ai) bi
    let lt ← makeOr lt (← makeAnd eqSoFar ltBit)
    return (← makeAnd eqSoFar eqBit, lt)) (eqSoFar, lt)
  return lt

def compareLt : Build Nat := do
  let w := max a.width b.width
  let (av, bv) ← resizeOperands a b w (signedOp a b)
  if signedOp a b then
    let sa := av.headD sizeMax
    let sb := bv.headD sizeMax
    if w ≤ 1 then makeAnd sa (← makeNot sb)
    else
      let diff ← makeXor sa sb
      let ltSign ← makeAnd sa (← makeNot sb)
      let ltMag ← ltScan (av.tail.zip bv.tail)
      makeMux diff ltSign ltMag
  else ltScan (av.zip bv)

def compareLe : Build Nat := do
  let lt ← compareLt a b
  let eq ← compareEq a b
  makeOr lt eq

def compareGt : Build Nat := compareLt b a

def compareGe : Build Nat := do
  let gt ← compareLt b a
  let eq ← compareEq a b
  makeOr gt eq

def makeConditional (cond t f : ExprValue) : Build ExprValue := do
  let sel ← toBoolRoot cond
  let w := max t.width f.width
  let (tv, fv) ← resizeOperands t f w (signedOp t f)
  if w ≤ 1 then return makeScalar (← makeMux sel (tv.headD sizeMax) (fv.headD sizeMax)) 0 0 (signedOp t f)
  else makeVector (← (tv.zip fv).mapM fun p => makeMux sel p.1 p.2) (signedOp t f)

def reduceRoot (unit : LogicT) (k : Nat → Nat → Build Nat) (a : ExprValue) : Build Nat := do
  if !a.isVector then return a.scalarRoot
  else a.vectorRoots.foldlM k (← makeLiteral unit)

def reduceAndRoot (a : ExprValue) : Build Nat := reduceRoot .H makeAnd a

def reduceOrRoot (a : ExprValue) : Build Nat := reduceRoot .L makeOr a

def reduceXorRoot (a : ExprValue) : Build Nat := reduceRoot .L makeXor a

def getOrCreateSignal (name : String) : Build Nat := do
  let m ← get
  match m.signalIndex.lookup name with
  | some i => return i
  | none =>
    set { m with
      signalNames := m.signalNames ++ [name]
      signalIsSigned := m.signalIsSigned ++ [false]
      signalIsConst := m.signalIsConst ++ [false]
      signalIsConstFoldable := m.signalIsConstFoldable ++ [false]
      signalConstValue := m.signalConstValue ++ [LogicT.X]
      signalIndex := m.signalIndex ++ [(name, m.signalNames.length)] }
    return m.signalNames.length

/-- Whether a value stands for something, so that `parse_primary` looks no further. -/
def ExprValue.isSet (v : ExprValue) : Bool := v.scalarRoot ≠ sizeMax || v.isVector

/-- A name that is neither substituted nor constant: a vector, or the signal of that name. -/
def signalValue (name : String) : Build ExprValue := do
  match (← get).vectors.lookup name with
  | some ⟨msb, lsb, _, isSigned, r :: rs⟩ =>
    if (msb - lsb).natAbs + 1 ≤ 1 then return makeScalar (← makeSignalRoot r) msb lsb isSigned
    else makeVectorWithRange (← (r :: rs).mapM makeSignalRoot) msb lsb isSigned
  | _ =>
    let s ← getOrCreateSignal name
    let sgn := (← get).signalIsSigned.getD s false
    return makeScalar (← makeSignalRoot s) 0 0 sgn

def nameValue (name : String) : Build ExprValue := do
  let m ← get
  match (m.substIdents.lookup name).filter ExprValue.isSet with
  | some v => return v
  | none =>
    match m.constIdents.lookup name with
    | some c => makeUintLiteral c.toNat 32
    | none => signalValue name

/-- The value of a number in `parse_primary`, from the bits that `parse_literal_bits` finds. -/
def literalValue (bits : List LogicT) (isSigned : Bool) : Build ExprValue := do
  match bits with
  | [] => return makeScalar (← makeLiteral .X) 0 0 isSigned
  | [v] => return makeScalar (← makeLiteral v) 0 0 isSigned
  | vs => makeVector (← vs.mapM makeLiteral) isSigned

/-- The values of the bits of an expression, from the most significant one on. -/
def ExprBuilder.denote (m : ExprBuilder) (v : ExprValue) (values : List LogicT) : List LogicT :=
  v.roots.map fun r => evalNode m.exprNodes values (r + 1) r

end PhyEngine.Verilog
