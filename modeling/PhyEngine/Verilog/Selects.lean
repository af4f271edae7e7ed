import PhyEngine.Verilog.Conditional
import PhyEngine.Verilog.ShiftExact

/-!
# Bit and part selects

`apply_bit_select` and `apply_indexed_part_select` of `expr_parser`. A constant index picks
the bits; a variable one is compared with each index of the range, and a multiplexer takes
the bits over where it agrees.
-/

namespace PhyEngine.Verilog

open LogicT BitNumbers

/-- `vector_pos`: where the bit with an index is, counted from the most significant one. -/
def vectorPos (msb lsb idx : Int) : Option Nat :=
  if min msb lsb ≤ idx ∧ idx ≤ max msb lsb then some (if lsb ≤ msb then (msb - idx).toNat else (idx - msb).toNat)
  else none

variable (msb lsb : Int)

def vectorIndexAt (pos : Nat) : Int := if lsb ≤ msb then msb - pos else msb + pos

def needBits (baseMax : Nat) : Nat := ((List.range 63).find? fun n => baseMax < 2 ^ (n + 1)).elim 64 (· + 1)

def computeBounds (w : Nat) (plus : Bool) (start : Int) : Int × Int :=
  if plus then
    if lsb ≤ msb then (start + (w - 1), start) else (start, start + (w - 1))
  else if lsb ≤ msb then (start, start - (w - 1)) else (start - (w - 1), start)

def indicesBetween (first last : Int) : List Int :=
  if last ≤ first then (List.range ((first - last).toNat + 1)).map fun i : Nat => first - i
  else (List.range ((last - first).toNat + 1)).map fun i : Nat => first + i

/-- The indices that an indexed part select takes, from the most significant one on. -/
def sliceIndices (w : Nat) (plus : Bool) (start : Int) : List Int :=
  let b := computeBounds msb lsb w plus start
  indicesBetween b.1 b.2

def matchIndex (idxNorm : ExprValue) (cmpW : Nat) (idx : Int) : Build Nat := do
  let lit ← makeUintLiteral (idx % 2 ^ 64).toNat cmpW
  compareEq idxNorm lit

def applyBitSelect (base idx : ExprValue) : Build ExprValue := do
  let m ← get
  match m.tryEvalConstInt idx with
  | some c =>
    match vectorPos base.msb base.lsb c with
    | none => return makeScalar (← makeLiteral .X) 0 0 base.isSigned
    | some pos => return makeScalar (base.roots.getD pos sizeMax) c c base.isSigned
  | none =>
    let cmpW := max idx.width (needBits (max base.msb base.lsb % 2 ^ 64).toNat)
    let idxNorm ← resize idx cmpW false
    let x ← makeLiteral .X
    let out ← (List.range base.roots.length).foldlM (fun out pos => do
      let cond ← matchIndex idxNorm cmpW (vectorIndexAt base.msb base.lsb pos)
      makeMux cond (base.roots.getD pos sizeMax) out) x
    return makeScalar out 0 0 base.isSigned

def sliceBitsForStart (base : ExprValue) (w : Nat) (plus : Bool) (start : Int) : Build (List Nat) := do
  let x ← makeLiteral .X
  return (sliceIndices base.msb base.lsb w plus start).map fun idx =>
    ((vectorPos base.msb base.lsb idx).map fun pos => base.roots.getD pos sizeMax).getD x

def candidateStarts : List Int :=
  ((List.range ((max msb lsb - min msb lsb).toNat + 1)).map fun i : Nat => min msb lsb + i).filter (0 ≤ ·)

def applyIndexedPartSelect (base start widthExpr : ExprValue) (plus : Bool) : Build ExprValue := do
  let m ← get
  match m.tryEvalConstInt widthExpr with
  | none | some 0 =>
    reportError "indexed part-select width must be a positive constant integer expression in this subset"
    return makeScalar (← makeLiteral .X) 0 0 base.isSigned
  | some w =>
    match m.tryEvalConstInt start with
    | some c =>
      let bits ← sliceBitsForStart base w plus c
      let b := computeBounds base.msb base.lsb w plus c
      makeVectorWithRange bits b.1 b.2 base.isSigned
    | none =>
      if max base.msb base.lsb < 0 then makeUnknownVector w false
      else
        let cmpW := max start.width (needBits (max base.msb base.lsb).toNat)
        let idxNorm ← resize start cmpW false
        let x ← makeLiteral .X
        let out ← (candidateStarts base.msb base.lsb).foldlM (fun out s => do
          let bits ← sliceBitsForStart base w plus s
          if bits.length ≠ out.length then return out
          else
            let cond ← matchIndex idxNorm cmpW s
            (bits.zip out).mapM fun p => makeMux cond p.1 p.2) (List.replicate w x)
        makeVector out base.isSigned

end PhyEngine.Verilog
