import PhyEngine.Netlist.Basic

/-!
# Synthesis options and the cost of a netlist

The fields of `pe_synth_options` that the search and the verification read, and the
counting functions of `verilog/digital/pe_synth.h`.
-/

namespace PhyEngine

inductive OmaxCostModel where
  | gateCount
  | weightedGateCount
  deriving DecidableEq

structure GateCostWeights where
  notW : UInt16 := 1
  andW : UInt16 := 1
  orW : UInt16 := 1
  xorW : UInt16 := 1
  xnorW : UInt16 := 1
  nandW : UInt16 := 1
  norW : UInt16 := 1
  impW : UInt16 := 1
  nimpW : UInt16 := 1
  yesW : UInt16 := 1
  caseEqW : UInt16 := 1
  isUnknownW : UInt16 := 1

structure PeSynthOptions where
  assumeBinaryInputs : Bool := false
  optLevel : UInt8 := 0
  omaxTimeoutMs : Nat := 0
  omaxMaxIter : Nat := 32
  omaxRandomize : Bool := false
  omaxRandSeed : UInt64 := 1
  omaxAllowRegress : Bool := false
  omaxVerify : Bool := false
  omaxVerifyExactMaxInputs : Nat := 12
  omaxVerifyRandomVectors : Nat := 256
  omaxVerifySeed : UInt64 := 1
  omaxCost : OmaxCostModel := .gateCount
  omaxGateWeights : GateCostWeights := {}
  decompVarOrderTries : Nat := 4
  optimizeWires : Bool := false
  optimizeMul2 : Bool := false
  optimizeAdders : Bool := false
  techmapEnable : Bool := true
  decomposeLargeFunctions : Bool := true
  maxTotalNodes : Nat := 0
  maxTotalModels : Nat := 0
  maxTotalLogicGates : Nat := 0
  reportEnable : Bool := false

namespace Netlist

def isLogicGate : ModelKind → Bool
  | .and | .or | .xor | .xnor | .not | .nand | .nor | .imp | .nimp | .yes => true
  | _ => false

def countLogicGates (nl : Netlist) : Nat :=
  nl.normals.countP fun m => isLogicGate m.kind

def gateWeight (w : GateCostWeights) : ModelKind → Nat
  | .not => w.notW.toNat
  | .and => w.andW.toNat
  | .or => w.orW.toNat
  | .xor => w.xorW.toNat
  | .xnor => w.xnorW.toNat
  | .nand => w.nandW.toNat
  | .nor => w.norW.toNat
  | .imp => w.impW.toNat
  | .nimp => w.nimpW.toNat
  | .yes => w.yesW.toNat
  | .caseEq => w.caseEqW.toNat
  | .isUnknown => w.isUnknownW.toNat
  | _ => 0

variable (opt : PeSynthOptions)

def computeOmaxCost (nl : Netlist) : Nat :=
  match opt.omaxCost with
  | .gateCount => nl.countLogicGates
  | .weightedGateCount => (nl.normals.map fun m => gateWeight opt.omaxGateWeights m.kind).sum

def countTotalModels (nl : Netlist) : Nat := nl.normals.length

def countTotalNodes (nl : Netlist) : Nat := nl.nodes.length + 1

theorem computeOmaxCost_of_kinds {nl nl' : Netlist}
    (h : nl.normals.map (·.kind) = nl'.normals.map (·.kind)) :
    nl.computeOmaxCost opt = nl'.computeOmaxCost opt := by
  have hcount (x : Netlist) : x.countLogicGates =
      (x.normals.map (·.kind)).countP isLogicGate := by
    rw [List.countP_map]
    rfl
  have hweight (x : Netlist) :
      (x.normals.map fun m => gateWeight opt.omaxGateWeights m.kind) =
        (x.normals.map (·.kind)).map (gateWeight opt.omaxGateWeights) := by
    rw [List.map_map]
    rfl
  simp only [computeOmaxCost, hcount, hweight, h]

theorem computeOmaxCost_congr {nl nl' : Netlist}
    (h : nl.normals = nl'.normals) :
    nl.computeOmaxCost opt = nl'.computeOmaxCost opt :=
  computeOmaxCost_of_kinds opt (congrArg (List.map (·.kind)) h)

end Netlist

end PhyEngine
