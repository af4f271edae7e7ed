import PhyEngine.Verilog.Instance

/-!
# Constant expressions during synthesis

The parts of `instance_builder` that inference reads, and `eval_const_expr_to_logic`: literals,
parameters, nets that nothing drives, and their complements. Its result is the value in every
state where these signals have the values of the instance.
-/

namespace PhyEngine.Verilog

structure DcGroup where
  nodes : List Nat
  allowed : List Nat
  deriving DecidableEq

/-- The parts of `instance_builder` and of its context that inference reads. -/
structure InstanceBuilder where
  inferDcFromFsm : Bool := true
  dcFsmMaxBits : Nat := 16
  ok : Bool := true
  inst : InstanceNode
  sigNodes : List (Option Nat)
  groups : List DcGroup := []

namespace InstanceBuilder

variable (b : InstanceBuilder)

/-- The signals of `eval_const_expr_to_logic`: parameters, and nets that nothing drives. -/
def constSignal (s : Nat) : Option LogicT :=
  if b.inst.mod.signalIsConst.getD s false then b.inst.state.values[s]?
  else if b.inst.mod.isReg s then none
  else if b.inst.mod.ports.any fun p => p.signal = s then none
  else if b.inst.isDriven s then none
  else b.inst.state.values[s]?

def evalConstNode : Nat → Nat → Option LogicT
  | 0, _ => none
  | depth + 1, root =>
    match b.inst.mod.exprNodes[root]? with
    | some (.literal v) => some v
    | some (.signal s) => b.constSignal s
    | some (.unaryNot a) => (evalConstNode depth a).map LogicT.logicNot
    | _ => none

/-- `eval_const_expr_to_logic`. Operands have smaller indices, so the root bounds the depth. -/
def evalConstExprToLogic (root : Nat) : Option LogicT :=
  if b.ok then b.evalConstNode (root + 1) root else none

end InstanceBuilder

def InstanceBuilder.KeepsConsts (b : InstanceBuilder) (st : ModuleState) : Prop :=
  ∀ s v, b.constSignal s = some v → st.get s = v

theorem InstanceBuilder.keepsConsts_self (b : InstanceBuilder) : b.KeepsConsts b.inst.state := by
  intro s v h
  have hvalue : b.inst.state.values[s]? = some v := by
    unfold constSignal at h
    split_ifs at h
    · exact h
    · exact h
  rw [ModuleState.get, List.getD_eq_getElem?_getD, hvalue, Option.getD_some]

variable {v : LogicT} {st : ModuleState}

theorem evalNode_of_const {b : InstanceBuilder} (hst : b.KeepsConsts st) {depth root : Nat}
    (h : b.evalConstNode depth root = some v) : evalNode b.inst.mod.exprNodes st.values depth root = v := by
  induction depth generalizing root v with
  | zero => cases h
  | succ depth ih =>
    rw [InstanceBuilder.evalConstNode] at h
    rw [evalNode]
    split at h
    · rename_i w hw
      rw [hw]
      exact Option.some.inj h
    · rename_i s hs
      rw [hs]
      exact hst s v h
    · rename_i a ha
      obtain ⟨w, hw, rfl⟩ := Option.map_eq_some_iff.mp h
      rw [ha]
      dsimp only
      rw [ih hw]
    · cases h

theorem evalExpr_of_const {b : InstanceBuilder} (hst : b.KeepsConsts st) {root : Nat}
    (h : b.evalConstExprToLogic root = some v) : evalExpr b.inst.mod root st.values = v := by
  unfold InstanceBuilder.evalConstExprToLogic at h
  split_ifs at h
  exact evalNode_of_const hst h

end PhyEngine.Verilog
