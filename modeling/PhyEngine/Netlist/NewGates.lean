import PhyEngine.Netlist.Function

/-!
# Adding gates on new nodes

A gate on a new node leaves the nodes that are there alone: every solution goes on to one
solution (`Grown`), with the value of the gate at the new node. So a pass only says what its new
nodes mean (`Means`).
-/

namespace PhyEngine

open Equations List

namespace Netlist

/-- A gate of a kind is added, with a new node on its output, and connected pin by pin until a
connection fails. -/
def addGate (nl : Netlist) (kind : ModelKind) (ins : List NodeId) : (Netlist × Bool) × ModelPos × NodeId :=
  let added := nl.addModel ⟨kind, "", [], List.replicate (ins.length + 1) none⟩
  let created := added.1.createNode
  ((ins ++ [created.2]).zipIdx.foldl
    (fun st nk => if st.2 then st.1.addToNode added.2 nk.2 nk.1 else st) (created.1, true), added.2, created.2)

variable {α : Type*} {S : PinSemantics α} {nl nl' nl'' : Netlist}

/-- The netlist has more models and nodes, and its old nodes have their function. -/
structure Grown (S : PinSemantics α) (nl nl' : Netlist) : Prop where
  sound : Sound nl'
  bases : ∀ b ∈ nl.bases, b ∈ nl'.bases
  isSome : ∀ n, (nl.node? n).isSome → (nl'.node? n).isSome
  extend : ∀ v, Solves (system S nl) v → ∃ v', Solves (system S nl') v' ∧ ∀ n, (nl.node? n).isSome → v' n = v n

namespace Grown

theorem refl (h : Sound nl) : Grown S nl nl := ⟨h, fun _ hb => hb, fun _ hn => hn, fun v hv => ⟨v, hv, fun _ _ => rfl⟩⟩

theorem trans (h : Grown S nl nl') (h' : Grown S nl' nl'') : Grown S nl nl'' := by
  refine ⟨h'.sound, fun b hb => h'.bases b (h.bases b hb), fun n hn => h'.isSome n (h.isSome n hn), fun v hv => ?_⟩
  obtain ⟨v', hv', heq⟩ := h.extend v hv
  obtain ⟨v'', hv'', heq'⟩ := h'.extend v' hv'
  exact ⟨v'', hv'', fun n hn => (heq' n (h.isSome n hn)).trans (heq n hn)⟩

theorem solves (h : Grown S nl nl') {v : NodeId → α} (hv : Solves (system S nl') v) : Solves (system S nl) v := by
  intro e he
  obtain ⟨b, hb, he⟩ := mem_system.mp he
  exact hv e (mem_system.mpr ⟨b, h.bases b hb, he⟩)

end Grown

variable {b : ModelBase}

theorem mem_pins_of_mem_pinEquations {e : Equation NodeId α} (he : e ∈ pinEquations S b) :
    some e.target ∈ b.model.pins ∧ ∀ d ∈ e.deps, some d ∈ b.model.pins := by
  obtain ⟨g, -, -, j, n, f, hn, -, rfl⟩ := mem_pinEquations.mp he
  refine ⟨mem_of_getElem? hn, fun d hd => ?_⟩
  exact mem_of_mem_take (reduceOption_mem_iff.mp hd)

variable {f : List α → α}

theorem Grown.add (h : Sound nl) (hs : Sound nl') (hbases : nl'.bases = nl.bases ++ [b])
    (hsome : ∀ n, (nl.node? n).isSome → (nl'.node? n).isSome) (ins : List NodeId) {out : NodeId}
    (hpins : b.model.pins = (ins ++ [out]).map some) (hb : S b = some ⟨ins.length, [f]⟩)
    (hins : ∀ n ∈ ins, (nl.node? n).isSome) (hout : ¬ (nl.node? out).isSome) : Grown S nl nl' := by
  classical
  refine ⟨hs, fun c hc => ?_, hsome, fun v hv => ?_⟩
  · rw [hbases]
    exact mem_append_left _ hc
  · have hold : ∀ n, (nl.node? n).isSome → (if n = out then f (ins.map v) else v n) = v n := by
      intro n hn
      refine if_neg ?_
      rintro rfl
      exact hout hn
    refine ⟨fun n => if n = out then f (ins.map v) else v n, fun e he => ?_, hold⟩
    obtain ⟨c, hc, he⟩ := mem_system.mp he
    rw [hbases, mem_append, mem_singleton] at hc
    rcases hc with hc | rfl
    · obtain ⟨htarget, hdeps⟩ := mem_pins_of_mem_pinEquations he
      dsimp only
      rw [hold _ (h.isSome_node? hc htarget), hv e (mem_system.mpr ⟨c, hc, he⟩)]
      exact e.reads v _ fun d hd => (hold d (h.isSome_node? hc (hdeps d hd))).symm
    · obtain ⟨j, o, g, ho, hg, rfl⟩ := (mem_pinEquations_of_pins hb hpins rfl).mp he
      cases j with
      | zero =>
        cases ho
        cases hg
        change (if out = out then f (ins.map v) else v out) =
          f (ins.map fun n => if n = out then f (ins.map v) else v n)
        rw [if_pos rfl, map_congr_left fun n hn => (hold n (hins n hn))]
      | succ j => simp at ho

structure NewGate (S : PinSemantics α) (nl : Netlist) (ins : List NodeId) (f : List α → α) (nl' : Netlist)
    (out : NodeId) : Prop where
  grown : Grown S nl nl'
  isSome : (nl'.node? out).isSome
  value : ∀ v, Solves (system S nl') v → v out = f (ins.map v)

theorem addGate_spec (h : Sound nl) {kind : ModelKind} (ins : List NodeId) (hins : ∀ n ∈ ins, (nl.node? n).isSome)
    (hkind : ∀ b : ModelBase, b.model.kind = kind → S b = some ⟨ins.length, [f]⟩) :
    (nl.addGate kind ins).1.2 = true ∧
      NewGate S nl ins f (nl.addGate kind ins).1.1 (nl.addGate kind ins).2.2 := by
  set m : Model := ⟨kind, "", [], replicate (ins.length + 1) none⟩ with hm
  have hcreated := h.createNode
  have hlen : nl.createNode.1.nodes.length = nl.nodes.length + 1 := by simp [Netlist.createNode]
  have hsome : ∀ n, (nl.node? n).isSome → (nl.createNode.1.node? n).isSome := by
    intro n hn
    rw [isSome_node?] at hn ⊢
    intro i hi
    have := hn i hi
    omega
  have hnew : ¬ (nl.node? (.node nl.nodes.length)).isSome := by
    rw [isSome_node?]
    intro hall
    exact Nat.lt_irrefl _ (hall _ rfl)
  have hnewSome : (nl.createNode.1.node? (.node nl.nodes.length)).isSome := by
    rw [isSome_node?]
    intro i hi
    cases hi
    omega
  have hstart := Connecting.start hcreated m ((ins ++ [NodeId.node nl.nodes.length]).length) (by simp [hm])
  obtain ⟨cur, heq, hc⟩ := Connecting.connectChecked (ins ++ [.node nl.nodes.length]) hstart fun n hn => by
    rcases mem_append.mp hn with hn | hn
    · exact hsome n (hins n hn)
    · rw [mem_singleton.mp hn]
      exact hnewSome
  have hgate : nl.addGate kind ins = ((cur, true), (nl.createNode.1.addModel m).2, .node nl.nodes.length) :=
    Prod.ext heq rfl
  rw [hgate]
  have hpins : ([] ++ (ins ++ [NodeId.node nl.nodes.length])).map some ++ replicate 0 none
      = (ins ++ [NodeId.node nl.nodes.length]).map some := by
    rw [replicate_zero, append_nil, nil_append]
  have hsome' : ∀ n, (nl.createNode.1.node? n).isSome → (cur.node? n).isSome := fun n hn =>
    (isSome_node?_congr hc.length_nodes n).mpr hn
  refine ⟨rfl, ?_, hsome' _ hnewSome, fun v hv => ?_⟩
  · exact Grown.add h hc.sound hc.bases (fun n hn => hsome' n (hsome n hn)) ins hpins (hkind _ rfl) hins hnew
  · have hmem := mem_append_right nl.createNode.1.bases (mem_singleton_self (ModelBase.mk nl.createNode.1.nextId
      { m with pins := ([] ++ (ins ++ [NodeId.node nl.nodes.length])).map some ++ replicate 0 none }))
    rw [← hc.bases] at hmem
    exact value_of_pins ins [.node nl.nodes.length] 0 hv hmem (hkind _ rfl) hpins rfl rfl rfl

structure Means (S : PinSemantics α) (nl : Netlist) (n : NodeId) (f : (NodeId → α) → α) : Prop where
  isSome : (nl.node? n).isSome
  value : ∀ v, Solves (system S nl) v → v n = f v

variable {n : NodeId}

theorem Means.grown {f : (NodeId → α) → α} (h : Means S nl n f) (hg : Grown S nl nl') :
    Means S nl' n f := ⟨hg.isSome n h.isSome, fun v hv => h.value v (hg.solves hv)⟩

theorem Means.congr {f g : (NodeId → α) → α} (h : Means S nl n f)
    (hfg : ∀ v, Solves (system S nl) v → f v = g v) : Means S nl n g :=
  ⟨h.isSome, fun v hv => (h.value v hv).trans (hfg v hv)⟩

end Netlist

end PhyEngine
