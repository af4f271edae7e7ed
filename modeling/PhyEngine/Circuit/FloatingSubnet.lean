import PhyEngine.Library.GraphSearch
import PhyEngine.Circuit.Wiring
import PhyEngine.Netlist.Operations

/-!
# Floating subnets

`floating_subnet::detect` marks the nodes that models connect to ground by a first search; each
further search from an unmarked node collects one subnet. The pins of a node are visited in the
order of their addresses.
-/

namespace PhyEngine.Board

open GraphSearch

/-- The nodes a search sees from a node: those of the pins of the models of its pins. -/
def others (b : Board) (n : NodeId) : List NodeId :=
  (b.pinOrder n).flatMap fun p => match b.modelAt p.id with
    | none => []
    | some m => m.pins.reduceOption

def pinnedNodes (b : Board) : List NodeId :=
  (b.nl.nodes.zipIdx.filter fun ni => decide (ni.1.pins ≠ ∅)).map fun ni => .node ni.2

/-- `detect`. A search visits each node at most once, so that the number of all nodes, the
ground node included, is enough of a budget for its loop. -/
def detect (b : Board) : Option (List (List NodeId)) :=
  let nodes := b.pinnedNodes
  if nodes = [] then some []
  else
    let budget := b.nl.nodes.length + 1
    (run b.others budget (start [] .ground)).bind fun grounded =>
      (nodes.foldlM (collect (fun n => (b.others n).filter fun m => decide (m ≠ .ground)) budget)
        (grounded.seen, [])).map Prod.snd

def Adjacent (b : Board) (n m : NodeId) : Prop :=
  ∃ x ∈ b.nl.bases, some n ∈ x.model.pins ∧ some m ∈ x.model.pins

def Connected (b : Board) : NodeId → NodeId → Prop := Relation.ReflTransGen b.Adjacent

/-- A node of the netlist, the ground node included, with at least one pin. -/
def Pinned (b : Board) (n : NodeId) : Prop := ∃ nd, b.nl.node? n = some nd ∧ nd.pins ≠ ∅

variable {b : Board} {n m : NodeId}

theorem mem_others (hw : b.Wired) : m ∈ b.others n ↔ b.Adjacent n m := by
  rw [others, List.mem_flatMap]
  constructor
  · rintro ⟨p, hp, hm⟩
    obtain ⟨x, hx, hid, hk⟩ := (hw.pins n p).mp hp
    rw [← hid, modelAt_of_mem hw hx] at hm
    exact ⟨x, hx, List.mem_of_getElem? hk, List.reduceOption_mem_iff.mp hm⟩
  · rintro ⟨x, hx, hn, hm⟩
    obtain ⟨k, hk⟩ := List.mem_iff_getElem?.mp hn
    refine ⟨⟨x.id, k⟩, (hw.pins n _).mpr ⟨x, hx, rfl, hk⟩, ?_⟩
    rw [modelAt_of_mem hw hx]
    exact List.reduceOption_mem_iff.mpr hm

theorem reach_iff_connected (hw : b.Wired) : Reach b.others n m ↔ b.Connected n m := by
  have hedge : (fun x y => y ∈ b.others x) = b.Adjacent := by
    ext x y
    exact mem_others hw
  rw [Reach, hedge, Connected]

theorem others_symm (hw : b.Wired) (x y : NodeId) (h : y ∈ b.others x) : x ∈ b.others y := by
  obtain ⟨z, hz, hx, hy⟩ := (mem_others hw).mp h
  exact (mem_others hw).mpr ⟨z, hz, hy, hx⟩

theorem mem_pinnedNodes : n ∈ b.pinnedNodes ↔ n ≠ .ground ∧ b.Pinned n := by
  rw [pinnedNodes, List.mem_map]
  constructor
  · rintro ⟨⟨nd, i⟩, hmem, rfl⟩
    obtain ⟨hi, hpins⟩ := List.mem_filter.mp hmem
    exact ⟨by simp, nd, List.mk_mem_zipIdx_iff_getElem?.mp hi, by simpa using hpins⟩
  · rintro ⟨hground, nd, hnd, hpins⟩
    cases n with
    | ground => exact absurd rfl hground
    | node i =>
      exact ⟨(nd, i), List.mem_filter.mpr ⟨List.mk_mem_zipIdx_iff_getElem?.mpr hnd, by simpa using hpins⟩, rfl⟩

def allNodes (b : Board) : List NodeId := .ground :: (List.range b.nl.nodes.length).map .node

theorem mem_allNodes : n ∈ b.allNodes ↔ (b.nl.node? n).isSome := by
  cases n with
  | ground => simp [allNodes, Netlist.node?]
  | node i => simp [allNodes, Netlist.node?]

theorem mem_allNodes_of_reach (hw : b.Wired) (hvalid : b.nl.PinsValid) (hn : n ∈ b.allNodes)
    (h : Reach b.others n m) : m ∈ b.allNodes := by
  induction h with
  | refl => exact hn
  | tail _ hedge _ =>
    obtain ⟨x, hx, -, hy⟩ := (mem_others hw).mp hedge
    exact mem_allNodes.mpr (hvalid x.model (List.mem_map_of_mem hx) _ hy)

theorem Pinned.of_connected (hc : b.nl.Consistent) (hn : b.Pinned n) (h : b.Connected n m) :
    b.Pinned m := by
  induction h with
  | refl => exact hn
  | @tail x y _ hedge _ =>
    obtain ⟨z, hz, -, hy⟩ := hedge
    obtain ⟨nd, hnd⟩ := Option.isSome_iff_exists.mp (hc.pins_valid z.model (List.mem_map_of_mem hz) y hy)
    obtain ⟨k, hk⟩ := List.mem_iff_getElem?.mp hy
    have hp : (⟨z.id, k⟩ : PinRef) ∈ nd.pins := (hc.pins_exact y nd hnd _).mpr ⟨z, hz, rfl, hk⟩
    exact ⟨nd, hnd, Finset.ne_empty_of_mem hp⟩

/-- The lists are the connected components, without the nodes connected to ground. -/
structure FloatingSubnets (b : Board) (ls : List (List NodeId)) : Prop where
  nodup : ∀ l ∈ ls, l.Nodup
  disjoint : ls.Pairwise List.Disjoint
  pinned : ∀ l ∈ ls, ∀ n ∈ l, b.Pinned n
  mem_iff : ∀ n, b.Pinned n → ((∃ l ∈ ls, n ∈ l) ↔ ¬ b.Connected .ground n)
  same_iff : ∀ n m, b.Pinned n → b.Pinned m → ¬ b.Connected .ground n → ¬ b.Connected .ground m →
    ((∃ l ∈ ls, n ∈ l ∧ m ∈ l) ↔ b.Connected n m)

/-- `detect` ends, and returns the floating subnets. -/
theorem detect_floatingSubnets (hw : b.Wired) (hc : b.nl.Consistent) :
    ∃ ls, b.detect = some ls ∧ b.FloatingSubnets ls := by
  have hsymm := others_symm hw
  have hlen : b.allNodes.length ≤ b.nl.nodes.length + 1 := by simp [allNodes]
  have hconn {n m : NodeId} : Reach b.others n m ↔ b.Connected n m := reach_iff_connected hw
  have hstart : ∀ n, b.Pinned n → ¬ b.Connected .ground n → n ∈ b.pinnedNodes := by
    refine fun n hn hfloat => mem_pinnedNodes.mpr ⟨?_, hn⟩
    rintro rfl
    exact hfloat .refl
  by_cases hnodes : b.pinnedNodes = []
  · refine ⟨[], by rw [detect, if_pos hnodes], by simp, List.Pairwise.nil, by simp, fun n hn => ?_,
      fun n m hn _ hfloat _ => ?_⟩
    · refine iff_of_false (by simp) (not_not.mpr ?_)
      by_contra hfloat
      exact List.not_mem_nil (hnodes ▸ hstart n hn hfloat)
    · exact absurd (hnodes ▸ hstart n hn hfloat) List.not_mem_nil
  have hstay {n m : NodeId} (hn : n ∈ b.allNodes) (h : Reach b.others n m) : m ∈ b.allNodes :=
    mem_allNodes_of_reach hw hc.pins_valid hn h
  have hground : NodeId.ground ∈ b.allNodes := List.mem_cons_self
  have hnil : Closed b.others [] := fun x hx => absurd hx List.not_mem_nil
  obtain ⟨g, hrun, -, -, hseen, hclosed⟩ :=
    exists_run_start hsymm hnil List.not_mem_nil (fun x => hstay hground) hlen
  have hgrounded : ∀ x, x ∈ g.seen ↔ b.Connected .ground x := by
    intro x
    rw [hseen, hconn]
    simp
  have hinit : Collected b.others g.seen (g.seen, []) :=
    ⟨hclosed, by simp, by simp, by simp, List.Pairwise.nil, by simp⟩
  have hpinned : ∀ v ∈ b.pinnedNodes, ∀ x, Reach b.others v x → x ∈ b.allNodes := by
    intro v hv x
    obtain ⟨nd, hnd, -⟩ := (mem_pinnedNodes.mp hv).2
    exact hstay (mem_allNodes.mpr (by rw [hnd]; rfl))
  obtain ⟨st, hfold, hst, hstarts, -, hlists⟩ := exists_collected hsymm hlen b.pinnedNodes hpinned hinit
  have hlist : ∀ l ∈ st.2, ∃ v ∈ b.pinnedNodes, ∀ x, x ∈ l ↔ Reach b.others v x := fun l hl =>
    (hlists l hl).resolve_left List.not_mem_nil
  have hfound : ∀ n, b.Pinned n → ¬ b.Connected .ground n → ∃ l ∈ st.2, n ∈ l := fun n hn hfloat =>
    ((hst.seen n).mp (hstarts n (hstart n hn hfloat))).resolve_left fun hg => hfloat ((hgrounded n).mp hg)
  refine ⟨st.2, ?_, hst.nodup, hst.disjoint, fun l hl n hn => ?_, fun n hn => ⟨?_, hfound n hn⟩,
    fun n m hn hm hfn hfm => ?_⟩
  · have hmark : NodeId.ground ∈ g.seen := (hgrounded _).mpr .refl
    rw [detect, if_neg hnodes]
    dsimp only
    rw [hrun, Option.bind_some, foldlM_collect_filter _ _ hmark, hfold]
    rfl
  · obtain ⟨v, hv, hmem⟩ := hlist l hl
    exact (mem_pinnedNodes.mp hv).2.of_connected hc (hconn.mp ((hmem n).mp hn))
  · rintro ⟨l, hl, hnl⟩ hg
    exact hst.fresh l hl n hnl ((hgrounded n).mpr hg)
  · constructor
    · rintro ⟨l, hl, hnl, hml⟩
      exact hconn.mp ((hst.component l hl n hnl m).mp hml)
    · intro h
      obtain ⟨l, hl, hnl⟩ := hfound n hn hfn
      exact ⟨l, hl, hnl, (hst.component l hl n hnl m).mpr (hconn.mpr h)⟩

/-- A resistor from node 0 to ground, one between nodes 1 and 2, and one with a free end. -/
def threeResistors : Netlist := .ofModels 4 [⟨.linear 0, "", [], [some (.node 0), some .ground]⟩,
  .on (.linear 0) [1, 2], ⟨.linear 0, "", [], [some (.node 3), none]⟩]

theorem detect_floatingSubnets_threeResistors :
    (inOrder threeResistors).detect = some [[.node 1, .node 2], [.node 3]] ∧
      ∃ ls, (inOrder threeResistors).detect = some ls ∧ (inOrder threeResistors).FloatingSubnets ls :=
  ⟨by decide, detect_floatingSubnets (wired_inOrder (by decide)) (Netlist.consistent_ofModels (by
    simp [Model.on, Model.port]))⟩

end PhyEngine.Board
