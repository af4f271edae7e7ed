import PhyEngine.Netlist.Rewiring

/-!
# Which pins drive

The passes find the outputs of a model in tables of model names and pin indices. The table here is
that of the models themselves: the pins the models of `pe_synth` write. A table of a pass is
compared with it.
-/

namespace PhyEngine

namespace Netlist

/-- The models `pe_synth` emits, apart from `RESOLVE2`. -/
def isEmitted : ModelKind → Bool
  | .input | .output | .yes | .not | .and | .or | .xor | .xnor | .nand | .nor | .imp | .nimp
  | .dff | .dffArstn | .dlatch | .tickDelay | .randomGenerator4 | .tri | .caseEq | .isUnknown => true
  | _ => false

def drivesPin : ModelKind → Nat → Bool
  | .input, k => k == 0
  | .yes, k | .not, k | .isUnknown, k | .tickDelay, k => k == 1
  | .and, k | .or, k | .xor, k | .xnor, k | .nand, k | .nor, k | .imp, k | .nimp, k | .caseEq, k => k == 2
  | .tri, k | .resolve2, k | .dff, k | .dlatch, k => k == 2
  | .dffArstn, k => k == 3
  | .randomGenerator4, k => decide (k < 4)
  | _, _ => false

def DrivesNode (nl : Netlist) (p : PinRef) (n : NodeId) : Prop :=
  ∃ b ∈ nl.bases, b.id = p.id ∧ drivesPin b.model.kind p.k = true ∧ b.model.pins[p.k]? = some (some n)

def driversOn (nl : Netlist) (n : NodeId) : Finset PinRef :=
  (nl.bases.flatMap fun b => b.model.pins.zipIdx.filterMap fun pk =>
    if pk.1 = some n ∧ drivesPin b.model.kind pk.2 then some ⟨b.id, pk.2⟩ else none).toFinset

variable {nl : Netlist} {p : PinRef}

variable {n : NodeId}

theorem mem_driversOn : p ∈ nl.driversOn n ↔ nl.DrivesNode p n := by
  simp only [driversOn, List.mem_toFinset, List.mem_flatMap, List.mem_filterMap, DrivesNode]
  constructor
  · rintro ⟨b, hb, ⟨q, k⟩, hk, hp⟩
    split at hp
    · rename_i hcond
      cases hp
      refine ⟨b, hb, rfl, hcond.2, ?_⟩
      rw [← hcond.1]
      exact List.mem_zipIdx_iff_getElem?.mp hk
    · cases hp
  · rintro ⟨b, hb, hid, hdrives, hk⟩
    refine ⟨b, hb, (some n, p.k), List.mem_zipIdx_iff_getElem?.mpr hk, ?_⟩
    rw [if_pos ⟨rfl, hdrives⟩, hid]

theorem DrivesNode.points (h : nl.DrivesNode p n) : nl.Points p n := by
  obtain ⟨b, hb, hid, -, hk⟩ := h
  exact ⟨b, hb, hid, hk⟩

theorem Sound.isSome_points (h : Sound nl) (hp : nl.Points p n) : (nl.node? n).isSome := by
  obtain ⟨b, hb, -, hk⟩ := hp
  exact h.isSome_node? hb (List.mem_of_getElem? hk)

theorem Sound.drivesNode_iff (h : Sound nl) {b : ModelBase} (hb : b ∈ nl.bases) (hid : b.id = p.id) (n : NodeId) :
    nl.DrivesNode p n ↔ drivesPin b.model.kind p.k = true ∧ nl.Points p n := by
  constructor
  · rintro ⟨c, hc, hcid, hdrives, hk⟩
    obtain rfl := h.eq_of_id hc hb (hcid.trans hid.symm)
    exact ⟨hdrives, c, hc, hcid, hk⟩
  · rintro ⟨hdrives, c, hc, hcid, hk⟩
    obtain rfl := h.eq_of_id hc hb (hcid.trans hid.symm)
    exact ⟨c, hc, hcid, hdrives, hk⟩

def soleDriverCheck (nl : Netlist) : Bool := (allPins nl).all fun pn => decide ((nl.driversOn pn.2).card ≤ 1)

theorem eq_of_soleDriverCheck (h : soleDriverCheck nl = true) (p q : PinRef) (n : NodeId) (hp : nl.DrivesNode p n)
    (hq : nl.DrivesNode q n) : p = q := by
  rw [soleDriverCheck, List.all_eq_true] at h
  have hcard := of_decide_eq_true (h (p, n) (mem_allPins.mpr hp.points))
  exact Finset.card_le_one.mp hcard p (mem_driversOn.mpr hp) q (mem_driversOn.mpr hq)

end Netlist

end PhyEngine
