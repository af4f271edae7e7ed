import PhyEngine.Netlist.Drivers
import PhyEngine.Synth.Candidates

/-!
# Removing buffers

`optimize_eliminate_yes_buffers` moves the pins of the output of a `YES` model to its input and
deletes it. Its table of output pins is wrong for some models, but without shared nodes no driver
ever moves (`Bypassed.drives`), so every pin keeps its reading.
-/

namespace PhyEngine

/-- What a model puts on its output pins when its pins have the values `vals`: `outputA` is the
attribute of an `INPUT`, and the flip-flops, delay lines and generators show what they have
stored. -/
def outputValues (outputA : LogicT) (stored : Nat → LogicT) (kind : ModelKind) (vals : List LogicT) : List LogicT :=
  match kind, vals with
  | .tri, [i, en, _] => [if en = .H then i else .Z]
  | .dlatch, [d, en, _] => [match en.normalizeZToX with
      | .H => d.normalizeZToX
      | .L => stored 2
      | _ => .X]
  | .dff, _ => [stored 2]
  | .dffArstn, _ => [stored 3]
  | .tickDelay, _ => [stored 1]
  | .randomGenerator4, _ => [stored 0, stored 1, stored 2, stored 3]
  | kind, vals => ((kind.gateFn outputA).map fun g => g.fn (vals.take g.arity)).getD []

/-- The output equations of a model with all pins connected: the nodes of its output pins hold
what it puts on them. -/
def OutputsHold (σ : Nat → LogicT) (stored : PinRef → LogicT) (v : NodeId → LogicT) (b : ModelBase) : Prop :=
  ∀ vals : List LogicT, b.model.pins.map (Option.map v) = vals.map some →
    (vals.zipIdx.filter fun xk => Netlist.drivesPin b.model.kind xk.2).map Prod.fst =
      outputValues (inputState σ b) (fun k => stored ⟨b.id, k⟩) b.model.kind vals

theorem OutputsHold.yes {σ : Nat → LogicT} {stored : PinRef → LogicT} {v : NodeId → LogicT} {b : ModelBase}
    (h : OutputsHold σ stored v b) (hkind : b.model.kind = .yes) {x y : LogicT}
    (hpins : b.model.pins.map (Option.map v) = [some x, some y]) : y = x := by
  have heq := h [x, y] hpins
  rw [hkind] at heq
  simpa [outputValues, Netlist.drivesPin, ModelKind.gateFn, onOne] using heq

namespace Netlist

/-- The readers of the output of a `YES` model go to its input, and the model goes. -/
def eliminateYesBuffer (isOut : PinRef → Bool) (prot : List NodeId) (nl : Netlist) (mp : ModelPos) :
    Netlist :=
  match nl.getModel mp with
  | none => nl
  | some mb =>
    match mb.model.kind, mb.model.pins with
    | .yes, [some inNode, some outNode] =>
      let outPin : PinRef := ⟨mb.id, 1⟩
      if inNode = outNode ∨ outNode ∈ prot then nl
      else if hasUniqueDriverPin isOut nl outNode outPin then
        ((nl.moveConsumers (fun p => decide (p = outPin)) [] outNode inNode).1.deleteModel mp).1
      else nl
    | _, _ => nl

def optimizeEliminateYesBuffers (prot : List NodeId) (nl : Netlist) : Netlist :=
  (gather nl fun b pos => if b.model.kind = .yes then some pos else none).foldl
    (eliminateYesBuffer nl.pinOut prot) nl

/-- The pins that are left read what they did, the protected nodes keep their drivers, and only
buffers are gone. -/
structure KeepsReadings (prot : List NodeId) (nl nl' : Netlist) : Prop where
  sound : Sound nl'
  models : ∀ c ∈ nl'.bases, ∃ b ∈ nl.bases, b.id = c.id ∧ c.model = { b.model with pins := c.model.pins } ∧
    c.model.pins.map Option.isSome = b.model.pins.map Option.isSome
  rest : ∀ b ∈ nl.bases, b.model.kind ≠ .yes → ∃ c ∈ nl'.bases, c.id = b.id
  driver : ∀ n ∈ prot, ∀ p, nl'.DrivesNode p n ↔ nl.DrivesNode p n
  reading : ∀ σ stored v, (∀ b ∈ nl.bases, OutputsHold σ stored v b) →
    ∀ p n m, nl'.Points p n → nl.Points p m → v n = v m
  outputs : ∀ σ stored v, (∀ b ∈ nl.bases, OutputsHold σ stored v b) → ∀ c ∈ nl'.bases, OutputsHold σ stored v c

/-- The netlist between two steps of the loop. -/
structure Bypassed (prot : List NodeId) (nl cur : Netlist) : Prop where
  sound : Sound cur
  digital : Digital cur
  models : ∀ c ∈ cur.bases, ∃ b ∈ nl.bases, b.id = c.id ∧ c.model = { b.model with pins := c.model.pins } ∧
    c.model.pins.map Option.isSome = b.model.pins.map Option.isSome ∧
    ∀ σ stored v, (∀ b ∈ nl.bases, OutputsHold σ stored v b) →
      c.model.pins.map (Option.map v) = b.model.pins.map (Option.map v)
  rest : ∀ b ∈ nl.bases, b.model.kind ≠ .yes → ∃ c ∈ cur.bases, c.id = b.id
  drives : ∀ p n, cur.DrivesNode p n → nl.DrivesNode p n
  keeps : ∀ n ∈ prot, ∀ p, nl.DrivesNode p n → cur.DrivesNode p n

variable {nl cur : Netlist} {prot : List NodeId}

theorem bypassed_start (hs : Sound nl) (hdigital : Digital nl) : Bypassed prot nl nl where
  sound := hs
  digital := hdigital
  models c hc := ⟨c, hc, rfl, rfl, rfl, fun _ _ _ _ => rfl⟩
  rest b hb _ := ⟨b, hb, rfl⟩
  drives _ _ h := h
  keeps _ _ _ h := h

theorem getElem?_retarget (isOut : PinRef → Bool) (src dst : NodeId) (b : ModelBase) (k : Nat) :
    (retarget isOut src dst b).model.pins[k]? = (b.model.pins[k]?).map fun p =>
      if p = some src ∧ isOut ⟨b.id, k⟩ = false then some dst else p := by
  simp [retarget]

theorem Bypassed.step (hs : Sound nl) (h : Bypassed prot nl cur)
    (hsingle : ∀ p q n, nl.DrivesNode p n → nl.DrivesNode q n → p = q) {mp : ModelPos} {mb : ModelBase}
    (hmb : cur.getModel mp = some mb) (hkind : mb.model.kind = .yes) {i o : NodeId}
    (hpins : mb.model.pins = [some i, some o]) (hne : i ≠ o) (hprot : o ∉ prot) :
    Bypassed prot nl
      ((cur.moveConsumers (fun p => decide (p = (⟨mb.id, 1⟩ : PinRef))) [] o i).1.deleteModel mp).1 := by
  set isOut : PinRef → Bool := fun p => decide (p = (⟨mb.id, 1⟩ : PinRef)) with hisOut
  have hmem := mem_bases hmb
  have hsome : ∀ n ∈ [i, o], (cur.node? n).isSome := by
    intro n hn
    refine h.sound.isSome_node? hmem ?_
    rw [hpins]
    simpa using hn
  obtain ⟨-, hmoved⟩ := h.sound.moveConsumers h.digital isOut (Ne.symm hne) (List.not_mem_nil)
    (hsome o (by simp)) (hsome i (by simp))
  set nl₁ := (cur.moveConsumers isOut [] o i).1
  have hgone := hmoved.getModel mp mb hmb
  have hbases : (nl₁.deleteModel mp).1.bases =
      (cur.bases.map (retarget isOut o i)).filter fun c => c.id ≠ mb.id := by
    rw [hmoved.sound.bases_deleteModel hgone, hmoved.bases]
    rfl
  have hmodel : ∀ c', c' ∈ (nl₁.deleteModel mp).1.bases ↔
      ∃ c ∈ cur.bases, c.id ≠ mb.id ∧ retarget isOut o i c = c' := by
    intro c'
    rw [hbases, List.mem_filter, List.mem_map]
    constructor
    · rintro ⟨⟨c, hc, rfl⟩, hid⟩
      exact ⟨c, hc, of_decide_eq_true hid, rfl⟩
    · rintro ⟨c, hc, hid, rfl⟩
      exact ⟨⟨c, hc, rfl⟩, decide_eq_true hid⟩
  have hbuffer : cur.DrivesNode ⟨mb.id, 1⟩ o := ⟨mb, hmem, rfl, by rw [hkind]; rfl, by rw [hpins]; rfl⟩
  have hpin : ∀ c : ModelBase, c.id ≠ mb.id → ∀ k : Nat, (retarget isOut o i c).model.pins[k]? =
      (c.model.pins[k]?).map fun p => if p = some o then some i else p := by
    intro c hid k
    have hnot : isOut ⟨c.id, k⟩ = false := by
      rw [hisOut, decide_eq_false_iff_not]
      exact fun heq => hid (congrArg PinRef.id heq)
    rw [getElem?_retarget]
    simp [hnot]
  refine ⟨hmoved.sound.deleteModel mp, ?_, ?_, ?_, ?_, ?_⟩
  · intro c' hc'
    obtain ⟨c, hc, -, rfl⟩ := (hmodel c').mp hc'
    exact h.digital c hc
  · intro c' hc'
    obtain ⟨c, hc, hid, rfl⟩ := (hmodel c').mp hc'
    obtain ⟨b, hb, hbid, hbmodel, hconn, hreads⟩ := h.models c hc
    refine ⟨b, hb, hbid, ?_, ?_, fun σ stored v hv => ?_⟩
    · rw [retarget, hbmodel]
    · rw [← hconn]
      refine List.ext_getElem? fun k => ?_
      rw [List.getElem?_map, List.getElem?_map, hpin c hid, Option.map_map]
      refine congrArg (fun f => Option.map f _) (funext fun p => ?_)
      by_cases hp : p = some o <;> simp [hp]
    · -- the two nodes of the buffer have one value
      obtain ⟨b₀, hb₀, -, hb₀model, -, hb₀reads⟩ := h.models mb hmem
      have hvalue : v o = v i := by
        refine (hv b₀ hb₀).yes ?_ ((hb₀reads σ stored v hv).symm.trans (by rw [hpins]; rfl))
        rw [← hkind, hb₀model]
      rw [← hreads σ stored v hv]
      refine List.ext_getElem? fun k => ?_
      rw [List.getElem?_map, List.getElem?_map, hpin c hid, Option.map_map]
      refine congrArg (fun f => Option.map f _) (funext fun p => ?_)
      by_cases hp : p = some o
      · simp [hp, hvalue]
      · simp [hp]
  · intro b hb hnot
    obtain ⟨c, hc, hid⟩ := h.rest b hb hnot
    refine ⟨_, (hmodel _).mpr ⟨c, hc, fun heq => hnot ?_, rfl⟩, hid⟩
    obtain ⟨b₀, hb₀, hb₀id, hb₀model, -⟩ := h.models mb hmem
    obtain rfl := hs.eq_of_id hb₀ hb (hb₀id.trans (heq.symm.trans hid))
    rw [← hkind, hb₀model]
  · rintro p n ⟨c', hc', hid, hdrives, hk⟩
    obtain ⟨c, hc, hne', rfl⟩ := (hmodel c').mp hc'
    rw [hpin c hne'] at hk
    obtain ⟨q, hq, hqn⟩ := Option.map_eq_some_iff.mp hk
    by_cases hqo : q = some o
    · -- the buffer is the only driver of its output
      have hshared := hsingle p ⟨mb.id, 1⟩ o (h.drives p o ⟨c, hc, hid, hdrives, hqo ▸ hq⟩) (h.drives _ o hbuffer)
      exact absurd (hid.trans (congrArg PinRef.id hshared)) hne'
    · rw [if_neg hqo] at hqn
      exact h.drives p n ⟨c, hc, hid, hdrives, hqn ▸ hq⟩
  · intro n hn p hp
    obtain ⟨c, hc, hid, hdrives, hk⟩ := h.keeps n hn p hp
    have hno : n ≠ o := by
      rintro rfl
      exact hprot hn
    have hne' : c.id ≠ mb.id := by
      intro heq
      obtain rfl := h.sound.eq_of_id hc hmem heq
      rw [hkind] at hdrives
      have hk1 : p.k = 1 := by simpa [drivesPin] using hdrives
      rw [hk1, hpins] at hk
      exact hno (by simpa using hk.symm)
    refine ⟨_, (hmodel _).mpr ⟨c, hc, hne', rfl⟩, hid, hdrives, ?_⟩
    rw [hpin c hne', hk, Option.map_some, if_neg (by simpa using hno)]

/-- Every pin keeps its reading when the buffers are gone, for every list of protected nodes. -/
theorem optimizeEliminateYesBuffers_keepsReadings (hs : Sound nl)
    (hkinds : ∀ b ∈ nl.bases, isEmitted b.model.kind = true ∨ b.model.kind = .resolve2)
    (hsingle : ∀ p q n, nl.DrivesNode p n → nl.DrivesNode q n → p = q) (prot : List NodeId) :
    KeepsReadings prot nl (nl.optimizeEliminateYesBuffers prot) := by
  have hdigital : Digital nl := by
    intro b hb
    rw [Model.isAnalog]
    rcases hkinds b hb with hkind | hkind
    · revert hkind
      cases b.model.kind <;> simp [isEmitted, ModelKind.deviceType]
    · rw [hkind]
      rfl
  have hrun : ∀ (mps : List ModelPos) (cur : Netlist), Bypassed prot nl cur →
      Bypassed prot nl (mps.foldl (eliminateYesBuffer nl.pinOut prot) cur) := by
    intro mps
    induction mps with
    | nil => exact fun _ h => h
    | cons mp mps ih =>
      intro cur h
      refine ih _ ?_
      unfold eliminateYesBuffer
      split
      · exact h
      · rename_i mb hmb
        split
        · rename_i i o hkind hpins
          by_cases hskip : i = o ∨ o ∈ prot
          · rw [if_pos hskip]
            exact h
          · rw [if_neg hskip]
            rw [not_or] at hskip
            split
            · exact h.step hs hsingle hmb hkind hpins hskip.1 hskip.2
            · exact h
        · exact h
  have h := hrun (gather nl fun b pos => if b.model.kind = .yes then some pos else none) nl (bypassed_start hs hdigital)
  rw [optimizeEliminateYesBuffers]
  set nl' := (gather nl fun b pos => if b.model.kind = .yes then some pos else none).foldl
    (eliminateYesBuffer nl.pinOut prot) nl
  refine ⟨h.sound, fun c hc => ?_, h.rest, fun n hn p => ⟨h.drives p n, h.keeps n hn p⟩, ?_, ?_⟩
  · obtain ⟨b, hb, hid, hmodel, hconn, -⟩ := h.models c hc
    exact ⟨b, hb, hid, hmodel, hconn⟩
  · rintro σ stored v hv p n m ⟨c, hc, hcid, hn⟩ ⟨b, hb, hbid, hm⟩
    obtain ⟨b₀, hb₀, hid, -, -, hreads⟩ := h.models c hc
    obtain rfl := hs.eq_of_id hb₀ hb (hid.trans (hcid.trans hbid.symm))
    have heq := congrArg (fun ps : List (Option LogicT) => ps[p.k]?) (hreads σ stored v hv)
    simpa [hn, hm] using heq
  · intro σ stored v hv c hc vals hvals
    obtain ⟨b, hb, hid, hmodel, -, hreads⟩ := h.models c hc
    have hout := hv b hb vals ((hreads σ stored v hv).symm.trans hvals)
    have hstate : inputState σ c = inputState σ b := by
      rw [inputState, inputState, hmodel, hid]
      rfl
    have hkind : c.model.kind = b.model.kind := by rw [hmodel]
    rw [hstate, hkind, ← hid]
    exact hout

/-- A chain of two buffers with a fan-out, and a latch behind a buffer. -/
def bufferChain : Netlist := .ofModels 6 [.port .input [0] "a" [.digital .L], .on .yes [0, 1],
  .on .yes [1, 2], .on .not [1, 3], .on .dlatch [2, 3, 4], .on .yes [4, 5], .port .output [5] "y" []]

theorem optimizeEliminateYesBuffers_bufferChain :
    KeepsReadings [.node 5] bufferChain (bufferChain.optimizeEliminateYesBuffers [.node 5]) :=
  optimizeEliminateYesBuffers_keepsReadings (sound_of_check (by decide +kernel)).1 (by decide +kernel)
    (eq_of_soleDriverCheck (by decide +kernel)) [.node 5]

end Netlist

end PhyEngine
