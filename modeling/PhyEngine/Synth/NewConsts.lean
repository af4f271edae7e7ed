import PhyEngine.Netlist.Semantics
import PhyEngine.Synth.Candidates

/-!
# Constants that a pass makes on its way

`find_or_make_const_node` in the middle of a pass: `NewConsts` are the constant inputs made so
far, each on a new node, and `withConsts` extends a valuation to these nodes.
-/

namespace PhyEngine

open Equations Adders List LogicT

namespace Netlist

inductive Replacement where
  | constant (v : Bool)
  | node (n : NodeId)
  deriving DecidableEq

def Replacement.node? : Replacement → Option NodeId
  | .constant _ => none
  | .node n => some n

def resolve (nl : Netlist) : Replacement → Netlist × NodeId
  | .constant v => findOrMakeConstNode nl (ofBool v)
  | .node n => (nl, n)

/-- The constant of the first `INPUT` without a name on the node: `node_const`, `const_idx`. -/
def nodeConst (nl : Netlist) (n : NodeId) : Option Bool :=
  nl.normals.findSome? fun m => m.constEntry.bind fun e => if e.1 = n then some e.2 else none

theorem nodeConst_spec {nl : Netlist} {n : NodeId} {c : Bool} (h : nodeConst nl n = some c) :
    ∃ b ∈ nl.bases, ConstInput b (ofBool c) n := by
  obtain ⟨m, hm, hfound⟩ := exists_of_findSome?_eq_some h
  obtain ⟨b, hb, rfl⟩ := mem_bases_of_mem_normals hm
  obtain ⟨⟨n', c'⟩, he, hfound⟩ := Option.bind_eq_some_iff.mp hfound
  split at hfound
  · rename_i heq
    simp only [Option.some.injEq] at hfound heq
    subst hfound heq
    unfold Model.constEntry at he
    split at he
    · rename_i hcond
      obtain ⟨n'', hnode, he⟩ := Option.bind_eq_some_iff.mp he
      obtain ⟨c'', hconst, he⟩ := Option.map_eq_some_iff.mp he
      cases he
      refine ⟨b, hb, hcond.1, hcond.2, ?_, ?_⟩
      · unfold Model.toBoolConst at hconst
        split at hconst
        · rename_i v hv
          rw [hv]
          cases v <;> simp only [toBool?, Option.some.injEq, reduceCtorEq] at hconst <;>
            subst hconst <;> rfl
        · cases hconst
      · unfold Model.ioNode at hnode
        split at hnode
        · rename_i p hp
          rw [hp, hnode]
        · cases hnode
    · cases he
  · cases hfound

structure NewConsts (nl : Netlist) (news : List ModelBase) (cur : Netlist) : Prop where
  const : ∀ b ∈ news, ∃ c n, ConstInput b (ofBool c) n ∧ ¬ (nl.node? n).isSome ∧
    (cur.node? n).isSome
  distinct : ∀ b ∈ news, ∀ b' ∈ news, b.model.pins = b'.model.pins → b = b'

def Replacement.value {α : Type} (of : Bool → α) (v : NodeId → α) : Replacement → α
  | .constant c => of c
  | .node n => v n

def Replacement.At (nl : Netlist) (news : List ModelBase) (r : Replacement) (x : NodeId) : Prop :=
  match r with
  | .node n => x = n
  | .constant c => ∃ b, (b ∈ nl.bases ∨ b ∈ news) ∧ ConstInput b (ofBool c) x

theorem Replacement.At.mono {nl : Netlist} {news news' : List ModelBase} {r : Replacement} {x : NodeId}
    (h : r.At nl news x) (hsub : ∀ b ∈ news, b ∈ news') : r.At nl news' x := by
  cases r with
  | node n => exact h
  | constant c =>
    obtain ⟨b, hb, hconst⟩ := h
    exact ⟨b, hb.imp_right (hsub b), hconst⟩

variable {nl cur : Netlist} {moves : List (NodeId × NodeId)} {deleted : List Nat} {news : List ModelBase}

variable {b : ModelBase}

namespace NewConsts

theorem map_retarget (h : NewConsts nl news cur) {src : NodeId} (hsrc : (nl.node? src).isSome) (dst : NodeId) :
    news.map (retarget nl.pinOut src dst) = news := by
  refine (map_congr_left fun b hb => ?_).trans (map_id news)
  obtain ⟨c, n, hconst, hnew, -⟩ := h.const b hb
  have hne : n ≠ src := by
    rintro rfl
    exact hnew hsrc
  have hpins : (b.model.pins.mapIdx fun k p =>
      if p = some src ∧ nl.pinOut ⟨b.id, k⟩ = false then some dst else p) = b.model.pins := by
    rw [hconst.pins]
    simp [hne]
  rw [retarget, hpins]
  rfl

variable {cur' : Netlist}

theorem of_rewired (h : NewConsts nl news cur) {moves' : List (NodeId × NodeId)}
    {deleted' : List Nat} (hr : Rewired nl moves' deleted' news cur') : NewConsts nl news cur' := by
  refine ⟨fun b hb => ?_, h.distinct⟩
  obtain ⟨c, n, hconst, hnode, -⟩ := h.const b hb
  exact ⟨c, n, hconst, hnode, hr.sound.isSome_node? (hr.mem_bases_new hb) (by simp [hconst.pins])⟩

theorem constNode (hs : Sound nl) (hr : Rewired nl moves deleted news cur) (hc : NewConsts nl news cur)
    (c : Bool) {dst : NodeId} (hnode : ConstNode (ofBool c) cur cur' dst) :
    ∃ news', Rewired nl moves deleted news' cur' ∧ NewConsts nl news' cur' ∧ (∀ b ∈ news, b ∈ news') ∧
      (Replacement.constant c).At nl news' dst ∧ (cur'.node? dst).isSome := by
  cases hnode with
  | found b hb hconst heq =>
    subst heq
    have hsome := hr.sound.isSome_node? hb (x := dst) (by simp [hconst.pins])
    rw [hr.bases] at hb
    refine ⟨news, hr, hc, fun _ hb' => hb', ?_, hsome⟩
    rcases mem_append.mp hb with hb | hb
    · obtain ⟨b₀, hb₀, rfl⟩ := mem_map.mp hb
      have hb₀ := mem_of_mem_filter hb₀
      have hkind : b₀.model.kind = .input := hconst.kind
      have hlen : b₀.model.pins.length = 1 := by
        rw [← length_followPins nl.pinOut moves b₀, hconst.pins]
        rfl
      -- The pin of an `INPUT` is an output pin, which no move takes along.
      have hpins : b₀.model.pins = [some dst] := by
        have hout : nl.pinOut ⟨b₀.id, 0⟩ = true := by
          rw [hs.pinOut_eq hb₀, hkind, hlen]
          rfl
        have hpin := getElem?_followPins nl.pinOut moves b₀ 0
        rw [hconst.pins, hout] at hpin
        match hps : b₀.model.pins, hlen with
        | [p], _ => simpa [hps, eq_comm] using hpin
      exact ⟨b₀, .inl hb₀, hkind, hconst.name, hconst.attr, hpins⟩
    · exact ⟨b, .inr hb, hconst⟩
  | made b hconst hid hnode hsound hbases hget hlen hnext =>
    have hold : ¬ (nl.node? dst).isSome := by
      rw [isSome_node?]
      intro hlt
      have := hlt _ hnode
      have := hr.length_nodes
      omega
    have hnone : ∀ b' ∈ news, b'.model.pins ≠ [some dst] := by
      intro b' hb' heq
      obtain ⟨c', n, hconst', -, hcur⟩ := hc.const b' hb'
      have hn : n = dst := by simpa [hconst'.pins] using heq
      rw [hn, hnode, isSome_node?] at hcur
      have := hcur _ rfl
      omega
    have hrew := hr.add (b := b) hsound (by simp [Model.isAnalog, hconst.kind, ModelKind.deviceType])
      hbases hget (by omega) (by omega) (by omega)
    have hsome : (cur'.node? dst).isSome := by
      have hmem : b ∈ cur'.bases := by
        rw [hbases]
        exact mem_append_right _ (mem_singleton_self _)
      exact hsound.isSome_node? hmem (by simp [hconst.pins])
    refine ⟨news ++ [b], hrew, ⟨?_, ?_⟩, fun _ hb' => mem_append_left _ hb', ⟨b, .inr (by simp), hconst⟩, hsome⟩
    · intro b' hb'
      rcases mem_append.mp hb' with hb' | hb'
      · obtain ⟨c', n, hconst', hnew, hcur⟩ := hc.const b' hb'
        refine ⟨c', n, hconst', hnew, ?_⟩
        rw [isSome_node?] at hcur ⊢
        intro i hi
        have := hcur i hi
        omega
      · rw [mem_singleton.mp hb']
        exact ⟨c, dst, hconst, hold, hsome⟩
    · intro b₁ hb₁ b₂ hb₂ heq
      rcases mem_append.mp hb₁ with hb₁ | hb₁ <;> rcases mem_append.mp hb₂ with hb₂ | hb₂
      · exact hc.distinct b₁ hb₁ b₂ hb₂ heq
      · rw [mem_singleton.mp hb₂, hconst.pins] at heq
        exact absurd heq (hnone b₁ hb₁)
      · rw [mem_singleton.mp hb₁, hconst.pins] at heq
        exact absurd heq.symm (hnone b₂ hb₂)
      · rw [mem_singleton.mp hb₁, mem_singleton.mp hb₂]

variable {n : NodeId} {k : Nat}

theorem pinOut_new (hr : Rewired nl moves deleted news cur) (hc : NewConsts nl news cur) (hb : b ∈ news)
    (hk : b.model.pins[k]? = some (some n)) :
    cur.pinOut ⟨b.id, k⟩ = true ∧ ¬ (nl.node? n).isSome ∧ b.model.pins = [some n] ∧ k = 0 := by
  obtain ⟨c, n', hconst, hold, -⟩ := hc.const b hb
  have hmem := hr.mem_bases_new hb
  rw [hconst.pins] at hk
  have hk0 : k = 0 := by
    have := (List.getElem?_eq_some_iff.mp hk).1
    simpa using this
  subst hk0
  have hn : n' = n := by simpa using hk
  subst hn
  refine ⟨?_, hold, hconst.pins, rfl⟩
  rw [hr.sound.pinOut_eq hmem, hconst.kind, hconst.pins]
  rfl

theorem singleDriverPins (hs : Sound nl) (hsingle : SingleDriverPins nl) (hr : Rewired nl moves deleted news cur)
    (hc : NewConsts nl news cur) : SingleDriverPins cur := by
  intro p q n hpn hqn
  have hold : ∀ p', cur.DriverPin p' n → (nl.DriverPin p' n) ∨
      ∃ b ∈ news, p' = ⟨b.id, 0⟩ ∧ b.model.pins = [some n] ∧ ¬ (nl.node? n).isSome := by
    intro p' hp'
    rcases hr.points_cases hp'.2 with ⟨b, hb, hd, hid⟩ | ⟨b, hb, hid, hk⟩
    · have hpb : p' = ⟨b.id, p'.k⟩ := by rw [hid]
      rw [hpb] at hp' ⊢
      exact .inl ((hr.driverPin_old hs hb hd _ _).mp hp')
    · obtain ⟨-, hnew, hpins, hk0⟩ := pinOut_new hr hc hb hk
      exact .inr ⟨b, hb, by rw [← hk0, hid], hpins, hnew⟩
  have hsome : ∀ p', nl.DriverPin p' n → (nl.node? n).isSome := by
    rintro p' ⟨-, b, hb, -, hk⟩
    exact hs.isSome_node? hb (List.mem_of_getElem? hk)
  rcases hold p hpn with hp' | ⟨b, hb, rfl, hpins, hnew⟩ <;>
    rcases hold q hqn with hq' | ⟨b', hb', rfl, hpins', hnew'⟩
  · exact hsingle p q n hp' hq'
  · exact absurd (hsome p hp') hnew'
  · exact absurd (hsome q hq') hnew
  · rw [hc.distinct b hb b' hb' (hpins.trans hpins'.symm)]

theorem not_consumer (hr : Rewired nl moves deleted news cur) (hc : NewConsts nl news cur) (hb : b ∈ news)
    : ¬ cur.ConsumerPin ⟨b.id, k⟩ n := by
  rintro ⟨hout, hpoint⟩
  have hk := (hr.sound.points_iff_pin (hr.mem_bases_new hb) _ _).mp hpoint
  rw [(pinOut_new hr hc hb hk).1] at hout
  cases hout

end NewConsts

section Values

variable {α : Type} (of : Bool → α)

/-- The values of a valuation, with those of the new constants. -/
def withConsts (news : List ModelBase) (v : NodeId → α) (n : NodeId) : α :=
  match news.find? fun b => decide (b.model.pins = [some n]) with
  | some b => of (decide (b.model.getAttribute 0 = .digital .H))
  | none => v n

variable {of} {v : NodeId → α} {n : NodeId}

theorem withConsts_old (hc : NewConsts nl news cur) (hn : (nl.node? n).isSome) : withConsts of news v n = v n := by
  unfold withConsts
  cases hfind : news.find? fun b => decide (b.model.pins = [some n]) with
  | none => rfl
  | some b =>
    have hpins : b.model.pins = [some n] := by simpa using find?_some hfind
    obtain ⟨c, m, hconst, hold, -⟩ := hc.const b (mem_of_find?_eq_some hfind)
    have hmn : m = n := by simpa [hconst.pins] using hpins
    exact absurd hn (hmn ▸ hold)

theorem withConsts_new (hc : NewConsts nl news cur) (hb : b ∈ news) {c : Bool}
    (hconst : ConstInput b (ofBool c) n) : withConsts of news v n = of c := by
  unfold withConsts
  cases hfind : news.find? fun b => decide (b.model.pins = [some n]) with
  | none =>
    have := find?_eq_none.mp hfind b hb
    simp [hconst.pins] at this
  | some b' =>
    have hpins : b'.model.pins = [some n] := by simpa using find?_some hfind
    have hbb := hc.distinct b' (mem_of_find?_eq_some hfind) b hb (hpins.trans hconst.pins.symm)
    dsimp only
    rw [hbb, hconst.attr]
    cases c <;> rfl

theorem withConsts_cases (of : Bool → α) (v : NodeId → α) (hc : NewConsts nl news cur) (n : NodeId) :
    (∃ b ∈ news, ∃ c, ConstInput b (ofBool c) n) ∨ withConsts of news v n = v n := by
  unfold withConsts
  cases hfind : news.find? fun b => decide (b.model.pins = [some n]) with
  | none => exact .inr rfl
  | some b =>
    have hpins : b.model.pins = [some n] := by simpa using find?_some hfind
    have hb := mem_of_find?_eq_some hfind
    obtain ⟨c, m, hconst, -⟩ := hc.const b hb
    have hmn : m = n := by simpa [hconst.pins] using hpins
    exact .inl ⟨b, hb, c, hmn ▸ hconst⟩

end Values

end Netlist

end PhyEngine
