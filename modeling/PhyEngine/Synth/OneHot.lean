import PhyEngine.Synth.DontCares
import PhyEngine.Verilog.Runs
import PhyEngine.Verilog.StmtRuns

/-!
# One-hot state vectors keep their patterns

The walk over the statements finds that each assignment leaves a reported vector alone or assigns
it as a whole by constants (`Harmless`). A run keeps the patterns as long as the signals taken
for constants keep their values, but `always_ff` blocks may assign these.
-/

namespace PhyEngine.Verilog

open BitNumbers List ModuleState LogicT
open Option (bind_eq_bind bind_eq_some_iff map_eq_some_iff map_some some)

/-! ## The walk over the statements -/

/-- What a walk may change in an entry. -/
structure VectorAssignInfo.Extends (info info' : VectorAssignInfo) : Prop where
  desc : info'.desc = info.desc
  bad : info.bad = true → info'.bad = true
  patterns : ∀ p ∈ info.patterns, p ∈ info'.patterns

namespace VectorAssignInfo.Extends

theorem refl (info : VectorAssignInfo) : Extends info info := ⟨rfl, id, fun _ h => h⟩

theorem trans {i j k : VectorAssignInfo} (h : Extends i j) (h' : Extends j k) : Extends i k :=
  ⟨h'.desc.trans h.desc, fun hb => h'.bad (h.bad hb), fun p hp => h'.patterns p (h.patterns p hp)⟩

end VectorAssignInfo.Extends

def Later (vecs vecs' : List VectorAssignInfo) : Prop := List.Forall₂ VectorAssignInfo.Extends vecs vecs'

variable {vecs : List VectorAssignInfo} {vid : Nat} {info : VectorAssignInfo} {a : Assign} {vd : VectorDesc}
  {g : DcGroup} {st st' : ModuleState} {bs : List Bool}

namespace Later

theorem refl (vecs : List VectorAssignInfo) : Later vecs vecs :=
  forall₂_same.mpr fun info _ => VectorAssignInfo.Extends.refl info

theorem trans {u v w : List VectorAssignInfo} (h : Later u v) (h' : Later v w) : Later u w := by
  unfold Later at *
  induction h generalizing w with
  | nil => exact h'
  | cons hij _ ih =>
    cases h' with
    | cons hjk hrest => exact .cons (hij.trans hjk) (ih hrest)

theorem modify {f : VectorAssignInfo → VectorAssignInfo} (h : ∀ info, VectorAssignInfo.Extends info (f info))
    (vecs : List VectorAssignInfo) (vid : Nat) : Later vecs (vecs.modify vid f) := by
  induction vecs generalizing vid with
  | nil =>
    rw [modify_nil]
    exact refl []
  | cons info vecs ih =>
    cases vid with
    | zero => exact .cons (h info) (refl vecs)
    | succ vid => exact .cons (.refl info) (ih vid)

theorem foldl {β : Type} {f : List VectorAssignInfo → β → List VectorAssignInfo} (h : ∀ vecs x, Later vecs (f vecs x))
    (xs : List β) (vecs : List VectorAssignInfo) : Later vecs (xs.foldl f vecs) := by
  induction xs generalizing vecs with
  | nil => exact refl vecs
  | cons x xs ih => exact (h vecs x).trans (ih (f vecs x))

theorem exists_before {vecs' : List VectorAssignInfo} (h : Later vecs vecs') {info' : VectorAssignInfo}
    (hvid : vecs'[vid]? = some info') : ∃ info, vecs[vid]? = some info ∧ VectorAssignInfo.Extends info info' := by
  unfold Later at h
  induction h generalizing vid with
  | nil => cases hvid
  | cons hext _ ih =>
    cases vid with
    | zero => exact ⟨_, rfl, some.inj hvid ▸ hext⟩
    | succ vid => exact ih hvid

end Later

section Walk

variable {vbs : List (Option Nat)}

theorem later_markBad (vecs : List VectorAssignInfo) (vid : Nat) : Later vecs (markBad vecs vid) := by
  refine Later.modify ?_ vecs vid
  exact fun _ => ⟨rfl, fun _ => rfl, fun _ h => h⟩

theorem later_markSignal (vecs : List VectorAssignInfo) (sig : Nat) : Later vecs (markSignal vbs vecs sig) := by
  unfold markSignal
  split
  · exact Later.refl vecs
  · exact later_markBad vecs _

theorem bad_markBad (h : (markBad vecs vid)[vid]? = some info) : info.bad = true := by
  rw [markBad, getElem?_modify_eq] at h
  obtain ⟨before, -, rfl⟩ := map_eq_some_iff.mp h
  rfl

theorem bad_of_marked {sigs : List Nat} {sig : Nat} (hsig : sig ∈ sigs) (hvec : vectorOf vbs sig = some vid)
    (h : (sigs.foldl (markSignal vbs) vecs)[vid]? = some info) : info.bad = true := by
  induction sigs generalizing vecs with
  | nil => cases hsig
  | cons s sigs ih =>
    rw [foldl_cons] at h
    rcases mem_cons.mp hsig with rfl | hsig
    · obtain ⟨before, hbefore, hext⟩ := (Later.foldl later_markSignal sigs _).exists_before h
      rw [markSignal, hvec] at hbefore
      exact hext.bad (bad_markBad hbefore)
    · exact ih hsig h

theorem vectorOf_of_commonVector {lhs : List Nat} (h : commonVector vbs lhs = some vid) :
    ∀ s ∈ lhs, vectorOf vbs s = some vid := by
  cases lhs with
  | nil => cases h
  | cons s ss =>
    rw [commonVector] at h
    split at h
    · cases h
    · rename_i v hv
      split_ifs at h with hall
      cases h
      rw [forall_mem_cons]
      exact ⟨hv, fun t ht => of_decide_eq_true (all_eq_true.mp hall t ht)⟩

variable {b : InstanceBuilder}

theorem later_noteAssign (vecs : List VectorAssignInfo) (a : Assign) : Later vecs (noteAssign vbs b vecs a) := by
  unfold noteAssign
  split
  · exact Later.foldl later_markSignal _ vecs
  split
  · exact Later.refl vecs
  split
  · exact Later.foldl later_markSignal _ vecs
  split
  · exact later_markBad vecs _
  split
  · exact later_markBad vecs _
  · refine Later.modify ?_ vecs _
    exact fun _ => ⟨rfl, id, fun _ h => mem_append_left _ h⟩

/-- What is known of an assignment once it is noted, for a vector that is not marked bad. -/
inductive Noted (vbs : List (Option Nat)) (b : InstanceBuilder) (vid : Nat) (info : VectorAssignInfo)
    (a : Assign) : Prop where
  | ignored (h : a.lhs.length ≠ a.rhs.length ∨ a.lhs = [])
  | elsewhere (h : ∀ s ∈ a.lhs, vectorOf vbs s ≠ some vid)
  | whole (hv : a.isVector = true) (hlhs : a.lhs = info.desc.bits) (hall : ∀ s ∈ a.lhs, vectorOf vbs s = some vid)
      {bits : List Bool} (hbits : b.constBits a.rhs = some bits) (hval : value bits ∈ info.patterns)

theorem Noted.mono {info' : VectorAssignInfo} (h : Noted vbs b vid info a)
    (hext : VectorAssignInfo.Extends info info') :
    Noted vbs b vid info' a := by
  cases h with
  | ignored h => exact .ignored h
  | elsewhere h => exact .elsewhere h
  | whole hv hlhs hall hbits hval => exact .whole hv (hlhs.trans (by rw [hext.desc])) hall hbits (hext.patterns _ hval)

theorem noted_of_marked (h : (a.lhs.foldl (markSignal vbs) vecs)[vid]? = some info) (hgood : info.bad = false) :
    Noted vbs b vid info a := by
  refine .elsewhere fun s hs hvec => ?_
  rw [bad_of_marked hs hvec h] at hgood
  cases hgood

theorem noted_noteAssign (h : (noteAssign vbs b vecs a)[vid]? = some info) (hgood : info.bad = false) :
    Noted vbs b vid info a := by
  unfold noteAssign at h
  split at h
  · exact noted_of_marked h hgood
  rename_i hv
  split at h
  · rename_i hlen
    exact .ignored hlen
  split at h
  · exact noted_of_marked h hgood
  rename_i v hcommon
  have hall := vectorOf_of_commonVector hcommon
  by_cases hvid : v = vid
  · subst hvid
    split at h
    · rw [bad_markBad h] at hgood
      cases hgood
    rename_i hdesc
    split at h
    · rw [bad_markBad h] at hgood
      cases hgood
    · rename_i bits hbits
      rw [not_not] at hdesc
      obtain ⟨before, hbefore, hlhs⟩ := map_eq_some_iff.mp hdesc
      rw [getElem?_modify_eq, hbefore, Option.map_eq_map, map_some] at h
      cases h
      exact .whole (by simpa using hv) hlhs.symm hall hbits (mem_append_right _ mem_cons_self)
  · refine .elsewhere fun s hs hvec => hvid ?_
    exact some.inj ((hall s hs).symm.trans hvec)

def Mapped (vbs : List (Option Nat)) (vecs : List VectorAssignInfo) : Prop :=
  ∀ (vid : Nat) (info : VectorAssignInfo), vecs[vid]? = some info → info.patterns ≠ [] →
    ∀ s ∈ info.desc.bits, vectorOf vbs s = some vid

section

variable (h : Mapped vbs vecs)
include h

theorem Mapped.markBad (vid : Nat) : Mapped vbs (markBad vecs vid) := by
  intro i info hi hne s hs
  rw [Verilog.markBad, getElem?_modify] at hi
  obtain ⟨before, hbefore, rfl⟩ := map_eq_some_iff.mp hi
  split_ifs at hne hs
  · exact h i before hbefore hne s hs
  · exact h i before hbefore hne s hs

theorem Mapped.marked (sigs : List Nat) :
    Mapped vbs (sigs.foldl (markSignal vbs) vecs) := by
  induction sigs generalizing vecs with
  | nil => exact h
  | cons s sigs ih =>
    refine ih ?_
    unfold markSignal
    split
    · exact h
    · exact h.markBad _

theorem Mapped.noteAssign (a : Assign) :
    Mapped vbs (noteAssign vbs b vecs a) := by
  unfold Verilog.noteAssign
  split
  · exact h.marked _
  split
  · exact h
  split
  · exact h.marked _
  rename_i v hcommon
  split
  · exact h.markBad v
  rename_i hdesc
  split
  · exact h.markBad v
  · rw [not_not] at hdesc
    intro i info hi hne s hs
    rw [getElem?_modify] at hi
    obtain ⟨before, hbefore, rfl⟩ := map_eq_some_iff.mp hi
    split_ifs at hne hs with hvi
    · subst hvi
      rw [hbefore] at hdesc
      exact vectorOf_of_commonVector hcommon s (some.inj hdesc ▸ hs)
    · exact h i before hbefore hne s hs

omit h in
theorem noted_of_mem {as : List Assign} (ha : a ∈ as) (h : (as.foldl (noteAssign vbs b) vecs)[vid]? = some info)
    (hgood : info.bad = false) :
    Noted vbs b vid info a := by
  induction as generalizing vecs with
  | nil => cases ha
  | cons c as ih =>
    rw [foldl_cons] at h
    rcases mem_cons.mp ha with rfl | ha
    · obtain ⟨before, hbefore, hext⟩ := (Later.foldl later_noteAssign as _).exists_before h
      have hbad : before.bad = false := by
        rw [Bool.eq_false_iff]
        intro hb
        rw [hext.bad hb] at hgood
        cases hgood
      exact (noted_noteAssign hbefore hbad).mono hext
    · exact ih ha h

theorem Mapped.foldl (as : List Assign) :
    Mapped vbs (as.foldl (Verilog.noteAssign vbs b) vecs) := by
  induction as generalizing vecs with
  | nil => exact h
  | cons a as ih => exact ih (h.noteAssign a)

end

end Walk

/-! ## The reported vectors -/

def CompiledModule.ffAssigns (m : CompiledModule) : List Assign :=
  m.alwaysFfs.flatMap fun ff => Stmt.assignsOfList ff.roots

/-- An assignment that leaves the vector alone or gives it an allowed value. -/
inductive Harmless (b : InstanceBuilder) (bits allowed : List Nat) (a : Assign) : Prop where
  | ignored (h : a.lhs.length ≠ a.rhs.length ∨ a.lhs = [])
  | elsewhere (h : ∀ s ∈ a.lhs, s ∉ bits)
  | whole (hv : a.isVector = true) (hlhs : a.lhs = bits) {bs : List Bool} (hbits : b.constBits a.rhs = some bs)
      (hval : value bs ∈ allowed)

/-- A vector that the `always_ff` blocks assign as a whole only, by the patterns of its group. -/
structure OneHot (b : InstanceBuilder) (vd : VectorDesc) (g : DcGroup) : Prop where
  mem : vd ∈ b.candidates
  nodes : (vd.bits.mapM fun sig => b.sigNodes.getD sig none) = some g.nodes
  lt : ∀ s ∈ vd.bits, s < b.inst.mod.signalNames.length
  harmless : ∀ a ∈ b.inst.mod.ffAssigns, Harmless b vd.bits g.allowed a

namespace InstanceBuilder

variable {b : InstanceBuilder}

theorem collected_eq : b.collected =
    b.inst.mod.ffAssigns.foldl (noteAssign b.vecBySignal b) (b.candidates.map fun vd => { desc := vd }) :=
  foldl_flatMap.symm

theorem length_setAllTo (v : Option Nat) (sigs : List Nat) (vbs : List (Option Nat)) :
    (sigs.foldl (fun vbs sig => vbs.set sig v) vbs).length = vbs.length := by
  induction sigs generalizing vbs with
  | nil => rfl
  | cons s sigs ih => rw [foldl_cons, ih, length_set]

theorem length_vecBySignal : b.vecBySignal.length = b.inst.mod.signalNames.length := by
  have hfold (ps : List (VectorDesc × Nat)) (vbs : List (Option Nat)) :
      (ps.foldl (fun vbs p => p.1.bits.foldl (fun vbs sig => vbs.set sig (some p.2)) vbs) vbs).length = vbs.length := by
    induction ps generalizing vbs with
    | nil => rfl
    | cons p ps ih => rw [foldl_cons, ih, length_setAllTo]
  rw [vecBySignal, hfold, length_replicate]

theorem lt_of_vectorOf {s : Nat} (h : vectorOf b.vecBySignal s = some vid) : s < b.inst.mod.signalNames.length := by
  rw [← length_vecBySignal]
  by_contra hge
  rw [vectorOf, getD_eq_default _ _ (by omega)] at h
  cases h

theorem mapped_start : Mapped b.vecBySignal (b.candidates.map fun vd => { desc := vd }) := by
  intro vid info hinfo hne
  rw [getElem?_map] at hinfo
  obtain ⟨vd, -, rfl⟩ := map_eq_some_iff.mp hinfo
  exact absurd rfl hne

theorem oneHot_of_collected (h : info ∈ b.collected) (hg : b.oneHotGroup info = some (vd, g)) : OneHot b vd g := by
  unfold oneHotGroup at hg
  split_ifs at hg with hbad hpop
  obtain ⟨nodes, hnodes, hpair⟩ := map_eq_some_iff.mp hg
  obtain ⟨rfl, rfl⟩ := Prod.mk.inj hpair
  simp only [Bool.or_eq_true, not_or, decide_eq_true_eq, List.isEmpty_iff, Bool.not_eq_true] at hbad
  obtain ⟨⟨⟨hgood, hne⟩, -⟩, -⟩ := hbad
  obtain ⟨vid, hvid⟩ := getElem?_of_mem h
  rw [collected_eq] at hvid
  have hmapped := mapped_start.foldl (b := b) b.inst.mod.ffAssigns vid info hvid hne
  obtain ⟨before, hbefore, hext⟩ := (Later.foldl later_noteAssign b.inst.mod.ffAssigns _).exists_before hvid
  rw [getElem?_map] at hbefore
  obtain ⟨vd, hvd, rfl⟩ := map_eq_some_iff.mp hbefore
  refine ⟨hext.desc ▸ List.mem_of_getElem? hvd, hnodes, fun s hs => lt_of_vectorOf (hmapped s hs), ?_⟩
  intro a ha
  cases noted_of_mem ha hvid hgood with
  | ignored h => exact .ignored h
  | elsewhere h => exact .elsewhere fun s hs hbits => h s hs (hmapped s hbits)
  | whole hv hlhs _ hbits hval =>
    refine .whole hv hlhs hbits ?_
    rw [mem_dedup, mem_mergeSort]
    exact hval

theorem oneHot_of_reported (h : (vd, g) ∈ b.reported) : OneHot b vd g := by
  unfold reported at h
  split_ifs at h
  · cases h
  · cases h
  · obtain ⟨info, hinfo, hg⟩ := mem_filterMap.mp h
    exact oneHot_of_collected hinfo hg

theorem mem_addGroup {groups : List DcGroup} {h : DcGroup} (hg : g ∈ addGroup groups h) : g ∈ groups ∨ g = h := by
  unfold addGroup at hg
  split_ifs at hg
  · exact .inl hg
  · rwa [mem_append, mem_singleton] at hg

theorem mem_inferOneHotFsmGroups (h : g ∈ b.inferOneHotFsmGroups) :
    g ∈ b.groups ∨ ∃ vd, (vd, g) ∈ b.reported := by
  have hfold (gs : List DcGroup) (groups : List DcGroup) (hg : g ∈ gs.foldl addGroup groups) : g ∈ groups ∨ g ∈ gs := by
    induction gs generalizing groups with
    | nil => exact .inl hg
    | cons x gs ih =>
      rcases ih _ hg with hg | hg
      · rcases mem_addGroup hg with hg | rfl
        · exact .inl hg
        · exact .inr mem_cons_self
      · exact .inr (mem_cons_of_mem _ hg)
  rcases hfold _ _ h with hg | hg
  · exact .inl hg
  · obtain ⟨p, hp, rfl⟩ := mem_map.mp hg
    exact .inr ⟨p.1, hp⟩

end InstanceBuilder

theorem map_evalExpr_of_constBits {b : InstanceBuilder} (hst : b.KeepsConsts st) {roots : List Nat}
    (h : b.constBits roots = some bs) :
    (roots.map fun root => evalExpr b.inst.mod root st.values) = bs.map ofBool := by
  induction roots generalizing bs with
  | nil =>
    cases h
    rfl
  | cons root roots ih =>
    unfold InstanceBuilder.constBits at h
    rw [mapM_cons, bind_eq_bind, bind_eq_some_iff] at h
    obtain ⟨bit, hbit, hrest⟩ := h
    obtain ⟨rest, hroots, hcons⟩ := bind_eq_some_iff.mp hrest
    cases hcons
    rw [map_cons, map_cons, ih hroots]
    congr 1
    split at hbit
    · rename_i hv
      rw [evalExpr_of_const hst hv, ← some.inj hbit]
      rfl
    · rename_i hv
      rw [evalExpr_of_const hst hv, ← some.inj hbit]
      rfl
    · cases hbit

/-! ## The patterns along a run -/

/-- The bits of a vector hold one of the allowed values. -/
def HoldsPattern (st : ModuleState) (bits allowed : List Nat) : Prop :=
  ∃ bs : List Bool, bits.map st.get = bs.map ofBool ∧ value bs ∈ allowed

variable (b : InstanceBuilder)

def InstanceBuilder.Own (bits : List Nat) (s : Nat) : Prop := s ∈ bits ∨ (b.constSignal s).isSome = true

section Patterns

variable (b : InstanceBuilder) (bits allowed : List Nat)

/-- Writes that leave the constants alone and assign the vector as a whole, by a pattern. -/
inductive Tame : List (Nat × LogicT) → Prop where
  | nil : Tame []
  | other {w : Nat × LogicT} {ws : List (Nat × LogicT)} (h : ¬ b.Own bits w.1) (hws : Tame ws) : Tame (w :: ws)
  | whole {bs : List Bool} {ws : List (Nat × LogicT)} (hfree : ∀ s ∈ bits, b.constSignal s = none)
      (hlen : bs.length = bits.length) (hval : value bs ∈ allowed) (hws : Tame ws) :
      Tame (bits.zip (bs.map ofBool) ++ ws)

structure Patterned (st : ModuleState) : Prop where
  length : st.values.length = b.inst.mod.signalNames.length
  consts : b.KeepsConsts st
  holds : HoldsPattern st bits allowed

/-- An event that leaves the vector and the constants alone, or one of an `always_ff` block. -/
def PendingEvent (K : Nat → Prop) (ev : ScheduledEvent) : Prop :=
  (∀ s ∈ ev.targets, ¬ K s) ∨ ∃ a ∈ b.inst.mod.ffAssigns, ∃ due, ev = a.event due

structure FsmInv (st : ModuleState) : Prop extends Patterned b bits allowed st where
  queue : Tame b bits allowed st.nbaQueue
  events : ∀ ev ∈ st.events, PendingEvent b (b.Own bits) ev

end Patterns

section Steps

variable {b : InstanceBuilder} {bits allowed : List Nat}

variable {ws : List (Nat × LogicT)}

theorem Tame.append {ws' : List (Nat × LogicT)} (h : Tame b bits allowed ws) (h' : Tame b bits allowed ws') :
    Tame b bits allowed (ws ++ ws') := by
  induction h with
  | nil => exact h'
  | other h _ ih => exact .other h ih
  | whole hfree hlen hval _ ih =>
    rw [append_assoc]
    exact .whole hfree hlen hval ih

theorem tame_of_others (h : ∀ w ∈ ws, ¬ b.Own bits w.1) : Tame b bits allowed ws := by
  induction ws with
  | nil => exact .nil
  | cons w ws ih =>
    rw [forall_mem_cons] at h
    exact .other h.1 (ih h.2)

theorem map_fst_zip (hlen : bs.length = bits.length) :
    (bits.zip (bs.map ofBool)).map Prod.fst = bits :=
  List.map_fst_zip (by rw [length_map, hlen])

theorem Tame.existing (h : Tame b bits allowed ws) (hlt : ∀ s ∈ bits, s < st.values.length) :
    Tame b bits allowed (existing st ws) := by
  induction h with
  | nil => exact .nil
  | @other w ws h hws ih =>
    rw [Verilog.existing, filter_cons]
    split
    · exact .other h ih
    · exact ih
  | @whole bs ws hfree hlen hval hws ih =>
    have hall : (bits.zip (bs.map ofBool)).filter (fun w => w.1 < st.values.length) =
        bits.zip (bs.map ofBool) := by
      rw [filter_eq_self]
      exact fun w hw => decide_eq_true (hlt _ (of_mem_zip hw).1)
    rw [Verilog.existing, filter_append, hall]
    exact .whole hfree hlen hval ih

theorem Patterned.congr (h : Patterned b bits allowed st) (hlen : st'.values.length = st.values.length)
    (hget : ∀ s, b.Own bits s → st'.get s = st.get s) :
    Patterned b bits allowed st' := by
  refine ⟨hlen.trans h.length, ?_, ?_⟩
  · intro s v hs
    rw [hget s (.inr (by rw [hs, Option.isSome_some]))]
    exact h.consts s v hs
  · obtain ⟨bs, hbs, hval⟩ := h.holds
    refine ⟨bs, ?_, hval⟩
    rw [← hbs]
    exact map_congr_left fun s hs => hget s (.inl hs)

theorem written_zip (hnodup : bits.Nodup) {vs : List LogicT} (hlen : vs.length = bits.length) (f : Nat → LogicT) :
    (bits.map fun s => written (bits.zip vs) s (f s)) = vs := by
  induction bits generalizing vs f with
  | nil =>
    rw [length_nil, length_eq_zero_iff] at hlen
    rw [hlen]
    rfl
  | cons s bits ih =>
    obtain ⟨v, vs, rfl⟩ := exists_cons_of_length_eq_add_one hlen
    rw [length_cons, length_cons, Nat.add_right_cancel_iff] at hlen
    obtain ⟨hs, hrest⟩ := nodup_cons.mp hnodup
    have hnot : s ∉ (bits.zip vs).map Prod.fst := by
      rw [List.map_fst_zip (by omega)]
      exact hs
    rw [map_cons, zip_cons_cons, written_cons, if_pos rfl, written_of_not_mem hnot]
    congr 1
    refine (map_congr_left fun t ht => ?_).trans (ih hrest hlen f)
    have hne : s ≠ t := by
      rintro rfl
      exact hs ht
    rw [written_cons, if_neg hne]

theorem Patterned.assignWhole (h : Patterned b bits allowed st) (hnodup : bits.Nodup)
    (hlt : ∀ s ∈ bits, s < b.inst.mod.signalNames.length) (hfree : ∀ s ∈ bits, b.constSignal s = none)
    (hlen : bs.length = bits.length) (hval : value bs ∈ allowed) :
    Patterned b bits allowed (st.assignAll (bits.zip (bs.map ofBool))).1 := by
  refine ⟨((sameBut_assignAll st _).length).trans h.length, ?_, bs, ?_, hval⟩
  · intro s v hs
    have hnot : s ∉ (bits.zip (bs.map ofBool)).map Prod.fst := by
      rw [map_fst_zip hlen]
      intro hmem
      rw [hfree s hmem] at hs
      cases hs
    rw [get_assignAll, written_of_not_mem hnot, h.consts s v hs]
    split
    · rfl
    · rename_i hout
      rw [← h.consts s v hs, ModuleState.get, getD_eq_default _ _ (by omega)]
  · have hget : bits.map (st.assignAll (bits.zip (bs.map ofBool))).1.get =
        bits.map fun s => written (bits.zip (bs.map ofBool)) s (st.get s) := by
      refine map_congr_left fun s hs => ?_
      rw [get_assignAll, if_pos (h.length ▸ hlt s hs)]
    rw [hget, written_zip hnodup (by rw [length_map, hlen])]

theorem Patterned.assignAll (hws : Tame b bits allowed ws) (hnodup : bits.Nodup)
    (hlt : ∀ s ∈ bits, s < b.inst.mod.signalNames.length) (h : Patterned b bits allowed st) :
    Patterned b bits allowed (st.assignAll ws).1 := by
  induction hws generalizing st with
  | nil => exact h
  | @other w ws hw _ ih =>
    refine ih (h.congr (sameBut_assignSignal st w.1 w.2).length fun s hs => ?_)
    rw [get_assignSignal, if_neg]
    rintro ⟨rfl, -⟩
    exact hw hs
  | whole hfree hlen hval _ ih =>
    rw [assignAll_append]
    exact ih (h.assignWhole hnodup hlt hfree hlen hval)

variable (hnodup : bits.Nodup) (hlt : ∀ s ∈ bits, s < b.inst.mod.signalNames.length)
  (hfree : ∀ a ∈ b.inst.mod.ffAssigns, ∀ s ∈ a.lhs, b.constSignal s = none)
  (hharmless : ∀ a ∈ b.inst.mod.ffAssigns, Harmless b bits allowed a)

include hfree hharmless in
theorem tame_sampleWrites (ha : a ∈ b.inst.mod.ffAssigns) (hlen : a.lhs.length = a.rhs.length)
    (hst : Patterned b bits allowed st) :
    Tame b bits allowed (sampleWrites b.inst.mod st a.lhs a.rhs) := by
  have hothers (h : ∀ s ∈ a.lhs, s ∉ bits) : Tame b bits allowed (sampleWrites b.inst.mod st a.lhs a.rhs) := by
    refine tame_of_others fun w hw hown => ?_
    have hmem := mem_sampleWrites hw
    rcases hown with hbits | hconst
    · exact h _ hmem hbits
    · rw [hfree a ha _ hmem] at hconst
      cases hconst
  cases hharmless a ha with
  | ignored h =>
    rcases h with h | h
    · exact absurd hlen h
    · refine hothers fun s hs => ?_
      rw [h] at hs
      cases hs
  | elsewhere h => exact hothers h
  | @whole _ hlhs bs hbits hval =>
    have hvals := map_evalExpr_of_constBits hst.consts hbits
    have hbs : bs.length = bits.length := by
      rw [← hlhs, hlen, ← length_map (f := ofBool), ← hvals, length_map]
    rw [sampleWrites, hvals, hlhs, ← append_nil (bits.zip (bs.map ofBool))]
    exact .whole (hlhs ▸ hfree a ha) hbs hval .nil

theorem FsmInv.queued (h : FsmInv b bits allowed st) (hws : Tame b bits allowed ws) :
    FsmInv b bits allowed { st with nbaQueue := st.nbaQueue ++ ws } :=
  ⟨⟨h.length, h.consts, h.holds⟩, h.queue.append hws, h.events⟩

include hnodup hlt in
theorem FsmInv.assigned (h : FsmInv b bits allowed st) (hws : Tame b bits allowed ws) :
    FsmInv b bits allowed (st.assignAll ws).1 := by
  have hsame := sameBut_assignAll st ws
  refine ⟨h.toPatterned.assignAll hws hnodup hlt, ?_, ?_⟩
  · rw [hsame.nbaQueue]
    exact h.queue
  · rw [hsame.events]
    exact h.events

include hnodup hlt hfree hharmless in
theorem FsmInv.execAssign (ha : a ∈ b.inst.mod.ffAssigns) (tick : UInt64) {x : Exec} (h : FsmInv b bits allowed x.st) :
    FsmInv b bits allowed (execAssign b.inst.mod tick a x).st := by
  have hin : ∀ s ∈ bits, s < x.st.values.length := fun s hs => h.length ▸ hlt s hs
  unfold Verilog.execAssign
  split
  · exact h
  rename_i hlen
  have htame := tame_sampleWrites hfree hharmless ha (not_not.mp fun hne => hlen (.inl hne)) h.toPatterned
  split
  · exact h
  split
  · refine ⟨⟨h.length, h.consts, h.holds⟩, h.queue, fun ev hev => ?_⟩
    rcases mem_append.mp hev with hev | hev
    · exact h.events ev hev
    · exact .inr ⟨a, ha, _, mem_singleton.mp hev⟩
  split
  · exact h.queued (htame.existing hin)
  · exact h.assigned hnodup hlt htame

include hnodup hlt hfree hharmless in
theorem FsmInv.execRoots {ff : AlwaysFf} (hff : ff ∈ b.inst.mod.alwaysFfs) (tick : UInt64)
    (h : FsmInv b bits allowed st) : FsmInv b bits allowed (execRoots b.inst.mod tick ff.roots st).1 := by
  have hrel : StepRel fun x y => FsmInv b bits allowed x.st → FsmInv b bits allowed y.st :=
    ⟨fun _ h => h, fun _ _ _ h h' hx => h' (h hx), fun _ _ h => h⟩
  have hall : ∀ a ∈ Stmt.assignsOfList ff.roots, a ∈ b.inst.mod.ffAssigns :=
    fun a ha => mem_flatMap.mpr ⟨ff, hff, ha⟩
  generalize ff.roots = roots at hall
  induction roots generalizing st with
  | nil => exact h
  | cons root roots ih =>
    rw [Stmt.assignsOfList, forall_mem_append] at hall
    refine ih ?_ hall.2
    exact hrel.execStmt root (fun a ha _ => FsmInv.execAssign hnodup hlt hfree hharmless (hall.1 a ha) tick) _ h

theorem FsmInv.framed (h : FsmInv b bits allowed st) {K : Nat → Prop} (hK : ∀ s, b.Own bits s → K s)
    (hframe : StateFrame (fun s => ¬ K s) (fun s => ¬ K s) st st') :
    FsmInv b bits allowed st' := by
  obtain ⟨ws, hqueue, hws⟩ := hframe.nba
  refine ⟨h.toPatterned.congr hframe.length fun s hs => hframe.get s (not_not.mpr (hK s hs)), ?_, ?_⟩
  · rw [hqueue]
    exact h.queue.append (tame_of_others fun w hw hown => hws w hw (hK _ hown))
  · intro ev hev
    rcases hframe.events ev hev with hev | hev
    · exact h.events ev hev
    · exact .inl fun s hs hown => hev s hs (hK s hown)

include hnodup hlt hfree hharmless in
theorem FsmInv.fireEvent {ev : ScheduledEvent} (hev : PendingEvent b (b.Own bits) ev) (h : FsmInv b bits allowed st) :
    FsmInv b bits allowed (fireEvent b.inst.mod st ev) := by
  rcases hev with hev | ⟨a, ha, due, rfl⟩
  · exact h.framed (fun _ hs => hs) (frame_fireEvent hev st)
  · have hin : ∀ s ∈ bits, s < st.values.length := fun s hs => h.length ▸ hlt s hs
    rw [fireEvent_of_assign]
    split
    · exact h
    rename_i hlen
    have htame := (tame_sampleWrites hfree hharmless ha (not_not.mp hlen) h.toPatterned).existing hin
    split
    · exact h.queued htame
    · exact h.assigned hnodup hlt htame

include hnodup hlt hfree hharmless in
theorem FsmInv.processDueEvents (tick : UInt64) (h : FsmInv b bits allowed st) :
    FsmInv b bits allowed (processDueEvents b.inst.mod tick st) := by
  have hfold (evs : List ScheduledEvent) (hevs : ∀ ev ∈ evs, PendingEvent b (b.Own bits) ev) (st : ModuleState)
      (h : FsmInv b bits allowed st) : FsmInv b bits allowed (evs.foldl (Verilog.fireEvent b.inst.mod) st) := by
    induction evs generalizing st with
    | nil => exact h
    | cons ev evs ih =>
      rw [forall_mem_cons] at hevs
      exact ih hevs.2 _ (h.fireEvent hnodup hlt hfree hharmless hevs.1)
  have hdue := hfold (st.events.filter fun ev => ev.dueTick ≤ tick)
    (fun ev hev => h.events ev (mem_of_mem_filter hev)) st h
  exact ⟨⟨hdue.length, hdue.consts, hdue.holds⟩, hdue.queue, fun ev hev => h.events ev (mem_of_mem_filter hev)⟩

include hnodup hlt in
theorem FsmInv.applyNba (h : FsmInv b bits allowed st) : FsmInv b bits allowed (applyNba st).1 := by
  have hall := h.assigned hnodup hlt h.queue
  exact ⟨⟨hall.length, hall.consts, hall.holds⟩, .nil, hall.events⟩

end Steps

/-- The steps of an instance: an `always_ff` block runs, the queue is applied, due events
happen, anything else leaves the signals of `K` alone, and a new pass starts. -/
inductive FsmStep (b : InstanceBuilder) (K : Nat → Prop) : ModuleState → ModuleState → Prop where
  | block {ff : AlwaysFf} (h : ff ∈ b.inst.mod.alwaysFfs) (tick : UInt64) (st : ModuleState) :
      FsmStep b K st (execRoots b.inst.mod tick ff.roots st).1
  | nba (st : ModuleState) : FsmStep b K st (applyNba st).1
  | due (tick : UInt64) (st : ModuleState) : FsmStep b K st (processDueEvents b.inst.mod tick st)
  | other {st st' : ModuleState} (h : StateFrame (fun s => ¬ K s) (fun s => ¬ K s) st st') : FsmStep b K st st'
  | pass (st : ModuleState) (prev : List LogicT) : FsmStep b K st { st with prevValues := prev, nbaQueue := [] }

theorem FsmStep.mono {b : InstanceBuilder} {K K' : Nat → Prop} (hK : ∀ s, K' s → K s) (h : FsmStep b K st st') :
    FsmStep b K' st st' := by
  cases h with
  | block h tick => exact .block h tick _
  | nba => exact .nba _
  | due tick => exact .due tick _
  | other h => exact .other (h.mono (fun s hs hs' => hs (hK s hs')) fun s hs hs' => hs (hK s hs'))
  | pass => exact .pass _ _

/-- A state in which a run may start: the constants have their values, nothing is queued, and
what is scheduled leaves the signals of `K` alone or comes from the `always_ff` blocks. -/
structure InstanceBuilder.Ready (b : InstanceBuilder) (K : Nat → Prop) (st : ModuleState) : Prop where
  length : st.values.length = b.inst.mod.signalNames.length
  consts : b.KeepsConsts st
  queue : st.nbaQueue = []
  events : ∀ ev ∈ st.events, PendingEvent b K ev

/-- No `always_ff` block assigns what `eval_const_expr_to_logic` takes for a constant. -/
def InstanceBuilder.ConstsUnassigned : Prop :=
  ∀ a ∈ b.inst.mod.ffAssigns, ∀ s ∈ a.lhs, b.constSignal s = none

theorem InstanceBuilder.nodup_of_candidate {b : InstanceBuilder} (hbits : ∀ e ∈ b.inst.mod.vectors, e.2.bits.Nodup)
    (h : vd ∈ b.candidates) : vd.bits.Nodup := by
  obtain ⟨e, he, rfl⟩ := mem_map.mp (mem_of_mem_filter h)
  exact hbits e he

theorem FsmInv.run {b : InstanceBuilder} (hv : OneHot b vd g) (hnodup : vd.bits.Nodup) (hfree : b.ConstsUnassigned)
    (h : FsmInv b vd.bits g.allowed st) (hrun : Relation.ReflTransGen (FsmStep b (b.Own vd.bits)) st st') :
    FsmInv b vd.bits g.allowed st' := by
  induction hrun with
  | refl => exact h
  | tail _ hstep ih =>
    cases hstep with
    | block hff tick => exact ih.execRoots hnodup hv.lt hfree hv.harmless hff tick
    | nba => exact ih.applyNba hnodup hv.lt
    | due tick => exact ih.processDueEvents hnodup hv.lt hfree hv.harmless tick
    | other hframe => exact ih.framed (fun _ hs => hs) hframe
    | pass => exact ⟨⟨ih.length, ih.consts, ih.holds⟩, .nil, ih.events⟩

theorem holdsPattern_run {b : InstanceBuilder} (hbits : ∀ e ∈ b.inst.mod.vectors, e.2.bits.Nodup)
    (hfree : b.ConstsUnassigned) (hv : (vd, g) ∈ b.reported) (hst : b.Ready (b.Own vd.bits) st)
    (hholds : HoldsPattern st vd.bits g.allowed) (hrun : Relation.ReflTransGen (FsmStep b (b.Own vd.bits)) st st') :
    HoldsPattern st' vd.bits g.allowed := by
  have hone := InstanceBuilder.oneHot_of_reported hv
  have hstart : FsmInv b vd.bits g.allowed st := ⟨⟨hst.length, hst.consts, hholds⟩, hst.queue ▸ .nil, hst.events⟩
  exact (hstart.run hone (InstanceBuilder.nodup_of_candidate hbits hone.mem) hfree hrun).holds

section Passes

variable {b : InstanceBuilder} {K : Nat → Prop} {tick : UInt64}

theorem steps_runAlwaysFfs {ffs : List (AlwaysFf × Nat)} (h : ∀ p ∈ ffs, p.1 ∈ b.inst.mod.alwaysFfs)
    (st : ModuleState) :
    Relation.ReflTransGen (FsmStep b K) st (runAlwaysFfs b.inst.mod tick ffs st).1 := by
  induction ffs generalizing st with
  | nil => exact .refl
  | cons p ffs ih =>
    rw [forall_mem_cons] at h
    unfold runAlwaysFfs
    split
    · exact (Relation.ReflTransGen.single (.block h.1 tick st)).trans (ih h.2 _)
    · exact ih h.2 st

variable {n : InstanceNode}

theorem steps_sequentialStep (hmod : n.mod = b.inst.mod) (hinit : ∀ s ∈ n.mod.initialTargets, ¬ K s)
    (hrnd : ∀ s ∈ n.mod.urandomTargets, ¬ K s) (seq : Bool) :
    Relation.ReflTransGen (FsmStep b K) n.state (sequentialStep tick seq n).1.state := by
  have hclear : FsmStep b K n.state { n.state with nbaQueue := [] } := .pass n.state n.state.prevValues
  have hblocks (st : ModuleState) : FsmStep b K st (runInitialBlocks n.mod tick st) := by
    unfold runInitialBlocks
    split
    · exact .other (StateFrame.refl st)
    · have hstart : StateFrame (fun s => ¬ K s) (fun s => ¬ K s) st { st with initialRan := true, initialBaseTick :=
        tick } :=
        ⟨rfl, rfl, fun _ _ => rfl, ⟨[], by simp⟩, fun _ hev => Or.inl hev⟩
      refine .other (hstart.trans (StateFrame.foldl (fun ib hib st' => ?_) _))
      have hin : ∀ s ∈ Stmt.targets ib.roots, ¬ K s := fun s hs => hinit s (mem_flatMap.mpr ⟨ib, hib, hs⟩)
      exact frame_runInitialBlock hin hin st'
  have hdue (st : ModuleState) : FsmStep b K st (processDueEvents n.mod tick st) := hmod ▸ .due tick st
  have hedge : Relation.ReflTransGen (FsmStep b K) n.state (beforeEdge n.mod tick n.state) :=
    ((Relation.ReflTransGen.single hclear).tail (hblocks _)).tail (hdue _)
  rw [sequentialStep_eq]
  cases seq with
  | false => exact hedge
  | true =>
    have hall : ∀ p ∈ b.inst.mod.alwaysFfs.zipIdx, p.1 ∈ b.inst.mod.alwaysFfs :=
      fun p hp => (mem_zipIdx hp).2.2 ▸ getElem_mem _
    have hbus := hedge.tail (.other (frame_updateUrandom hrnd (beforeEdge n.mod tick n.state)))
    refine hbus.trans ?_
    dsimp only
    rw [if_pos rfl, runSequential, hmod]
    exact steps_runAlwaysFfs hall _

theorem steps_settleRoot {kids : List InstanceState} {token : UInt32} {any : Bool}
    (hcomb : ∀ s ∈ n.mod.combTargets, ¬ K s) (hassign : ∀ s ∈ n.mod.assignTargets, ¬ K s)
    (hdrive : ∀ s ∈ driveTargets kids, ¬ K s) (hnets : ∀ s, n.isDriven s = true → n.mod.isReg s = false → ¬ K s) :
    Relation.ReflTransGen (FsmStep b K) n.state (settleRoot tick token any n kids).1.state := by
  have hkids : NodeFrame (fun s => ¬ K s) (fun s => ¬ K s) n
    (kids.foldl (fun n c => propagateChildToParent c.value n) n) :=
    NodeFrame.foldl fun c hc n' _ => frame_propagateChildToParent fun d hd =>
      hdrive _ (mem_flatMap.mpr ⟨c, hc, mem_map_of_mem hd⟩)
  have hlocal (n' : InstanceNode) (hn : n'.mod = n.mod) :
      NodeFrame (fun s => ¬ K s) (fun s => ¬ K s) n' (runCombLocal tick token any n').1 := by
    have htargets : ∀ ac ∈ n'.mod.alwaysCombs, ∀ s ∈ Stmt.targets ac.roots, ¬ K s :=
      fun ac hac s hs => hcomb s (mem_flatMap.mpr ⟨ac, hn ▸ hac, hs⟩)
    refine (NodeFrame.ofState (frame_runAlwaysCombs ?_ ?_ n'.state)).trans (frame_runAssigns fun a ha => ?_)
    · exact fun ac hac s hs => htargets ac hac s (Stmt.targets_of_immediate hs)
    · exact fun ac hac s hs => htargets ac hac s (mem_targets_of_delayed hs)
    · exact hassign _ (mem_map_of_mem (hn ▸ ha))
  have hcombs := hkids.trans (hlocal _ hkids.static.mod)
  have hsettled := hcombs.trans (frame_applyNetDrives fun s hs hreg =>
    hnets s (hcombs.static.isDriven s ▸ hs) (hcombs.static.mod ▸ hreg))
  exact (Relation.ReflTransGen.single (.other hsettled.state)).tail (.nba _)

end Passes

theorem map_of_mapM {f : Nat → Option Nat} {g : Nat → Bool} {h : Nat → Bool} {xs ys : List Nat}
    (hys : xs.mapM f = some ys) (heq : ∀ x ∈ xs, ∀ y, f x = some y → h y = g x) : ys.map h = xs.map g := by
  induction xs generalizing ys with
  | nil =>
    cases hys
    rfl
  | cons x xs ih =>
    rw [mapM_cons, bind_eq_bind, bind_eq_some_iff] at hys
    obtain ⟨y, hy, hrest⟩ := hys
    obtain ⟨zs, hzs, hcons⟩ := bind_eq_some_iff.mp hrest
    cases hcons
    rw [forall_mem_cons] at heq
    rw [map_cons, map_cons, heq.1 y hy, ih hzs heq.2]

theorem sub_of_values {nodes leaves pos : List Nat} (hpos : (nodes.mapM fun n => leaves.idxOf? n) = some pos)
    (ρ : Nat → Bool) : pos.map (value (leaves.map ρ)).testBit = nodes.map ρ := by
  refine map_of_mapM hpos fun n _ i hi => ?_
  obtain ⟨hlt, hn, -⟩ := idxOf?_eq_some_iff.mp hi
  rw [testBit_value, getD_eq_getElem _ _ (by rwa [length_map]), getElem_map, hn]

variable {ρ : Nat → Bool}

theorem not_dcHit_of_patterns {groups : List DcGroup}
    (h : ∀ g ∈ groups, value (g.nodes.map ρ) ∈ g.allowed) (leaves : List Nat) :
    dcHit (buildDcGroupViews groups leaves) (value (leaves.map ρ)) = false := by
  rw [dcHit, any_eq_false]
  intro view hview
  obtain ⟨g, hg, hmake⟩ := mem_filterMap.mp hview
  split_ifs at hmake
  obtain ⟨pos, hpos, rfl⟩ := map_eq_some_iff.mp hmake
  have hsub : DcGroupView.sub { leafPos := pos, allowed :=
      (List.range (2 ^ g.nodes.length)).map fun v => decide (v ∈ g.allowed) }
      (value (leaves.map ρ)) = value (g.nodes.map ρ) := by
    rw [DcGroupView.sub, sub_of_values hpos]
  have hlt := value_lt (g.nodes.map ρ)
  rw [length_map] at hlt
  rw [hsub, getElem?_map, getElem?_range hlt, map_some, decide_eq_true (h g hg)]
  decide

theorem pattern_of_nodes {b : InstanceBuilder} (hv : OneHot b vd g) (h : HoldsPattern st vd.bits g.allowed)
    (hρ : ∀ s ∈ vd.bits, ∀ n, b.sigNodes.getD s none = some n → st.get s = ofBool (ρ n)) :
    value (g.nodes.map ρ) ∈ g.allowed := by
  obtain ⟨bs, hbs, hval⟩ := h
  have hbits : g.nodes.map ρ = vd.bits.map fun s => decide (st.get s = .H) := by
    refine map_of_mapM hv.nodes fun s hs n hn => ?_
    rw [hρ s hs n hn]
    cases ρ n <;> rfl
  have hback : (vd.bits.map fun s => decide (st.get s = .H)) = bs := by
    have hmap : (vd.bits.map st.get).map (fun v => decide (v = .H)) = (bs.map ofBool).map fun v => decide (v = .H) := by
      rw [hbs]
    rw [List.map_map, List.map_map] at hmap
    refine hmap.trans ((map_congr_left fun c _ => ?_).trans (map_id bs))
    cases c <;> rfl
  rw [hbits, hback]
  exact hval

def InstanceBuilder.OwnAll (s : Nat) : Prop := ∃ p ∈ b.reported, b.Own p.1.bits s

theorem InstanceBuilder.Ready.mono {b : InstanceBuilder} {K K' : Nat → Prop} (hK : ∀ s, K' s → K s) (h : b.Ready K st) :
    b.Ready K' st :=
  ⟨h.length, h.consts, h.queue, fun ev hev => (h.events ev hev).imp_left fun hs s ht hs' => hs s ht (hK s hs')⟩

/-- Where the `always_ff` blocks do not assign constants: a reported vector that holds one of
its patterns keeps doing so in every run, and then no minterm that `apply_dc_constraints` adds
is ever the minterm of the values of the nodes. -/
theorem oneHot_kept_on_runs {b : InstanceBuilder} (hbits : ∀ e ∈ b.inst.mod.vectors, e.2.bits.Nodup)
    (hfree : b.ConstsUnassigned) :
    (∀ (vd : VectorDesc) (g : DcGroup), (vd, g) ∈ b.reported → ∀ st st' : ModuleState, b.Ready (b.Own vd.bits) st →
      HoldsPattern st vd.bits g.allowed → Relation.ReflTransGen (FsmStep b (b.Own vd.bits)) st st' →
        HoldsPattern st' vd.bits g.allowed) ∧
    ∀ st st' : ModuleState, b.Ready b.OwnAll st → (∀ p ∈ b.reported, HoldsPattern st p.1.bits p.2.allowed) →
      Relation.ReflTransGen (FsmStep b b.OwnAll) st st' → ∀ ρ : Nat → Bool,
        (∀ g ∈ b.groups, value (g.nodes.map ρ) ∈ g.allowed) →
        (∀ p ∈ b.reported, ∀ s ∈ p.1.bits, ∀ n, b.sigNodes.getD s none = some n → st'.get s = ofBool (ρ n)) →
          ∀ leaves dcList onList : List Nat,
            value (leaves.map ρ) ∈
                applyDcConstraints dcList onList leaves.length (buildDcGroupViews b.inferOneHotFsmGroups leaves) →
              value (leaves.map ρ) ∈ dcList := by
  refine ⟨fun vd g hv st st' => holdsPattern_run hbits hfree hv, ?_⟩
  intro st st' hst hholds hrun ρ hgroups hρ leaves dcList onList hmem
  have hpatterns : ∀ g ∈ b.inferOneHotFsmGroups, value (g.nodes.map ρ) ∈ g.allowed := by
    intro g hg
    rcases InstanceBuilder.mem_inferOneHotFsmGroups hg with hg | ⟨vd, hv⟩
    · exact hgroups g hg
    · have hK : ∀ s, b.Own vd.bits s → b.OwnAll s := fun s hs => ⟨(vd, g), hv, hs⟩
      have hrun' := Relation.ReflTransGen.mono (fun _ _ h => FsmStep.mono hK h) _ _ hrun
      have hend := holdsPattern_run hbits hfree hv (hst.mono hK) (hholds _ hv) hrun'
      exact pattern_of_nodes (InstanceBuilder.oneHot_of_reported hv) hend (hρ _ hv)
  unfold applyDcConstraints at hmem
  split_ifs at hmem
  · exact hmem
  · rw [List.mem_filter, not_dcHit_of_patterns hpatterns] at hmem
    simpa using hmem.2

/-! ## A parameter that a block assigns -/

/-- `s = {~K[0], K[0]}`. -/
def assignStateVector : Stmt :=
  .assign { nonblocking := false, isVector := true, lhs := [1, 2], rhs := [34, 33], scalar := nofun }

/-- `K[0] = 1'b0`. -/
def clearParameter : Stmt := .assign { nonblocking := false, lhs := [34], rhs := [0] }

/-- `always @(posedge clk)` with the first assignment or without it. -/
def parameterBlock (clears : Bool) : AlwaysFf where
  events := [⟨.posedge, 0⟩]
  roots := if clears then [.block [clearParameter, assignStateVector]] else [.block [assignStateVector]]

/-- What the compiler makes of `module top(input clk, output reg [1:0] s); parameter K = 1;` with
this block: the clock is 0, `s` has the bits 1 and 2 and `K` those from 3 on. An expression that
names `K` makes a node for each of its bits. -/
def parameterModule (clears : Bool) : CompiledModule where
  ports := [⟨"clk", .input, 0⟩, ⟨"s[1]", .output, 1⟩, ⟨"s[0]", .output, 2⟩]
  vectors := [("K", { msb := 31, bits := (List.range 32).map (· + 3) }),
    ("s", { msb := 1, isReg := true, bits := [1, 2] })]
  signalNames := ["clk", "s[1]", "s[0]"] ++ (List.range 32).map fun i => "K[" ++ toString (31 - i) ++ "]"
  signalIsReg := [false, true, true] ++ List.replicate 31 false ++ [clears]
  signalIsConst := List.replicate 3 false ++ List.replicate 32 true
  signalConstValue := List.replicate 3 .X ++ List.replicate 31 .L ++ [.H]
  exprNodes := [.literal .L, .literal .H] ++ (List.range 32).map (fun i => .signal (i + 3)) ++ [.unaryNot 33]
  alwaysFfs := [parameterBlock clears]

/-- The module right after a rising edge, with `s` at the pattern that `K` gives. The bits of `K`
are the two constant nodes, and where the block assigns one of them its flip-flop is a second
driver: synthesis goes on with `allow_multi_driver` only. -/
def parameterBuilder (clears : Bool) : InstanceBuilder where
  inst := {
    mod := parameterModule clears
    state := {
      values := [.H, .L, .H] ++ List.replicate 31 .L ++ [.H]
      prevValues := [.L, .L, .H] ++ List.replicate 31 .L ++ [.H] } }
  sigNodes := [some 0, some 1, some 2] ++ List.replicate 31 (some 3) ++ [some 4]

def stateGroup : VectorDesc × DcGroup :=
  ({ msb := 1, isReg := true, bits := [1, 2] }, { nodes := [1, 2], allowed := [2] })

/-- Without an assignment to the parameter, `s` keeps its pattern. -/
theorem oneHot_kept_on_runs_parameter :
    HoldsPattern (execRoots (parameterModule false) 0 (parameterBlock false).roots
      (parameterBuilder false).inst.state).1
      [1, 2] [2] := by
  have hbits : ∀ e ∈ (parameterBuilder false).inst.mod.vectors, e.2.bits.Nodup := by decide +kernel
  have hfree : (parameterBuilder false).ConstsUnassigned := by
    unfold InstanceBuilder.ConstsUnassigned
    decide +kernel
  have hreported : stateGroup ∈ (parameterBuilder false).reported := by decide +kernel
  have hready : (parameterBuilder false).Ready ((parameterBuilder false).Own [1, 2])
    (parameterBuilder false).inst.state :=
    ⟨by decide +kernel, InstanceBuilder.keepsConsts_self _, rfl, fun ev hev => by cases hev⟩
  have hholds : HoldsPattern (parameterBuilder false).inst.state [1, 2] [2] :=
    ⟨[false, true], by decide +kernel, by decide +kernel⟩
  have hblock : parameterBlock false ∈ (parameterBuilder false).inst.mod.alwaysFfs := List.mem_cons_self
  exact (oneHot_kept_on_runs hbits hfree).1 _ _ hreported _ _ hready hholds (.single (.block hblock 0 _))

/-- The group of `s` has the only pattern 2. A run of the block that assigns `K[0]` first leaves
`s` at the pattern 1, a minterm that `apply_dc_constraints` adds. -/
theorem clearParameter_leaves_patterns :
    stateGroup ∈ (parameterBuilder true).reported ∧
      [1, 2].map (parameterBuilder true).inst.state.get = [.ofBool false, .ofBool true] ∧
      value [false, true] ∈ stateGroup.2.allowed ∧
      [1, 2].map (runSequential (parameterModule true) 0 (parameterBuilder true).inst.state).1.get =
        [.ofBool true, .ofBool false] ∧
      value [true, false] ∉ stateGroup.2.allowed ∧
      value [true, false] ∈
        applyDcConstraints [] [] 2 (buildDcGroupViews (parameterBuilder true).inferOneHotFsmGroups [1, 2]) := by
  decide +kernel

end PhyEngine.Verilog
