import PhyEngine.Synth.StmtSim

/-!
# Synthesised blocks agree with the simulator

The assignments and merges of `synth_stmt_ff` and `synth_stmt_comb` follow the runs of a block. A
clocked block takes the last write in program order, the simulator does non-blocking writes last:
the same without a blocking write after a non-blocking one.
-/

namespace PhyEngine.Verilog

open LogicT ModuleState List GateNet

theorem ModuleState.written_filter {p : Nat × LogicT → Bool} {ws : List (Nat × LogicT)} {s : Nat}
    (h : ∀ w ∈ ws, w.1 = s → p w = true) (v : LogicT) : written (ws.filter p) s v = written ws s v := by
  induction ws generalizing v with
  | nil => rfl
  | cons w ws ih =>
    have hrest := ih fun w' hw' => h w' (mem_cons_of_mem w hw')
    cases hp : p w with
    | true => rw [filter_cons_of_pos hp, written_cons, written_cons, hrest]
    | false =>
      have hne : w.1 ≠ s := by
        intro hs
        rw [h w mem_cons_self hs] at hp
        cases hp
      rw [filter_cons_of_neg (by simp [hp]), written_cons, if_neg hne, hrest]

theorem written_high {ws : List (Nat × LogicT)} {s : Nat} (hs : s ∈ ws.map Prod.fst) {v w : LogicT}
    (h : ∀ x ∈ ws, x.2 = v) : written ws s w = v := by
  induction ws generalizing w with
  | nil => cases hs
  | cons x ws ih =>
    have hrest := fun x' (hx' : x' ∈ ws) => h x' (mem_cons_of_mem x hx')
    rw [written_cons]
    by_cases hmem : s ∈ ws.map Prod.fst
    · exact ih hmem hrest
    · have hx : x.1 = s := by
        rcases mem_cons.mp hs with hx | hx
        · exact hx.symm
        · exact absurd hx hmem
      rw [written_of_not_mem hmem, if_pos hx, h x mem_cons_self]

theorem length_setAll (xs : List Nat) (ws : List (Nat × Nat)) : (setAll xs ws).length = xs.length := by
  induction ws generalizing xs with
  | nil => rfl
  | cons w ws ih => exact (ih (xs.set w.1 w.2)).trans length_set

variable {ws : List (Nat × Nat)} {xs : List Nat}

theorem mem_setAll {x : Nat} (h : x ∈ setAll xs ws) :
    x ∈ xs ∨ ∃ w ∈ ws, w.2 = x := by
  induction ws generalizing xs with
  | nil => exact .inl h
  | cons w ws ih =>
    have hrest : x ∈ setAll (xs.set w.1 w.2) ws := h
    rcases ih hrest with hx | ⟨w', hw', rfl⟩
    · rcases mem_or_eq_of_mem_set hx with hx | rfl
      · exact .inl hx
      · exact .inr ⟨w, mem_cons_self, rfl⟩
    · exact .inr ⟨w', mem_cons_of_mem w hw', rfl⟩

theorem getElem?_setAll {s : Nat} (h : ∀ w ∈ ws, w.1 = s → xs.length ≤ s) : (setAll xs ws)[s]? = xs[s]? := by
  induction ws generalizing xs with
  | nil => rfl
  | cons w ws ih =>
    have hrest : (setAll (xs.set w.1 w.2) ws)[s]? = (xs.set w.1 w.2)[s]? := by
      refine ih fun w' hw' hs => ?_
      rw [length_set]
      exact h w' (mem_cons_of_mem w hw') hs
    refine hrest.trans ?_
    by_cases hs : w.1 = s
    · have hlen := h w mem_cons_self hs
      rw [getElem?_eq_none hlen, getElem?_eq_none (by rw [length_set]; exact hlen)]
    · rw [getElem?_set_ne hs]

theorem getD_valuesOf_setAll (ρ : Nat → LogicT) (g : GateNet) (xs : List Nat) (ws : List (Nat × Nat)) {s : Nat}
    (hs : s < xs.length) : (g.valuesOf ρ (setAll xs ws)).getD s .X =
      written (ws.map fun w => (w.1, g.value ρ w.2)) s ((g.valuesOf ρ xs).getD s .X) := by
  induction ws generalizing xs with
  | nil => rfl
  | cons w ws ih =>
    have hrest := ih (xs.set w.1 w.2) (by rw [length_set]; exact hs)
    refine hrest.trans ?_
    rw [map_cons, written_cons]
    refine congrArg _ ?_
    rw [GateNet.valuesOf, GateNet.valuesOf, map_set, getD_eq_getElem?_getD, getElem?_set]
    by_cases hw : w.1 = s
    · rw [if_pos hw, if_pos hw, if_pos (by rw [length_map, hw]; exact hs)]
      rfl
    · rw [if_neg hw, if_neg hw, ← getD_eq_getElem?_getD]

theorem eq_of_getD {vs ws : List LogicT} (hlen : vs.length = ws.length)
    (h : ∀ s < ws.length, vs.getD s .X = ws.getD s .X) : vs = ws := by
  refine ext_getElem hlen fun s hs hs' => ?_
  have heq := h s hs'
  rwa [getD_eq_getElem _ _ hs, getD_eq_getElem _ _ hs'] at heq

section

variable {m : CompiledModule} {opt : StmtOptions} {ρ : Nat → LogicT} {g : GateNet}

/-- A merge of vectors: the entries of the chosen branch; where both branches have the node
of the base, it stays. -/
theorem gives_muxAll (hρ : ∀ i, ρ i ≠ .Z) {x : Nat} {c : Bool} (hx : g.Has ρ x (ofBool c)) (chosen : Nat → Bool)
    {base e t : List Nat} (hbase : Nodes m opt ρ g base) (he : Nodes m opt ρ g e) (ht : Nodes m opt ρ g t)
    (hsame : ∀ s, chosen s = false → e[s]? = base[s]? ∧ t[s]? = base[s]?) :
    Gives g (muxAll x chosen base e t) fun ns g' => Nodes m opt ρ g' ns ∧
      g'.valuesOf ρ ns = g.valuesOf ρ (if c then t else e) ∧
      ∀ s : Nat, e[s]? = base[s]? → t[s]? = base[s]? → ns[s]? = base[s]? := by
  have hle := he.length.trans hbase.length.symm
  have hlt := ht.length.trans hbase.length.symm
  -- an element of the list is an entry of the three vectors with its index
  have hmem : ∀ y ∈ (base.zip (e.zip t)).zipIdx,
      base[y.2]? = some y.1.1 ∧ e[y.2]? = some y.1.2.1 ∧ t[y.2]? = some y.1.2.2 := by
    intro y hy
    have hy := mem_zipIdx_iff_getElem?.mp hy
    obtain ⟨h₁, h₂⟩ := getElem?_zip_eq_some.mp hy
    obtain ⟨h₂, h₃⟩ := getElem?_zip_eq_some.mp h₂
    exact ⟨h₁, h₂, h₃⟩
  have hmux : Gives g (muxAll x chosen base e t) fun ns g' => (∀ n ∈ ns, n < g'.nodes.length) ∧
      g'.valuesOf ρ ns = ((base.zip (e.zip t)).zipIdx.map fun y => g.value ρ (if c then y.1.2.2 else y.1.2.1)) ∧
      List.Forall₂ (fun y n => y.1.2.1 = y.1.1 → y.1.2.2 = y.1.1 → n = y.1.1) (base.zip (e.zip t)).zipIdx ns := by
    refine gives_mapM _ fun y hy g' hg' => ?_
    obtain ⟨hb, he', ht'⟩ := hmem y hy
    have hvalue {xs : List Nat} (hxs : Nodes m opt ρ g xs) {k : Nat} (hk : k ∈ xs) : g'.Has ρ k (g.value ρ k) :=
      GateNet.Has.mono ⟨hxs.lt k hk, rfl⟩ hg'
    have he₀ := hvalue he (List.mem_of_getElem? he')
    have ht₀ := hvalue ht (List.mem_of_getElem? ht')
    have hval : (if c then g.value ρ y.1.2.2 else g.value ρ y.1.2.1) = g.value ρ (if c then y.1.2.2 else y.1.2.1) := by
      cases c <;> rfl
    cases hchosen : chosen y.2 with
    | false =>
      obtain ⟨hse, hst⟩ := hsame y.2 hchosen
      rw [he', hb, Option.some.injEq] at hse
      rw [ht', hb, Option.some.injEq] at hst
      rw [if_neg Bool.false_ne_true]
      refine gives_pure ⟨?_, fun _ _ => rfl⟩
      rw [hst, hse, ite_self, ← hse]
      exact he₀
    | true =>
      rw [if_pos rfl]
      by_cases hd : y.1.2.1 = y.1.2.2
      · rw [mux2, if_pos hd]
        refine gives_pure ⟨?_, fun h _ => h⟩
        rw [← hd, ite_self]
        exact he₀
      · have hz : (if c then g.value ρ y.1.2.2 else g.value ρ y.1.2.1) ≠ .Z := by
          cases c
          · exact (he.fine _ (List.mem_of_getElem? he')).1
          · exact (ht.fine _ (List.mem_of_getElem? ht')).1
        refine (gives_mux2 hρ (hx.mono hg') he₀ ht₀ hz).imp fun n g'' _ hn => ⟨?_, fun h h' => ?_⟩
        · rw [← hval]
          exact hn
        · exact absurd (h.trans h'.symm) hd
  refine hmux.imp fun ns g' hg' hns => ?_
  have hvalues : g'.valuesOf ρ ns = g.valuesOf ρ (if c then t else e) := by
    rw [hns.2.1]
    refine ext_getElem (by cases c <;> simp [GateNet.valuesOf, hle, hlt]) fun s hs hs' => ?_
    cases c <;> simp [GateNet.valuesOf]
  have hlen : ns.length = base.length := by
    rw [← hns.2.2.length_eq]
    simp [hle, hlt]
  refine ⟨⟨hlen.trans hbase.length, hns.1, fun n hn => ?_⟩, hvalues, fun s hse hst => ?_⟩
  · have hmem' : g'.value ρ n ∈ g'.valuesOf ρ ns := mem_map_of_mem hn
    rw [hvalues] at hmem'
    obtain ⟨k, hk, heq⟩ := mem_map.mp hmem'
    rw [← heq]
    cases c
    · exact he.fine k hk
    · exact ht.fine k hk
  · by_cases hs : s < base.length
    · have hys : s < (base.zip (e.zip t)).zipIdx.length := by
        simp [hle, hlt, hs]
      have hns' : s < ns.length := by omega
      have hrel := hns.2.2.get hys hns'
      simp only [get_eq_getElem, getElem_zipIdx, getElem_zip] at hrel
      rw [getElem?_eq_getElem (by omega), getElem?_eq_getElem hs, Option.some.injEq] at hse hst
      rw [getElem?_eq_getElem hns', getElem?_eq_getElem hs, hrel hse hst]
    · rw [getElem?_eq_none (by omega), getElem?_eq_none (by omega)]

/-- The second vector after the writes of a log: `f` says what a write leaves there. -/
def auxWritten (f : Write → Nat × LogicT) (init : Nat → LogicT) (log : List Write) (s : Nat) : LogicT :=
  written (log.map f) s (init s)

theorem auxWritten_append (f : Write → Nat × LogicT) (init : Nat → LogicT) (log log' : List Write) (s : Nat) :
    auxWritten f init (log ++ log') s = written (log'.map f) s (auxWritten f init log s) := by
  rw [auxWritten, map_append, written_append]
  rfl

variable (m opt) in
/-- An assignment without delay of values that pass multiplexers, to signals of the block. -/
def assignOk (targets : List Bool) (a : Assign) : Bool :=
  a.delayTicks = 0 && a.rhs.all (rhsOk m opt) &&
    a.lhs.all fun s => s < m.signalNames.length → targets.getD s false = true

structure RhsHas (m : CompiledModule) (opt : StmtOptions) (ρ : Nat → LogicT) (a : Assign) (values : List LogicT)
    (g : GateNet) (ns : List Nat) : Prop where
  lt : ∀ n ∈ ns, n < g.nodes.length
  fine : ∀ n ∈ ns, Fine opt (g.value ρ n)
  values : g.valuesOf ρ ns = a.rhs.map fun root => evalExpr m root values

variable {ns : List Nat} {s : Nat}

theorem RhsHas.mono {a : Assign} {values : List LogicT} {g' : GateNet} (h : RhsHas m opt ρ a values g ns)
    (hg : g.nodes <+: g'.nodes) : RhsHas m opt ρ a values g' ns := by
  refine ⟨fun n hn => Nat.lt_of_lt_of_le (h.lt n hn) hg.length_le, fun n hn => ?_, ?_⟩
  · rw [value_mono (h.lt n hn) hg]
    exact h.fine n hn
  · rw [valuesOf_mono h.lt hg]
    exact h.values

theorem gives_rhsNodes (hρ : ∀ i, ρ i ≠ .Z) (h : Nodes m opt ρ g xs) {a : Assign} (hdelay : a.delayTicks = 0)
    (hrhs : ∀ r ∈ a.rhs, rhsOk m opt r = true) :
    Gives g (rhsNodes m opt a xs) fun ns g' => RhsHas m opt ρ a (g.valuesOf ρ xs) g' ns := by
  have hmap : Gives g (rhsNodes m opt a xs) fun ns g' => (∀ n ∈ ns, n < g'.nodes.length) ∧
      g'.valuesOf ρ ns = (a.rhs.map fun root => evalExpr m root (g.valuesOf ρ xs)) ∧
      List.Forall₂ (fun _ _ => True) a.rhs ns := by
    refine gives_mapM a.rhs fun r hr g' hg' => ?_
    have hcond : condOk m opt r = true := ((Bool.and_eq_true _ _).mp (hrhs r hr)).1
    have hexpr := (h.mono hg').exprInEnv hρ hcond
    rw [valuesOf_mono h.lt hg'] at hexpr
    refine hexpr.bind fun n g'' _ hn => ?_
    rw [tickDelay, if_pos hdelay]
    exact gives_pure ⟨hn, trivial⟩
  refine hmap.imp fun ns g' _ hns => ⟨hns.1, fun n hn => ?_, hns.2.1⟩
  have hmem : g'.value ρ n ∈ g'.valuesOf ρ ns := mem_map_of_mem hn
  rw [hns.2.1] at hmem
  obtain ⟨r, hr, heq⟩ := mem_map.mp hmem
  rw [← heq]
  exact h.fine_evalExpr (hrhs r hr)

theorem Nodes.setAll (h : Nodes m opt ρ g xs) (hlt : ∀ w ∈ ws, w.2 < g.nodes.length)
    (hfine : ∀ w ∈ ws, Fine opt (g.value ρ w.2)) :
    Nodes m opt ρ g (setAll xs ws) := by
  refine ⟨(length_setAll xs ws).trans h.length, fun x hx => ?_, fun x hx => ?_⟩
  · rcases mem_setAll hx with hx | ⟨w, hw, rfl⟩
    · exact h.lt x hx
    · exact hlt w hw
  · rcases mem_setAll hx with hx | ⟨w, hw, rfl⟩
    · exact h.fine x hx
    · exact hfine w hw

theorem RhsHas.map_zip {a : Assign} {st : ModuleState} (h : RhsHas m opt ρ a st.values g ns) :
    ((a.lhs.zip ns).map fun w => (w.1, g.value ρ w.2)) = sampleWrites m st a.lhs a.rhs := by
  rw [sampleWrites, ← h.values, GateNet.valuesOf, zip_map_right]
  rfl

theorem written_existing (st : ModuleState) (ws : List (Nat × LogicT)) (hs : s < st.values.length) (v : LogicT) :
    written (existing st ws) s v = written ws s v := by
  refine written_filter (fun w _ hw => ?_) v
  rw [hw]
  exact decide_eq_true hs

theorem Nodes.valuesOf_setAll (h : Nodes m opt ρ g xs) {vs : List LogicT} (hlen : vs.length = m.signalNames.length)
    (hvs : ∀ s < m.signalNames.length, vs.getD s .X =
      written (ws.map fun w => (w.1, g.value ρ w.2)) s ((g.valuesOf ρ xs).getD s .X))
    :
    g.valuesOf ρ (Verilog.setAll xs ws) = vs := by
  refine eq_of_getD ?_ fun s hs => ?_
  · rw [GateNet.valuesOf, length_map, length_setAll, h.length, hlen]
  · rw [hlen] at hs
    rw [getD_valuesOf_setAll ρ g xs ws (by rw [h.length]; exact hs), hvs s hs]

section

variable {targets : List Bool} {f : Write → Nat × LogicT} {init : Nat → LogicT} {a : Assign} {limit : Nat}
variable {env : SynthEnv} {st st' : ModuleState} {log log' : List Write}

theorem Follows.length (h : Follows m ρ (auxWritten f init) g env st log) (henv : EnvOk m opt ρ g env) :
    st.values.length = m.signalNames.length := by
  rw [← h.cur, GateNet.valuesOf, length_map, henv.cur.length]

theorem skip_of_logged (h : a.logged m st = []) (hrun : Runs m limit (.one (.assign a)) st log st') :
    Behaviour.skip st log st' := by
  cases hrun
  rw [h]
  exact ⟨rfl, ModuleState.perform_nil st⟩

theorem RhsHas.valuesOf_cur (h : RhsHas m opt ρ a st.values g ns) (henv : Nodes m opt ρ g env.cur)
    (hcur : g.valuesOf ρ env.cur = st.values) (hlen : ¬a.lhs.length ≠ a.rhs.length) (hnb : a.nonblocking = false)
    (hws : ∀ s < m.signalNames.length, ∀ v, written (ws.map fun w => (w.1, g.value ρ w.2)) s v =
      written ((a.lhs.zip ns).map fun w => (w.1, g.value ρ w.2)) s v)
    :
    g.valuesOf ρ (Verilog.setAll env.cur ws) = (st.perform (a.logged m st)).values := by
  have hst : st.values.length = m.signalNames.length := by
    rw [← hcur, GateNet.valuesOf, length_map, henv.length]
  refine henv.valuesOf_setAll ((ModuleState.length_perform st _).trans hst) fun s hs => ?_
  have hs' : s < st.values.length := by omega
  rw [hws s hs, h.map_zip, hcur]
  have hget := ModuleState.get_perform st (a.logged m st) hs'
  rw [Assign.entries_logged hlen, if_pos hnb, written_existing st _ hs'] at hget
  exact hget

theorem Follows.valuesOf_aux {g' : GateNet} (h : Follows m ρ (auxWritten f init) g env st log)
    (henv : EnvOk m opt ρ g env) (hg : g.nodes <+: g'.nodes)
    (hws : ∀ s < m.signalNames.length, ∀ v, written (ws.map fun w => (w.1, g'.value ρ w.2)) s v =
      written (log'.map f) s v) :
    g'.valuesOf ρ (Verilog.setAll env.aux ws) =
      (List.range m.signalNames.length).map (auxWritten f init (log ++ log')) := by
  refine (henv.mono hg).aux.valuesOf_setAll (by simp) fun s hs => ?_
  rw [valuesOf_mono henv.aux.lt hg, h.aux, hws s hs]
  simp [getD_eq_getElem?_getD, getElem?_map, getElem?_range hs, auxWritten_append]

theorem getElem?_setAll_of_target (hxs : xs.length = m.signalNames.length)
    (htargets : ∀ s ∈ a.lhs, s < m.signalNames.length → targets.getD s false = true) (hws : ∀ w ∈ ws, w.1 ∈ a.lhs)
    (hs : targets.getD s false = false) :
    (Verilog.setAll xs ws)[s]? = xs[s]? := by
  refine getElem?_setAll fun w hw hws' => ?_
  by_contra hlt
  have htrue := htargets s (hws' ▸ hws w hw) (by omega)
  rw [hs] at htrue
  cases htrue

theorem written_target (htargets : ∀ s ∈ a.lhs, s < m.signalNames.length → targets.getD s false = true)
    {ws : List (Nat × LogicT)} (hws : ∀ w ∈ ws, w.1 ∈ a.lhs) (hs : s < m.signalNames.length) (v : LogicT) :
    written (ws.filter fun w => targets.getD w.1 false) s v = written ws s v := by
  refine written_filter (fun w hw hws' => ?_) v
  exact htargets w.1 (hws w hw) (hws' ▸ hs)

theorem written_nodes (htargets : ∀ s ∈ a.lhs, s < m.signalNames.length → targets.getD s false = true)
    {f : Nat → LogicT}
    {ns : List Nat} (hs : s < m.signalNames.length) (v : LogicT) :
    written (((a.lhs.zip ns).filter fun w => targets.getD w.1 false).map fun w => (w.1, f w.2)) s v =
      written ((a.lhs.zip ns).map fun w => (w.1, f w.2)) s v := by
  have hcomm : ((a.lhs.zip ns).filter fun w => targets.getD w.1 false).map (fun w => (w.1, f w.2)) =
      ((a.lhs.zip ns).map fun w => (w.1, f w.2)).filter fun w => targets.getD w.1 false := by
    rw [filter_map]
    rfl
  rw [hcomm]
  refine written_target htargets (fun w hw => ?_) hs v
  obtain ⟨w', hw', rfl⟩ := mem_map.mp hw
  exact (of_mem_zip hw').1

theorem sim_assignFf (hρ : ∀ i, ρ i ≠ .Z) (hok : assignOk m opt targets a = true) :
    Sim m opt ρ targets (auxWritten Write.entry init) (Runs m limit (.one (.assign a)))
      (assignFf m opt targets a) := by
  simp only [assignOk, Bool.and_eq_true, decide_eq_true_eq, all_eq_true] at hok
  obtain ⟨⟨hdelay, hrhs⟩, htargets⟩ := hok
  replace htargets : ∀ s ∈ a.lhs, s < m.signalNames.length → targets.getD s false = true := by simpa using htargets
  intro g env henv
  unfold assignFf
  by_cases hout : a.isVector = false ∧ env.aux.length ≤ a.lhs.headD 0
  · rw [if_pos hout]
    refine gives_pure ((Reaches.refl henv).imp fun st _ log st' hf hrun => ?_)
    refine skip_of_logged (Assign.logged_of_scalar hout.1 ?_) hrun
    rw [hf.length henv, ← henv.aux.length]
    exact hout.2
  rw [if_neg hout]
  by_cases hlen : a.lhs.length ≠ a.rhs.length ∨ a.lhs = []
  · rw [if_pos hlen]
    refine gives_pure ((Reaches.refl henv).imp fun st _ log st' _ hrun => ?_)
    exact skip_of_logged (Assign.logged_of_length hlen) hrun
  rw [if_neg hlen]
  have hlen := (not_or.mp hlen).1
  refine (gives_rhsNodes hρ henv.cur hdelay hrhs).bind fun ns g₁ hg₁ hns => gives_pure ?_
  have henv₁ := henv.mono hg₁
  have hzip (w : Nat × Nat) (hw : w ∈ a.lhs.zip ns) : w.1 ∈ a.lhs ∧ w.2 ∈ ns := of_mem_zip hw
  have hfilter (w : Nat × Nat) (hw : w ∈ (a.lhs.zip ns).filter fun w => targets.getD w.1 false) :
      w.1 ∈ a.lhs ∧ w.2 ∈ ns := hzip w (mem_of_mem_filter hw)
  refine ⟨⟨?_, ?_⟩, ⟨fun s hs => ?_, fun s hs => ?_⟩, ?_⟩
  · dsimp only
    split_ifs
    · exact henv₁.cur
    · exact henv₁.cur.setAll (fun w hw => hns.lt _ (hzip w hw).2) fun w hw => hns.fine _ (hzip w hw).2
  · exact henv₁.aux.setAll (fun w hw => hns.lt _ (hfilter w hw).2) fun w hw => hns.fine _ (hfilter w hw).2
  · dsimp only
    split_ifs
    · rfl
    · exact getElem?_setAll_of_target henv.cur.length htargets (fun w hw => (hzip w hw).1) hs
  · exact getElem?_setAll_of_target henv.aux.length htargets (fun w hw => (hfilter w hw).1) hs
  · intro st log log' st' hf hrun
    cases hrun
    rw [hf.cur] at hns
    have hst := hf.length henv
    refine ⟨?_, hf.valuesOf_aux henv hg₁ fun s hs v => ?_⟩
    · dsimp only
      split_ifs with hnb
      · rw [valuesOf_mono henv.cur.lt hg₁, hf.cur]
        simp [ModuleState.perform, Assign.entries_logged hlen, hnb, ModuleState.assignAll]
      · refine hns.valuesOf_cur henv₁.cur ?_ hlen (by simpa using hnb) fun _ _ _ => rfl
        rw [valuesOf_mono henv.cur.lt hg₁, hf.cur]
    · have hmap : (a.logged m st).map Write.entry = existing st (sampleWrites m st a.lhs a.rhs) := by
        rw [Assign.logged_eq hlen, List.map_map]
        exact map_id _
      rw [hmap, written_existing st _ (by omega), ← hns.map_zip]
      exact written_nodes htargets hs v

theorem sim_assignComb (hρ : ∀ i, ρ i ≠ .Z) (hok : assignOk m opt targets a = true) (hnb : a.nonblocking = false) :
    Sim m opt ρ targets (auxWritten (fun w => (w.signal, .H)) init) (Runs m limit (.one (.assign a)))
      (assignComb m opt targets a) := by
  simp only [assignOk, Bool.and_eq_true, decide_eq_true_eq, all_eq_true] at hok
  obtain ⟨⟨hdelay, hrhs⟩, htargets⟩ := hok
  replace htargets : ∀ s ∈ a.lhs, s < m.signalNames.length → targets.getD s false = true := by simpa using htargets
  intro g env henv
  unfold assignComb
  by_cases hout : a.isVector = false ∧
      (env.cur.length ≤ a.lhs.headD 0 ∨ targets.getD (a.lhs.headD 0) false = false)
  · rw [if_pos hout]
    refine gives_pure ((Reaches.refl henv).imp fun st _ log st' hf hrun => ?_)
    refine skip_of_logged (Assign.logged_of_scalar hout.1 ?_) hrun
    rw [hf.length henv, ← henv.cur.length]
    rcases hout.2 with hle | hfalse
    · exact hle
    · obtain ⟨l, hl⟩ := length_eq_one_iff.mp (a.scalar hout.1).1
      rw [hl, headD_cons] at hfalse ⊢
      by_contra hlt
      rw [henv.cur.length] at hlt
      have htrue := htargets l (by simp [hl]) (by omega)
      rw [hfalse] at htrue
      cases htrue
  rw [if_neg hout]
  by_cases hlen : a.lhs.length ≠ a.rhs.length ∨ a.lhs = []
  · rw [if_pos hlen]
    refine gives_pure ((Reaches.refl henv).imp fun st _ log st' _ hrun => ?_)
    exact skip_of_logged (Assign.logged_of_length hlen) hrun
  rw [if_neg hlen]
  have hlen := (not_or.mp hlen).1
  refine (gives_rhsNodes hρ henv.cur hdelay hrhs).bind fun ns g₁ hg₁ hns => ?_
  have hconst : Gives g₁ (constNode .H) fun n g' => g'.Has ρ n .H := gives_constNode .H
  refine hconst.bind fun one g₂ hg₂ hone => gives_pure ?_
  have hg := hg₁.trans hg₂
  have hns₂ := hns.mono hg₂
  have henv₂ := henv.mono hg
  have hfilter (w : Nat × Nat) (hw : w ∈ (a.lhs.zip ns).filter fun w => targets.getD w.1 false) :
      w.1 ∈ a.lhs ∧ w.2 ∈ ns := of_mem_zip (mem_of_mem_filter hw)
  have hones (w : Nat × Nat)
      (hw : w ∈ ((a.lhs.zip ns).filter fun w => targets.getD w.1 false).map fun w => (w.1, one)) :
      w.1 ∈ a.lhs ∧ w.2 = one := by
    obtain ⟨w', hw', rfl⟩ := mem_map.mp hw
    exact ⟨(hfilter w' hw').1, rfl⟩
  refine ⟨⟨?_, ?_⟩, ⟨fun s hs => ?_, fun s hs => ?_⟩, ?_⟩
  · exact henv₂.cur.setAll (fun w hw => hns₂.lt _ (hfilter w hw).2) fun w hw => hns₂.fine _ (hfilter w hw).2
  · refine henv₂.aux.setAll (fun w hw => ?_) fun w hw => ?_
    · rw [(hones w hw).2]
      exact hone.1
    · rw [(hones w hw).2, hone.2]
      exact ⟨by decide, fun _ => rfl⟩
  · exact getElem?_setAll_of_target henv.cur.length htargets (fun w hw => (hfilter w hw).1) hs
  · exact getElem?_setAll_of_target henv.aux.length htargets (fun w hw => (hones w hw).1) hs
  · intro st log log' st' hf hrun
    cases hrun
    rw [hf.cur] at hns₂
    have hst := hf.length henv
    refine ⟨?_, hf.valuesOf_aux henv hg fun s hs v => ?_⟩
    · refine hns₂.valuesOf_cur henv₂.cur ?_ hlen hnb fun s hs v => ?_
      · rw [valuesOf_mono henv.cur.lt hg, hf.cur]
      · exact written_nodes htargets hs v
    · -- both sides write `1` to the signals on the left that exist
      have hlog : (a.logged m st).map (fun w => (w.signal, LogicT.H)) =
          ((sampleWrites m st a.lhs a.rhs).map fun w => (w.1, LogicT.H)).filter fun w =>
            w.1 < st.values.length := by
        rw [Assign.logged_eq hlen, List.map_map, existing, filter_map]
        rfl
      have hnodes : (((a.lhs.zip ns).filter fun w => targets.getD w.1 false).map fun w => (w.1, one)).map
          (fun w => (w.1, g₂.value ρ w.2)) =
            ((sampleWrites m st a.lhs a.rhs).map fun w => (w.1, LogicT.H)).filter fun w =>
              targets.getD w.1 false := by
        rw [← hns₂.map_zip, List.map_map, List.map_map, filter_map]
        refine map_congr_left fun w _ => ?_
        rw [Function.comp_apply, Function.comp_apply, hone.2]
      have hlhs : ∀ w ∈ (sampleWrites m st a.lhs a.rhs).map fun w => (w.1, LogicT.H), w.1 ∈ a.lhs := by
        intro w hw
        obtain ⟨w', hw', rfl⟩ := mem_map.mp hw
        exact (of_mem_zip hw').1
      rw [hlog, hnodes, written_target htargets hlhs hs v]
      exact (written_existing st _ (by omega) v).symm

end

variable (m opt) in
/-- An assignment without delay of values that pass multiplexers. -/
def plainAssign (a : Assign) : Bool := a.delayTicks = 0 && a.rhs.all (rhsOk m opt)

section

variable {targets : List Bool} {x : Nat} {c : Bool} {base e t : SynthEnv}

/-- Both kinds of merges: entries of the second vector are merged for the signals of the
block, entries of the first one at least for these. -/
theorem gives_mergeEnv (hρ : ∀ i, ρ i ≠ .Z) (hx : g.Has ρ x (ofBool c)) (chosen : Nat → Bool)
    (hchosen : ∀ s, chosen s = false → targets.getD s false = false) (hbase : EnvOk m opt ρ g base)
    (he : EnvOk m opt ρ g e) (ht : EnvOk m opt ρ g t) (hfe : Frame targets base e) (hft : Frame targets base t) :
    Gives g (do
      let cur ← muxAll x chosen base.cur e.cur t.cur
      let aux ← muxAll x (fun s => targets.getD s false) base.aux e.aux t.aux
      pure { cur, aux }) fun env' g' => Merged m opt ρ targets c g base e t g' env' := by
  refine (gives_muxAll hρ hx chosen hbase.cur he.cur ht.cur fun s hs =>
    ⟨hfe.cur s (hchosen s hs), hft.cur s (hchosen s hs)⟩).bind fun cur g₁ hg₁ h₁ => ?_
  refine (gives_muxAll hρ (hx.mono hg₁) (fun s => targets.getD s false) (hbase.mono hg₁).aux (he.mono hg₁).aux
    (ht.mono hg₁).aux fun s hs => ⟨hfe.aux s hs, hft.aux s hs⟩).bind fun aux g₂ hg₂ h₂ => gives_pure ?_
  refine ⟨⟨h₁.1.mono hg₂, h₂.1⟩, ⟨fun s hs => ?_, fun s hs => ?_⟩, ?_, ?_⟩
  · exact h₁.2.2 s (hfe.cur s hs) (hft.cur s hs)
  · exact h₂.2.2 s (hfe.aux s hs) (hft.aux s hs)
  · rw [valuesOf_mono h₁.1.lt hg₂, h₁.2.1]
    cases c <;> rfl
  · rw [h₂.2.1]
    cases c
    · exact valuesOf_mono he.aux.lt hg₁
    · exact valuesOf_mono ht.aux.lt hg₁

variable (init : Nat → LogicT)

theorem lawful_ffOps (hρ : ∀ i, ρ i ≠ .Z) :
    (ffOps m opt targets).Lawful m opt ρ targets (auxWritten Write.entry init) (assignOk m opt targets) where
  assign _ hok := sim_assignFf hρ hok
  merge _ _ _ _ _ _ hx hbase he ht hfe hft := gives_mergeEnv hρ hx (fun _ => true) (by simp) hbase he ht hfe hft

theorem lawful_combOps (hρ : ∀ i, ρ i ≠ .Z) :
    (combOps m opt targets).Lawful m opt ρ targets (auxWritten (fun w => (w.signal, .H)) init)
      fun a => assignOk m opt targets a && !a.nonblocking where
  assign a hok := by
    rw [Bool.and_eq_true, Bool.not_eq_true'] at hok
    exact sim_assignComb hρ hok.1 hok.2
  merge _ _ _ _ _ _ hx hbase he ht hfe hft := gives_mergeEnv hρ hx _ (fun _ h => h) hbase he ht hfe hft

end

section

variable {p q : Assign → Bool}

mutual

theorem stmtOk_imp : ∀ s, (∀ a ∈ Stmt.assigns s, p a = true → q a = true) → stmtOk m opt p s = true →
    stmtOk m opt q s = true
  | .empty, _, h => h
  | .block ss, hpq, h | .subprogramBlock ss, hpq, h => by
    simp only [stmtOk] at h ⊢
    exact stmtsOk_imp ss hpq h
  | .assign a, hpq, h => by
    simp only [stmtOk] at h ⊢
    exact hpq a (by simp [Stmt.assigns]) h
  | .ifStmt _ ts es, hpq, h => by
    simp only [stmtOk, Bool.and_eq_true] at h ⊢
    refine ⟨⟨h.1.1, stmtsOk_imp ts (fun a ha => hpq a ?_) h.1.2⟩, stmtsOk_imp es (fun a ha => hpq a ?_) h.2⟩
    · exact List.mem_append_left _ ha
    · exact List.mem_append_right _ ha
  | .caseStmt ck _ items, hpq, h => by
    simp only [stmtOk, Bool.and_eq_true] at h ⊢
    exact ⟨h.1, itemsOk_imp ck items hpq h.2⟩
  | .forStmt init _ step body, hpq, h => by
    simp only [stmtOk, Bool.and_eq_true] at h ⊢
    obtain ⟨⟨⟨hcond, hinit⟩, hstep⟩, hbody⟩ := h
    refine ⟨⟨⟨hcond, stmtOk_imp init (fun a ha => hpq a ?_) hinit⟩, stmtOk_imp step (fun a ha => hpq a ?_) hstep⟩,
      stmtOk_imp body (fun a ha => hpq a ?_) hbody⟩
    · exact mem_append_left _ (mem_append_left _ ha)
    · exact mem_append_left _ (mem_append_right _ ha)
    · exact mem_append_right _ ha
  | .whileStmt _ body, hpq, h | .doWhileStmt _ body, hpq, h => by
    simp only [stmtOk, Bool.and_eq_true] at h ⊢
    exact ⟨h.1, stmtOk_imp body hpq h.2⟩
  | .returnStmt, _, h | .breakStmt, _, h | .continueStmt, _, h => h

theorem stmtsOk_imp : ∀ ss, (∀ a ∈ Stmt.assignsOfList ss, p a = true → q a = true) →
    stmtsOk m opt p ss = true → stmtsOk m opt q ss = true
  | [], _, h => h
  | s :: ss, hpq, h => by
    simp only [stmtsOk, Bool.and_eq_true] at h ⊢
    exact ⟨stmtOk_imp s (fun a ha => hpq a (mem_append_left _ ha)) h.1,
      stmtsOk_imp ss (fun a ha => hpq a (mem_append_right _ ha)) h.2⟩

theorem itemsOk_imp (ck : CaseKind) : ∀ items, (∀ a ∈ Stmt.assignsOfItems items, p a = true → q a = true) →
    itemsOk m opt p ck items = true → itemsOk m opt q ck items = true
  | [], _, h => h
  | item :: items, hpq, h => by
    simp only [itemsOk, Bool.and_eq_true] at h ⊢
    exact ⟨itemOk_imp ck item (fun a ha => hpq a (mem_append_left _ ha)) h.1,
      itemsOk_imp ck items (fun a ha => hpq a (mem_append_right _ ha)) h.2⟩

theorem itemOk_imp (ck : CaseKind) : ∀ item, (∀ a ∈ Stmt.assignsOfItem item, p a = true → q a = true) →
    itemOk m opt p ck item = true → itemOk m opt q ck item = true
  | .mk _ _ ss, hpq, h => by
    simp only [itemOk, Bool.and_eq_true] at h ⊢
    exact ⟨h.1, stmtsOk_imp ss hpq h.2⟩

end

end

theorem synthRoots_eq (ops : StmtOps) (roots : List Stmt) (env : SynthEnv) :
    synthRoots (synthStmt m opt ops) roots env = synthStmts m opt ops roots env := by
  induction roots generalizing env with
  | nil => rfl
  | cons root roots ih =>
    rw [synthRoots, foldlM_cons, synthStmts]
    exact bind_congr fun env' => ih env'

theorem assignOk_of_plainAssign {roots : List Stmt} {a : Assign} (ha : a ∈ Stmt.assignsOfList roots)
    (h : plainAssign m opt a = true) : assignOk m opt (collectAssignedSignals m roots) a = true := by
  rw [assignOk, Bool.and_eq_true]
  refine ⟨h, all_eq_true.mpr fun s hs => decide_eq_true fun hlt => ?_⟩
  have hmem : s ∈ Stmt.targets roots := mem_flatMap.mpr ⟨a, ha, hs⟩
  rw [collectAssignedSignals, getD_eq_getElem?_getD, getElem?_map, getElem?_range hlt]
  simp [hmem]

structure SignalNodes (m : CompiledModule) (ρ : Nat → LogicT) (g : GateNet) (sig : List Nat) (st : ModuleState) :
    Prop where
  length : sig.length = m.signalNames.length
  lt : ∀ x ∈ sig, x < g.nodes.length
  values : g.valuesOf ρ sig = st.values
  known : ∀ v ∈ st.values, v.isUnknown = false

theorem fine_of_known {v : LogicT} (h : v.isUnknown = false) : Fine opt v := by
  refine ⟨?_, fun _ => h⟩
  rintro rfl
  cases h

variable {sig : List Nat}

theorem SignalNodes.nodes {st : ModuleState} (h : SignalNodes m ρ g sig st) :
    Nodes m opt ρ g sig := by
  refine ⟨h.length, h.lt, fun x hx => fine_of_known (h.known _ ?_)⟩
  rw [← h.values]
  exact mem_map_of_mem hx

theorem SignalNodes.length_values {st : ModuleState} (h : SignalNodes m ρ g sig st) :
    st.values.length = m.signalNames.length := by
  rw [← h.values, GateNet.valuesOf, length_map, h.length]

theorem value_getD (hs : s < xs.length) :
    g.value ρ (xs.getD s 0) = (g.valuesOf ρ xs).getD s .X := by
  rw [GateNet.valuesOf, getD_eq_getElem _ _ hs, getD_eq_getElem _ _ (by rw [length_map]; exact hs),
    getElem_map]

end

section

variable (m : CompiledModule) (opt : StmtOptions) (roots : List Stmt) (sig : List Nat)

/-- The statements of an `always_ff` block, from the nodes of the signals. -/
def synthAlwaysFf : SynthM SynthEnv :=
  synthRoots (synthStmtFf m opt (collectAssignedSignals m roots)) roots { cur := sig, aux := sig }

def synthAlwaysComb : SynthM SynthEnv := do
  let off ← constNode .L
  synthRoots (synthStmtComb m opt (collectAssignedSignals m roots)) roots
    { cur := sig, aux := List.replicate m.signalNames.length off }

variable (ρ : Nat → LogicT) (g : GateNet) (s : Nat)

def nextValue : Option LogicT := (synthAlwaysFf m opt roots sig g).map fun r => r.2.value ρ (r.1.aux.getD s 0)

def combValue : Option LogicT := (synthAlwaysComb m opt roots sig g).map fun r => r.2.value ρ (r.1.cur.getD s 0)

def assignedValue : Option LogicT :=
  (synthAlwaysComb m opt roots sig g).map fun r => r.2.value ρ (r.1.aux.getD s 0)

end

section

variable {m : CompiledModule} {opt : StmtOptions} {ρ : Nat → LogicT} {g : GateNet} {roots : List Stmt}
variable {sig : List Nat} {st st' : ModuleState} {log : List Write}

section

variable (hρ : ∀ i, ρ i ≠ .Z)
include hρ

theorem gives_synthAlwaysFf (hnodes : Nodes m opt ρ g sig) (hvalues : g.valuesOf ρ sig = st.values)
    (hok : stmtsOk m opt (plainAssign m opt) roots = true) :
    Gives g (synthAlwaysFf m opt roots sig) fun env' g' => Nodes m opt ρ g' env'.aux ∧
      ∀ log st', Runs m opt.loopUnrollLimit (.seq roots) st log st' → ∀ s < m.signalNames.length,
        g'.value ρ (env'.aux.getD s 0) = written (log.map Write.entry) s (st.get s) := by
  have hok' := stmtsOk_imp roots (fun a ha => assignOk_of_plainAssign ha) hok
  have hsim := sim_synthStmts (lawful_ffOps st.get hρ) hρ roots hok'
  have henv : EnvOk m opt ρ g { cur := sig, aux := sig } := ⟨hnodes, hnodes⟩
  obtain ⟨env', g', heq, hg, hr⟩ := hsim g _ henv
  have hlength : st.values.length = m.signalNames.length := by
    rw [← hvalues, GateNet.valuesOf, length_map, hnodes.length]
  have hstart : Follows m ρ (auxWritten Write.entry st.get) g { cur := sig, aux := sig } st [] := by
    refine ⟨hvalues, hvalues.trans (eq_of_getD (by simp [hlength]) fun s hs => ?_)⟩
    have hs : s < m.signalNames.length := by simpa using hs
    simp [getD_eq_getElem?_getD, getElem?_map, getElem?_range hs, auxWritten, written,
      ModuleState.get]
  have hsynth : synthAlwaysFf m opt roots sig g = some (env', g') := by
    rw [← heq]
    exact congrFun (synthRoots_eq (ffOps m opt _) roots _) g
  refine ⟨env', g', hsynth, hg, hr.ok.aux, fun log st' hrun s hs => ?_⟩
  have hend := hr.follows st [] log st' hstart hrun
  rw [value_getD (by rw [hr.ok.aux.length]; exact hs), hend.aux]
  simp [getD_eq_getElem?_getD, getElem?_map, getElem?_range hs, auxWritten]

section

variable (hsig : SignalNodes m ρ g sig st)
include hsig

variable {s : Nat}

theorem nextValue_eq
    (hok : stmtsOk m opt (plainAssign m opt) roots = true)
    (hrun : Runs m opt.loopUnrollLimit (.seq roots) st log st') (hs : s < m.signalNames.length) :
    nextValue m opt roots sig ρ g s = some (written (log.map Write.entry) s (st.get s)) := by
  obtain ⟨env', g', hsynth, -, -, hnext⟩ := gives_synthAlwaysFf hρ hsig.nodes hsig.values hok
  rw [nextValue, hsynth, Option.map_some, hnext log st' hrun s hs]

/-- The next state of a clocked block is the one of the simulator, for every register with
no blocking write after a non-blocking one. Registers that are not written keep their
value. -/
theorem nextValue_eq_applyNba (hq : st.nbaQueue = [])
    (hok : stmtsOk m opt (plainAssign m opt) roots = true)
    (hrun : Runs m opt.loopUnrollLimit (.seq roots) st log st') (tick : UInt64)
    (hs : s < m.signalNames.length) (hord : Ordered s log) :
    nextValue m opt roots sig ρ g s = some ((applyNba (execRoots m tick roots st).1).1.get s) ∧
      (s ∉ log.map Write.signal → nextValue m opt roots sig ρ g s = some (st.get s)) := by
  have hnext := nextValue_eq hρ hsig hok hrun hs
  constructor
  · rw [hrun.execRoots tick, hrun.perform,
      ModuleState.get_applyNba_perform st hq log (by rw [hsig.length_values]; exact hs), hnext, hord.written]
  · intro hnot
    rw [hnext, written_of_not_mem]
    rw [List.map_map]
    exact hnot

/-- The nodes of a combinational block have the values of the simulator, and those of
`assigned_cond` are high exactly for the signals that are assigned. -/
theorem combValue_eq_execRoots
    (hok : stmtsOk m opt (fun a => plainAssign m opt a && !a.nonblocking) roots = true)
    (hrun : Runs m opt.loopUnrollLimit (.seq roots) st log st') (tick : UInt64)
    (hs : s < m.signalNames.length) :
    assignedValue m opt roots sig ρ g s = some (ofBool (s ∈ log.map Write.signal)) ∧
      combValue m opt roots sig ρ g s = some ((execRoots m tick roots st).1.get s) := by
  have hok' : stmtsOk m opt (fun a => assignOk m opt (collectAssignedSignals m roots) a && !a.nonblocking) roots =
      true := by
    refine stmtsOk_imp roots (fun a ha h => ?_) hok
    rw [Bool.and_eq_true] at h ⊢
    exact ⟨assignOk_of_plainAssign ha h.1, h.2⟩
  have hsim := sim_synthStmts (lawful_combOps (fun _ => .L) hρ) hρ roots hok'
  have hoff : Gives g (constNode .L) fun n g' => g'.Has ρ n .L := gives_constNode .L
  obtain ⟨off, g₀, hzero, hg₀, hhas⟩ := hoff
  have hzeros : Nodes m opt ρ g₀ (List.replicate m.signalNames.length off) := by
    refine ⟨List.length_replicate, fun x hx => ?_, fun x hx => ?_⟩
    · rw [List.eq_of_mem_replicate hx]
      exact hhas.1
    · rw [List.eq_of_mem_replicate hx, hhas.2]
      exact fine_of_known rfl
  have henv : EnvOk m opt ρ g₀ { cur := sig, aux := List.replicate m.signalNames.length off } :=
    ⟨hsig.nodes.mono hg₀, hzeros⟩
  obtain ⟨env', g', heq, -, hr⟩ := hsim g₀ _ henv
  have hstart : Follows m ρ (auxWritten (fun w => (w.signal, .H)) fun _ => .L) g₀
      { cur := sig, aux := List.replicate m.signalNames.length off } st [] := by
    refine ⟨(valuesOf_mono hsig.lt hg₀).trans hsig.values, ?_⟩
    change (List.replicate m.signalNames.length off).map (g₀.value ρ) = (List.range m.signalNames.length).map fun _ =>
      .L
    rw [List.map_replicate, hhas.2, List.map_const', List.length_range]
  have hend := hr.follows st [] log st' hstart hrun
  have hsynth : synthAlwaysComb m opt roots sig g = some (env', g') := by
    rw [← heq]
    change (constNode .L g).bind _ = _
    rw [hzero]
    exact congrFun (synthRoots_eq (combOps m opt _) roots _) g₀
  constructor
  · rw [assignedValue, hsynth, Option.map_some, value_getD (by rw [hr.ok.aux.length]; exact hs), hend.aux]
    simp only [List.getD_eq_getElem?_getD, List.getElem?_map, List.getElem?_range hs, Option.map_some,
      Option.getD_some, List.nil_append, auxWritten]
    by_cases hmem : s ∈ log.map Write.signal
    · rw [written_high (v := .H) (by rw [List.map_map]; exact hmem) (by simp), decide_eq_true hmem]
      rfl
    · rw [written_of_not_mem (by rw [List.map_map]; exact hmem), decide_eq_false hmem]
      rfl
  · rw [combValue, hsynth, Option.map_some, value_getD (by rw [hr.ok.cur.length]; exact hs), hend.cur,
      hrun.execRoots tick]
    rfl

end

end

end

def twoSignals : CompiledModule where
  signalNames := ["c", "q"]
  exprNodes := [.literal .L, .literal .H, .literal .X, .literal .Z, .signal 0, .signal 1]

def twoNets : GateNet where
  nodes := [.net, .net]
  constNodes := []
  const_iff v i := by
    match i with
    | 0 | 1 => simp
    | i + 2 => simp

def firstHigh : Nat → LogicT
  | 0 => .H
  | _ => .L

theorem firstHigh_ne_Z (i : Nat) : firstHigh i ≠ .Z := by
  cases i <;> simp [firstHigh]

theorem signalNodes_firstHigh : SignalNodes twoSignals firstHigh twoNets [0, 1] { values := [.H, .L] } where
  length := rfl
  lt := by decide
  values := rfl
  known := by decide

/-- `q <= 1; q = 0;` -/
def mixedBlock : List Stmt :=
  [.assign { nonblocking := true, lhs := [1], rhs := [1] }, .assign { nonblocking := false, lhs := [1], rhs := [0] }]

variable (nonblocking : Bool)

def tristateBlock : List Stmt :=
  [.ifStmt 4 [.assign { nonblocking, lhs := [1], rhs := [3] }] [.assign { nonblocking, lhs := [1], rhs := [0] }]]

def wildcardBlock : List Stmt :=
  [.caseStmt .casex [4] [.mk false [2] [.assign { nonblocking, lhs := [1], rhs := [1] }],
    .mk true [] [.assign { nonblocking, lhs := [1], rhs := [0] }]]]

def copyBlock : List Stmt :=
  [.ifStmt 4 [.assign { nonblocking, lhs := [1], rhs := [1] }] [.assign { nonblocking, lhs := [1], rhs := [0] }]]

theorem runs_copyBlock :
    Runs twoSignals 64 (.seq (copyBlock nonblocking)) { values := [.H, .L] } [⟨nonblocking, 1, .H⟩]
      (({ values := [.H, .L] } : ModuleState).perform [⟨nonblocking, 1, .H⟩]) :=
  .cons (.ifThen (by decide) (.cons (.assign rfl) .nil)) .nil

/-- A register whose branches are merged. -/
theorem nextValue_copyBlock :
    nextValue twoSignals {} (copyBlock true) [0, 1] firstHigh twoNets 1 =
      some ((applyNba (execRoots twoSignals 0 (copyBlock true) { values := [.H, .L] }).1).1.get 1) :=
  (nextValue_eq_applyNba firstHigh_ne_Z signalNodes_firstHigh rfl (by decide) (runs_copyBlock true) 0 (by decide)
    (by decide)).1

/-- The node of a register differs from the simulator where a blocking write comes after a
non-blocking one, where a Z is merged, and where tests for unknown values fold away. -/
theorem nextValue_ne_applyNba :
    nextValue twoSignals {} mixedBlock [0, 1] firstHigh twoNets 1 ≠
        some ((applyNba (execRoots twoSignals 0 mixedBlock { values := [.H, .L] }).1).1.get 1) ∧
      nextValue twoSignals {} (tristateBlock true) [0, 1] firstHigh twoNets 1 ≠
        some ((applyNba (execRoots twoSignals 0 (tristateBlock true) { values := [.H, .L] }).1).1.get 1) ∧
      nextValue twoSignals { assumeBinaryInputs := true } (wildcardBlock true) [0, 1] firstHigh twoNets 1 ≠
        some ((applyNba (execRoots twoSignals 0 (wildcardBlock true) { values := [.H, .L] }).1).1.get 1) := by
  decide +kernel

/-- A combinational signal whose branches are merged. -/
theorem combValue_copyBlock :
    assignedValue twoSignals {} (copyBlock false) [0, 1] firstHigh twoNets 1 =
        some (ofBool (1 ∈ [(⟨false, 1, .H⟩ : Write)].map Write.signal)) ∧
      combValue twoSignals {} (copyBlock false) [0, 1] firstHigh twoNets 1 =
        some ((execRoots twoSignals 0 (copyBlock false) { values := [.H, .L] }).1.get 1) :=
  combValue_eq_execRoots firstHigh_ne_Z signalNodes_firstHigh (by decide) (runs_copyBlock false) 0 (by decide)

/-- A combinational node differs from the simulator where a Z is merged, and where tests for
unknown values fold away. -/
theorem combValue_ne_execRoots :
    combValue twoSignals {} (tristateBlock false) [0, 1] firstHigh twoNets 1 ≠
        some ((execRoots twoSignals 0 (tristateBlock false) { values := [.H, .L] }).1.get 1) ∧
      combValue twoSignals { assumeBinaryInputs := true } (wildcardBlock false) [0, 1] firstHigh twoNets 1 ≠
        some ((execRoots twoSignals 0 (wildcardBlock false) { values := [.H, .L] }).1.get 1) := by
  decide +kernel

end PhyEngine.Verilog
