import PhyEngine.Circuit.Wiring
import PhyEngine.Verilog.Runs

/-!
# Drives of analog nodes

Every call of a digital model with an output pin on an analog node returns a drive, and
`digital_clk` appends all of them to `digital_out`. What one call can write, enter in the
table and drive is bounded by the output pins of the model.
-/

namespace PhyEngine

open List

/-- The pins a model drives. The ports of a Verilog module are those of its top instance. -/
def Model.outPins (m : Model) (clip : Clip) : List Nat :=
  match m.kind with
  | .input => [0]
  | .yes | .not | .isUnknown | .schmittTrigger | .tickDelay => [1]
  | .and | .or | .xor | .xnor | .nand | .nor | .imp | .nimp | .caseEq | .tri | .resolve2 => [2]
  | .dff | .dlatch | .tff | .tBarFf => [2]
  | .dffArstn | .jkff => [3]
  | .halfAdder | .halfSub => List.range' 2 2
  | .fullAdder | .fullSub => List.range' 3 2
  | .mul2 => List.range' 4 4
  | .counter4 | .randomGenerator4 => List.range 4
  | .eightBitInput => List.range 8
  | .verilogModule => clip.topInstance.elim [] fun t =>
      (t.value.mod.ports.zipIdx.filter fun pk => pk.1.dir = .output ∨ pk.1.dir = .inout).map (·.2)
  | .output | .eightBitDisplay | .verilogPorts | .linear _ | .nonLinear _ => []

def Store.node : Store → NodeId
  | .write n _ _ => n
  | .update n _ => n

def Store.canEnter : Store → Bool
  | .write _ _ enter => enter
  | .update _ _ => true

/-- A call writes digital nodes of the pins `ks` only and drives a node of one of them. -/
structure Drives (view : NodeId → NodeView) (m : Model) (ks : List Nat) (r : Outcome) : Prop where
  stores : ∀ w ∈ r.stores, ∃ k ∈ ks, m.pin k = some w.node ∧ (view w.node).analog = false
  drive : ∀ d, r.drive = some d → ∃ k ∈ ks, m.pin k = some d.node

variable {w : Store}

section Calls

variable {view : NodeId → NodeView} {trDuration : Float} {m : Model} {ks : List Nat} {clip : Clip}

theorem drives_nothing : Drives view m ks ⟨clip, [], none⟩ :=
  ⟨fun w hw => absurd hw not_mem_nil, fun d hd => absurd hd (by simp)⟩

variable {k count : Nat} {o : NodeId} {outs : List (NodeId × LogicT)}

variable {r : Outcome}

theorem drives_one (hk : k ∈ ks) (hpin : m.pin k = some o)
    (hstores : ∀ w ∈ r.stores, w.node = o ∧ (view o).analog = false) (hdrive : ∀ d, r.drive = some d → d.node = o) :
    Drives view m ks r where
  stores := by
    intro w hw
    obtain ⟨rfl, hdigital⟩ := hstores w hw
    exact ⟨k, hk, hpin, hdigital⟩
  drive := fun d hd => ⟨k, hk, by rw [hdrive d hd, hpin]⟩

variable {d : AnalogDrive}

theorem gateDrive_node {v : LogicT} {n : NodeId} (h : gateDrive clip v n = some d) :
    d.node = n := by
  cases v <;> simp only [gateDrive, Option.some.injEq, reduceCtorEq] at h <;> rw [← h]

section

variable (hk : k ∈ ks) (hpin : m.pin k = some o)

include hk hpin

theorem drives_written {s : Store} (hdigital : ¬ (view o).analog = true) (hs : s.node = o) (clip' : Clip) :
    Drives view m ks ⟨clip', [s], none⟩ := by
  refine drives_one hk hpin (fun w hw => ?_) fun d hd => absurd hd (by simp)
  obtain rfl := mem_singleton.mp hw
  exact ⟨hs, by simpa using hdigital⟩

theorem drives_driven {drive : Option AnalogDrive} (h : ∀ d, drive = some d → d.node = o) (clip' : Clip) :
    Drives view m ks ⟨clip', [], drive⟩ :=
  drives_one hk hpin (fun _ hw => absurd hw not_mem_nil) h

variable (v : LogicT)

theorem drives_level (clip' : Clip) :
    Drives view m ks ⟨clip', [], some (levelDrive clip v o)⟩ := by
  refine drives_driven hk hpin (fun d hd => ?_) clip'
  cases hd
  rfl

theorem drives_gateOutput : Drives view m ks (gateOutput view clip o v) := by
  simp only [gateOutput]
  split
  · exact drives_driven hk hpin (fun d hd => gateDrive_node hd) _
  · exact drives_written hk hpin ‹_› rfl _

theorem drives_nodeOutput : Drives view m ks (nodeOutput view clip o v) := by
  simp only [nodeOutput]
  split
  · exact drives_level hk hpin v _
  · exact drives_written hk hpin ‹_› rfl _

theorem drives_changeOutput (j : Nat) (v : LogicT) : Drives view m ks (changeOutput view clip j o v) := by
  simp only [changeOutput]
  split
  · split
    · exact drives_nothing
    · exact drives_level hk hpin v _
  · exact drives_written hk hpin ‹_› rfl _

theorem drives_delayOutput : Drives view m ks (delayOutput view clip o v) := by
  simp only [delayOutput]
  split
  · split
    · exact drives_level hk hpin v _
    · exact drives_nothing
  · exact drives_written hk hpin ‹_› rfl _

end

theorem drives_many (houts : ∀ ov ∈ outs, ∃ k ∈ ks, m.pin k = some ov.1)
    (hstores : ∀ w ∈ r.stores, ∃ ov ∈ outs, w.node = ov.1 ∧ (view ov.1).analog = false)
    (hdrive : ∀ d, r.drive = some d → ∃ ov ∈ outs, d.node = ov.1) : Drives view m ks r where
  stores := by
    intro w hw
    obtain ⟨ov, hov, hnode, hdigital⟩ := hstores w hw
    obtain ⟨k, hk, hpin⟩ := houts ov hov
    exact ⟨k, hk, hnode ▸ hpin, hnode ▸ hdigital⟩
  drive := by
    intro d hd
    obtain ⟨ov, hov, hnode⟩ := hdrive d hd
    obtain ⟨k, hk, hpin⟩ := houts ov hov
    exact ⟨k, hk, hnode ▸ hpin⟩

theorem findDrive_node {p : NodeId × LogicT → Bool}
    (h : (outs.find? p).map (fun ov => levelDrive clip ov.2 ov.1) = some d) :
    ∃ ov ∈ outs, d.node = ov.1 := by
  obtain ⟨ov, hfind, rfl⟩ := Option.map_eq_some_iff.mp h
  exact ⟨ov, mem_of_find?_eq_some hfind, rfl⟩

theorem cachedStores_node (hw : w ∈ cachedStores view clip outs) :
    ∃ ov ∈ outs, w.node = ov.1 ∧ (view ov.1).analog = false := by
  obtain ⟨ok, hok, hsome⟩ := mem_filterMap.mp hw
  split at hsome
  · rename_i hcond
    cases hsome
    exact ⟨ok.1, fst_mem_of_mem_zipIdx hok, rfl, hcond.1⟩
  · exact absurd hsome (by simp)

theorem updateStores_node (hw : w ∈ (outs.filter fun ov => !(view ov.1).analog).map fun ov => Store.update ov.1 ov.2) :
    ∃ ov ∈ outs, w.node = ov.1 ∧ (view ov.1).analog = false := by
  obtain ⟨ov, hov, rfl⟩ := mem_map.mp hw
  obtain ⟨hmem, hdigital⟩ := mem_filter.mp hov
  exact ⟨ov, hmem, rfl, by simpa using hdigital⟩

variable {ov : NodeId × LogicT}

theorem pin_of_mem_zip {ns : List NodeId} (h : m.pinNodes k count = some ns) {vs : List LogicT}
    (hov : ov ∈ ns.zip vs) :
    ∃ j ∈ List.range' k count, m.pin j = some ov.1 := by
  obtain ⟨i, hi, hn⟩ := getElem_of_mem (of_mem_zip hov).1
  refine ⟨k + i, ?_, pin_of_pinNodes h (by rw [getElem?_eq_getElem hi, hn])⟩
  rw [length_pinNodes h] at hi
  exact mem_range'.mpr ⟨i, hi, by simp⟩

theorem drives_block {arity : Nat} {f : List LogicT → List LogicT} :
    Drives view m (List.range' arity count) (block view arity count f m clip) := by
  simp only [block]
  split
  · rename_i ins outs hin hout
    exact drives_many (fun ov hov => pin_of_mem_zip hout hov) (fun w hw => cachedStores_node hw)
      (fun d hd => findDrive_node hd)
  · exact drives_nothing

theorem drives_updateMul2 : Drives view m (List.range' 4 4) (updateMul2 view m clip) := by
  simp only [updateMul2]
  split
  · rename_i ins outs hin hout
    refine drives_many (fun ov hov => pin_of_mem_zip hout hov) (fun w hw => ?_)
      (fun d hd => findDrive_node hd)
    obtain ⟨ov, hov, hnode⟩ := cachedStores_node hw
    exact ⟨ov, (takeWhile_sublist _).subset hov, hnode⟩
  · exact drives_nothing

theorem pin_of_mem_filterMap {f : Nat → LogicT}
    (hov : ov ∈ (List.range count).filterMap fun pin => (m.pin pin).map fun n => (n, f pin)) :
    ∃ j ∈ List.range count, m.pin j = some ov.1 := by
  obtain ⟨j, hj, hmap⟩ := mem_filterMap.mp hov
  obtain ⟨n, hn, rfl⟩ := Option.map_eq_some_iff.mp hmap
  exact ⟨j, hj, hn⟩

theorem drives_bitOutputs : Drives view m (List.range 4) (bitOutputs view m clip) :=
  drives_many (fun _ hov => pin_of_mem_filterMap hov) (fun _ hw => updateStores_node hw)
    (fun _ hd => findDrive_node hd)

theorem drives_updateEightBitInput : Drives view m (List.range 8) (updateEightBitInput view m clip) := by
  refine drives_many (fun _ hov => pin_of_mem_filterMap hov) (fun w hw => ?_)
    (fun _ hd => findDrive_node hd)
  simp only [updateEightBitInput] at hw
  split at hw
  · exact updateStores_node hw
  · exact absurd hw not_mem_nil

theorem drives_updateTri : Drives view m [2] (updateTri view m clip) := by
  simp only [updateTri]
  split
  · rename_i i en o hi hen ho
    refine drives_one mem_cons_self ho (fun w hw => ?_) (fun d hd => ?_)
    · repeat' split at hw
      all_goals first
        | exact absurd hw not_mem_nil
        | (obtain rfl := mem_singleton.mp hw
           rename_i hdigital
           exact ⟨rfl, by simpa using hdigital⟩)
    · repeat' split at hd
      all_goals first
        | (cases hd
           rfl)
        | exact absurd hd (by simp)
  · exact drives_nothing

theorem drives_updateTickDelay (method : DigitalUpdateMethod) :
    Drives view m [1] (updateTickDelay view method m clip) := by
  simp only [updateTickDelay]
  split
  · rename_i o ho
    split
    · exact drives_delayOutput mem_cons_self ho _
    · exact drives_delayOutput mem_cons_self ho _
  · exact drives_nothing

end Calls

namespace Verilog

theorem mod_settleLoop (resolve : InstanceState → InstanceState × Bool) (tick : UInt64) (iters : Nat) :
    ∀ (token : UInt32) (any : Bool) (t : InstanceState),
      (settleLoop resolve tick iters token any t).inst.value.mod = t.value.mod := by
  induction iters with
  | zero => exact fun _ _ _ => rfl
  | succ iters ih =>
    intro token any t
    have hpass (t : InstanceState) : (settlePass resolve tick token any t).1.value.mod = t.value.mod := by
      have hprep := (frame_prepareNetDrives (T := fun _ => True) (E := fun _ => True) t.value).static
      exact (static_settleRoot tick token any _ _).mod.trans hprep.mod
    have hvalue (n : InstanceNode) (hn : n.mod = t.value.mod) : (t.withValue n).value.mod = t.value.mod := by
      cases t with
      | node => exact hn
    rw [settleLoop]
    split
    · exact (hpass _).trans (hvalue _ rfl)
    · exact (ih _ _ _).trans ((hpass _).trans (hvalue _ rfl))

theorem mod_simulate (tick : UInt64) (seq : Bool) (t : InstanceState) :
    (simulate tick seq t).value.mod = t.value.mod := by
  have hresolve (height : Nat) (t : InstanceState) :
      (combResolve tick height t).1.value.mod = t.value.mod := by
    cases height with
    | zero => rfl
    | succ height =>
      have hloop := mod_settleLoop (combResolve tick height) tick maxIter
        (beginCombResolve t.value.state).1.changeToken (beginCombResolve t.value.state).2
        (t.withValue { t.value with state := (beginCombResolve t.value.state).1 })
      obtain ⟨n, cs⟩ := t
      exact hloop
  have hseq : ((sequentialPass tick seq t).map Prod.fst).value.mod = t.value.mod := by
    obtain ⟨n, cs⟩ := t
    exact (static_sequentialVisit tick seq none n).mod
  have hprev (t : InstanceState) : (updatePrevRecursive t).value.mod = t.value.mod := by
    obtain ⟨n, cs⟩ := t
    rfl
  rw [simulate, hprev, hresolve, hseq]

end Verilog

section Calls

variable {view : NodeId → NodeView} {trDuration : Float} {m : Model} {clip : Clip}

theorem drives_ports {ks : List Nat} {outs : List (Nat × NodeId × LogicT)}
    (houts : ∀ o ∈ outs, ∃ k ∈ ks, m.pin k = some o.2.1) (p q : Nat × NodeId × LogicT → Bool) (clip' : Clip) :
    Drives view m ks
      { clip := clip'
        stores := (outs.filter fun o => !(view o.2.1).analog).map fun o => .update o.2.1 o.2.2
        drive := (((outs.filter p).find? q).or (outs.filter p).head?).map
          fun o => levelDrive clip o.2.2 o.2.1 } where
  stores := by
    intro w hw
    obtain ⟨o, ho, rfl⟩ := mem_map.mp hw
    obtain ⟨hmem, hdigital⟩ := mem_filter.mp ho
    obtain ⟨k, hk, hpin⟩ := houts o hmem
    exact ⟨k, hk, hpin, by simpa [Store.node] using hdigital⟩
  drive := by
    intro d hd
    obtain ⟨o, ho, rfl⟩ := Option.map_eq_some_iff.mp hd
    refine houts o ?_
    rcases Option.or_eq_some_iff.mp ho with hfind | ⟨-, hhead⟩
    · exact (mem_filter.mp (mem_of_find?_eq_some hfind)).1
    · exact (mem_filter.mp (mem_of_head? hhead)).1

variable (method : DigitalUpdateMethod)

theorem drives_updateVerilogModule (hk : m.kind = .verilogModule) :
    Drives view m (m.outPins clip) (updateVerilogModule view method m clip) := by
  cases ht : clip.topInstance with
  | none =>
    simp only [updateVerilogModule, ht]
    exact drives_nothing
  | some t =>
    have hports (tick : UInt64) (before : Bool) (pins : List (Option LogicT)) (o : Nat × NodeId × LogicT)
        (ho : o ∈ drivenPorts m (Verilog.simulate tick before (Verilog.sampleInputs pins t))) :
        ∃ k ∈ m.outPins clip, m.pin k = some o.2.1 := by
      obtain ⟨pk, hpk, hmatch⟩ := mem_filterMap.mp ho
      split at hmatch
      · rename_i n v hn hv
        cases hmatch
        refine ⟨pk.2, ?_, hn⟩
        rw [Verilog.mod_simulate] at hpk
        simp only [Model.outPins, hk, ht, Option.elim_some]
        exact mem_map_of_mem hpk
      · exact absurd hmatch (by simp)
    simp only [updateVerilogModule, ht]
    exact drives_ports (hports _ _ _) _ _ _

theorem drives_updateDigitalClk :
    Drives view m (m.outPins clip) (updateDigitalClk view trDuration method m clip) := by
  have hone (f : LogicT → LogicT) : Drives view m [1] (gate1 view trDuration f m clip) := by
    simp only [gate1]
    split
    · exact drives_gateOutput mem_cons_self ‹_› _
    · exact drives_nothing
  have htwo (f : LogicT → LogicT → LogicT) : Drives view m [2] (gate2 view trDuration f m clip) := by
    simp only [gate2]
    split
    · exact drives_gateOutput mem_cons_self ‹_› _
    · exact drives_nothing
  cases hk : m.kind
  case verilogModule =>
    simp only [updateDigitalClk, hk]
    exact drives_updateVerilogModule method hk
  all_goals simp only [updateDigitalClk, Model.outPins, hk]
  case input =>
    simp only [updateInput]
    split
    · exact drives_gateOutput mem_cons_self ‹_› _
    · exact drives_nothing
  case output =>
    simp only [updateOutput]
    split
    · exact ⟨fun w hw => absurd hw not_mem_nil, fun d hd => absurd hd (by simp)⟩
    · exact drives_nothing
  case eightBitDisplay =>
    exact ⟨fun w hw => absurd hw not_mem_nil, fun d hd => absurd hd (by simp [updateEightBitDisplay])⟩
  case caseEq | isUnknown | schmittTrigger =>
    simp only [updateCaseEq, updateIsUnknown, updateSchmittTrigger]
    split
    · exact drives_changeOutput mem_cons_self ‹_› _ _
    · exact drives_nothing
  case resolve2 | dff | dffArstn | dlatch | tff | tBarFf | jkff =>
    simp only [updateResolve2, updateDff, updateDffArstn, updateDlatch, toggleFf, updateJkff]
    split
    · exact drives_nodeOutput mem_cons_self ‹_› _
    · exact drives_nothing
  case counter4 | randomGenerator4 =>
    simp only [updateCounter4, updateRandomGenerator4]
    split
    · exact drives_nothing
    · exact drives_bitOutputs
  case tri => exact drives_updateTri
  case tickDelay => exact drives_updateTickDelay method
  case eightBitInput => exact drives_updateEightBitInput
  case mul2 => exact drives_updateMul2
  case yes | not => exact hone _
  case verilogPorts | linear | nonLinear => exact drives_nothing
  case halfAdder | fullAdder | halfSub | fullSub => exact drives_block
  all_goals exact htwo _

theorem outPins_updateDigitalClk :
    m.outPins (updateDigitalClk view trDuration method m clip).clip = m.outPins clip := by
  by_cases hk : m.kind = .verilogModule
  · cases ht : clip.topInstance with
    | none => simp only [updateDigitalClk, hk, updateVerilogModule, ht]
    | some t =>
      simp only [updateDigitalClk, Model.outPins, hk, updateVerilogModule, ht, Option.elim_some,
        Verilog.mod_simulate]
      rfl
  · cases hkind : m.kind <;> simp only [Model.outPins, hkind]
    exact absurd hkind hk

end Calls

/-- Whether a call can enter nodes in the table: an input with nothing new does not. -/
def Model.hasNews (m : Model) (clip : Clip) : Bool :=
  match m.kind with
  | .input => decide (clip.last 0 ≠ clip.outputA)
  | .eightBitInput => decide (clip.lastValue ≠ clip.value)
  | _ => true

section Calls

variable {view : NodeId → NodeView} {trDuration : Float} {m : Model} {clip : Clip}

theorem hasNews_of_canEnter (method : DigitalUpdateMethod)
    (hw : w ∈ (updateDigitalClk view trDuration method m clip).stores) (henter : w.canEnter) :
    m.hasNews clip := by
  cases hk : m.kind
  case input =>
    simp only [updateDigitalClk, hk, updateInput] at hw
    split at hw
    · simp only [gateOutput] at hw
      split at hw
      · exact absurd hw not_mem_nil
      · obtain rfl := mem_singleton.mp hw
        simpa [Model.hasNews, hk, Store.canEnter] using henter
    · exact absurd hw not_mem_nil
  case eightBitInput =>
    simp only [updateDigitalClk, hk, updateEightBitInput] at hw
    split at hw
    · rename_i hchanged
      simpa [Model.hasNews, hk] using hchanged
    · exact absurd hw not_mem_nil
  all_goals simp only [Model.hasNews, hk]

theorem hasNews_updateDigitalClk (method : DigitalUpdateMethod)
    (h : m.hasNews (updateDigitalClk view trDuration method m clip).clip) : m.hasNews clip := by
  cases hk : m.kind
  case input =>
    simp only [updateDigitalClk, hk, updateInput] at h
    split at h
    · simp only [gateOutput] at h
      split at h
      · simp [Model.hasNews, hk, Clip.setLast] at h
      · simp [Model.hasNews, hk, Clip.setLast] at h
    · exact h
  case eightBitInput => simp [updateDigitalClk, hk, updateEightBitInput, Model.hasNews] at h
  all_goals simp only [Model.hasNews, hk]

end Calls

namespace Circult

theorem digitalOut_store (c : Circult) (w : Store) : (c.store w).digitalOut = c.digitalOut := by
  cases w with
  | write n v e =>
    simp only [store]
    split
    · rfl
    · rfl
  | update n v =>
    simp only [store]
    split
    · rfl
    · rfl

theorem digitalOut_foldl_store (ws : List Store) :
    ∀ c : Circult, (ws.foldl store c).digitalOut = c.digitalOut := by
  induction ws with
  | nil => exact fun c => rfl
  | cons w ws ih => exact fun c => (ih _).trans (digitalOut_store c w)

variable {n : NodeId} {c : Circult}

theorem tables_store (h : n ∈ (c.store w).tables) :
    n ∈ c.tables ∨ (w.node = n ∧ w.canEnter) := by
  cases w with
  | write m v e =>
    simp only [store] at h
    split at h
    · rename_i he
      rcases mem_enter_tables.mp h with rfl | h
      · exact Or.inr ⟨rfl, he⟩
      · exact Or.inl h
    · exact Or.inl h
  | update m v =>
    simp only [store] at h
    split at h
    · exact Or.inl h
    · rcases mem_enter_tables.mp h with rfl | h
      · exact Or.inr ⟨rfl, rfl⟩
      · exact Or.inl h

theorem tables_foldl_store (ws : List Store) : ∀ {c : Circult},
    n ∈ (ws.foldl store c).tables → n ∈ c.tables ∨ ∃ w ∈ ws, w.node = n ∧ w.canEnter := by
  induction ws with
  | nil => exact fun h => Or.inl h
  | cons w ws ih =>
    intro c h
    rcases ih h with h | ⟨w', hw', hn⟩
    · rcases tables_store h with h | hn
      · exact Or.inl h
      · exact Or.inr ⟨w, mem_cons_self, hn⟩
    · exact Or.inr ⟨w', mem_cons_of_mem _ hw', hn⟩

variable (method : DigitalUpdateMethod)

theorem updateModel_cases (c : Circult) (id : Nat) :
    c.updateModel method id = c ∨ ∃ x ∈ c.board.nl.bases, x.id = id ∧ c.updateModel method id =
      c.afterCall id (updateDigitalClk c.view c.trDuration method x.model (c.clip id)) := by
  cases hm : c.board.modelAt id with
  | none => exact Or.inl (by simp only [updateModel, hm])
  | some m =>
    obtain ⟨x, hx, hid, rfl⟩ := Board.mem_of_modelAt hm
    by_cases hdev : x.model.kind.deviceType = .digital
    · exact Or.inr ⟨x, hx, hid, by simp only [updateModel, hm, hdev, if_true, afterCall]⟩
    · exact Or.inl (by simp only [updateModel, hm, hdev, if_false])

theorem updateModel_of_mem (hw : c.board.Wired) {x : ModelBase}
    (hx : x ∈ c.board.nl.bases) (hdev : x.model.kind.deviceType = .digital) : c.updateModel method x.id =
      c.afterCall x.id (updateDigitalClk c.view c.trDuration method x.model (c.clip x.id)) := by
  simp only [updateModel, Board.modelAt_of_mem hw hx, hdev, if_true, afterCall]

theorem tables_updateModel {method : DigitalUpdateMethod} {id : Nat}
    (h : n ∈ (c.updateModel method id).tables) : n ∈ c.tables ∨ ∃ x ∈ c.board.nl.bases, x.id = id ∧
      x.model.hasNews (c.clip id) ∧ c.board.isAnalog n = false ∧
      ∃ k ∈ x.model.outPins (c.clip id), x.model.pin k = some n := by
  rcases updateModel_cases method c id with hsame | ⟨x, hx, hid, hcall⟩
  · rw [hsame] at h
    exact Or.inl h
  · rw [hcall] at h
    rcases tables_foldl_store _ h with h | ⟨w, hw, rfl, henter⟩
    · exact Or.inl h
    · obtain ⟨k, hk, hpin, hdigital⟩ := (drives_updateDigitalClk method).stores w hw
      exact Or.inr ⟨x, hx, hid, hasNews_of_canEnter method hw henter, hdigital, k, hk, hpin⟩

theorem digitalOut_updateModel (c : Circult) (id : Nat) :
    ∃ d : Option AnalogDrive, (c.updateModel method id).digitalOut = c.digitalOut ++ d.toList ∧
      ∀ e, d = some e → ∃ x ∈ c.board.nl.bases, x.id = id ∧
        ∃ k ∈ x.model.outPins (c.clip id), x.model.pin k = some e.node := by
  rcases updateModel_cases method c id with hsame | ⟨x, hx, hid, hcall⟩
  · exact ⟨none, by simp [hsame], fun e he => absurd he (by simp)⟩
  · refine ⟨(updateDigitalClk c.view c.trDuration method x.model (c.clip id)).drive, ?_,
      fun e he => ⟨x, hx, hid, (drives_updateDigitalClk method).drive e he⟩⟩
    rw [hcall]
    simp only [afterCall, digitalOut_foldl_store]

theorem state_store_of_ne {w : Store} (h : w.node ≠ n) :
    (c.store w).state n = c.state n := by
  cases w with
  | write m v e =>
    simp only [store]
    split
    · exact Function.update_of_ne (Ne.symm h) _ _
    · exact Function.update_of_ne (Ne.symm h) _ _
  | update m v =>
    simp only [store]
    split
    · rfl
    · exact Function.update_of_ne (Ne.symm h) _ _

theorem state_foldl_store_of_ne (ws : List Store) :
    ∀ {c : Circult}, (∀ w ∈ ws, w.node ≠ n) → (ws.foldl store c).state n = c.state n := by
  induction ws with
  | nil => exact fun _ => rfl
  | cons w ws ih =>
    intro c h
    rw [foldl_cons, ih fun w' hw' => h w' (mem_cons_of_mem _ hw'),
      state_store_of_ne (h w mem_cons_self)]

theorem clip_updateModel {method : DigitalUpdateMethod} {id id' : Nat} (h : id' ≠ id) :
    (c.updateModel method id).clip id' = c.clip id' := by
  rcases updateModel_cases method c id with hsame | ⟨x, hx, -, hcall⟩
  · rw [hsame]
  · rw [hcall]
    simp only [afterCall, Function.update_of_ne h, clip_foldl_store]

/-- The circuit when the settle loop of a tick begins. -/
def atLoop (c : Circult) : Circult := { c with digitalOut := [] }.beforeDigitalClk.seedTables

theorem foldl_enter_eq (ns : List NodeId) : ∀ c : Circult, ∃ ts, ns.foldl enter c = { c with tables := ts } ∧
    ∀ m ∈ ts, m ∈ c.tables ∨ m ∈ ns := by
  induction ns with
  | nil => exact fun c => ⟨c.tables, rfl, fun _ hm => Or.inl hm⟩
  | cons n ns ih =>
    intro c
    obtain ⟨ts, heq, hts⟩ := ih (c.enter n)
    refine ⟨ts, heq, fun m hm => ?_⟩
    rcases hts m hm with h | h
    · rcases mem_enter_tables.mp h with rfl | h
      · exact Or.inr mem_cons_self
      · exact Or.inl h
    · exact Or.inr (mem_cons_of_mem _ h)

theorem atLoop_eq (c : Circult) : ∃ ts, c.atLoop = { { c with digitalOut := [] }.beforeDigitalClk with tables := ts } ∧
    ∀ m ∈ ts, m ∈ ({ c with digitalOut := [] }.beforeDigitalClk).tables ∨ m ∈ c.alwaysTables := by
  have hbefore : SameSetup { c with digitalOut := [] } { c with digitalOut := [] }.beforeDigitalClk :=
    .foldl _ (sameSetup_updateModel _) _ _
  rw [atLoop, seedTables, hbefore.alwaysTables]
  exact foldl_enter_eq _ _

theorem digitalClk_eq (c : Circult) : c.digitalClk =
    c.afterAllClk.foldl (Circult.updateModel .afterAllClk) (Circult.settleLoop iterBudget c.atLoop) := by
  have hbefore : SameSetup { c with digitalOut := [] } { c with digitalOut := [] }.beforeDigitalClk :=
    .foldl _ (sameSetup_updateModel _) _ _
  have hafter : (Circult.settleLoop iterBudget c.atLoop).afterAllClk = c.afterAllClk := by
    rw [(sameSetup_settleLoop _ _).afterAllClk, atLoop, seedTables,
      (SameSetup.foldl enter sameSetup_enter _ _).afterAllClk, hbefore.afterAllClk]
  change (Circult.settleLoop iterBudget c.atLoop).afterTableDigitalClk = _
  rw [afterTableDigitalClk, hafter]

theorem digitalClk_eq_settleLoop (h : c.afterAllClk = []) :
    c.digitalClk = Circult.settleLoop iterBudget c.atLoop := by
  rw [digitalClk_eq, h, foldl_nil]

end Circult

end PhyEngine
