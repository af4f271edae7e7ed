import PhyEngine.FileFormat.Codec
import PhyEngine.Verilog.State

/-!
# The run-time state of a Verilog module

`append_instance_tree` and `read_instance_tree` of `pe_nl_fileformat/model_registry.h`. The
reader writes into an instance tree that has been elaborated before, and checks that the
names and the shape it finds are those of the tree.
-/

namespace PhyEngine.FileFormat

open ByteReader Verilog
open UInt64 (ofNat toNat toNat_ofNat_of_lt')

structure MemoState extends ModuleState where
  exprEvalCache : List LogicT := []
  exprEvalMark : List UInt32 := []
  exprEvalToken : UInt32 := 1
  deriving DecidableEq

/-- `instance_state` without its children. Of the module the format keeps the name; `mod` is
`none` for a null pointer. The net drivers and port bindings are not saved. -/
structure InstanceState where
  mod : Option Bytes
  instanceName : Bytes
  state : MemoState := {}
  deriving DecidableEq

def InstanceState.modName (i : InstanceState) : Bytes := i.mod.getD []

mutual

inductive InstanceTree where
  | node (inst : InstanceState) (children : Children)

/-- A vector of owning pointers, some of which may be null. -/
inductive Children where
  | nil
  | null (rest : Children)
  | cons (child : InstanceTree) (rest : Children)

end

def Children.size : Children → Nat
  | nil => 0
  | null rest => rest.size + 1
  | cons _ rest => rest.size + 1

def appendLogicVec (v : List LogicT) : Bytes :=
  appendUleb128 (ofNat v.length) ++ v.flatMap fun x => appendU8 x.toByte

def appendBool (b : Bool) : Bytes := appendU8 (if b then 1 else 0)

def appendSizes (v : List Nat) : Bytes := appendTrivialVector (v.map ofNat)

def appendScheduledEvent (ev : ScheduledEvent) : Bytes :=
  appendTrivial ev.dueTick ++ appendBool ev.nonblocking ++ appendTrivial (ofNat ev.lhsSignal) ++
    appendTrivial (ofNat ev.exprRoot) ++ appendBool ev.isVector ++ appendSizes ev.lhsSignals ++
    appendSizes ev.exprRoots

def appendNba (kv : Nat × LogicT) : Bytes := appendTrivial (ofNat kv.1) ++ appendU8 kv.2.toByte

def appendModuleState (st : MemoState) : Bytes :=
  appendLogicVec st.values ++ appendLogicVec st.prevValues ++ appendLogicVec st.combPrevValues ++
    appendUleb128 (ofNat st.events.length) ++ st.events.flatMap appendScheduledEvent ++
    appendUleb128 (ofNat st.nbaQueue.length) ++ st.nbaQueue.flatMap appendNba ++
    appendLogicVec st.nextNetValues ++ appendTrivialVector st.changeMark ++ appendSizes st.changedSignals ++
    appendTrivial st.changeToken ++ appendLogicVec st.exprEvalCache ++ appendTrivialVector st.exprEvalMark ++
    appendTrivial st.exprEvalToken

mutual

def appendInstanceTree : InstanceTree → Bytes
  | .node inst children =>
    appendString inst.instanceName ++ appendString inst.modName ++ appendModuleState inst.state ++
      appendUleb128 (ofNat children.size) ++ appendChildren children

def appendChildren : Children → Bytes
  | .nil => []
  | .null rest => appendU8 0 ++ appendChildren rest
  | .cons child rest => appendU8 1 ++ appendInstanceTree child ++ appendChildren rest

end

/-- `static_cast<logic_t>` of a byte. Bytes that are no enumerator are never written. -/
def logicOfByte (b : UInt8) : LogicT :=
  if b = 0 then .L else if b = 1 then .H else if b = 2 then .X else .Z

variable (eof : String)

def readLogic : Read LogicT := do
  let b ← next (corrupt eof)
  pure (logicOfByte b)

def readLogicVec : Read (List LogicT) := do
  let n ← readUleb128
  times (readLogic "unexpected EOF while reading logic vector") n.toNat

def readBool : Read Bool := do
  let b ← next (corrupt eof)
  pure (b != 0)

def readSizes : Read (List Nat) := do
  let v ← readTrivialVector UInt64
  pure (v.map toNat)

def readScheduledEvent : Read ScheduledEvent := do
  let dueTick ← readTrivial UInt64
  let nonblocking ← readBool "unexpected EOF reading scheduled_event flags"
  let lhs ← readTrivial UInt64
  let expr ← readTrivial UInt64
  let isVector ← readBool "unexpected EOF reading scheduled_event is_vector"
  let lhsSignals ← readSizes
  let exprRoots ← readSizes
  pure { dueTick, nonblocking, lhsSignal := lhs.toNat, exprRoot := expr.toNat, isVector, lhsSignals, exprRoots }

def readNba : Read (Nat × LogicT) := do
  let sig ← readTrivial UInt64
  let v ← readLogic "unexpected EOF reading nba_queue value"
  pure (sig.toNat, v)

def readModuleState (st : MemoState) : Read MemoState := do
  let values ← readLogicVec
  let prevValues ← readLogicVec
  let combPrevValues ← readLogicVec
  let nEvents ← readUleb128
  let events ← times readScheduledEvent nEvents.toNat
  let nNba ← readUleb128
  let nbaQueue ← times readNba nNba.toNat
  let nextNetValues ← readLogicVec
  let changeMark ← readTrivialVector UInt32
  let changedSignals ← readSizes
  let changeToken ← readTrivial UInt32
  let exprEvalCache ← readLogicVec
  let exprEvalMark ← readTrivialVector UInt32
  let exprEvalToken ← readTrivial UInt32
  pure { st with
    values, prevValues, combPrevValues, events, nbaQueue, nextNetValues, changeMark, changedSignals, changeToken,
    exprEvalCache, exprEvalMark, exprEvalToken }

mutual

def readInstanceTree : InstanceTree → Read InstanceTree
  | .node inst children => do
    let instName ← readString
    let modName ← readString
    check (corrupt "verilog instance_name mismatch") (instName = inst.instanceName)
    check (corrupt "verilog module_name mismatch") (inst.mod.all fun expected => modName = [] ∨ modName = expected)
    let state ← readModuleState inst.state
    let nChildren ← readUleb128
    check (corrupt "verilog instance child_count mismatch") (nChildren.toNat = children.size)
    let children ← readChildren children
    pure (.node { inst with state } children)

/-- The loop over the children: a null pointer has to be absent in the input too. -/
def readChildren : Children → Read Children
  | .nil => pure .nil
  | .null rest => do
    let present ← readBool "unexpected EOF reading verilog child present flag"
    check (corrupt "verilog child presence mismatch") (present = false)
    let rest ← readChildren rest
    pure (.null rest)
  | .cons child rest => do
    let present ← readBool "unexpected EOF reading verilog child present flag"
    check (corrupt "verilog child presence mismatch") (present = true)
    let child ← readInstanceTree child
    let rest ← readChildren rest
    pure (.cons child rest)

end

/-- A vector of elements of `size` bytes that fits into memory. -/
def FitsVec {α : Type} (size : Nat) (v : List α) : Prop := v.length * size < 2 ^ 64

/-- The numbers are `std::size_t`, and so is the size of the vector in bytes. -/
def FitsSizes (v : List Nat) : Prop := FitsVec 8 v ∧ ∀ n ∈ v, n < 2 ^ 64

structure FitsEvent (ev : ScheduledEvent) : Prop where
  lhsSignal : ev.lhsSignal < 2 ^ 64
  exprRoot : ev.exprRoot < 2 ^ 64
  lhsSignals : FitsSizes ev.lhsSignals
  exprRoots : FitsSizes ev.exprRoots

structure FitsState (st : MemoState) : Prop where
  values : FitsVec 1 st.values
  prevValues : FitsVec 1 st.prevValues
  combPrevValues : FitsVec 1 st.combPrevValues
  events : FitsVec 1 st.events
  event : ∀ ev ∈ st.events, FitsEvent ev
  nbaQueue : FitsVec 1 st.nbaQueue
  nba : ∀ kv ∈ st.nbaQueue, kv.1 < 2 ^ 64
  nextNetValues : FitsVec 1 st.nextNetValues
  changeMark : FitsVec 4 st.changeMark
  changedSignals : FitsSizes st.changedSignals
  exprEvalCache : FitsVec 1 st.exprEvalCache
  exprEvalMark : FitsVec 4 st.exprEvalMark

structure FitsInstance (i : InstanceState) : Prop where
  instanceName : FitsVec 1 i.instanceName
  modName : FitsVec 1 i.modName
  state : FitsState i.state

mutual

/-- Everything in the tree is a value of the source's type. -/
def InstanceTree.Fits : InstanceTree → Prop
  | .node inst children => FitsInstance inst ∧ children.size < 2 ^ 64 ∧ children.Fits

def Children.Fits : Children → Prop
  | .nil => True
  | .null rest => rest.Fits
  | .cons child rest => child.Fits ∧ rest.Fits

end

mutual

/-- The trees have the same shape, and `R` holds at every pair of corresponding instances. -/
def InstanceTree.Rel (R : InstanceState → InstanceState → Prop) : InstanceTree → InstanceTree → Prop
  | .node a as, .node b bs => R a b ∧ as.Rel R bs

def Children.Rel (R : InstanceState → InstanceState → Prop) : Children → Children → Prop
  | .nil, .nil => True
  | .null as, .null bs => as.Rel R bs
  | .cons a as, .cons b bs => a.Rel R b ∧ as.Rel R bs
  | _, _ => False

end

def SameNames (a b : InstanceState) : Prop := a.instanceName = b.instanceName ∧ a.modName = b.modName

structure SameSaved (a b : MemoState) : Prop where
  values : a.values = b.values
  prevValues : a.prevValues = b.prevValues
  combPrevValues : a.combPrevValues = b.combPrevValues
  events : a.events = b.events
  nbaQueue : a.nbaQueue = b.nbaQueue
  nextNetValues : a.nextNetValues = b.nextNetValues
  changeMark : a.changeMark = b.changeMark
  changedSignals : a.changedSignals = b.changedSignals
  changeToken : a.changeToken = b.changeToken
  exprEvalCache : a.exprEvalCache = b.exprEvalCache
  exprEvalMark : a.exprEvalMark = b.exprEvalMark
  exprEvalToken : a.exprEvalToken = b.exprEvalToken

theorem decodes_logic (x : LogicT) : Decodes (readLogic eof) (appendU8 x.toByte) x := by
  have h := (decodes_next (corrupt eof) x.toByte).bind_pure (f := logicOfByte)
  have hx : logicOfByte x.toByte = x := by cases x <;> rfl
  rwa [hx] at h

theorem decodes_bool (b : Bool) : Decodes (readBool eof) (appendBool b) b := by
  have h := (decodes_next (corrupt eof) (if b then 1 else 0)).bind_pure (f := fun b => b != 0)
  have hb : ((if b then 1 else 0 : UInt8) != 0) = b := by cases b <;> rfl
  rwa [hb] at h

theorem decodes_logicVec {v : List LogicT} (h : FitsVec 1 v) : Decodes readLogicVec (appendLogicVec v) v := by
  obtain ⟨n, hn, hread⟩ := decodes_size (n := v.length) (by unfold FitsVec at h; omega)
  apply hread.bind
  rw [hn]
  exact decodes_times fun x _ => decodes_logic _ x

theorem decodes_sizes {v : List Nat} (h : FitsSizes v) : Decodes readSizes (appendSizes v) v := by
  have hvec : (v.map ofNat).length * sizeof UInt64 < 2 ^ 64 := by
    rw [List.length_map]
    exact h.1
  have hread := (decodes_trivialVector hvec).bind_pure (f := List.map toNat)
  have hback : (v.map ofNat).map toNat = v := by
    rw [List.map_map]
    refine (List.map_congr_left fun n hn => ?_).trans v.map_id
    exact toNat_ofNat_of_lt' (h.2 n hn)
  rwa [hback] at hread

theorem decodes_scheduledEvent {ev : ScheduledEvent} (h : FitsEvent ev) :
    Decodes readScheduledEvent (appendScheduledEvent ev) ev := by
  simp only [appendScheduledEvent, List.append_assoc]
  apply (decodes_trivial ev.dueTick).bind
  apply (decodes_bool _ ev.nonblocking).bind
  apply (decodes_trivial (ofNat ev.lhsSignal)).bind
  apply (decodes_trivial (ofNat ev.exprRoot)).bind
  apply (decodes_bool _ ev.isVector).bind
  apply (decodes_sizes h.lhsSignals).bind
  rw [toNat_ofNat_of_lt' h.lhsSignal, toNat_ofNat_of_lt' h.exprRoot]
  exact (decodes_sizes h.exprRoots).bind_pure

theorem decodes_nba {kv : Nat × LogicT} (h : kv.1 < 2 ^ 64) : Decodes readNba (appendNba kv) kv := by
  apply (decodes_trivial (ofNat kv.1)).bind
  rw [toNat_ofNat_of_lt' h]
  exact (decodes_logic _ kv.2).bind_pure

theorem decodes_counted {α : Type} {x : Read α} {enc : α → Bytes} {as : List α} (hfit : FitsVec 1 as)
    (h : ∀ a ∈ as, Decodes x (enc a) a) {β : Type} {f : List α → Read β} {cs : Bytes} {b : β}
    (hf : Decodes (f as) cs b) :
    Decodes (readUleb128 >>= fun n => times x n.toNat >>= f)
      (appendUleb128 (ofNat as.length) ++ (as.flatMap enc ++ cs)) b := by
  obtain ⟨n, hn, hread⟩ := decodes_size (n := as.length) (by unfold FitsVec at hfit; omega)
  apply hread.bind
  rw [hn]
  exact (decodes_times h).bind hf

def MemoState.restoreInto (st st0 : MemoState) : MemoState :=
  { st with combInitialized := st0.combInitialized
            initialRan := st0.initialRan
            initialBaseTick := st0.initialBaseTick }

theorem sameSaved_restoreInto (st st0 : MemoState) : SameSaved st (st.restoreInto st0) := by
  constructor <;> rfl

theorem decodes_moduleState {st : MemoState} (h : FitsState st) (st0 : MemoState) :
    Decodes (readModuleState st0) (appendModuleState st) (st.restoreInto st0) := by
  simp only [appendModuleState, List.append_assoc]
  apply (decodes_logicVec h.values).bind
  apply (decodes_logicVec h.prevValues).bind
  apply (decodes_logicVec h.combPrevValues).bind
  apply decodes_counted h.events fun ev hev => decodes_scheduledEvent (h.event ev hev)
  apply decodes_counted h.nbaQueue fun kv hkv => decodes_nba (h.nba kv hkv)
  apply (decodes_logicVec h.nextNetValues).bind
  apply (decodes_trivialVector h.changeMark).bind
  apply (decodes_sizes h.changedSignals).bind
  apply (decodes_trivial st.changeToken).bind
  apply (decodes_logicVec h.exprEvalCache).bind
  apply (decodes_trivialVector h.exprEvalMark).bind
  exact (decodes_trivial st.exprEvalToken).bind_pure

theorem Children.Rel.size_eq {R : InstanceState → InstanceState → Prop} :
    ∀ {as bs : Children}, as.Rel R bs → as.size = bs.size
  | .nil, .nil, _ => rfl
  | .null as, .null bs, h => by
    rw [Children.Rel] at h
    rw [Children.size, Children.size, h.size_eq]
  | .cons _ as, .cons _ bs, h => by
    rw [Children.Rel] at h
    rw [Children.size, Children.size, h.2.size_eq]

theorem all_mod_of_modName {i j : InstanceState} (h : j.modName = i.modName) :
    (i.mod.all fun expected => j.modName = [] ∨ j.modName = expected) = true := by
  rw [h]
  cases hm : i.mod with
  | none => rfl
  | some name => simp [InstanceState.modName, hm]

def SameInstance (a b : InstanceState) : Prop := SameNames a b ∧ SameSaved a.state b.state

mutual

theorem decodes_instanceTree : ∀ (t t0 : InstanceTree), t.Fits → t.Rel SameNames t0 →
    ∃ t1, Decodes (readInstanceTree t0) (appendInstanceTree t) t1 ∧ t.Rel SameInstance t1
  | .node inst children, .node inst0 children0, hfit, hrel => by
    obtain ⟨hinst, hsize, hchildren⟩ := hfit
    obtain ⟨⟨hname, hmod⟩, hsub⟩ := hrel
    obtain ⟨children1, hread, hsame⟩ := decodes_children children children0 hchildren hsub
    refine ⟨.node { inst0 with state := inst.state.restoreInto inst0.state } children1, ?_, ?_⟩
    · obtain ⟨n, hn, hcount⟩ := decodes_size hsize
      simp only [appendInstanceTree, readInstanceTree, List.append_assoc]
      apply (decodes_string (by have := hinst.instanceName; unfold FitsVec at this; omega)).bind
      apply (decodes_string (by have := hinst.modName; unfold FitsVec at this; omega)).bind
      apply Decodes.check_bind hname
      apply Decodes.check_bind (all_mod_of_modName hmod)
      apply (decodes_moduleState hinst.state inst0.state).bind
      apply hcount.bind
      apply Decodes.check_bind (hn.trans hsub.size_eq)
      exact hread.bind_pure
    · exact ⟨⟨⟨hname, hmod⟩, sameSaved_restoreInto inst.state inst0.state⟩, hsame⟩

theorem decodes_children : ∀ (cs cs0 : Children), cs.Fits → cs.Rel SameNames cs0 →
    ∃ cs1, Decodes (readChildren cs0) (appendChildren cs) cs1 ∧ cs.Rel SameInstance cs1
  | .nil, .nil, _, _ => ⟨.nil, decodes_pure _, trivial⟩
  | .null rest, .null rest0, hfit, hrel => by
    obtain ⟨rest1, hread, hsame⟩ := decodes_children rest rest0 hfit hrel
    refine ⟨.null rest1, ?_, hsame⟩
    simp only [appendChildren, readChildren]
    apply (decodes_bool _ false).bind
    apply Decodes.check_bind rfl
    exact hread.bind_pure
  | .cons child rest, .cons child0 rest0, hfit, hrel => by
    obtain ⟨child1, hchild, hsame⟩ := decodes_instanceTree child child0 hfit.1 hrel.1
    obtain ⟨rest1, hrest, hsames⟩ := decodes_children rest rest0 hfit.2 hrel.2
    refine ⟨.cons child1 rest1, ?_, hsame, hsames⟩
    simp only [appendChildren, readChildren, List.append_assoc]
    apply (decodes_bool _ true).bind
    apply Decodes.check_bind rfl
    apply hchild.bind
    exact hrest.bind_pure

end

/-- A saved tree is read back, whatever follows it, into every tree of its shape and names. -/
theorem readInstanceTree_append (t t0 : InstanceTree) (r : Bytes) (hfit : t.Fits) (hshape : t.Rel SameNames t0) :
    ∃ t1, readInstanceTree t0 (appendInstanceTree t ++ r) 0 = .ok (t1, (appendInstanceTree t).length) ∧
      t.Rel SameInstance t1 := by
  obtain ⟨t1, hread, hsame⟩ := decodes_instanceTree t t0 hfit hshape
  exact ⟨t1, hread.run r, hsame⟩

/-- An instance `u` of module `m` with a pending event, in a top module with a null child. -/
def exampleTree (st : MemoState) : InstanceTree :=
  .node ⟨some [116], [], {}⟩ (.null (.cons (.node ⟨some [109], [117], st⟩ .nil) .nil))

def exampleState : MemoState :=
  { values := [.H, .Z], events := [{ dueTick := 3, nonblocking := true, lhsSignal := 1, exprRoot := 4 }],
    nbaQueue := [(0, .L)], changeMark := [7, 300], changedSignals := [1], changeToken := 300 }

theorem fits_exampleTree : (exampleTree exampleState).Fits := by
  have hstate : FitsState exampleState := by
    constructor <;> simp [exampleState, FitsVec, FitsSizes]
    constructor <;> simp [FitsVec, FitsSizes]
  have hempty : FitsState {} := by
    constructor <;> simp [FitsVec, FitsSizes]
  have hnames : FitsVec 1 ([116] : Bytes) ∧ FitsVec 1 ([109] : Bytes) ∧ FitsVec 1 ([117] : Bytes) ∧
      FitsVec 1 ([] : Bytes) := by
    simp [FitsVec]
  refine ⟨⟨hnames.2.2.2, hnames.1, hempty⟩, ?_, ⟨⟨hnames.2.2.1, hnames.2.1, hstate⟩, ?_, trivial⟩, trivial⟩
  · show 2 < 2 ^ 64
    omega
  · show 0 < 2 ^ 64
    omega

theorem readInstanceTree_append_exampleTree :
    ∃ t1, readInstanceTree (exampleTree {}) (appendInstanceTree (exampleTree exampleState) ++ [255]) 0 =
        .ok (t1, (appendInstanceTree (exampleTree exampleState)).length) ∧
      (exampleTree exampleState).Rel SameInstance t1 :=
  readInstanceTree_append _ _ [255] fits_exampleTree ⟨⟨rfl, rfl⟩, ⟨⟨rfl, rfl⟩, trivial⟩, trivial⟩

end PhyEngine.FileFormat
