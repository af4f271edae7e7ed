import PhyEngine.FileFormat.VerilogState

/-!
# Records of the database

The byte strings that `save_to_leveldb` stores and `load_from_leveldb` reads: attributes,
environment, analyzer settings, runtime data, nodes, wrappers and pins. Floating-point
numbers are given by their bits.
-/

namespace PhyEngine.FileFormat

open ByteReader

def parse {α : Type} (x : Read α) (bs : Bytes) : Except Status α := do
  let p ← x bs 0
  pure p.1

def parseAll {α : Type} (trailing : String) (x : Read α) (bs : Bytes) : Except Status α := do
  let p ← x bs 0
  if p.2 ≠ bs.length then .error (corrupt trailing) else .ok p.1

variable {bs : Bytes}

variable {α : Type} {a : α} {x : Read α}

theorem parse_eq (h : Decodes x bs a) : parse x bs = .ok a := by
  have hrun := h.run []
  rw [List.append_nil] at hrun
  rw [parse, hrun]
  rfl

theorem parseAll_eq (h : Decodes x bs a) (trailing : String) :
    parseAll trailing x bs = .ok a := by
  have hrun := h.run []
  rw [List.append_nil] at hrun
  rw [parseAll, hrun]
  exact if_neg (not_not_intro rfl)

abbrev Double := UInt64

def appendF64 (x : Double) : Bytes := appendTrivial x

def readF64 : Read Double := readTrivial UInt64

theorem decodes_f64 (x : Double) : Decodes readF64 (appendF64 x) x := decodes_trivial x

instance : TriviallyCopyable UInt8 where
  sizeof := 1
  toBytes v := [v]
  ofBytes bs := bs.headD 0
  sizeof_pos := by omega
  length_toBytes _ := rfl
  ofBytes_toBytes _ := rfl

instance : TriviallyCopyable UInt16 where
  sizeof := 2
  toBytes v := leBytes 2 v.toNat
  ofBytes bs := UInt16.ofNat (ofLeBytes bs)
  sizeof_pos := by omega
  length_toBytes v := length_leBytes 2 v.toNat
  ofBytes_toBytes v := by rw [ofLeBytes_leBytes v.toNat_lt, UInt16.ofNat_toNat]

/-- `variant`. Signed numbers are given by their bits too. -/
inductive Variant where
  | invalid
  | i8 (v : UInt8)
  | i16 (v : UInt16)
  | i32 (v : UInt32)
  | i64 (v : UInt64)
  | ui8 (v : UInt8)
  | ui16 (v : UInt16)
  | ui32 (v : UInt32)
  | ui64 (v : UInt64)
  | boolean (b : Bool)
  | f (bits : UInt32)
  | d (bits : Double)
  | digital (v : LogicT)
  deriving DecidableEq

def appendVariant : Variant → Bytes
  | .invalid => appendU8 0
  | .i8 v => appendU8 1 ++ appendTrivial v
  | .i16 v => appendU8 2 ++ appendTrivial v
  | .i32 v => appendU8 3 ++ appendTrivial v
  | .i64 v => appendU8 4 ++ appendTrivial v
  | .ui8 v => appendU8 5 ++ appendTrivial v
  | .ui16 v => appendU8 6 ++ appendTrivial v
  | .ui32 v => appendU8 7 ++ appendTrivial v
  | .ui64 v => appendU8 8 ++ appendTrivial v
  | .boolean b => appendU8 9 ++ appendBool b
  | .f bits => appendU8 10 ++ appendTrivial bits
  | .d bits => appendU8 11 ++ appendF64 bits
  | .digital v => appendU8 12 ++ appendU8 v.toByte

def readVariantMember (type : UInt8) : Read Variant :=
  if type = 1 then Variant.i8 <$> readTrivial UInt8
  else if type = 2 then Variant.i16 <$> readTrivial UInt16
  else if type = 3 then Variant.i32 <$> readTrivial UInt32
  else if type = 4 then Variant.i64 <$> readTrivial UInt64
  else if type = 5 then Variant.ui8 <$> readTrivial UInt8
  else if type = 6 then Variant.ui16 <$> readTrivial UInt16
  else if type = 7 then Variant.ui32 <$> readTrivial UInt32
  else if type = 8 then Variant.ui64 <$> readTrivial UInt64
  else if type = 9 then Variant.boolean <$> readBool "unexpected EOF reading bool"
  else if type = 10 then Variant.f <$> readTrivial UInt32
  else if type = 11 then Variant.d <$> readF64
  else if type = 12 then Variant.digital <$> readLogic "unexpected EOF reading digital"
  else pure .invalid

def readVariant : Read Variant := do
  let type ← next (corrupt "unexpected EOF reading variant type")
  readVariantMember type

theorem Decodes.map {β : Type} (h : Decodes x bs a) (f : α → β) :
    Decodes (f <$> x) bs (f a) := by
  rw [map_eq_pure_bind]
  exact h.bind_pure

theorem decodes_variant (v : Variant) : Decodes readVariant (appendVariant v) v := by
  have hread {type : UInt8} {bs : Bytes} (h : Decodes (readVariantMember type) bs v) :
      Decodes readVariant (appendU8 type ++ bs) v := (decodes_next _ type).bind h
  cases v with
  | invalid =>
    have hnone : Decodes (readVariantMember 0) [] .invalid := decodes_pure _
    exact hread hnone
  | i8 v | i16 v | i32 v | i64 v | ui8 v | ui16 v | ui32 v | ui64 v | f v | d v =>
    exact hread (Decodes.map (decodes_trivial v) _)
  | boolean b => exact hread (Decodes.map (decodes_bool _ b) _)
  | digital v => exact hread (Decodes.map (decodes_logic _ v) _)

def kMaxScan : Nat := 512

def kMaxConsecutiveEmpty : Nat := 64

/-- The scan of `encode_attributes` over `n` more indices from `idx` on: those with a name. After
a name, a long run without names ends the scan. -/
def scanAttributes (name : Nat → Bytes) : Nat → Nat → Bool → Nat → List Nat
  | 0, _, _, _ => []
  | n + 1, idx, seenAny, emptyRun =>
    if name idx = [] then
      if seenAny then
        if kMaxConsecutiveEmpty ≤ emptyRun + 1 then [] else scanAttributes name n (idx + 1) seenAny (emptyRun + 1)
      else scanAttributes name n (idx + 1) seenAny emptyRun
    else idx :: scanAttributes name n (idx + 1) true 0

def attributeIndices (name : Nat → Bytes) : List Nat := scanAttributes name kMaxScan 0 false 0

structure AttributeRecord where
  idx : Nat
  name : Bytes
  value : Variant
  deriving DecidableEq

def appendAttribute (a : AttributeRecord) : Bytes :=
  appendUleb128 (UInt64.ofNat a.idx) ++ appendString a.name ++ appendVariant a.value

def encodeAttributes (name : Nat → Bytes) (value : Nat → Variant) : Bytes :=
  let records := (attributeIndices name).map fun idx => ⟨idx, name idx, value idx⟩
  appendUleb128 (UInt64.ofNat records.length) ++ records.flatMap appendAttribute

def readAttribute : Read AttributeRecord := do
  let idx ← readUleb128
  let name ← readString
  let value ← readVariant
  pure ⟨idx.toNat, name, value⟩

def readAttributes : Read (List AttributeRecord) := do
  let count ← readUleb128
  times readAttribute count.toNat

theorem scanAttributes_le (name : Nat → Bytes) (n idx : Nat) (seenAny : Bool) (emptyRun : Nat) :
    (scanAttributes name n idx seenAny emptyRun).length ≤ n ∧
      ∀ i ∈ scanAttributes name n idx seenAny emptyRun, i < idx + n := by
  induction n generalizing idx seenAny emptyRun with
  | zero => exact ⟨Nat.le_refl 0, fun i hi => by cases hi⟩
  | succ n ih =>
    rw [scanAttributes]
    have hskip (b : Bool) (r : Nat) : (scanAttributes name n (idx + 1) b r).length ≤ n + 1 ∧
        ∀ i ∈ scanAttributes name n (idx + 1) b r, i < idx + (n + 1) := by
      obtain ⟨hlen, hlt⟩ := ih (idx + 1) b r
      refine ⟨by omega, fun i hi => ?_⟩
      have := hlt i hi
      omega
    split_ifs
    · exact ⟨Nat.zero_le _, fun i hi => by cases hi⟩
    · exact hskip _ _
    · exact hskip _ _
    · obtain ⟨hlen, hlt⟩ := ih (idx + 1) true 0
      refine ⟨by rw [List.length_cons]; omega, List.forall_mem_cons.mpr ⟨by omega, fun i hi => ?_⟩⟩
      have := hlt i hi
      omega

theorem decodes_attribute {a : AttributeRecord} (hidx : a.idx < 2 ^ 64) (hname : a.name.length < 2 ^ 64) :
    Decodes readAttribute (appendAttribute a) a := by
  obtain ⟨j, hj, hread⟩ := decodes_size hidx
  rw [appendAttribute, List.append_assoc]
  apply hread.bind
  apply (decodes_string hname).bind
  rw [hj]
  exact (decodes_variant a.value).bind_pure

theorem decodes_attributes {name : Nat → Bytes} (value : Nat → Variant) (hname : ∀ i, (name i).length < 2 ^ 64) :
    Decodes readAttributes (encodeAttributes name value)
      ((attributeIndices name).map fun idx => ⟨idx, name idx, value idx⟩) := by
  obtain ⟨hlen, hlt⟩ := scanAttributes_le name kMaxScan 0 false 0
  rw [← attributeIndices] at hlen hlt
  have hk : kMaxScan = 512 := rfl
  obtain ⟨n, hn, hread⟩ := decodes_size (n := ((attributeIndices name).map fun idx =>
    (⟨idx, name idx, value idx⟩ : AttributeRecord)).length) (by rw [List.length_map]; omega)
  apply hread.bind
  rw [hn]
  refine decodes_times fun a ha => ?_
  obtain ⟨i, hi, rfl⟩ := List.mem_map.mp ha
  have hi' := hlt i hi
  exact decodes_attribute (Nat.lt_trans hi' (by omega)) (hname i)

structure Environment where
  vEpsMax : Double
  vEpsrMax : Double
  iEpsMax : Double
  iEpsrMax : Double
  chargeEpsMax : Double
  gMin : Double
  rOpen : Double
  tToef : Double
  temperature : Double
  normTemperature : Double
  deriving DecidableEq

def encodeEnvironment (e : Environment) : Bytes :=
  appendF64 e.vEpsMax ++ (appendF64 e.vEpsrMax ++ (appendF64 e.iEpsMax ++ (appendF64 e.iEpsrMax ++
    (appendF64 e.chargeEpsMax ++ (appendF64 e.gMin ++ (appendF64 e.rOpen ++ (appendF64 e.tToef ++
      (appendF64 e.temperature ++ appendF64 e.normTemperature))))))))

def readEnvironment : Read Environment := do
  let vEpsMax ← readF64
  let vEpsrMax ← readF64
  let iEpsMax ← readF64
  let iEpsrMax ← readF64
  let chargeEpsMax ← readF64
  let gMin ← readF64
  let rOpen ← readF64
  let tToef ← readF64
  let temperature ← readF64
  let normTemperature ← readF64
  pure { vEpsMax, vEpsrMax, iEpsMax, iEpsrMax, chargeEpsMax, gMin, rOpen, tToef, temperature, normTemperature }

def decodeEnvironment (bs : Bytes) : Except Status Environment :=
  parseAll "trailing bytes in environment" readEnvironment bs

theorem decodeEnvironment_encode (e : Environment) : decodeEnvironment (encodeEnvironment e) = .ok e := by
  apply parseAll_eq
  apply (decodes_f64 e.vEpsMax).bind
  apply (decodes_f64 e.vEpsrMax).bind
  apply (decodes_f64 e.iEpsMax).bind
  apply (decodes_f64 e.iEpsrMax).bind
  apply (decodes_f64 e.chargeEpsMax).bind
  apply (decodes_f64 e.gMin).bind
  apply (decodes_f64 e.rOpen).bind
  apply (decodes_f64 e.tToef).bind
  apply (decodes_f64 e.temperature).bind
  exact (decodes_f64 e.normTemperature).bind_pure

inductive SweepType where
  | single
  | linear
  | log
  deriving DecidableEq

def SweepType.toByte : SweepType → UInt8
  | .single => 0
  | .linear => 1
  | .log => 2

/-- `static_cast<sweep_type>`. Bytes that are no enumerator are never written. -/
def SweepType.ofByte (b : UInt8) : SweepType := if b = 0 then .single else if b = 1 then .linear else .log

structure AnalyzerStorage where
  sweep : SweepType
  omega : Double
  omegaStart : Double
  omegaStop : Double
  points : UInt64
  currentOmega : Double
  tStop : Double
  tStep : Double
  deriving DecidableEq

def encodeAnalyzer (a : AnalyzerStorage) : Bytes :=
  appendU8 a.sweep.toByte ++ (appendF64 a.omega ++ (appendF64 a.omegaStart ++ (appendF64 a.omegaStop ++
    (appendUleb128 a.points ++ (appendF64 a.currentOmega ++ (appendF64 a.tStop ++ appendF64 a.tStep))))))

def readAnalyzer : Read AnalyzerStorage := do
  let sweep ← next (corrupt "unexpected EOF reading analyzer sweep")
  let omega ← readF64
  let omegaStart ← readF64
  let omegaStop ← readF64
  let points ← readUleb128
  let currentOmega ← readF64
  let tStop ← readF64
  let tStep ← readF64
  pure { sweep := .ofByte sweep, omega, omegaStart, omegaStop, points, currentOmega, tStop, tStep }

def decodeAnalyzer (bs : Bytes) : Except Status AnalyzerStorage :=
  parseAll "trailing bytes in analyzer" readAnalyzer bs

theorem decodeAnalyzer_encode (a : AnalyzerStorage) : decodeAnalyzer (encodeAnalyzer a) = .ok a := by
  have hsweep : SweepType.ofByte a.sweep.toByte = a.sweep := by cases a.sweep <;> rfl
  apply parseAll_eq
  apply (decodes_next _ a.sweep.toByte).bind
  rw [hsweep]
  apply (decodes_f64 a.omega).bind
  apply (decodes_f64 a.omegaStart).bind
  apply (decodes_f64 a.omegaStop).bind
  apply (decodes_uleb128 a.points).bind
  apply (decodes_f64 a.currentOmega).bind
  apply (decodes_f64 a.tStop).bind
  exact (decodes_f64 a.tStep).bind_pure

inductive AnalyzeType where
  | op
  | dc
  | ac
  | acop
  | tr
  | trop
  deriving DecidableEq

def AnalyzeType.toCode : AnalyzeType → UInt32
  | .op => 0
  | .dc => 1
  | .ac => 2
  | .acop => 3
  | .tr => 4
  | .trop => 5

def AnalyzeType.ofCode (c : UInt32) : AnalyzeType :=
  if c = 0 then .op else if c = 1 then .dc else if c = 2 then .ac else if c = 3 then .acop else if c = 4 then .tr
  else .trop

theorem AnalyzeType.ofCode_toCode (a : AnalyzeType) : ofCode a.toCode = a := by
  cases a <;> rfl

inductive CudaSolvePolicy where
  | autoSelect
  | forceCpu
  | forceCuda
  deriving DecidableEq

def CudaSolvePolicy.toByte : CudaSolvePolicy → UInt8
  | .autoSelect => 0
  | .forceCpu => 1
  | .forceCuda => 2

def CudaSolvePolicy.ofByte (b : UInt8) : CudaSolvePolicy :=
  if b = 0 then .autoSelect else if b = 1 then .forceCpu else .forceCuda

structure RuntimeBasic where
  hasPrepare : Bool
  trDuration : Double
  lastStep : Double
  cudaPolicy : CudaSolvePolicy
  cudaNodeThreshold : UInt64
  deriving DecidableEq

def encodeRuntime (r : RuntimeBasic) : Bytes :=
  appendBool r.hasPrepare ++ (appendF64 r.trDuration ++ (appendF64 r.lastStep ++ (appendU8 r.cudaPolicy.toByte ++
    appendUleb128 r.cudaNodeThreshold)))

def readRuntime : Read RuntimeBasic := do
  let hasPrepare ← readBool "runtime/basic too short"
  let trDuration ← readF64
  let lastStep ← readF64
  let policy ← next (corrupt "runtime/basic missing cuda_policy")
  let cudaNodeThreshold ← readUleb128
  pure { hasPrepare, trDuration, lastStep, cudaPolicy := .ofByte policy, cudaNodeThreshold }

theorem parse_encodeRuntime (r : RuntimeBasic) : parse readRuntime (encodeRuntime r) = .ok r := by
  have hpolicy : CudaSolvePolicy.ofByte r.cudaPolicy.toByte = r.cudaPolicy := by cases r.cudaPolicy <;> rfl
  apply parse_eq
  apply (decodes_bool _ r.hasPrepare).bind
  apply (decodes_f64 r.trDuration).bind
  apply (decodes_f64 r.lastStep).bind
  apply (decodes_next _ r.cudaPolicy.toByte).bind
  rw [hpolicy]
  exact (decodes_uleb128 r.cudaNodeThreshold).bind_pure

/-- `node_information` with the counter that says which member is in use. -/
structure NodeState where
  numOfAnalogNode : UInt64
  real : Double
  imag : Double
  state : LogicT
  deriving DecidableEq

/-- The value of a node: the voltage of an analog one, the state of a digital one. -/
def encodeNodeState (n : NodeState) : Bytes :=
  let isAnalog := n.numOfAnalogNode ≠ 0
  appendBool isAnalog ++ ((if isAnalog then appendF64 n.real ++ appendF64 n.imag else appendU8 n.state.toByte) ++
    appendUleb128 n.numOfAnalogNode)

/-- A saved value: a voltage or a state. The other one is the default. -/
structure SavedNode where
  real : Double := 0
  imag : Double := 0
  state : LogicT := .L
  deriving DecidableEq

def readNodeValue (isAnalog : Bool) : Read SavedNode :=
  if isAnalog then do
    let real ← readF64
    let imag ← readF64
    pure { real, imag }
  else do
    let state ← readLogic "node state missing digital"
    pure { state }

def readNodeState : Read SavedNode := do
  let isAnalog ← readBool "node state too short"
  let saved ← readNodeValue isAnalog
  let _ ← readUleb128
  pure saved

def NodeState.saved (n : NodeState) : SavedNode :=
  if n.numOfAnalogNode ≠ 0 then { real := n.real, imag := n.imag } else { state := n.state }

theorem parseAll_encodeNodeState (n : NodeState) (trailing : String) :
    parseAll trailing readNodeState (encodeNodeState n) = .ok n.saved := by
  apply parseAll_eq
  rw [encodeNodeState, NodeState.saved]
  apply (decodes_bool _ _).bind
  by_cases h : n.numOfAnalogNode ≠ 0
  · rw [if_pos h, if_pos h, decide_eq_true h, List.append_assoc]
    have hvalue : Decodes (readNodeValue true) (appendF64 n.real ++ appendF64 n.imag)
        { real := n.real, imag := n.imag } :=
      (decodes_f64 n.real).bind (decodes_f64 n.imag).bind_pure
    rw [← List.append_assoc]
    apply hvalue.bind
    exact (decodes_uleb128 n.numOfAnalogNode).bind_pure (f := fun _ => _)
  · rw [if_neg h, if_neg h, decide_eq_false h]
    have hvalue : Decodes (readNodeValue false) (appendU8 n.state.toByte) { state := n.state } :=
      (decodes_logic _ n.state).bind_pure
    apply hvalue.bind
    exact (decodes_uleb128 n.numOfAnalogNode).bind_pure (f := fun _ => _)

def readGround : Read (Double × Double) := do
  let re ← readF64
  let im ← readF64
  pure (re, im)

theorem parse_readGround (re im : Double) : parse readGround (appendF64 re ++ appendF64 im) = .ok (re, im) := by
  apply parse_eq
  apply (decodes_f64 re).bind
  exact (decodes_f64 im).bind_pure

/-- The members of `model_base` that are stored. -/
structure Wrapper where
  identification : UInt64
  hasInit : Bool
  name : Bytes
  describe : Bytes
  deriving DecidableEq

def encodeWrapper (w : Wrapper) : Bytes :=
  appendUleb128 w.identification ++ (appendBool w.hasInit ++ (appendString w.name ++ appendString w.describe))

def readWrapper : Read Wrapper := do
  let identification ← readUleb128
  let hasInit ← readBool "wrapper missing has_init"
  let name ← readString
  let describe ← readString
  pure { identification, hasInit, name, describe }

theorem parseAll_encodeWrapper {w : Wrapper} (hname : w.name.length < 2 ^ 64) (hdescribe : w.describe.length < 2 ^ 64)
    (trailing : String) : parseAll trailing readWrapper (encodeWrapper w) = .ok w := by
  apply parseAll_eq
  apply (decodes_uleb128 w.identification).bind
  apply (decodes_bool _ w.hasInit).bind
  apply (decodes_string hname).bind
  exact (decodes_string hdescribe).bind_pure

def kNodeNull : UInt64 := UInt64.ofNat (2 ^ 64 - 1)

def kNodeGround : UInt64 := UInt64.ofNat (2 ^ 64 - 2)

def encodePins (ids : List UInt64) : Bytes :=
  appendUleb128 (UInt64.ofNat ids.length) ++ ids.flatMap appendTrivial

def readPinId (nodeCount : UInt64) : Read UInt64 := do
  let idv ← readTrivial UInt64
  check (corrupt "invalid node id in pin mapping") (idv = kNodeNull ∨ idv = kNodeGround ∨ idv < nodeCount)
  pure idv

def readPins (size : Nat) (nodeCount : UInt64) : Read (List UInt64) := do
  let pcount ← readUleb128
  check (corrupt "pin count mismatch") (pcount.toNat = size)
  times (readPinId nodeCount) size

theorem parseAll_encodePins {ids : List UInt64} {nodeCount : UInt64} (hlen : ids.length < 2 ^ 64)
    (hids : ∀ i ∈ ids, i = kNodeNull ∨ i = kNodeGround ∨ i < nodeCount) (trailing : String) :
    parseAll trailing (readPins ids.length nodeCount) (encodePins ids) = .ok ids := by
  apply parseAll_eq
  obtain ⟨n, hn, hread⟩ := decodes_size hlen
  apply hread.bind
  apply Decodes.check_bind hn
  refine decodes_times fun i hi => ?_
  have hid : Decodes (readPinId nodeCount) (appendTrivial i ++ []) i :=
    (decodes_trivial i).bind (Decodes.check_bind (hids i hi) (decodes_pure i))
  rwa [List.append_nil] at hid

theorem parseAll_pinCount_mismatch {ids : List UInt64} {size : Nat} (hlen : ids.length < 2 ^ 64)
    (hsize : ids.length ≠ size) (nodeCount : UInt64) (trailing : String) :
    parseAll trailing (readPins size nodeCount) (encodePins ids) = .error (corrupt "pin count mismatch") := by
  obtain ⟨n, hn, hread⟩ := decodes_size hlen
  have hrun := hread.run (ids.flatMap appendTrivial)
  have hne : ¬n.toNat = size := by rwa [hn]
  rw [← encodePins] at hrun
  have herr : readPins size nodeCount (encodePins ids) 0 = .error (corrupt "pin count mismatch") := by
    show (readUleb128 (encodePins ids) 0 >>= fun p =>
      (check (corrupt "pin count mismatch") (p.1.toNat = size) >>= fun _ =>
      times (readPinId nodeCount) size) (encodePins ids) p.2) = _
    rw [hrun]
    show ((check (corrupt "pin count mismatch") (n.toNat = size) (encodePins ids) _) >>= fun p =>
      times (readPinId nodeCount) size (encodePins ids) p.2) = _
    rw [check, if_neg hne]
    rfl
  rw [parseAll, herr]
  rfl

end PhyEngine.FileFormat
