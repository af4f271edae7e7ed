import PhyEngine.FileFormat.SaveLoad

/-!
# Codecs of model types

`save_state` and `load_state` of `pe_nl_fileformat/model_registry.h`. The objects of most
model types are copied byte by byte, pins included; the BSIM3v32 transistors up to their
internal nodes. A `VERILOG_MODULE` is compiled again from its source.
-/

namespace PhyEngine.FileFormat

open ByteReader

variable {T : ModelType}

def asciiBytes (s : String) : Bytes := s.toList.map Char.toUInt8

/-- The bytes of the objects of a trivially copyable type. `Stored` are the objects that memory
can hold. Copying its bytes gives an object its value. -/
structure Layout (T : ModelType) where
  size : UInt64
  align : UInt64
  Stored : Object T → Prop
  toBytes : Object T → Bytes
  ofBytes : Bytes → Object T
  length_toBytes : ∀ o, (toBytes o).length = size.toNat
  ofBytes_toBytes : ∀ o, Stored o → ofBytes (toBytes o) = o

def saveTrivialRaw (L : Layout T) (o : Object T) : Except Status Bytes :=
  .ok (appendUleb128 L.size ++ (appendUleb128 L.align ++ L.toBytes o))

def readTrivialRaw (L : Layout T) : Read (Object T) := do
  let sz ← readUleb128
  let al ← readUleb128
  check ⟨.unsupported, "model raw state ABI mismatch"⟩ (sz = L.size ∧ al = L.align)
  let bs ← takeRest (corrupt "model raw state length mismatch") L.size.toNat
  pure (L.ofBytes bs)

def loadTrivialRaw (L : Layout T) (_ : Object T) (bs : Bytes) : Except Status (Object T) := parse (readTrivialRaw L) bs

def rawCodec (L : Layout T) : Codec T := ⟨saveTrivialRaw L, loadTrivialRaw L⟩

theorem loadTrivialRaw_save (L : Layout T) {o : Object T} (ho : L.Stored o) (o₀ : Object T) :
    ∃ bs, saveTrivialRaw L o = .ok bs ∧ loadTrivialRaw L o₀ bs = .ok o := by
  refine ⟨_, rfl, ?_⟩
  have hbytes : DecodesLast (takeRest (corrupt "model raw state length mismatch") L.size.toNat >>= fun bs =>
      pure (L.ofBytes bs)) (L.toBytes o) (L.ofBytes (L.toBytes o)) :=
    (decodesLast_takeRest _ (L.length_toBytes o)).bind_pure
  have hread := (decodes_uleb128 L.size).bind_last (f := fun sz => (readUleb128 >>= fun al =>
    check ⟨.unsupported, "model raw state ABI mismatch"⟩ (sz = L.size ∧ al = L.align) >>= fun _ => _))
    ((decodes_uleb128 L.align).bind_last (DecodesLast.check_bind ⟨rfl, rfl⟩ hbytes))
  rw [L.ofBytes_toBytes o ho] at hread
  rw [loadTrivialRaw, parse, readTrivialRaw, hread.run]
  rfl

def resistance : ModelType where
  Data := Double
  modelName := asciiBytes "Resistance"
  identificationName := asciiBytes "R"
  isDigital := false
  init := 0x4024000000000000
  initPins := [asciiBytes "A", asciiBytes "B"]
  attributeName i := if i = 0 then asciiBytes "R" else []
  getAttribute r i := if i = 0 then .d r else .invalid
  setAttribute r i v :=
    match i, v with
    | 0, .d x => x
    | _, _ => r
  attributeName_lt i := by split_ifs <;> decide

/-- Where nodes, models and the texts of pin names lie in memory. -/
structure AddressSpace where
  node : Option NodePtr → UInt64
  nodeAt : UInt64 → Option NodePtr
  model : Option ModelPtr → UInt64
  modelAt : UInt64 → Option ModelPtr
  name : Bytes → UInt64
  nameAt : UInt64 → Nat → Bytes

variable (A : AddressSpace)

/-- The bytes of a pin: its name as address and length, then the two pointers. -/
def pinBytes (p : Pin) : Bytes :=
  leBytes 8 (A.name p.name).toNat ++ leBytes 8 p.name.length ++ leBytes 8 (A.node p.nodes).toNat ++
    leBytes 8 (A.model p.model).toNat

def pinAt (bs : Bytes) (off : Nat) : Pin :=
  let word (k : Nat) : UInt64 := UInt64.ofNat (ofLeBytes ((bs.drop (off + 8 * k)).take 8))
  ⟨A.nameAt (word 0) (word 1).toNat, A.nodeAt (word 2), A.modelAt (word 3)⟩

theorem length_pinBytes (p : Pin) : (pinBytes A p).length = 32 := by
  simp [pinBytes]

def resistanceBytes (o : Object resistance) : Bytes :=
  leBytes 8 (show UInt64 from o.data).toNat ++ pinBytes A (o.pins.getD 0 ⟨[], none, none⟩) ++
    pinBytes A (o.pins.getD 1 ⟨[], none, none⟩)

def resistanceAt (bs : Bytes) : Object resistance :=
  ⟨UInt64.ofNat (ofLeBytes (bs.take 8)), [pinAt A bs 8, pinAt A bs 40]⟩

/-- The resistance and two pins, with the pointers of these. -/
def resistanceLayout : Layout resistance where
  size := 72
  align := 8
  Stored o := resistanceAt A (resistanceBytes A o) = o
  toBytes := resistanceBytes A
  ofBytes := resistanceAt A
  length_toBytes o := by
    rw [resistanceBytes, List.length_append, List.length_append, length_leBytes, length_pinBytes, length_pinBytes]
    rfl
  ofBytes_toBytes _ h := h

/-- The bytes of a transistor up to its internal nodes, and the voltages of these. The attributes
lie in that part, and so do the pins. -/
structure PrefixLayout (T : ModelType) where
  size : UInt64
  align : UInt64
  prefixSize : UInt64
  Stored : Object T → Prop
  prefixBytes : Object T → Bytes
  withPrefix : Object T → Bytes → Object T
  voltages : T.Data → List (Double × Double)
  withVoltages : T.Data → List (Double × Double) → T.Data
  length_prefixBytes : ∀ o, (prefixBytes o).length = prefixSize.toNat
  length_voltages : ∀ d, (voltages d).length = 6
  pins_withPrefix : ∀ o o₀, Stored o → (withPrefix o₀ (prefixBytes o)).pins = o.pins
  getAttribute_withPrefix : ∀ o o₀ vs i, Stored o →
    T.getAttribute (withVoltages (withPrefix o₀ (prefixBytes o)).data vs) i = T.getAttribute o.data i

def appendVoltage (v : Double × Double) : Bytes := appendF64 v.1 ++ appendF64 v.2

variable (L : PrefixLayout T)

def saveBsim3v32 (o : Object T) : Except Status Bytes :=
  .ok (appendUleb128 L.size ++ (appendUleb128 L.align ++ (appendUleb128 L.prefixSize ++ (L.prefixBytes o ++
    (appendUleb128 6 ++ (L.voltages o.data).flatMap appendVoltage)))))

def readBsim3v32 (o : Object T) : Read (Object T) := do
  let sz ← readUleb128
  let al ← readUleb128
  let prefixSz ← readUleb128
  check ⟨.unsupported, "bsim3v32 ABI mismatch"⟩ (sz = L.size ∧ al = L.align)
  check ⟨.unsupported, "bsim3v32 prefix ABI mismatch"⟩ (prefixSz = L.prefixSize)
  let bs ← take (corrupt "unexpected EOF while reading bsim3v32 prefix") L.prefixSize.toNat
  let nNodes ← readUleb128
  check (corrupt "unexpected internal node count for bsim3v32") (nNodes = 6)
  let vs ← times readGround 6
  let o := L.withPrefix o bs
  pure { o with data := L.withVoltages o.data vs }

def loadBsim3v32 (o : Object T) (bs : Bytes) : Except Status (Object T) :=
  parseAll "trailing bytes in bsim3v32 state" (readBsim3v32 L o) bs

def bsim3v32Codec : Codec T := ⟨saveBsim3v32 L, loadBsim3v32 L⟩

theorem loadBsim3v32_save (o o₀ : Object T) :
    ∃ bs, saveBsim3v32 L o = .ok bs ∧ loadBsim3v32 L o₀ bs = .ok
      { L.withPrefix o₀ (L.prefixBytes o) with
        data := L.withVoltages (L.withPrefix o₀ (L.prefixBytes o)).data (L.voltages o.data) } := by
  refine ⟨_, rfl, ?_⟩
  have hvoltage (v : Double × Double) : Decodes readGround (appendVoltage v) v :=
    (decodes_f64 v.1).bind (decodes_f64 v.2).bind_pure
  have hvoltages := decodes_times fun v (_ : v ∈ L.voltages o.data) => hvoltage v
  rw [L.length_voltages] at hvoltages
  apply parseAll_eq
  apply (decodes_uleb128 L.size).bind
  apply (decodes_uleb128 L.align).bind
  apply (decodes_uleb128 L.prefixSize).bind
  apply Decodes.check_bind ⟨rfl, rfl⟩
  apply Decodes.check_bind rfl
  apply (decodes_take _ (L.length_prefixBytes o)).bind
  apply (decodes_uleb128 6).bind
  apply Decodes.check_bind rfl
  exact hvoltages.bind_pure

inductive CopiesObject : Codec T → (Object T → Prop) → Prop where
  | raw (L : Layout T) : CopiesObject (rawCodec L) L.Stored
  | bsim3v32 (L : PrefixLayout T) : CopiesObject (bsim3v32Codec L) L.Stored

theorem CopiesObject.restores {K : Codec T} {Stored : Object T → Prop} (h : CopiesObject K Stored) {o : Object T}
    (ho : Stored o) : ∃ bs, K.saveState o = .ok bs ∧ ∀ o₀, ∃ o', K.loadState o₀ bs = .ok o' ∧ o'.pins = o.pins ∧
      ∀ i, T.getAttribute o'.data i = T.getAttribute o.data i := by
  cases h with
  | raw L =>
    refine ⟨_, rfl, fun o₀ => ⟨o, ?_, rfl, fun i => rfl⟩⟩
    obtain ⟨bs, hsave, hload⟩ := loadTrivialRaw_save L ho o₀
    cases hsave
    exact hload
  | bsim3v32 L =>
    refine ⟨_, rfl, fun o₀ => ⟨{ L.withPrefix o₀ (L.prefixBytes o) with
      data := L.withVoltages (L.withPrefix o₀ (L.prefixBytes o)).data (L.voltages o.data) }, ?_,
      L.pins_withPrefix o o₀ ho, fun i => L.getAttribute_withPrefix o o₀ _ i ho⟩⟩
    obtain ⟨bs, hsave, hload⟩ := loadBsim3v32_save L o o₀
    cases hsave
    exact hload

def missingCodec (T : ModelType) : Codec T where
  saveState _ := .error ⟨.unsupported, "model is not trivially-serializable; no codec provided"⟩
  loadState _ _ := .error ⟨.unsupported, "model is not trivially-deserializable; no codec provided"⟩

/-- A module elaborated as top: its instance tree and the names of its ports. -/
structure Elaborated where
  tree : InstanceTree
  ports : List Bytes

/-- `compile_result`: the errors as `format_compile_errors` prints them, if there are any, and the
modules in order, each with what it is elaborated to. -/
structure CompileResult where
  errors : Option String
  modules : List (Bytes × Elaborated)

structure VerilogCompiler where
  compile : Bytes → CompileResult

/-- The members of `VERILOG_MODULE` besides its pins. -/
structure VerilogData where
  ll : Double := 0
  hl : Double := 0x4014000000000000
  source : Bytes := []
  top : Bytes := []
  topInstance : InstanceTree := .node ⟨none, [], {}⟩ .nil
  tick : UInt64 := 0
  analogEmitCursor : UInt64 := 0

def verilogModule : ModelType where
  Data := VerilogData
  modelName := asciiBytes "VERILOG_MODULE"
  identificationName := asciiBytes "VERILOG"
  isDigital := true
  init := {}
  initPins := []
  attributeName i := if i = 0 then asciiBytes "Ll" else if i = 1 then asciiBytes "Hl" else []
  getAttribute m i := if i = 0 then .d m.ll else if i = 1 then .d m.hl else .invalid
  setAttribute m i v :=
    match i, v with
    | 0, .d x => { m with ll := x }
    | 1, .d x => { m with hl := x }
    | _, _ => m
  attributeName_lt i := by split_ifs <;> decide

def portPins (ports : List Bytes) : List Pin := ports.map fun n => { name := n }

variable (comp : VerilogCompiler)

/-- `make_verilog_module`. A module that is not found is replaced by the first one; errors are not
looked at. -/
def makeVerilogModule (source top : Bytes) : Object verilogModule :=
  let modules := (comp.compile source).modules
  match (modules.lookup top).or (modules.head?.map Prod.snd) with
  | none => ⟨{ source, top }, []⟩
  | some e => ⟨{ source, top, topInstance := e.tree }, portPins e.ports⟩

def rebuildVerilogDesign (m : VerilogData) : Except Status (Object verilogModule) :=
  match (comp.compile m.source).errors with
  | some msg => .error (corrupt ("verilog compile failed: " ++ msg))
  | none =>
    match (comp.compile m.source).modules.lookup m.top with
    | none => .error ⟨.notFound, "verilog top module not found"⟩
    | some e => .ok ⟨{ m with topInstance := e.tree }, portPins e.ports⟩

def saveVerilogModule (o : Object verilogModule) : Except Status Bytes :=
  let m : VerilogData := o.data
  .ok (appendF64 m.ll ++ appendF64 m.hl ++ appendString m.source ++ appendString m.top ++ appendTrivial m.tick ++
    appendTrivial m.analogEmitCursor ++ appendInstanceTree m.topInstance)

def readVerilogHeader (m : VerilogData) : Read VerilogData := do
  let ll ← readF64
  let hl ← readF64
  let source ← readString
  let top ← readString
  let tick ← readTrivial UInt64
  let analogEmitCursor ← readTrivial UInt64
  pure { m with ll, hl, source, top, tick, analogEmitCursor }

def loadVerilogModule (o : Object verilogModule) (bs : Bytes) :
    Except Status (Object verilogModule) :=
  parseAll "trailing bytes in verilog state" (do
    let m ← readVerilogHeader o.data
    match rebuildVerilogDesign comp m with
    | .error e => throw e
    | .ok o =>
      let tree ← readInstanceTree (o.data : VerilogData).topInstance
      pure { o with data := { (o.data : VerilogData) with topInstance := tree } }) bs

def verilogCodec : Codec verilogModule := ⟨saveVerilogModule, loadVerilogModule comp⟩

def verilogEntry : Entry := ⟨verilogModule, verilogCodec comp⟩

end PhyEngine.FileFormat
