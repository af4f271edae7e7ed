import PhyEngine.FileFormat.Codec

/-!
# Keys of the database

The keys of `pe_nl_fileformat/pe_nl_fileformat.h` and the database as a map from keys to
byte strings. Keys are texts with `/` between their parts. Different keys have different
texts (`Key.text_injective`), so a batch can be read by its keys.
-/

namespace PhyEngine.FileFormat

open ByteReader

inductive FixedKey where
  | formatVersion
  | mode
  | structureHash
  | uidAlgoVersion
  | flags
  | env
  | analyzeType
  | analyzer
  | runtimeBasic
  | nodesCount
  | groundUid
  | nodesGround
  | modelsCount
  deriving DecidableEq

inductive NodeField where
  | uid
  | state
  deriving DecidableEq

inductive ModelField where
  | modelName
  | identificationName
  | attrs
  | wrapper
  | pins
  | state
  | uid
  deriving DecidableEq

inductive Key where
  | fixed (f : FixedKey)
  | node (id : Nat) (f : NodeField)
  | model (id : Nat) (f : ModelField)
  deriving DecidableEq

def FixedKey.parts : FixedKey → List String
  | .formatVersion => ["meta", "format_version"]
  | .mode => ["meta", "mode"]
  | .structureHash => ["meta", "structure_hash"]
  | .uidAlgoVersion => ["meta", "uid_algo_version"]
  | .flags => ["meta", "flags"]
  | .env => ["circuit", "env"]
  | .analyzeType => ["circuit", "analyze_type"]
  | .analyzer => ["circuit", "analyzer"]
  | .runtimeBasic => ["runtime", "basic"]
  | .nodesCount => ["nodes", "count"]
  | .groundUid => ["nodes", "ground_uid"]
  | .nodesGround => ["nodes", "ground"]
  | .modelsCount => ["models", "count"]

def NodeField.suffix : NodeField → String
  | .uid => "uid"
  | .state => "state"

def ModelField.suffix : ModelField → String
  | .modelName => "model_name"
  | .identificationName => "identification_name"
  | .attrs => "attrs"
  | .wrapper => "wrapper"
  | .pins => "pins"
  | .state => "state"
  | .uid => "uid"

def Key.parts : Key → List (List Char)
  | .fixed f => f.parts.map String.toList
  | .node id f => ["nodes".toList, Nat.toDigits 10 id, f.suffix.toList]
  | .model id f => ["m".toList, Nat.toDigits 10 id, f.suffix.toList]

def Key.text (k : Key) : List Char := ['/'].intercalate k.parts

theorem slash_not_mem_toDigits (n : Nat) : '/' ∉ Nat.toDigits 10 n := by
  intro h
  have hdigit := Nat.isDigit_of_mem_toDigits (by decide) (by decide) h
  exact absurd hdigit (by decide)

theorem toDigits_injective : Function.Injective (Nat.toDigits 10) := by
  intro a b h
  rw [← Nat.ofDigitChars_toDigits (b := 10) (n := a) (by decide) (by decide), h,
    Nat.ofDigitChars_toDigits (by decide) (by decide)]

theorem slash_not_mem_parts (k : Key) : ∀ l ∈ k.parts, '/' ∉ l := by
  cases k with
  | fixed f => cases f <;> decide
  | node id f =>
    rw [Key.parts, List.forall_mem_cons, List.forall_mem_cons]
    exact ⟨by decide, slash_not_mem_toDigits id, by cases f <;> decide⟩
  | model id f =>
    rw [Key.parts, List.forall_mem_cons, List.forall_mem_cons]
    exact ⟨by decide, slash_not_mem_toDigits id, by cases f <;> decide⟩

theorem parts_ne_nil (k : Key) : k.parts ≠ [] := by
  cases k with
  | fixed f => cases f <;> decide
  | node id f => exact List.cons_ne_nil _ _
  | model id f => exact List.cons_ne_nil _ _

theorem parts_injective : Function.Injective Key.parts := by
  have hfixed : ∀ f g : FixedKey, f.parts.map String.toList = g.parts.map String.toList → f = g := by
    intro f g
    cases f <;> cases g <;> decide
  have hlen : ∀ f : FixedKey, (f.parts.map String.toList).length = 2 := by
    intro f
    cases f <;> rfl
  intro a b h
  have hlength := congrArg List.length h
  cases a with
  | fixed f =>
    cases b with
    | fixed g => rw [hfixed f g h]
    | node j g => exact absurd (show 2 = 3 from (hlen f).symm.trans hlength) (by decide)
    | model j g => exact absurd (show 2 = 3 from (hlen f).symm.trans hlength) (by decide)
  | node i f =>
    cases b with
    | fixed g => exact absurd (show 3 = 2 from hlength.trans (hlen g)) (by decide)
    | node j g =>
      simp only [Key.parts, List.cons.injEq, true_and, and_true] at h
      rw [toDigits_injective h.1]
      congr 1
      revert h
      cases f <;> cases g <;> simp [NodeField.suffix]
    | model j g =>
      rw [Key.parts, Key.parts, List.cons.injEq] at h
      exact absurd h.1 (by decide)
  | model i f =>
    cases b with
    | fixed g => exact absurd (show 3 = 2 from hlength.trans (hlen g)) (by decide)
    | node j g =>
      rw [Key.parts, Key.parts, List.cons.injEq] at h
      exact absurd h.1 (by decide)
    | model j g =>
      simp only [Key.parts, List.cons.injEq, true_and, and_true] at h
      rw [toDigits_injective h.1]
      congr 1
      revert h
      cases f <;> cases g <;> simp [ModelField.suffix]

theorem Key.text_injective : Function.Injective Key.text := by
  intro a b h
  apply parts_injective
  rw [← List.splitOn_intercalate '/' (slash_not_mem_parts a) (parts_ne_nil a),
    ← List.splitOn_intercalate '/' (slash_not_mem_parts b) (parts_ne_nil b)]
  exact congrArg (List.splitOn '/') h

abbrev Database := List Char → Option Bytes

abbrev WriteBatch := List (Key × Bytes)

/-- `db->Write`. A later put of a key replaces an earlier one. -/
def Database.write (db : Database) (batch : WriteBatch) : Database :=
  batch.foldl (fun db kv => Function.update db kv.1.text (some kv.2)) db

def Database.get (db : Database) (k : Key) : Except Status Bytes :=
  match db k.text with
  | some v => .ok v
  | none => .error ⟨.notFound, "missing key: " ++ String.ofList k.text⟩

theorem write_append (db : Database) (b b' : WriteBatch) : db.write (b ++ b') = (db.write b).write b' :=
  List.foldl_append

theorem Database.get_write {db : Database} {batch : WriteBatch} {k : Key} {v : Bytes} (hmem : (k, v) ∈ batch)
    (huniq : ∀ v', (k, v') ∈ batch → v' = v) : (db.write batch).get k = .ok v := by
  have htext : db.write batch k.text = some v := by
    -- The last put of the key decides.
    induction batch using List.reverseRecOn with
    | nil => cases hmem
    | append_singleton batch kv ih =>
      rw [write_append]
      show Function.update (db.write batch) kv.1.text (some kv.2) k.text = some v
      by_cases hk : kv.1 = k
      · obtain rfl : kv.2 = v := huniq kv.2 (by rw [← hk]; simp)
        rw [← hk, Function.update_self]
      · rw [Function.update_of_ne fun h => hk (Key.text_injective h).symm]
        apply ih
        · rcases List.mem_append.mp hmem with h | h
          · exact h
          · rw [List.mem_singleton] at h
            exact absurd (congrArg Prod.fst h).symm hk
        · exact fun v' hv' => huniq v' (List.mem_append_left _ hv')
  rw [Database.get, htext]

end PhyEngine.FileFormat
