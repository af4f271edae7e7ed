import PhyEngine.FileFormat.Codec
import Mathlib.Data.Nat.Digits.Lemmas

/-!
# The single-file archive

`pack_directory_to_file` and `unpack_file_to_directory` of `archive.h`. A directory is the list
of its regular files in the order of the iterator. A read fails at the end of the file only;
paths are those of a POSIX system.
-/

namespace PhyEngine.FileFormat

open ByteReader List
open UInt64 (ofNat toNat_ofNat_of_lt')

/-- A regular file with its path relative to the directory. -/
structure FileEntry where
  rel : Bytes
  data : Bytes
  rel_lt : rel.length < 2 ^ 64
  data_lt : data.length < 2 ^ 64

structure Directory where
  files : List FileEntry
  nodup : (files.map FileEntry.rel).Nodup
  size_lt : files.length < 2 ^ 64

abbrev Contents := Bytes → Option Bytes

def Contents.write (c : Contents) (rel data : Bytes) : Contents := Function.update c rel (some data)

def Directory.contents (dir : Directory) : Contents := fun rel =>
  (dir.files.find? fun f => f.rel = rel).map FileEntry.data

def fnv1aBasis : UInt64 := 14695981039346656037

def fnv1aPrime : UInt64 := 1099511628211

def fnv1aUpdate (h : UInt64) (bs : Bytes) : UInt64 :=
  bs.foldl (fun h b => (h ^^^ b.toUInt64) * fnv1aPrime) h

def slash : UInt8 := 47

def dot : Bytes := [46]

def dotDot : Bytes := [46, 46]

/-- One filename on the way to the normal form. `names` is reversed. -/
def normalStep (names : List Bytes) (name : Bytes) : List Bytes :=
  if name = [] ∨ name = dot then names
  else if name = dotDot then
    match names with
    | [] => [dotDot]
    | top :: rest => if top = dotDot then dotDot :: names else rest
  else name :: names

/-- The filenames of `lexically_normal` of a relative path, last one first. The dot of an
empty result and the empty filename after a last separator are left out. -/
def lexicallyNormal (rel : Bytes) : List Bytes := (rel.splitOn slash).foldl normalStep []

def ensureSafeRelativePath (rel : Bytes) : Except Status Unit :=
  if rel = [] then .error (corrupt "empty path in archive")
  else if rel.head? = some slash then .error (corrupt "absolute paths not allowed in archive")
  else if dotDot ∈ lexicallyNormal rel then .error (corrupt "parent path (..) not allowed in archive")
  else .ok ()

def ioError (message : String) : Status := ⟨.ioError, message⟩

def kBuf : Nat := 2 ^ 20

structure Packing where
  out : Bytes
  hash : UInt64

def Packing.put (p : Packing) (bs : Bytes) : Packing := ⟨p.out ++ bs, fnv1aUpdate p.hash bs⟩

def Packing.copyBytes (p : Packing) (file : Bytes) (remaining : Nat) : Except Status Packing :=
  if remaining = 0 then .ok p
  else if file.length < min remaining kBuf then .error (ioError "failed reading file bytes while packing")
  else
    (p.put (file.take (min remaining kBuf))).copyBytes (file.drop (min remaining kBuf))
      (remaining - min remaining kBuf)
termination_by remaining
decreasing_by
  simp only [kBuf]
  omega

def u64 (n : Nat) : Bytes := appendTrivial (ofNat n)

def Packing.addFile (p : Packing) (f : FileEntry) : Except Status Packing := do
  ensureSafeRelativePath f.rel
  (((p.put (u64 f.rel.length)).put f.rel).put (u64 f.data.length)).copyBytes f.data f.data.length

def magic : Bytes := [80, 69, 78, 76, 68, 66, 65, 49]

def header (count : Nat) : Bytes := magic ++ (appendTrivial (1 : UInt32) ++ u64 count)

def packDirectoryToFile (dir : Directory) : Except Status Bytes := do
  let p ← dir.files.foldlM Packing.addFile ⟨header dir.files.length, fnv1aBasis⟩
  pure (p.out ++ appendTrivial p.hash)

def readU32 : Read UInt32 := do
  let bs ← take (ioError "failed reading u32") 4
  pure (TriviallyCopyable.ofBytes bs)

def readU64 : Read UInt64 := do
  let bs ← take (ioError "failed reading u64") 8
  pure (TriviallyCopyable.ofBytes bs)

def copyOut (hash : UInt64) (written : Bytes) (remaining : Nat) : Read (UInt64 × Bytes) :=
  if remaining = 0 then pure (hash, written)
  else do
    let bs ← take (ioError "failed reading file bytes while unpacking") (min remaining kBuf)
    copyOut (fnv1aUpdate hash bs) (written ++ bs) (remaining - min remaining kBuf)
termination_by remaining
decreasing_by
  simp only [kBuf]
  omega

def require (x : Except Status Unit) : Read Unit := fun _ off => x.map fun _ => ((), off)

/-- One round of the loop over the files: the hash, the path and the bytes of the file. -/
def unpackFile (hash : UInt64) : Read (UInt64 × Bytes × Bytes) := do
  let pathLen ← readU64
  check (corrupt "archive path too long") (pathLen ≤ 4096)
  let rel ← take (ioError "failed reading path bytes") pathLen.toNat
  require (ensureSafeRelativePath rel)
  let fileSz ← readU64
  let r ← copyOut (fnv1aUpdate (fnv1aUpdate (fnv1aUpdate hash (appendTrivial pathLen)) rel) (appendTrivial fileSz))
    [] fileSz.toNat
  pure (r.1, rel, r.2)

def unpackFiles : Nat → UInt64 → Contents → Read (UInt64 × Contents)
  | 0, hash, dir => pure (hash, dir)
  | n + 1, hash, dir => do
    let (hash, rel, data) ← unpackFile hash
    unpackFiles n hash (dir.write rel data)

def unpackFileToDirectory (dir : Contents) : Read Contents := do
  let m ← take (ioError "failed reading magic") 8
  check ⟨.unsupported, "not a pe_nl single-file archive"⟩ (m = magic)
  let ver ← readU32
  check ⟨.unsupported, "unsupported archive version"⟩ (ver = 1)
  let fileCount ← readU64
  check (corrupt "archive file_count too large") (fileCount ≤ 10000000)
  let r ← unpackFiles fileCount.toNat fnv1aBasis dir
  let stored ← readU64
  check (corrupt "archive checksum mismatch") (stored = r.1)
  pure r.2

def unpackStart : Read UInt64 := do
  let m ← take (ioError "failed reading magic") 8
  check ⟨.unsupported, "not a pe_nl single-file archive"⟩ (m = magic)
  let ver ← readU32
  check ⟨.unsupported, "unsupported archive version"⟩ (ver = 1)
  let fileCount ← readU64
  check (corrupt "archive file_count too large") (fileCount ≤ 10000000)
  pure fileCount

def unpackBody (c : Contents) : Read ((UInt64 × Contents) × UInt64) := do
  let fileCount ← unpackStart
  let r ← unpackFiles fileCount.toNat fnv1aBasis c
  let stored ← readU64
  pure (r, stored)

def checksumMismatch : Status := corrupt "archive checksum mismatch"

theorem unpackFileToDirectory_eq (c : Contents) : unpackFileToDirectory c = (do
    let r ← unpackBody c
    check checksumMismatch (r.2 = r.1.1)
    pure r.1.2) := by
  simp only [unpackBody, unpackStart, bind_assoc, pure_bind]
  rfl

theorem fnv1aUpdate_append (h : UInt64) (as bs : Bytes) :
    fnv1aUpdate h (as ++ bs) = fnv1aUpdate (fnv1aUpdate h as) bs := foldl_append

theorem Packing.put_put (p : Packing) (as bs : Bytes) : (p.put as).put bs = p.put (as ++ bs) := by
  simp only [put, append_assoc, fnv1aUpdate_append]

theorem Packing.put_nil (p : Packing) : p.put [] = p := by
  simp only [put, append_nil]
  rfl

theorem Packing.copyBytes_eq (p : Packing) (file : Bytes) (remaining : Nat) (h : file.length = remaining) :
    p.copyBytes file remaining = .ok (p.put file) := by
  induction remaining using Nat.strongRecOn generalizing p file with
  | ind remaining ih =>
    rw [copyBytes]
    by_cases h0 : remaining = 0
    · obtain rfl : file = [] := length_eq_zero_iff.mp (h.trans h0)
      rw [if_pos h0, put_nil]
    · have hn : 0 < min remaining kBuf := by
        simp only [kBuf]
        omega
      have hle : min remaining kBuf ≤ remaining := Nat.min_le_left _ _
      have hrest : (file.drop (min remaining kBuf)).length = remaining - min remaining kBuf := by
        rw [length_drop, h]
      rw [if_neg h0, if_neg (by omega), ih _ (by omega) _ _ hrest, put_put, take_append_drop]

def entryBytes (f : FileEntry) : Bytes := u64 f.rel.length ++ (f.rel ++ (u64 f.data.length ++ f.data))

def Safe (f : FileEntry) : Prop := ensureSafeRelativePath f.rel = .ok ()

variable {f : FileEntry}

theorem Packing.addFile_of_safe (p : Packing) (h : Safe f) :
    p.addFile f = .ok (p.put (entryBytes f)) := by
  rw [addFile, h, copyBytes_eq _ _ _ rfl, put_put, put_put, put_put]
  rfl

theorem Packing.safe_of_addFile {p p' : Packing} (h : p.addFile f = .ok p') : Safe f := by
  unfold addFile at h
  cases hsafe : ensureSafeRelativePath f.rel with
  | error e =>
    rw [hsafe] at h
    cases h
  | ok u => exact hsafe

theorem foldlM_addFile_iff (files : List FileEntry) (p p' : Packing) :
    files.foldlM Packing.addFile p = .ok p' ↔ (∀ f ∈ files, Safe f) ∧ p' = p.put (files.flatMap entryBytes) := by
  induction files generalizing p with
  | nil =>
    rw [foldlM_nil, flatMap_nil, Packing.put_nil]
    constructor
    · intro h
      exact ⟨by simp, (Except.ok.inj h).symm⟩
    · rintro ⟨-, rfl⟩
      rfl
  | cons f files ih =>
    rw [foldlM_cons, flatMap_cons, ← Packing.put_put, forall_mem_cons]
    constructor
    · intro h
      cases hf : p.addFile f with
      | error e =>
        rw [hf] at h
        cases h
      | ok q =>
        have hsafe := Packing.safe_of_addFile hf
        rw [Packing.addFile_of_safe p hsafe] at h
        obtain ⟨hall, rfl⟩ := (ih _).mp h
        exact ⟨⟨hsafe, hall⟩, rfl⟩
    · rintro ⟨⟨hsafe, hall⟩, rfl⟩
      rw [Packing.addFile_of_safe p hsafe]
      exact (ih _).mpr ⟨hall, rfl⟩

def Directory.payload (dir : Directory) : Bytes := dir.files.flatMap entryBytes

theorem packDirectoryToFile_iff (dir : Directory) (bytes : Bytes) :
    packDirectoryToFile dir = .ok bytes ↔ (∀ f ∈ dir.files, Safe f) ∧
      bytes = header dir.files.length ++ dir.payload ++ appendTrivial (fnv1aUpdate fnv1aBasis dir.payload) := by
  unfold packDirectoryToFile
  constructor
  · intro h
    cases hp : dir.files.foldlM Packing.addFile ⟨header dir.files.length, fnv1aBasis⟩ with
    | error e =>
      rw [hp] at h
      cases h
    | ok p =>
      rw [hp] at h
      obtain ⟨hall, rfl⟩ := (foldlM_addFile_iff _ _ _).mp hp
      exact ⟨hall, (Except.ok.inj h).symm⟩
  · rintro ⟨hall, rfl⟩
    rw [(foldlM_addFile_iff _ _ _).mpr ⟨hall, rfl⟩]
    rfl

theorem decodes_u32 (v : UInt32) : Decodes readU32 (appendTrivial v) v := by
  have h := (decodes_take (ioError "failed reading u32") (TriviallyCopyable.length_toBytes v)).bind_pure
    (f := TriviallyCopyable.ofBytes (T := UInt32))
  rwa [TriviallyCopyable.ofBytes_toBytes] at h

theorem decodes_u64 (v : UInt64) : Decodes readU64 (appendTrivial v) v := by
  have h := (decodes_take (ioError "failed reading u64") (TriviallyCopyable.length_toBytes v)).bind_pure
    (f := TriviallyCopyable.ofBytes (T := UInt64))
  rwa [TriviallyCopyable.ofBytes_toBytes] at h

theorem decodes_require {x : Except Status Unit} (h : x = .ok ()) : Decodes (require x) [] () := by
  intro pre post
  rw [h]
  rfl

theorem decodes_copyOut (hash : UInt64) (written bs : Bytes) (remaining : Nat) (h : bs.length = remaining) :
    Decodes (copyOut hash written remaining) bs (fnv1aUpdate hash bs, written ++ bs) := by
  induction remaining using Nat.strongRecOn generalizing hash written bs with
  | ind remaining ih =>
    rw [copyOut]
    by_cases h0 : remaining = 0
    · obtain rfl : bs = [] := length_eq_zero_iff.mp (h.trans h0)
      rw [if_pos h0, append_nil]
      exact decodes_pure _
    · have hn : 0 < min remaining kBuf := by
        simp only [kBuf]
        omega
      have hle : min remaining kBuf ≤ remaining := Nat.min_le_left _ _
      have htake : (bs.take (min remaining kBuf)).length = min remaining kBuf := by
        rw [length_take]
        omega
      have hdrop : (bs.drop (min remaining kBuf)).length = remaining - min remaining kBuf := by
        rw [length_drop, h]
      have hrest := ih _ (by omega) (fnv1aUpdate hash (bs.take (min remaining kBuf)))
        (written ++ bs.take (min remaining kBuf)) _ hdrop
      rw [← fnv1aUpdate_append, append_assoc, take_append_drop] at hrest
      have hread := (decodes_take (ioError "failed reading file bytes while unpacking") htake).bind
        (f := fun bs => copyOut (fnv1aUpdate hash bs) (written ++ bs) (remaining - min remaining kBuf)) hrest
      rw [if_neg h0]
      rwa [take_append_drop] at hread

def ShortPath (f : FileEntry) : Prop := f.rel.length ≤ 4096

theorem ofNat_length_le_iff {n bound : Nat} (hn : n < 2 ^ 64) (hb : bound < 2 ^ 64) :
    ofNat n ≤ ofNat bound ↔ n ≤ bound := by
  rw [UInt64.le_iff_toNat_le, toNat_ofNat_of_lt' hn, toNat_ofNat_of_lt' hb]

theorem decodes_unpackFile (hsafe : Safe f) (hshort : ShortPath f) (hash : UInt64) :
    Decodes (unpackFile hash) (entryBytes f) (fnv1aUpdate hash (entryBytes f), f.rel, f.data) := by
  simp only [entryBytes, fnv1aUpdate_append, unpackFile]
  apply (decodes_u64 (ofNat f.rel.length)).bind
  apply Decodes.check_bind ((ofNat_length_le_iff f.rel_lt (by omega)).mpr hshort)
  apply (decodes_take _ (toNat_ofNat_of_lt' f.rel_lt).symm).bind
  apply (decodes_require hsafe).bind
  apply (decodes_u64 (ofNat f.data.length)).bind
  exact (decodes_copyOut _ [] f.data _ (toNat_ofNat_of_lt' f.data_lt).symm).bind_pure

theorem fails_unpackFile (hlong : ¬ShortPath f) (hash : UInt64) :
    Fails (unpackFile hash) (entryBytes f) := by
  simp only [entryBytes, unpackFile]
  apply (decodes_u64 (ofNat f.rel.length)).bind_fails
  exact fails_check _ (fun h => hlong ((ofNat_length_le_iff f.rel_lt (by omega)).mp h)) _ _

def writeAll (dir : Contents) (files : List FileEntry) : Contents :=
  files.foldl (fun c f => c.write f.rel f.data) dir

variable {files : List FileEntry}

section

variable (hsafe : ∀ f ∈ files, Safe f)
include hsafe

theorem decodes_unpackFiles (hshort : ∀ f ∈ files, ShortPath f) (hash : UInt64)
    (dir : Contents) :
    Decodes (unpackFiles files.length hash dir) (files.flatMap entryBytes)
      (fnv1aUpdate hash (files.flatMap entryBytes), writeAll dir files) := by
  induction files generalizing hash dir with
  | nil => exact decodes_pure _
  | cons f files ih =>
    rw [forall_mem_cons] at hsafe hshort
    rw [flatMap_cons, fnv1aUpdate_append]
    exact (decodes_unpackFile hsafe.1 hshort.1 hash).bind (ih hsafe.2 hshort.2 _ _)

theorem fails_unpackFiles (hf : f ∈ files) (hlong : ¬ShortPath f) (hash : UInt64)
    (dir : Contents) :
    Fails (unpackFiles files.length hash dir) (files.flatMap entryBytes) := by
  induction files generalizing hash dir with
  | nil => cases hf
  | cons g files ih =>
    rw [forall_mem_cons] at hsafe
    rw [flatMap_cons, length_cons]
    by_cases hg : ShortPath g
    · have hmem : f ∈ files := by
        rcases mem_cons.mp hf with rfl | hmem
        · exact absurd hg hlong
        · exact hmem
      exact (decodes_unpackFile hsafe.1 hg hash).bind_fails (ih hsafe.2 hmem _ _)
    · exact (fails_unpackFile hg hash).bind _ _

omit hsafe in
theorem unpackStart_fails {count : Nat} (hlt : count < 2 ^ 64) (hmany : ¬count ≤ 10000000) :
    Fails unpackStart (header count) := by
  simp only [header, unpackStart]
  apply (decodes_take _ rfl).bind_fails
  apply Fails.check_bind rfl
  apply (decodes_u32 1).bind_fails
  apply Fails.check_bind rfl
  rw [← append_nil (u64 count)]
  apply (decodes_u64 (ofNat count)).bind_fails
  exact fails_check _ (fun h => hmany ((ofNat_length_le_iff hlt (by omega)).mp h)) _ _

omit hsafe in
theorem decodes_unpackStart {count : Nat} (hle : count ≤ 10000000) :
    Decodes unpackStart (header count) (ofNat count) := by
  simp only [header, unpackStart]
  apply (decodes_take _ rfl).bind
  apply Decodes.check_bind rfl
  apply (decodes_u32 1).bind
  apply Decodes.check_bind rfl
  rw [← append_nil (u64 count)]
  apply (decodes_u64 _).bind
  have hfits : ofNat count ≤ ofNat 10000000 := (ofNat_length_le_iff (by omega) (by omega)).mpr hle
  exact Decodes.check_bind hfits (decodes_pure _)

theorem decodes_unpackBody (hshort : ∀ f ∈ files, ShortPath f)
    (hcount : files.length ≤ 10000000) (stored : UInt64) (c : Contents) :
    Decodes (unpackBody c) (header files.length ++ (files.flatMap entryBytes ++ appendTrivial stored))
      ((fnv1aUpdate fnv1aBasis (files.flatMap entryBytes), writeAll c files), stored) := by
  unfold unpackBody
  apply (decodes_unpackStart hcount).bind
  rw [toNat_ofNat_of_lt' (Nat.lt_of_le_of_lt hcount (by decide))]
  exact (decodes_unpackFiles hsafe hshort fnv1aBasis c).bind (decodes_u64 stored).bind_pure

theorem fails_unpackBody (hlt : files.length < 2 ^ 64)
    (hlim : ¬((∀ f ∈ files, ShortPath f) ∧ files.length ≤ 10000000)) (stored : UInt64) (c : Contents) :
    Fails (unpackBody c) (header files.length ++ (files.flatMap entryBytes ++ appendTrivial stored)) := by
  unfold unpackBody
  by_cases hcount : files.length ≤ 10000000
  · obtain ⟨f, hf, hlong⟩ : ∃ f ∈ files, ¬ShortPath f := by
      by_contra hall
      push Not at hall
      exact hlim ⟨hall, hcount⟩
    apply (decodes_unpackStart hcount).bind_fails
    rw [toNat_ofNat_of_lt' hlt]
    exact (fails_unpackFiles hsafe hf hlong fnv1aBasis c).bind _ _
  · exact (unpackStart_fails hlt hcount).bind _ _

end

theorem writeAll_apply (dir : Contents) (h : (files.map FileEntry.rel).Nodup) (rel : Bytes) :
    writeAll dir files rel = ((files.find? fun f => f.rel = rel).map FileEntry.data).or (dir rel) := by
  induction files generalizing dir with
  | nil => rfl
  | cons f files ih =>
    rw [map_cons, nodup_cons] at h
    show writeAll (dir.write f.rel f.data) files rel = _
    rw [ih _ h.2, Contents.write]
    by_cases hrel : f.rel = rel
    · have hnone : (files.find? fun g => g.rel = rel) = none := by
        rw [find?_eq_none]
        intro g hg hgrel
        apply h.1
        rw [hrel, ← of_decide_eq_true hgrel]
        exact mem_map_of_mem hg
      rw [hnone, find?_cons_of_pos (by simpa using hrel), ← hrel, Function.update_self]
      rfl
    · rw [find?_cons_of_neg (by simpa using hrel), Function.update_of_ne (Ne.symm hrel)]

theorem writeAll_empty (dir : Directory) : writeAll (fun _ => none) dir.files = dir.contents := by
  funext rel
  rw [writeAll_apply _ dir.nodup]
  exact Option.or_none

def Directory.WithinLimits (dir : Directory) : Prop :=
  (∀ f ∈ dir.files, ShortPath f) ∧ dir.files.length ≤ 10000000

variable {dir : Directory}

section

variable (hsafe : ∀ f ∈ dir.files, Safe f)
include hsafe

theorem decodes_archive (hlim : dir.WithinLimits) (c : Contents) :
    Decodes (unpackFileToDirectory c)
      (header dir.files.length ++ dir.payload ++ appendTrivial (fnv1aUpdate fnv1aBasis dir.payload))
      (writeAll c dir.files) := by
  have hbody := decodes_unpackBody hsafe hlim.1 hlim.2 (fnv1aUpdate fnv1aBasis dir.payload) c
  rw [unpackFileToDirectory_eq, append_assoc, ← append_nil (header _ ++ _)]
  exact hbody.bind (Decodes.check_bind rfl (decodes_pure _))

theorem fails_archive (hlim : ¬dir.WithinLimits) (c : Contents) :
    Fails (unpackFileToDirectory c)
      (header dir.files.length ++ dir.payload ++ appendTrivial (fnv1aUpdate fnv1aBasis dir.payload)) := by
  have hbody := fails_unpackBody hsafe dir.size_lt hlim (fnv1aUpdate fnv1aBasis dir.payload) c
  rw [unpackFileToDirectory_eq, append_assoc, ← append_nil (header _ ++ _)]
  exact hbody.bind _ _

theorem exists_refused (hlim : ¬dir.WithinLimits) :
    ∃ bytes, packDirectoryToFile dir = .ok bytes ∧
      ∃ e, unpackFileToDirectory (fun _ => none) bytes 0 = .error e := by
  have hfails := (fails_archive hsafe hlim fun _ => none).run []
  rw [append_nil] at hfails
  exact ⟨_, (packDirectoryToFile_iff _ _).mpr ⟨hsafe, rfl⟩, hfails⟩

end

/-- An archive that was written can be unpacked into a new directory, and gives the files back,
if and only if the directory is within the limits of the reader. -/
theorem unpack_pack_iff (dir : Directory) (bytes : Bytes) (h : packDirectoryToFile dir = .ok bytes) :
    unpackFileToDirectory (fun _ => none) bytes 0 = .ok (dir.contents, bytes.length) ↔
      (∀ f ∈ dir.files, f.rel.length ≤ 4096) ∧ dir.files.length ≤ 10000000 := by
  obtain ⟨hsafe, rfl⟩ := (packDirectoryToFile_iff dir bytes).mp h
  constructor
  · intro hread
    by_contra hlim
    obtain ⟨e, he⟩ := (fails_archive hsafe hlim fun _ => none).run []
    rw [List.append_nil, hread] at he
    cases he
  · intro hlim
    have hread := (decodes_archive hsafe hlim fun _ => none).run []
    rwa [List.append_nil, writeAll_empty] at hread

def oneFile : Directory := ⟨[⟨[97], [1, 2], by decide, by decide⟩], by decide, by decide⟩

theorem unpack_pack_oneFile :
    ∃ bytes, packDirectoryToFile oneFile = .ok bytes ∧
      unpackFileToDirectory (fun _ => none) bytes 0 = .ok (oneFile.contents, bytes.length) := by
  obtain ⟨bytes, h⟩ : ∃ bytes, packDirectoryToFile oneFile = .ok bytes :=
    ⟨_, (packDirectoryToFile_iff _ _).mpr ⟨by simp [oneFile, Safe]; decide, rfl⟩⟩
  exact ⟨bytes, h, (unpack_pack_iff _ bytes h).mpr ⟨by simp [oneFile], by simp [oneFile]⟩⟩

theorem safe_of_filename (hslash : slash ∉ f.rel) (hnil : f.rel ≠ []) (hdot : f.rel ≠ dotDot) :
    Safe f := by
  have hsplit : f.rel.splitOn slash = [f.rel] := by
    apply splitOnP_eq_singleton
    intro b hb
    rw [beq_eq_false_iff_ne]
    rintro rfl
    exact hslash hb
  have hhead : f.rel.head? ≠ some slash := fun h => hslash (mem_of_head? h)
  have hnormal : dotDot ∉ lexicallyNormal f.rel := by
    rw [lexicallyNormal, hsplit, foldl_cons, foldl_nil, normalStep]
    split_ifs
    · exact not_mem_nil
    · rw [mem_singleton]
      exact Ne.symm hdot
  rw [Safe, ensureSafeRelativePath, if_neg hnil, if_neg hhead, if_neg hnormal]

def numberName (n : Nat) : Bytes := (Nat.digits 10 (n + 1)).map fun d => UInt8.ofNat (48 + d)

theorem digits_of_numberName (n : Nat) : (numberName n).map (fun b => b.toNat - 48) = Nat.digits 10 (n + 1) := by
  rw [numberName, List.map_map]
  refine (map_congr_left fun d hd => ?_).trans (map_id _)
  have hlt : d < 10 := Nat.digits_lt_base (by omega) hd
  show (UInt8.ofNat (48 + d)).toNat - 48 = d
  rw [UInt8.toNat_ofNat']
  omega

theorem numberName_injective : Function.Injective numberName := by
  intro m n h
  have hdigits : Nat.digits 10 (m + 1) = Nat.digits 10 (n + 1) := by
    rw [← digits_of_numberName, h, digits_of_numberName]
  have := Nat.digits_inj_iff.mp hdigits
  omega

theorem mem_numberName {n : Nat} {b : UInt8} (h : b ∈ numberName n) : 48 ≤ b.toNat := by
  obtain ⟨d, hd, rfl⟩ := mem_map.mp h
  have hlt : d < 10 := Nat.digits_lt_base (by omega) hd
  rw [UInt8.toNat_ofNat']
  omega

theorem length_numberName_lt {n : Nat} (h : n < 2 ^ 63) : (numberName n).length < 2 ^ 64 := by
  have hle : (Nat.digits 10 (n + 1)).length ≤ 19 := (Nat.digits_length_le_iff (by omega) _).mpr (by omega)
  rw [numberName, length_map]
  omega

section EmptyFiles

variable {n : Nat} (hn : n < 2 ^ 63)

def emptyFile (i : Fin n) : FileEntry where
  rel := numberName i
  data := []
  rel_lt := length_numberName_lt (i.isLt.trans hn)
  data_lt := by simp

theorem safe_emptyFile (i : Fin n) : Safe (emptyFile hn i) := by
  apply safe_of_filename
  · intro h
    have hle := mem_numberName h
    rw [slash] at hle
    exact absurd hle (by decide)
  · intro h
    have hdigits := congrArg (List.map fun b => b.toNat - 48) h
    rw [emptyFile, digits_of_numberName, map_nil, Nat.digits_eq_nil_iff_eq_zero] at hdigits
    omega
  · intro h
    have hdot : (46 : UInt8) ∈ numberName i := by
      show 46 ∈ (emptyFile hn i).rel
      rw [h]
      exact mem_cons_self
    exact absurd (mem_numberName hdot) (by decide)

def emptyFiles : Directory where
  files := (List.finRange n).map (emptyFile hn)
  nodup := by
    rw [List.map_map]
    apply (List.nodup_finRange _).map
    intro i j h
    exact Fin.ext (numberName_injective h)
  size_lt := by
    rw [List.length_map, List.length_finRange]
    omega

theorem safe_of_mem_emptyFiles : ∀ f ∈ (emptyFiles hn).files, Safe f := by
  intro f hf
  obtain ⟨i, -, rfl⟩ := mem_map.mp hf
  exact safe_emptyFile hn i

theorem not_withinLimits_emptyFiles (h : 10000000 < n) : ¬(emptyFiles hn).WithinLimits := by
  rintro ⟨-, hcount⟩
  rw [emptyFiles, length_map, length_finRange] at hcount
  omega

end EmptyFiles

/-- Ten million files and one more are packed, and the archive is refused. -/
theorem unpack_emptyFiles_refused :
    ∃ bytes, packDirectoryToFile (emptyFiles (n := 10000001) (by omega)) = .ok bytes ∧
      ∃ e, unpackFileToDirectory (fun _ => none) bytes 0 = .error e :=
  exists_refused (safe_of_mem_emptyFiles _) (not_withinLimits_emptyFiles _ (by omega))

end PhyEngine.FileFormat
