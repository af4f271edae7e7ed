import PhyEngine.FileFormat.Archive
import PhyEngine.Library.Failing

/-!
# What the checks of the archive exclude

`ensure_safe_relative_path` looks for the parent directory in the normal form only, while the
path as it stands is opened. `walk_of_normal` says that the two agree, so that unpacking stays
below the directory.
-/

namespace PhyEngine.FileFormat

open ByteReader Failing

/-- Walk from a directory: how far below it the path ends, if it never leaves it. -/
def walk : Nat → List Bytes → Option Nat
  | depth, [] => some depth
  | depth, name :: names =>
    if name = [] ∨ name = dot then walk depth names
    else if name = dotDot then
      match depth with
      | 0 => none
      | depth + 1 => walk depth names
    else walk (depth + 1) names

/-- What `unpack_file_to_directory` reads of a file before it opens it: the hash, the path and the
size. -/
def unpackHead (hash : UInt64) : Read (UInt64 × Bytes × UInt64) := do
  let pathLen ← readU64
  check (corrupt "archive path too long") (pathLen ≤ 4096)
  let rel ← take (ioError "failed reading path bytes") pathLen.toNat
  require (ensureSafeRelativePath rel)
  let fileSz ← readU64
  pure (fnv1aUpdate (fnv1aUpdate (fnv1aUpdate hash (appendTrivial pathLen)) rel) (appendTrivial fileSz), rel, fileSz)

/-- The paths relative to the directory that the loop opens for writing, also those before an
error. -/
def openedLoop (input : Bytes) : Nat → UInt64 → Nat → List Bytes
  | 0, _, _ => []
  | n + 1, hash, off =>
    match unpackHead hash input off with
    | .error _ => []
    | .ok ((hash, rel, fileSz), off) =>
      rel :: match copyOut hash [] fileSz.toNat input off with
        | .error _ => []
        | .ok ((hash, _), off) => openedLoop input n hash off

def openedPaths (input : Bytes) : List Bytes :=
  match unpackStart input 0 with
  | .error _ => []
  | .ok (fileCount, off) => openedLoop input fileCount.toNat fnv1aBasis off

variable {names parts : List Bytes}

theorem dotDot_mem_normalStep (name : Bytes) (h : dotDot ∈ names) : dotDot ∈ normalStep names name := by
  unfold normalStep
  split_ifs
  · exact h
  · cases names with
    | nil => exact List.mem_singleton_self _
    | cons top rest =>
      dsimp only
      split_ifs with htop
      · exact List.mem_cons_self
      · exact (List.mem_cons.mp h).resolve_left (Ne.symm htop)
  · exact List.mem_cons_of_mem _ h

theorem dotDot_mem_foldl (parts : List Bytes) (h : dotDot ∈ names) : dotDot ∈ parts.foldl normalStep names := by
  induction parts generalizing names with
  | nil => exact h
  | cons name parts ih => exact ih (dotDot_mem_normalStep name h)

theorem walk_of_normal (h : dotDot ∉ names) (hnormal : dotDot ∉ parts.foldl normalStep names) :
    walk names.length parts = some (parts.foldl normalStep names).length := by
  induction parts generalizing names with
  | nil => rfl
  | cons name parts ih =>
    have hnext : dotDot ∉ normalStep names name := fun hmem => hnormal (dotDot_mem_foldl parts hmem)
    have hrest := ih hnext hnormal
    rw [List.foldl_cons, ← hrest, walk.eq_def]
    unfold normalStep at hnext ⊢
    dsimp only
    split_ifs with hstay hup
    · rfl
    · cases names with
      | nil =>
        rw [if_neg hstay, if_pos hup] at hnext
        exact absurd (List.mem_singleton_self _) hnext
      | cons top rest =>
        have htop : top ≠ dotDot := fun heq => h (heq ▸ List.mem_cons_self)
        dsimp only
        rw [if_neg htop, List.length_cons]
    · rfl

theorem walk_of_safe {rel : Bytes} (h : ensureSafeRelativePath rel = .ok ()) :
    rel.head? ≠ some slash ∧ (walk 0 (rel.splitOn slash)).isSome := by
  unfold ensureSafeRelativePath at h
  split_ifs at h with hnil habs hup
  exact ⟨habs, by rw [← List.length_nil, walk_of_normal List.not_mem_nil hup]; rfl⟩

theorem safe_of_unpackHead {hash hash' sz : UInt64} {rel input : Bytes} {off off' : Nat}
    (h : unpackHead hash input off = .ok ((hash', rel, sz), off')) : ensureSafeRelativePath rel = .ok () := by
  obtain ⟨p, -, h⟩ := bind_eq_ok h
  obtain ⟨q, -, h⟩ := bind_eq_ok h
  obtain ⟨r, -, h⟩ := bind_eq_ok h
  obtain ⟨s, hsafe, h⟩ := bind_eq_ok h
  obtain ⟨t, -, h⟩ := bind_eq_ok h
  cases h
  cases hcheck : ensureSafeRelativePath r.1 with
  | ok u => rfl
  | error e =>
    change (ensureSafeRelativePath r.1).map _ = _ at hsafe
    rw [hcheck] at hsafe
    cases hsafe

theorem safe_of_mem_openedLoop {input : Bytes} (n : Nat) (hash : UInt64) (off : Nat) {rel : Bytes}
    (h : rel ∈ openedLoop input n hash off) : ensureSafeRelativePath rel = .ok () := by
  induction n generalizing hash off with
  | zero => cases h
  | succ n ih =>
    rw [openedLoop] at h
    split at h
    · cases h
    · rename_i hhead
      rcases List.mem_cons.mp h with rfl | hrest
      · exact safe_of_unpackHead hhead
      · split at hrest
        · cases hrest
        · exact ih _ _ hrest

/-- Every path that is opened for writing is relative and stays in the directory on the whole
way. -/
theorem openedPaths_stay (input : Bytes) : ∀ rel ∈ openedPaths input,
    rel.head? ≠ some slash ∧ (walk 0 (rel.splitOn slash)).isSome := by
  intro rel h
  unfold openedPaths at h
  split at h
  · cases h
  · exact walk_of_safe (safe_of_mem_openedLoop _ _ _ h)

/-- An archive with one empty file `a/.//b/../c`. -/
theorem openedPaths_stay_oneFile : let rel : Bytes := [97, 47, 46, 47, 47, 98, 47, 46, 46, 47, 99]
    rel.head? ≠ some slash ∧ (walk 0 (rel.splitOn slash)).isSome :=
  openedPaths_stay (header 1 ++ (u64 11 ++ [97, 47, 46, 47, 47, 98, 47, 46, 46, 47, 99] ++ u64 0)) _
    (by decide +kernel)

theorem unpackFile_eq (hash : UInt64) : unpackFile hash = (do
    let head ← unpackHead hash
    let r ← copyOut head.1 [] head.2.2.toNat
    pure (r.1, head.2.1, r.2)) := by
  simp only [unpackHead, bind_assoc, pure_bind]
  rfl

theorem writes_unpackFiles {input : Bytes} (n : Nat) {hash hash' : UInt64} {c c' : Contents} {off off' : Nat}
    (h : unpackFiles n hash c input off = .ok ((hash', c'), off')) :
    ∃ files : List (Bytes × Bytes), files.map Prod.fst = openedLoop input n hash off ∧
      c' = files.foldl (fun c f => c.write f.1 f.2) c := by
  induction n generalizing hash c off with
  | zero =>
    cases h
    exact ⟨[], rfl, rfl⟩
  | succ n ih =>
    obtain ⟨⟨⟨hash₁, rel, data⟩, off₁⟩, hfile, h⟩ := bind_eq_ok h
    rw [unpackFile_eq] at hfile
    obtain ⟨head, hhead, hfile⟩ := bind_eq_ok hfile
    obtain ⟨body, hbody, hfile⟩ := bind_eq_ok hfile
    cases hfile
    obtain ⟨files, hrels, rfl⟩ := ih h
    refine ⟨(head.1.2.1, body.1.2) :: files, ?_, rfl⟩
    rw [openedLoop, hhead, List.map_cons, hrels]
    dsimp only
    rw [hbody]

/-- A run without an error writes a file for each opened path, in their order, and nothing else. -/
theorem writes_openedPaths {input : Bytes} {c c' : Contents} {off : Nat}
    (h : unpackFileToDirectory c input 0 = .ok (c', off)) :
    ∃ files : List (Bytes × Bytes), files.map Prod.fst = openedPaths input ∧
      c' = files.foldl (fun c f => c.write f.1 f.2) c := by
  rw [unpackFileToDirectory_eq] at h
  obtain ⟨body, hbody, h⟩ := bind_eq_ok h
  obtain ⟨start, hstart, hbody⟩ := bind_eq_ok hbody
  obtain ⟨r, hfiles, hbody⟩ := bind_eq_ok hbody
  obtain ⟨stored, -, hbody⟩ := bind_eq_ok hbody
  obtain ⟨u, -, h⟩ := bind_eq_ok h
  cases hbody
  cases h
  rw [openedPaths, hstart]
  exact writes_unpackFiles _ hfiles

variable {h : UInt64} {b c : UInt8}

theorem mul_fnv1aPrime_injective {x y : UInt64} (hxy : x * fnv1aPrime = y * fnv1aPrime) : x = y := by
  have hinv : fnv1aPrime * 0xce965057aff6957b = 1 := by decide
  have hback := congrArg (· * (0xce965057aff6957b : UInt64)) hxy
  simpa only [UInt64.mul_assoc, hinv, UInt64.mul_one] using hback

theorem fnv1aUpdate_injective (bs : Bytes) {h h' : UInt64} (heq : fnv1aUpdate h bs = fnv1aUpdate h' bs) : h = h' := by
  induction bs generalizing h h' with
  | nil => exact heq
  | cons b bs ih => exact (UInt64.xor_left_inj _).mp (mul_fnv1aPrime_injective (ih heq))

theorem fnv1aUpdate_ne (h : UInt64) (as cs : Bytes) (hbc : b ≠ c) :
    fnv1aUpdate h (as ++ b :: cs) ≠ fnv1aUpdate h (as ++ c :: cs) := by
  intro heq
  rw [fnv1aUpdate_append, fnv1aUpdate_append] at heq
  have hstep : (fnv1aUpdate h as ^^^ b.toUInt64) * fnv1aPrime = (fnv1aUpdate h as ^^^ c.toUInt64) * fnv1aPrime :=
    fnv1aUpdate_injective cs heq
  exact hbc (UInt8.toUInt64_inj.mp ((UInt64.xor_right_inj _).mp (mul_fnv1aPrime_injective hstep)))

theorem fnv1aUpdate_ne_of_differ (h : UInt64) {as bs : Bytes} {i : Nat} (hlen : as.length = bs.length)
    (hi : as[i]? ≠ bs[i]?) (hrest : ∀ j, j ≠ i → as[j]? = bs[j]?) : fnv1aUpdate h as ≠ fnv1aUpdate h bs := by
  have hlt : i < as.length := by
    by_contra hge
    exact hi (by rw [List.getElem?_eq_none (by omega), List.getElem?_eq_none (by omega)])
  obtain ⟨pre, b, post, rfl, rfl⟩ : ∃ pre b post, as = pre ++ b :: post ∧ i = pre.length :=
    ⟨as.take i, as[i], as.drop (i + 1), by simp, by simp; omega⟩
  have hset : bs = pre ++ bs[pre.length] :: post := by
    refine List.ext_getElem? fun j => ?_
    rcases Nat.lt_trichotomy j pre.length with hj | rfl | hj
    · rw [← hrest j (by omega), List.getElem?_append_left hj, List.getElem?_append_left hj]
    · rw [List.getElem?_append_right (Nat.le_refl _), Nat.sub_self, List.getElem?_cons_zero, List.getElem?_eq_getElem]
    · rw [← hrest j (by omega), List.getElem?_append_right (by omega), List.getElem?_append_right (by omega),
        show j - pre.length = j - pre.length - 1 + 1 by omega, List.getElem?_cons_succ, List.getElem?_cons_succ]
  rw [hset]
  refine fnv1aUpdate_ne h pre post fun heq => hi ?_
  rw [List.getElem?_append_right (Nat.le_refl _), Nat.sub_self, List.getElem?_cons_zero, List.getElem?_eq_getElem, heq]

def NeverFails {α : Type} (e : Status) (x : Read α) : Prop := ∀ input off, x input off ≠ .error e

section Never

variable {α β : Type} {e e' : Status}

theorem NeverFails.bind {x : Read α} {f : α → Read β} (hx : NeverFails e x) (hf : ∀ a, NeverFails e (f a)) :
    NeverFails e (x >>= f) := by
  intro input off herr
  change (x input off >>= fun p => f p.1 input p.2) = _ at herr
  cases hrun : x input off with
  | error e' =>
    rw [hrun] at herr
    obtain rfl : e' = e := Except.error.inj herr
    exact hx input off hrun
  | ok p =>
    rw [hrun] at herr
    exact hf p.1 input p.2 herr

theorem neverFails_pure (a : α) : NeverFails e (pure a : Read α) := fun _ _ h => by cases h

theorem neverFails_take (n : Nat) (h : e' ≠ e) : NeverFails e (take e' n) := by
  intro input off herr
  unfold take at herr
  split_ifs at herr
  exact h (Except.error.inj herr)

theorem neverFails_check {p : Prop} [Decidable p] (h : e' ≠ e) : NeverFails e (check e' p) := by
  intro input off herr
  unfold check at herr
  split_ifs at herr
  exact h (Except.error.inj herr)

end Never

section Never

theorem neverFails_copyOut (hash : UInt64) (written : Bytes) (remaining : Nat) :
    NeverFails checksumMismatch (copyOut hash written remaining) := by
  induction remaining using Nat.strongRecOn generalizing hash written with
  | ind remaining ih =>
    rw [copyOut]
    split_ifs with h0
    · exact neverFails_pure _
    · have hlt : remaining - min remaining kBuf < remaining := by
        simp only [kBuf]
        omega
      exact (neverFails_take _ (by decide)).bind fun bs => ih _ hlt _ _

theorem neverFails_u64 : NeverFails checksumMismatch readU64 :=
  (neverFails_take _ (by decide)).bind fun _ => neverFails_pure _

theorem neverFails_safePath (rel : Bytes) : NeverFails checksumMismatch (require (ensureSafeRelativePath rel)) := by
  intro input off herr
  change (ensureSafeRelativePath rel).map _ = _ at herr
  unfold ensureSafeRelativePath at herr
  split_ifs at herr
  · exact absurd (Except.error.inj herr) (by decide)
  · exact absurd (Except.error.inj herr) (by decide)
  · exact absurd (Except.error.inj herr) (by decide)
  · cases herr

theorem neverFails_unpackFiles (n : Nat) (hash : UInt64) (c : Contents) :
    NeverFails checksumMismatch (unpackFiles n hash c) := by
  induction n generalizing hash c with
  | zero => exact neverFails_pure _
  | succ n ih =>
    refine NeverFails.bind ?_ fun _ => ih _ _
    refine neverFails_u64.bind fun _ => (neverFails_check (by decide)).bind fun _ => ?_
    refine (neverFails_take _ (by decide)).bind fun rel => (neverFails_safePath rel).bind fun _ => ?_
    exact neverFails_u64.bind fun _ => (neverFails_copyOut _ _ _).bind fun _ => neverFails_pure _

end Never

theorem unpack_mismatch_iff {c : Contents} {input : Bytes} :
    unpackFileToDirectory c input 0 = .error checksumMismatch ↔
      ∃ r stored off, unpackBody c input 0 = .ok ((r, stored), off) ∧ stored ≠ r.1 := by
  have hnever : NeverFails checksumMismatch (unpackBody c) := by
    refine NeverFails.bind ?_ fun _ => (neverFails_unpackFiles _ _ _).bind fun _ => neverFails_u64.bind fun _ =>
      neverFails_pure _
    refine (neverFails_take _ (by decide)).bind fun _ => (neverFails_check (by decide)).bind fun _ => ?_
    refine NeverFails.bind ((neverFails_take _ (by decide)).bind fun _ => neverFails_pure _) fun _ => ?_
    refine (neverFails_check (by decide)).bind fun _ => neverFails_u64.bind fun _ => ?_
    exact (neverFails_check (by decide)).bind fun _ => neverFails_pure _
  rw [unpackFileToDirectory_eq]
  change (unpackBody c input 0 >>= fun p => check _ _ input p.2 >>= fun q => .ok (_, q.2)) = _ ↔ _
  cases hbody : unpackBody c input 0 with
  | error e =>
    constructor
    · intro herr
      obtain rfl : e = checksumMismatch := Except.error.inj herr
      exact absurd hbody (hnever input 0)
    · rintro ⟨r, stored, off, hok, -⟩
      cases hok
  | ok p =>
    obtain ⟨⟨r, stored⟩, off⟩ := p
    by_cases heq : stored = r.1
    · refine iff_of_false (fun herr => ?_) ?_
      · change (check _ _ input off >>= _) = _ at herr
        rw [check, if_pos heq] at herr
        cases herr
      · rintro ⟨r', stored', off', hok, hne⟩
        cases hok
        exact hne heq
    · refine iff_of_true ?_ ⟨r, stored, off, rfl, heq⟩
      change (check _ _ input off >>= _) = _
      rw [check, if_neg heq]
      rfl

/-- The place of the contents of `f` in an archive of `count` files, after those of `before`. -/
def contentsStart (count : Nat) (before : List FileEntry) (f : FileEntry) : Nat :=
  (header count).length + (before.flatMap entryBytes).length + (u64 f.rel.length).length + f.rel.length +
    (u64 f.data.length).length

def FileEntry.change (f : FileEntry) (j : Nat) (b : UInt8) : FileEntry :=
  { f with
    data := f.data.set j b
    data_lt := by rw [List.length_set]; exact f.data_lt }

theorem entryBytes_change (f : FileEntry) (j : Nat) (b : UInt8) : entryBytes (f.change j b) =
    (entryBytes f).set ((u64 f.rel.length).length + f.rel.length + (u64 f.data.length).length + j) b := by
  have hassoc : entryBytes f = (u64 f.rel.length ++ f.rel ++ u64 f.data.length) ++ f.data := by
    simp only [entryBytes, List.append_assoc]
  rw [hassoc, List.set_append_right _ _ (by simp only [List.length_append]; omega)]
  simp only [entryBytes, FileEntry.change, List.length_set, List.append_assoc, List.length_append]
  congr 4
  omega

section Corrupted

variable {dir : Directory} {f : FileEntry} {j : Nat} (before after : List FileEntry)

theorem archive_set (count : Nat) (hj : j < f.data.length) (b : UInt8) (trailer : Bytes) :
    (header count ++ (before ++ f :: after).flatMap entryBytes ++ trailer).set (contentsStart count before f + j) b =
      header count ++ (before ++ f.change j b :: after).flatMap entryBytes ++ trailer := by
  have hentry : (entryBytes f).length =
      (u64 f.rel.length).length + f.rel.length + (u64 f.data.length).length + f.data.length := by
    simp only [entryBytes, List.length_append]
    omega
  rw [contentsStart]
  simp only [List.flatMap_append, List.flatMap_cons, List.append_assoc, entryBytes_change]
  rw [List.set_append_right _ _ (by omega), List.set_append_right _ _ (by omega), List.set_append_left _ _ (by omega)]
  congr 4
  omega

theorem fnv1aUpdate_change (hash : UInt64) (hj : j < f.data.length) {b : UInt8} (hb : b ≠ f.data[j]) :
    fnv1aUpdate hash ((before ++ f :: after).flatMap entryBytes) ≠
      fnv1aUpdate hash ((before ++ f.change j b :: after).flatMap entryBytes) := by
  have hdata : f.data = f.data.take j ++ f.data[j] :: f.data.drop (j + 1) := by simp
  have hset : f.data.set j b = f.data.take j ++ b :: f.data.drop (j + 1) := by
    rw [List.set_eq_take_append_cons_drop, if_pos hj]
  have hne := fnv1aUpdate_ne hash (before.flatMap entryBytes ++ (u64 f.rel.length ++ (f.rel ++
    (u64 f.data.length ++ f.data.take j)))) (f.data.drop (j + 1) ++ after.flatMap entryBytes) (Ne.symm hb)
  simp only [List.flatMap_append, List.flatMap_cons, entryBytes, FileEntry.change, List.length_set]
  rw [hset]
  nth_rewrite 2 [hdata]
  simpa only [List.append_assoc, List.cons_append] using hne

theorem unpack_set_iff {bytes : Bytes} (hpack : packDirectoryToFile dir = .ok bytes)
    (hfiles : dir.files = before ++ f :: after) (hj : j < f.data.length) {b : UInt8} (hb : b ≠ f.data[j])
    (c : Contents) :
    unpackFileToDirectory c (bytes.set (contentsStart dir.files.length before f + j) b) 0 = .error checksumMismatch ↔
      (∀ f ∈ dir.files, ShortPath f) ∧ dir.files.length ≤ 10000000 := by
  obtain ⟨hsafe, rfl⟩ := (packDirectoryToFile_iff dir bytes).mp hpack
  have hrels : ∀ P : Bytes → Prop, (∀ g ∈ before ++ f.change j b :: after, P g.rel) ↔ ∀ g ∈ dir.files, P g.rel := by
    intro P
    rw [hfiles]
    simp only [List.forall_mem_append, List.forall_mem_cons]
    exact Iff.rfl
  have hsafe' := (hrels fun rel => ensureSafeRelativePath rel = .ok ()).mpr hsafe
  have hshort : (∀ g ∈ before ++ f.change j b :: after, ShortPath g) ↔ ∀ g ∈ dir.files, ShortPath g :=
    hrels fun rel => rel.length ≤ 4096
  have hlen : (before ++ f.change j b :: after).length = dir.files.length := by
    rw [hfiles, List.length_append, List.length_append, List.length_cons, List.length_cons]
  obtain ⟨stored, hstored⟩ : ∃ stored, stored = fnv1aUpdate fnv1aBasis dir.payload := ⟨_, rfl⟩
  have hset := archive_set before after dir.files.length hj b (appendTrivial stored)
  have hne := fnv1aUpdate_change before after fnv1aBasis hj hb
  rw [← hfiles] at hset hne
  rw [← hstored, Directory.payload, hset, ← hlen, List.append_assoc, ← hshort]
  refine unpack_mismatch_iff.trans ⟨fun ⟨r, stored', off, hok, _⟩ => ?_, fun hlim => ?_⟩
  · by_contra hlim
    obtain ⟨e, he⟩ := (fails_unpackBody hsafe' (hlen ▸ dir.size_lt) hlim stored c).run []
    rw [List.append_nil, hok] at he
    cases he
  · have hread := (decodes_unpackBody hsafe' hlim.1 hlim.2 stored c).run []
    rw [List.append_nil] at hread
    exact ⟨_, _, _, hread, hstored ▸ hne⟩

/-- An archive in which one byte of a file was changed is refused for its checksum if and only if
the directory was within the limits of the reader; and the hash tells apart any two strings of one
length that differ in one place. -/
theorem unpack_corrupted_iff (dir : Directory) :
    (∀ (bytes : Bytes) (before : List FileEntry) (f : FileEntry) (after : List FileEntry) (j : Nat)
      (b : UInt8) (c : Contents), packDirectoryToFile dir = .ok bytes → dir.files = before ++ f :: after →
      (hj : j < f.data.length) → b ≠ f.data[j] →
      (unpackFileToDirectory c (bytes.set (contentsStart dir.files.length before f + j) b) 0 =
          .error (corrupt "archive checksum mismatch") ↔
        (∀ f ∈ dir.files, f.rel.length ≤ 4096) ∧ dir.files.length ≤ 10000000)) ∧
    ∀ (h : UInt64) (as bs : Bytes) (i : Nat), as.length = bs.length → as[i]? ≠ bs[i]? →
      (∀ j, j ≠ i → as[j]? = bs[j]?) → fnv1aUpdate h as ≠ fnv1aUpdate h bs :=
  ⟨fun _ _ _ _ _ _ c hpack hfiles hj hb => unpack_set_iff _ _ hpack hfiles hj hb c,
    fun h _ _ _ => fnv1aUpdate_ne_of_differ h⟩

theorem unpack_corrupted_oneFile : ∃ bytes, packDirectoryToFile oneFile = .ok bytes ∧
    unpackFileToDirectory (fun _ => none) (bytes.set (contentsStart 1 [] ⟨[97], [1, 2], by decide, by decide⟩ + 0) 9)
      0 =
      .error (corrupt "archive checksum mismatch") := by
  obtain ⟨bytes, h⟩ : ∃ bytes, packDirectoryToFile oneFile = .ok bytes :=
    ⟨_, (packDirectoryToFile_iff _ _).mpr ⟨by simp [oneFile, Safe]; decide, rfl⟩⟩
  exact ⟨bytes, h, ((unpack_corrupted_iff oneFile).1 bytes [] ⟨[97], [1, 2], by decide, by decide⟩ [] 0 9
    (fun _ => none)
    h rfl (by decide) (by decide)).mpr ⟨by simp [oneFile], by simp [oneFile]⟩⟩

end Corrupted

section Many

variable {n : Nat} (hn : n < 2 ^ 62)

def filesAndByte : Directory where
  files := ⟨numberName n, [1], length_numberName_lt (hn.trans (by decide)), by decide⟩ ::
    (emptyFiles (n := n) (hn.trans (by decide))).files
  nodup := by
    rw [List.map_cons, List.nodup_cons]
    refine ⟨fun hmem => ?_, (emptyFiles _).nodup⟩
    obtain ⟨g, hg, hname⟩ := List.mem_map.mp hmem
    obtain ⟨i, -, rfl⟩ := List.mem_map.mp hg
    have hi : (i : Nat) = n := numberName_injective hname
    exact i.isLt.ne hi
  size_lt := by
    rw [List.length_cons, emptyFiles, List.length_map, List.length_finRange]
    exact (Nat.succ_le_of_lt hn).trans_lt (by decide)

theorem filesAndByte_other_error (hmany : 10000000 ≤ n) :
    ∃ bytes f after, packDirectoryToFile (filesAndByte hn) = .ok bytes ∧ (filesAndByte hn).files = f :: after ∧
      f.data = [1] ∧ unpackFileToDirectory (fun _ => none)
        (bytes.set (contentsStart (filesAndByte hn).files.length [] f) 2) 0 ≠
          .error (corrupt "archive checksum mismatch") := by
  have hone : Safe (emptyFile (n := n + 1) (by omega) (Fin.last n)) := safe_emptyFile _ _
  have hsafe : ∀ f ∈ (filesAndByte hn).files, Safe f :=
    List.forall_mem_cons.mpr ⟨hone, safe_of_mem_emptyFiles _⟩
  have hpack := (packDirectoryToFile_iff (filesAndByte hn) _).mpr ⟨hsafe, rfl⟩
  refine ⟨_, _, _, hpack, rfl, rfl, fun herr => ?_⟩
  have hcount := ((unpack_set_iff [] _ (j := 0) hpack rfl Nat.one_pos
    (show (2 : UInt8) ≠ 1 by decide) _).mp herr).2
  rw [filesAndByte, List.length_cons, emptyFiles, List.length_map, List.length_finRange] at hcount
  omega

end Many

/-- Of ten million files and one more the changed byte is not what is reported. -/
theorem unpack_manyFiles_other_error :
    ∃ bytes f after, packDirectoryToFile (filesAndByte (n := 10000000) (by omega)) = .ok bytes ∧
      (filesAndByte (n := 10000000) (by omega)).files = f :: after ∧ f.data = [1] ∧
      unpackFileToDirectory (fun _ => none)
        (bytes.set (contentsStart (filesAndByte (n := 10000000) (by omega)).files.length [] f) 2) 0 ≠
          .error (corrupt "archive checksum mismatch") :=
  filesAndByte_other_error _ (Nat.le_refl _)

end PhyEngine.FileFormat
