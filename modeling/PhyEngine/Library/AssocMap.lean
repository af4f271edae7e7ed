import Mathlib.Data.List.Dedup

/-!
# Association lists with `emplace`

A map as the list of its entries in the order of their insertion. `emplace` keeps an
existing entry, so the first insertion of a key wins.
-/

namespace AssocMap

open List

variable {κ β : Type*} [DecidableEq κ]

def emplace (k : κ) (b : β) (m : List (κ × β)) : List (κ × β) :=
  if (m.lookup k).isSome then m else m ++ [(k, b)]

def emplaceAll (entries m : List (κ × β)) : List (κ × β) :=
  entries.foldl (fun m e => emplace e.1 e.2 m) m

theorem emplaceAll_append (e f m : List (κ × β)) :
    emplaceAll (e ++ f) m = emplaceAll f (emplaceAll e m) := foldl_append

theorem lookup_cons (k j : κ) (b : β) (m : List (κ × β)) :
    ((j, b) :: m).lookup k = if k = j then some b else m.lookup k := by
  by_cases h : k = j
  · simp [h]
  · simp only [List.lookup_cons, beq_eq_false_iff_ne.mpr h, h, if_false]

theorem lookup_append (k : κ) (m m' : List (κ × β)) :
    (m ++ m').lookup k = (m.lookup k).or (m'.lookup k) := by
  induction m with
  | nil => simp
  | cons e m ih =>
    obtain ⟨j, b⟩ := e
    rw [cons_append, lookup_cons, lookup_cons, ih]
    split_ifs <;> rfl

theorem lookup_emplace (k j : κ) (b : β) (m : List (κ × β)) :
    (emplace k b m).lookup j = (m.lookup j).or (if j = k then some b else none) := by
  unfold emplace
  by_cases hs : (m.lookup k).isSome
  · rw [if_pos hs]
    by_cases hj : j = k
    · subst hj
      rw [Option.or_of_isSome hs]
    · simp [hj]
  · rw [if_neg hs, lookup_append, lookup_cons]
    rfl

theorem lookup_emplaceAll (entries m : List (κ × β)) (j : κ) :
    (emplaceAll entries m).lookup j = (m.lookup j).or (entries.lookup j) := by
  induction entries generalizing m with
  | nil => simp [emplaceAll]
  | cons e entries ih =>
    obtain ⟨k, b⟩ := e
    have hcons : emplaceAll ((k, b) :: entries) m = emplaceAll entries (emplace k b m) := rfl
    rw [hcons, ih, lookup_emplace, Option.or_assoc, lookup_cons]
    split_ifs <;> simp

variable {m : List (κ × β)} {b : β} {k : κ}

theorem mem_of_lookup (h : m.lookup k = some b) :
    (k, b) ∈ m := by
  induction m with
  | nil => cases h
  | cons e m ih =>
    obtain ⟨j, c⟩ := e
    rw [lookup_cons] at h
    split_ifs at h with hk
    · cases h
      simp [hk]
    · exact mem_cons_of_mem _ (ih h)

theorem isSome_lookup_iff :
    (m.lookup k).isSome ↔ k ∈ m.map Prod.fst := by
  induction m with
  | nil => simp
  | cons e m ih =>
    obtain ⟨j, c⟩ := e
    rw [lookup_cons, map_cons, mem_cons, ← ih]
    by_cases hk : k = j <;> simp [hk]

theorem lookup_of_mem (hn : (m.map Prod.fst).Nodup)
    (h : (k, b) ∈ m) : m.lookup k = some b := by
  have hs : (m.lookup k).isSome := isSome_lookup_iff.mpr (mem_map_of_mem h)
  obtain ⟨c, hc⟩ := Option.isSome_iff_exists.mp hs
  have heq := inj_on_of_nodup_map hn (mem_of_lookup hc) h rfl
  rw [hc, (Prod.mk.inj heq).2]

theorem nodup_emplace (hn : (m.map Prod.fst).Nodup) :
    ((emplace k b m).map Prod.fst).Nodup := by
  unfold emplace
  split_ifs with hs
  · exact hn
  · rw [isSome_lookup_iff] at hs
    rw [map_append, nodup_append]
    refine ⟨hn, by simp, ?_⟩
    rintro a ha c hc rfl
    simp only [map_cons, map_nil, mem_singleton] at hc
    exact hs (hc ▸ ha)

theorem nodup_emplaceAll {entries : List (κ × β)} (hn : (m.map Prod.fst).Nodup) :
    ((emplaceAll entries m).map Prod.fst).Nodup := by
  induction entries generalizing m with
  | nil => exact hn
  | cons e entries ih => exact ih (nodup_emplace hn)

theorem mem_map_emplaceAll {j : κ} {entries : List (κ × β)} :
    j ∈ (emplaceAll entries []).map Prod.fst ↔ j ∈ entries.map Prod.fst := by
  rw [← isSome_lookup_iff, ← isSome_lookup_iff, lookup_emplaceAll]
  rfl

theorem length_emplaceAll (entries : List (κ × β)) :
    (emplaceAll entries []).length = (entries.map Prod.fst).dedup.length := by
  have hperm : ((emplaceAll entries []).map Prod.fst).Perm (entries.map Prod.fst).dedup := by
    refine (perm_ext_iff_of_nodup (nodup_emplaceAll (m := []) nodup_nil)
      (nodup_dedup _)).mpr ?_
    intro j
    rw [mem_map_emplaceAll, mem_dedup]
  simpa using hperm.length_eq

end AssocMap
