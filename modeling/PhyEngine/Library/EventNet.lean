import Mathlib.Data.DFinsupp.WellFounded

/-!
# Event-driven evaluation of a network

A slot computes its target from its dependencies. Handling a pending variable fires the slots on
it, and a slot whose `Rule` sees a change makes its target pending. With nothing pending the
network is settled (`Invariant`); a ranked one gets there (`process_wellFounded`).
-/

namespace EventNet

open List

/-- When a slot writes its target and enters it among the pending variables. -/
inductive Rule where
  /-- Written always, entered when the cached value differs. -/
  | write
  /-- Written and entered when the cached value differs. -/
  | cached
  /-- Written and entered when the value of the target differs. -/
  | compare
  deriving DecidableEq

theorem Rule.cases (r : Rule) : r = .write ∨ r = .cached ∨ r = .compare := by
  cases r <;> simp

/-- A network: the slots, and for every variable the slots fired when it is handled. -/
structure Net (ι σ α : Type*) where
  slots : List σ
  target : σ → ι
  deps : σ → List ι
  fn : σ → (ι → α) → α
  rule : σ → Rule
  visit : ι → List σ
  reads : ∀ s v w, (∀ d ∈ deps s, v d = w d) → fn s v = fn s w

structure State (ι σ α : Type*) where
  val : ι → α
  cache : σ → α
  pending : Finset ι

namespace Net

section Definitions

variable {ι σ α : Type*} (N : Net ι σ α)

def SingleDriver : Prop := ∀ s ∈ N.slots, ∀ t ∈ N.slots, N.target s = N.target t → s = t

def Ranked (rank : ι → Nat) : Prop :=
  ∀ s ∈ N.slots, ∀ d ∈ N.deps s, rank d < rank (N.target s)

def NoSelfLoop : Prop := ∀ s ∈ N.slots, N.target s ∉ N.deps s

/-- Handling a variable fires the slots that read it, and no others than slots. -/
structure Attached : Prop where
  visited : ∀ s ∈ N.slots, ∀ d ∈ N.deps s, s ∈ N.visit d
  visits : ∀ n, ∀ s ∈ N.visit n, s ∈ N.slots

def Settled (st : State ι σ α) (s : σ) : Prop := st.val (N.target s) = N.fn s st.val

def CacheOk (st : State ι σ α) (s : σ) : Prop :=
  N.rule s ≠ .compare → st.cache s = st.val (N.target s)

/-- Every slot has a truthful cache, and every slot outside `except` is settled unless one
of its dependencies is pending. -/
structure Invariant (except : σ → Prop) (st : State ι σ α) : Prop where
  cache : ∀ s ∈ N.slots, N.CacheOk st s
  settled : ∀ s ∈ N.slots, ¬ except s → N.Settled st s ∨ ∃ d ∈ N.deps s, d ∈ st.pending

variable {N}

theorem Ranked.noSelfLoop {rank : ι → Nat} (h : N.Ranked rank) : N.NoSelfLoop :=
  fun s hs hd => lt_irrefl _ (h s hs _ hd)

namespace Invariant

variable {except except' : σ → Prop} {st : State ι σ α} {s : σ}

theorem mono (h : N.Invariant except st) (hsub : ∀ s ∈ N.slots, except s → except' s) :
    N.Invariant except' st :=
  ⟨h.cache, fun s hs hne => h.settled s hs fun he => hne (hsub s hs he)⟩

theorem settled_of_pending_empty (h : N.Invariant except st) (hp : st.pending = ∅)
    (hs : s ∈ N.slots) (hne : ¬ except s) : N.Settled st s := by
  rcases h.settled s hs hne with hok | ⟨d, _, hd⟩
  · exact hok
  · rw [hp] at hd
    exact absurd hd (Finset.notMem_empty d)

end Invariant

end Definitions

variable {ι σ α : Type*} [DecidableEq ι] [DecidableEq σ] [DecidableEq α] (N : Net ι σ α)

variable (st : State ι σ α)

def enters (s : σ) (v : α) : Bool :=
  match N.rule s with
  | .write | .cached => decide (st.cache s ≠ v)
  | .compare => decide (st.val (N.target s) ≠ v)

/-- Whether a slot that computes `v` writes its target. -/
def writes (s : σ) (v : α) : Bool :=
  match N.rule s with
  | .write => true
  | _ => N.enters st s v

def store (s : σ) (v : α) : State ι σ α where
  val := if N.writes st s v then Function.update st.val (N.target s) v else st.val
  cache := if N.rule s = .compare then st.cache else Function.update st.cache s v
  pending := if N.enters st s v then insert (N.target s) st.pending else st.pending

def fire (s : σ) : State ι σ α := N.store st s (N.fn s st.val)

def fireAll (ss : List σ) : State ι σ α := ss.foldl N.fire st

def process (n : ι) (st : State ι σ α) : State ι σ α :=
  N.fireAll { st with pending := st.pending.erase n } (N.visit n)

variable {N}

section Fire

variable {st : State ι σ α} {s t : σ}

theorem fire_val_of_ne {n : ι} (h : n ≠ N.target s) : (N.fire st s).val n = st.val n := by
  simp only [fire, store]
  split
  · exact Function.update_of_ne h _ _
  · rfl

theorem fire_cache_of_ne (h : t ≠ s) : (N.fire st s).cache t = st.cache t := by
  simp only [fire, store]
  split
  · rfl
  · exact Function.update_of_ne h _ _

theorem fire_cache_self (h : N.rule s ≠ .compare) : (N.fire st s).cache s = N.fn s st.val := by
  simp only [fire, store, if_neg h]
  exact Function.update_self _ _ _

theorem mem_pending_fire {n : ι} :
    n ∈ (N.fire st s).pending ↔
      n ∈ st.pending ∨ n = N.target s ∧ N.enters st s (N.fn s st.val) = true := by
  simp only [fire, store]
  split
  · simp_all [or_comm]
  · simp_all

theorem pending_subset_fire : st.pending ⊆ (N.fire st s).pending :=
  fun _ hn => mem_pending_fire.mpr (Or.inl hn)

theorem fire_fn_of_notMem (h : N.target s ∉ N.deps t) :
    N.fn t (N.fire st s).val = N.fn t st.val :=
  N.reads t _ _ fun _ hd => fire_val_of_ne fun he => h (he ▸ hd)

theorem fire_fn_self (hself : N.NoSelfLoop) (hs : s ∈ N.slots) :
    N.fn s (N.fire st s).val = N.fn s st.val :=
  fire_fn_of_notMem (hself s hs)

end Fire

theorem fireAll_eq_foldl_store (val : ι → α) (ss : List σ) :
    ∀ st : State ι σ α, (∀ s ∈ ss, ∀ t ∈ ss, N.target s ∉ N.deps t) →
      (∀ s ∈ ss, ∀ d ∈ N.deps s, st.val d = val d) →
      N.fireAll st ss = ss.foldl (fun st s => N.store st s (N.fn s val)) st := by
  induction ss with
  | nil => exact fun st _ _ => rfl
  | cons s ss ih =>
    intro st hindep hval
    have hfn : N.fn s st.val = N.fn s val := N.reads s _ _ (hval s mem_cons_self)
    have hfire : N.fire st s = N.store st s (N.fn s val) := by rw [fire, hfn]
    simp only [fireAll, foldl_cons] at ih ⊢
    rw [← hfire]
    refine ih _ (fun t ht u hu => hindep t (mem_cons_of_mem _ ht) u (mem_cons_of_mem _ hu)) ?_
    intro t ht d hd
    have hne : d ≠ N.target s := by
      rintro rfl
      exact hindep s mem_cons_self t (mem_cons_of_mem _ ht) hd
    rw [fire_val_of_ne hne]
    exact hval t (mem_cons_of_mem _ ht) d hd

namespace Invariant

variable {except : σ → Prop} {st : State ι σ α} {s : σ}

theorem fire_changes (hc : N.CacheOk st s) (hne : (N.fire st s).val (N.target s) ≠ st.val (N.target s)) :
    N.target s ∈ (N.fire st s).pending := by
  refine mem_pending_fire.mpr (Or.inr ⟨rfl, ?_⟩)
  by_contra henters
  apply hne
  rcases (N.rule s).cases with hr | hr | hr
  · have hcache := hc (by simp [hr])
    simp only [enters, hr, decide_eq_true_eq, not_not] at henters
    simp [fire, store, writes, hr, ← hcache, henters]
  · simp [fire, store, writes, hr, henters]
  · simp [fire, store, writes, hr, henters]

theorem fire_val_self (hc : N.CacheOk st s) : (N.fire st s).val (N.target s) = N.fn s st.val := by
  rcases (N.rule s).cases with hr | hr | hr
  · simp [fire, store, writes, hr]
  · have hcache := hc (by simp [hr])
    by_cases hv : st.cache s = N.fn s st.val
    · simp [fire, store, writes, enters, hr, hv, ← hcache]
    · simp [fire, store, writes, enters, hr, hv]
  · by_cases hv : st.val (N.target s) = N.fn s st.val
    · simp [fire, store, writes, enters, hr, hv]
    · simp [fire, store, writes, enters, hr, hv]

theorem fire (h : N.Invariant except st) (hsd : N.SingleDriver) (hself : N.NoSelfLoop)
    (hs : s ∈ N.slots) : N.Invariant (fun t => except t ∧ t ≠ s) (N.fire st s) := by
  constructor
  · intro t ht hrule
    by_cases hts : t = s
    · subst hts
      rw [fire_cache_self hrule, fire_val_self (h.cache t ht)]
    · have htarget : N.target t ≠ N.target s := fun he => hts (hsd t ht s hs he)
      rw [fire_cache_of_ne hts, fire_val_of_ne htarget]
      exact h.cache t ht hrule
  · intro t ht hne
    by_cases hts : t = s
    · subst hts
      left
      rw [Settled, fire_val_self (h.cache t ht), fire_fn_self hself ht]
    · have htarget : N.target t ≠ N.target s := fun he => hts (hsd t ht s hs he)
      rcases h.settled t ht (fun he => hne ⟨he, hts⟩) with hok | ⟨d, hd, hp⟩
      · by_cases hval : (N.fire st s).val (N.target s) = st.val (N.target s)
        · left
          have hsame : (N.fire st s).val = st.val := by
            funext n
            by_cases hn : n = N.target s
            · rw [hn, hval]
            · exact fire_val_of_ne hn
          rw [Settled, hsame]
          exact hok
        · by_cases hdep : N.target s ∈ N.deps t
          · exact Or.inr ⟨_, hdep, fire_changes (h.cache s hs) hval⟩
          · left
            rw [Settled, fire_val_of_ne htarget, fire_fn_of_notMem hdep]
            exact hok
      · exact Or.inr ⟨d, hd, pending_subset_fire hp⟩

theorem fireAll (hsd : N.SingleDriver) (hself : N.NoSelfLoop) (ss : List σ) :
    ∀ {except : σ → Prop} {st : State ι σ α}, (∀ s ∈ ss, s ∈ N.slots) → N.Invariant except st →
      N.Invariant (fun t => except t ∧ t ∉ ss) (N.fireAll st ss) := by
  induction ss with
  | nil =>
    intro except st _ h
    exact h.mono fun s _ he => ⟨he, not_mem_nil⟩
  | cons s ss ih =>
    intro except st hmem h
    have hrest := ih (fun t ht => hmem t (mem_cons_of_mem _ ht))
      (h.fire hsd hself (hmem s mem_cons_self))
    refine hrest.mono fun t _ ht => ⟨ht.1.1, ?_⟩
    rw [mem_cons, not_or]
    exact ⟨ht.1.2, ht.2⟩

/-- Handling a pending variable keeps the invariant: the slots that lose their reason to
wait are exactly the ones that are fired. -/
theorem process (h : N.Invariant except st) (hsd : N.SingleDriver) (hself : N.NoSelfLoop)
    (hat : N.Attached) (n : ι) : N.Invariant except (N.process n st) := by
  have herased : N.Invariant (fun s => except s ∨ s ∈ N.visit n)
      { st with pending := st.pending.erase n } := by
    refine ⟨h.cache, fun s hs hne => ?_⟩
    rcases h.settled s hs (fun he => hne (Or.inl he)) with hok | ⟨d, hd, hp⟩
    · exact Or.inl hok
    · refine Or.inr ⟨d, hd, Finset.mem_erase.mpr ⟨?_, hp⟩⟩
      rintro rfl
      exact hne (Or.inr (hat.visited s hs d hd))
  have hall := herased.fireAll hsd hself (N.visit n) (hat.visits n)
  refine hall.mono fun s _ hs => ?_
  rcases hs.1 with he | hv
  · exact he
  · exact absurd hv hs.2

end Invariant

/-! ## Termination

The weight of a rank counts the slots of that rank that a firing would change, twice, and
the pending variables of that rank. Firing an unstable slot costs two and adds one pending
variable of the same rank; only higher ranks are disturbed by the new value. -/

section Termination

variable (N) in
/-- Whether firing a slot would change anything but its cache. -/
def unstable (st : State ι σ α) (s : σ) : Bool :=
  N.enters st s (N.fn s st.val) || N.writes st s (N.fn s st.val) && decide (st.val (N.target s) ≠ N.fn s st.val)

variable (N) in
def weightAt (rank : ι → Nat) (st : State ι σ α) (k : Nat) : Nat :=
  2 * N.slots.countP (fun s => rank (N.target s) = k ∧ N.unstable st s) +
    (st.pending.filter fun n => rank n = k).card

variable (N) in
/-- The weights of the ranks below `B`, the lowest rank counting most. -/
def weight (rank : ι → Nat) (B : Nat) (st : State ι σ α) : Lex (Fin B → Nat) :=
  toLex fun k => N.weightAt rank st k

variable {st st' : State ι σ α} {s t : σ} {rank : ι → Nat}

omit [DecidableEq ι] [DecidableEq σ] in
theorem unstable_congr (htarget : st'.val (N.target t) = st.val (N.target t))
    (hfn : N.fn t st'.val = N.fn t st.val)
    (hcache : N.rule t ≠ .compare → st'.cache t = st.cache t) :
    N.unstable st' t = N.unstable st t := by
  rcases (N.rule t).cases with hr | hr | hr
  · simp [unstable, writes, enters, hr, htarget, hfn, hcache (by simp [hr])]
  · simp [unstable, writes, enters, hr, htarget, hfn, hcache (by simp [hr])]
  · simp [unstable, writes, enters, hr, htarget, hfn]

theorem fire_of_stable (h : N.unstable st s = false) :
    (N.fire st s).val = st.val ∧ (N.fire st s).pending = st.pending := by
  simp only [unstable, Bool.or_eq_false_iff] at h
  refine ⟨?_, by simp [fire, store, h.1]⟩
  simp only [fire, store]
  split
  · rename_i hw
    have hv : st.val (N.target s) = N.fn s st.val := by simpa [hw] using h.2
    rw [← hv, Function.update_eq_self]
  · rfl

theorem unstable_fire_self (hself : N.NoSelfLoop) (hs : s ∈ N.slots) :
    N.unstable (N.fire st s) s = false := by
  have hfn : N.fn s (N.fire st s).val = N.fn s st.val := fire_fn_self hself hs
  rcases (N.rule s).cases with hr | hr | hr
  · have hval : (N.fire st s).val (N.target s) = N.fn s st.val := by
      simp [fire, store, writes, hr]
    have hcache : (N.fire st s).cache s = N.fn s st.val := fire_cache_self (by simp [hr])
    simp [unstable, writes, enters, hr, hfn, hval, hcache]
  · have hcache : (N.fire st s).cache s = N.fn s st.val := fire_cache_self (by simp [hr])
    simp [unstable, writes, enters, hr, hfn, hcache]
  · have hval : (N.fire st s).val (N.target s) = N.fn s st.val := by
      by_cases hv : st.val (N.target s) = N.fn s st.val
      · simp [fire, store, writes, enters, hr, hv]
      · simp [fire, store, writes, enters, hr, hv]
    simp [unstable, writes, enters, hr, hfn, hval]

theorem unstable_fire_of_rank_le (hsd : N.SingleDriver) (hrank : N.Ranked rank)
    (hs : s ∈ N.slots) (ht : t ∈ N.slots) (hts : t ≠ s)
    (hle : rank (N.target t) ≤ rank (N.target s)) :
    N.unstable (N.fire st s) t = N.unstable st t := by
  have htarget : N.target t ≠ N.target s := fun he => hts (hsd t ht s hs he)
  have hdep : N.target s ∉ N.deps t := by
    intro hd
    have := hrank t ht _ hd
    omega
  exact unstable_congr (fire_val_of_ne htarget) (fire_fn_of_notMem hdep)
    fun _ => fire_cache_of_ne hts

theorem weightAt_fire_of_stable (h : N.unstable st s = false) (hself : N.NoSelfLoop)
    (hs : s ∈ N.slots) (k : Nat) :
    N.weightAt rank (N.fire st s) k = N.weightAt rank st k := by
  obtain ⟨hval, hpending⟩ := fire_of_stable h
  have hcount (t : σ) : N.unstable (N.fire st s) t = N.unstable st t := by
    by_cases hts : t = s
    · subst hts
      rw [unstable_fire_self hself hs, h]
    · exact unstable_congr (by rw [hval]) (by rw [hval]) fun _ => fire_cache_of_ne hts
  simp only [weightAt, hpending, hcount]

theorem weightAt_fire_of_lt (hsd : N.SingleDriver) (hrank : N.Ranked rank) (hs : s ∈ N.slots)
    {k : Nat} (hk : k < rank (N.target s)) :
    N.weightAt rank (N.fire st s) k = N.weightAt rank st k := by
  have hpending : (N.fire st s).pending.filter (fun n => rank n = k) =
      st.pending.filter fun n => rank n = k := by
    ext n
    simp only [Finset.mem_filter, mem_pending_fire]
    constructor
    · rintro ⟨hn | ⟨rfl, _⟩, hr⟩
      · exact ⟨hn, hr⟩
      · omega
    · rintro ⟨hn, hr⟩
      exact ⟨Or.inl hn, hr⟩
  have hcount : N.slots.countP (fun t => rank (N.target t) = k ∧ N.unstable (N.fire st s) t) =
      N.slots.countP fun t => rank (N.target t) = k ∧ N.unstable st t := by
    refine countP_congr fun t ht => ?_
    simp only [decide_eq_true_eq, and_congr_right_iff]
    intro hr
    have hts : t ≠ s := by
      rintro rfl
      omega
    rw [unstable_fire_of_rank_le hsd hrank hs ht hts (by omega)]
  simp only [weightAt, hpending, hcount]

theorem weightAt_fire_self (hsd : N.SingleDriver) (hrank : N.Ranked rank) (hs : s ∈ N.slots)
    (h : N.unstable st s = true) :
    N.weightAt rank (N.fire st s) (rank (N.target s)) < N.weightAt rank st (rank (N.target s)) := by
  have hpending : ((N.fire st s).pending.filter fun n => rank n = rank (N.target s)).card ≤
      (st.pending.filter fun n => rank n = rank (N.target s)).card + 1 := by
    refine le_trans (Finset.card_le_card ?_) (Finset.card_insert_le (N.target s) _)
    intro n hn
    rw [Finset.mem_filter, mem_pending_fire] at hn
    rw [Finset.mem_insert, Finset.mem_filter]
    rcases hn.1 with hp | ⟨he, _⟩
    · exact Or.inr ⟨hp, hn.2⟩
    · exact Or.inl he
  have hcount :
      N.slots.countP (fun t => rank (N.target t) = rank (N.target s) ∧ N.unstable (N.fire st s) t) <
        N.slots.countP fun t => rank (N.target t) = rank (N.target s) ∧ N.unstable st t := by
    have hmono (ts : List σ) (hts : ∀ t ∈ ts, t ∈ N.slots) :
        ts.countP (fun t => rank (N.target t) = rank (N.target s) ∧ N.unstable (N.fire st s) t) ≤
          ts.countP fun t => rank (N.target t) = rank (N.target s) ∧ N.unstable st t := by
      refine countP_mono_left fun t ht hun => ?_
      simp only [decide_eq_true_eq] at hun ⊢
      refine ⟨hun.1, ?_⟩
      by_cases hne : t = s
      · exact hne ▸ h
      · rw [← unstable_fire_of_rank_le hsd hrank hs (hts t ht) hne (by omega)]
        exact hun.2
    obtain ⟨front, back, hsplit⟩ := append_of_mem hs
    have hfront := hmono front (fun t ht => by simp [hsplit, ht])
    have hback := hmono back (fun t ht => by simp [hsplit, ht])
    rw [hsplit]
    simp only [countP_append, countP_cons, unstable_fire_self hrank.noSelfLoop hs, h]
    simp only [Bool.false_eq_true, and_false, decide_false, and_self, decide_true, if_true, if_false]
    omega
  simp only [weightAt]
  omega

variable {B : Nat}

section

variable (hsd : N.SingleDriver)
include hsd

theorem weight_fire_le (hrank : N.Ranked rank) (hs : s ∈ N.slots) (hB : rank (N.target s) < B) :
    N.weight rank B (N.fire st s) ≤ N.weight rank B st := by
  cases h : N.unstable st s with
  | false =>
    apply le_of_eq
    exact congrArg toLex (funext fun k => weightAt_fire_of_stable h hrank.noSelfLoop hs k)
  | true =>
    refine le_of_lt ⟨⟨rank (N.target s), hB⟩, ?_, weightAt_fire_self hsd hrank hs h⟩
    intro j hj
    exact weightAt_fire_of_lt hsd hrank hs hj

theorem weight_fireAll_le (hrank : N.Ranked rank) (hB : ∀ s ∈ N.slots, rank (N.target s) < B)
    (ss : List σ) :
    ∀ st, (∀ s ∈ ss, s ∈ N.slots) → N.weight rank B (N.fireAll st ss) ≤ N.weight rank B st := by
  induction ss with
  | nil => exact fun st _ => le_rfl
  | cons s ss ih =>
    intro st hmem
    have hs := hmem s mem_cons_self
    exact (ih _ fun t ht => hmem t (mem_cons_of_mem _ ht)).trans
      (weight_fire_le hsd hrank hs (hB s hs))

theorem weight_process_lt (hrank : N.Ranked rank) (hat : N.Attached)
    (hB : ∀ s ∈ N.slots, rank (N.target s) < B) {n : ι} (hn : n ∈ st.pending) (hnB : rank n < B) :
    N.weight rank B (N.process n st) < N.weight rank B st := by
  refine (weight_fireAll_le hsd hrank hB (N.visit n) _ (hat.visits n)).trans_lt ?_
  have hun (k : Nat) : N.slots.countP (fun s => rank (N.target s) = k ∧
      N.unstable { st with pending := st.pending.erase n } s) =
      N.slots.countP fun s => rank (N.target s) = k ∧ N.unstable st s := by
    rfl
  refine ⟨⟨rank n, hnB⟩, ?_, ?_⟩
  · intro j hj
    have hne : ∀ m ∈ st.pending.filter (fun m => rank m = j), m ≠ n := by
      rintro m hm rfl
      have hlt : (j : Nat) < rank m := hj
      have := (Finset.mem_filter.mp hm).2
      omega
    change N.weightAt rank _ _ = N.weightAt rank _ _
    rw [weightAt, weightAt, hun, Finset.filter_erase, Finset.erase_eq_of_notMem fun hm => hne n hm rfl]
  · change N.weightAt rank _ (rank n) < N.weightAt rank _ (rank n)
    rw [weightAt, weightAt, hun, Finset.filter_erase]
    have hmem : n ∈ st.pending.filter fun m => rank m = rank n := Finset.mem_filter.mpr ⟨hn, rfl⟩
    have := Finset.card_erase_lt_of_mem hmem
    omega

omit hsd in
theorem pending_fireAll (ss : List σ) : ∀ (st : State ι σ α) (n : ι),
    n ∈ (N.fireAll st ss).pending → n ∈ st.pending ∨ ∃ s ∈ ss, n = N.target s := by
  induction ss with
  | nil => exact fun st n hn => Or.inl hn
  | cons s ss ih =>
    intro st n hn
    rcases ih _ n hn with hfire | ⟨t, ht, he⟩
    · rcases mem_pending_fire.mp hfire with hp | ⟨he, _⟩
      · exact Or.inl hp
      · exact Or.inr ⟨s, mem_cons_self, he⟩
    · exact Or.inr ⟨t, mem_cons_of_mem _ ht, he⟩

/-- On a ranked network with single drivers the pending variables can be handled only
finitely often, in whatever order they are taken. -/
theorem acc_process (hrank : N.Ranked rank) (hat : N.Attached)
    (st : State ι σ α) : Acc (fun st' st => ∃ n ∈ st.pending, st' = N.process n st) st := by
  obtain ⟨B, hslots, hpending⟩ : ∃ B, (∀ s ∈ N.slots, rank (N.target s) < B) ∧
      ∀ n ∈ st.pending, rank n < B := by
    obtain ⟨B, hB⟩ := (st.pending.image rank ∪
      (N.slots.map fun s => rank (N.target s)).toFinset).exists_nat_subset_range
    refine ⟨B, fun s hs => ?_, fun n hn => ?_⟩
    · refine Finset.mem_range.mp (hB (Finset.mem_union_right _ ?_))
      exact mem_toFinset.mpr (mem_map_of_mem hs)
    · exact Finset.mem_range.mp (hB (Finset.mem_union_left _ (Finset.mem_image_of_mem rank hn)))
  have hwf : WellFounded fun a b : Lex (Fin B → Nat) => a < b := wellFounded_lt
  induction hw : N.weight rank B st using hwf.induction generalizing st with
  | _ w ih =>
    constructor
    rintro st' ⟨n, hn, rfl⟩
    subst hw
    refine ih _ (weight_process_lt hsd hrank hat hslots hn (hpending n hn)) _ ?_ rfl
    intro m hm
    rcases pending_fireAll _ _ _ hm with hp | ⟨s, hs, rfl⟩
    · exact hpending m (Finset.mem_of_mem_erase hp)
    · exact hslots s (hat.visits n s hs)

end

end Termination

end Net

end EventNet
