import Mathlib.Data.List.Nodup
import Mathlib.Data.List.Perm.Subperm
import Mathlib.Data.Set.Basic

/-!
# Searching a graph with an explicit stack

A search takes vertices off a stack and pushes their neighbours; several searches share the list
of what was ever pushed. On a symmetric graph a search that starts outside of that list visits
the connected component of its start, each vertex once.
-/

namespace PhyEngine.GraphSearch

open List

variable {V : Type*} [DecidableEq V] {next : V → List V}

/-- The vertices ever pushed, the stack with its top first, and the visited vertices in
order. -/
structure State (V : Type*) where
  seen : List V
  stack : List V
  out : List V

def push (s : State V) (w : V) : State V :=
  if w ∈ s.seen then s else { s with seen := w :: s.seen, stack := w :: s.stack }

def visit (next : V → List V) (s : State V) (v : V) (rest : List V) : State V :=
  (next v).foldl push { s with stack := rest, out := s.out ++ [v] }

/-- The search with a budget of visits: `none` when it is used up before the stack. -/
def run (next : V → List V) : Nat → State V → Option (State V)
  | 0, s => match s.stack with
    | [] => some s
    | _ :: _ => none
  | k + 1, s => match s.stack with
    | [] => some s
    | v :: rest => run next k (visit next s v rest)

def start (seen : List V) (v : V) : State V := ⟨v :: seen, [v], []⟩

def Reach (next : V → List V) : V → V → Prop := Relation.ReflTransGen fun x y => y ∈ next x

theorem run_nil {s : State V} (h : s.stack = []) (k : Nat) : run next k s = some s := by
  cases k with
  | zero => simp only [run, h]
  | succ k => simp only [run, h]

variable {rest : List V}

theorem run_cons {s : State V} {v : V} (h : s.stack = v :: rest) (k : Nat) :
    run next (k + 1) s = run next k (visit next s v rest) := by
  simp only [run, h]

theorem exists_foldl_push (ws : List V) : ∀ s : State V, ∃ new : List V,
    ws.foldl push s = ⟨new ++ s.seen, new ++ s.stack, s.out⟩ ∧ new.Nodup ∧
      (∀ x ∈ new, x ∈ ws ∧ x ∉ s.seen) ∧ ∀ w ∈ ws, w ∈ new ++ s.seen := by
  induction ws with
  | nil => exact fun s => ⟨[], rfl, nodup_nil, by simp, by simp⟩
  | cons w ws ih =>
    intro s
    by_cases hw : w ∈ s.seen
    · obtain ⟨new, hfold, hnodup, hnew, hall⟩ := ih s
      refine ⟨new, ?_, hnodup, fun x hx => ⟨mem_cons_of_mem w (hnew x hx).1, (hnew x hx).2⟩, ?_⟩
      · rw [foldl_cons, push, if_pos hw, hfold]
      · intro x hx
        rcases mem_cons.mp hx with rfl | hx
        · exact mem_append_right new hw
        · exact hall x hx
    · obtain ⟨new, hfold, hnodup, hnew, hall⟩ :=
        ih { s with seen := w :: s.seen, stack := w :: s.stack }
      have hfresh : w ∉ new := fun hin => (hnew w hin).2 mem_cons_self
      refine ⟨new ++ [w], ?_, ?_, fun x hx => ?_, fun x hx => ?_⟩
      · rw [foldl_cons, push, if_neg hw, hfold]
        simp
      · rw [nodup_append_comm]
        exact nodup_cons.mpr ⟨hfresh, hnodup⟩
      · rcases mem_append.mp hx with hx | hx
        · exact ⟨mem_cons_of_mem w (hnew x hx).1, fun hs => (hnew x hx).2 (mem_cons_of_mem w hs)⟩
        · obtain rfl := mem_singleton.mp hx
          exact ⟨mem_cons_self, hw⟩
      · rw [append_assoc, singleton_append]
        rcases mem_cons.mp hx with rfl | hx
        · exact mem_append_right new mem_cons_self
        · exact hall x hx

variable {g : V}

theorem foldl_push_filter (ws : List V) : ∀ {s : State V}, g ∈ s.seen →
    (ws.filter fun w => decide (w ≠ g)).foldl push s = ws.foldl push s := by
  induction ws with
  | nil => exact fun _ => rfl
  | cons w ws ih =>
    intro s hg
    by_cases hw : w = g
    · subst hw
      rw [filter_cons_of_neg (by simp), ih hg, foldl_cons, push, if_pos hg]
    · rw [filter_cons_of_pos (by simp [hw]), foldl_cons, foldl_cons]
      refine ih ?_
      rw [push]
      split_ifs
      · exact hg
      · exact mem_cons_of_mem w hg

/-- What holds in the middle of a search from `v` that found `old` seen. -/
structure Searching (next : V → List V) (old : List V) (v : V) (s : State V) : Prop where
  seen : ∀ x, x ∈ s.seen ↔ x ∈ old ∨ x ∈ s.out ++ s.stack
  nodup : (s.out ++ s.stack).Nodup
  fresh : ∀ x ∈ s.out ++ s.stack, x ∉ old
  reach : ∀ x ∈ s.out ++ s.stack, Reach next v x
  closed : ∀ x ∈ s.out, ∀ w ∈ next x, w ∈ s.seen
  root : v ∈ s.out ++ s.stack

variable {old : List V} {v : V} {s : State V}

omit [DecidableEq V] in
theorem searching_start (hv : v ∉ old) : Searching next old v (start old v) where
  seen := by
    intro x
    rw [start, nil_append, mem_cons, mem_singleton]
    exact or_comm
  nodup := nodup_singleton v
  fresh := by
    intro x hx
    obtain rfl := mem_singleton.mp hx
    exact hv
  reach := by
    intro x hx
    obtain rfl := mem_singleton.mp hx
    exact .refl
  closed := by
    intro x hx
    cases hx
  root := mem_singleton_self v

variable {x : V}

theorem Searching.visit (h : Searching next old v s) (hstack : s.stack = x :: rest) :
    Searching next old v (visit next s x rest) ∧ (visit next s x rest).out.length = s.out.length + 1 := by
  obtain ⟨new, hfold, hnodup, hnew, hall⟩ := exists_foldl_push (next x) { s with stack := rest, out := s.out ++ [x] }
  have hmem : ∀ y, y ∈ (s.out ++ [x]) ++ (new ++ rest) ↔ y ∈ new ∨ y ∈ s.out ++ s.stack := by
    intro y
    rw [hstack]
    simp only [mem_append, mem_cons]
    tauto
  have hunseen : ∀ y ∈ new, y ∉ old ∧ y ∉ s.out ++ s.stack := fun y hy =>
    not_or.mp fun hold => (hnew y hy).2 ((h.seen y).mpr hold)
  have hx : Reach next v x := h.reach x (by simp [hstack])
  rw [GraphSearch.visit, hfold]
  refine ⟨⟨fun y => ?_, ?_, fun y hy => ?_, fun y hy => ?_, fun y hy w hw => ?_, ?_⟩, ?_⟩
  · rw [hmem, mem_append, h.seen, or_left_comm]
  · have hold := h.nodup
    rw [hstack, append_cons] at hold
    have hperm : ((s.out ++ [x]) ++ (new ++ rest)).Perm (new ++ ((s.out ++ [x]) ++ rest)) := by
      rw [← append_assoc, ← append_assoc]
      exact perm_append_comm.append_right rest
    refine hperm.nodup_iff.mpr (nodup_append.mpr ⟨hnodup, hold, fun y hy z hz => ?_⟩)
    rintro rfl
    refine (hunseen y hy).2 ?_
    rw [hstack, append_cons]
    exact hz
  · rcases (hmem y).mp hy with hy | hy
    · exact (hunseen y hy).1
    · exact h.fresh y hy
  · rcases (hmem y).mp hy with hy | hy
    · exact hx.tail (hnew y hy).1
    · exact h.reach y hy
  · rcases mem_append.mp hy with hy | hy
    · exact mem_append_right new (h.closed y hy w hw)
    · obtain rfl := mem_singleton.mp hy
      exact hall w hw
  · exact (hmem v).mpr (.inr h.root)
  · rw [length_append, length_singleton]

theorem Searching.run {all : List V} (hall : ∀ x, Reach next v x → x ∈ all) (k : Nat) :
    ∀ {s : State V}, Searching next old v s → all.length ≤ s.out.length + k →
      ∃ s', run next k s = some s' ∧ Searching next old v s' ∧ s'.stack = [] := by
  induction k with
  | zero =>
    intro s h hk
    have hsub : s.out ++ s.stack ⊆ all := fun x hx => hall x (h.reach x hx)
    have hlen := (List.Nodup.subperm h.nodup hsub).length_le
    rw [length_append] at hlen
    have hstack : s.stack = [] := eq_nil_of_length_eq_zero (by omega)
    exact ⟨s, run_nil hstack 0, h, hstack⟩
  | succ k ih =>
    intro s h hk
    cases hstack : s.stack with
    | nil => exact ⟨s, run_nil hstack _, h, hstack⟩
    | cons x rest =>
      obtain ⟨hvisit, hlen⟩ := h.visit hstack
      obtain ⟨s', hrun, hs', hend⟩ := ih hvisit (by omega)
      exact ⟨s', (run_cons hstack k).trans hrun, hs', hend⟩

def Closed (next : V → List V) (seen : List V) : Prop := ∀ x ∈ seen, ∀ w ∈ next x, w ∈ seen

omit [DecidableEq V] in
theorem Closed.mem_of_reach (h : Closed next old) {y : V} (hx : x ∈ old) (hxy : Reach next x y) : y ∈ old := by
  induction hxy with
  | refl => exact hx
  | tail _ hedge ih => exact h _ ih _ hedge

omit [DecidableEq V] in
theorem reach_symm (hsymm : ∀ x y, y ∈ next x → x ∈ next y) {y : V} (h : Reach next x y) : Reach next y x := by
  induction h with
  | refl => exact .refl
  | tail _ hedge ih => exact .head (hsymm _ _ hedge) ih

variable {k : Nat}

/-- A search on a symmetric graph from outside of a closed set visits the component of its
start and adds it to the set. -/
theorem exists_run_start (hsymm : ∀ x y, y ∈ next x → x ∈ next y) (hclosed : Closed next old) (hv : v ∉ old)
    {all : List V} (hall : ∀ x, Reach next v x → x ∈ all) (hk : all.length ≤ k) :
    ∃ s, run next k (start old v) = some s ∧ s.out.Nodup ∧ (∀ x, x ∈ s.out ↔ Reach next v x) ∧
      (∀ x, x ∈ s.seen ↔ x ∈ old ∨ Reach next v x) ∧ Closed next s.seen := by
  have hsearching : Searching next old v (start old v) := searching_start hv
  obtain ⟨s, hrun, hs, hend⟩ := hsearching.run hall k (by rw [start]; simpa using hk)
  have hout : s.out ++ s.stack = s.out := by rw [hend, append_nil]
  have hreach : ∀ x, x ∈ s.out ↔ Reach next v x := by
    refine fun x => ⟨fun hx => hs.reach x (hout.symm ▸ hx), fun hx => ?_⟩
    induction hx with
    | refl => exact hout ▸ hs.root
    | @tail x w _ hedge ih =>
      have hw := (hs.seen w).mp (hs.closed x ih w hedge)
      rw [hout] at hw
      -- the old vertices are closed, so an edge to one of them comes from one of them
      refine hw.resolve_left fun hold => hs.fresh x (hout.symm ▸ ih) ?_
      exact hclosed w hold x (hsymm x w hedge)
  have hseen : ∀ x, x ∈ s.seen ↔ x ∈ old ∨ Reach next v x := by
    intro x
    rw [hs.seen, hout, hreach]
  refine ⟨s, hrun, hout ▸ hs.nodup, hreach, hseen, fun x hx w hw => ?_⟩
  rw [hseen] at hx ⊢
  rcases hx with hx | hx
  · exact .inl (hclosed x hx w hw)
  · exact .inr (hx.tail hw)

theorem mem_seen_visit (hg : g ∈ s.seen) : g ∈ (visit next s x rest).seen := by
  obtain ⟨new, hfold, -⟩ := exists_foldl_push (next x) { s with stack := rest, out := s.out ++ [x] }
  rw [visit, hfold]
  exact mem_append_right new hg

theorem mem_seen_run (k : Nat) : ∀ {s s' : State V}, run next k s = some s' → g ∈ s.seen → g ∈ s'.seen := by
  induction k with
  | zero =>
    intro s s' hrun hg
    cases hstack : s.stack with
    | nil =>
      rw [run_nil hstack, Option.some.injEq] at hrun
      exact hrun ▸ hg
    | cons x rest => simp [run, hstack] at hrun
  | succ k ih =>
    intro s s' hrun hg
    cases hstack : s.stack with
    | nil =>
      rw [run_nil hstack, Option.some.injEq] at hrun
      exact hrun ▸ hg
    | cons x rest =>
      rw [run_cons hstack] at hrun
      exact ih hrun (mem_seen_visit hg)

theorem run_filter (k : Nat) : ∀ {s : State V}, g ∈ s.seen →
    run (fun x => (next x).filter fun w => decide (w ≠ g)) k s = run next k s := by
  induction k with
  | zero => exact fun _ => rfl
  | succ k ih =>
    intro s hg
    cases hstack : s.stack with
    | nil => rw [run_nil hstack, run_nil hstack]
    | cons x rest =>
      have hseen : g ∈ ({ s with stack := rest, out := s.out ++ [x] } : State V).seen := hg
      rw [run_cons hstack, run_cons hstack, visit, foldl_push_filter _ hseen]
      exact ih (mem_seen_visit hg)

/-- One start of the collecting loop: a vertex that was not seen gives a component. -/
def collect (next : V → List V) (k : Nat) (st : List V × List (List V)) (v : V) : Option (List V × List (List V)) :=
  if v ∈ st.1 then some st
  else (run next k (start st.1 v)).map fun s => (s.seen, st.2 ++ [s.out])

theorem foldlM_collect_filter (k : Nat) (starts : List V) : ∀ {st : List V × List (List V)}, g ∈ st.1 →
    starts.foldlM (collect (fun x => (next x).filter fun w => decide (w ≠ g)) k) st =
      starts.foldlM (collect next k) st := by
  induction starts with
  | nil => exact fun _ => rfl
  | cons v vs ih =>
    intro st hg
    have hone : collect (fun x => (next x).filter fun w => decide (w ≠ g)) k st v = collect next k st v := by
      have hstart : g ∈ (start st.1 v).seen := mem_cons_of_mem v hg
      rw [collect, collect, run_filter k hstart]
    rw [foldlM_cons, foldlM_cons, hone]
    cases hcollect : collect next k st v with
    | none => rfl
    | some st' =>
      refine ih ?_
      by_cases hv : v ∈ st.1
      · rw [collect, if_pos hv, Option.some.injEq] at hcollect
        exact hcollect ▸ hg
      · rw [collect, if_neg hv, Option.map_eq_some_iff] at hcollect
        obtain ⟨s, hrun, rfl⟩ := hcollect
        exact mem_seen_run k hrun (mem_cons_of_mem v hg)

/-- The components found so far, beside the vertices `old` seen before the loop. -/
structure Collected (next : V → List V) (old : List V) (st : List V × List (List V)) : Prop where
  closed : Closed next st.1
  seen : ∀ x, x ∈ st.1 ↔ x ∈ old ∨ ∃ l ∈ st.2, x ∈ l
  nodup : ∀ l ∈ st.2, l.Nodup
  component : ∀ l ∈ st.2, ∀ x ∈ l, ∀ y, y ∈ l ↔ Reach next x y
  disjoint : st.2.Pairwise List.Disjoint
  fresh : ∀ l ∈ st.2, ∀ x ∈ l, x ∉ old

theorem Collected.collect (hsymm : ∀ x y, y ∈ next x → x ∈ next y) {st : List V × List (List V)}
    (h : Collected next old st) {all : List V} (hall : ∀ x, Reach next v x → x ∈ all) (hk : all.length ≤ k) :
    ∃ st', collect next k st v = some st' ∧ Collected next old st' ∧
      v ∈ st'.1 ∧ st.1 ⊆ st'.1 ∧ ∀ l ∈ st'.2, l ∈ st.2 ∨ ∀ x, x ∈ l ↔ Reach next v x := by
  by_cases hv : v ∈ st.1
  · exact ⟨st, if_pos hv, h, hv, List.Subset.refl _, fun l hl => .inl hl⟩
  · obtain ⟨s, hrun, hnodup, hout, hseen, hclosed⟩ := exists_run_start hsymm h.closed hv hall hk
    have hnew : ∀ x ∈ s.out, x ∉ st.1 := fun x hx hin =>
      hv (h.closed.mem_of_reach hin (reach_symm hsymm ((hout x).mp hx)))
    have hnone : ∀ l ∈ st.2, ∀ x ∈ l, x ∈ st.1 := fun l hl x hx => (h.seen x).mpr (.inr ⟨l, hl, hx⟩)
    have hcases : ∀ {P : List V → Prop}, (∀ l ∈ st.2, P l) → P s.out → ∀ l ∈ st.2 ++ [s.out], P l := by
      intro P hold hone l hl
      rcases mem_append.mp hl with hl | hl
      · exact hold l hl
      · exact mem_singleton.mp hl ▸ hone
    refine ⟨(s.seen, st.2 ++ [s.out]), ?_, ⟨hclosed, fun x => ?_, hcases h.nodup hnodup, ?_, ?_, ?_⟩, ?_, ?_, ?_⟩
    · rw [GraphSearch.collect, if_neg hv, hrun]
      rfl
    · rw [hseen, h.seen, ← hout]
      simp [or_and_right, exists_or, or_assoc]
    · refine hcases h.component fun x hx y => ?_
      rw [hout] at hx ⊢
      exact ⟨fun hy => (reach_symm hsymm hx).trans hy, fun hy => hx.trans hy⟩
    · rw [pairwise_append]
      refine ⟨h.disjoint, pairwise_singleton _ _, fun l hl l' hl' x hx hx' => ?_⟩
      rw [mem_singleton.mp hl'] at hx'
      exact hnew x hx' (hnone l hl x hx)
    · exact hcases h.fresh fun x hx hin => hnew x hx ((h.seen x).mpr (.inl hin))
    · exact (hseen v).mpr (.inr .refl)
    · exact fun x hx => (hseen x).mpr (.inl hx)
    · exact hcases (fun l hl => .inl hl) (.inr hout)

theorem exists_collected (hsymm : ∀ x y, y ∈ next x → x ∈ next y) {all : List V} (hk : all.length ≤ k) (starts : List V)
    (hall : ∀ v ∈ starts, ∀ x, Reach next v x → x ∈ all) :
    ∀ {st : List V × List (List V)}, Collected next old st →
      ∃ st', starts.foldlM (collect next k) st = some st' ∧ Collected next old st' ∧
        (∀ v ∈ starts, v ∈ st'.1) ∧ st.1 ⊆ st'.1 ∧
        ∀ l ∈ st'.2, l ∈ st.2 ∨ ∃ v ∈ starts, ∀ x, x ∈ l ↔ Reach next v x := by
  induction starts with
  | nil => exact fun {st} h => ⟨st, rfl, h, by simp, List.Subset.refl _, fun l hl => .inl hl⟩
  | cons v vs ih =>
    intro st h
    obtain ⟨st₁, hone, h₁, hv, hsub, hlists⟩ := h.collect hsymm (hall v mem_cons_self) hk
    obtain ⟨st₂, hrest, h₂, hvs, hsub₂, hlists₂⟩ := ih (fun w hw => hall w (mem_cons_of_mem v hw)) h₁
    refine ⟨st₂, ?_, h₂, fun w hw => ?_, fun x hx => hsub₂ (hsub hx), fun l hl => ?_⟩
    · rw [foldlM_cons, hone]
      exact hrest
    · rcases mem_cons.mp hw with rfl | hw
      · exact hsub₂ hv
      · exact hvs w hw
    · rcases hlists₂ l hl with hl | ⟨w, hw, hl⟩
      · rcases hlists l hl with hl | hl
        · exact .inl hl
        · exact .inr ⟨v, mem_cons_self, hl⟩
      · exact .inr ⟨w, mem_cons_of_mem v hw, hl⟩

end PhyEngine.GraphSearch
