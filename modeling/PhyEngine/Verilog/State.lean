import PhyEngine.Verilog.Syntax
import Mathlib.Data.List.GetD
import Mathlib.Data.UInt

/-!
# The state of a module instance

`module_state` of `digital.h`, `assign_signal` and lists of assignments, and
`begin_change_epoch`. The memo of `eval_expr_cached` is not part of the state: every evaluation
takes a fresh token.
-/

namespace PhyEngine.Verilog

structure ScheduledEvent where
  dueTick : UInt64
  nonblocking : Bool
  lhsSignal : Nat := 2 ^ 64 - 1
  exprRoot : Nat := 2 ^ 64 - 1
  isVector : Bool := false
  lhsSignals : List Nat := []
  exprRoots : List Nat := []
  deriving DecidableEq

structure ModuleState where
  values : List LogicT := []
  prevValues : List LogicT := []
  combPrevValues : List LogicT := []
  combInitialized : Bool := false
  initialRan : Bool := false
  initialBaseTick : UInt64 := 0
  events : List ScheduledEvent := []
  nbaQueue : List (Nat × LogicT) := []
  nextNetValues : List LogicT := []
  changeMark : List UInt32 := []
  changedSignals : List Nat := []
  changeToken : UInt32 := 1
  deriving DecidableEq

namespace ModuleState

def get (st : ModuleState) (s : Nat) : LogicT := st.values.getD s .X

def grow {β : Type} (xs : List β) (n : Nat) (x : β) : List β :=
  xs ++ List.replicate (n - xs.length) x

def beginChangeEpoch (st : ModuleState) : ModuleState :=
  let token := st.changeToken + 1
  let (token, marks) := if token = 0 then (1, st.changeMark.map fun _ => 0) else (token, st.changeMark)
  { st with changedSignals := []
            changeToken := token
            changeMark := grow marks st.values.length 0 }

def assignSignal (st : ModuleState) (sig : Nat) (v : LogicT) : ModuleState × Bool :=
  if st.values.length ≤ sig ∨ st.get sig = v then (st, false)
  else
    let marks := grow st.changeMark st.values.length 0
    if marks.getD sig 0 = st.changeToken then
      ({ st with values := st.values.set sig v, changeMark := marks }, true)
    else
      ({ st with values := st.values.set sig v
                 changeMark := marks.set sig st.changeToken
                 changedSignals := st.changedSignals ++ [sig] }, true)

/-- `assign_signal` on a list of signals and values, and whether any value changed. -/
def assignAll (st : ModuleState) : List (Nat × LogicT) → ModuleState × Bool
  | [] => (st, false)
  | w :: ws =>
    let r := st.assignSignal w.1 w.2
    let r' := r.1.assignAll ws
    (r'.1, r.2 || r'.2)

/-- Which fields an assignment leaves alone. -/
structure SameBut (st st' : ModuleState) : Prop where
  length : st'.values.length = st.values.length
  prevValues : st'.prevValues = st.prevValues
  combPrevValues : st'.combPrevValues = st.combPrevValues
  combInitialized : st'.combInitialized = st.combInitialized
  initialRan : st'.initialRan = st.initialRan
  initialBaseTick : st'.initialBaseTick = st.initialBaseTick
  events : st'.events = st.events
  nbaQueue : st'.nbaQueue = st.nbaQueue
  nextNetValues : st'.nextNetValues = st.nextNetValues
  changeToken : st'.changeToken = st.changeToken

theorem SameBut.refl (st : ModuleState) : SameBut st st := by
  constructor <;> rfl

theorem SameBut.trans {a b c : ModuleState} (h : SameBut a b) (h' : SameBut b c) : SameBut a c := by
  obtain ⟨h1, h2, h3, h4, h5, h6, h7, h8, h9, h10⟩ := h
  obtain ⟨k1, k2, k3, k4, k5, k6, k7, k8, k9, k10⟩ := h'
  exact ⟨k1.trans h1, k2.trans h2, k3.trans h3, k4.trans h4, k5.trans h5, k6.trans h6, k7.trans h7,
    k8.trans h8, k9.trans h9, k10.trans h10⟩

section

variable (st : ModuleState) (sig : Nat) (v : LogicT)

include st sig v

theorem assignSignal_cases :
    (st.assignSignal sig v = (st, false) ∧ (sig < st.values.length → st.get sig = v)) ∨
      ((st.assignSignal sig v).2 = true ∧ sig < st.values.length ∧ st.get sig ≠ v ∧
        (st.assignSignal sig v).1.values = st.values.set sig v) := by
  unfold assignSignal
  by_cases h : st.values.length ≤ sig ∨ st.get sig = v
  · left
    rw [if_pos h]
    refine ⟨rfl, fun hlt => ?_⟩
    rcases h with h | h
    · omega
    · exact h
  · right
    rw [if_neg h]
    push Not at h
    dsimp only
    split
    · exact ⟨rfl, h.1, h.2, rfl⟩
    · exact ⟨rfl, h.1, h.2, rfl⟩

theorem sameBut_assignSignal :
    SameBut st (st.assignSignal sig v).1 := by
  unfold assignSignal
  split
  · exact SameBut.refl st
  · dsimp only
    split <;> constructor <;> simp

theorem values_assignSignal :
    (st.assignSignal sig v).1.values = st.values.set sig v := by
  rcases assignSignal_cases st sig v with ⟨h, hv⟩ | ⟨-, -, -, h⟩
  · rw [h]
    by_cases hlt : sig < st.values.length
    · have hget := hv hlt
      rw [get, List.getD_eq_getElem _ _ hlt] at hget
      rw [← hget, List.set_getElem_self]
    · rw [List.set_eq_of_length_le (by omega)]
  · exact h

theorem get_assignSignal (s : Nat) :
    (st.assignSignal sig v).1.get s = if s = sig ∧ s < st.values.length then v else st.get s := by
  rw [get, values_assignSignal, get]
  by_cases hs : s = sig
  · subst hs
    by_cases hlt : s < st.values.length
    · simp [List.getD_eq_getElem?_getD, hlt]
    · simp [List.getD_eq_getElem?_getD, hlt]
  · simp [List.getD_eq_getElem?_getD, List.getElem?_set_ne (Ne.symm hs), hs]

end

variable {st : ModuleState} {ws : List (Nat × LogicT)}

theorem assignSignal_of_not_changed {sig : Nat} {v : LogicT} (h : (st.assignSignal sig v).2 = false) :
    (st.assignSignal sig v).1 = st ∧ (sig < st.values.length → st.get sig = v) := by
  rcases assignSignal_cases st sig v with ⟨heq, hv⟩ | ⟨hc, -⟩
  · exact ⟨by rw [heq], hv⟩
  · rw [hc] at h
    cases h

def written (ws : List (Nat × LogicT)) (s : Nat) (v : LogicT) : LogicT :=
  ws.foldl (fun v w => if w.1 = s then w.2 else v) v

theorem written_of_not_mem {s : Nat} (h : s ∉ ws.map Prod.fst) (v : LogicT) : written ws s v = v := by
  induction ws generalizing v with
  | nil => rfl
  | cons w ws ih =>
    simp only [List.map_cons, List.mem_cons, not_or] at h
    have hne : w.1 ≠ s := fun he => h.1 he.symm
    simp only [written, List.foldl_cons, hne, if_false]
    exact ih h.2 v

theorem written_append (ws ws' : List (Nat × LogicT)) (s : Nat) (v : LogicT) :
    written (ws ++ ws') s v = written ws' s (written ws s v) := List.foldl_append

theorem written_cons (w : Nat × LogicT) (ws : List (Nat × LogicT)) (s : Nat) (v : LogicT) :
    written (w :: ws) s v = written ws s (if w.1 = s then w.2 else v) := rfl

theorem written_eq_of_mem {s : Nat} (h : s ∈ ws.map Prod.fst) (v v' : LogicT) : written ws s v = written ws s v' := by
  induction ws generalizing v v' with
  | nil => cases h
  | cons w ws ih =>
    rw [written_cons, written_cons]
    by_cases hrest : s ∈ ws.map Prod.fst
    · exact ih hrest _ _
    · have hw : w.1 = s := by
        rcases List.mem_cons.mp h with h | h
        · exact h.symm
        · exact absurd h hrest
      simp only [hw, if_true]

theorem written_idem (ws : List (Nat × LogicT)) (s : Nat) (v : LogicT) :
    written ws s (written ws s v) = written ws s v := by
  by_cases hs : s ∈ ws.map Prod.fst
  · exact written_eq_of_mem hs _ _
  · rw [written_of_not_mem hs]

theorem sameBut_assignAll (st : ModuleState) (ws : List (Nat × LogicT)) :
    SameBut st (st.assignAll ws).1 := by
  induction ws generalizing st with
  | nil => exact SameBut.refl st
  | cons w ws ih => exact (sameBut_assignSignal st w.1 w.2).trans (ih _)

theorem get_assignAll (st : ModuleState) (ws : List (Nat × LogicT)) (s : Nat) :
    (st.assignAll ws).1.get s = if s < st.values.length then written ws s (st.get s) else .X := by
  induction ws generalizing st with
  | nil =>
    by_cases hlt : s < st.values.length
    · simp [assignAll, written, hlt]
    · simp [assignAll, get, hlt]
  | cons w ws ih =>
    have hlen := (sameBut_assignSignal st w.1 w.2).length
    rw [assignAll, ih, hlen, get_assignSignal, written_cons]
    by_cases hlt : s < st.values.length
    · simp only [hlt, if_true, and_true]
      by_cases hs : s = w.1
      · simp [hs]
      · simp [hs, Ne.symm hs]
    · simp [hlt]

theorem assignAll_of_not_changed (h : (st.assignAll ws).2 = false) :
    (st.assignAll ws).1 = st ∧ ∀ w ∈ ws, w.1 < st.values.length → st.get w.1 = w.2 := by
  induction ws generalizing st with
  | nil => exact ⟨rfl, fun _ hw => by cases hw⟩
  | cons w ws ih =>
    simp only [assignAll, Bool.or_eq_false_iff] at h
    obtain ⟨hfirst, hrest⟩ := h
    obtain ⟨hsame, hv⟩ := assignSignal_of_not_changed hfirst
    rw [hsame] at hrest
    obtain ⟨hall, hws⟩ := ih hrest
    refine ⟨?_, ?_⟩
    · rw [assignAll, hsame]
      exact hall
    · intro w' hw'
      rcases List.mem_cons.mp hw' with rfl | hw'
      · exact hv
      · exact hws w' hw'

theorem assignAll_of_in_place (h : ∀ w ∈ ws, w.1 < st.values.length → st.get w.1 = w.2) :
    st.assignAll ws = (st, false) := by
  induction ws with
  | nil => rfl
  | cons w ws ih =>
    have hw : st.assignSignal w.1 w.2 = (st, false) := by
      rcases assignSignal_cases st w.1 w.2 with ⟨heq, -⟩ | ⟨-, hlt, hne, -⟩
      · exact heq
      · exact absurd (h w List.mem_cons_self hlt) hne
    have hws := ih fun w' hw' => h w' (List.mem_cons_of_mem _ hw')
    simp [assignAll, hw, hws]

end ModuleState

end PhyEngine.Verilog
