import Mathlib.Data.List.Nodup

/-!
# Systems of equations over variables

A system is a list of equations `target = fn v`, each of which reads only its dependencies.
`Derives` evaluates the equations from the bottom up; every solution agrees with it. `below`
bounds the depth of an evaluation in a ranked system.
-/

namespace Equations

variable {ι α : Type*}

structure Equation (ι α : Type*) where
  target : ι
  deps : List ι
  fn : (ι → α) → α
  reads : ∀ v w, (∀ d ∈ deps, v d = w d) → fn v = fn w

variable (target : ι)

def Equation.const (a : α) : Equation ι α :=
  ⟨target, [], fun _ => a, fun _ _ _ => rfl⟩

/-- An equation that applies a function to the values of a list of variables. -/
def Equation.apply (deps : List ι) (f : List α → α) : Equation ι α where
  target := target
  deps := deps
  fn := fun v => f (deps.map v)
  reads := fun _ _ h => congrArg f (List.map_congr_left h)

@[simp] theorem Equation.const_target (a : α) : (const target a).target = target := rfl

@[simp] theorem Equation.apply_target (deps : List ι) (f : List α → α) :
    (apply target deps f).target = target := rfl

variable (E : List (Equation ι α))

def Solves (v : ι → α) : Prop :=
  ∀ e ∈ E, v e.target = e.fn v

/-- `Derives E x a`: evaluating the equations gives `x` the value `a`. -/
inductive Derives (E : List (Equation ι α)) : ι → α → Prop
  | intro (e : Equation ι α) (he : e ∈ E) (v : ι → α)
      (hv : ∀ d ∈ e.deps, Derives E d (v d)) : Derives E e.target (e.fn v)

def Ranked (rank : ι → Nat) : Prop :=
  ∀ e ∈ E, ∀ d ∈ e.deps, rank d < rank e.target

def SingleDriver : Prop :=
  (E.map (·.target)).Nodup

namespace Derives

variable {E F : List (Equation ι α)}

variable {x : ι} {a : α}

theorem of_const (h : Equation.const x a ∈ E) : Derives E x a :=
  intro (Equation.const x a) h (fun _ => a) (by simp [Equation.const])

theorem eq_of_solves {v : ι → α} (hs : Solves E v) (h : Derives E x a) :
    v x = a := by
  induction h with
  | intro e he w _ ih =>
    rw [hs e he]
    exact e.reads v w ih

theorem exists_equation (h : Derives E x a) :
    ∃ e ∈ E, e.target = x ∧ ∃ v, e.fn v = a ∧ ∀ d ∈ e.deps, Derives E d (v d) := by
  obtain ⟨e, he, v, hv⟩ := h
  exact ⟨e, he, rfl, v, rfl, hv⟩

end Derives

theorem SingleDriver.eq_of_target {E : List (Equation ι α)} (h : SingleDriver E)
    {e f : Equation ι α} (he : e ∈ E) (hf : f ∈ E) (ht : e.target = f.target) : e = f :=
  List.inj_on_of_nodup_map h he hf ht

theorem SingleDriver.derives_unique {E : List (Equation ι α)} (h : SingleDriver E)
    {x : ι} {a b : α} (ha : Derives E x a) (hb : Derives E x b) : a = b := by
  induction ha generalizing b with
  | intro e he v _ ih =>
    obtain ⟨f, hf, htarget, w, rfl, hw⟩ := hb.exists_equation
    obtain rfl := h.eq_of_target hf he htarget
    exact f.reads v w fun d hd => ih d hd (hw d hd)

section Depth

variable {κ : Type*} (rank : κ → Nat)

/-- How many of the listed variables rank at most as high as `x`. -/
def below (xs : List κ) (x : κ) : Nat := xs.countP fun y => rank y ≤ rank x

theorem below_le_length (xs : List κ) (x : κ) : below rank xs x ≤ xs.length :=
  List.countP_le_length

theorem below_lt {xs : List κ} {x y : κ} (hx : x ∈ xs) (h : rank y < rank x) :
    below rank xs y < below rank xs x := by
  obtain ⟨front, back, rfl⟩ := List.append_of_mem hx
  have hmono (zs : List κ) : below rank zs y ≤ below rank zs x := by
    refine List.countP_mono_left fun z _ hz => ?_
    simp only [decide_eq_true_eq] at hz ⊢
    omega
  have hfront := hmono front
  have hback := hmono back
  have hself : ¬ rank x ≤ rank y := by omega
  simp only [below, List.countP_append, List.countP_cons] at hfront hback ⊢
  simp [hself]
  omega

end Depth

end Equations
