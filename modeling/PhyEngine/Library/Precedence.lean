import Mathlib.Data.List.Basic

/-!
# Operator precedence by layers of left-associative loops

Expressions over atoms, parentheses, binary operators and a conditional, and a table of levels
that gives every operator its strength. A stack of loops, one for each level (`leftAssoc`), reads
every tree of its table back (`reads_layers`).
-/

inductive OpTree (κ ω : Type) where
  | atom (k : κ)
  | paren (t : OpTree κ ω)
  | bin (o : ω) (l r : OpTree κ ω)
  | cond (c t f : OpTree κ ω)
  deriving DecidableEq

namespace OpTree

variable {κ ω τ α β : Type}

def isCond : OpTree κ ω → Bool
  | cond _ _ _ => true
  | _ => false

/-- The binary operators outside parentheses and conditionals. -/
def spine : OpTree κ ω → List ω
  | bin o l r => l.spine ++ o :: r.spine
  | _ => []

/-- The tree is what its tokens mean when `lev` gives the level of each operator. -/
def WellPrec (lev : ω → Nat) : OpTree κ ω → Prop
  | atom _ => True
  | paren t => t.WellPrec lev
  | bin o l r =>
    (l.isCond = false ∧ ∀ p ∈ l.spine, lev p ≤ lev o) ∧
      (r.isCond = false ∧ ∀ p ∈ r.spine, lev p < lev o) ∧ l.WellPrec lev ∧ r.WellPrec lev
  | cond c t f => c.isCond = false ∧ c.WellPrec lev ∧ t.WellPrec lev ∧ f.WellPrec lev

def full : OpTree κ ω → OpTree κ ω
  | atom k => atom k
  | paren t => paren t.full
  | bin o l r => bin o (paren l.full) (paren r.full)
  | cond c t f => cond (paren c.full) (paren t.full) (paren f.full)

theorem wellPrec_full (lev : ω → Nat) (t : OpTree κ ω) : t.full.WellPrec lev := by
  induction t with
  | atom k => exact trivial
  | paren t ih => exact ih
  | bin o l r ihl ihr => exact ⟨⟨rfl, by simp [spine]⟩, ⟨rfl, by simp [spine]⟩, ihl, ihr⟩
  | cond c t f ihc iht ihf => exact ⟨rfl, ihc, iht, ihf⟩

/-- The tokens that the parts of an expression are written with. -/
structure Lexicon (κ ω τ : Type) where
  atom : κ → τ
  op : ω → τ
  lparen : τ
  rparen : τ
  question : τ
  colon : τ

def tokens (L : Lexicon κ ω τ) : OpTree κ ω → List τ
  | atom k => [L.atom k]
  | paren t => L.lparen :: t.tokens L ++ [L.rparen]
  | bin o l r => l.tokens L ++ L.op o :: r.tokens L
  | cond c t f => c.tokens L ++ L.question :: t.tokens L ++ L.colon :: f.tokens L

/-- The semantic actions of a parser, which thread a state. -/
structure Actions (κ ω α β : Type) where
  atom : κ → β → α × β
  bin : ω → α → α → β → α × β
  cond : α → α → α → β → α × β

def build (A : Actions κ ω α β) : OpTree κ ω → β → α × β
  | atom k, b => A.atom k b
  | paren t, b => t.build A b
  | bin o l r, b =>
    let x := l.build A b
    let y := r.build A x.2
    A.bin o x.1 y.1 y.2
  | cond c t f, b =>
    let x := c.build A b
    let y := t.build A x.2
    let z := f.build A y.2
    A.cond x.1 y.1 z.1 z.2

theorem build_full (A : Actions κ ω α β) (t : OpTree κ ω) (b : β) : t.full.build A b = t.build A b := by
  induction t generalizing b with
  | atom k => rfl
  | paren t ih => exact ih b
  | bin o l r ihl ihr => simp only [full, build, ihl, ihr]
  | cond c t f ihc iht ihf => simp only [full, build, ihc, iht, ihf]

/-- A recursive-descent parse: the value, the tokens that are left and the state. -/
abbrev Parse (τ α β : Type) := List τ → β → α × List τ × β

section

variable [DecidableEq τ] (op : ω → τ) (bin : ω → α → α → β → α × β)

/-- Folds operands to the left while the next token is one of the operators. The number
bounds the rounds; every round takes a token. -/
def leftLoop (next : Parse τ α β) (ops : List ω) : Nat → α → Parse τ α β
  | 0, lhs, ts, b => (lhs, ts, b)
  | _ + 1, lhs, [], b => (lhs, [], b)
  | n + 1, lhs, t :: ts, b =>
    match ops.find? (fun o => op o = t) with
    | none => (lhs, t :: ts, b)
    | some o =>
      let r := next ts b
      let v := bin o lhs r.1 r.2.2
      leftLoop next ops n v.1 r.2.1 v.2

def leftAssoc (next : Parse τ α β) (ops : List ω) : Parse τ α β := fun ts b =>
  let r := next ts b
  leftLoop op bin next ops ts.length r.1 r.2.1 r.2.2

def layers (base : Parse τ α β) : List (List ω) → Parse τ α β
  | [] => base
  | ops :: rest => layers (leftAssoc op bin base ops) rest

end

section

variable (L : Lexicon κ ω τ) (A : Actions κ ω α β) (lev : ω → Nat)
  (ok : OpTree κ ω → Prop) (halt : List τ → Prop)

/-- A parser that handles the operators below level `j` stops in front of these tokens.
At the tokens of `halt` an operand has come to its end. -/
def Stops (j : Nat) (R : List τ) : Prop :=
  halt R ∧ ∀ t ∈ R.head?, ∀ o, L.op o = t → j ≤ lev o

def Reads (j : Nat) (next : Parse τ α β) : Prop :=
  ∀ t : OpTree κ ω, t.isCond = false → t.WellPrec lev → (∀ p ∈ t.spine, lev p < j) → ok t →
    ∀ R b, Stops L lev halt j R → next (t.tokens L ++ R) b = ((t.build A b).1, R, (t.build A b).2)

variable {L A lev ok halt}

variable {j : Nat}

variable {R : List τ}

theorem Stops.mono {i : Nat} (h : Stops L lev halt j R) (hij : i ≤ j) :
    Stops L lev halt i R :=
  ⟨h.1, fun t ht o ho => Nat.le_trans hij (h.2 t ht o ho)⟩

theorem stops_op (hop : ∀ o R, halt (L.op o :: R)) (hinj : ∀ o p, L.op o = L.op p → o = p) (o : ω) (R : List τ) :
    Stops L lev halt (lev o) (L.op o :: R) := by
  refine ⟨hop o R, fun t ht p hp => ?_⟩
  obtain rfl : L.op o = t := by simpa using ht
  exact Nat.le_of_eq (congrArg lev (hinj p o hp).symm)

variable [DecidableEq τ]

variable {ops : List ω}

theorem leftLoop_stop (hops : ∀ o, o ∈ ops ↔ lev o = j) (hR : Stops L lev halt (j + 1) R)
    (next : Parse τ α β) (n : Nat) (v : α) (b : β) :
    leftLoop L.op A.bin next ops n v R b = (v, R, b) := by
  match n, R with
  | 0, _ => rfl
  | _ + 1, [] => rfl
  | n + 1, t :: ts =>
    have hnone : ops.find? (fun o => L.op o = t) = none := by
      rw [List.find?_eq_none]
      intro o ho hot
      have hlev : j + 1 ≤ lev o := hR.2 t (by simp) o (by simpa using hot)
      have := (hops o).mp ho
      omega
    simp only [leftLoop, hnone]

theorem leftLoop_op (hinj : ∀ o p, L.op o = L.op p → o = p) {o : ω} (ho : o ∈ ops)
    (next : Parse τ α β) (n : Nat) (v : α) (ts : List τ) (b : β) :
    leftLoop L.op A.bin next ops (n + 1) v (L.op o :: ts) b =
      leftLoop L.op A.bin next ops n (A.bin o v (next ts b).1 (next ts b).2.2).1 (next ts b).2.1
        (A.bin o v (next ts b).1 (next ts b).2.2).2 := by
  have hfind : ops.find? (fun p => L.op p = L.op o) = some o := by
    cases hf : ops.find? (fun p => L.op p = L.op o) with
    | none => exact absurd (List.find?_eq_none.mp hf o ho) (by simp)
    | some p =>
      have hp := List.find?_some hf
      rw [hinj p o (by simpa using hp)]
  simp only [leftLoop, hfind]

theorem leftLoop_tokens (hops : ∀ o, o ∈ ops ↔ lev o = j) (hop : ∀ o R, halt (L.op o :: R))
    (hinj : ∀ o p, L.op o = L.op p → o = p) (hok : ∀ o l r, ok (bin o l r) → ok l ∧ ok r) {next : Parse τ α β}
    (hnext : Reads L A lev ok halt j next) (t : OpTree κ ω) (hc : t.isCond = false) (ht : t.WellPrec lev)
    (hs : ∀ p ∈ t.spine, lev p < j + 1) (hk : ok t) (R : List τ) (b : β) (hR : Stops L lev halt j R) :
    ∃ c ≤ (t.tokens L).length, ∀ n,
      (let r := next (t.tokens L ++ R) b
       leftLoop L.op A.bin next ops (n + c) r.1 r.2.1 r.2.2) =
        leftLoop L.op A.bin next ops n (t.build A b).1 R (t.build A b).2 := by
  by_cases hlow : ∀ p ∈ t.spine, lev p < j
  · refine ⟨0, Nat.zero_le _, fun n => ?_⟩
    rw [hnext t hc ht hlow hk R b hR]
    rfl
  -- some operator has level `j`, and then the one at the root has
  · induction t generalizing R b with
    | atom k => exact absurd (by simp [spine]) hlow
    | paren t _ => exact absurd (by simp [spine]) hlow
    | cond c t f => exact absurd hc (by simp [isCond])
    | bin o l r ihl _ =>
      obtain ⟨⟨hcl, hl⟩, ⟨hcr, hr⟩, hwl, hwr⟩ := ht
      obtain ⟨hkl, hkr⟩ := hok o l r hk
      have ho : lev o = j := by
        by_contra hne
        have ho : lev o < j := by
          have := hs o (by simp [spine])
          omega
        apply hlow
        intro p hp
        rcases List.mem_append.mp hp with hp | hp
        · exact Nat.lt_of_le_of_lt (hl p hp) ho
        · rcases List.mem_cons.mp hp with rfl | hp
          · exact ho
          · exact Nat.lt_trans (hr p hp) ho
      have hR' : Stops L lev halt j (L.op o :: (r.tokens L ++ R)) := ho ▸ stops_op hop hinj o _
      have hsl : ∀ p ∈ l.spine, lev p < j + 1 := fun p hp => by
        have := hl p hp
        omega
      have hleft : ∃ c ≤ (l.tokens L).length, ∀ n,
          (let x := next (l.tokens L ++ L.op o :: (r.tokens L ++ R)) b
           leftLoop L.op A.bin next ops (n + c) x.1 x.2.1 x.2.2) =
            leftLoop L.op A.bin next ops n (l.build A b).1 (L.op o :: (r.tokens L ++ R)) (l.build A b).2 := by
        by_cases hlowl : ∀ p ∈ l.spine, lev p < j
        · refine ⟨0, Nat.zero_le _, fun n => ?_⟩
          rw [hnext l hcl hwl hlowl hkl _ b hR']
          rfl
        · exact ihl hcl hwl hsl hkl _ b hR' hlowl
      obtain ⟨c, hcle, hloop⟩ := hleft
      refine ⟨c + 1, by simp only [tokens, List.length_append, List.length_cons]; omega, fun n => ?_⟩
      have hright := hnext r hcr hwr (fun p hp => ho ▸ hr p hp) hkr R (l.build A b).2 hR
      have hfuel : n + (c + 1) = n + 1 + c := by omega
      rw [hfuel]
      simp only [tokens, List.append_assoc, List.cons_append]
      rw [hloop (n + 1), leftLoop_op hinj ((hops o).mpr ho), hright]
      rfl

theorem reads_leftAssoc (hops : ∀ o, o ∈ ops ↔ lev o = j) (hop : ∀ o R, halt (L.op o :: R))
    (hinj : ∀ o p, L.op o = L.op p → o = p) (hok : ∀ o l r, ok (bin o l r) → ok l ∧ ok r) {next : Parse τ α β}
    (hnext : Reads L A lev ok halt j next) :
    Reads L A lev ok halt (j + 1) (leftAssoc L.op A.bin next ops) := by
  intro t hc ht hs hk R b hR
  obtain ⟨c, hcle, hloop⟩ :=
    leftLoop_tokens hops hop hinj hok hnext t hc ht hs hk R b (hR.mono (Nat.le_succ j))
  obtain ⟨n, hn⟩ : ∃ n, (t.tokens L ++ R).length = n + c := by
    refine ⟨(t.tokens L ++ R).length - c, ?_⟩
    rw [List.length_append]
    omega
  have hrun := hloop n
  rw [leftLoop_stop hops hR] at hrun
  rw [leftAssoc, hn]
  exact hrun

theorem reads_layers {levels : List (List ω)}
    (hlevels : ∀ i o, o ∈ levels.getD i [] ↔ lev o = j + i ∧ i < levels.length) (hop : ∀ o R, halt (L.op o :: R))
    (hinj : ∀ o p, L.op o = L.op p → o = p) (hok : ∀ o l r, ok (bin o l r) → ok l ∧ ok r) {base : Parse τ α β}
    (hbase : Reads L A lev ok halt j base) :
    Reads L A lev ok halt (j + levels.length) (layers L.op A.bin base levels) := by
  induction levels generalizing j base with
  | nil => exact hbase
  | cons ops rest ih =>
    have hfirst : ∀ o, o ∈ ops ↔ lev o = j := fun o => by
      have := hlevels 0 o
      simpa using this
    have hrest : ∀ i o, o ∈ rest.getD i [] ↔ lev o = j + 1 + i ∧ i < rest.length := fun i o => by
      have := hlevels (i + 1) o
      simp only [List.getD_cons_succ, List.length_cons, Nat.add_lt_add_iff_right] at this
      rw [this, Nat.add_right_comm, Nat.add_assoc]
    have := ih hrest (reads_leftAssoc hfirst hop hinj hok hbase)
    rw [List.length_cons, Nat.add_comm rest.length 1, ← Nat.add_assoc]
    exact this

end

end OpTree
