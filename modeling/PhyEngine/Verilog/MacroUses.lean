import PhyEngine.Verilog.Conditionals

/-!
# Macro expansion as substitution

`Expands` replaces every use of a macro by its body with the expanded arguments, where only
macros that are being expanded may not be used. `expand_text` also holds back a macro while it
expands its arguments and counts a level for them; the tree of uses (`Uses`) says when that
shows.
-/

namespace PhyEngine.Verilog

open Munch List

/-- The characters that open or close something in an argument. -/
def isBracket (c : Char) : Bool := c ∈ ['(', ')', '\x7b', '\x7d', '[', ']', '"']

def bracketPairs : List (Char × Char) := [('(', ')'), ('\x7b', '\x7d'), ('[', ']')]

def ClosedString (t : Text) : Prop :=
  Accepts stringOk stringNext .inside t ∧ t.foldl stringNext .inside = .closed

/-- A text with matching brackets. With `comma` it may have commas outside of them. -/
inductive Nested : (comma : Bool) → Text → Prop
  | nil (comma : Bool) : Nested comma []
  | char {comma : Bool} {c : Char} {t : Text} (hc : isBracket c = false)
      (hcomma : c = ',' → comma = true) (ht : Nested comma t) : Nested comma (c :: t)
  | group {comma : Bool} {o c : Char} {a t : Text} (hp : (o, c) ∈ bracketPairs) (ha : Nested true a)
      (ht : Nested comma t) : Nested comma (o :: (a ++ c :: t))
  | string {comma : Bool} {a t : Text} (ha : ClosedString a) (ht : Nested comma t) :
      Nested comma ('"' :: (a ++ t))

def joinArgs : List Text → Text
  | [] => []
  | [a] => a
  | a :: args => a ++ ',' :: joinArgs args

/-- The arguments of a call: a blank between the parentheses is no argument. -/
def callArgs (args : List Text) : List Text :=
  if args.length = 1 ∧ args.map trimSpaces = [[]] then [] else args

namespace CallState

def putAll (s : CallState) (t : Text) : CallState := { s with current := s.current ++ t }

theorem putAll_nil (s : CallState) : s.putAll [] = s := by rw [putAll, append_nil]

theorem putAll_append (s : CallState) (t u : Text) : s.putAll (t ++ u) = (s.putAll t).putAll u := by
  simp only [putAll, append_assoc]

theorem putAll_cons (s : CallState) (c : Char) (t : Text) :
    s.putAll (c :: t) = (s.put c).putAll t := by
  simp only [putAll, put, append_assoc, singleton_append]

/-- The state in a string that has been read so far, or outside of strings. -/
def reading (s : CallState) (st : StringState) : CallState :=
  { s with inString := st ≠ .closed, escaped := st = .escaped }

theorem step_reading (s : CallState) {st : StringState} (hst : st ≠ .closed) (c : Char) :
    (s.reading st).step c = (s.put c).reading (stringNext st c) := by
  cases st with
  | closed => exact absurd rfl hst
  | escaped => rfl
  | inside =>
    by_cases h₁ : c = '\\'
    · rw [h₁]
      rfl
    · by_cases h₂ : c = '"'
      · rw [h₂]
        rfl
      · have hnext : stringNext .inside c = .inside := by
          unfold stringNext
          split <;> simp_all
        rw [hnext]
        simp [step, reading, put, h₁, h₂]

theorem putAll_reading (s : CallState) (t : Text) (st : StringState) :
    (s.putAll t).reading st = (s.reading st).putAll t := rfl

end CallState

variable {a name b r t : Text} {s : CallState} {args stack results open_ : List Text} {levels : Nat}

theorem callLoop_string {st : StringState} (hacc : Accepts stringOk stringNext st a)
    (hend : a.foldl stringNext st = .closed) (s : CallState) (rest : Text) :
    callLoop (s.reading st) (a ++ rest) = callLoop ((s.putAll a).reading .closed) rest := by
  induction a generalizing st s with
  | nil =>
    obtain rfl : st = .closed := hend
    rw [CallState.putAll_nil]
    rfl
  | cons c a ih =>
    have hst : st ≠ .closed := of_decide_eq_true hacc.1
    have hin : (s.reading st).inString = true := decide_eq_true hst
    rw [cons_append, callLoop, if_neg (by rw [hin]; exact fun h => absurd h.1 (by decide)),
      CallState.step_reading s hst, CallState.putAll_cons]
    exact ih hacc.2 hend (s.put c)

def CallState.Plain (s : CallState) : Prop := s.inString = false ∧ s.escaped = false

theorem CallState.Plain.reading (h : s.Plain) : s.reading .closed = s := by
  obtain ⟨h₁, h₂⟩ := h
  cases s
  simp_all [CallState.reading]

theorem callLoop_bracket (hs : s.Plain) {o c : Char} (hp : (o, c) ∈ bracketPairs) :
    (∀ t, callLoop s (o :: t) = callLoop (s.step o) t) ∧ (s.step o).Plain ∧ ¬ (s.step o).outside ∧
      ∀ a t, callLoop ((s.step o).putAll a) (c :: t) = callLoop (s.putAll (o :: (a ++ [c]))) t := by
  obtain ⟨h₁, h₂⟩ := hs
  simp only [bracketPairs, mem_cons, Prod.mk.injEq, not_mem_nil, or_false] at hp
  rcases hp with ⟨rfl, rfl⟩ | ⟨rfl, rfl⟩ | ⟨rfl, rfl⟩
  all_goals
    refine ⟨fun t => ?_, ⟨?_, ?_⟩, ?_, fun a t => ?_⟩
    · rw [callLoop, if_neg fun h => absurd h.2.1 (by decide)]
    · simp [CallState.step, CallState.put, h₁]
    · simp [CallState.step, CallState.put, h₁, h₂]
    · simp [CallState.step, CallState.put, CallState.outside, h₁]
    · rw [callLoop, if_neg (by simp [CallState.step, CallState.put, CallState.putAll, CallState.outside, h₁])]
      simp [CallState.step, CallState.put, CallState.putAll, h₁]

/-- A text with matching brackets is passed over: with commas inside of brackets, without them
also outside. -/
theorem callLoop_nested {comma : Bool} (ha : Nested comma a) (hs : s.Plain) (hout : comma = true → ¬ s.outside)
    (rest : Text) :
    callLoop s (a ++ rest) = callLoop (s.putAll a) rest := by
  induction ha generalizing s rest with
  | nil => rw [CallState.putAll_nil, nil_append]
  | @char comma c t hc hcomma _ ih =>
    have hne : ∀ d ∈ ['(', ')', '\x7b', '\x7d', '[', ']', '"'], c ≠ d := by
      intro d hd h
      rw [isBracket, decide_eq_false_iff_not] at hc
      exact hc (h ▸ hd)
    have hstep : s.step c = s.put c := by
      have hcond : ¬ (c = ',' ∧ s.outside) := fun h => hout (hcomma h.1) h.2
      unfold CallState.step
      rw [if_neg (by rw [hs.1]; exact Bool.false_ne_true), if_neg (hne '"' (by decide)),
        if_neg (hne '(' (by decide)), if_neg (hne ')' (by decide)), if_neg (hne '\x7b' (by decide)),
        if_neg (hne '\x7d' (by decide)), if_neg (hne '[' (by decide)), if_neg (hne ']' (by decide)),
        if_neg hcond]
    rw [cons_append, callLoop, if_neg fun h => hne ')' (by decide) h.2.1, hstep,
      CallState.putAll_cons]
    exact ih (s := s.put c) hs hout rest
  | @group comma o c a t hp _ _ iha iht =>
    obtain ⟨hopen, hplain, hin, hclose⟩ := callLoop_bracket hs hp
    rw [cons_append, hopen, append_assoc, iha hplain (fun _ => hin), cons_append, hclose,
      iht (s := s.putAll (o :: (a ++ [c]))) hs hout, ← CallState.putAll_append]
    simp
  | @string comma a t ha _ iht =>
    have hstep : s.step '"' = (s.put '"').reading .inside := by
      simp [CallState.step, CallState.reading, CallState.put, hs.1, hs.2]
    have hquote : callLoop s ('"' :: (a ++ t ++ rest)) = callLoop (s.step '"') (a ++ t ++ rest) := by
      rw [callLoop, if_neg fun h => absurd h.2.1 (by decide)]
    have hplain : (s.put '"').Plain := hs
    rw [List.cons_append, hquote, hstep, List.append_assoc, callLoop_string ha.1 ha.2,
      CallState.putAll_reading, hplain.reading, ← CallState.putAll_cons, iht (s := s.putAll ('"' :: a)) hs hout,
      ← CallState.putAll_append]
    rfl

theorem callLoop_join (hargs : ∀ a ∈ args, Nested false a) (hne : args ≠ []) (hs : s.Plain) (hout : s.outside)
    (hcur : s.current = []) (hcomma : s.views = [] → s.sawComma = false) (left : Text) :
    ∃ views, callLoop s (joinArgs args ++ ')' :: left) = some (views, left) ∧
      views.map Prod.snd = if s.views = [] then callArgs args else s.views.map Prod.snd ++ args := by
  induction args generalizing s with
  | nil => exact absurd rfl hne
  | cons a args ih =>
    have hpass (rest : Text) := callLoop_nested (hargs a (mem_cons_self ..)) hs (fun h => absurd h Bool.false_ne_true)
      rest
    have hput : (s.putAll a).current = a := by rw [CallState.putAll, hcur]; rfl
    cases args with
    | nil =>
      refine ⟨(s.putAll a).close, ?_, ?_⟩
      · rw [joinArgs, hpass, callLoop, if_pos ⟨hs.1, rfl, hout⟩]
      · rw [CallState.close, hput]
        by_cases hv : s.views = []
        · rw [if_pos hv, callArgs]
          by_cases ht : trimSpaces a = []
          · rw [if_pos ⟨hv, hcomma hv, ht⟩, if_pos ⟨rfl, by rw [map_singleton, ht]⟩]
            exact congrArg _ hv
          · rw [if_neg fun h => ht h.2.2, if_neg fun h => ht (List.cons.inj h.2).1]
            have hviews : (s.putAll a).views = [] := hv
            rw [hviews]
            rfl
        · rw [if_neg hv, if_neg fun h => hv h.1, map_append]
          rfl
    | cons b args =>
      have hstep : callLoop (s.putAll a) (',' :: (joinArgs (b :: args) ++ ')' :: left)) =
          callLoop ⟨s.views ++ [(s.start, a)], s.start + a.length + 1, [], s.paren, s.brace, s.bracket,
            s.inString, s.escaped, true⟩ (joinArgs (b :: args) ++ ')' :: left) := by
        have hone : (s.putAll a).step ',' = ⟨s.views ++ [(s.start, a)], s.start + a.length + 1, [], s.paren,
            s.brace, s.bracket, s.inString, s.escaped, true⟩ := by
          have hcond : ',' = ',' ∧ (s.putAll a).outside := ⟨rfl, hout⟩
          unfold CallState.step
          rw [if_neg (by rw [show (s.putAll a).inString = false from hs.1]; exact Bool.false_ne_true),
            if_neg (by decide), if_neg (by decide), if_neg (by decide), if_neg (by decide),
            if_neg (by decide), if_neg (by decide), if_neg (by decide), if_pos hcond, hput]
          rfl
        rw [callLoop, if_neg fun h => absurd h.2.1 (by decide), hone]
      obtain ⟨views, hloop, hviews⟩ := ih (fun a ha => hargs a (mem_cons_of_mem _ ha))
        (cons_ne_nil _ _) (s := ⟨s.views ++ [(s.start, a)], s.start + a.length + 1, [], s.paren, s.brace,
          s.bracket, s.inString, s.escaped, true⟩) hs hout rfl
        (fun h => absurd h (append_ne_nil_of_right_ne_nil _ (cons_ne_nil _ _)))
      refine ⟨views, ?_, ?_⟩
      · rw [joinArgs, append_assoc, hpass, cons_append, hstep, hloop]
        exact cons_ne_nil _ _
      · rw [hviews, if_neg (append_ne_nil_of_right_ne_nil _ (cons_ne_nil _ _)), map_append]
        by_cases hv : s.views = []
        · rw [if_pos hv, hv, callArgs, if_neg fun h => absurd h.1 (by simp)]
          rfl
        · rw [if_neg hv, append_assoc]
          rfl

theorem parseMacroCallArgs_join (hargs : ∀ a ∈ args, Nested false a) (hne : args ≠ []) (start : Nat) (left : Text) :
    ∃ views, parseMacroCallArgs start (joinArgs args ++ ')' :: left) = some (views, left) ∧
      views.map Prod.snd = callArgs args := by
  obtain ⟨views, hloop, hviews⟩ := callLoop_join hargs hne
    (s := ⟨[], start, [], 0, 0, 0, false, false, false⟩) ⟨rfl, rfl⟩ ⟨rfl, rfl, rfl⟩ rfl (fun _ => rfl) left
  exact ⟨views, hloop, hviews⟩

/-- The uses of macros in a text: one after the other, each with those in its arguments and
those in its body. -/
inductive Uses where
  | none
  | both (first second : Uses)
  | use (name : Text) (args body : Uses)

namespace Uses

def names : Uses → List Text
  | none => []
  | both u v => u.names ++ v.names
  | use name args body => name :: (args.names ++ body.names)

def height : Uses → Nat
  | none => 0
  | both u v => max u.height v.height
  | use _ args body => max args.height body.height + 1

/-- No macro is used in an argument of its own, directly or through other macros. -/
def Apart : Uses → Prop
  | none => True
  | both u v => u.Apart ∧ v.Apart
  | use name args body => name ∉ args.names ∧ args.Apart ∧ body.Apart

end Uses

inductive Job where
  | text (t : Text)
  | args (ts : List Text)

/-- The expansion of a text, or of each argument, while the bodies of the macros `open_` are
being expanded. -/
inductive Expands (macros : Macros) : (open_ : List Text) → Job → List Text → Uses → Prop
  | done {open_ : List Text} : Expands macros open_ (.text []) [[]] .none
  | copy {open_ : List Text} {c : Char} {t r : Text} {u : Uses}
      (hc : c ≠ backquote ∨ (parseIdent t).1 = []) (ht : Expands macros open_ (.text t) [r] u) :
      Expands macros open_ (.text (c :: t)) [c :: r] u
  | object {open_ : List Text} {t b r : Text} {md : MacroDef} {ub u : Uses}
      (hname : (parseIdent t).1 ≠ []) (hmd : macros (parseIdent t).1 = some md)
      (hkind : md.functionLike = false) (hfree : (parseIdent t).1 ∉ open_)
      (hbody : Expands macros ((parseIdent t).1 :: open_) (.text md.body) [b] ub)
      (ht : Expands macros open_ (.text (parseIdent t).2) [r] u) :
      Expands macros open_ (.text (backquote :: t)) [b ++ r] (.both (.use (parseIdent t).1 .none ub) u)
  | call {open_ : List Text} {t b r left : Text} {md : MacroDef} {args results : List Text} {ua ub u : Uses}
      (hname : (parseIdent t).1 ≠ []) (hmd : macros (parseIdent t).1 = some md)
      (hkind : md.functionLike = true) (hfree : (parseIdent t).1 ∉ open_)
      (htext : (parseIdent t).2 = '(' :: (joinArgs args ++ ')' :: left)) (hne : args ≠ [])
      (hnested : ∀ a ∈ args, Nested false a) (hcount : (callArgs args).length = md.params.length)
      (hargs : Expands macros open_ (.args ((callArgs args).map trimSpaces)) results ua)
      (hbody : Expands macros ((parseIdent t).1 :: open_)
        (.text (substituteParams md.body md.params results)) [b] ub)
      (ht : Expands macros open_ (.text left) [r] u) :
      Expands macros open_ (.text (backquote :: t)) [b ++ r] (.both (.use (parseIdent t).1 ua ub) u)
  | noArgs {open_ : List Text} : Expands macros open_ (.args []) [] .none
  | arg {open_ : List Text} {t r : Text} {ts rs : List Text} {u us : Uses}
      (ht : Expands macros open_ (.text t) [r] u) (hts : Expands macros open_ (.args ts) rs us) :
      Expands macros open_ (.args (t :: ts)) (r :: rs) (.both u us)

/-- The guard of `expand_text` lets the uses pass, with the names of the stack held back. -/
def Uses.Clear : List Text → Uses → Prop
  | _, .none => True
  | stack, .both u v => u.Clear stack ∧ v.Clear stack
  | stack, .use name args body =>
    name ∉ stack ∧ args.Clear (name :: stack) ∧ body.Clear (name :: stack)

def Uses.Fine (stack : List Text) (levels : Nat) (u : Uses) : Prop := u.Clear stack ∧ u.height < levels

variable {u : Uses}

variable {v : Uses}

theorem Uses.fine_both :
    (Uses.both u v).Fine stack levels ↔ u.Fine stack levels ∧ v.Fine stack levels := by
  simp only [Fine, Clear, height, Nat.max_lt]
  tauto

variable {ua ub : Uses}

theorem Uses.fine_use :
    (Uses.use name ua ub).Fine stack (levels + 1) ↔
      name ∉ stack ∧ ua.Fine (name :: stack) levels ∧ ub.Fine (name :: stack) levels := by
  simp only [Fine, Clear, height, Nat.add_lt_add_iff_right, Nat.max_lt]
  tauto

structure Decided (out : Expanded) (fine : Prop) (r : Text) : Prop where
  ok : fine → out.text = r ∧ out.errors = []
  error : ¬ fine → out.errors ≠ []

variable {p q : Prop}

theorem Decided.append {a b : Expanded} (ha : Decided a p r) (hb : Decided b q t) :
    Decided (a ++ b) (p ∧ q) (r ++ t) := by
  have htext : (a ++ b).text = a.text ++ b.text := rfl
  have herrors : (a ++ b).errors = a.errors ++ b.errors := rfl
  constructor
  · rintro ⟨hp, hq⟩
    rw [htext, herrors, (ha.ok hp).1, (ha.ok hp).2, (hb.ok hq).1, (hb.ok hq).2]
    exact ⟨rfl, rfl⟩
  · intro hn
    rw [herrors]
    rcases not_and_or.mp hn with h | h
    · exact append_ne_nil_of_left_ne_nil (ha.error h) _
    · exact append_ne_nil_of_right_ne_nil _ (hb.error h)

theorem Decided.congr {out : Expanded} (h : Decided out p r) (hpq : p ↔ q) :
    Decided out q r := ⟨fun hq => h.ok (hpq.mpr hq), fun hq => h.error fun hp => hq (hpq.mp hp)⟩

def Job.Good (macros : Macros) (results : List Text) (u : Uses) : Job → Prop
  | .text t => ∀ r, results = [r] → ∀ levels stack line column fuel, t.length ≤ fuel →
      Decided (expandLoop (expandText macros levels) macros stack line fuel column t)
        (u.Fine stack (levels + 1)) r
  | .args ts => ∀ levels stack line column views, views.map (fun v : Nat × Text => trimSpaces v.2) = ts →
      (u.Fine stack (levels + 1) →
        (expandArgs (expandText macros (levels + 1)) stack line column views).map Expanded.text = results ∧
          (expandArgs (expandText macros (levels + 1)) stack line column views).flatMap Expanded.errors = []) ∧
      (¬ u.Fine stack (levels + 1) →
        (expandArgs (expandText macros (levels + 1)) stack line column views).flatMap Expanded.errors ≠ [])

theorem Job.Good.expandText {macros : Macros} (h : (Job.text t).Good macros [r] u) (levels : Nat) (stack : List Text)
    (line column : Nat) :
    Decided (PhyEngine.Verilog.expandText macros levels stack t line column) (u.Fine stack levels) r := by
  cases levels with
  | zero =>
    refine ⟨fun hf => absurd hf.2 (Nat.not_lt_zero _), fun _ => ?_⟩
    exact append_ne_nil_of_left_ne_nil (cons_ne_nil _ _) _
  | succ levels => exact h r rfl levels stack line column t.length le_rfl

theorem decided_error (message : String) (line column : Nat) (rest : Expanded) (hp : ¬ p)
    (r : Text) : Decided (Expanded.error message line column ++ rest) p r :=
  ⟨fun h => absurd h hp, fun _ => append_ne_nil_of_left_ne_nil (cons_ne_nil _ _) _⟩

theorem expandLoop_use {self : Expander} {macros : Macros} {line fuel column : Nat} (hname : (parseIdent t).1 ≠ []) :
    expandLoop self macros stack line (fuel + 1) column (backquote :: t) =
      (macroUse self macros stack line column (parseIdent t).1 (parseIdent t).2).1 ++
        expandLoop self macros stack line fuel
          (column + 1 + (t.length -
            (macroUse self macros stack line column (parseIdent t).1 (parseIdent t).2).2.length))
          (macroUse self macros stack line column (parseIdent t).1 (parseIdent t).2).2 := by
  rw [expandLoop, if_neg (by rintro (h | h); exacts [h rfl, hname h])]

variable {job : Job}

section

variable {macros : Macros}

theorem good_copy {c : Char} (hc : c ≠ backquote ∨ (parseIdent t).1 = []) (ht : (Job.text t).Good macros [r] u) :
    (Job.text (c :: t)).Good macros [c :: r] u := by
  intro r' hr levels stack line column fuel hf
  obtain rfl := (List.cons.inj hr).1
  cases fuel with
  | zero => cases hf
  | succ fuel =>
    have hrest := ht r rfl levels stack line (column + 1) fuel (Nat.le_of_succ_le_succ hf)
    rw [expandLoop, if_pos hc]
    refine (Decided.append (p := True) (r := [c]) ⟨fun _ => ⟨rfl, rfl⟩, fun h => absurd trivial h⟩
      hrest).congr (iff_of_eq (true_and _))

variable {md : MacroDef}

theorem good_object (hname : (parseIdent t).1 ≠ []) (hmd : macros (parseIdent t).1 = some md)
    (hkind : md.functionLike = false) (hbody : (Job.text md.body).Good macros [b] ub)
    (ht : (Job.text (parseIdent t).2).Good macros [r] u) :
    (Job.text (backquote :: t)).Good macros [b ++ r] (.both (.use (parseIdent t).1 .none ub) u) := by
  intro r' hr levels stack line column fuel hf
  obtain rfl := (List.cons.inj hr).1
  cases fuel with
  | zero => cases hf
  | succ fuel =>
    have hlen := length_parseIdent_snd t
    rw [length_cons] at hf
    rw [expandLoop_use hname]
    have hbehind : (macroUse (expandText macros levels) macros stack line column (parseIdent t).1
        (parseIdent t).2).2 = (parseIdent t).2 := by
      simp only [macroUse, hmd, hkind, Bool.false_eq_true, if_false]
      split_ifs <;> rfl
    have huse : Decided (macroUse (expandText macros levels) macros stack line column (parseIdent t).1
        (parseIdent t).2).1 ((Uses.use (parseIdent t).1 .none ub).Fine stack (levels + 1)) b := by
      simp only [macroUse, hmd, hkind, Bool.false_eq_true, if_false]
      split_ifs with hrec
      · exact ⟨fun h => absurd hrec (Uses.fine_use.mp h).1, fun _ => cons_ne_nil _ _⟩
      · refine (hbody.expandText levels ((parseIdent t).1 :: stack) line column).congr ?_
        rw [Uses.fine_use]
        refine ⟨fun h => ⟨hrec, ⟨trivial, Nat.zero_lt_of_lt h.2⟩, h⟩, fun h => h.2.2⟩
    rw [hbehind]
    exact (huse.append (ht r rfl levels stack line _ fuel (by omega))).congr Uses.fine_both.symm

theorem decided_call {views : List (Nat × Text)} {ts : List Text} (hrec : name ∉ stack)
    (hcount : views.length = md.params.length) (hviews : views.map (fun v : Nat × Text => trimSpaces v.2) = ts)
    (hargs : (Job.args ts).Good macros results ua)
    (hbody : (Job.text (substituteParams md.body md.params results)).Good macros [b] ub) (line column : Nat) :
    Decided (expandCall (expandText macros levels) (name :: stack) md line column
        (expandArgs (expandText macros levels) (name :: stack) line column views))
      ((Uses.use name ua ub).Fine stack (levels + 1)) b := by
  cases levels with
  | zero =>
    refine ⟨fun h => absurd (Uses.fine_use.mp h).2.2.2 (Nat.not_lt_zero _), fun _ => ?_⟩
    exact append_ne_nil_of_right_ne_nil _
      (append_ne_nil_of_left_ne_nil (cons_ne_nil _ _) _)
  | succ levels =>
    obtain ⟨hok, herror⟩ := hargs levels (name :: stack) line column views hviews
    by_cases hfine : ua.Fine (name :: stack) (levels + 1)
    · obtain ⟨htexts, hnone⟩ := hok hfine
      have hlength : (expandArgs (expandText macros (levels + 1)) (name :: stack) line column views).length =
          md.params.length := by
        rw [expandArgs, length_map, hcount]
      have hrepl := hbody.expandText (levels + 1) (name :: stack) line column
      rw [← htexts] at hrepl
      have hbodyFine : (Uses.use name ua ub).Fine stack (levels + 1 + 1) ↔
          ub.Fine (name :: stack) (levels + 1) := by
        rw [Uses.fine_use]
        exact ⟨fun h => h.2.2, fun h => ⟨hrec, hfine, h⟩⟩
      rw [expandCall]
      refine ⟨fun h => ?_, fun h => ?_⟩
      · obtain ⟨ht, he⟩ := hrepl.ok (hbodyFine.mp h)
        refine ⟨ht, ?_⟩
        dsimp only
        rw [hnone, if_neg (not_not.mpr hlength), he]
        rfl
      · exact append_ne_nil_of_right_ne_nil _ (hrepl.error fun hb => h (hbodyFine.mpr hb))
    · refine ⟨fun h => absurd (Uses.fine_use.mp h).2.1 hfine, fun _ => ?_⟩
      exact append_ne_nil_of_left_ne_nil (append_ne_nil_of_left_ne_nil (herror hfine) _) _

theorem good_call {left : Text} (hname : (parseIdent t).1 ≠ []) (hmd : macros (parseIdent t).1 = some md)
    (hkind : md.functionLike = true) (htext : (parseIdent t).2 = '(' :: (joinArgs args ++ ')' :: left))
    (hne : args ≠ []) (hnested : ∀ a ∈ args, Nested false a) (hcount : (callArgs args).length = md.params.length)
    (hargs : (Job.args ((callArgs args).map trimSpaces)).Good macros results ua)
    (hbody : (Job.text (substituteParams md.body md.params results)).Good macros [b] ub)
    (ht : (Job.text left).Good macros [r] u) :
    (Job.text (backquote :: t)).Good macros [b ++ r] (.both (.use (parseIdent t).1 ua ub) u) := by
  intro r' hr levels stack line column fuel hf
  obtain rfl := (List.cons.inj hr).1
  obtain ⟨views, hviews, hmap⟩ := parseMacroCallArgs_join hnested hne ((parseIdent t).1.length + 2) left
  cases fuel with
  | zero => cases hf
  | succ fuel =>
    have hlen := length_parseIdent_snd t
    have hleft : left.length ≤ (parseIdent t).2.length := by
      rw [htext, length_cons, length_append, length_cons]
      omega
    rw [length_cons] at hf
    rw [expandLoop_use hname]
    by_cases hrec : (parseIdent t).1 ∈ stack
    · have huse : macroUse (expandText macros levels) macros stack line column (parseIdent t).1
          (parseIdent t).2 = (.error "recursive macro expansion" line column, (parseIdent t).2) := by
        simp only [macroUse, hmd, if_pos hrec]
      rw [huse]
      exact decided_error _ _ _ _ (fun h => (Uses.fine_use.mp (Uses.fine_both.mp h).1).1 hrec) _
    · have huse : macroUse (expandText macros levels) macros stack line column (parseIdent t).1
          (parseIdent t).2 = (expandCall (expandText macros levels) ((parseIdent t).1 :: stack) md line column
            (expandArgs (expandText macros levels) ((parseIdent t).1 :: stack) line column views), left) := by
        simp only [macroUse, hmd, if_neg hrec, hkind, if_true, htext, hviews]
      rw [huse]
      refine (Decided.append ?_ (ht r rfl levels stack line _ fuel (by omega))).congr Uses.fine_both.symm
      exact decided_call hrec (by rw [← hcount, ← hmap, length_map])
        (by rw [← hmap, List.map_map]; rfl) hargs hbody line column

theorem good_arg {ts rs : List Text} {us : Uses} (ht : (Job.text t).Good macros [r] u)
    (hts : (Job.args ts).Good macros rs us) :
    (Job.args (t :: ts)).Good macros (r :: rs) (.both u us) := by
  intro levels stack line column views hviews
  cases views with
  | nil => cases hviews
  | cons v views =>
    obtain ⟨rfl, htail⟩ := List.cons.inj hviews
    obtain ⟨hok, herror⟩ := hts levels stack line column views htail
    have hfirst := ht.expandText (levels + 1) stack line
      (column + v.1 + (v.2.length - (skipSpaces v.2).length))
    rw [Uses.fine_both, expandArgs, map_cons, map_cons, flatMap_cons, ← expandArgs]
    refine ⟨fun h => ?_, fun h => ?_⟩
    · obtain ⟨h₁, h₂⟩ := hfirst.ok h.1
      obtain ⟨h₃, h₄⟩ := hok h.2
      rw [h₁, h₂, h₃, h₄]
      exact ⟨rfl, rfl⟩
    · rcases not_and_or.mp h with h | h
      · exact append_ne_nil_of_left_ne_nil (hfirst.error h) _
      · exact append_ne_nil_of_right_ne_nil _ (herror h)

/-- The function does what the expansion is where nothing stops it, and reports an error where
something does. -/
theorem Expands.good (h : Expands macros open_ job results u) : job.Good macros results u := by
  induction h with
  | done =>
    intro r hr levels stack line column fuel _
    obtain rfl := (List.cons.inj hr).1
    have hloop : expandLoop (expandText macros levels) macros stack line fuel column [] = .empty := by
      cases fuel <;> rfl
    rw [hloop]
    exact ⟨fun _ => ⟨rfl, rfl⟩, fun h => absurd ⟨trivial, Nat.succ_pos _⟩ h⟩
  | copy hc _ ih => exact good_copy hc ih
  | object hname hmd hkind _ _ _ ihb iht => exact good_object hname hmd hkind ihb iht
  | call hname hmd hkind _ htext hne hnested hcount _ _ _ iha ihb iht =>
    exact good_call hname hmd hkind htext hne hnested hcount iha ihb iht
  | noArgs =>
    intro levels stack line column views hviews
    rw [map_eq_nil_iff.mp hviews]
    exact ⟨fun _ => ⟨rfl, rfl⟩, fun h => absurd ⟨trivial, Nat.succ_pos _⟩ h⟩
  | arg _ _ iht ihts => exact good_arg iht ihts

end

theorem Expands.notMem_names {macros : Macros} (h : Expands macros open_ job results u) : ∀ n ∈ open_, n ∉ u.names := by
  induction h with
  | done => exact fun _ _ h => nomatch h
  | copy _ _ ih => exact ih
  | object _ _ _ hfree _ _ ihb iht =>
    intro n hn hm
    rcases mem_append.mp hm with hm | hm
    · rcases mem_cons.mp hm with rfl | hm
      · exact hfree hn
      · exact ihb n (mem_cons_of_mem _ hn) hm
    · exact iht n hn hm
  | call _ _ _ hfree _ _ _ _ _ _ _ iha ihb iht =>
    intro n hn hm
    rcases mem_append.mp hm with hm | hm
    · rcases mem_cons.mp hm with rfl | hm
      · exact hfree hn
      · rcases mem_append.mp hm with hm | hm
        · exact iha n hn hm
        · exact ihb n (mem_cons_of_mem _ hn) hm
    · exact iht n hn hm
  | noArgs => exact fun _ _ h => nomatch h
  | arg _ _ iht ihts =>
    intro n hn hm
    rcases mem_append.mp hm with hm | hm
    · exact iht n hn hm
    · exact ihts n hn hm

theorem Uses.clear_both_iff (hu : u.Clear stack ↔ (∀ n ∈ stack, n ∉ u.names) ∧ u.Apart)
    (hv : v.Clear stack ↔ (∀ n ∈ stack, n ∉ v.names) ∧ v.Apart) :
    (Uses.both u v).Clear stack ↔
      (∀ n ∈ stack, n ∉ (Uses.both u v).names) ∧ (Uses.both u v).Apart := by
  simp only [Clear, Apart, names, mem_append, not_or, hu, hv]
  constructor
  · rintro ⟨⟨h₁, h₂⟩, h₃, h₄⟩
    exact ⟨fun n hn => ⟨h₁ n hn, h₃ n hn⟩, h₂, h₄⟩
  · rintro ⟨h, h₂, h₄⟩
    exact ⟨⟨fun n hn => (h n hn).1, h₂⟩, fun n hn => (h n hn).2, h₄⟩

theorem Uses.clear_use_iff (hname : name ∉ ub.names)
    (ha : ua.Clear (name :: stack) ↔ (∀ n ∈ name :: stack, n ∉ ua.names) ∧ ua.Apart)
    (hb : ub.Clear (name :: stack) ↔ (∀ n ∈ name :: stack, n ∉ ub.names) ∧ ub.Apart) :
    (Uses.use name ua ub).Clear stack ↔
      (∀ n ∈ stack, n ∉ (Uses.use name ua ub).names) ∧ (Uses.use name ua ub).Apart := by
  simp only [Clear, Apart, names, mem_cons, mem_append, not_or, ha, hb, forall_eq_or_imp]
  constructor
  · rintro ⟨h₁, ⟨⟨h₂, h₃⟩, h₄⟩, ⟨-, h₅⟩, h₆⟩
    exact ⟨fun n hn => ⟨fun h => h₁ (h ▸ hn), h₃ n hn, h₅ n hn⟩, h₂, h₄, h₆⟩
  · rintro ⟨h, h₂, h₄, h₆⟩
    exact ⟨fun hn => (h name hn).1 rfl, ⟨⟨h₂, fun n hn => (h n hn).2.1⟩, h₄⟩,
      ⟨hname, fun n hn => (h n hn).2.2⟩, h₆⟩

theorem Expands.clear_iff {macros : Macros} (h : Expands macros open_ job results u) (stack : List Text) :
    u.Clear stack ↔ (∀ n ∈ stack, n ∉ u.names) ∧ u.Apart := by
  have hnone (stack : List Text) :
      Uses.none.Clear stack ↔ (∀ n ∈ stack, n ∉ Uses.none.names) ∧ Uses.none.Apart :=
    ⟨fun _ => ⟨fun _ _ h => (nomatch h), trivial⟩, fun _ => trivial⟩
  induction h generalizing stack with
  | done => exact hnone stack
  | copy _ _ ih => exact ih stack
  | object _ _ _ _ hbody _ ihb iht =>
    exact Uses.clear_both_iff
      (Uses.clear_use_iff (hbody.notMem_names _ (mem_cons_self ..)) (hnone _) (ihb _)) (iht stack)
  | call _ _ _ _ _ _ _ _ _ hbody _ iha ihb iht =>
    exact Uses.clear_both_iff
      (Uses.clear_use_iff (hbody.notMem_names _ (mem_cons_self ..)) (iha _) (ihb _)) (iht stack)
  | noArgs => exact hnone stack
  | arg _ _ iht ihts => exact Uses.clear_both_iff (iht stack) (ihts stack)

theorem expandLine_plain (macros : Macros) (line : Nat) {l : Text} (hplain : plainSpan l = (l, [])) :
    (expandLine macros line false l).text = (expandText macros (maxMacroDepth + 1) [] l line 1).text ∧
      (expandLine macros line false l).errors =
        (expandText macros (maxMacroDepth + 1) [] l line 1).errors := by
  cases l with
  | nil => exact ⟨rfl, rfl⟩
  | cons c l =>
    have hpart : linePart false (c :: l) = ((true, c :: l), [], false) := by
      unfold linePart
      rw [if_neg Bool.false_ne_true, hplain, if_pos (cons_ne_nil _ _)]
    have hparts : (lineParts (c :: l).length false (c :: l)).1 = [(true, c :: l)] := by
      rw [length_cons, lineParts, hpart]
      cases l.length <;> rfl
    rw [expandLine, hparts]
    exact ⟨append_nil _, append_nil _⟩

theorem processLine_expands_iff (opt : PreOptions) (included : Option (PreState → Text → PreState))
    (s : PreState) (l r : Text) (u : Uses) (hactive : s.currentActive = true) (hb : s.inBlock = false)
    (hplain : plainSpan (logicalLine l) = (logicalLine l, []))
    (hdir : directiveOf (logicalLine l) = none)
    (hexp : Expands s.macros [] (.text (logicalLine l)) [r] u) :
    ((processLine opt included s l).output = s.output ++ (r ++ ['\n']) ∧
        (processLine opt included s l).errors = s.errors) ↔
      afterBackquote (logicalLine l) = none ∧ u.Apart ∧ u.height ≤ maxMacroDepth := by
  have hfine : u.Fine [] (maxMacroDepth + 1) ↔ u.Apart ∧ u.height ≤ maxMacroDepth := by
    rw [Uses.Fine, hexp.clear_iff, Nat.lt_succ_iff]
    simp
  have hdecided := hexp.good.expandText (maxMacroDepth + 1) [] s.line 1
  cases hrest : afterBackquote (logicalLine l) with
  | some rest =>
    have hkw : keywordOf (directiveWord rest).1 = none := by
      rw [directiveOf, hrest] at hdir
      exact Option.map_eq_none_iff.mp hdir
    simp only [processLine, hb, Bool.false_eq_true, if_false, hrest, hkw, processKeyword]
    refine ⟨fun h => ?_, fun h => absurd h.1 (Option.some_ne_none _)⟩
    have hlen := congrArg List.length h.2
    simp [PreState.newline, PreState.doError] at hlen
  | none =>
    obtain ⟨htext, herrors⟩ := expandLine_plain s.macros s.line hplain
    simp only [processLine, hb, Bool.false_eq_true, if_false, hrest, hactive, if_true, PreState.newline,
      PreState.push, htext, herrors, true_and, List.append_assoc, List.append_right_inj,
      List.append_left_inj, List.append_right_eq_self]
    rw [← hfine]
    constructor
    · rintro ⟨-, he⟩
      by_contra hn
      exact hdecided.error hn he
    · exact hdecided.ok

def idMacros : Macros := fun name => if name = ['I', 'D'] then some ⟨true, [['x']], ['x']⟩ else none

def idState : PreState := { PreState.start with macros := idMacros }

theorem expands_id {open_ : List Text} {a b left r : Text} {ua u : Uses} (hfree : ['I', 'D'] ∉ open_)
    (hnested : Nested false a) (htrim : trimSpaces a ≠ [])
    (ha : Expands idMacros open_ (.text (trimSpaces a)) [b] ua)
    (hb : Expands idMacros (['I', 'D'] :: open_) (.text (substituteParams ['x'] [['x']] [b])) [b] .none)
    (ht : Expands idMacros open_ (.text left) [r] u) :
    Expands idMacros open_ (.text (backquote :: 'I' :: 'D' :: '(' :: (a ++ ')' :: left))) [b ++ r]
      (.both (.use ['I', 'D'] (.both ua .none) .none) u) := by
  have hargs : callArgs [a] = [a] := if_neg fun h => htrim (List.cons.inj h.2).1
  refine @Expands.call idMacros open_ ('I' :: 'D' :: '(' :: (a ++ ')' :: left)) b r left _ [a] [b] _ _ u
    (cons_ne_nil _ _) rfl rfl hfree rfl (cons_ne_nil _ _) ?_ ?_ ?_ hb ht
  · intro c hc
    rw [mem_singleton.mp hc]
    exact hnested
  · rw [hargs]
    rfl
  · rw [hargs]
    exact .arg ha .noArgs

theorem expands_id_three (hfree : ['I', 'D'] ∉ open_) :
    Expands idMacros open_ (.text [backquote, 'I', 'D', '(', '3', ')']) [['3']]
      (.both (.use ['I', 'D'] (.both .none .none) .none) .none) := by
  have hthree (names : List Text) : Expands idMacros names (.text ['3']) [['3']] .none :=
    .copy (.inl (by decide)) .done
  exact expands_id (a := ['3']) hfree (.char rfl (fun h => nomatch h) (.nil _)) (by decide) (hthree _)
    (hthree _) .done

theorem processLine_expands_once :
    (processLine ⟨none, 32⟩ none idState ['y', backquote, 'I', 'D', '(', '3', ')']).output =
      ['y', '3', '\n'] := by
  have hexp : Expands idState.macros [] (.text ['y', backquote, 'I', 'D', '(', '3', ')']) [['y', '3']]
      (.both (.use ['I', 'D'] (.both .none .none) .none) .none) :=
    .copy (.inl (by decide)) (expands_id_three List.not_mem_nil)
  exact ((processLine_expands_iff ⟨none, 32⟩ none idState ['y', backquote, 'I', 'D', '(', '3', ')'] _ _ rfl
    rfl rfl rfl hexp).mpr ⟨rfl, by simp [Uses.Apart, Uses.names], by decide⟩).1

/-- `ID` in an argument of its own is left out, with an error. -/
theorem processLine_nested_use :
    (∃ u, Expands idState.macros []
        (.text ['y', backquote, 'I', 'D', '(', backquote, 'I', 'D', '(', '3', ')', ')']) [['y', '3']] u) ∧
      (processLine ⟨none, 32⟩ none idState
          ['y', backquote, 'I', 'D', '(', backquote, 'I', 'D', '(', '3', ')', ')']).output =
        ['y', '(', '3', ')', '\n'] ∧
      (processLine ⟨none, 32⟩ none idState
          ['y', backquote, 'I', 'D', '(', backquote, 'I', 'D', '(', '3', ')', ')']).errors =
        [⟨"recursive macro expansion", 0, ⟨1, 6⟩⟩] := by
  have hnested : Nested false [backquote, 'I', 'D', '(', '3', ')'] :=
    .char rfl (fun h => absurd h (by decide)) (.char rfl (fun h => absurd h (by decide))
      (.char rfl (fun h => absurd h (by decide)) (.group (o := '(') (c := ')') (a := ['3']) (t := [])
        (List.mem_cons_self ..) (.char rfl (fun _ => rfl) (.nil _)) (.nil _))))
  have hthree : Expands idMacros [['I', 'D']] (.text (substituteParams ['x'] [['x']] [['3']])) [['3']] .none :=
    .copy (.inl (by decide)) .done
  have hcall := @expands_id [] _ ['3'] [] [] _ _ List.not_mem_nil hnested (by decide)
    (expands_id_three List.not_mem_nil) hthree .done
  exact ⟨⟨_, .copy (.inl (by decide)) hcall⟩, rfl, rfl⟩

end PhyEngine.Verilog
