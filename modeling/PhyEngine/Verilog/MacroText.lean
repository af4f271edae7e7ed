import PhyEngine.Verilog.Preprocess

/-!
# What the expansion of a text is made of

The reading functions of the preprocessor split their text, and an expansion has one map entry
for each character, all of the line that it was called for. Its characters come from the text and
from macro bodies.
-/

namespace PhyEngine.Verilog

open Munch List

theorem parseIdent_append (t : Text) : (parseIdent t).1 ++ (parseIdent t).2 = t := by
  cases t with
  | nil => rfl
  | cons c t =>
    rw [parseIdent]
    split_ifs
    · exact congrArg (c :: ·) (munch_fst_append_snd () t)
    · rfl

theorem length_parseIdent_snd (t : Text) : (parseIdent t).2.length ≤ t.length := by
  have h := congrArg List.length (parseIdent_append t)
  rw [length_append] at h
  omega

variable {t : Text} {c : Char} {s : CallState} {views : List (Nat × Text)}

theorem mem_of_mem_parseIdent_snd (h : c ∈ (parseIdent t).2) : c ∈ t := by
  rw [← parseIdent_append t]
  exact mem_append_right _ h

theorem mem_of_mem_trimSpaces (h : c ∈ trimSpaces t) : c ∈ t := by
  rw [trimSpaces, mem_reverse] at h
  exact (dropWhile_suffix _).subset (mem_reverse.mp ((dropWhile_suffix _).subset h))

theorem callLoop_suffix {left : Text} (h : callLoop s t = some (views, left)) :
    left <:+ t ∧ left.length < t.length := by
  induction t generalizing s with
  | nil => cases h
  | cons c t ih =>
    rw [callLoop] at h
    split_ifs at h
    · obtain ⟨-, rfl⟩ := Prod.mk.inj (Option.some.inj h)
      exact ⟨suffix_cons c _, Nat.lt_succ_self _⟩
    · obtain ⟨hs, hlt⟩ := ih h
      exact ⟨hs.trans (suffix_cons c t), hlt.trans (Nat.lt_succ_self _)⟩

structure CallState.Within (P : Char → Prop) (s : CallState) : Prop where
  current : ∀ c ∈ s.current, P c
  views : ∀ v ∈ s.views, ∀ c ∈ v.2, P c

theorem CallState.Within.step {P : Char → Prop} (h : s.Within P) (hc : P c) :
    (s.step c).Within P := by
  have hput : ∀ d ∈ s.current ++ [c], P d := by
    intro d hd
    rcases mem_append.mp hd with hd | hd
    · exact h.current d hd
    · exact mem_singleton.mp hd ▸ hc
  unfold CallState.step
  split_ifs
  all_goals first | exact ⟨hput, h.views⟩ | skip
  refine ⟨fun d hd => (nomatch hd), fun v hv => ?_⟩
  rcases mem_append.mp hv with hv | hv
  · exact h.views v hv
  · rw [mem_singleton.mp hv]
    exact h.current

theorem callLoop_within {P : Char → Prop} {left : Text} (h : callLoop s t = some (views, left)) (hs : s.Within P)
    (ht : ∀ c ∈ t, P c) :
    ∀ v ∈ views, ∀ c ∈ v.2, P c := by
  induction t generalizing s with
  | nil => cases h
  | cons c t ih =>
    rw [callLoop] at h
    split_ifs at h
    · obtain ⟨rfl, -⟩ := Prod.mk.inj (Option.some.inj h)
      intro v hv
      rw [CallState.close] at hv
      split_ifs at hv
      · exact hs.views v hv
      · rcases mem_append.mp hv with hv | hv
        · exact hs.views v hv
        · rw [mem_singleton.mp hv]
          exact hs.current
    · exact ih h (hs.step (ht c (mem_cons_self ..))) fun d hd => ht d (mem_cons_of_mem _ hd)

theorem substLoop_within {P : Char → Prop} {params args : List Text} (hargs : ∀ a ∈ args, ∀ c ∈ a, P c)
    {fuel : Nat} {t : Text} (ht : ∀ c ∈ t, P c) : ∀ c ∈ substLoop params args fuel t, P c := by
  induction fuel generalizing t with
  | zero =>
    intro c hc
    cases hc
  | succ fuel ih =>
    cases t with
    | nil =>
      intro c hc
      cases hc
    | cons d t =>
      have htail : ∀ c ∈ t, P c := fun c hc => ht c (mem_cons_of_mem _ hc)
      have hsplit : (munch (fun (_ : Unit) c => isIdentContinue c) (fun s _ => s) () t).1 ++
          (munch (fun (_ : Unit) c => isIdentContinue c) (fun s _ => s) () t).2 = t :=
        munch_fst_append_snd () t
      rw [substLoop]
      split_ifs
      · dsimp only
        generalize munch (fun (_ : Unit) c => isIdentContinue c) (fun s _ => s) () t = word at hsplit ⊢
        have hword : ∀ c ∈ d :: word.1, P c := by
          intro c hc
          rcases mem_cons.mp hc with rfl | hc
          · exact ht c (mem_cons_self ..)
          · exact htail c (hsplit ▸ mem_append_left _ hc)
        intro c hc
        rcases mem_append.mp hc with hc | hc
        · cases hf : (params.zip args).find? (·.1 = d :: word.1) with
          | none =>
            rw [hf] at hc
            exact hword c hc
          | some pair =>
            rw [hf] at hc
            exact hargs pair.2 (of_mem_zip (mem_of_find?_eq_some hf)).2 c hc
        · exact ih (fun c hc => htail c (hsplit ▸ mem_append_right _ hc)) c hc
      · intro c hc
        rcases mem_cons.mp hc with rfl | hc
        · exact ht c (mem_cons_self ..)
        · exact ih htail c hc

/-- One entry of the map for each character, all of one line, and characters that satisfy `P`. -/
structure Expanded.Within (P : Char → Prop) (line : Nat) (r : Expanded) : Prop where
  map_line : r.map.map SourcePosition.line = List.replicate r.text.length (line % 2 ^ 32)
  chars : ∀ c ∈ r.text, P c

namespace Expanded.Within

variable {P : Char → Prop} {line : Nat}

theorem empty : Expanded.empty.Within P line := ⟨rfl, fun _ h => nomatch h⟩

theorem error (message : String) (column : Nat) : (Expanded.error message line column).Within P line :=
  ⟨rfl, fun _ h => nomatch h⟩

theorem append {a b : Expanded} (ha : a.Within P line) (hb : b.Within P line) : (a ++ b).Within P line := by
  refine ⟨?_, fun c hc => ?_⟩
  · have hmap : (a ++ b).map.map SourcePosition.line =
        a.map.map SourcePosition.line ++ b.map.map SourcePosition.line := map_append
    have htext : (a ++ b).text.length = a.text.length + b.text.length := length_append
    rw [hmap, htext, ha.map_line, hb.map_line, replicate_append_replicate]
  · rcases mem_append.mp hc with hc | hc
    · exact ha.chars c hc
    · exact hb.chars c hc

theorem char {c : Char} (hc : P c) (column : Nat) : (appendChar c line column).Within P line :=
  ⟨rfl, fun d hd => by rw [mem_singleton.mp hd]; exact hc⟩

theorem passthrough (ht : ∀ c ∈ t, P c) (column : Nat) :
    (appendPassthrough t line column).Within P line := by
  induction t generalizing column with
  | nil => exact empty
  | cons c t ih =>
    exact (char (ht c (mem_cons_self ..)) column).append
      (ih (fun d hd => ht d (mem_cons_of_mem _ hd)) (column + 1))

end Expanded.Within

def Macros.Within (P : Char → Prop) (macros : Macros) : Prop :=
  ∀ name md, macros name = some md → ∀ c ∈ md.body, P c

section

variable {P : Char → Prop} {self : Expander} {macros : Macros} {line : Nat}
  (hself : ∀ stack t column, (∀ c ∈ t, P c) → (self stack t line column).Within P line)
  (hm : macros.Within P)

include hself

theorem expandCall_within {stack : List Text} {md : MacroDef} {column : Nat} (hbody : ∀ c ∈ md.body, P c)
    (hviews : ∀ v ∈ views, ∀ c ∈ v.2, P c) :
    (expandCall self stack md line column (expandArgs self stack line column views)).Within P line := by
  have hargs : ∀ a ∈ (expandArgs self stack line column views).map Expanded.text, ∀ c ∈ a, P c := by
    intro a ha
    obtain ⟨r, hr, rfl⟩ := mem_map.mp ha
    obtain ⟨v, hv, rfl⟩ := mem_map.mp hr
    exact (hself _ _ _ fun c hc => hviews v hv c (mem_of_mem_trimSpaces hc)).chars
  have hrepl := hself stack _ column (@substLoop_within P md.params _ hargs md.body.length _ hbody)
  exact ⟨hrepl.map_line, hrepl.chars⟩

include hm

theorem macroUse_within (stack : List Text) (column : Nat) (name : Text) {behind : Text}
    (hb : ∀ c ∈ behind, P c) :
    (macroUse self macros stack line column name behind).1.Within P line ∧
      ∀ c ∈ (macroUse self macros stack line column name behind).2, P c := by
  unfold macroUse
  cases hmd : macros name with
  | none => exact ⟨.error _ _, hb⟩
  | some md =>
    dsimp only
    split_ifs with hrec hfun
    · exact ⟨.error _ _, hb⟩
    · split
      · next inside =>
        have hinside : ∀ c ∈ inside, P c := fun c hc => hb c (mem_cons_of_mem _ hc)
        cases hcall : parseMacroCallArgs (name.length + 2) inside with
        | none => exact ⟨.error _ _, hb⟩
        | some out =>
          obtain ⟨views, left⟩ := out
          have hviews := callLoop_within hcall ⟨fun _ h => (nomatch h), fun _ h => (nomatch h)⟩ hinside
          exact ⟨expandCall_within hself (hm name md hmd) hviews,
            fun c hc => hinside c ((callLoop_suffix hcall).1.subset hc)⟩
      · exact ⟨.error _ _, hb⟩
    · exact ⟨hself _ _ _ (hm name md hmd), hb⟩

theorem expandLoop_within (stack : List Text) (fuel column : Nat) (ht : ∀ c ∈ t, P c) :
    (expandLoop self macros stack line fuel column t).Within P line := by
  induction fuel generalizing column t with
  | zero => exact .empty
  | succ fuel ih =>
    cases t with
    | nil => exact .empty
    | cons c t =>
      have htail : ∀ c ∈ t, P c := fun c hc => ht c (mem_cons_of_mem _ hc)
      rw [expandLoop]
      dsimp only
      split_ifs
      · exact (Expanded.Within.char (ht c (mem_cons_self ..)) column).append (ih _ htail)
      · obtain ⟨huse, hleft⟩ := macroUse_within hself hm stack column (parseIdent t).1
          fun c hc => htail c (mem_of_mem_parseIdent_snd hc)
        exact huse.append (ih _ hleft)

end

theorem expandText_within {P : Char → Prop} {macros : Macros} (hm : macros.Within P) (levels : Nat) (stack : List Text)
    (ht : ∀ c ∈ t, P c) (line column : Nat) :
    (expandText macros levels stack t line column).Within P line := by
  induction levels generalizing stack t column with
  | zero => exact (Expanded.Within.error _ _).append (.passthrough ht _)
  | succ levels ih =>
    exact expandLoop_within (fun stack t column ht => ih stack ht column) hm stack _ column ht

theorem expandParts_within {P : Char → Prop} {macros : Macros} (hm : macros.Within P)
    {parts : List (Bool × Text)} (hparts : ∀ p ∈ parts, ∀ c ∈ p.2, P c) (line column : Nat) :
    (expandParts macros line column parts).Within P line := by
  induction parts generalizing column with
  | nil => exact .empty
  | cons p parts ih =>
    obtain ⟨expanded, t⟩ := p
    have ht := hparts _ (mem_cons_self ..)
    refine Expanded.Within.append ?_ (ih (fun p hp => hparts p (mem_cons_of_mem _ hp)) _)
    split
    · exact expandText_within hm _ _ ht line column
    · exact .passthrough ht column

end PhyEngine.Verilog
