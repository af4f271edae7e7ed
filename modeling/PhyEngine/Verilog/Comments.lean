import PhyEngine.Verilog.Preprocess

/-!
# Block comments across lines

Where a text is inside a comment is read from the left (`commentStep`). The flag that
`process_text` carries from line to line is right behind a line it scans unless a comment ends
with the last character of the line; directives and inactive lines are not scanned.
-/

namespace PhyEngine.Verilog

open Munch List

/-- What the text before a character is: `slash` stands behind a slash and `star` behind a star
in a comment, `closed` right behind a block comment. -/
inductive CommentState where
  | code
  | slash
  | line
  | block
  | star
  | closed
  | string
  | escaped
  deriving DecidableEq

def codeStep (c : Char) : CommentState :=
  if c = '/' then .slash else if c = '"' then .string else .code

/-- One character of the text. A string and a line comment end with the line. -/
def commentStep : CommentState → Char → CommentState
  | .code, c => codeStep c
  | .closed, c => codeStep c
  | .slash, c => if c = '/' then .line else if c = '*' then .block else codeStep c
  | .line, c => if c = '\n' then .code else .line
  | .block, c => if c = '*' then .star else .block
  | .star, c => if c = '/' then .closed else if c = '*' then .star else .block
  | .string, c => if c = '\\' then .escaped else if c = '"' ∨ c = '\n' then .code else .string
  | .escaped, c => if c = '\n' then .code else .string

namespace CommentState

def inBlock : CommentState → Bool
  | block | star => true
  | _ => false

def outside : CommentState → Bool
  | code | slash | closed => true
  | _ => false

def ofFlag (b : Bool) : CommentState := if b then .block else .code

@[simp] theorem inBlock_ofFlag (b : Bool) : (ofFlag b).inBlock = b := by cases b <;> rfl

end CommentState

variable (s : CommentState)

variable (t : Text)

def commentRun : CommentState := t.foldl commentStep s

@[simp] theorem commentRun_nil : commentRun s [] = s := rfl

@[simp] theorem commentRun_cons (c : Char) (t : Text) :
    commentRun s (c :: t) = commentRun (commentStep s c) t := rfl

theorem commentRun_append (t u : Text) :
    commentRun s (t ++ u) = commentRun (commentRun s t) u := foldl_append

/-- For each backquote of a text, whether it stands outside of comments and strings. -/
def refMarks : CommentState → Text → List Bool
  | _, [] => []
  | s, c :: t => (if c = backquote then [s.outside] else []) ++ refMarks (commentStep s c) t

theorem refMarks_append (t u : Text) :
    refMarks s (t ++ u) = refMarks s t ++ refMarks (commentRun s t) u := by
  induction t generalizing s with
  | nil => rfl
  | cons c t ih => rw [cons_append, refMarks, refMarks, ih, append_assoc, commentRun_cons]

/-- For each backquote of the parts of a line, whether it is expanded. -/
def partMarks (parts : List (Bool × Text)) : List Bool :=
  parts.flatMap fun p => (p.2.filter (· = backquote)).map fun _ => p.1

/-- `find_block_comment_end` finds the end of the comment. -/
def closesBlock : Text → Bool
  | [] => false
  | '*' :: '/' :: _ => true
  | _ :: rest => closesBlock rest

theorem blockComment_rest {t : Text} (h : closesBlock t = false) : (blockComment t).2 = [] := by
  fun_induction blockComment t with
  | case1 => rfl
  | case2 rest => cases h
  | case3 c rest hend ih =>
    rw [closesBlock] at h
    · exact ih h
    · exact hend

/-- Reading the inside of a comment to its end. A star before the text has been seen to be no
end. -/
theorem commentRun_blockComment {s : CommentState} (hs : s.inBlock = true)
    (hstar : s = .star → t.head? ≠ some '/') :
    (if closesBlock t then commentRun s (blockComment t).1 = .closed
      else (commentRun s (blockComment t).1).inBlock = true) ∧
      refMarks s (blockComment t).1 = ((blockComment t).1.filter (· = backquote)).map fun _ => false := by
  have houtside : s.outside = false := by cases s <;> first | rfl | cases hs
  fun_induction blockComment t generalizing s with
  | case1 => exact ⟨hs, rfl⟩
  | case2 rest =>
    have hstep : commentStep s '*' = .star := by cases s <;> first | rfl | cases hs
    refine ⟨?_, rfl⟩
    rw [if_pos (by rfl), commentRun_cons, hstep]
    rfl
  | case3 c rest hend ih =>
    have hcloses : closesBlock (c :: rest) = closesBlock rest := by rw [closesBlock]; exact hend
    have hne : s = .star → c ≠ '/' := fun h hc => hstar h (congrArg some hc)
    have hin : (commentStep s c).inBlock = true := by
      cases s with
      | block =>
        rw [commentStep]
        split_ifs <;> rfl
      | star =>
        rw [commentStep, if_neg (hne rfl)]
        split_ifs <;> rfl
      | code | slash | line | closed | string | escaped => cases hs
    have hnext : commentStep s c = .star → rest.head? ≠ some '/' := by
      intro hs' hhead
      have hc : c = '*' := by
        by_contra hc
        cases s with
        | block =>
          rw [commentStep, if_neg hc] at hs'
          cases hs'
        | star =>
          rw [commentStep, if_neg (hne rfl), if_neg hc] at hs'
          cases hs'
        | code | slash | line | closed | string | escaped => cases hs
      exact hend rest.tail hc (cons_head?_tail hhead).symm
    obtain ⟨hrun, hmarks⟩ := ih hin hnext (by
      generalize commentStep s c = u at hin
      cases u <;> first | rfl | cases hin)
    refine ⟨by rw [hcloses]; exact hrun, ?_⟩
    rw [refMarks, hmarks, houtside]
    by_cases hc : c = backquote
    · simp [hc]
    · simp [hc]

def stringComment : StringState → CommentState
  | .inside => .string
  | .escaped => .escaped
  | .closed => .code

variable {c : Char}

theorem commentStep_string {s : StringState} (hs : s ≠ .closed) (hc : c ≠ '\n') :
    commentStep (stringComment s) c = stringComment (stringNext s c) := by
  cases s with
  | inside =>
    by_cases h₁ : c = '\\'
    · rw [h₁]
      rfl
    · by_cases h₂ : c = '"'
      · rw [h₂]
        rfl
      · have hnext : stringNext .inside c = .inside := by
          unfold stringNext
          split <;> simp_all
        rw [hnext, stringComment, commentStep, if_neg h₁, if_neg (not_or.mpr ⟨h₂, hc⟩)]
  | escaped => rw [stringComment, commentStep, if_neg hc]; rfl
  | closed => exact absurd rfl hs

theorem commentRun_string {s : StringState} {t : Text} (hacc : Accepts stringOk stringNext s t)
    (hline : '\n' ∉ t) :
    commentRun (stringComment s) t = stringComment (t.foldl stringNext s) ∧
      refMarks (stringComment s) t = (t.filter (· = backquote)).map fun _ => false := by
  induction t generalizing s with
  | nil => exact ⟨rfl, rfl⟩
  | cons c t ih =>
    have hs : s ≠ .closed := of_decide_eq_true hacc.1
    have hc : c ≠ '\n' := fun h => hline (h ▸ mem_cons_self ..)
    have hstep := commentStep_string hs hc
    obtain ⟨hrun, hmarks⟩ := ih hacc.2 fun h => hline (mem_cons_of_mem _ h)
    have houtside : (stringComment s).outside = false := by
      cases s with
      | inside => rfl
      | escaped => rfl
      | closed => exact absurd rfl hs
    refine ⟨by rw [commentRun_cons, hstep, hrun, foldl_cons], ?_⟩
    rw [refMarks, hstep, hmarks, houtside]
    by_cases h : c = backquote
    · simp [h]
    · simp [h]

/-- A state from which the next character is read as outside of comments and strings. -/
def ReadsCode : Prop :=
  s.outside = true ∧ (s = .slash → t.head? ≠ some '/' ∧ t.head? ≠ some '*')

theorem ReadsCode.step {s : CommentState} {t : Text} (h : ReadsCode s (c :: t)) :
    commentStep s c = codeStep c := by
  cases s with
  | code => rfl
  | closed => rfl
  | slash =>
    obtain ⟨h₁, h₂⟩ := h.2 rfl
    rw [commentStep, if_neg fun hc => h₁ (congrArg some hc), if_neg fun hc => h₂ (congrArg some hc)]
  | line | block | star | string | escaped => cases h.1

theorem commentRun_plainSpan {s : CommentState} (hs : ReadsCode s t) :
    ReadsCode (commentRun s (plainSpan t).1) (plainSpan t).2 ∧
      (s ≠ .closed → commentRun s (plainSpan t).1 ≠ .closed) ∧
      refMarks s (plainSpan t).1 = ((plainSpan t).1.filter (· = backquote)).map fun _ => true := by
  induction t generalizing s with
  | nil => exact ⟨hs, id, rfl⟩
  | cons c t ih =>
    rw [plainSpan]
    split_ifs with hspecial
    · exact ⟨hs, id, rfl⟩
    · rw [not_or, not_and, not_or] at hspecial
      have hstep := hs.step
      have hnext : ReadsCode (codeStep c) t ∧ codeStep c ≠ .closed := by
        rw [codeStep, if_neg hspecial.1]
        split_ifs with hc
        · exact ⟨⟨rfl, fun _ => hspecial.2 hc⟩, fun h => nomatch h⟩
        · exact ⟨⟨rfl, fun h => nomatch h⟩, fun h => nomatch h⟩
      obtain ⟨hrun, hopen, hmarks⟩ := ih hnext.1
      rw [commentRun_cons, refMarks, hstep, hmarks, hs.1]
      refine ⟨hrun, fun _ => hopen hnext.2, ?_⟩
      by_cases hc : c = backquote
      · simp [hc]
      · simp [hc]

theorem commentRun_line {t : Text} (hline : '\n' ∉ t) :
    commentRun .line t = .line ∧
      refMarks .line t = (t.filter (· = backquote)).map fun _ => false := by
  induction t with
  | nil => exact ⟨rfl, rfl⟩
  | cons c t ih =>
    have hc : c ≠ '\n' := fun h => hline (h ▸ mem_cons_self ..)
    have hstep : commentStep .line c = .line := by rw [commentStep, if_neg hc]
    obtain ⟨hrun, hmarks⟩ := ih fun h => hline (mem_cons_of_mem _ h)
    rw [commentRun_cons, refMarks, hstep, hmarks]
    refine ⟨hrun, ?_⟩
    by_cases h : c = backquote
    · simp [h, CommentState.outside]
    · simp [h]

/-- The flag that the code has behind a part: it takes the end of a comment at the end of the
line for no end. -/
def flagBehind : Bool := s.inBlock || s = .closed

/-- What one round takes off a line that begins in the state of the flag `b`. -/
structure PartSpec (b : Bool) (t : Text) (out : (Bool × Text) × Text × Bool) : Prop where
  append : out.1.2 ++ out.2.1 = t
  ne_nil : out.1.2 ≠ []
  marks : refMarks (.ofFlag b) out.1.2 = (out.1.2.filter (· = backquote)).map fun _ => out.1.1
  flag_end : out.2.1 = [] → out.2.2 = flagBehind (commentRun (.ofFlag b) out.1.2)
  flag_more : out.2.1 ≠ [] → out.2.2 = false ∧ ReadsCode (commentRun (.ofFlag b) out.1.2) out.2.1

theorem partSpec_block {b : Bool} {before t : Text} (hbefore : before ++ t ≠ [])
    (hrun : commentRun (.ofFlag b) before = .block)
    (hmarks : refMarks (.ofFlag b) before = (before.filter (· = backquote)).map fun _ => false) :
    PartSpec b (before ++ t)
      ((false, before ++ (blockComment t).1), (blockComment t).2, decide ((blockComment t).2 = [])) := by
  obtain ⟨hclosed, hinside⟩ := commentRun_blockComment t (s := .block) rfl fun h => nomatch h
  have hstate : commentRun (.ofFlag b) (before ++ (blockComment t).1) =
      commentRun .block (blockComment t).1 := by rw [commentRun_append, hrun]
  refine ⟨?_, ?_, ?_, ?_, ?_⟩
  · rw [append_assoc, blockComment_append]
  · intro h
    obtain ⟨h₁, h₂⟩ := append_eq_nil_iff.mp h
    have ht := blockComment_append t
    cases t with
    | nil => exact hbefore (by rw [h₁]; rfl)
    | cons c t =>
      unfold blockComment at h₂
      split at h₂ <;> simp_all
  · rw [refMarks_append, hrun, hmarks, hinside, filter_append, map_append]
  · intro hrest
    dsimp only at hrest ⊢
    rw [hstate, decide_eq_true hrest, flagBehind]
    split_ifs at hclosed
    · rw [hclosed]
      rfl
    · rw [hclosed]
      rfl
  · intro hrest
    dsimp only at hrest ⊢
    have hends : closesBlock t = true := by
      by_contra h
      exact hrest (blockComment_rest (Bool.eq_false_iff.mpr h))
    rw [if_pos hends] at hclosed
    rw [hstate, hclosed]
    exact ⟨decide_eq_false hrest, rfl, fun h => nomatch h⟩

theorem plainSpan_append : (plainSpan t).1 ++ (plainSpan t).2 = t := by
  induction t with
  | nil => rfl
  | cons c t ih =>
    rw [plainSpan]
    split_ifs
    · rfl
    · rw [cons_append, ih]

theorem special_of_plainSpan {t : Text} (h : (plainSpan (c :: t)).1 = []) :
    c = '"' ∨ c = '/' ∧ (t.head? = some '/' ∨ t.head? = some '*') := by
  rw [plainSpan] at h
  split_ifs at h with hspecial
  exact hspecial

theorem partSpec_string {t : Text} (hline : '\n' ∉ t) :
    PartSpec false ('"' :: t) ((false, '"' :: (munch stringOk stringNext .inside t).1),
      (munch stringOk stringNext .inside t).2, false) := by
  have happend : (munch stringOk stringNext .inside t).1 ++ (munch stringOk stringNext .inside t).2 = t :=
    munch_fst_append_snd _ _
  generalize hm : munch stringOk stringNext .inside t = m at happend ⊢
  obtain ⟨w, v⟩ := m
  have hword : munch stringOk stringNext .inside (w ++ v) = (w, v) := by
    rw [show w ++ v = t from happend, hm]
  obtain ⟨hacc, hstop⟩ := (munch_append_iff _ w v).mp hword
  have hfree : '\n' ∉ w := fun h => hline (happend ▸ mem_append_left _ h)
  obtain ⟨hrun, hmarks⟩ := commentRun_string hacc hfree
  have hstate : commentRun (.ofFlag false) ('"' :: w) = stringComment (w.foldl stringNext .inside) := hrun
  refine ⟨congrArg ('"' :: ·) happend, cons_ne_nil _ _, hmarks, ?_, ?_⟩
  · intro _
    dsimp only
    rw [hstate]
    generalize w.foldl stringNext .inside = u
    cases u <;> rfl
  · intro hrest
    dsimp only at hrest ⊢
    obtain ⟨a, v, rfl⟩ := exists_cons_of_ne_nil hrest
    have hclosed : w.foldl stringNext .inside = .closed := by
      have h := hstop a rfl
      rw [stringOk, decide_eq_false_iff_not, not_not] at h
      exact h
    rw [hstate, hclosed]
    exact ⟨rfl, rfl, fun h => nomatch h⟩

theorem partSpec_line {t : Text} (hline : '\n' ∉ t) :
    PartSpec false ('/' :: '/' :: t) ((false, '/' :: '/' :: t), [], false) := by
  obtain ⟨hrun, hmarks⟩ := commentRun_line hline
  have hstate : commentRun (.ofFlag false) ('/' :: '/' :: t) = .line := hrun
  refine ⟨append_nil _, cons_ne_nil _ _, hmarks, fun _ => ?_, fun h => absurd rfl h⟩
  rw [hstate]
  rfl

theorem linePart_spec (b : Bool) {t : Text} (hline : '\n' ∉ c :: t) :
    PartSpec b (c :: t) (linePart b (c :: t)) := by
  unfold linePart
  split_ifs with hb hplain
  · subst hb
    exact @partSpec_block true [] (c :: t) (cons_ne_nil _ _) rfl rfl
  · obtain rfl : b = false := Bool.eq_false_iff.mpr hb
    obtain ⟨hrun, hopen, hmarks⟩ :=
      commentRun_plainSpan (c :: t) (s := .code) ⟨rfl, fun h => nomatch h⟩
    have houtside := hrun.1
    have hclosed := hopen fun h => nomatch h
    have hcode : commentRun (.ofFlag false) (plainSpan (c :: t)).1 =
        commentRun .code (plainSpan (c :: t)).1 := rfl
    refine ⟨plainSpan_append _, hplain, hmarks, fun _ => ?_, fun _ => ⟨rfl, hrun⟩⟩
    dsimp only
    rw [hcode]
    generalize commentRun .code (plainSpan (c :: t)).1 = u at houtside hclosed
    cases u with
    | code => rfl
    | slash => rfl
    | closed => exact absurd rfl hclosed
    | line | block | star | string | escaped => cases houtside
  · obtain rfl : b = false := Bool.eq_false_iff.mpr hb
    rw [not_not] at hplain
    have hrest : '\n' ∉ t := fun h => hline (mem_cons_of_mem _ h)
    rcases special_of_plainSpan hplain with rfl | ⟨rfl, hslash | hstar⟩
    · exact partSpec_string hrest
    · obtain ⟨t, rfl⟩ : ∃ u, t = '/' :: u := ⟨t.tail, (cons_head?_tail hslash).symm⟩
      exact partSpec_line fun h => hrest (mem_cons_of_mem _ h)
    · obtain ⟨t, rfl⟩ : ∃ u, t = '*' :: u := ⟨t.tail, (cons_head?_tail hstar).symm⟩
      exact @partSpec_block false ['/', '*'] t (cons_ne_nil _ _) rfl rfl

theorem ReadsCode.run_marks {s : CommentState} {t : Text} (h : ReadsCode s t) (ht : t ≠ []) :
    commentRun s t = commentRun .code t ∧ refMarks s t = refMarks .code t := by
  obtain ⟨c, t, rfl⟩ := exists_cons_of_ne_nil ht
  have hcode : commentStep .code c = codeStep c := rfl
  rw [commentRun_cons, commentRun_cons, refMarks, refMarks, h.step, hcode, h.1]
  exact ⟨rfl, rfl⟩

theorem lineParts_spec (b : Bool) {t : Text} (hline : '\n' ∉ t) {fuel : Nat} (hf : t.length ≤ fuel) :
    (t ≠ [] → (lineParts fuel b t).2 = flagBehind (commentRun (.ofFlag b) t)) ∧
      partMarks (lineParts fuel b t).1 = refMarks (.ofFlag b) t := by
  induction fuel generalizing b t with
  | zero =>
    rw [length_eq_zero_iff.mp (Nat.le_zero.mp hf)]
    exact ⟨fun h => absurd rfl h, rfl⟩
  | succ fuel ih =>
    cases t with
    | nil => exact ⟨fun h => absurd rfl h, rfl⟩
    | cons c t =>
      have hspec := linePart_spec b hline
      rw [lineParts]
      generalize linePart b (c :: t) = out at hspec ⊢
      obtain ⟨⟨e, part⟩, rest, b'⟩ := out
      obtain ⟨happend, hne, hmarks, hend, hmore⟩ := hspec
      dsimp only at happend hne hmarks hend hmore ⊢
      have hlen := congrArg List.length happend
      rw [length_append] at hlen
      have hpos := length_pos_iff.mpr hne
      obtain ⟨hflag, hparts⟩ := ih b' (fun h => hline (happend ▸ mem_append_right _ h))
        (show rest.length ≤ fuel by omega)
      have hcons : partMarks ((e, part) :: (lineParts fuel b' rest).1) =
          refMarks (.ofFlag b) part ++ refMarks (.ofFlag b') rest := by
        rw [hmarks, ← hparts]
        rfl
      rw [hcons, ← happend, commentRun_append, refMarks_append]
      by_cases hrest : rest = []
      · rw [hrest] at hend ⊢
        have hstop : (lineParts fuel b' []).2 = b' := by cases fuel <;> rfl
        rw [hstop]
        exact ⟨fun _ => hend rfl, rfl⟩
      · obtain ⟨rfl, hcode⟩ := hmore hrest
        obtain ⟨hrun, hsame⟩ := hcode.run_marks hrest
        rw [hrun, hsame]
        exact ⟨fun _ => hflag hrest, rfl⟩

theorem lineInBlock_eq (b : Bool) {t : Text} (hline : '\n' ∉ t) :
    lineInBlock b t = flagBehind (commentRun (.ofFlag b) t) := by
  cases t with
  | nil => cases b <;> rfl
  | cons c t => exact (lineParts_spec b hline le_rfl).1 (cons_ne_nil _ _)

theorem notMem_sourceLines {t l : Text} (h : l ∈ sourceLines t) : '\n' ∉ l := by
  induction t generalizing l with
  | nil => cases h
  | cons c t ih =>
    rw [sourceLines] at h
    split_ifs at h with hc
    · rcases mem_cons.mp h with rfl | h
      · exact not_mem_nil
      · exact ih h
    · cases hs : sourceLines t with
      | nil =>
        rw [hs] at h
        rw [mem_singleton.mp h, mem_singleton]
        exact Ne.symm hc
      | cons first rest =>
        rw [hs] at h
        rcases mem_cons.mp h with rfl | h
        · rw [mem_cons, not_or]
          exact ⟨Ne.symm hc, ih (hs ▸ mem_cons_self ..)⟩
        · exact ih (hs ▸ mem_cons_of_mem _ h)

theorem isPrefix_logicalLine (l : Text) : logicalLine l <+: l := by
  rw [logicalLine]
  split
  · exact dropLast_prefix l
  · exact prefix_rfl

theorem commentRun_newline (l : Text) :
    commentRun s (l ++ ['\n']) = .ofFlag (commentRun s (logicalLine l)).inBlock := by
  have hend (u : CommentState) : commentStep u '\n' = .ofFlag u.inBlock := by cases u <;> rfl
  have hreturn (u : CommentState) : (commentStep u '\r').inBlock = u.inBlock := by cases u <;> rfl
  rw [commentRun_append, commentRun_cons, commentRun_nil, hend, logicalLine]
  split_ifs with hr
  · have hsplit : l = l.dropLast ++ ['\r'] := by
      have hne : l ≠ [] := by
        rintro rfl
        cases hr
      rw [getLast?_eq_some_getLast hne, Option.some.injEq] at hr
      rw [← hr, dropLast_concat_getLast]
    conv_lhs => rw [hsplit, commentRun_append, commentRun_cons, commentRun_nil, hreturn]
  · rfl

variable (opt : PreOptions)

def PreOptions.included : Option (PreState → Text → PreState) :=
  match opt.includeDepthLimit with
  | 0 => none
  | levels + 1 => some (processText opt levels)

variable (src : Text)

theorem preprocess_eq (opt : PreOptions) :
    preprocess src opt = (sourceLines src).foldl (processLine opt opt.included) .start := by
  rw [preprocess, PreOptions.included]
  cases opt.includeDepthLimit <;> rfl

def stateAt (k : Nat) : PreState :=
  ((sourceLines src).take k).foldl (processLine opt opt.included) .start

def textBefore (k : Nat) : Text := ((sourceLines src).take k).flatMap (· ++ ['\n'])

theorem flatMap_sourceLines :
    ∃ last, last.length ≤ 1 ∧ (sourceLines src).flatMap (· ++ ['\n']) = src ++ last := by
  induction src with
  | nil => exact ⟨[], Nat.zero_le _, rfl⟩
  | cons c t ih =>
    obtain ⟨last, hlast, ih⟩ := ih
    rw [sourceLines]
    split_ifs with hc
    · exact ⟨last, hlast, by rw [flatMap_cons, ih, hc]; rfl⟩
    · cases hs : sourceLines t with
      | nil =>
        have ht : t = [] := by
          rw [hs, flatMap_nil, eq_comm, append_eq_nil_iff] at ih
          exact ih.1
        exact ⟨['\n'], le_rfl, by rw [ht]; rfl⟩
      | cons l ls =>
        rw [hs] at ih
        exact ⟨last, hlast, congrArg (c :: ·) ih⟩

/-- A line begins inside a block comment, read off the whole text before it. -/
def beginsInBlock (k : Nat) : Bool := (commentRun .code (textBefore src k)).inBlock

def isDirective (s : PreState) (l : Text) : Bool :=
  !s.inBlock && (afterBackquote (logicalLine l)).isSome

/-- The round leaves the flag right: a directive opens no comment, in a line that is scanned no
comment ends with the last character, and a line that is skipped is as much inside a comment at
its end as at its beginning. -/
def LineMeets (s : PreState) (l : Text) : Prop :=
  if isDirective s l then (commentRun .code (logicalLine l)).inBlock = false
  else if s.currentActive then commentRun (.ofFlag s.inBlock) (logicalLine l) ≠ .closed
  else (commentRun (.ofFlag s.inBlock) (logicalLine l)).inBlock = s.inBlock

instance (s : PreState) (l : Text) : Decidable (LineMeets s l) :=
  inferInstanceAs (Decidable (if isDirective s l then (commentRun .code (logicalLine l)).inBlock = false
    else if s.currentActive then commentRun (.ofFlag s.inBlock) (logicalLine l) ≠ .closed
    else (commentRun (.ofFlag s.inBlock) (logicalLine l)).inBlock = s.inBlock))

theorem inBlock_processKeyword (included : Option (PreState → Text → PreState))
    (s : PreState) (column : Nat) (t : Text) (k : Option Keyword) :
    (processKeyword opt included s column t k).inBlock = s.inBlock := by
  have hdefine : (processDefine s column t).inBlock = s.inBlock := by
    unfold processDefine
    dsimp only
    split_ifs <;> rfl
  have hundef : (processUndef s column t).inBlock = s.inBlock := by
    unfold processUndef
    dsimp only
    split_ifs <;> rfl
  have helse : (processElse s column).inBlock = s.inBlock := by
    unfold processElse
    split
    · rfl
    · split_ifs <;> rfl
  have hendif : (processEndif s column).inBlock = s.inBlock := by
    unfold processEndif
    split <;> rfl
  have hinclude : (processInclude opt included s column t).inBlock = s.inBlock := by
    unfold processInclude
    split
    · rfl
    · rfl
    · split
      · rfl
      · split <;> rfl
  have hnewline (u : PreState) : u.newline.inBlock = u.inBlock := rfl
  unfold processKeyword
  split
  · rw [hnewline]
    split_ifs
    · exact hdefine
    · rfl
  · rw [hnewline]
    split_ifs
    · exact hundef
    · rfl
  · rfl
  · rfl
  · rw [hnewline, helse]
  · rw [hnewline, hendif]
  · split_ifs
    · exact hinclude
    · rfl
  · rfl
  · rfl
  · rfl

theorem inBlock_processLine (included : Option (PreState → Text → PreState))
    (s : PreState) (l : Text) :
    (processLine opt included s l).inBlock =
      if isDirective s l then s.inBlock
      else if s.currentActive then lineInBlock s.inBlock (logicalLine l)
      else s.inBlock := by
  rw [processLine, isDirective]
  dsimp only
  cases hb : s.inBlock with
  | true =>
    simp only [if_true, Bool.not_true, Bool.false_and, Bool.false_eq_true, if_false]
    split_ifs with hactive
    · rfl
    · exact hb
  | false =>
    simp only [Bool.false_eq_true, if_false, Bool.not_false, Bool.true_and]
    cases afterBackquote (logicalLine l) with
    | some rest =>
      simp only [Option.isSome_some, if_true]
      rw [inBlock_processKeyword, hb]
    | none =>
      simp only [Option.isSome_none, Bool.false_eq_true, if_false]
      split_ifs with hactive
      · rfl
      · exact hb

theorem processLine_meets {opt : PreOptions} {included : Option (PreState → Text → PreState)}
    {s : PreState} {l : Text} (hline : '\n' ∉ l) :
    LineMeets s l ↔
      (processLine opt included s l).inBlock =
        (commentRun (.ofFlag s.inBlock) (logicalLine l)).inBlock := by
  have hfree : '\n' ∉ logicalLine l := fun h => hline ((isPrefix_logicalLine l).subset h)
  rw [inBlock_processLine, LineMeets]
  split_ifs with hd ha
  · have hb : s.inBlock = false := by
      rw [isDirective, Bool.and_eq_true, Bool.not_eq_true'] at hd
      exact hd.1
    rw [hb, eq_comm]
    rfl
  · rw [lineInBlock_eq _ hfree, flagBehind]
    generalize commentRun (.ofFlag s.inBlock) (logicalLine l) = u
    cases u <;> simp [CommentState.inBlock]
  · exact eq_comm

variable {k : Nat}

theorem take_succ_sourceLines {src l : Text} (hl : (sourceLines src)[k]? = some l) :
    (sourceLines src).take (k + 1) = (sourceLines src).take k ++ [l] := by
  rw [take_add_one, hl]
  rfl

theorem isPrefix_textBefore {src l : Text} (hl : (sourceLines src)[k]? = some l) :
    textBefore src k ++ l <+: src := by
  obtain ⟨last, hlast, hall⟩ := flatMap_sourceLines src
  have hsplit : (sourceLines src).flatMap (· ++ ['\n']) =
      (textBefore src k ++ l) ++ ('\n' :: ((sourceLines src).drop (k + 1)).flatMap (· ++ ['\n'])) := by
    conv_lhs => rw [← take_append_drop (k + 1) (sourceLines src), take_succ_sourceLines hl]
    rw [flatMap_append, flatMap_append, flatMap_singleton, textBefore]
    simp only [append_assoc]
    rfl
  have hlen := congrArg List.length (hsplit.symm.trans hall)
  refine prefix_of_prefix_length_le ⟨_, hsplit.symm.trans hall⟩ (prefix_append src last) ?_
  simp only [length_append, length_cons] at hlen ⊢
  omega

theorem commentRun_textBefore (hk : k ≤ (sourceLines src).length)
    (hmeets : ∀ j < k, ∀ l ∈ (sourceLines src)[j]?, LineMeets (stateAt opt src j) l) :
    commentRun .code (textBefore src k) = .ofFlag (stateAt opt src k).inBlock := by
  induction k with
  | zero => rfl
  | succ k ih =>
    obtain ⟨l, hl⟩ : ∃ l, (sourceLines src)[k]? = some l := ⟨_, getElem?_eq_getElem (by omega)⟩
    have hbefore := ih (by omega) fun j hj => hmeets j (by omega)
    have hflag := (@processLine_meets opt opt.included _ _
      (notMem_sourceLines (List.mem_of_getElem? hl))).mp (hmeets k (by omega) l hl)
    have hstate : stateAt opt src (k + 1) = processLine opt opt.included (stateAt opt src k) l := by
      rw [stateAt, take_succ_sourceLines hl, foldl_append]
      rfl
    rw [textBefore, take_succ_sourceLines hl, flatMap_append, flatMap_singleton,
      commentRun_append, ← textBefore, hbefore, commentRun_newline, hstate, hflag]

theorem blockComments_tracked {l : Text}
    (hl : (sourceLines src)[k]? = some l)
    (hmeets : ∀ j < k, ∀ l ∈ (sourceLines src)[j]?, LineMeets (stateAt opt src j) l) :
    textBefore src k ++ l <+: src ∧
      (stateAt opt src k).inBlock = beginsInBlock src k ∧
      isDirective (stateAt opt src k) l =
        (!beginsInBlock src k && (afterBackquote (logicalLine l)).isSome) ∧
      partMarks (lineParts (logicalLine l).length (stateAt opt src k).inBlock (logicalLine l)).1 =
        refMarks (commentRun .code (textBefore src k)) (logicalLine l) := by
  have hk : k < (sourceLines src).length := (List.getElem?_eq_some_iff.mp hl).1
  have hrun := commentRun_textBefore opt src hk.le hmeets
  have hflag : (stateAt opt src k).inBlock = beginsInBlock src k := by
    rw [beginsInBlock, hrun, CommentState.inBlock_ofFlag]
  have hline : '\n' ∉ logicalLine l := fun h =>
    notMem_sourceLines (List.mem_of_getElem? hl) ((isPrefix_logicalLine l).subset h)
  refine ⟨isPrefix_textBefore hl, hflag, by rw [isDirective, hflag], ?_⟩
  rw [hrun]
  exact (lineParts_spec _ hline le_rfl).2

/-- A comment over two lines that goes on behind its end. -/
theorem blockComments_tracked_two_lines :
    (stateAt ⟨none, 32⟩ ['/', '*', '\n', '*', '/', 'x', '\n', 'y'] 2).inBlock = false ∧
      beginsInBlock ['/', '*', '\n', '*', '/', 'x', '\n', 'y'] 2 = false := by
  have hmeets : ∀ j < 2, ∀ l ∈ (sourceLines ['/', '*', '\n', '*', '/', 'x', '\n', 'y'])[j]?,
      LineMeets (stateAt ⟨none, 32⟩ ['/', '*', '\n', '*', '/', 'x', '\n', 'y'] j) l := by
    intro j hj l hl
    obtain rfl | rfl : j = 0 ∨ j = 1 := by omega
    · cases hl
      decide
    · cases hl
      decide
  have h := blockComments_tracked ⟨none, 32⟩ ['/', '*', '\n', '*', '/', 'x', '\n', 'y']
    (k := 2) (l := ['y']) rfl hmeets
  exact ⟨h.2.1.trans rfl, rfl⟩

/-- `/**/` on a line of its own: the next line is taken for a part of the comment. -/
theorem blockComment_open_behind_its_end :
    (stateAt ⟨none, 32⟩ ['/', '*', '*', '/', '\n', 'x'] 1).currentActive = true ∧
      (stateAt ⟨none, 32⟩ ['/', '*', '*', '/', '\n', 'x'] 1).inBlock = true ∧
      beginsInBlock ['/', '*', '*', '/', '\n', 'x'] 1 = false :=
  ⟨rfl, rfl, rfl⟩

end PhyEngine.Verilog
