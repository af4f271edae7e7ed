import Mathlib.Data.List.Infix
import PhyEngine.Verilog.Comments
import PhyEngine.Verilog.MacroText

/-!
# Conditional compilation and the source map

A line is expanded where every conditional around it has selected its branch (`RefState`). The
frames of the code are a function of these conditionals (`frames`); only a selected line that
begins with a backquote and is no directive comes out differently.
-/

namespace PhyEngine.Verilog

open List

structure Cond where
  cond : Bool
  inElse : Bool
  deriving DecidableEq

/-- Every conditional has selected the branch that is being read. -/
def selected (conds : List Cond) : Bool := conds.all fun f => f.cond != f.inElse

structure RefState where
  macros : Macros
  conds : List Cond

def directiveOf (l : Text) : Option (Keyword × Text) :=
  (afterBackquote l).bind fun rest =>
    (keywordOf (directiveWord rest).1).map fun k => (k, (directiveWord rest).2)

def Macros.define (macros : Macros) (t : Text) : Macros :=
  if (parseIdent (skipSpaces t)).1 = [] then macros
  else macros.insert (parseIdent (skipSpaces t)).1 (parseMacroDef (parseIdent (skipSpaces t)).2).1

def Macros.undef (macros : Macros) (t : Text) : Macros :=
  if (parseIdent (skipSpaces t)).1 = [] then macros else macros.erase (parseIdent (skipSpaces t)).1

variable {r : RefState} {k : Nat} {l t src : Text} {s : PreState} {macros : Macros} {c : Char}

namespace RefState

def start : RefState := ⟨fun _ => none, []⟩

def passElse : List Cond → List Cond
  | [] => []
  | f :: conds => { f with inElse := true } :: conds

def next (r : RefState) (l : Text) : RefState :=
  match directiveOf l with
  | some (.define, t) => if selected r.conds then { r with macros := r.macros.define t } else r
  | some (.undef, t) => if selected r.conds then { r with macros := r.macros.undef t } else r
  | some (.ifdef, t) => { r with conds := ⟨isDefined r.macros t, false⟩ :: r.conds }
  | some (.ifndef, t) => { r with conds := ⟨!isDefined r.macros t, false⟩ :: r.conds }
  | some (.else, _) => { r with conds := passElse r.conds }
  | some (.endif, _) => { r with conds := r.conds.tail }
  | _ => r

def lineOut (r : RefState) (k : Nat) (l : Text) : Text :=
  if directiveOf l = none ∧ selected r.conds then (expandLine r.macros k false l).text else []

/-- The line is one that the code does not take for a directive it does not know, or there is
nothing in its expansion. -/
def LineFits (r : RefState) (k : Nat) (l : Text) : Prop :=
  (afterBackquote l).isSome → directiveOf l = none → selected r.conds = true →
    (expandLine r.macros k false l).text = []

def codeOut (r : RefState) (k : Nat) (l : Text) : Text :=
  if afterBackquote l = none ∧ selected r.conds then (expandLine r.macros k false l).text else []

theorem codeOut_eq_lineOut :
    r.codeOut k l = r.lineOut k l ↔ r.LineFits k l := by
  rw [codeOut, lineOut, LineFits]
  cases hb : afterBackquote l with
  | none =>
    have hd : directiveOf l = none := by rw [directiveOf, hb]; rfl
    simp [hd]
  | some rest =>
    by_cases hd : directiveOf l = none ∧ selected r.conds = true
    · rw [if_neg (fun h => nomatch h.1), if_pos hd]
      exact ⟨fun h _ _ _ => h.symm, fun h => (h rfl hd.1 hd.2).symm⟩
    · rw [if_neg (fun h => nomatch h.1), if_neg hd]
      exact ⟨fun _ _ h₁ h₂ => absurd ⟨h₁, h₂⟩ hd, fun _ => rfl⟩

end RefState

/-- The reference state in which line `k` begins, counted from zero. -/
def refAt (src : Text) (k : Nat) : RefState :=
  ((sourceLines src).take k).foldl (fun r l => r.next (logicalLine l)) .start

def refLines (src : Text) : List Text :=
  (sourceLines src).mapIdx fun k l => (refAt src k).lineOut (k + 1) (logicalLine l)

/-- The output is the lines of the output, each with its end, and the map has the number of the
line for each of their characters. -/
structure PreprocessExact (src : Text) (out : PreState) : Prop where
  output : out.output = (refLines src).flatMap (· ++ ['\n'])
  lines : sourceLines out.output = refLines src
  map : out.sourceMap.map SourcePosition.line =
    ((refLines src).zipIdx 1).flatMap fun p => List.replicate (p.1.length + 1) p.2

def frames : List Cond → List IfFrame
  | [] => []
  | c :: conds => ⟨selected conds, c.cond, selected (c :: conds), c.inElse⟩ :: frames conds

theorem active_frames {conds : List Cond} (h : s.ifs = frames conds) :
    s.currentActive = selected conds := by
  rw [PreState.currentActive, h]
  cases conds with
  | nil => rfl
  | cons c conds => rfl

structure Agrees (s : PreState) (r : RefState) : Prop where
  macros : s.macros = r.macros
  ifs : s.ifs = frames r.conds

/-- What a round adds to the result: a line of the output with its end. -/
structure Adds (s next : PreState) (l : Text) : Prop where
  output : next.output = s.output ++ (l ++ ['\n'])
  map : next.sourceMap.map SourcePosition.line =
    s.sourceMap.map SourcePosition.line ++ List.replicate (l.length + 1) (s.line % 2 ^ 32)

/-- A directive writes nothing but the end of its line. -/
structure KeepsOutput (s next : PreState) : Prop where
  output : next.output = s.output
  sourceMap : next.sourceMap = s.sourceMap
  line : next.line = s.line

theorem KeepsOutput.adds_newline {s next : PreState} (h : KeepsOutput s next) : Adds s next.newline [] := by
  refine ⟨congrArg (· ++ ['\n']) h.output, ?_⟩
  rw [PreState.newline, map_append, h.sourceMap, h.line]
  rfl

theorem agrees_define (h : Agrees s r) (column : Nat) (t : Text) :
    Agrees (processDefine s column t) { r with macros := r.macros.define t } ∧
      KeepsOutput s (processDefine s column t) := by
  unfold processDefine Macros.define
  dsimp only
  split_ifs
  · exact ⟨⟨h.macros, h.ifs⟩, ⟨rfl, rfl, rfl⟩⟩
  · exact ⟨⟨congrArg (Macros.insert · _ _) h.macros, h.ifs⟩, ⟨rfl, rfl, rfl⟩⟩
  · exact ⟨⟨congrArg (Macros.insert · _ _) h.macros, h.ifs⟩, ⟨rfl, rfl, rfl⟩⟩

theorem agrees_undef (h : Agrees s r) (column : Nat) (t : Text) :
    Agrees (processUndef s column t) { r with macros := r.macros.undef t } ∧
      KeepsOutput s (processUndef s column t) := by
  unfold processUndef Macros.undef
  dsimp only
  split_ifs
  · exact ⟨⟨h.macros, h.ifs⟩, ⟨rfl, rfl, rfl⟩⟩
  · exact ⟨⟨congrArg (Macros.erase · _) h.macros, h.ifs⟩, ⟨rfl, rfl, rfl⟩⟩

theorem agrees_if (h : Agrees s r) (cond : Bool) :
    Agrees (processIf s cond) { r with conds := ⟨cond, false⟩ :: r.conds } := by
  refine ⟨h.macros, ?_⟩
  have hactive := active_frames h.ifs
  simp only [processIf, frames, selected, all_cons, h.ifs, hactive, Bool.bne_false, Bool.and_comm]

theorem agrees_else (h : Agrees s r) (column : Nat) :
    Agrees (processElse s column) { r with conds := RefState.passElse r.conds } ∧
      KeepsOutput s (processElse s column) := by
  have hifs := h.ifs
  unfold processElse
  cases hc : r.conds with
  | nil =>
    rw [hc, frames] at hifs
    rw [hifs]
    exact ⟨⟨h.macros, hifs⟩, ⟨rfl, rfl, rfl⟩⟩
  | cons c conds =>
    obtain ⟨cond, inElse⟩ := c
    rw [hc, frames] at hifs
    rw [hifs]
    cases inElse with
    | true => exact ⟨⟨h.macros, hifs⟩, ⟨rfl, rfl, rfl⟩⟩
    | false =>
      refine ⟨⟨h.macros, ?_⟩, ⟨rfl, rfl, rfl⟩⟩
      simp only [RefState.passElse, frames, selected, all_cons, Bool.false_eq_true, if_false, Bool.bne_true,
        Bool.and_comm]

theorem agrees_endif (h : Agrees s r) (column : Nat) :
    Agrees (processEndif s column) { r with conds := r.conds.tail } ∧
      KeepsOutput s (processEndif s column) := by
  have hifs := h.ifs
  unfold processEndif
  cases hc : r.conds with
  | nil =>
    rw [hc, frames] at hifs
    rw [hifs]
    exact ⟨⟨h.macros, hifs⟩, ⟨rfl, rfl, rfl⟩⟩
  | cons c conds =>
    rw [hc, frames] at hifs
    rw [hifs]
    exact ⟨⟨h.macros, rfl⟩, ⟨rfl, rfl, rfl⟩⟩

theorem Agrees.newline (h : Agrees s r) : Agrees s.newline r :=
  ⟨h.macros, h.ifs⟩

variable {opt : PreOptions}

theorem processKeyword_agrees {included : Option (PreState → Text → PreState)}
    {s : PreState} {r : RefState} (h : Agrees s r) {l rest : Text} (hrest : afterBackquote l = some rest)
    (hinc : keywordOf (directiveWord rest).1 ≠ some .include) (column : Nat) :
    Agrees (processKeyword opt included s column (directiveWord rest).2 (keywordOf (directiveWord rest).1))
        (r.next l) ∧
      Adds s (processKeyword opt included s column (directiveWord rest).2
        (keywordOf (directiveWord rest).1)) [] := by
  have hdir : directiveOf l =
      (keywordOf (directiveWord rest).1).map fun k => (k, (directiveWord rest).2) := by
    rw [directiveOf, hrest]
    rfl
  have hactive := active_frames h.ifs
  have hquiet : KeepsOutput s s := ⟨rfl, rfl, rfl⟩
  rw [RefState.next, hdir]
  generalize keywordOf (directiveWord rest).1 = kw at hinc
  generalize (directiveWord rest).2 = t
  cases kw with
  | none => exact ⟨⟨h.macros, h.ifs⟩, KeepsOutput.adds_newline ⟨rfl, rfl, rfl⟩⟩
  | some k =>
    cases k with
    | define =>
      simp only [processKeyword, Option.map_some, hactive]
      split_ifs
      · obtain ⟨hagrees, hq⟩ := agrees_define h column t
        exact ⟨hagrees.newline, hq.adds_newline⟩
      · exact ⟨h.newline, hquiet.adds_newline⟩
    | undef =>
      simp only [processKeyword, Option.map_some, hactive]
      split_ifs
      · obtain ⟨hagrees, hq⟩ := agrees_undef h column t
        exact ⟨hagrees.newline, hq.adds_newline⟩
      · exact ⟨h.newline, hquiet.adds_newline⟩
    | ifdef =>
      have hagrees := agrees_if h (isDefined s.macros t)
      rw [h.macros] at hagrees
      refine ⟨?_, KeepsOutput.adds_newline ⟨rfl, rfl, rfl⟩⟩
      simp only [processKeyword, Option.map_some, h.macros]
      exact hagrees.newline
    | ifndef =>
      have hagrees := agrees_if h (!isDefined s.macros t)
      rw [h.macros] at hagrees
      refine ⟨?_, KeepsOutput.adds_newline ⟨rfl, rfl, rfl⟩⟩
      simp only [processKeyword, Option.map_some, h.macros]
      exact hagrees.newline
    | «else» =>
      obtain ⟨hagrees, hq⟩ := agrees_else h column
      exact ⟨hagrees.newline, hq.adds_newline⟩
    | endif =>
      obtain ⟨hagrees, hq⟩ := agrees_endif h column
      exact ⟨hagrees.newline, hq.adds_newline⟩
    | «include» => exact absurd rfl hinc
    | timescale => exact ⟨h.newline, hquiet.adds_newline⟩
    | defaultNettype => exact ⟨h.newline, hquiet.adds_newline⟩

variable {fuel : Nat}

theorem mem_lineParts {b : Bool} (hline : '\n' ∉ t) {p : Bool × Text} (hp : p ∈ (lineParts fuel b t).1) :
    ∀ c ∈ p.2, c ∈ t := by
  induction fuel generalizing b t with
  | zero => cases hp
  | succ fuel ih =>
    cases t with
    | nil => cases hp
    | cons c t =>
      have happend := (linePart_spec b hline).append
      rw [lineParts] at hp
      rw [← happend]
      rcases mem_cons.mp hp with rfl | hp
      · exact fun c hc => mem_append_left _ hc
      · exact fun c hc => mem_append_right _
          (ih (fun h => hline (happend ▸ mem_append_right _ h)) hp c hc)

theorem expandLine_within (hm : macros.Within (· ≠ '\n')) (hline : '\n' ∉ l) (line : Nat) (b : Bool) :
    (expandLine macros line b l).Within (· ≠ '\n') line :=
  expandParts_within hm (fun _ hp c hc h => hline (h ▸ mem_lineParts hline hp c hc)) line 1

theorem processLine_agrees {included : Option (PreState → Text → PreState)}
    {s : PreState} {r : RefState} (h : Agrees s r) (hb : s.inBlock = false)
    (hm : r.macros.Within (· ≠ '\n')) {l : Text} (hline : '\n' ∉ logicalLine l)
    (hinc : ∀ rest ∈ afterBackquote (logicalLine l), keywordOf (directiveWord rest).1 ≠ some .include) :
    Agrees (processLine opt included s l) (r.next (logicalLine l)) ∧
      Adds s (processLine opt included s l) (r.codeOut s.line (logicalLine l)) := by
  have hactive := active_frames h.ifs
  unfold processLine
  simp only [hb, Bool.false_eq_true, if_false]
  cases hrest : afterBackquote (logicalLine l) with
  | some rest =>
    have hcode : r.codeOut s.line (logicalLine l) = [] := if_neg fun h => by
      rw [hrest] at h
      cases h.1
    obtain ⟨hagrees, hadds⟩ := @processKeyword_agrees opt included s r h _ rest hrest
      (hinc rest hrest) ((logicalLine l).length - (skipSpaces (logicalLine l)).length + 1)
    rw [hcode]
    exact ⟨⟨hagrees.macros, hagrees.ifs⟩, ⟨hadds.output, hadds.map⟩⟩
  | none =>
    have hnext : r.next (logicalLine l) = r := by rw [RefState.next, directiveOf, hrest]; rfl
    rw [hnext, RefState.codeOut, hrest, hactive]
    by_cases hsel : selected r.conds = true
    · have hexp := expandLine_within hm hline s.line false
      simp only [hsel, and_self, if_true, h.macros]
      refine ⟨⟨h.macros, h.ifs⟩, ⟨append_assoc .., ?_⟩⟩
      simp only [PreState.newline, PreState.push, map_append, hexp.map_line, append_assoc]
      rw [replicate_succ']
      rfl
    · simp only [hsel, and_false, Bool.false_eq_true, if_false]
      have hadds := @KeepsOutput.adds_newline s s ⟨rfl, rfl, rfl⟩
      exact ⟨⟨h.macros, h.ifs⟩, ⟨hadds.output, hadds.map⟩⟩

def CommentFree (src : Text) : Prop :=
  ∀ t, t <+: src → commentRun .code t ≠ .line ∧ commentRun .code t ≠ .block

def NoInclude (src : Text) : Prop :=
  ∀ l ∈ sourceLines src, ∀ rest ∈ afterBackquote (logicalLine l),
    keywordOf (directiveWord rest).1 ≠ some .include

theorem CommentFree.state (h : CommentFree src) (ht : t <+: src) :
    (commentRun .code t).inBlock = false ∧ commentRun .code t ≠ .closed := by
  induction t using reverseRecOn with
  | nil => exact ⟨rfl, fun h => absurd h (by decide)⟩
  | append_singleton t c ih =>
    have hbefore := ih ((prefix_append t [c]).trans ht)
    have hline := (h t ((prefix_append t [c]).trans ht)).1
    have hhere := h _ ht
    rw [commentRun_append, commentRun_cons, commentRun_nil] at hhere ⊢
    generalize commentRun .code t = u at hbefore hline hhere
    cases u with
    | block | star => cases hbefore.1
    | closed => exact absurd rfl hbefore.2
    | line => exact absurd rfl hline
    | code =>
      rw [commentStep, codeStep]
      split_ifs <;> exact ⟨rfl, fun h => absurd h (by decide)⟩
    | slash =>
      rw [commentStep] at hhere ⊢
      split_ifs at hhere ⊢ with h₁ h₂
      · exact absurd rfl hhere.1
      · exact absurd rfl hhere.2
      · rw [codeStep]
        split_ifs <;> exact ⟨rfl, fun h => absurd h (by decide)⟩
    | string =>
      rw [commentStep]
      split_ifs <;> exact ⟨rfl, fun h => absurd h (by decide)⟩
    | escaped =>
      rw [commentStep]
      split_ifs <;> exact ⟨rfl, fun h => absurd h (by decide)⟩

theorem CommentFree.lineMeets (h : CommentFree src) (opt : PreOptions) (j : Nat) :
    ∀ l ∈ (sourceLines src)[j]?, LineMeets (stateAt opt src j) l := by
  induction j using Nat.strongRecOn with
  | ind j ih =>
    intro l hl
    have hj : j < (sourceLines src).length := (List.getElem?_eq_some_iff.mp hl).1
    have hrun := commentRun_textBefore opt src hj.le ih
    have hall : textBefore src j ++ logicalLine l <+: src :=
      ((prefix_append_right_inj _).mpr (isPrefix_logicalLine l)).trans (isPrefix_textBefore hl)
    have hstate := h.state hall
    rw [commentRun_append, hrun] at hstate
    have hflag : (stateAt opt src j).inBlock = false := by
      have hbefore := h.state ((prefix_append _ _).trans hall)
      rw [hrun, CommentState.inBlock_ofFlag] at hbefore
      exact hbefore.1
    rw [LineMeets, hflag]
    rw [hflag] at hstate
    split_ifs
    · exact hstate.1
    · exact hstate.2
    · exact hstate.1

theorem CommentFree.inBlock_stateAt (h : CommentFree src) (opt : PreOptions) (hk : k < (sourceLines src).length) :
    (stateAt opt src k).inBlock = false := by
  have hrun := commentRun_textBefore opt src hk.le fun j _ => h.lineMeets opt j
  have hprefix := isPrefix_textBefore (getElem?_eq_getElem hk)
  have hbefore := h.state ((prefix_append _ _).trans hprefix)
  rw [hrun, CommentState.inBlock_ofFlag] at hbefore
  exact hbefore.1

variable {P : Char → Prop}

theorem within_insert (hm : macros.Within P) {name : Text} {md : MacroDef}
    (hbody : ∀ c ∈ md.body, P c) : (macros.insert name md).Within P := by
  intro n d hd
  rw [Macros.insert] at hd
  split_ifs at hd
  · rw [← Option.some.inj hd]
    exact hbody
  · exact hm n d hd

theorem within_erase (hm : macros.Within P) {name : Text} :
    (macros.erase name).Within P := by
  intro n d hd
  rw [Macros.erase] at hd
  split_ifs at hd
  exact hm n d hd

theorem mem_of_mem_paramLoop {params : List Text} (h : c ∈ (paramLoop fuel params t).2.2) : c ∈ t := by
  induction fuel generalizing params t with
  | zero => exact h
  | succ fuel ih =>
    have hskip {u : Text} {d : Char} (hd : d ∈ skipSpaces u) : d ∈ u := (dropWhile_suffix _).subset hd
    rw [paramLoop] at h
    split_ifs at h
    · exact hskip h
    · have hbehind : ∀ d ∈ skipSpaces (parseIdent (skipSpaces t)).2, d ∈ t :=
        fun d hd => hskip (mem_of_mem_parseIdent_snd (hskip hd))
      split at h
      · next rest hrest =>
        exact hbehind c (hrest ▸ mem_cons_of_mem _ (ih h))
      · next rest hrest => exact hbehind c (hrest ▸ mem_cons_of_mem _ h)
      · exact hbehind c h

theorem mem_of_mem_body (h : c ∈ (parseMacroDef t).1.body) : c ∈ t := by
  have hskip {u : Text} {d : Char} (hd : d ∈ skipSpaces u) : d ∈ u := (dropWhile_suffix _).subset hd
  unfold parseMacroDef at h
  split at h
  · next rest =>
    refine mem_cons_of_mem _ ?_
    have hparams := hskip h
    unfold parseParamList at hparams
    split at hparams
    · next more hmore => exact hskip (hmore ▸ mem_cons_of_mem _ hparams)
    · exact hskip (mem_of_mem_paramLoop hparams)
  · exact hskip h

theorem mem_of_mem_directiveOf {k : Keyword} (h : directiveOf l = some (k, t)) (hc : c ∈ t) : c ∈ l := by
  obtain ⟨rest, hrest, hk⟩ := Option.bind_eq_some_iff.mp h
  obtain ⟨k', -, hk'⟩ := Option.map_eq_some_iff.mp hk
  rw [← (Prod.mk.inj hk').2] at hc
  have hin : c ∈ rest := (dropWhile_suffix _).subset (mem_of_mem_parseIdent_snd hc)
  have hskip : rest <:+ skipSpaces l := by
    unfold afterBackquote at hrest
    split at hrest
    · next d more hmore =>
      split_ifs at hrest
      rw [← Option.some.inj hrest, hmore]
      exact suffix_cons d more
    · cases hrest
  exact (dropWhile_suffix _).subset (hskip.subset hin)

theorem next_within (hm : r.macros.Within (· ≠ '\n')) (hline : '\n' ∉ l) :
    (r.next l).macros.Within (· ≠ '\n') := by
  have hdir {k : Keyword} {t : Text} (h : directiveOf l = some (k, t)) : ∀ c ∈ t, c ≠ '\n' :=
    fun c hc hn => hline (hn ▸ mem_of_mem_directiveOf h hc)
  unfold RefState.next
  split
  · next t h =>
    split_ifs
    · rw [Macros.define]
      split_ifs
      · exact hm
      · refine within_insert hm fun c hc => hdir h c ?_
        exact (dropWhile_suffix _).subset (mem_of_mem_parseIdent_snd (mem_of_mem_body hc))
    · exact hm
  · split_ifs
    · rw [Macros.undef]
      split_ifs
      · exact hm
      · exact within_erase hm
    · exact hm
  all_goals exact hm

def codeLines (src : Text) : List Text :=
  (sourceLines src).mapIdx fun k l => (refAt src k).codeOut (k + 1) (logicalLine l)

theorem refAt_succ (hl : (sourceLines src)[k]? = some l) :
    refAt src (k + 1) = (refAt src k).next (logicalLine l) := by
  rw [refAt, take_succ_sourceLines hl, foldl_append]
  rfl

theorem refAt_within (src : Text) (k : Nat) : (refAt src k).macros.Within (· ≠ '\n') := by
  induction k with
  | zero => exact fun _ _ h => nomatch h
  | succ k ih =>
    cases hl : (sourceLines src)[k]? with
    | none =>
      have hlen : (sourceLines src).length ≤ k := List.getElem?_eq_none_iff.mp hl
      rw [refAt, take_of_length_le (by omega), ← take_of_length_le hlen]
      exact ih
    | some l =>
      rw [refAt_succ hl]
      exact next_within ih fun h =>
        notMem_sourceLines (List.mem_of_getElem? hl) ((isPrefix_logicalLine l).subset h)

structure RunsTo (s : PreState) (src : Text) (k : Nat) : Prop where
  agrees : Agrees s (refAt src k)
  line : s.line = k + 1
  output : s.output = ((codeLines src).take k).flatMap (· ++ ['\n'])
  map : s.sourceMap.map SourcePosition.line = (((codeLines src).take k).zipIdx 1).flatMap fun p =>
    List.replicate (p.1.length + 1) (p.2 % 2 ^ 32)

theorem stateAt_runsTo (hfree : CommentFree src) (hinc : NoInclude src) (opt : PreOptions)
    (hk : k ≤ (sourceLines src).length) : RunsTo (stateAt opt src k) src k := by
  induction k with
  | zero => exact ⟨⟨rfl, rfl⟩, rfl, rfl, rfl⟩
  | succ k ih =>
    obtain ⟨l, hl⟩ : ∃ l, (sourceLines src)[k]? = some l := ⟨_, getElem?_eq_getElem (by omega)⟩
    have hmem := List.mem_of_getElem? hl
    have hline : '\n' ∉ logicalLine l := fun h =>
      notMem_sourceLines hmem ((isPrefix_logicalLine l).subset h)
    obtain ⟨hagrees, hnum, hout, hmap⟩ := ih (by omega)
    obtain ⟨hnext, hadds⟩ := @processLine_agrees opt opt.included _ _ hagrees
      (hfree.inBlock_stateAt opt (by omega)) (refAt_within src k) _ hline (hinc l hmem)
    have hstate : stateAt opt src (k + 1) = processLine opt opt.included (stateAt opt src k) l := by
      rw [stateAt, take_succ_sourceLines hl, foldl_append]
      rfl
    have htake : (codeLines src).take (k + 1) =
        (codeLines src).take k ++ [(refAt src k).codeOut (k + 1) (logicalLine l)] := by
      rw [take_add_one, codeLines, getElem?_mapIdx, hl]
      rfl
    have hlen : ((codeLines src).take k).length = k := by
      rw [length_take, codeLines, length_mapIdx]
      omega
    rw [hnum] at hadds
    refine ⟨by rw [hstate, refAt_succ hl]; exact hnext, ?_, ?_, ?_⟩
    · rw [hstate, processLine, hnum]
    · rw [hstate, hadds.output, hout, htake, flatMap_append, flatMap_singleton]
    · rw [hstate, hadds.map, hmap, htake, zipIdx_append, flatMap_append, hlen, hnum]
      simp [Nat.add_comm]

theorem sourceLines_append_newline (hl : '\n' ∉ l) (t : Text) :
    sourceLines (l ++ '\n' :: t) = l :: sourceLines t := by
  induction l with
  | nil => rfl
  | cons c l ih =>
    have hc : c ≠ '\n' := fun h => hl (h ▸ mem_cons_self ..)
    rw [cons_append, sourceLines, if_neg hc, ih fun h => hl (mem_cons_of_mem _ h)]

theorem sourceLines_flatMap {ls : List Text} (h : ∀ l ∈ ls, '\n' ∉ l) :
    sourceLines (ls.flatMap (· ++ ['\n'])) = ls := by
  induction ls with
  | nil => rfl
  | cons l ls ih =>
    rw [flatMap_cons, append_assoc, singleton_append,
      sourceLines_append_newline (h l (mem_cons_self ..)),
      ih fun l hl => h l (mem_cons_of_mem _ hl)]

theorem notMem_codeLines (h : l ∈ codeLines src) : '\n' ∉ l := by
  obtain ⟨k, hk, rfl⟩ := mem_mapIdx.mp h
  have hline : '\n' ∉ logicalLine (sourceLines src)[k] := fun h =>
    notMem_sourceLines (getElem_mem hk) ((isPrefix_logicalLine _).subset h)
  rw [RefState.codeOut]
  split_ifs
  · exact fun h => (expandLine_within (refAt_within src k) hline (k + 1) false).chars _ h rfl
  · exact not_mem_nil

theorem codeLines_eq_refLines (src : Text) :
    codeLines src = refLines src ↔
      ∀ k l, (sourceLines src)[k]? = some l → (refAt src k).LineFits (k + 1) (logicalLine l) := by
  rw [List.ext_getElem?_iff]
  refine forall_congr' fun k => ?_
  rw [codeLines, refLines, getElem?_mapIdx, getElem?_mapIdx]
  cases (sourceLines src)[k]? with
  | none => simp
  | some l =>
    rw [Option.map_some, Option.map_some, Option.some.injEq, RefState.codeOut_eq_lineOut]
    simp

theorem lineNumbers_cast_iff (ls : List Text) :
    ((ls.zipIdx 1).flatMap fun p => List.replicate (p.1.length + 1) (p.2 % 2 ^ 32)) =
        ((ls.zipIdx 1).flatMap fun p => List.replicate (p.1.length + 1) p.2) ↔
      ls.length < 2 ^ 32 := by
  have hmap : ((ls.zipIdx 1).flatMap fun p => replicate (p.1.length + 1) (p.2 % 2 ^ 32)) =
      ((ls.zipIdx 1).flatMap fun p => replicate (p.1.length + 1) p.2).map (· % 2 ^ 32) := by
    rw [map_flatMap]
    simp only [map_replicate]
  have hmem (k : Nat) : k ∈ ((ls.zipIdx 1).flatMap fun p => replicate (p.1.length + 1) p.2) ↔
      1 ≤ k ∧ k ≤ ls.length := by
    simp only [mem_flatMap, mem_replicate, Prod.exists, mem_zipIdx_iff_le_and_getElem?_sub]
    constructor
    · rintro ⟨l, i, ⟨hi, hget⟩, -, rfl⟩
      have := (List.getElem?_eq_some_iff.mp hget).1
      omega
    · rintro ⟨h₁, h₂⟩
      exact ⟨_, k, ⟨h₁, getElem?_eq_getElem (by omega)⟩, Nat.succ_ne_zero _, rfl⟩
  rw [hmap]
  conv_lhs => rhs; rw [← map_id ((ls.zipIdx 1).flatMap _)]
  rw [map_inj_left]
  constructor
  · intro h
    by_contra hge
    have hbad := h (2 ^ 32) ((hmem _).mpr ⟨Nat.one_le_two_pow, by omega⟩)
    exact absurd hbad (by decide)
  · intro h k hk
    exact Nat.mod_eq_of_lt (((hmem k).mp hk).2.trans_lt h)

theorem preprocess_exact_iff (opt : PreOptions) (src : Text) (hfree : CommentFree src)
    (hinc : NoInclude src) :
    PreprocessExact src (preprocess src opt) ↔
      (∀ k l, (sourceLines src)[k]? = some l → (refAt src k).LineFits (k + 1) (logicalLine l)) ∧
        (sourceLines src).length < 2 ^ 32 := by
  have hall : preprocess src opt = stateAt opt src (sourceLines src).length := by
    rw [preprocess_eq, stateAt, List.take_length]
  have hlen : (codeLines src).length = (sourceLines src).length := List.length_mapIdx
  obtain ⟨-, -, hout, hmap⟩ := stateAt_runsTo hfree hinc opt (le_refl (sourceLines src).length)
  rw [← hall, ← hlen, List.take_length] at hout hmap
  have hlines : sourceLines (preprocess src opt).output = codeLines src := by
    rw [hout, sourceLines_flatMap fun _ h => notMem_codeLines h]
  rw [← codeLines_eq_refLines, ← hlen]
  constructor
  · rintro ⟨-, hl, hm⟩
    have hsame : codeLines src = refLines src := hlines.symm.trans hl
    refine ⟨hsame, (lineNumbers_cast_iff _).mp ?_⟩
    rw [← hmap, hm, hsame]
  · rintro ⟨hsame, hless⟩
    refine ⟨by rw [hout, hsame], by rw [hlines, hsame], ?_⟩
    rw [hmap, (lineNumbers_cast_iff _).mpr hless, hsame]

theorem commentFree_of_inits (h : ∀ t ∈ src.inits, commentRun .code t ≠ .line ∧ commentRun .code t ≠ .block) :
    CommentFree src :=
  fun t ht => h t ((mem_inits t src).mpr ht)

def defineThen (rest : Text) : Text :=
  backquote :: (Keyword.define.text ++ [' ', 'A', ' ', 'x', '\n'] ++ rest)

/-- The macro stands behind a blank and another character. -/
theorem preprocess_exact_inside :
    PreprocessExact (defineThen ['y', ' ', backquote, 'A'])
      (preprocess (defineThen ['y', ' ', backquote, 'A']) ⟨none, 32⟩) := by
  have hfree : CommentFree (defineThen ['y', ' ', backquote, 'A']) := commentFree_of_inits (by decide)
  have hinc : NoInclude (defineThen ['y', ' ', backquote, 'A']) := by
    rw [NoInclude]
    decide
  refine (preprocess_exact_iff ⟨none, 32⟩ _ hfree hinc).mpr ⟨fun k l hl => ?_, by decide⟩
  match k, hl with
  | 0, hl =>
    cases hl
    exact fun _ h => absurd h (by decide)
  | 1, hl =>
    cases hl
    exact fun h => absurd h (by decide)

/-- The use of a macro at the beginning of a line is left out. -/
theorem preprocess_drops_leading_use :
    CommentFree (defineThen [backquote, 'A']) ∧ NoInclude (defineThen [backquote, 'A']) ∧
      (preprocess (defineThen [backquote, 'A']) ⟨none, 32⟩).output = ['\n', '\n'] ∧
      refLines (defineThen [backquote, 'A']) = [[], ['x']] ∧
      ¬ PreprocessExact (defineThen [backquote, 'A'])
        (preprocess (defineThen [backquote, 'A']) ⟨none, 32⟩) := by
  have hout : (preprocess (defineThen [backquote, 'A']) ⟨none, 32⟩).output = ['\n', '\n'] := rfl
  have href : refLines (defineThen [backquote, 'A']) = [[], ['x']] := rfl
  refine ⟨commentFree_of_inits (by decide), by rw [NoInclude]; decide, hout, href, fun h => ?_⟩
  have heq := h.output
  rw [hout, href] at heq
  exact absurd heq (by decide)

end PhyEngine.Verilog
