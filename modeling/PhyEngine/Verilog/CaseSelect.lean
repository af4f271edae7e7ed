import PhyEngine.Library.Blocks
import PhyEngine.Verilog.ArithExact

/-!
# The item that a case statement selects

`parse_proc_stmt` converts every label to the width of the selector, so a wider label loses its
high bits before the comparison. The parsers of expressions and statements stand as computations
on the builder.
-/

namespace PhyEngine.Verilog

open LogicT Blocks List

inductive SourceItem where
  | labelled (labels : List (Build ExprValue)) (body : Build Stmt)
  | default (body : Build Stmt)

/-- What was read of an item, without labels for `default`, and the `case_item`s made of it. -/
structure ReadItem where
  labels : Option (List ExprValue)
  body : Stmt
  caseItems : List CaseItem

/-- One round of the loop over the items, where the selector has `w` bits. -/
def parseCaseItem (w : Nat) : SourceItem → Build ReadItem
  | .default body => do
    let b ← body
    return ⟨none, b, [.mk true [] [b]]⟩
  | .labelled labels body => do
    let ls ← labels.mapM id
    let b ← body
    let items ← ls.mapM fun mv => do
      let roots ← resizeToVector mv w mv.isSigned
      return CaseItem.mk false roots [b]
    return ⟨some ls, b, items⟩

structure ParsedCase where
  ck : CaseKind
  key : ExprValue
  caseExprRoots : List Nat
  items : List ReadItem

def ParsedCase.stmt (p : ParsedCase) : Stmt := .caseStmt p.ck p.caseExprRoots (p.items.flatMap ReadItem.caseItems)

def keyRoots (k : ExprValue) : Build (List Nat) :=
  if k.roots = [] then do return [← makeLiteral .X] else return k.roots

def parseCase (ck : CaseKind) (key : Build ExprValue) (items : List SourceItem) : Build ParsedCase := do
  let k ← key
  let roots ← keyRoots k
  let its ← items.mapM (parseCaseItem roots.length)
  return ⟨ck, k, roots, its⟩

/-- Every run only appends nodes and messages. Unlike with `Grows`, signals may be added. -/
class Appends {α : Type} (x : Build α) : Prop where
  nodes : ∀ m, m.exprNodes <+: (x m).2.exprNodes
  errors : ∀ m, m.errors <+: (x m).2.errors

namespace Appends

variable {α β : Type}

instance (x : Build α) [h : Grows x] : Appends x := ⟨fun m => (h.grew m).nodes, fun m => (h.grew m).errors⟩

instance (x : Build α) (f : α → Build β) [hx : Appends x] [hf : ∀ a, Appends (f a)] : Appends (x >>= f) :=
  ⟨fun m => (hx.nodes m).trans ((hf (x m).1).nodes (x m).2), fun m => (hx.errors m).trans ((hf (x m).1).errors (x m).2)⟩

theorem mapM {f : α → Build β} {as : List α} (h : ∀ a ∈ as, Appends (f a)) : Appends (as.mapM f) := by
  induction as with
  | nil =>
    rw [mapM_nil]
    infer_instance
  | cons a as ih =>
    have ha := h a mem_cons_self
    have has := ih fun b hb => h b (mem_cons_of_mem a hb)
    rw [mapM_cons]
    infer_instance

instance (f : α → Build β) [h : ∀ a, Appends (f a)] (as : List α) : Appends (as.mapM f) := mapM fun a _ => h a

end Appends

def SourceItem.Appends : SourceItem → Prop
  | .labelled labels body => (∀ l ∈ labels, Verilog.Appends l) ∧ Verilog.Appends body
  | .default body => Verilog.Appends body

/-- If the run of `x` adds no message, and only nodes of `N`, its result has `Q`. -/
def Yields {α : Type} (N : List ExprNode) (m : ExprBuilder) (x : Build α) (Q : α → Prop) : Prop :=
  (x m).2.exprNodes <+: N → NoError x m → Q (x m).1

namespace Yields

variable {α β : Type} {N : List ExprNode} {m : ExprBuilder}

theorem pure {a : α} {Q : α → Prop} (h : Q a) : Yields N m (pure a) Q := fun _ _ => h

theorem bind {x : Build α} {f : α → Build β} {R : α → Prop} {Q : β → Prop} [hx : Appends x] [hf : ∀ a, Appends (f a)]
    (h : Yields N m x R) (hf' : ∀ a m', R a → Yields N m' (f a) Q) : Yields N m (x >>= f) Q := by
  intro hpre hquiet
  have hlast : (f (x m).1 (x m).2).2.errors = m.errors := hquiet
  have hmid : (x m).2.errors = m.errors := by
    apply ((hx.errors m).eq_of_length_le ?_).symm
    rw [← hlast]
    exact ((hf (x m).1).errors (x m).2).length_le
  have hr := h (((hf (x m).1).nodes (x m).2).trans hpre) hmid
  exact hf' _ _ hr hpre (hlast.trans hmid.symm)

theorem trivial (x : Build α) : Yields N m x fun _ => True := fun _ _ => True.intro

theorem mapM {f : α → Build β} {R : α → β → Prop} {as : List α} (hf : ∀ a ∈ as, Appends (f a))
    (h : ∀ a ∈ as, ∀ m', Yields N m' (f a) (R a)) : Yields N m (as.mapM f) (List.Forall₂ R as) := by
  induction as generalizing m with
  | nil =>
    rw [mapM_nil]
    exact pure .nil
  | cons a as ih =>
    rw [forall_mem_cons] at hf h
    have ha := hf.1
    have has := Appends.mapM hf.2
    rw [mapM_cons]
    refine (h.1 m).bind fun b m₁ hb => ?_
    refine (ih hf.2 h.2).bind fun bs m₂ hbs => ?_
    exact pure (.cons hb hbs)

end Yields

variable {w : Nat} {it : ReadItem} {vs : List LogicT}

section Values

variable {N : List ExprNode} (values : List LogicT) {m : ExprBuilder}

theorem yields_makeLiteral (v : LogicT) : Yields N m (makeLiteral v) fun r => rootVal N values r = v := by
  intro hpre hquiet
  have hrun : makeLiteral v m = internNode (.literal v) m := rfl
  rw [NoError] at hquiet
  rw [hrun] at hpre hquiet ⊢
  have hN {i : Nat} (hi : N[i]? = some (.literal v)) : rootVal N values i = v := by
    rw [rootVal, evalNode_succ hi]
    rfl
  obtain ⟨i, hi, h⟩ | h | ⟨-, h⟩ := internNode_cases (.literal v) m
  · rw [h] at hpre ⊢
    obtain ⟨t, rfl⟩ := hpre
    exact hN (by rw [getElem?_append_left (List.getElem?_eq_some_iff.mp hi).1, hi])
  · rw [h] at hquiet
    exact absurd hquiet (by simp)
  · rw [h] at hpre ⊢
    obtain ⟨t, rfl⟩ := hpre
    exact hN (by simp)

theorem yields_resizeToVector (v : ExprValue) (sgn : Bool) (hne : v.roots ≠ []) (hw : 0 < w) :
    Yields N m (resizeToVector v w sgn) fun rs => rs.map (rootVal N values) =
      resizeVals sgn w (valuesOf N values v) := by
  rw [resizeToVector_eq v sgn hne hw]
  by_cases hlt : v.roots.length < w
  · rw [if_pos hlt]
    refine (yields_makeLiteral values .L).bind fun z m₁ hz => ?_
    exact Yields.pure (map_fill values sgn hne hlt hz)
  · rw [if_neg hlt, valuesOf, resizeVals_of_le sgn (by rw [length_map]; omega), length_map, ← map_drop]
    exact Yields.pure rfl

def MadeFrom (N : List ExprNode) (values : List LogicT) (w : Nat) (body : Stmt) (l : ExprValue)
    (item : CaseItem) : Prop :=
  ∃ roots, item = .mk false roots [body] ∧
    (l.roots ≠ [] → roots.map (rootVal N values) = resizeVals l.isSigned w (valuesOf N values l))

def ReadItem.Made (N : List ExprNode) (values : List LogicT) (w : Nat) (it : ReadItem) : Prop :=
  match it.labels with
  | none => it.caseItems = [.mk true [] [it.body]]
  | some ls => List.Forall₂ (MadeFrom N values w it.body) ls it.caseItems

theorem ReadItem.Made.default_or_labelled {N : List ExprNode} {values : List LogicT} (h : it.Made N values w) :
    (it.labels = none ∧ it.caseItems = [.mk true [] [it.body]]) ∨
      ∃ ls, it.labels = some ls ∧ List.Forall₂ (MadeFrom N values w it.body) ls it.caseItems := by
  rw [ReadItem.Made] at h
  cases hls : it.labels with
  | none =>
    rw [hls] at h
    exact .inl ⟨rfl, h⟩
  | some ls =>
    rw [hls] at h
    exact .inr ⟨ls, rfl, h⟩

theorem SourceItem.Appends.parse {it : SourceItem} (h : it.Appends) :
    Verilog.Appends (parseCaseItem w it) := by
  cases it with
  | default body =>
    have hbody : Verilog.Appends body := h
    unfold parseCaseItem
    infer_instance
  | labelled labels body =>
    have hbody : Verilog.Appends body := h.2
    have hlabels : Verilog.Appends (labels.mapM id) := Appends.mapM h.1
    unfold parseCaseItem
    infer_instance

theorem yields_parseCaseItem (hw : 0 < w) {it : SourceItem} (h : it.Appends) :
    Yields N m (parseCaseItem w it) (ReadItem.Made N values w) := by
  cases it with
  | default body =>
    have hbody : Verilog.Appends body := h
    unfold parseCaseItem
    refine (Yields.trivial body).bind fun b m₁ _ => ?_
    exact Yields.pure rfl
  | labelled labels body =>
    have hbody : Verilog.Appends body := h.2
    have hlabels : Verilog.Appends (labels.mapM id) := Appends.mapM h.1
    unfold parseCaseItem
    refine (Yields.trivial (labels.mapM id)).bind fun ls m₁ _ => ?_
    refine (Yields.trivial body).bind fun b m₂ _ => ?_
    refine Yields.bind (R := List.Forall₂ (MadeFrom N values w b) ls) (Yields.mapM (fun _ _ => inferInstance)
      fun l _ m' => ?_) fun items m₃ hitems => Yields.pure hitems
    by_cases hne : l.roots = []
    · refine (Yields.trivial _).bind fun roots m₄ _ => ?_
      exact Yields.pure ⟨roots, rfl, fun h => absurd hne h⟩
    · refine (yields_resizeToVector values l l.isSigned hne hw).bind fun roots m₄ hroots => ?_
      exact Yields.pure ⟨roots, rfl, fun _ => hroots⟩

/-- What is known of a case statement once it is read. -/
structure ParsedCase.Made (N : List ExprNode) (values : List LogicT) (p : ParsedCase) : Prop where
  caseExprRoots : p.key.roots ≠ [] → p.caseExprRoots = p.key.roots
  items : ∀ it ∈ p.items, it.Made N values p.caseExprRoots.length

instance (k : ExprValue) : Grows (keyRoots k) := by
  unfold keyRoots
  infer_instance

theorem yields_keyRoots (k : ExprValue) :
    Yields N m (keyRoots k) fun roots => 0 < roots.length ∧ (k.roots ≠ [] → roots = k.roots) := by
  unfold keyRoots
  by_cases hne : k.roots = []
  · rw [if_pos hne]
    refine (Yields.trivial _).bind fun r m₁ _ => ?_
    exact Yields.pure ⟨Nat.succ_pos 0, fun h => absurd hne h⟩
  · rw [if_neg hne]
    exact Yields.pure ⟨length_pos_iff.mpr hne, fun _ => rfl⟩

theorem yields_parseCase {ck : CaseKind} {key : Build ExprValue} [Appends key] {items : List SourceItem}
    (hitems : ∀ it ∈ items, it.Appends) : Yields N m (parseCase ck key items) (ParsedCase.Made N values) := by
  have hparse (w : Nat) : ∀ it ∈ items, Appends (parseCaseItem w it) := fun it hit => (hitems it hit).parse
  have hmapM (w : Nat) : Appends (items.mapM (parseCaseItem w)) := Appends.mapM (hparse w)
  unfold parseCase
  refine (Yields.trivial key).bind fun k m₁ _ => ?_
  refine (yields_keyRoots k).bind fun roots m₂ hroots => ?_
  refine Yields.bind (Yields.mapM (hparse roots.length)
    fun it hit m₃ => yields_parseCaseItem values hroots.1 (hitems it hit)) fun its m₃ hits => ?_
  have hmade : List.Forall₂ (fun it _ => it.Made N values roots.length ∧ True) its items :=
    hits.flip.imp fun it _ h => ⟨h, trivial⟩
  exact Yields.pure ⟨hroots.2, ((forall₂_and_left its items).mp hmade).1⟩

end Values

/-- Both values extended with zeros to the width `w` are the same. -/
def equalAt (w : Nat) (key label : List LogicT) : Bool := resizeVals false w key = resizeVals false w label

/-- The label is wider, a bit in front is set, and the bits behind are those of the selector. -/
def cutsTo (key label : List LogicT) : Bool :=
  key.length < label.length && label.drop (label.length - key.length) = key &&
    (label.take (label.length - key.length)).any (· = .H)

def AllKnown (vs : List LogicT) : Prop := ∀ v ∈ vs, v = .L ∨ v = .H

theorem resizeVals_false (h : vs.length ≤ w) :
    resizeVals false w vs = List.replicate (w - vs.length) .L ++ vs := by
  rw [resizeVals, if_neg (by omega)]
  rfl

theorem AllKnown.resizeVals (h : AllKnown vs) (w : Nat) : AllKnown (resizeVals false w vs) := by
  intro v hv
  rcases Nat.lt_or_ge w vs.length with hlt | hge
  · rw [resizeVals_of_le false (Nat.le_of_lt hlt)] at hv
    exact h v (mem_of_mem_drop hv)
  · rw [resizeVals_false hge] at hv
    rcases mem_append.mp hv with hv | hv
    · exact .inl (eq_of_mem_replicate hv)
    · exact h v hv

theorem AllKnown.zeros_or_one (h : AllKnown vs) :
    vs = List.replicate vs.length .L ∨ vs.any (· = .H) = true := by
  by_cases hone : vs.any (· = .H) = true
  · exact .inr hone
  · rw [any_eq_true] at hone
    refine .inl (eq_replicate_iff.mpr ⟨rfl, fun v hv => (h v hv).resolve_right fun hH => ?_⟩)
    exact hone ⟨v, hv, decide_eq_true hH⟩

theorem resizeVals_resizeVals {w' : Nat} (h : vs.length ≤ w) (h' : w ≤ w') :
    resizeVals false w' (resizeVals false w vs) = resizeVals false w' vs := by
  have hlen := length_resizeVals false w vs
  rw [resizeVals_false (hlen.trans_le h'), hlen, resizeVals_false h, resizeVals_false (h.trans h'), ← append_assoc,
    replicate_append_replicate]
  congr 2
  omega

theorem resizeVals_inj {us : List LogicT} (hlen : vs.length = us.length) (h : us.length ≤ w) :
    resizeVals false w vs = resizeVals false w us ↔ vs = us := by
  rw [resizeVals_false (hlen.trans_le h), resizeVals_false h, hlen]
  exact append_right_inj _

/-- After the conversion to the width of the selector the label matches when it is equal, and
also when only the bits in front are in the way. -/
theorem resizeVals_eq_key_iff {key label : List LogicT} (hl : AllKnown label) (hkey : key.length ≤ w)
    (hlabel : label.length ≤ w) :
    resizeVals false key.length label = key ↔ equalAt w key label = true ∨ cutsTo key label = true := by
  rw [equalAt, decide_eq_true_iff]
  rcases Nat.lt_or_ge key.length label.length with hlt | hge
  · -- The bits in front are zeros, or one of them is set.
    obtain ⟨front, back, hlen, rfl⟩ : ∃ front back, back.length = key.length ∧ label = front ++ back :=
      ⟨label.take (label.length - key.length), label.drop (label.length - key.length), by rw [length_drop]; omega,
        (take_append_drop _ label).symm⟩
    rw [length_append] at hlt hlabel
    have hcut : (front ++ back).length - key.length = front.length := by
      rw [length_append]
      omega
    have hequal : resizeVals false w key = resizeVals false w (front ++ back) ↔
        front = replicate front.length .L ∧ back = key := by
      rw [← resizeVals_resizeVals (w := front.length + back.length) (by omega) hlabel,
        resizeVals_inj (by rw [length_resizeVals, length_append]) (by rw [length_append]; exact hlabel),
        resizeVals_false (by omega), hlen, Nat.add_sub_cancel]
      constructor
      · intro h
        obtain ⟨hfront, hback⟩ := append_inj' h hlen.symm
        exact ⟨hfront.symm, hback.symm⟩
      · rintro ⟨hfront, rfl⟩
        rw [← hfront]
    have hcuts : cutsTo key (front ++ back) = true ↔ back = key ∧ front.any (· = .H) = true := by
      rw [cutsTo, hcut, drop_left, take_left, Bool.and_eq_true, Bool.and_eq_true, decide_eq_true_iff,
        decide_eq_true_iff, length_append]
      exact ⟨fun h => ⟨h.1.2, h.2⟩, fun h => ⟨⟨by omega, h.1⟩, h.2⟩⟩
    have hfront : AllKnown front := fun v hv => hl v (mem_append_left back hv)
    rw [resizeVals_of_le false (by rw [length_append]; omega), hcut, drop_left, hequal, hcuts]
    constructor
    · intro h
      exact hfront.zeros_or_one.imp (fun hz => ⟨hz, h⟩) fun hone => ⟨h, hone⟩
    · rintro (h | h)
      · exact h.2
      · exact h.1
  · have hcuts : ¬ cutsTo key label = true := by
      rw [cutsTo, decide_eq_false (by omega)]
      exact Bool.false_ne_true
    rw [or_iff_left hcuts, ← resizeVals_resizeVals hge hkey, resizeVals_inj (length_resizeVals _ _ _).symm
      ((length_resizeVals _ _ _).trans_le hkey)]
    exact eq_comm

def ReadItem.hasLabel (q : ExprValue → Bool) (it : ReadItem) : Bool := (it.labels.getD []).any q

def ReadItem.isDefault (it : ReadItem) : Bool := it.labels.isNone

def ParsedCase.operands (p : ParsedCase) : List ExprValue := p.key :: p.items.flatMap fun it => it.labels.getD []

def ParsedCase.widest (p : ParsedCase) : Nat := (p.operands.map ExprValue.width).foldr max 0

section Select

variable (m : CompiledModule) (values : List LogicT) (p : ParsedCase)

/-- The values of a label and of the selector are equal at the full width. -/
def ParsedCase.equals (l : ExprValue) : Bool :=
  equalAt p.widest (valuesOf m.exprNodes values p.key) (valuesOf m.exprNodes values l)

/-- The label is cut to the bits of the selector, which it does not equal. -/
def ParsedCase.cut (l : ExprValue) : Bool :=
  cutsTo (valuesOf m.exprNodes values p.key) (valuesOf m.exprNodes values l)

/-- The item that the language selects: the first with an equal label, else `default`. There is
at most one `default` in the language; of several, the last one counts here. -/
def ParsedCase.reference : Option Nat :=
  (p.items.findIdx? (ReadItem.hasLabel (p.equals m values))).or (lastIdx? ReadItem.isDefault p.items)

def ParsedCase.executed (st : ModuleState) : Option Nat :=
  (chosenItem m p.ck p.caseExprRoots (p.items.flatMap ReadItem.caseItems) st).map
    (Blocks.block ReadItem.caseItems p.items)

/-- The statement of an item is executed, or nothing. -/
def ParsedCase.execBody (tick : UInt64) (i : Option Nat) (x : Exec) : Exec :=
  match i.bind (p.items[·]?) with
  | none => x
  | some it => execStmts m tick [it.body] x

end Select

theorem le_widest {p : ParsedCase} {v : ExprValue} (hv : v ∈ p.operands) : v.width ≤ p.widest := by
  rw [ParsedCase.widest]
  have hmem : v.width ∈ p.operands.map ExprValue.width := mem_map_of_mem hv
  generalize p.operands.map ExprValue.width = ws at hmem
  induction ws with
  | nil => cases hmem
  | cons w ws ih =>
    rw [foldr_cons]
    rcases mem_cons.mp hmem with rfl | h
    · exact le_max_left _ _
    · exact (ih h).trans (le_max_right _ _)

theorem bitMatches_known (ck : CaseKind) {a b : LogicT} (ha : a = .L ∨ a = .H) (hb : b = .L ∨ b = .H) :
    bitMatches ck a b = decide (a = b) := by
  rcases ha with rfl | rfl
  · rcases hb with rfl | rfl
    · cases ck <;> rfl
    · cases ck <;> rfl
  · rcases hb with rfl | rfl
    · cases ck <;> rfl
    · cases ck <;> rfl

theorem all_bitMatches (ck : CaseKind) {f : Nat → LogicT} {key : List LogicT} {roots : List Nat} (hkey : AllKnown key)
    (hroots : AllKnown (roots.map f)) (hlen : roots.length = key.length) :
    ((key.zip roots).all fun kr => bitMatches ck kr.1 (f kr.2)) = decide (roots.map f = key) := by
  induction key generalizing roots with
  | nil =>
    rw [length_nil, length_eq_zero_iff] at hlen
    rw [hlen]
    rfl
  | cons k key ih =>
    obtain ⟨r, rs, rfl⟩ := exists_of_length_succ roots hlen
    unfold AllKnown at hkey hroots
    rw [map_cons, forall_mem_cons] at hroots
    rw [forall_mem_cons] at hkey
    rw [zip_cons_cons, all_cons, ih hkey.2 hroots.2 (Nat.succ.inj hlen),
      bitMatches_known ck hkey.1 hroots.1, map_cons, ← Bool.decide_and]
    congr 1
    rw [List.cons.injEq, eq_comm (a := k)]

theorem execItems_eq (m : CompiledModule) (tick : UInt64) (items : List CaseItem) (i : Nat) (x : Exec) :
    execItems m tick items i x =
      match items[i]? with
      | none => x
      | some item => execItem m tick item x := by
  induction items generalizing i with
  | nil => rfl
  | cons item items ih =>
    cases i with
    | zero => rfl
    | succ i => exact ih i

theorem ReadItem.Made.stmts {N : List ExprNode} {values : List LogicT} (h : it.Made N values w) {item : CaseItem}
    (hitem : item ∈ it.caseItems) : ∃ d roots, item = .mk d roots [it.body] := by
  obtain ⟨-, hitems⟩ | ⟨ls, -, hitems⟩ := h.default_or_labelled
  · rw [hitems, mem_singleton] at hitem
    exact ⟨true, [], hitem⟩
  · generalize it.caseItems = items at hitem hitems
    induction hitems with
    | nil => cases hitem
    | cons hl _ ih =>
      rcases mem_cons.mp hitem with rfl | hrest
      · obtain ⟨roots, hroots, -⟩ := hl
        exact ⟨false, roots, hroots⟩
      · exact ih hrest

section Execute

variable {m : CompiledModule} {st : ModuleState} {p : ParsedCase}

/-- An operand of the case statement: unsigned, with bits that are 0 or 1. -/
structure KnownUnsigned (m : CompiledModule) (values : List LogicT) (v : ExprValue) : Prop where
  ne_nil : v.roots ≠ []
  isSigned : v.isSigned = false
  known : AllKnown (valuesOf m.exprNodes values v)

variable (hmade : p.Made m.exprNodes st.values) (hknown : ∀ v ∈ p.operands, KnownUnsigned m st.values v)

include hmade hknown

theorem keyBits_eq : keyBits m p.caseExprRoots st = valuesOf m.exprNodes st.values p.key := by
  have hkey := hknown p.key mem_cons_self
  rw [hmade.caseExprRoots hkey.ne_nil, keyBits, if_neg hkey.ne_nil]
  rfl

theorem itemMatches_iff {l : ExprValue} {item : CaseItem} (hl : l ∈ p.operands)
    (hitem : MadeFrom m.exprNodes st.values p.caseExprRoots.length it.body l item) :
    itemMatches m p.ck (keyBits m p.caseExprRoots st) st item = (p.equals m st.values l || p.cut m st.values l) := by
  have hkey := hknown p.key mem_cons_self
  have hlabel := hknown l hl
  obtain ⟨roots, rfl, hroots⟩ := hitem
  have hvals := hroots hlabel.ne_nil
  have hw : p.caseExprRoots.length = (valuesOf m.exprNodes st.values p.key).length := by
    rw [hmade.caseExprRoots hkey.ne_nil, valuesOf, length_map]
  rw [hlabel.isSigned, hw] at hvals
  have hlen : roots.length = (valuesOf m.exprNodes st.values p.key).length := by
    rw [← length_map (f := rootVal m.exprNodes st.values), hvals, length_resizeVals]
  have hall := all_bitMatches p.ck (f := rootVal m.exprNodes st.values) hkey.known
    (by rw [hvals]; exact hlabel.known.resizeVals _) hlen
  rw [keyBits_eq hmade hknown, itemMatches, CaseItem.isDefault, CaseItem.matchRoots, decide_eq_true hlen]
  refine Eq.trans hall ?_
  rw [hvals, Bool.eq_iff_iff, decide_eq_true_iff, Bool.or_eq_true]
  exact resizeVals_eq_key_iff hlabel.known (by rw [length_valuesOf]; exact le_widest mem_cons_self)
    (by rw [length_valuesOf]; exact le_widest hl)

theorem any_itemMatches (hit : it ∈ p.items) :
    it.caseItems.any (itemMatches m p.ck (keyBits m p.caseExprRoots st) st) =
      (it.hasLabel (p.equals m st.values) || it.hasLabel (p.cut m st.values)) := by
  have hlabels : ∀ l ∈ it.labels.getD [], l ∈ p.operands := fun l hl =>
    mem_cons_of_mem _ (mem_flatMap.mpr ⟨it, hit, hl⟩)
  rw [ReadItem.hasLabel, ReadItem.hasLabel]
  obtain ⟨hls, hitems⟩ | ⟨ls, hls, hitems⟩ := (hmade.items it hit).default_or_labelled
  · rw [hls, hitems]
    rfl
  · rw [hls, Option.getD_some] at hlabels ⊢
    clear hls
    generalize it.caseItems = items at hitems
    induction hitems with
    | nil => rfl
    | @cons l item ls items hl _ ih =>
      rw [forall_mem_cons] at hlabels
      rw [any_cons, any_cons, any_cons, ih hlabels.2, itemMatches_iff hmade hknown hlabels.1 hl,
        Bool.or_assoc, Bool.or_assoc, Bool.or_left_comm (p.cut m st.values l)]

omit hknown in
theorem any_isDefault (hit : it ∈ p.items) : it.caseItems.any CaseItem.isDefault = it.isDefault := by
  rw [ReadItem.isDefault]
  obtain ⟨hls, hitems⟩ | ⟨ls, hls, hitems⟩ := (hmade.items it hit).default_or_labelled
  · rw [hls, hitems]
    rfl
  · rw [hls, Option.isNone_some]
    clear hls
    generalize it.caseItems = items at hitems
    induction hitems with
    | nil => rfl
    | cons hl _ ih =>
      obtain ⟨roots, rfl, -⟩ := hl
      rw [any_cons, ih]
      rfl

theorem executed_eq :
    p.executed m st = (p.items.findIdx? fun it => it.hasLabel (p.equals m st.values) ||
      it.hasLabel (p.cut m st.values)).or
      (lastIdx? ReadItem.isDefault p.items) := by
  rw [ParsedCase.executed, chosenItem, findIdx?_reverse, Option.map_or, findIdx?_flatMap, lastIdx?_flatMap]
  congr 1
  · exact findIdx?_congr fun it hit => any_itemMatches hmade hknown hit
  · exact lastIdx?_congr fun it hit => any_isDefault hmade hit

omit hknown in
theorem execStmt_stmt (tick : UInt64) {x : Exec} (hx : x.st = st) :
    execStmt m tick p.stmt x = p.execBody m tick (p.executed m st) x := by
  subst hx
  rw [ParsedCase.stmt, execStmt, ParsedCase.executed]
  cases hc : chosenItem m p.ck p.caseExprRoots (p.items.flatMap ReadItem.caseItems) x.st with
  | none => rfl
  | some i =>
    rw [Option.map_some, ParsedCase.execBody, Option.bind_some]
    dsimp only
    rw [execItems_eq]
    cases hi : (p.items.flatMap ReadItem.caseItems)[i]? with
    | none => rw [getElem?_block_none ReadItem.caseItems hi]
    | some item =>
      obtain ⟨it, hit, hitem⟩ := getElem?_flatMap ReadItem.caseItems hi
      obtain ⟨d, roots, rfl⟩ := (hmade.items it (List.mem_of_getElem? hit)).stmts hitem
      rw [hit]
      rfl

theorem executed_eq_reference_iff :
    p.executed m st = p.reference m st.values ↔
      ∀ (i : Nat) (it : ReadItem), p.items[i]? = some it → it.hasLabel (p.cut m st.values) = true →
        ∃ (j : Nat) (it' : ReadItem), j ≤ i ∧ p.items[j]? = some it' ∧ it'.hasLabel (p.equals m st.values) = true := by
  rw [executed_eq hmade hknown, ParsedCase.reference, ← findIdx?_or_eq_iff]
  constructor
  · intro h
    cases hleft : p.items.findIdx? fun it => it.hasLabel (p.equals m st.values) || it.hasLabel (p.cut m st.values) with
    | none =>
      symm
      rw [findIdx?_eq_none_iff] at hleft ⊢
      exact fun it hit => (Bool.or_eq_false_iff.mp (hleft it hit)).1
    | some i =>
      rw [hleft, Option.some_or] at h
      cases hright : p.items.findIdx? (ReadItem.hasLabel (p.equals m st.values)) with
      | some j => rwa [hright, Option.some_or] at h
      | none =>
        -- The item has a label, so it is not the one of `default`.
        rw [hright, Option.none_or] at h
        obtain ⟨it, hit, hdefault⟩ := getElem?_of_lastIdx? h.symm
        obtain ⟨hlt, hlabel, -⟩ := findIdx?_eq_some_iff_getElem.mp hleft
        rw [getElem?_eq_getElem hlt, Option.some.injEq] at hit
        rw [hit, ReadItem.hasLabel, ReadItem.hasLabel, Option.isNone_iff_eq_none.mp hdefault] at hlabel
        cases hlabel
  · intro h
    rw [h]

end Execute

/-- A case statement that is parsed without a message executes the statement of one item or
nothing. On operands that are unsigned and known it is the item of the language exactly when
every item with a label that is cut to the selector has an equal label, or comes behind an
item that has one. -/
theorem parseCase_selects_iff {ck : CaseKind} {key : Build ExprValue} [Appends key] {items : List SourceItem}
    (hitems : ∀ it ∈ items, it.Appends) {b : ExprBuilder} (hquiet : NoError (parseCase ck key items) b)
    {m : CompiledModule}
    (hnodes : (parseCase ck key items b).2.exprNodes <+: m.exprNodes) (tick : UInt64) {p : ParsedCase}
    (hp : p = (parseCase ck key items b).1) {x : Exec} (hknown : ∀ v ∈ p.operands, KnownUnsigned m x.st.values v) :
    execStmt m tick p.stmt x = p.execBody m tick (p.executed m x.st) x ∧
      (p.executed m x.st = p.reference m x.st.values ↔
        ∀ (i : Nat) (it : ReadItem), p.items[i]? = some it → it.hasLabel (p.cut m x.st.values) = true →
          ∃ (j : Nat) (it' : ReadItem), j ≤ i ∧ p.items[j]? = some it' ∧
            it'.hasLabel (p.equals m x.st.values) = true) := by
  have hmade : p.Made m.exprNodes x.st.values := hp ▸ yields_parseCase x.st.values hitems hnodes hquiet
  exact ⟨execStmt_stmt hmade tick rfl, executed_eq_reference_iff hmade hknown⟩

instance (s : Nat) : Appends (makeSignalRoot s) := inferInstanceAs (Appends (addNode _))

instance (name : String) : Appends (getOrCreateSignal name) := by
  have hrun (m : ExprBuilder) : (getOrCreateSignal name m).2.exprNodes = m.exprNodes ∧
      (getOrCreateSignal name m).2.errors = m.errors := by
    show ((match m.signalIndex.lookup name with
      | some i => (pure i : Build Nat)
      | none => _) m).2.exprNodes = _ ∧ ((match m.signalIndex.lookup name with
      | some i => (pure i : Build Nat)
      | none => _) m).2.errors = _
    cases m.signalIndex.lookup name with
    | some i => exact ⟨rfl, rfl⟩
    | none => exact ⟨rfl, rfl⟩
  exact ⟨fun m => (hrun m).1 ▸ List.prefix_refl _, fun m => (hrun m).2 ▸ List.prefix_refl _⟩

instance (name : String) : Appends (signalValue name) := by
  have hsignal : Appends (do
      let s ← getOrCreateSignal name
      let sgn := (← get).signalIsSigned.getD s false
      return makeScalar (← makeSignalRoot s) 0 0 sgn) := inferInstance
  have hvector (d : Option VectorDesc) : Appends (match d with
      | some ⟨msb, lsb, _, isSigned, r :: rs⟩ =>
        if (msb - lsb).natAbs + 1 ≤ 1 then do return makeScalar (← makeSignalRoot r) msb lsb isSigned
        else do makeVectorWithRange (← (r :: rs).mapM makeSignalRoot) msb lsb isSigned
      | _ => do
        let s ← getOrCreateSignal name
        let sgn := (← get).signalIsSigned.getD s false
        return makeScalar (← makeSignalRoot s) 0 0 sgn) := by
    split
    · split <;> infer_instance
    · exact hsignal
  exact inferInstanceAs (Appends (get >>= fun m => _))

instance (name : String) : Appends (nameValue name) := by
  have hconst (c : Option UInt64) : Appends (match c with
      | some c => makeUintLiteral c.toNat 32
      | none => signalValue name) := by
    split
    · infer_instance
    · infer_instance
  have hsubst (m : ExprBuilder) (v : Option ExprValue) : Appends (match v with
      | some v => pure v
      | none =>
        match m.constIdents.lookup name with
        | some c => makeUintLiteral c.toNat 32
        | none => signalValue name) := by
    split
    · infer_instance
    · exact hconst _
  exact inferInstanceAs (Appends (get >>= fun m => _))

instance (bits : List LogicT) (isSigned : Bool) : Appends (literalValue bits isSigned) := by
  unfold literalValue
  split <;> infer_instance

def bitNames : ExprBuilder where
  signalNames := ["s", "y"]
  signalIndex := [("s", 0), ("y", 1)]
  signalIsSigned := [false, false]

def assignLiteral (v : LogicT) : Build Stmt := do
  let r ← makeLiteral v
  return .assign { nonblocking := false, lhs := [1], rhs := [r], scalar := fun _ => ⟨rfl, rfl⟩ }

instance (v : LogicT) : Appends (assignLiteral v) := by
  unfold assignLiteral
  infer_instance

def wideLabelCase : Build ParsedCase :=
  parseCase .normal (nameValue "s")
    [.labelled [literalValue [.H, .L] false] (assignLiteral .H), .default (assignLiteral .L)]

def wideLabelModule : CompiledModule where
  exprNodes := [.signal 0, .literal .H, .literal .L]

theorem nodes_wideLabelCase : (wideLabelCase bitNames).2.exprNodes = wideLabelModule.exprNodes := by decide +kernel

/-- With `s` high no label is cut to the selector, and `default` is executed. -/
theorem parseCase_selects_iff_high :
    (execStmt wideLabelModule 0 (wideLabelCase bitNames).1.stmt { st := { values := [.H, .H] } }).st.values =
    [.H, .L] := by
  have hitems : ∀ it ∈ [SourceItem.labelled [literalValue [.H, .L] false] (assignLiteral .H),
    .default (assignLiteral .L)],
      it.Appends := by
    rw [List.forall_mem_cons, List.forall_mem_singleton]
    refine ⟨⟨?_, inferInstance⟩, inferInstanceAs (Appends _)⟩
    rw [List.forall_mem_singleton]
    infer_instance
  have hbits : ∀ v ∈ (wideLabelCase bitNames).1.operands, v.roots ≠ [] ∧ v.isSigned = false ∧
      ∀ u ∈ valuesOf wideLabelModule.exprNodes [.H, .H] v, u = .L ∨ u = .H := by
    decide +kernel
  have hknown : ∀ v ∈ (wideLabelCase bitNames).1.operands, KnownUnsigned wideLabelModule [.H, .H] v :=
    fun v hv => ⟨(hbits v hv).1, (hbits v hv).2.1, (hbits v hv).2.2⟩
  obtain ⟨hexec, hiff⟩ := parseCase_selects_iff (x := { st := { values := [.H, .H] } }) hitems (by decide +kernel)
    (nodes_wideLabelCase ▸ List.prefix_refl _) 0 rfl hknown
  have hcut : ∀ it ∈ (wideLabelCase bitNames).1.items,
      it.hasLabel ((wideLabelCase bitNames).1.cut wideLabelModule [.H, .H]) = false := by
    decide +kernel
  have hselect := hiff.mpr fun i it hi hlabel =>
    absurd ((hcut it (List.mem_of_getElem? hi)).symm.trans hlabel) Bool.false_ne_true
  refine (congrArg (fun y : Exec => y.st.values) (hexec.trans (by rw [hselect]))).trans ?_
  decide +kernel

/-- With `s` low the first item is executed, though 0 is not 2. -/
theorem wideLabelCase_executes_first :
    (wideLabelCase bitNames).1.executed wideLabelModule { values := [.L, .L] } = some 0 ∧
      (wideLabelCase bitNames).1.reference wideLabelModule [.L, .L] = some 1 ∧
      (execStmt wideLabelModule 0 (wideLabelCase bitNames).1.stmt { st := { values := [.L, .L] } }).st.values =
        [.L, .H] ∧
      ((wideLabelCase bitNames).1.execBody wideLabelModule 0 (some 1) { st := { values := [.L, .L] } }).st.values =
        [.L, .L] := by
  decide +kernel

end PhyEngine.Verilog
