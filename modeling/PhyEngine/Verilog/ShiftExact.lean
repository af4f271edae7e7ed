import PhyEngine.Verilog.ArithExact

/-!
# Shifts

`shift_left` and `shift_right` on known bits. A constant amount moves the bits at once; any
other amount goes through a barrel shifter, which reads as many bits of it as count to the
width of the operand.
-/

namespace PhyEngine.Verilog

open LogicT BitNumbers List

structure Moves (move : Nat → Nat → List Nat → List Nat) (mb : Nat → List Bool → List Bool) : Prop where
  mem : ∀ {s z r : Nat} {rs : List Nat}, r ∈ move s z rs → r = z ∨ r ∈ rs
  map : ∀ {f : Nat → LogicT} {s z : Nat} {rs : List Nat} {bits : List Bool}, f z = .L → rs.map f = bitVals bits →
    (move s z rs).map f = bitVals (mb s bits)
  length : ∀ (s : Nat) (bits : List Bool), (mb s bits).length = bits.length
  zero : ∀ bits, mb 0 bits = bits
  add : ∀ (s t : Nat) (bits : List Bool), mb s (mb t bits) = mb (t + s) bits

theorem moves_moveLeft : Moves moveLeft shiftUp where
  mem := by
    intro s z r rs hr
    rcases mem_append.mp hr with hr | hr
    · exact Or.inr (mem_of_mem_drop hr)
    · exact Or.inl (eq_of_mem_replicate hr)
  map := by
    intro f s z rs bits hz hrs
    have hlen : rs.length = bits.length := by
      rw [← length_bitVals bits, ← hrs, length_map]
    rw [moveLeft, shiftUp, map_append, map_drop, map_replicate, hz, hrs, hlen, bitVals, bitVals,
      drop_reverse, length_map, map_append, reverse_append, map_take, map_replicate,
      reverse_replicate]
    rfl
  length := length_shiftUp
  zero bits := by simp [shiftUp]
  add := shiftUp_shiftUp

theorem moves_moveRight : Moves moveRight shiftDown where
  mem := by
    intro s z r rs hr
    rcases mem_append.mp hr with hr | hr
    · exact Or.inl (eq_of_mem_replicate hr)
    · exact Or.inr (mem_of_mem_take hr)
  map := by
    intro f s z rs bits hz hrs
    have hlen : rs.length = bits.length := by
      rw [← length_bitVals bits, ← hrs, length_map]
    rw [moveRight, shiftDown, map_append, map_take, map_replicate, hz, hrs, hlen, bitVals, bitVals,
      map_append, reverse_append, map_drop, map_replicate, reverse_replicate, take_reverse,
      length_map]
    congr 2
    rcases Nat.le_total s bits.length with hle | hge
    · rw [Nat.sub_sub_self hle]
    · rw [Nat.sub_eq_zero_of_le hge, Nat.sub_zero, drop_eq_nil_of_le (by simp),
        drop_eq_nil_of_le (by simpa using hge)]
  length := length_shiftDown
  zero bits := by simp [shiftDown]
  add := shiftDown_shiftDown

theorem mapM_option_congr {α β : Type} {f g : α → Option β} {as : List α} (h : ∀ a ∈ as, f a = g a) :
    as.mapM f = as.mapM g := by
  induction as with
  | nil => rfl
  | cons a as ih =>
    rw [mapM_cons, mapM_cons, h a mem_cons_self, ih fun b hb => h b (mem_cons_of_mem a hb)]

theorem Grew.tryEvalConstInt_eq {m m' : ExprBuilder} (hg : Grew m m') (hord : OperandsFirst m.exprNodes)
    {v : ExprValue} (hv : ValidIn m v) : m'.tryEvalConstInt v = m.tryEvalConstInt v := by
  have hconst : m'.constValues = m.constValues := by
    obtain ⟨ns, es, rfl⟩ := hg
    rfl
  have hroot : ∀ r ∈ v.roots, m'.evalConstRoot r = m.evalConstRoot r := by
    intro r hr
    rw [ExprBuilder.evalConstRoot, hconst]
    exact hord.evalNode_eq hg.nodes _ (hv.lt r hr) (Nat.lt_succ_self r) (Nat.lt_succ_self r)
  have hbits : m'.constBits v = m.constBits v := by
    refine mapM_option_congr fun r hr => ?_
    rw [hroot r (mem_reverse.mp hr)]
  rw [ExprBuilder.tryEvalConstInt, ExprBuilder.tryEvalConstInt, ExprBuilder.tryEvalConstUint64,
    ExprBuilder.tryEvalConstUint64, hbits]

section Spec

variable {N : List ExprNode} (values : List LogicT) {m : ExprBuilder} {move : Nat → Nat → List Nat → List Nat}
  {mb : Nat → List Bool → List Bool}

/-- One stage: the bits, or the bits moved by `2 ^ k`. -/
def barrelStep (move : Nat → Nat → List Nat → List Nat) (z : Nat) (cur : List Nat) (p : Nat × Nat) : Build (List Nat) :=
  (cur.zip (move (2 ^ p.2) z cur)).mapM fun q => makeMux p.1 q.2 q.1

instance (z : Nat) (cur : List Nat) (p : Nat × Nat) : Grows (barrelStep move z cur p) := by
  unfold barrelStep
  infer_instance

/-- The rest of a shift once the amount has been looked at. -/
def shiftTail (move : Nat → Nat → List Nat → List Nat) (v sh : ExprValue) (sel : Nat) (cur : List Nat) :
    Option Nat → Build ExprValue
  | some s => do
    let z ← makeLiteral .L
    let roots ← muxUnknown sel (move s z cur)
    makeVector roots v.isSigned
  | none => do
    let shv ← resizeToVector sh (shiftBits v.width) false
    let z ← makeLiteral .L
    let cur ← shv.reverse.zipIdx.foldlM (barrelStep move z) cur
    let roots ← muxUnknown sel cur
    makeVector roots v.isSigned

instance (v sh : ExprValue) (sel : Nat) (cur : List Nat) (s : Option Nat) : Grows (shiftTail move v sh sel cur s) := by
  unfold shiftTail
  split <;> infer_instance

theorem shiftBy_eq (v sh : ExprValue) :
    shiftBy move v sh =
      if v.width ≤ 1 then resize v 1 false
      else (do
        let sel ← anyUnknownRoot sh
        let m ← get
        let cur ← resizeToVector v v.width false
        shiftTail move v sh sel cur (m.tryEvalConstInt sh)) := by
  unfold shiftBy
  dsimp only
  congr 1

instance (v sh : ExprValue) : Grows (shiftBy move v sh) := by
  rw [shiftBy_eq]
  infer_instance

/-- What is known while the stages `left` are to come of a shift with the result `total`. -/
def BarrelInv (N : List ExprNode) (values : List LogicT) (mb : Nat → List Bool → List Bool) (z : Nat)
    (total : List Bool) (left : List (Nat × Nat)) (cur : List Nat) (m : ExprBuilder) : Prop :=
  Has N values .L z m ∧ ∃ (rs : List Nat) (k : Nat) (sbits cbits : List Bool), left = rs.zipIdx k ∧
    (∀ r ∈ rs, r < m.size) ∧
    rs.map (rootVal N values) = sbits.map ofBool ∧ HasAll N values (bitVals cbits) cur m ∧
    mb (2 ^ k * value sbits) cbits = total

theorem muxVal_bitVals (s : Bool) {xs ys : List Bool} (hlen : xs.length = ys.length) :
    ((bitVals xs).zip (bitVals ys)).map (fun q => muxVal (ofBool s) q.2 q.1) = bitVals (if s then ys else xs) := by
  rw [zip_bitVals, List.map_map]
  cases s with
  | false =>
    calc (xs.reverse.zip ys.reverse).map _ = ((xs.reverse.zip ys.reverse).map Prod.fst).map ofBool := by
          rw [List.map_map]
          exact map_congr_left fun p _ => muxVal_ofBool false p.2 p.1
      _ = bitVals xs := by
          rw [List.map_fst_zip (by simp [hlen]), map_reverse]
          rfl
  | true =>
    calc (xs.reverse.zip ys.reverse).map _ = ((xs.reverse.zip ys.reverse).map Prod.snd).map ofBool := by
          rw [List.map_map]
          exact map_congr_left fun p _ => muxVal_ofBool true p.2 p.1
      _ = bitVals ys := by
          rw [map_snd_zip (by simp [hlen]), map_reverse]
          rfl

theorem spec_barrelStep (hmove : Moves move mb) (z : Nat) (total : List Bool) (p : Nat × Nat) (left : List (Nat × Nat))
    (cur : List Nat) (m : ExprBuilder) (h : BarrelInv N values mb z total (p :: left) cur m) :
    Spec N m (barrelStep move z cur p) fun cur' m' => m.size ≤ m'.size →
      BarrelInv N values mb z total left cur' m' := by
  obtain ⟨hz, rs, k, sbits, cbits, hleft, hrs, hsbits, hcur, htotal⟩ := h
  obtain ⟨r, rs, rfl⟩ : ∃ r rs', rs = r :: rs' := by
    cases rs with
    | nil => cases hleft
    | cons r rs => exact ⟨r, rs, rfl⟩
  obtain ⟨s, sbits, rfl⟩ : ∃ s sbits', sbits = s :: sbits' := by
    cases sbits with
    | nil => cases hsbits
    | cons s sbits => exact ⟨s, sbits, rfl⟩
  rw [zipIdx_cons, List.cons.injEq] at hleft
  obtain ⟨rfl, rfl⟩ := hleft
  rw [map_cons, map_cons, List.cons.injEq] at hsbits
  rw [forall_mem_cons] at hrs
  rw [value_cons] at htotal
  have hmoved : HasAll N values (bitVals (mb (2 ^ k) cbits)) (move (2 ^ k) z cur) m := by
    refine ⟨fun q hq => ?_, hmove.map hz.2 hcur.2⟩
    rcases hmove.mem hq with rfl | hq
    · exact hz.1
    · exact hcur.1 q hq
  have hmux : ∀ q ∈ cur.zip (move (2 ^ k) z cur), ∀ m', m.size ≤ m'.size →
      Spec N m' (makeMux r q.2 q.1) (Has N values
        (muxVal (ofBool s) (rootVal N values q.2) (rootVal N values q.1))) := by
    intro q hq m' hle
    have hq' := zip_lt values hcur hmoved q hq
    rw [← hsbits.1]
    exact spec_makeMux values (by omega) (by omega) (by omega)
  apply (spec_mapM values _ hmux).imp
  intro cur' m' hcur' hle
  -- The stage moves the bits or leaves them, as the bit of the amount says.
  refine ⟨⟨by have := hz.1; omega, hz.2⟩, rs, k + 1, sbits, if s then mb (2 ^ k) cbits else cbits, rfl,
    fun q hq => by have := hrs.2 q hq; omega, hsbits.2, ?_, ?_⟩
  · have hvals := muxVal_bitVals s (hmove.length (2 ^ k) cbits).symm
    rw [← pairVals_zip values hcur hmoved, List.map_map] at hvals
    rw [← hvals]
    exact hcur'
  · rw [← htotal, Nat.pow_succ, Nat.mul_add, Nat.mul_assoc]
    cases s with
    | false => rw [if_neg Bool.false_ne_true, Bool.toNat_false, Nat.mul_zero, Nat.zero_add]
    | true => rw [if_pos rfl, hmove.add, Bool.toNat_true, Nat.mul_one]

theorem resizeVals_low (w : Nat) (bits : List Bool) :
    ∃ low, resizeVals false w (bitVals bits) = bitVals low ∧ value low = value bits % 2 ^ w := by
  rcases Nat.lt_or_ge w bits.length with hlt | hge
  · refine ⟨bits.take w, ?_, value_take bits w⟩
    rw [resizeVals, length_bitVals, if_pos hlt, bitVals, bitVals, drop_reverse, length_map,
      Nat.sub_sub_self hlt.le, map_take]
  · refine ⟨extend false w bits, resizeVals_bitVals false hge, ?_⟩
    have hval := value_lt bits
    rw [Nat.mod_eq_of_lt (lt_of_lt_of_le hval (Nat.pow_le_pow_right (by omega) hge)), extend, value_append,
      Bool.false_and, value_replicate_false, Nat.mul_zero, Nat.add_zero]

variable {sel : Nat}

theorem spec_shiftEnd (sgn : Bool) {roots : List Nat} {bits : List Bool} (hsel : Has N values .L sel m)
    (hroots : HasAll N values (bitVals bits) roots m) (hpos : 0 < bits.length) :
    Spec N m (muxUnknown sel roots >>= fun roots => makeVector roots sgn) (HasValue N values sgn (bitVals bits)) := by
  apply (spec_muxUnknown values hsel.1 hroots).bind
  intro out m₁ h₁ hout
  rw [hsel.2] at hout
  rw [show muxVal .L .X = muxVal (ofBool false) .X from rfl, map_muxVal_bitVals] at hout
  exact spec_finish values sgn hout (by rwa [length_bitVals])

variable {sh v : ExprValue} {sbits vbits : List Bool}

theorem spec_shiftTail (hmove : Moves move mb) {cur : List Nat}
    (hsh : ValidIn m sh) (hsel : Has N values .L sel m) (hcur : HasAll N values (bitVals vbits) cur m)
    (hsbits : valuesOf N values sh = bitVals sbits) (hpos : 0 < vbits.length) (hn : 0 < shiftBits v.width)
    (c : Option Nat) :
    Spec N m (shiftTail move v sh sel cur c) (HasValue N values v.isSigned
      (bitVals (mb (c.getD (value sbits % 2 ^ shiftBits v.width)) vbits))) := by
  cases c with
  | some s =>
    apply (spec_makeLiteral values .L).bind
    rintro z m₁ h₁ ⟨hz, hzv⟩
    apply spec_shiftEnd values _ ⟨by have := hsel.1; omega, hsel.2⟩ _ (by rwa [hmove.length])
    refine ⟨fun r hr => ?_, hmove.map hzv hcur.2⟩
    rcases hmove.mem hr with rfl | hr
    · exact hz
    · exact (hcur.mono values h₁).1 r hr
  | none =>
    obtain ⟨low, hlow, hval⟩ := resizeVals_low (shiftBits v.width) sbits
    apply (spec_resizeToVector values sh false hsh.lt hsh.ne_nil hn).bind
    rintro shv m₁ h₁ ⟨hshv, hshvv⟩
    rw [← valuesOf, hsbits, hlow] at hshvv
    apply (spec_makeLiteral values .L).bind
    intro z m₂ h₂ hz
    have hstart : BarrelInv N values mb z (mb (value low) vbits) shv.reverse.zipIdx cur m₂ := by
      refine ⟨hz, shv.reverse, 0, low, vbits, rfl, fun r hr => ?_, ?_, hcur.mono values (by omega), ?_⟩
      · have := hshv r (mem_reverse.mp hr)
        omega
      · rw [map_reverse, hshvv, bitVals, reverse_reverse]
      · rw [Nat.pow_zero, Nat.one_mul]
    apply (spec_foldlM (BarrelInv N values mb z _) (spec_barrelStep values hmove z _) hstart).bind
    rintro out m₃ h₃ ⟨-, rs, k, left, cbits, hrs, -, hleft, hout, htotal⟩
    obtain rfl : rs = [] := zipIdx_eq_nil_iff.mp hrs.symm
    obtain rfl : left = [] := map_eq_nil_iff.mp hleft.symm
    rw [value_nil, Nat.mul_zero, hmove.zero] at htotal
    rw [htotal, hval] at hout
    exact spec_shiftEnd values _ ⟨by have := hsel.1; omega, hsel.2⟩ hout (by rwa [Option.getD_none, hmove.length])

theorem spec_get : Spec N m (get : Build ExprBuilder) fun a m' => a = m ∧ m' = m := fun hord _ _ => ⟨hord, rfl, rfl⟩

def ExprBuilder.usedAmount (m : ExprBuilder) (v sh : ExprValue) (n : Nat) : Nat :=
  if v.width ≤ 1 then 0 else (m.tryEvalConstInt sh).getD (n % 2 ^ shiftBits v.width)

theorem shiftBits_pos {w : Nat} (h : 2 ≤ w) : 0 < shiftBits w := by
  apply Nat.pos_of_ne_zero
  intro hzero
  rw [shiftBits] at hzero
  cases hfind : (List.range 64).find? fun n => w ≤ 2 ^ n with
  | none =>
    rw [hfind] at hzero
    cases hzero
  | some n =>
    rw [hfind, Option.getD_some] at hzero
    have hle := find?_some hfind
    rw [hzero, decide_eq_true_eq] at hle
    omega

theorem spec_shiftBy (hmove : Moves move mb) (hord : OperandsFirst m.exprNodes) (hv : ValidIn m v)
    (hsh : ValidIn m sh) (hvbits : valuesOf N values v = bitVals vbits)
    (hsbits : valuesOf N values sh = bitVals sbits) :
    Spec N m (shiftBy move v sh) fun r m' =>
      HasAll N values (bitVals (mb (m.usedAmount v sh (value sbits)) vbits)) r.roots m' := by
  have hlen : vbits.length = v.width := by rw [← length_bitVals, ← hvbits, length_valuesOf]
  have hpos := hv.width_pos
  have hresize : resizeVals false v.width (valuesOf N values v) = bitVals vbits := by
    rw [hvbits, resizeVals, length_bitVals, hlen, if_neg (Nat.lt_irrefl _), Nat.sub_self]
    rfl
  rw [shiftBy_eq, ExprBuilder.usedAmount]
  by_cases h1 : v.width ≤ 1
  · -- A single bit stays where it is.
    obtain ⟨b, rfl⟩ := length_eq_one_iff.mp (show vbits.length = 1 by omega)
    rw [if_pos h1, if_pos h1, hmove.zero]
    apply (spec_resizeToVector values v false hv.lt hv.ne_nil Nat.one_pos).bind
    intro vv m₁ h₁ hvv
    rw [← valuesOf, show 1 = v.width by omega, hresize] at hvv
    obtain ⟨r, rfl, hr⟩ := hasAll_singleton values hvv
    exact Spec.pure hvv
  · rw [if_neg h1, if_neg h1]
    apply (spec_anyUnknownRoot values hsh.lt hsh.ne_nil).bind_grew
    intro sel m₁ hg hsel
    rw [← valuesOf, hsbits, any_isUnknown_bitVals] at hsel
    apply spec_get.bind
    rintro _ _ - ⟨rfl, rfl⟩
    have hle := hg.size_le
    apply (spec_resizeToVector values v false (hv.mono hle).lt hv.ne_nil hpos).bind
    intro cur m₂ h₂ hcur
    rw [← valuesOf, hresize] at hcur
    rw [hg.tryEvalConstInt_eq hord hsh]
    apply (spec_shiftTail values hmove (hsh.mono (by omega)) ⟨by have := hsel.1; omega, hsel.2⟩ hcur hsbits (by omega)
      (shiftBits_pos (by omega)) (m.tryEvalConstInt sh)).imp
    exact fun r m' hr => hr.hasAll

end Spec

theorem bitVals_injective : Function.Injective bitVals := by
  intro xs ys h
  apply map_injective_iff.mpr _ (reverse_injective h)
  intro a b hab
  cases a <;> cases b <;> first | rfl | cases hab

theorem isNumber_bitVals_iff {w n : Nat} {bits : List Bool} (hlen : bits.length = w) :
    IsNumber w n (bitVals bits) ↔ value bits = n % 2 ^ w := by
  constructor
  · rintro ⟨bits', hbits, -, hval⟩
    obtain rfl := bitVals_injective hbits
    exact_mod_cast hval
  · intro hval
    exact ⟨bits, rfl, hlen, by rw [hval]; push_cast; rfl⟩

/-- The operand holds `x`, the amount is `n`, and the bits of both shifts are those of the
shifted number. -/
def ShiftExactOn (m : ExprBuilder) (v sh : ExprValue) (values : List LogicT) (x n : Nat) : Prop :=
  IsNumber v.width (x * 2 ^ n : Nat) (resultBits (shiftLeft v sh) m values) ∧
    IsNumber v.width (x / 2 ^ n : Nat) (resultBits (shiftRight v sh) m values)

section Exact

variable {m : ExprBuilder} {v sh : ExprValue} {values : List LogicT} {vbits sbits : List Bool}
  (hord : OperandsFirst m.exprNodes) (hv : ValidIn m v) (hsh : ValidIn m sh)
  (hvbits : m.denote v values = bitVals vbits) (hsbits : m.denote sh values = bitVals sbits)

include hord hv hsh hvbits hsbits

theorem resultBits_shiftBy {move : Nat → Nat → List Nat → List Nat} {mb : Nat → List Bool → List Bool}
    (hmove : Moves move mb) (hq : NoError (shiftBy move v sh) m) :
    resultBits (shiftBy move v sh) m values = bitVals (mb (m.usedAmount v sh (value sbits)) vbits) := by
  have hpre : m.exprNodes <+: (shiftBy move v sh m).2.exprNodes := (Grows.grew (x := shiftBy move v sh) m).nodes
  rw [← hv.valuesOf_eq hord hpre] at hvbits
  rw [← hsh.valuesOf_eq hord hpre] at hsbits
  obtain ⟨-, hr⟩ := spec_shiftBy values hmove hord hv hsh hvbits hsbits hord (prefix_refl _) hq
  exact hr.2

/-- The shifts are exact if the amount in use is the amount, or if the smaller one of both leaves
nothing of the operand in either direction. -/
theorem shiftExactOn_iff (hl : NoError (shiftLeft v sh) m) (hr : NoError (shiftRight v sh) m) :
    ShiftExactOn m v sh values (value vbits) (value sbits) ↔
      m.usedAmount v sh (value sbits) = value sbits ∨
        2 ^ v.width ∣ value vbits * 2 ^ min (m.usedAmount v sh (value sbits)) (value sbits) ∧
          value vbits < 2 ^ min (m.usedAmount v sh (value sbits)) (value sbits) := by
  have hlen : vbits.length = v.width := by rw [← length_bitVals, ← hvbits, length_denote]
  have hlt : value vbits / 2 ^ value sbits < 2 ^ v.width := by
    rw [← hlen]
    exact lt_of_le_of_lt (Nat.div_le_self _ _) (value_lt vbits)
  rw [ShiftExactOn, shiftLeft, shiftRight, resultBits_shiftBy hord hv hsh hvbits hsbits moves_moveLeft hl,
    resultBits_shiftBy hord hv hsh hvbits hsbits moves_moveRight hr, isNumber_bitVals_iff (by rwa [length_shiftUp]),
    isNumber_bitVals_iff (by rwa [length_shiftDown]), value_shiftUp, value_shiftDown, hlen, Nat.mod_eq_of_lt hlt]
  exact shift_eq_iff

end Exact

def shiftArena : ExprBuilder := { exprNodes := (List.range 4).map .signal }

def shiftOperand : ExprValue := { isVector := true, vectorRoots := [0, 1], msb := 1 }

def shiftAmount : ExprValue := { isVector := true, vectorRoots := [2, 3], msb := 1 }

theorem operandsFirst_shiftArena : OperandsFirst shiftArena.exprNodes := by
  intro i n hi c hc
  obtain ⟨s, -, rfl⟩ := mem_map.mp (List.mem_of_getElem? hi)
  cases hc

theorem validIn_shiftArena : ValidIn shiftArena shiftOperand ∧ ValidIn shiftArena shiftAmount :=
  ⟨⟨by decide, by decide⟩, ⟨by decide, by decide⟩⟩

/-- Shifted by one place both ways, as the amount says. -/
theorem shiftExactOn_iff_one : ShiftExactOn shiftArena shiftOperand shiftAmount [.L, .H, .L, .H] 1 1 := by
  have hv : shiftArena.denote shiftOperand [.L, .H, .L, .H] = bitVals [true, false] := rfl
  have hsh : shiftArena.denote shiftAmount [.L, .H, .L, .H] = bitVals [true, false] := rfl
  apply (shiftExactOn_iff operandsFirst_shiftArena validIn_shiftArena.1 validIn_shiftArena.2 hv hsh (by decide +kernel)
    (by decide +kernel)).mpr
  exact Or.inl (by decide +kernel)

/-- A variable amount of two leaves a number of two bits as it is. -/
theorem not_shiftExactOn :
    ¬ ∀ (m : ExprBuilder) (v sh : ExprValue) (values : List LogicT) (vbits sbits : List Bool),
      OperandsFirst m.exprNodes → ValidIn m v → ValidIn m sh → m.denote v values = bitVals vbits →
      m.denote sh values = bitVals sbits → NoError (shiftLeft v sh) m → NoError (shiftRight v sh) m →
      ShiftExactOn m v sh values (value vbits) (value sbits) := by
  intro h
  have hexact := h shiftArena shiftOperand shiftAmount [.L, .H, .H, .L] [true, false] [false, true]
    operandsFirst_shiftArena validIn_shiftArena.1 validIn_shiftArena.2 rfl rfl (by decide +kernel) (by decide +kernel)
  have hbits : resultBits (shiftLeft shiftOperand shiftAmount) shiftArena [.L, .H, .H, .L] = bitVals [true, false] := by
    decide +kernel
  rw [ShiftExactOn, hbits] at hexact
  exact absurd ((isNumber_bitVals_iff rfl).mp hexact.1) (by decide)

end PhyEngine.Verilog
