import PhyEngine.Synth.TruthCones

/-!
# The two truth-table kernels

`eval_u64_cone_cpu` and `eval_tt_cone_cpu` evaluate a cone of gates on all assignments, on one
word or on blocks. They number constants, variables and gates differently; a cone is decoded
first, and every bit is compared with one assignment.
-/

namespace PhyEngine

open List

namespace TruthCones

inductive Source
  | const (c : Bool)
  | var (i : Nat)
  | gate (j : Nat)
  deriving DecidableEq

/-- The input is a constant, a variable of the cone or one of the first `n` gates. -/
def Source.Ready (varCount n : Nat) : Source → Prop
  | const _ => True
  | var i => i < varCount
  | gate j => j < n

variable (x : Nat → Bool)

/-- The value of an input, given those of the variables and of the first gates. -/
def Source.read (vals : List Bool) : Source → Bool
  | const c => c
  | var i => x i
  | gate j => vals.getD j false

/-- An index, where `const0` and `const0 + 1` are the constants and gates start at `base`. -/
def sourceOf (const0 base idx : Nat) : Source :=
  if idx = const0 then .const false
  else if idx = const0 + 1 then .const true
  else if idx < base then .var idx
  else .gate (idx - base)

def Cone.decoded (const0 base : Nat) (c : Cone) : List (Kind × Source × Source) :=
  c.gates.map fun g => (g.k, sourceOf const0 base g.in0, sourceOf const0 base g.in1)

variable (gs : List (Kind × Source × Source))

def gateValues : List Bool :=
  gs.foldl (fun vals g => vals ++ [g.1.fn (g.2.1.read x vals) (g.2.2.read x vals)]) []

def lastValue : Bool :=
  (gateValues x gs).getD (gs.length - 1) false

structure Cone.Valid (const0 base maxVars maxGates : Nat) (c : Cone) : Prop where
  vars : c.varCount ≤ maxVars
  pos : 1 ≤ c.gates.length
  gates : c.gates.length ≤ maxGates
  ready : ∀ (j : Nat) g, c.gates[j]? = some g →
    (sourceOf const0 base g.in0).Ready c.varCount j ∧ (sourceOf const0 base g.in1).Ready c.varCount j

def ttBlocks (varCount : Nat) : Nat := (2 ^ varCount + 63) / 64

def wordMask (varCount w : Nat) : BitVec 64 :=
  let rem := 2 ^ varCount % 64
  let lastMask := if rem = 0 then BitVec.allOnes 64 else (1#64 <<< rem) - 1#64
  if w + 1 = ttBlocks varCount then lastMask else BitVec.allOnes 64

def leafWord (v w : Nat) : BitVec 64 :=
  if v < 6 then leafPat.getD v 0
  else if (w >>> (v - 6)) % 2 ≠ 0 then BitVec.allOnes 64 else 0

/-- `load` of `eval_tt_cone_cpu`; the words from index 16 on are `vals`. -/
def ttLoad (varCount w : Nat) (vals : List (BitVec 64)) (idx : Nat) : BitVec 64 :=
  if idx = 65534 then 0
  else if idx = 65535 then BitVec.allOnes 64
  else if idx < 16 then (if idx < varCount then leafWord idx w &&& wordMask varCount w else 0)
  else if idx < 16 + 256 then vals.getD (idx - 16) 0
  else 0

def evalTtGates (varCount w : Nat) (gates : List Entry) : List (BitVec 64) :=
  gates.foldl (fun vals g =>
    vals ++ [g.k.word (ttLoad varCount w vals g.in0 &&& wordMask varCount w)
      (ttLoad varCount w vals g.in1 &&& wordMask varCount w) &&& wordMask varCount w]) []

/-- `eval_tt_cone_cpu` on a `cuda_tt_cone_desc`: the words of the stride, or `none` when it
returns before the first write. -/
def evalTtConeCpu (c : Cone) (strideBlocks : Nat) : Option (List (BitVec 64)) :=
  if strideBlocks = 0 then none
  else if 16 < c.varCount then none
  else if ttBlocks c.varCount = 0 ∨ strideBlocks < ttBlocks c.varCount then none
  else if c.gates.length = 0 ∨ 256 < c.gates.length then none
  else some ((List.range strideBlocks).map fun w =>
    if w < ttBlocks c.varCount then
      (evalTtGates c.varCount w c.gates).getD (c.gates.length - 1) 0 &&& wordMask c.varCount w
    else 0)

def runWord (load : List (BitVec 64) → Nat → BitVec 64) (mask : BitVec 64) (gates : List Entry) : List (BitVec 64) :=
  gates.foldl (fun vals g => vals ++ [g.k.word (load vals g.in0) (load vals g.in1) &&& mask]) []

theorem runWord_append (load : List (BitVec 64) → Nat → BitVec 64) (mask : BitVec 64) (gs : List Entry) (g : Entry) :
    runWord load mask (gs ++ [g]) = runWord load mask gs ++
      [g.k.word (load (runWord load mask gs) g.in0) (load (runWord load mask gs) g.in1) &&& mask] := by
  rw [runWord, foldl_append]
  rfl

theorem length_runWord (load : List (BitVec 64) → Nat → BitVec 64) (mask : BitVec 64) (gs : List Entry) :
    (runWord load mask gs).length = gs.length := by
  induction gs using reverseRecOn with
  | nil => rfl
  | append_singleton gs g ih =>
    rw [runWord_append, length_append, length_append, ih]
    rfl

theorem gateValues_append (g : Kind × Source × Source) :
    gateValues x (gs ++ [g]) = gateValues x gs ++
      [g.1.fn (g.2.1.read x (gateValues x gs)) (g.2.2.read x (gateValues x gs))] := by
  rw [gateValues, foldl_append]
  rfl

theorem length_gateValues :
    (gateValues x gs).length = gs.length := by
  induction gs using reverseRecOn with
  | nil => rfl
  | append_singleton gs g ih =>
    rw [gateValues_append, length_append, length_append, ih]
    rfl

variable {varCount r w : Nat}

/-- Bit `r` of the words of the gates, when bit `r` of a loaded word is the value of the input. -/
theorem getLsbD_runWord {load : List (BitVec 64) → Nat → BitVec 64} {mask : BitVec 64} {const0 base : Nat}
    {x : Nat → Bool} (hr : r < 64) (hmask : mask.getLsbD r = true) {maxGates : Nat}
    (hload : ∀ vals bs idx, bs.length ≤ maxGates → (∀ j < bs.length, (vals.getD j 0).getLsbD r = bs.getD j false) →
      (sourceOf const0 base idx).Ready varCount bs.length →
        (load vals idx).getLsbD r = (sourceOf const0 base idx).read x bs)
    (gs : List Entry) (hlen : gs.length ≤ maxGates)
    (hready : ∀ (j : Nat) g, gs[j]? = some g →
      (sourceOf const0 base g.in0).Ready varCount j ∧ (sourceOf const0 base g.in1).Ready varCount j) :
    ∀ j < gs.length, ((runWord load mask gs).getD j 0).getLsbD r =
      (gateValues x (gs.map fun g => (g.k, sourceOf const0 base g.in0, sourceOf const0 base g.in1))).getD j false := by
  induction gs using reverseRecOn with
  | nil => exact fun j hj => absurd hj (Nat.not_lt_zero j)
  | append_singleton gs g ih =>
    intro j hj
    rw [length_append, length_singleton] at hj hlen
    have hbefore := ih (by omega) fun i e he => hready i e (by
      rw [getElem?_append_left (List.getElem?_eq_some_iff.mp he).1]
      exact he)
    set bs := gateValues x (gs.map fun g => (g.k, sourceOf const0 base g.in0, sourceOf const0 base g.in1)) with hbs
    have hbslen : bs.length = gs.length := by rw [hbs, length_gateValues, length_map]
    obtain ⟨h0, h1⟩ := hready gs.length g (by simp)
    rw [runWord_append, map_append, map_singleton, gateValues_append, ← hbs]
    rcases Nat.lt_or_ge j gs.length with hlt | hge
    · rw [getD_append _ _ _ _ (by rw [length_runWord]; exact hlt), getD_append _ _ _ _ (by omega)]
      exact hbefore j hlt
    · obtain rfl : j = gs.length := by omega
      rw [← hbslen] at h0 h1 hbefore
      have hword : ∀ {idx}, (sourceOf const0 base idx).Ready varCount bs.length →
          (load (runWord load mask gs) idx).getLsbD r = (sourceOf const0 base idx).read x bs :=
        fun h => hload _ bs _ (by omega) hbefore h
      rw [getD_append_right _ _ _ _ (by rw [length_runWord]), length_runWord, Nat.sub_self,
        getD_append_right _ _ _ _ (by omega), hbslen, Nat.sub_self, getD_cons_zero, getD_cons_zero,
        BitVec.getLsbD_and, hmask, Bool.and_true, Kind.getLsbD_word _ _ _ hr, hword h0, hword h1]

theorem getLsbD_allMask_ge {m : Nat} (hvar : varCount ≤ 6) (hm : 2 ^ varCount ≤ m) :
    (allMask varCount).getLsbD m = false := by
  by_cases hlt : m < 64
  · have hall : ∀ vc < 7, ∀ m < 64, 2 ^ vc ≤ m → (allMask vc).getLsbD m = false := by decide +kernel
    exact hall varCount (by omega) m hlt hm
  · exact BitVec.getLsbD_of_ge _ _ (by omega)

/-- A load by the kind of its index; `ones`, `leaf` and `gate` are the words that it takes. -/
theorem getLsbD_loadOf {const0 base cap idx : Nat} {ones leaf gate : BitVec 64} {x : Nat → Bool} {bs : List Bool}
    (hready : (sourceOf const0 base idx).Ready varCount bs.length) (hlen : bs.length ≤ cap)
    (hones : ones.getLsbD r = true)
    (hleaf : idx < base → leaf.getLsbD r = x idx)
    (hgate : idx - base < bs.length → gate.getLsbD r = bs.getD (idx - base) false) :
    (if idx = const0 then 0 else if idx = const0 + 1 then ones
      else if idx < base then (if idx < varCount then leaf else 0)
      else if idx < base + cap then gate else 0).getLsbD r = (sourceOf const0 base idx).read x bs := by
  unfold sourceOf at *
  split_ifs at hready ⊢ with h0 h1 hbase hvar hcap
  · exact BitVec.getLsbD_zero
  · exact hones
  · exact hleaf hbase
  · exact absurd hready hvar
  · exact hgate hready
  · have hlt : idx - base < bs.length := hready
    omega

theorem getLsbD_load {m : Nat} (hvar : varCount ≤ 6) (hm : m < 2 ^ varCount) (vals : List (BitVec 64)) (bs : List Bool)
    (idx : Nat) (hlen : bs.length ≤ 64) (hvals : ∀ j < bs.length, (vals.getD j 0).getLsbD m = bs.getD j false)
    (hready : (sourceOf 254 6 idx).Ready varCount bs.length) :
    (load varCount vals idx).getLsbD m = (sourceOf 254 6 idx).read (fun i => m.testBit i) bs := by
  have hbit := getLsbD_allMask hvar hm
  have hm64 : m < 64 := Nat.lt_of_lt_of_le hm (Nat.pow_le_pow_right (by omega) hvar)
  refine getLsbD_loadOf hready hlen hbit (fun hleaf => ?_) (hvals _)
  rw [BitVec.getLsbD_and, hbit, Bool.and_true, getLsbD_leafPat hleaf hm64]

theorem getLsbD_evalU64ConeCpu {c : Cone} (h : c.Valid 254 6 6 64) :
    (∀ m < 2 ^ c.varCount,
      (evalU64ConeCpu c).getLsbD m = lastValue (fun i => m.testBit i) (c.decoded 254 6)) ∧
    ∀ m, 2 ^ c.varCount ≤ m → (evalU64ConeCpu c).getLsbD m = false := by
  have hpos := h.pos
  have hgates := h.gates
  have heval : evalU64ConeCpu c =
      (evalGates c.varCount c.gates).getD (c.gates.length - 1) 0 &&& allMask c.varCount := by
    rw [evalU64ConeCpu, if_neg (Nat.not_lt.mpr h.vars), if_neg (by omega)]
  refine ⟨fun m hm => ?_, fun m hm => ?_⟩
  · have hm64 : m < 64 := Nat.lt_of_lt_of_le hm (Nat.pow_le_pow_right (by omega) h.vars)
    have hmask := getLsbD_allMask h.vars hm
    have hbits := getLsbD_runWord hm64 hmask (getLsbD_load h.vars hm) c.gates hgates h.ready
      (c.gates.length - 1) (by omega)
    rw [heval, BitVec.getLsbD_and, hmask, Bool.and_true, lastValue, Cone.decoded, length_map]
    exact hbits
  · rw [heval, BitVec.getLsbD_and, getLsbD_allMask_ge h.vars hm, Bool.and_false]

theorem two_pow_eq_blocks (h : 6 ≤ varCount) :
    2 ^ varCount = 64 * 2 ^ (varCount - 6) ∧ ttBlocks varCount = 2 ^ (varCount - 6) := by
  have hpow : 2 ^ varCount = 64 * 2 ^ (varCount - 6) := by
    rw [show (64 : Nat) = 2 ^ 6 from rfl, ← Nat.pow_add]
    congr 1
    omega
  refine ⟨hpow, ?_⟩
  rw [ttBlocks, hpow]
  omega

theorem getLsbD_wordMask (hw : w < ttBlocks varCount) (hr : r < 64) :
    (wordMask varCount w).getLsbD r = decide (64 * w + r < 2 ^ varCount) := by
  by_cases hvar : 6 ≤ varCount
  · obtain ⟨hpow, hblocks⟩ := two_pow_eq_blocks hvar
    have hall : wordMask varCount w = BitVec.allOnes 64 := by
      rw [wordMask, hpow, Nat.mul_mod_right]
      simp
    rw [hall, BitVec.getLsbD_allOnes, hpow]
    have hlt : 64 * w + r < 64 * 2 ^ (varCount - 6) := by
      rw [hblocks] at hw
      omega
    rw [decide_eq_true hr, decide_eq_true hlt]
  · have hblocks : ∀ vc < 6, ttBlocks vc = 1 := by decide
    have hall : ∀ vc < 6, ∀ r < 64, (wordMask vc 0).getLsbD r = decide (r < 2 ^ vc) := by decide +kernel
    rw [hblocks varCount (by omega)] at hw
    obtain rfl : w = 0 := by omega
    rw [hall varCount (by omega) r hr, Nat.mul_zero, Nat.zero_add]

theorem getLsbD_leafWord {v : Nat} (hr : r < 64) : (leafWord v w).getLsbD r = (64 * w + r).testBit v := by
  have hbit : (64 * w + r).testBit v = if v < 6 then r.testBit v else w.testBit (v - 6) :=
    Nat.testBit_two_pow_mul_add w (i := 6) hr v
  rw [hbit, leafWord]
  by_cases hv : v < 6
  · rw [if_pos hv, if_pos hv]
    exact getLsbD_leafPat hv hr
  · rw [if_neg hv, if_neg hv, Nat.testBit_eq_decide_div_mod_eq, Nat.shiftRight_eq_div_pow]
    rcases Nat.mod_two_eq_zero_or_one (w / 2 ^ (v - 6)) with hmod | hmod
    · rw [if_neg (by omega), hmod]
      exact BitVec.getLsbD_zero
    · rw [if_pos (by omega), hmod, BitVec.getLsbD_allOnes]
      exact decide_eq_true hr

theorem getLsbD_ttLoad (hr : r < 64) (hmask : (wordMask varCount w).getLsbD r = true) (vals : List (BitVec 64))
    (bs : List Bool) (idx : Nat) (hlen : bs.length ≤ 256)
    (hvals : ∀ j < bs.length, (vals.getD j 0).getLsbD r = bs.getD j false)
    (hready : (sourceOf 65534 16 idx).Ready varCount bs.length) :
    (ttLoad varCount w vals idx &&& wordMask varCount w).getLsbD r =
      (sourceOf 65534 16 idx).read (fun i => (64 * w + r).testBit i) bs := by
  rw [BitVec.getLsbD_and, hmask, Bool.and_true]
  refine getLsbD_loadOf hready hlen ?_ (fun _ => ?_) (hvals _)
  · rw [BitVec.getLsbD_allOnes, decide_eq_true hr]
  · rw [BitVec.getLsbD_and, hmask, Bool.and_true, getLsbD_leafWord hr]

theorem exists_evalTtConeCpu {c : Cone} (h : c.Valid 65534 16 16 256) {strideBlocks : Nat}
    (hstride : ttBlocks c.varCount ≤ strideBlocks) :
    ∃ ws, evalTtConeCpu c strideBlocks = some ws ∧ ws.length = strideBlocks ∧
      (∀ m < 2 ^ c.varCount, (ws.getD (m / 64) 0).getLsbD (m % 64) =
        lastValue (fun i => m.testBit i) (c.decoded 65534 16)) ∧
      ∀ m, 2 ^ c.varCount ≤ m → (ws.getD (m / 64) 0).getLsbD (m % 64) = false := by
  have hpos := h.pos
  have hgates := h.gates
  have hblocks : 0 < ttBlocks c.varCount := by
    have := Nat.two_pow_pos c.varCount
    rw [ttBlocks]
    omega
  set word : Nat → BitVec 64 := fun w => if w < ttBlocks c.varCount then
      (evalTtGates c.varCount w c.gates).getD (c.gates.length - 1) 0 &&& wordMask c.varCount w
    else 0 with hword
  have heval : evalTtConeCpu c strideBlocks = some ((List.range strideBlocks).map word) := by
    rw [evalTtConeCpu, if_neg (by omega), if_neg (Nat.not_lt.mpr h.vars), if_neg (by omega), if_neg (by omega)]
  have hget (w : Nat) (hw : w < strideBlocks) : ((List.range strideBlocks).map word).getD w 0 = word w := by
    rw [getD_eq_getElem?_getD, getElem?_map, getElem?_range hw]
    rfl
  refine ⟨_, heval, by simp, fun m hm => ?_, fun m hm => ?_⟩
  · have hr : m % 64 < 64 := Nat.mod_lt _ (by decide)
    have hsplit : 64 * (m / 64) + m % 64 = m := Nat.div_add_mod m 64
    have hw : m / 64 < ttBlocks c.varCount := by
      rw [ttBlocks]
      omega
    have hmask : (wordMask c.varCount (m / 64)).getLsbD (m % 64) = true := by
      rw [getLsbD_wordMask hw hr, hsplit]
      exact decide_eq_true hm
    have hbits := getLsbD_runWord hr hmask (getLsbD_ttLoad hr hmask) c.gates hgates h.ready
      (c.gates.length - 1) (by omega)
    rw [hsplit] at hbits
    rw [hget _ (by omega), hword]
    dsimp only
    rw [if_pos hw, BitVec.getLsbD_and, hmask, Bool.and_true, lastValue, Cone.decoded, length_map]
    exact hbits
  · by_cases hw : m / 64 < strideBlocks
    · rw [hget _ hw, hword]
      dsimp only
      split_ifs with hdef
      · rw [BitVec.getLsbD_and, getLsbD_wordMask hdef (Nat.mod_lt _ (by decide)), Nat.div_add_mod,
          decide_eq_false (Nat.not_lt.mpr hm), Bool.and_false]
      · exact BitVec.getLsbD_zero
    · rw [getD_eq_default _ _ (by simpa using hw)]
      exact BitVec.getLsbD_zero

/-- Both kernels are exact, so they agree on a cone that both can be given. -/
theorem coneKernels_exact :
    (∀ c : Cone, c.Valid 254 6 6 64 →
      (∀ m < 2 ^ c.varCount,
        (evalU64ConeCpu c).getLsbD m = lastValue (fun i => m.testBit i) (c.decoded 254 6)) ∧
      ∀ m, 2 ^ c.varCount ≤ m → (evalU64ConeCpu c).getLsbD m = false) ∧
    (∀ (c : Cone) (strideBlocks : Nat), c.Valid 65534 16 16 256 → ttBlocks c.varCount ≤ strideBlocks →
      ∃ ws, evalTtConeCpu c strideBlocks = some ws ∧ ws.length = strideBlocks ∧
        (∀ m < 2 ^ c.varCount, (ws.getD (m / 64) 0).getLsbD (m % 64) =
          lastValue (fun i => m.testBit i) (c.decoded 65534 16)) ∧
        ∀ m, 2 ^ c.varCount ≤ m → (ws.getD (m / 64) 0).getLsbD (m % 64) = false) ∧
    ∀ (c d : Cone) (strideBlocks : Nat), c.Valid 254 6 6 64 → d.Valid 65534 16 16 256 →
      c.varCount = d.varCount → c.decoded 254 6 = d.decoded 65534 16 → 1 ≤ strideBlocks →
      ∃ ws, evalTtConeCpu d strideBlocks = some ws ∧ ws.getD 0 0 = evalU64ConeCpu c := by
  refine ⟨fun c h => getLsbD_evalU64ConeCpu h, fun c n h hn => exists_evalTtConeCpu h hn, ?_⟩
  intro c d n hc hd hvars hdecoded hn
  have hsix : ∀ vc < 7, ttBlocks vc = 1 := by decide
  have hone : ttBlocks d.varCount = 1 := hsix _ (by have := hc.vars; omega)
  obtain ⟨ws, heval, -, hin, hout⟩ := exists_evalTtConeCpu hd (hone.symm ▸ hn)
  obtain ⟨hin', hout'⟩ := getLsbD_evalU64ConeCpu hc
  refine ⟨ws, heval, BitVec.eq_of_getLsbD_eq fun m hm => ?_⟩
  have hword : (ws.getD 0 0).getLsbD m = (ws.getD (m / 64) 0).getLsbD (m % 64) := by
    rw [Nat.div_eq_of_lt hm, Nat.mod_eq_of_lt hm]
  rw [hword]
  by_cases hlt : m < 2 ^ d.varCount
  · rw [hin m hlt, hin' m (hvars ▸ hlt), hdecoded]
  · rw [hout m (Nat.not_lt.mp hlt), hout' m (hvars ▸ Nat.not_lt.mp hlt)]

/-- The conjunction of two variables in both encodings. -/
theorem coneKernels_exact_conjunction :
    ∃ ws, evalTtConeCpu ⟨2, [⟨.andGate, 0, 1⟩]⟩ 1 = some ws ∧ ws.getD 0 0 = evalU64ConeCpu ⟨2, [⟨.andGate, 0, 1⟩]⟩ := by
  have hready : ∀ (const0 base : Nat), 2 ≤ base → 2 ≤ const0 → ∀ (j : Nat) g,
      [(⟨.andGate, 0, 1⟩ : Entry)][j]? = some g →
        (sourceOf const0 base g.in0).Ready 2 j ∧ (sourceOf const0 base g.in1).Ready 2 j := by
    intro const0 base hbase hconst j g hg
    obtain ⟨hj, rfl⟩ := List.getElem?_eq_some_iff.mp hg
    obtain rfl : j = 0 := by simpa using hj
    have hvar (i : Nat) (hi : i < 2) : sourceOf const0 base i = .var i := by
      rw [sourceOf, if_neg (by omega), if_neg (by omega), if_pos (by omega)]
    change (sourceOf const0 base 0).Ready 2 0 ∧ (sourceOf const0 base 1).Ready 2 0
    rw [hvar 0 Nat.zero_lt_two, hvar 1 Nat.one_lt_two]
    exact ⟨Nat.zero_lt_two, Nat.one_lt_two⟩
  exact coneKernels_exact.2.2 ⟨2, [⟨.andGate, 0, 1⟩]⟩ ⟨2, [⟨.andGate, 0, 1⟩]⟩ 1
    ⟨by decide, by decide, by decide, hready 254 6 (by omega) (by omega)⟩
    ⟨by decide, by decide, by decide, hready 65534 16 (by omega) (by omega)⟩ rfl rfl (by decide)

end TruthCones

end PhyEngine
