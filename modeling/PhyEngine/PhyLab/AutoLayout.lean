import Mathlib.Data.Finset.Card
import Mathlib.Data.List.Range
import Mathlib.Logic.Function.Basic

/-!
# The placement loop of the fast layout

The loop of `layout_cpu_fast_ec` of `auto_layout.h`. A movable element gets a cell only when the
grid is free there; the rings go through every cell once. A fixed element that overlaps an
earlier one is not recorded at all (`fastLayout_iff`). Costs and averages of `double`s are
parameters.
-/

namespace PhyEngine.PhyLab

open List
open Function (onFun update update_apply)

structure Cell where
  x : Int
  y : Int
  deriving DecidableEq

structure Footprint where
  w : Nat
  h : Nat

structure Occupancy where
  w : Nat
  h : Nat
  cells : Nat → Option Nat := fun _ => none

namespace Occupancy

variable (occ : Occupancy)

def gridIndex (x y : Nat) : Nat := y * occ.w + x

def canPlace (c : Cell) (fp : Footprint) : Bool :=
  if c.x < 0 ∨ c.y < 0 then false
  else if occ.w < c.x.toNat + fp.w ∨ occ.h < c.y.toNat + fp.h then false
  else (List.range fp.h).all fun dy => (List.range fp.w).all fun dx =>
    (occ.cells (occ.gridIndex (c.x.toNat + dx) (c.y.toNat + dy))).isNone

def occupy (c : Cell) (fp : Footprint) (tag : Nat) : Occupancy :=
  { occ with cells := (List.range fp.h).foldl (fun cells dy => (List.range fp.w).foldl (fun cells dx =>
      update cells (occ.gridIndex (c.x.toNat + dx) (c.y.toNat + dy)) (some tag)) cells) occ.cells }

end Occupancy

/-- The arithmetic of `double` that the search uses. -/
structure Costs (K : Type) where
  lt : K → K → Bool
  eq : K → K → Bool
  zero : K
  infinity : K
  infinity_ne_zero : eq infinity zero = false

structure SearchBest (K : Type) where
  best : Option Cell := none
  bestCost : K
  visited : Nat := 0

section Search

variable {K : Type} (ops : Costs K) (occ : Occupancy) (fp : Footprint) (ideal : Cell) (cost : Cell → K)
    (maxCandidates : Nat)

def dist (a b : Cell) : Nat := (a.x - b.x).natAbs + (a.y - b.y).natAbs

def better (s : SearchBest K) (c : Cell) : Bool :=
  match s.best with
  | none => true
  | some b => ops.lt (cost c) s.bestCost || (ops.eq (cost c) s.bestCost && decide (dist c ideal < dist b ideal)) ||
      (ops.eq (cost c) s.bestCost && decide (c.x < b.x)) ||
        (ops.eq (cost c) s.bestCost && decide (c.x = b.x) && decide (c.y < b.y))

def consider (s : SearchBest K) (c : Cell) : SearchBest K :=
  if maxCandidates ≤ s.visited then s
  else if occ.canPlace c fp && better ops ideal cost s c then { best := some c, bestCost := cost c, visited :=
    s.visited + 1 }
  else { s with visited := s.visited + 1 }

/-- The cells of a ring: top and bottom edge, then left and right edge without the corners. -/
def ring : Nat → List Cell
  | 0 => [ideal]
  | r + 1 =>
    (List.range (2 * (r + 1) + 1)).flatMap (fun i =>
      [⟨ideal.x + (i - (r + 1 : Nat)), ideal.y - (r + 1 : Nat)⟩,
        ⟨ideal.x + (i - (r + 1 : Nat)), ideal.y + (r + 1 : Nat)⟩]) ++
    (List.range (2 * r + 1)).flatMap fun i =>
      [⟨ideal.x - (r + 1 : Nat), ideal.y + (i - r)⟩, ⟨ideal.x + (r + 1 : Nat), ideal.y + (i - r)⟩]

def inGrid (w h : Nat) (c : Cell) : Bool := 0 ≤ c.x && c.x < w && 0 ≤ c.y && c.y < h

/-- The loop over the rings from `r` on. Its inner loops also stop when `visited` has reached
its limit, and `consider` changes nothing from there on. -/
def searchRings : Nat → Nat → SearchBest K → SearchBest K
  | 0, _, s => s
  | rounds + 1, r, s =>
    if maxCandidates ≤ s.visited then s
    else
      let s := ((ring ideal r).filter (inGrid occ.w occ.h)).foldl (consider ops occ fp ideal cost maxCandidates) s
      if r ≠ 0 ∧ ops.eq s.bestCost ops.zero = true then s else searchRings rounds (r + 1) s

end Search

def clamp (v lo hi : Int) : Int := if v < lo then lo else if hi < v then hi else v

/-- `choose_cell` without a window; `cost` is `placement_cost` of a candidate and the clamped
ideal cell. -/
def chooseCell {K : Type} (ops : Costs K) (occ : Occupancy) (ideal : Cell) (fp : Footprint) (cost : Cell → Cell → K)
    (maxCandidates : Nat) (maxRadius : Option Nat) : Option Cell :=
  let ideal : Cell := ⟨clamp ideal.x 0 (occ.w - 1), clamp ideal.y 0 (occ.h - 1)⟩
  (searchRings ops occ fp ideal (fun c => cost c ideal) maxCandidates (maxRadius.getD (max occ.w occ.h) + 1) 0
    { bestCost := ops.infinity }).best

/-- What the layout reads of an element; `snapped` is `snap_native_to_cell` of its position. -/
structure LayoutElement where
  participates : Bool
  big : Bool
  snapped : Cell

structure LayoutOptions where
  small : Footprint := ⟨1, 1⟩
  big : Footprint := ⟨2, 2⟩
  maxCandidatesPerElement : Nat := 4096
  maxSearchRadius : Option Nat := none

def elementFootprint (e : LayoutElement) (opt : LayoutOptions) : Footprint := if e.big then opt.big else opt.small

structure LayoutContext where
  occ : Occupancy
  placed : Nat → Option Cell := fun _ => none
  movable : List Nat := []
  fixedObstacles : Nat := 0

/-- One element in `build_context_ec` with `respect_fixed_elements`; `none` where it fails. -/
def contextStep (opt : LayoutOptions) (ctx : LayoutContext) (e : LayoutElement × Nat) : Option LayoutContext :=
  let fp := elementFootprint e.1 opt
  if e.1.participates then some { ctx with movable := ctx.movable ++ [e.2] }
  else if e.1.snapped.x < 0 ∨ e.1.snapped.y < 0 then some ctx
  else if ctx.occ.w < fp.w ∨ ctx.occ.h < fp.h then none
  else
    let c : Cell := ⟨clamp e.1.snapped.x 0 (ctx.occ.w - fp.w : Nat), clamp e.1.snapped.y 0 (ctx.occ.h - fp.h : Nat)⟩
    if ctx.occ.canPlace c fp = false then some ctx
    else some { ctx with
      occ := ctx.occ.occupy c fp e.2
      placed := update ctx.placed e.2 (some c)
      fixedObstacles := ctx.fixedObstacles + 1 }

def buildContext (elements : List LayoutElement) (opt : LayoutOptions) (w h : Nat) : Option LayoutContext :=
  if w = 0 ∨ h = 0 then none
  else if 2000000 / h < w then none
  else elements.zipIdx.foldlM (contextStep opt) { occ := { w, h } }

structure LayoutState where
  occ : Occupancy
  placed : Nat → Option Cell
  placedCount : Nat := 0
  skippedCount : Nat := 0

/-- What the loop takes from outside: the footprints, the ideal cells and the costs. -/
structure Placement (K : Type) where
  ops : Costs K
  ideal : Nat → (Nat → Option Cell) → Cell
  cost : Nat → (Nat → Option Cell) → Cell → Cell → K

def layoutStep {K : Type} (opt : LayoutOptions) (fp : Nat → Footprint) (p : Placement K) (st : LayoutState)
    (idx : Nat) :
    LayoutState :=
  match chooseCell p.ops st.occ (p.ideal idx st.placed) (fp idx) (p.cost idx st.placed) opt.maxCandidatesPerElement
      opt.maxSearchRadius with
  | none => { st with skippedCount := st.skippedCount + 1 }
  | some c => { st with
      occ := st.occ.occupy c (fp idx) idx
      placed := update st.placed idx (some c)
      placedCount := st.placedCount + 1 }

abbrev InFootprint (c : Cell) (fp : Footprint) (d : Cell) : Prop :=
  c.x ≤ d.x ∧ d.x < c.x + fp.w ∧ c.y ≤ d.y ∧ d.y < c.y + fp.h

def Fits (w h : Nat) (c : Cell) (fp : Footprint) : Prop := 0 ≤ c.x ∧ c.x + fp.w ≤ w ∧ 0 ≤ c.y ∧ c.y + fp.h ≤ h

def Apart (c : Cell) (fp : Footprint) (c' : Cell) (fp' : Footprint) : Prop :=
  ∀ d, InFootprint c fp d → ¬ InFootprint c' fp' d

namespace Occupancy

variable {occ : Occupancy} {c d : Cell} {fp : Footprint}

def tagAt (occ : Occupancy) (d : Cell) : Option Nat := occ.cells (occ.gridIndex d.x.toNat d.y.toNat)

theorem gridIndex_inj (occ : Occupancy) {x y x' y' : Nat} (hx : x < occ.w) (hx' : x' < occ.w)
    (h : occ.gridIndex x y = occ.gridIndex x' y') : x = x' ∧ y = y' := by
  have hmod (x y : Nat) (hx : x < occ.w) : occ.gridIndex x y % occ.w = x := by
    rw [gridIndex, Nat.mul_add_mod', Nat.mod_eq_of_lt hx]
  have hdiv (x y : Nat) (hx : x < occ.w) : occ.gridIndex x y / occ.w = y := by
    rw [gridIndex, Nat.mul_comm, Nat.mul_add_div (by omega), Nat.div_eq_of_lt hx, Nat.add_zero]
  exact ⟨by rw [← hmod x y hx, h, hmod x' y' hx'], by rw [← hdiv x y hx, h, hdiv x' y' hx']⟩

theorem canPlace_iff : occ.canPlace c fp = true ↔ Fits occ.w occ.h c fp ∧ ∀ d, InFootprint c fp d →
    occ.tagAt d = none := by
  unfold canPlace
  split_ifs with hneg hbig
  · simp only [Fits, false_iff, not_and]
    omega
  · simp only [Fits, false_iff, not_and]
    omega
  · simp only [all_eq_true, mem_range, Option.isNone_iff_eq_none]
    constructor
    · refine fun h => ⟨by rw [Fits]; omega, fun d hd => ?_⟩
      have := h (d.y - c.y).toNat (by omega) (d.x - c.x).toNat (by omega)
      rwa [show c.x.toNat + (d.x - c.x).toNat =
        d.x.toNat by omega, show c.y.toNat + (d.y - c.y).toNat = d.y.toNat by omega] at this
    · intro h dy hdy dx hdx
      have := h.2 ⟨c.x + dx, c.y + dy⟩ (by simp only [InFootprint]; omega)
      rwa [tagAt, show (c.x + dx).toNat = c.x.toNat + dx by omega,
        show (c.y + dy).toNat = c.y.toNat + dy by omega] at this

theorem foldl_update (f : Nat → Option Nat) (v : Option Nat) (is : List Nat) (i : Nat) :
    (is.foldl (fun f i => update f i v) f) i = if i ∈ is then v else f i := by
  induction is generalizing f with
  | nil => simp
  | cons j is ih =>
    rw [foldl_cons, ih, update_apply]
    by_cases hmem : i ∈ is
    · simp [hmem]
    · simp [hmem]

theorem tagAt_occupy (hc : Fits occ.w occ.h c fp) (hd : inGrid occ.w occ.h d) (tag : Nat) :
    (occ.occupy c fp tag).tagAt d = if InFootprint c fp d then some tag else occ.tagAt d := by
  have hflat : (occ.occupy c fp tag).cells = ((List.range fp.h).flatMap fun dy => (List.range fp.w).map fun dx =>
      occ.gridIndex (c.x.toNat + dx) (c.y.toNat + dy)).foldl (fun f i => update f i (some tag)) occ.cells := by
    simp only [occupy, foldl_flatMap, foldl_map]
  simp only [inGrid, Bool.and_eq_true, decide_eq_true_eq] at hd
  rw [Fits] at hc
  rw [tagAt, hflat, foldl_update]
  refine if_congr ?_ rfl rfl
  simp only [mem_flatMap, mem_map, mem_range]
  constructor
  · rintro ⟨dy, hdy, dx, hdx, heq⟩
    obtain ⟨hx, hy⟩ := gridIndex_inj occ (by omega) (by omega) heq
    omega
  · intro h
    refine ⟨(d.y - c.y).toNat, by omega, (d.x - c.x).toNat, by omega, ?_⟩
    rw [show c.x.toNat + (d.x - c.x).toNat =
      d.x.toNat by omega, show c.y.toNat + (d.y - c.y).toNat = d.y.toNat by omega]
    rfl

end Occupancy

theorem inGrid_of_fits {w h : Nat} {c d : Cell} {fp : Footprint} (hc : Fits w h c fp) (hd : InFootprint c fp d) :
    inGrid w h d := by
  rw [Fits] at hc
  simp only [inGrid, Bool.and_eq_true, decide_eq_true_eq]
  omega

section Rings

variable {ideal c : Cell} {r w h : Nat}

theorem mem_ring : c ∈ ring ideal r ↔ max (c.x - ideal.x).natAbs (c.y - ideal.y).natAbs = r := by
  cases r with
  | zero =>
    cases c
    cases ideal
    simp only [ring, mem_singleton, Cell.mk.injEq]
    omega
  | succ r =>
    simp only [ring, mem_append, mem_flatMap, mem_range, mem_cons, not_mem_nil, or_false]
    constructor
    · rintro (⟨i, hi, rfl | rfl⟩ | ⟨i, hi, rfl | rfl⟩) <;> dsimp only <;> omega
    · obtain ⟨x, y⟩ := c
      simp only [Cell.mk.injEq]
      intro hmax
      by_cases hy : (y - ideal.y).natAbs = r + 1
      · exact .inl ⟨(x - ideal.x + (r + 1)).toNat, by omega, by omega⟩
      · exact .inr ⟨(y - ideal.y + r).toNat, by omega, by omega⟩

theorem nodup_pairs {f g : Nat → Cell} (n : Nat) (hne : ∀ i, f i ≠ g i)
    (hinj : ∀ i j, f i = f j ∨ f i = g j ∨ g i = f j ∨ g i = g j → i = j) :
    ((List.range n).flatMap fun i => [f i, g i]).Nodup := by
  refine nodup_flatMap.mpr ⟨fun i _ => by simp [hne i], nodup_range.pairwise_of_forall_ne fun i _ j _ hij => ?_⟩
  simp only [onFun, disjoint_left, mem_cons, not_mem_nil, or_false]
  rintro _ (rfl | rfl) (heq | heq) <;> exact hij (hinj i j (by simp [heq]))

theorem nodup_ring (ideal : Cell) (r : Nat) : (ring ideal r).Nodup := by
  cases r with
  | zero => exact nodup_singleton _
  | succ r =>
    rw [ring, nodup_append']
    refine ⟨nodup_pairs _ (fun i => ?_) fun i j => ?_, nodup_pairs _ (fun i => ?_) fun i j => ?_, ?_⟩
    any_goals
      simp only [ne_eq, Cell.mk.injEq]
      omega
    simp only [disjoint_left, mem_flatMap, mem_range, mem_cons, not_mem_nil, or_false]
    rintro _ ⟨i, hi, rfl | rfl⟩ ⟨j, hj, heq | heq⟩ <;> simp only [Cell.mk.injEq] at heq <;> omega

def gridRings (ideal : Cell) (w h rounds r : Nat) : List Cell :=
  (List.range rounds).flatMap fun i => (ring ideal (r + i)).filter (inGrid w h)

theorem length_gridRings_le (ideal : Cell) (w h rounds r : Nat) : (gridRings ideal w h rounds r).length ≤ w * h := by
  have hnodup : (gridRings ideal w h rounds r).Nodup := by
    refine nodup_flatMap.mpr ⟨fun i _ => (nodup_ring ideal _).filter _, ?_⟩
    refine nodup_range.pairwise_of_forall_ne fun i _ j _ hij => ?_
    simp only [onFun, disjoint_left, mem_filter, mem_ring]
    omega
  have hgrid : ∀ c ∈ (gridRings ideal w h rounds r).toFinset, 0 ≤ c.x ∧ c.x < w ∧ 0 ≤ c.y ∧ c.y < h := by
    intro c hc
    obtain ⟨i, -, hi⟩ := mem_flatMap.mp (mem_toFinset.mp hc)
    simpa [inGrid, and_assoc] using (mem_filter.mp hi).2
  rw [← toFinset_card_of_nodup hnodup, ← Finset.card_range (w * h)]
  refine Finset.card_le_card_of_injOn (fun c => c.y.toNat * w + c.x.toNat) (fun c hc => ?_) fun c hc d hd heq => ?_
  · have hc := hgrid c hc
    have hle : (c.y.toNat + 1) * w ≤ h * w := Nat.mul_le_mul_right w (by omega)
    rw [Finset.mem_coe, Finset.mem_range, Nat.mul_comm w h]
    dsimp only
    rw [Nat.add_mul, Nat.one_mul] at hle
    omega
  · have hc := hgrid c hc
    have hd := hgrid d hd
    obtain ⟨hx, hy⟩ := Occupancy.gridIndex_inj { w, h } (by dsimp only; omega) (by dsimp only; omega) heq
    cases c
    cases d
    simp only [Cell.mk.injEq] at *
    omega

end Rings

section Search

variable {K : Type} {ops : Costs K} {occ : Occupancy} {fp : Footprint} {ideal : Cell} {cost : Cell → K}
    {maxCandidates : Nat}
  {s : SearchBest K}

theorem consider_foldl (ops : Costs K) (occ : Occupancy) (fp : Footprint) (ideal : Cell) (cost : Cell → K)
    (maxCandidates : Nat)
    (s : SearchBest K) (cells : List Cell) (hlim : s.visited + cells.length ≤ maxCandidates) :
    (cells.foldl (consider ops occ fp ideal cost maxCandidates) s).visited = s.visited + cells.length ∧
      ((cells.foldl (consider ops occ fp ideal cost maxCandidates) s).best = none →
        s.best = none ∧ (cells.foldl (consider ops occ fp ideal cost maxCandidates) s).bestCost = s.bestCost ∧
          ∀ c ∈ cells, occ.canPlace c fp = false) := by
  induction cells generalizing s with
  | nil => exact ⟨rfl, fun h => ⟨h, rfl, by simp⟩⟩
  | cons c cells ih =>
    rw [length_cons] at hlim
    have hvisited : (consider ops occ fp ideal cost maxCandidates s c).visited = s.visited + 1 := by
      rw [consider, if_neg (by omega)]
      split <;> rfl
    obtain ⟨hcount, hnone⟩ := ih (s := consider ops occ fp ideal cost maxCandidates s c) (by omega)
    rw [foldl_cons, length_cons]
    refine ⟨by omega, fun h => ?_⟩
    obtain ⟨hbest, hcost, hcells⟩ := hnone h
    rw [hcost]
    rw [consider, if_neg (by omega)] at hbest ⊢
    split at hbest
    · cases hbest
    · rename_i hskip
      rw [if_neg hskip]
      refine ⟨hbest, rfl, forall_mem_cons.mpr ⟨?_, hcells⟩⟩
      have hbetter : better ops ideal cost s c = true := by rw [better, hbest]
      simpa [hbetter] using hskip

theorem searchRings_none {rounds r : Nat} (hinf : s.best = none → s.bestCost = ops.infinity)
    (hlim : s.visited + (gridRings ideal occ.w occ.h rounds r).length ≤ maxCandidates)
    (h : (searchRings ops occ fp ideal cost maxCandidates rounds r s).best = none) :
    s.best = none ∧ ∀ c ∈ gridRings ideal occ.w occ.h rounds r, occ.canPlace c fp = false := by
  induction rounds generalizing r s with
  | zero => exact ⟨h, by simp [gridRings]⟩
  | succ rounds ih =>
    have hsplit : gridRings ideal occ.w occ.h (rounds + 1) r =
        (ring ideal r).filter (inGrid occ.w occ.h) ++ gridRings ideal occ.w occ.h rounds (r + 1) := by
      simp only [gridRings, range_succ_eq_map, flatMap_cons, flatMap_map, Nat.add_zero, Nat.succ_eq_add_one,
        Nat.add_comm, Nat.add_left_comm]
    rw [hsplit, length_append] at hlim
    rw [searchRings] at h
    split at h
    · have hempty : (gridRings ideal occ.w occ.h (rounds + 1) r).length = 0 := by
        rw [hsplit, length_append]
        omega
      exact ⟨h, by simp [length_eq_zero_iff.mp hempty]⟩
    · obtain ⟨hvisited, hring⟩ := consider_foldl ops occ fp ideal cost maxCandidates s
        ((ring ideal r).filter (inGrid occ.w occ.h)) (by omega)
      dsimp only at h
      split at h
      · rename_i hbreak
        obtain ⟨hbest, hcost, -⟩ := hring h
        rw [hcost, hinf hbest, ops.infinity_ne_zero] at hbreak
        cases hbreak.2
      · obtain ⟨hbest₁, hrest⟩ := ih (fun hb => by rw [(hring hb).2.1, hinf (hring hb).1]) (by omega) h
        obtain ⟨hbest, -, hcells⟩ := hring hbest₁
        refine ⟨hbest, fun c hc => ?_⟩
        rw [hsplit, mem_append] at hc
        exact hc.elim (hcells c) (hrest c)

theorem clamp_bounds (v : Int) {b : Int} (h : 0 ≤ b) : 0 ≤ clamp v 0 b ∧ clamp v 0 b ≤ b := by
  unfold clamp
  split_ifs <;> omega

variable {c : Cell}

/-- With enough candidates and no radius the search gives up only when nothing is free. -/
theorem chooseCell_eq_none {cost : Cell → Cell → K} (hlim : occ.w * occ.h ≤ maxCandidates)
    (h : chooseCell ops occ ideal fp cost maxCandidates none = none) (hc : inGrid occ.w occ.h c) :
    occ.canPlace c fp = false := by
  refine (searchRings_none (fun _ => rfl) ?_ h).2 c (mem_flatMap.mpr
    ⟨max (c.x - clamp ideal.x 0 (occ.w - 1)).natAbs (c.y - clamp ideal.y 0 (occ.h - 1)).natAbs, mem_range.mpr ?_, ?_⟩)
  · exact (Nat.zero_add _).trans_le ((length_gridRings_le ..).trans hlim)
  · simp only [inGrid, Bool.and_eq_true, decide_eq_true_eq] at hc
    have hx := clamp_bounds ideal.x (b := occ.w - 1) (by omega)
    have hy := clamp_bounds ideal.y (b := occ.h - 1) (by omega)
    rw [Option.getD_none]
    omega
  · rw [mem_filter, mem_ring]
    exact ⟨by simp, hc⟩

theorem chooseCell_eq_some {cost : Cell → Cell → K} {maxRadius : Option Nat}
    (h : chooseCell ops occ ideal fp cost maxCandidates maxRadius = some c) : occ.canPlace c fp = true := by
  have hconsider {ideal : Cell} {cost : Cell → K} (cells : List Cell) {s : SearchBest K}
      (hs : ∀ b, s.best = some b → occ.canPlace b fp = true) :
      ∀ b, (cells.foldl (consider ops occ fp ideal cost maxCandidates) s).best = some b → occ.canPlace b fp = true := by
    induction cells generalizing s with
    | nil => exact hs
    | cons d cells ih =>
      refine ih fun b hb => ?_
      rw [consider] at hb
      split_ifs at hb with hmax hplace
      · exact hs b hb
      · rw [← Option.some.inj hb]
        simp only [Bool.and_eq_true] at hplace
        exact hplace.1
      · exact hs b hb
  have hrings {ideal : Cell} {cost : Cell → K} (rounds r : Nat) {s : SearchBest K}
      (hs : ∀ b, s.best = some b → occ.canPlace b fp = true) :
      ∀ b, (searchRings ops occ fp ideal cost maxCandidates rounds r s).best = some b → occ.canPlace b fp = true := by
    induction rounds generalizing r s with
    | zero => exact hs
    | succ rounds ih =>
      rw [searchRings]
      dsimp only
      split_ifs
      · exact hs
      · exact hconsider _ hs
      · exact ih _ (hconsider _ hs)
  exact hrings _ _ (fun b hb => by cases hb) c h

end Search

section Phases

variable {elements : List LayoutElement} {opt : LayoutOptions} {w h : Nat} {ctx : LayoutContext}

def footprintOf (elements : List LayoutElement) (opt : LayoutOptions) (i : Nat) : Footprint :=
  match elements[i]? with
  | none => opt.small
  | some e => elementFootprint e opt

def Recorded (fp : Nat → Footprint) (occ : Occupancy) (placed : Nat → Option Cell) : Prop :=
  ∀ i c, placed i = some c → Fits occ.w occ.h c (fp i) ∧ ∀ d, InFootprint c (fp i) d → occ.tagAt d = some i

theorem Recorded.occupy {fp : Nat → Footprint} {occ : Occupancy} {placed : Nat → Option Cell}
    (hrec : Recorded fp occ placed)
    {i : Nat} {c : Cell} (hcan : occ.canPlace c (fp i) = true) :
    Recorded fp (occ.occupy c (fp i) i) (update placed i (some c)) := by
  obtain ⟨hfits, hfree⟩ := Occupancy.canPlace_iff.mp hcan
  intro j c' hj
  rw [update_apply] at hj
  split at hj
  · rename_i hji
    subst hji
    cases hj
    exact ⟨hfits, fun d hd => by rw [Occupancy.tagAt_occupy hfits (inGrid_of_fits hfits hd), if_pos hd]⟩
  · obtain ⟨hfits', htags⟩ := hrec j c' hj
    refine ⟨hfits', fun d hd => ?_⟩
    have hout : ¬ InFootprint c (fp i) d := fun hin => by simpa [htags d hd] using hfree d hin
    rw [Occupancy.tagAt_occupy hfits (inGrid_of_fits hfits' hd), if_neg hout, htags d hd]

structure ContextOk (elements : List LayoutElement) (opt : LayoutOptions) (w h : Nat) (ctx : LayoutContext) : Prop where
  size : ctx.occ.w = w ∧ ctx.occ.h = h
  recorded : Recorded (footprintOf elements opt) ctx.occ ctx.placed
  fixed : ∀ i c, ctx.placed i = some c → ∃ e, elements[i]? = some e ∧ e.participates = false
  movable : ∀ i ∈ ctx.movable, ∃ e, elements[i]? = some e ∧ e.participates = true

theorem contextStep_ok (hok : ContextOk elements opt w h ctx) {e : LayoutElement × Nat} (he : elements[e.2]? = some e.1)
    {ctx' : LayoutContext} (hstep : contextStep opt ctx e = some ctx') : ContextOk elements opt w h ctx' := by
  have hfp : footprintOf elements opt e.2 = elementFootprint e.1 opt := by rw [footprintOf, he]
  unfold contextStep at hstep
  dsimp only at hstep
  split_ifs at hstep with hmov hneg hbig hcan
  all_goals cases hstep
  · refine ⟨hok.size, hok.recorded, hok.fixed, fun i hi => ?_⟩
    rw [mem_append, mem_singleton] at hi
    obtain hi | rfl := hi
    · exact hok.movable i hi
    · exact ⟨e.1, he, hmov⟩
  · exact hok
  · exact hok
  · rw [Bool.not_eq_false] at hcan
    refine ⟨hok.size, hfp ▸ hok.recorded.occupy (hfp ▸ hcan), fun i c hi => ?_, hok.movable⟩
    dsimp only at hi
    rw [update_apply] at hi
    split at hi
    · rename_i heq
      exact ⟨e.1, heq ▸ he, by simpa using hmov⟩
    · exact hok.fixed i c hi

theorem buildContext_ok (hctx : buildContext elements opt w h = some ctx) : ContextOk elements opt w h ctx := by
  unfold buildContext at hctx
  split_ifs at hctx
  have hrun (es : List (LayoutElement × Nat)) (hes : ∀ e ∈ es, elements[e.2]? = some e.1) {ctx₀ : LayoutContext}
      (hok : ContextOk elements opt w h ctx₀) (hfold : es.foldlM (contextStep opt) ctx₀ = some ctx) :
      ContextOk elements opt w h ctx := by
    induction es generalizing ctx₀ with
    | nil => exact Option.some.inj hfold ▸ hok
    | cons e es ih =>
      rw [foldlM_cons] at hfold
      obtain ⟨ctx₁, hstep, hrest⟩ := Option.bind_eq_some_iff.mp hfold
      rw [forall_mem_cons] at hes
      exact ih hes.2 (contextStep_ok hok hes.1 hstep) hrest
  refine hrun _ (fun e he => mem_zipIdx_iff_getElem?.mp he) ⟨⟨rfl, rfl⟩, ?_, ?_, ?_⟩ hctx
  · exact fun i c hi => by cases hi
  · exact fun i c hi => by cases hi
  · exact fun i hi => by cases hi

variable {K : Type} {p : Placement K}

/-- What the loop has kept since the context was built. -/
structure RunOk (elements : List LayoutElement) (opt : LayoutOptions) (ctx : LayoutContext) (n : Nat)
    (st : LayoutState) : Prop where
  size : st.occ.w = ctx.occ.w ∧ st.occ.h = ctx.occ.h
  recorded : Recorded (footprintOf elements opt) st.occ st.placed
  taken : ∀ d, inGrid ctx.occ.w ctx.occ.h d → st.occ.tagAt d = none → ctx.occ.tagAt d = none
  free : ∀ i c, st.placed i = some c → ctx.placed i = some c ∨ ctx.occ.canPlace c (footprintOf elements opt i) = true
  counted : st.placedCount + st.skippedCount = n

theorem layoutStep_ok {n : Nat} {st : LayoutState} (hok : RunOk elements opt ctx n st) (idx : Nat) :
    RunOk elements opt ctx (n + 1) (layoutStep opt (footprintOf elements opt) p st idx) := by
  obtain ⟨⟨hw, hh⟩, hrec, htaken, hfree, hcounted⟩ := hok
  rw [layoutStep]
  split
  · exact ⟨⟨hw, hh⟩, hrec, htaken, hfree, by dsimp only; omega⟩
  · rename_i c hchosen
    have hcan := chooseCell_eq_some hchosen
    obtain ⟨hfits, hclear⟩ := Occupancy.canPlace_iff.mp hcan
    refine ⟨⟨hw, hh⟩, hrec.occupy hcan, fun d hd hnone => ?_, fun i c' hi => ?_, by dsimp only; omega⟩
    · rw [Occupancy.tagAt_occupy hfits (by rw [hw, hh]; exact hd)] at hnone
      split at hnone
      · cases hnone
      · exact htaken d hd hnone
    · dsimp only at hi
      rw [update_apply] at hi
      split at hi
      · rename_i hii
        subst hii
        cases hi
        rw [hw, hh] at hfits
        exact .inr (Occupancy.canPlace_iff.mpr ⟨hfits, fun d hd => htaken d (inGrid_of_fits hfits hd) (hclear d hd)⟩)
      · exact hfree i c' hi

def layoutRun (elements : List LayoutElement) (opt : LayoutOptions) (p : Placement K) (ctx : LayoutContext)
    (order : List Nat) :
    LayoutState :=
  order.foldl (layoutStep opt (footprintOf elements opt) p) { occ := ctx.occ, placed := ctx.placed }

theorem layoutRun_ok (hctx : buildContext elements opt w h = some ctx) (order : List Nat) :
    RunOk elements opt ctx order.length (layoutRun elements opt p ctx order) := by
  have hrun (order : List Nat) {n : Nat} {st : LayoutState} (hok : RunOk elements opt ctx n st) :
      RunOk elements opt ctx (n + order.length) (order.foldl (layoutStep opt (footprintOf elements opt) p) st) := by
    induction order generalizing n st with
    | nil => exact hok
    | cons idx order ih =>
      rw [length_cons, Nat.add_comm order.length, ← Nat.add_assoc]
      exact ih (layoutStep_ok hok idx)
  rw [← Nat.zero_add order.length]
  exact hrun order ⟨⟨rfl, rfl⟩, (buildContext_ok hctx).recorded, fun _ _ hd => hd, fun _ _ hi => .inl hi, rfl⟩

end Phases

section Layout

variable {elements : List LayoutElement} {opt : LayoutOptions} {w h : Nat} {ctx : LayoutContext} {K : Type}

structure FastLayout (elements : List LayoutElement) (opt : LayoutOptions) (ctx : LayoutContext)
    (run : List Nat → LayoutState) (order : List Nat) : Prop where
  counted : (run order).placedCount + (run order).skippedCount = ctx.movable.length
  inside : ∀ i ∈ ctx.movable, ∀ c, (run order).placed i = some c →
    Fits ctx.occ.w ctx.occ.h c (footprintOf elements opt i)
  apart : ∀ i ∈ ctx.movable, ∀ j ∈ ctx.movable, i ≠ j → ∀ c c', (run order).placed i = some c →
    (run order).placed j = some c' → Apart c (footprintOf elements opt i) c' (footprintOf elements opt j)
  fixed : ∀ i ∈ ctx.movable, ∀ c, (run order).placed i = some c → ∀ e ∈ elements, e.participates = false →
    Fits ctx.occ.w ctx.occ.h e.snapped (elementFootprint e opt) →
    Apart c (footprintOf elements opt i) e.snapped (elementFootprint e opt)
  complete : opt.maxSearchRadius = none → ctx.occ.w * ctx.occ.h ≤ opt.maxCandidatesPerElement →
    ∀ before idx after, order = before ++ idx :: after →
    (run (before ++ [idx])).skippedCount ≠ (run before).skippedCount →
    ∀ c, inGrid ctx.occ.w ctx.occ.h c → (run before).occ.canPlace c (footprintOf elements opt idx) = false

/-- No movable element fits on a cell of a fixed element that the context did not record. -/
def FixedKept (elements : List LayoutElement) (opt : LayoutOptions) (ctx : LayoutContext) : Prop :=
  ∀ i ∈ ctx.movable, ∀ c, ctx.occ.canPlace c (footprintOf elements opt i) = true →
    ∀ e ∈ elements, e.participates = false →
    Fits ctx.occ.w ctx.occ.h e.snapped (elementFootprint e opt) →
    Apart c (footprintOf elements opt i) e.snapped (elementFootprint e opt)

/-- `e` is fixed and covers the cell `d`. -/
def FixedOn (opt : LayoutOptions) (d : Cell) (e : LayoutElement) : Prop :=
  e.participates = false ∧ InFootprint e.snapped (elementFootprint e opt) d

def Covered (opt : LayoutOptions) (w h : Nat) (es : List LayoutElement) (occ : Occupancy) : Prop :=
  occ.w = w ∧ occ.h = h ∧ ∀ d, inGrid w h d → (occ.tagAt d ≠ none ↔ ∃ e ∈ es, FixedOn opt d e)

theorem covered_contextStep {es : List LayoutElement} (hcov : Covered opt w h es ctx.occ) {e : LayoutElement} {i : Nat}
    (hfits : e.participates = false → Fits w h e.snapped (elementFootprint e opt))
    (hapart : ∀ e' ∈ es, ∀ d, FixedOn opt d e' → ¬ FixedOn opt d e) {ctx' : LayoutContext}
    (hstep : contextStep opt ctx (e, i) = some ctx') : Covered opt w h (es ++ [e]) ctx'.occ := by
  obtain ⟨rfl, rfl, htags⟩ := hcov
  unfold contextStep at hstep
  by_cases hpart : e.participates = true
  · rw [if_pos hpart] at hstep
    cases hstep
    exact ⟨rfl, rfl, fun d hd => by simp [htags d hd, or_and_right, exists_or, FixedOn, hpart]⟩
  · have hfit := hfits (by simpa using hpart)
    have hon {d : Cell} : FixedOn opt d e ↔ InFootprint e.snapped (elementFootprint e opt) d := by simp [FixedOn, hpart]
    have hcan : ctx.occ.canPlace e.snapped (elementFootprint e opt) = true := by
      refine Occupancy.canPlace_iff.mpr ⟨hfit, fun d hd => by_contra fun hne => ?_⟩
      obtain ⟨e', he', hd'⟩ := (htags d (inGrid_of_fits hfit hd)).mp hne
      exact hapart e' he' d hd' (hon.mpr hd)
    obtain ⟨hx, hx', hy, hy'⟩ := id hfit
    have hclamp {v : Int} {n m : Nat} (hv : 0 ≤ v) (hle : v + m ≤ n) : clamp v 0 (n - m : Nat) = v := by
      rw [clamp, if_neg (by omega), if_neg (by omega)]
    dsimp only at hstep
    rw [if_neg hpart, if_neg (by omega), if_neg (by omega), hclamp hx hx', hclamp hy hy',
      if_neg (by simp [hcan])] at hstep
    cases hstep
    refine ⟨rfl, rfl, fun d hd => ?_⟩
    rw [Occupancy.tagAt_occupy hfit hd]
    split_ifs with hin
    · exact ⟨fun _ => ⟨e, by simp, hon.mpr hin⟩, fun _ => by simp⟩
    · simp [htags d hd, or_and_right, exists_or, hon, hin]

/-- Fixed elements that are on the grid and do not overlap are all recorded. -/
theorem fixedKept_of_apart (hctx : buildContext elements opt w h = some ctx)
    (hfits : ∀ e ∈ elements, e.participates = false → Fits w h e.snapped (elementFootprint e opt))
    (hapart : elements.Pairwise fun e e' => ∀ d, FixedOn opt d e → ¬ FixedOn opt d e') :
      FixedKept elements opt ctx := by
  unfold buildContext at hctx
  split_ifs at hctx
  have hrun (es : List (LayoutElement × Nat)) (before : List LayoutElement)
    (hall : before ++ es.map Prod.fst = elements)
      {ctx₀ : LayoutContext} (hcov : Covered opt w h before ctx₀.occ)
        (hfold : es.foldlM (contextStep opt) ctx₀ = some ctx) :
      Covered opt w h elements ctx.occ := by
    induction es generalizing before ctx₀ with
    | nil =>
      cases hfold
      simpa [← hall] using hcov
    | cons e es ih =>
      rw [foldlM_cons] at hfold
      obtain ⟨ctx₁, hstep, hrest⟩ := Option.bind_eq_some_iff.mp hfold
      refine ih (before ++ [e.1]) (by simpa using hall)
        (covered_contextStep hcov (hfits _ (by simp [← hall])) ?_ hstep) hrest
      rw [← hall, pairwise_append] at hapart
      exact fun e' he' => hapart.2.2 e' he' e.1 (by simp)
  obtain ⟨rfl, rfl, htags⟩ := hrun _ [] (by simp) ⟨rfl, rfl, fun d _ => by simp [Occupancy.tagAt]⟩ hctx
  intro i _ c hcan e he hpart _ d hd hd'
  obtain ⟨hfit, hfree⟩ := Occupancy.canPlace_iff.mp hcan
  exact (htags d (inGrid_of_fits hfit hd)).mpr ⟨e, he, hpart, hd'⟩ (hfree d hd)

theorem fastLayout_of_fixedKept (hctx : buildContext elements opt w h = some ctx) (hkept : FixedKept elements opt ctx)
    (p : Placement K) {order : List Nat} (horder : order.Perm ctx.movable) :
    FastLayout elements opt ctx (layoutRun elements opt p ctx) order := by
  have hok := buildContext_ok hctx
  obtain ⟨⟨hw, hh⟩, hrec, -, hfree, hcounted⟩ := layoutRun_ok (p := p) hctx order
  refine ⟨by rw [hcounted, horder.length_eq], fun i _ c hi => hw ▸ hh ▸ (hrec i c hi).1, ?_, ?_, ?_⟩
  · intro i _ j _ hij c c' hi hj d hd hd'
    exact hij (Option.some.inj (((hrec i c hi).2 d hd).symm.trans ((hrec j c' hj).2 d hd')))
  · intro i hi c hplaced
    obtain hfixed | hcan := hfree i c hplaced
    · obtain ⟨e, he, hpart⟩ := hok.fixed i c hfixed
      obtain ⟨e', he', hpart'⟩ := hok.movable i hi
      rw [Option.some.inj (he.symm.trans he'), hpart'] at hpart
      cases hpart
    · exact hkept i hi c hcan
  · intro hradius hlimit before idx after _ hskipped c hc
    obtain ⟨⟨hw, hh⟩, -⟩ := layoutRun_ok (p := p) hctx before
    rw [layoutRun, foldl_append, ← layoutRun, foldl_cons, foldl_nil, layoutStep] at hskipped
    split at hskipped
    · rename_i hnone
      rw [hradius] at hnone
      exact chooseCell_eq_none (by rw [hw, hh]; exact hlimit) hnone (by rw [hw, hh]; exact hc)
    · exact absurd rfl hskipped

variable {c : Cell} {ops : Costs K}

/-- With one candidate the search looks at the ideal cell alone. -/
theorem chooseCell_one {occ : Occupancy} (hc : inGrid occ.w occ.h c) (fp : Footprint)
    (cost : Cell → Cell → K) : chooseCell ops occ c fp cost 1 (some 0) =
      if occ.canPlace c fp then some c else none := by
  have hin := hc
  simp only [inGrid, Bool.and_eq_true, decide_eq_true_eq] at hc
  have hx : clamp c.x 0 (occ.w - 1) = c.x := by rw [clamp, if_neg (by omega), if_neg (by omega)]
  have hy : clamp c.y 0 (occ.h - 1) = c.y := by rw [clamp, if_neg (by omega), if_neg (by omega)]
  simp only [chooseCell, hx, hy, Option.getD_some, Nat.zero_add, searchRings, ring, filter_cons, hin, if_true,
    filter_nil, foldl_cons, foldl_nil, consider, better, Bool.and_true]
  split_ifs <;> simp_all

theorem layoutRun_one {fp : Nat → Footprint} {opt : LayoutOptions} {cost : Nat → (Nat → Option Cell) → Cell → Cell → K}
    {i : Nat} (order : List Nat) {st : LayoutState} (hc : inGrid st.occ.w st.occ.h c) (hi : st.placed i = some c) :
    (order.foldl (layoutStep { opt with maxCandidatesPerElement := 1, maxSearchRadius := some 0 } fp
      ⟨ops, fun _ _ => c, cost⟩) st).placed i = some c := by
  induction order generalizing st with
  | nil => exact hi
  | cons idx order ih =>
    rw [foldl_cons, layoutStep]
    dsimp only
    rw [chooseCell_one hc]
    split_ifs
    · refine ih hc ?_
      dsimp only
      rw [update_apply, hi, ite_self]
    · exact ih hc hi

/-- The fast layout keeps its promise in every order, with all ideal cells, costs and limits,
exactly when no movable element fits on a fixed element that was left out of the grid. -/
theorem fastLayout_iff (hctx : buildContext elements opt w h = some ctx) :
    (∀ (K : Type) (p : Placement K) (order : List Nat) (maxCandidatesPerElement : Nat) (maxSearchRadius : Option Nat),
      order.Perm ctx.movable → FastLayout elements { opt with maxCandidatesPerElement, maxSearchRadius } ctx
        (layoutRun elements { opt with maxCandidatesPerElement, maxSearchRadius } p ctx) order) ↔
    FixedKept elements opt ctx := by
  constructor
  · -- every other element is sent to the same cell, which the first one has taken
    intro hall i hi c hcan e he hpart hfits d hd
    have hc : inGrid ctx.occ.w ctx.occ.h c :=
      inGrid_of_fits (Occupancy.canPlace_iff.mp hcan).1 (by rw [InFootprint] at hd ⊢; omega)
    let p : Placement Unit := ⟨⟨fun _ _ => false, fun _ _ => false, (), (), rfl⟩, fun _ _ => c, fun _ _ _ _ => ()⟩
    refine (hall Unit p (i :: ctx.movable.erase i) 1 (some 0) (List.perm_cons_erase hi).symm).fixed i hi c ?_ e
      he hpart hfits d hd
    have hcan' : ctx.occ.canPlace c (footprintOf elements { opt with
        maxCandidatesPerElement := 1
        maxSearchRadius := some 0 } i) =
        true := hcan
    rw [layoutRun, List.foldl_cons, layoutStep]
    dsimp only [p]
    rw [chooseCell_one hc, if_pos hcan']
    exact layoutRun_one _ hc (Function.update_self ..)
  · intro hkept K p order maxCandidatesPerElement maxSearchRadius horder
    have hctx' : buildContext elements { opt with maxCandidatesPerElement, maxSearchRadius } w h = some ctx := hctx
    exact fastLayout_of_fixedKept hctx' hkept p horder

theorem fastLayout_iff_one_fixed : ∃ ctx, buildContext [⟨false, false, ⟨5, 5⟩⟩, ⟨true, false, ⟨0, 0⟩⟩] {} 2 1 =
    some ctx ∧
    ∀ (K : Type) (p : Placement K) (order : List Nat) (maxCandidatesPerElement : Nat) (maxSearchRadius : Option Nat),
      order.Perm ctx.movable →
        FastLayout [⟨false, false, ⟨5, 5⟩⟩, ⟨true, false, ⟨0, 0⟩⟩] { maxCandidatesPerElement, maxSearchRadius } ctx
          (layoutRun [⟨false, false, ⟨5, 5⟩⟩, ⟨true, false, ⟨0, 0⟩⟩] { maxCandidatesPerElement, maxSearchRadius }
            p ctx) order := by
  have hctx := (rfl : buildContext [⟨false, false, ⟨5, 5⟩⟩, ⟨true, false, ⟨0, 0⟩⟩] {} 2 1 = some _)
  refine ⟨_, hctx, (fastLayout_iff hctx).mpr fun i _ c _ e he hpart hfits => ?_⟩
  simp only [List.mem_cons, List.not_mem_nil, or_false] at he
  obtain rfl | rfl := he
  · exact absurd hfits.2.1 (by decide)
  · cases hpart

def overlappingFixed : List LayoutElement := [⟨false, true, ⟨0, 0⟩⟩, ⟨false, true, ⟨1, 0⟩⟩, ⟨true, false, ⟨0, 0⟩⟩]

/-- The second fixed element overlaps the first and is not recorded: the movable one goes from the
middle of the grid to its corner. -/
theorem not_fastLayout_overlappingFixed : ∃ ctx, buildContext overlappingFixed {} 3 2 = some ctx ∧
    ¬ FastLayout overlappingFixed {} ctx (layoutRun overlappingFixed {}
      ⟨⟨fun a b => decide (a < b), fun a b => a == b, 0, 1000000, rfl⟩, fun _ _ => ⟨1, 1⟩, fun _ _ c ideal =>
        dist c ideal⟩
      ctx) ctx.movable := by
  refine ⟨_, rfl, fun hlayout => ?_⟩
  have hapart := hlayout.fixed 2 (by simp) ⟨2, 1⟩ (by decide) ⟨false, true, ⟨1, 0⟩⟩ (by simp [overlappingFixed]) rfl
    ⟨by decide, by decide, by decide, by decide⟩
  exact hapart ⟨2, 1⟩ ⟨by decide, by decide, by decide, by decide⟩ ⟨by decide, by decide, by decide, by decide⟩

end Layout

end PhyEngine.PhyLab
