import Mathlib.Order.CompletePartialOrder
import Mathlib.Data.Set.Lattice
import Mathlib.Data.Set.Disjoint
import Mathlib.Data.List.Basic
import Mathlib.Tactic.Ring

/-!
# The glyph atlas

`AtlasAlloc` of `font.c` gives a glyph its place in an atlas, one pixel wider and higher than the glyph. What is free is described by two frontiers: the first is right of the glyphs of the current row and reaches down to the lower edge, the second lies below all of them. They overlap. The `short int` of the source do not overflow on an atlas of this size, so they are integers here.
-/

namespace HddChecker.Ui

def FNT_ATLAS_WIDTH : Int := 128
def FNT_ATLAS_HEIGHT : Int := 128

structure FontFrontier where
  x : Int
  y : Int
  width : Int
  height : Int
  deriving DecidableEq, Repr

/-- `struct FontGlyphSlot`, as far as `AtlasAlloc` fills it. -/
structure FontGlyphSlot where
  VramPageX : Int
  VramPageY : Int
  deriving DecidableEq, Repr

/-- `struct FontAtlas`. The buffer is `false` where it is `NULL`. -/
structure FontAtlas where
  vram : Nat
  buffer : Bool
  NumGlyphs : Nat
  GlyphSlot : Nat → FontGlyphSlot
  /-- `frontier[0]`, the horizontal one -/
  frontier₀ : FontFrontier
  /-- `frontier[1]`, the vertical one -/
  frontier₁ : FontFrontier

/-- A call of `AtlasAlloc`: the size of the glyph, and what becomes of the allocations. -/
structure AtlasCall where
  width : Int
  height : Int
  /-- the result of `GsVramAllocTextureBuffer` -/
  vram : Int
  /-- `memalign` succeeds -/
  memalign : Bool
  /-- `realloc` succeeds -/
  realloc : Bool

/-- `AtlasInit`: whether it fails, and the atlas. The address in VRAM is unsigned, so that a failure to allocate it goes unnoticed. -/
def AtlasInit (c : AtlasCall) (atlas : FontAtlas) : Bool × FontAtlas :=
  let atlas := { atlas with vram := (c.vram % 2 ^ 32).toNat }
  if 0 ≤ atlas.vram then (!c.memalign, { atlas with buffer := c.memalign })
  else (true, atlas)

/-- A new slot at the end of the array, and what else changes once it is there. -/
def newSlot (c : AtlasCall) (x y : Int) (update : FontAtlas → FontAtlas) (atlas : FontAtlas) :
    Option Nat × FontAtlas :=
  if c.realloc then
    (some atlas.NumGlyphs, update { atlas with
      NumGlyphs := atlas.NumGlyphs + 1
      GlyphSlot := fun i => if i = atlas.NumGlyphs then ⟨x, y⟩ else atlas.GlyphSlot i })
  else (none, { atlas with NumGlyphs := 0 })

/-- The frontiers once the first glyph is in the atlas. -/
def firstGlyph (c : AtlasCall) (atlas : FontAtlas) : FontAtlas :=
  { atlas with
    frontier₀ := ⟨c.width + 1, 0, FNT_ATLAS_WIDTH - (c.width + 1), FNT_ATLAS_HEIGHT⟩
    frontier₁ := ⟨0, c.height + 1, FNT_ATLAS_WIDTH, FNT_ATLAS_HEIGHT - (c.height + 1)⟩ }

/-- The frontiers once a glyph is in the current row. A glyph higher than the others of the row moves the vertical frontier. -/
def nextInRow (c : AtlasCall) (atlas : FontAtlas) : FontAtlas :=
  let f := { atlas.frontier₀ with
    width := atlas.frontier₀.width - (c.width + 1)
    x := atlas.frontier₀.x + (c.width + 1) }
  if f.y + c.height + 1 > atlas.frontier₁.y then
    { atlas with
      frontier₀ := f
      frontier₁ := { atlas.frontier₁ with
        y := f.y + c.height + 1
        height := FNT_ATLAS_HEIGHT - (f.y + c.height + 1) } }
  else { atlas with frontier₀ := f }

/-- The frontiers once a glyph is the first of a new row. -/
def nextRow (c : AtlasCall) (atlas : FontAtlas) : FontAtlas :=
  { atlas with
    frontier₀ := ⟨c.width + 1, atlas.frontier₁.y, FNT_ATLAS_WIDTH - (c.width + 1), atlas.frontier₁.height⟩
    frontier₁ := { atlas.frontier₁ with
      height := atlas.frontier₁.height - (c.height + 1)
      y := atlas.frontier₁.y + (c.height + 1) } }

/-- The glyph fits behind the frontier. -/
def FontFrontier.fits (f : FontFrontier) (c : AtlasCall) : Bool :=
  decide (c.width + 1 ≤ f.width) && decide (c.height + 1 ≤ f.height)

/-- `AtlasAlloc`: the index of the slot, and the atlas. -/
def AtlasAlloc (c : AtlasCall) (atlas : FontAtlas) : Option Nat × FontAtlas :=
  if atlas.buffer = false then
    match AtlasInit c atlas with
    | (true, atlas) => (none, atlas)
    | (false, atlas) =>
      -- The frontiers are set before the slot is allocated.
      newSlot c 0 0 id (firstGlyph c atlas)
  else if atlas.frontier₀.fits c then
    newSlot c atlas.frontier₀.x atlas.frontier₀.y (nextInRow c) atlas
  else if atlas.frontier₁.fits c then
    newSlot c atlas.frontier₁.x atlas.frontier₁.y (nextRow c) atlas
  else (none, atlas)

/-! ### What is reserved -/

structure Rect where
  x : Int
  y : Int
  width : Int
  height : Int
  deriving DecidableEq, Repr

def Rect.pixels (r : Rect) : Set (Int × Int) :=
  {p | r.x ≤ p.1 ∧ p.1 < r.x + r.width ∧ r.y ≤ p.2 ∧ p.2 < r.y + r.height}

/-- The rectangle lies inside the atlas. -/
def Rect.Inside (r : Rect) : Prop :=
  0 ≤ r.x ∧ 0 ≤ r.y ∧ r.x + r.width ≤ FNT_ATLAS_WIDTH ∧ r.y + r.height ≤ FNT_ATLAS_HEIGHT

/-- What a slot of a glyph of this size reserves. -/
def FontGlyphSlot.rect (slot : FontGlyphSlot) (width height : Int) : Rect :=
  ⟨slot.VramPageX, slot.VramPageY, width + 1, height + 1⟩

/-- A slot that was returned, with the size of its glyph. -/
structure Placed where
  index : Nat
  width : Int
  height : Int

/-- A call, and the slot it returns beside those that were returned before. -/
def atlasStep (s : List Placed × FontAtlas) (c : AtlasCall) : List Placed × FontAtlas :=
  match AtlasAlloc c s.2 with
  | (some i, atlas) => (⟨i, c.width, c.height⟩ :: s.1, atlas)
  | (none, atlas) => (s.1, atlas)

/-- The slots a sequence of calls returns, the last one first, and the atlas. -/
def atlasRun (calls : List AtlasCall) (atlas : FontAtlas) : List Placed × FontAtlas :=
  calls.foldl atlasStep ([], atlas)

def reserved (placed : List Placed) (atlas : FontAtlas) : List Rect :=
  placed.map fun p => (atlas.GlyphSlot p.index).rect p.width p.height

/-- The glyph is not larger than the atlas. -/
structure AtlasCall.Sized (c : AtlasCall) : Prop where
  width_nonneg : 0 ≤ c.width
  height_nonneg : 0 ≤ c.height
  width_le : c.width + 1 ≤ FNT_ATLAS_WIDTH
  height_le : c.height + 1 ≤ FNT_ATLAS_HEIGHT

def AtlasCall.Succeeds (c : AtlasCall) : Prop := c.memalign = true ∧ c.realloc = true

/-! ### What lies behind the frontiers -/

variable {c : AtlasCall} {atlas : FontAtlas} {placed : List Placed} {r r' : Rect}

private theorem disjoint_of_left (h : r.x + r.width ≤ r'.x) : Disjoint r'.pixels r.pixels := by
  rw [Set.disjoint_left]
  intro p hp hp'
  exact absurd (hp'.2.1.trans_le h) (not_lt.mpr hp.1)

private theorem disjoint_of_above (h : r.y + r.height ≤ r'.y) : Disjoint r'.pixels r.pixels := by
  rw [Set.disjoint_left]
  intro p hp hp'
  exact absurd (hp'.2.2.2.trans_le h) (not_lt.mpr hp.2.2.1)

/-- The frontiers reach to the right and the lower edge, and the second one is not above the first. -/
structure Frontiers (atlas : FontAtlas) : Prop where
  right : atlas.frontier₀.x + atlas.frontier₀.width = FNT_ATLAS_WIDTH
  lower : atlas.frontier₀.y + atlas.frontier₀.height = FNT_ATLAS_HEIGHT
  left : atlas.frontier₁.x = 0
  whole : atlas.frontier₁.width = FNT_ATLAS_WIDTH
  lower' : atlas.frontier₁.y + atlas.frontier₁.height = FNT_ATLAS_HEIGHT
  x_nonneg : 0 ≤ atlas.frontier₀.x
  y_nonneg : 0 ≤ atlas.frontier₀.y
  row : atlas.frontier₀.y ≤ atlas.frontier₁.y

/-- The rectangle is above the current row, or in it and left of the horizontal frontier. -/
def Behind (atlas : FontAtlas) (r : Rect) : Prop :=
  r.y + r.height ≤ atlas.frontier₀.y ∨
    (r.x + r.width ≤ atlas.frontier₀.x ∧ r.y + r.height ≤ atlas.frontier₁.y)

/-- The rectangles that were reserved lie behind the frontiers of the atlas and do not overlap. -/
structure Packed (placed : List Placed) (atlas : FontAtlas) : Prop where
  frontiers : atlas.buffer = true → Frontiers atlas
  empty : atlas.buffer = false → placed = []
  index : ∀ p ∈ placed, p.index < atlas.NumGlyphs
  inside : ∀ r ∈ reserved placed atlas, r.Inside
  behind : ∀ r ∈ reserved placed atlas, Behind atlas r
  disjoint : (reserved placed atlas).Pairwise fun r r' => Disjoint r.pixels r'.pixels

/-- The atlas with a slot more. -/
def FontAtlas.withSlot (x y : Int) (atlas : FontAtlas) : FontAtlas :=
  { atlas with
    NumGlyphs := atlas.NumGlyphs + 1
    GlyphSlot := fun i => if i = atlas.NumGlyphs then ⟨x, y⟩ else atlas.GlyphSlot i }

theorem newSlot_eq (hrealloc : c.realloc = true) (x y : Int) (update : FontAtlas → FontAtlas) :
    newSlot c x y update atlas = (some atlas.NumGlyphs, update (atlas.withSlot x y)) := if_pos hrealloc

theorem Frontiers.withSlot (h : Frontiers atlas) (x y : Int) : Frontiers (atlas.withSlot x y) :=
  ⟨h.right, h.lower, h.left, h.whole, h.lower', h.x_nonneg, h.y_nonneg, h.row⟩

/-- A new slot behind frontiers that have moved, for a rectangle that lay in none of the old ones. -/
theorem Packed.newSlot (h : Packed placed atlas) {x y : Int} {atlas' : FontAtlas}
    (hbuffer : atlas'.buffer = true) (hnum : atlas'.NumGlyphs = atlas.NumGlyphs + 1)
    (hslot : atlas'.GlyphSlot = fun i => if i = atlas.NumGlyphs then ⟨x, y⟩ else atlas.GlyphSlot i)
    (hfrontiers : Frontiers atlas') (hbehind : ∀ r ∈ reserved placed atlas, Behind atlas' r)
    (hnew : Behind atlas' ⟨x, y, c.width + 1, c.height + 1⟩) (hx : 0 ≤ x) (hy : 0 ≤ y)
    (hright : x + (c.width + 1) ≤ FNT_ATLAS_WIDTH) (hlower : y + (c.height + 1) ≤ FNT_ATLAS_HEIGHT)
    (hfree : ∀ r ∈ reserved placed atlas, r.x + r.width ≤ x ∨ r.y + r.height ≤ y) :
    Packed (⟨atlas.NumGlyphs, c.width, c.height⟩ :: placed) atlas' := by
  have hreserved : reserved (⟨atlas.NumGlyphs, c.width, c.height⟩ :: placed) atlas' =
      ⟨x, y, c.width + 1, c.height + 1⟩ :: reserved placed atlas := by
    unfold reserved
    rw [List.map_cons, hslot]
    simp only [if_true, FontGlyphSlot.rect]
    refine congrArg _ (List.map_congr_left fun p hp => ?_)
    rw [if_neg (h.index p hp).ne]
  refine ⟨fun _ => hfrontiers, fun hnone => ?_, ?_, ?_, ?_, ?_⟩
  · rw [hbuffer] at hnone
    cases hnone
  · rw [hnum]
    rintro p (_ | ⟨_, hp⟩)
    · exact Nat.lt_succ_self _
    · exact (h.index p hp).trans (Nat.lt_succ_self _)
  · rw [hreserved]
    rintro r (_ | ⟨_, hr⟩)
    · exact ⟨hx, hy, hright, hlower⟩
    · exact h.inside r hr
  · rw [hreserved]
    rintro r (_ | ⟨_, hr⟩)
    · exact hnew
    · exact hbehind r hr
  · rw [hreserved, List.pairwise_cons]
    refine ⟨fun r hr => ?_, h.disjoint⟩
    rcases hfree r hr with hleft | habove
    · exact disjoint_of_left hleft
    · exact disjoint_of_above habove

theorem fits_iff {f : FontFrontier} : f.fits c = true ↔ c.width + 1 ≤ f.width ∧ c.height + 1 ≤ f.height := by
  simp [FontFrontier.fits]

private theorem frontiers_firstGlyph (hsized : c.Sized) (atlas : FontAtlas) : Frontiers (firstGlyph c atlas) where
  right := add_sub_cancel _ _
  lower := rfl
  left := rfl
  whole := rfl
  lower' := add_sub_cancel _ _
  x_nonneg := Int.add_nonneg hsized.width_nonneg (by decide)
  y_nonneg := le_rfl
  row := Int.add_nonneg hsized.height_nonneg (by decide)

theorem nextInRow_eq (c : AtlasCall) (atlas : FontAtlas) :
    (nextInRow c atlas).frontier₀ = ⟨atlas.frontier₀.x + (c.width + 1), atlas.frontier₀.y,
      atlas.frontier₀.width - (c.width + 1), atlas.frontier₀.height⟩ ∧
    (nextInRow c atlas).frontier₁.x = atlas.frontier₁.x ∧
    (nextInRow c atlas).frontier₁.width = atlas.frontier₁.width ∧
    (nextInRow c atlas).frontier₁.y = max atlas.frontier₁.y (atlas.frontier₀.y + (c.height + 1)) ∧
    (atlas.frontier₁.y + atlas.frontier₁.height = FNT_ATLAS_HEIGHT →
      (nextInRow c atlas).frontier₁.y + (nextInRow c atlas).frontier₁.height = FNT_ATLAS_HEIGHT) := by
  unfold nextInRow
  dsimp only
  split
  · rename_i hmove
    refine ⟨rfl, rfl, rfl, ?_, fun _ => add_sub_cancel _ _⟩
    rw [max_eq_right (by omega), add_assoc]
  · rename_i hmove
    refine ⟨rfl, rfl, rfl, ?_, id⟩
    rw [max_eq_left (by omega)]

private theorem nextInRow_kept (c : AtlasCall) (atlas : FontAtlas) : (nextInRow c atlas).buffer = atlas.buffer ∧
    (nextInRow c atlas).NumGlyphs = atlas.NumGlyphs ∧ (nextInRow c atlas).GlyphSlot = atlas.GlyphSlot := by
  unfold nextInRow
  dsimp only
  split
  · exact ⟨rfl, rfl, rfl⟩
  · exact ⟨rfl, rfl, rfl⟩

theorem Frontiers.nextInRow (h : Frontiers atlas) (hsized : c.Sized) : Frontiers (nextInRow c atlas) := by
  obtain ⟨h₀, hx, hwidth, hy, hlower⟩ := nextInRow_eq c atlas
  have hw := hsized.width_nonneg
  refine ⟨?_, ?_, hx.trans h.left, hwidth.trans h.whole, hlower h.lower', ?_, ?_, ?_⟩
  · rw [h₀, ← h.right]
    ring
  · rw [h₀, ← h.lower]
  · rw [h₀]
    exact Int.add_nonneg h.x_nonneg (Int.add_nonneg hw (by decide))
  · rw [h₀]
    exact h.y_nonneg
  · rw [h₀, hy]
    exact h.row.trans (le_max_left _ _)

theorem Frontiers.nextRow (h : Frontiers atlas) (hsized : c.Sized) : Frontiers (nextRow c atlas) where
  right := add_sub_cancel _ _
  lower := h.lower'
  left := h.left
  whole := h.whole
  lower' := by
    rw [← h.lower', Ui.nextRow]
    ring
  x_nonneg := Int.add_nonneg hsized.width_nonneg (by decide)
  y_nonneg := h.y_nonneg.trans h.row
  row := Int.le_add_of_nonneg_right (Int.add_nonneg hsized.height_nonneg (by decide))

theorem Packed.firstGlyph (h : Packed [] atlas) (hsized : c.Sized) (vram : Nat) :
    Packed [⟨atlas.NumGlyphs, c.width, c.height⟩]
      ((firstGlyph c { atlas with vram := vram, buffer := true }).withSlot 0 0) := by
  have hfrontiers := (frontiers_firstGlyph hsized { atlas with vram := vram, buffer := true }).withSlot 0 0
  refine h.newSlot rfl rfl rfl hfrontiers nofun (.inr ⟨?_, ?_⟩) le_rfl le_rfl ?_ ?_ nofun
  · exact (zero_add _).le
  · exact (zero_add _).le
  · exact (zero_add _).trans_le hsized.width_le
  · exact (zero_add _).trans_le hsized.height_le

/-- A glyph more in the current row. -/
theorem Packed.nextInRow (h : Packed placed atlas) (hbuffer : atlas.buffer = true) (hsized : c.Sized)
    (hfit : atlas.frontier₀.fits c = true) : Packed (⟨atlas.NumGlyphs, c.width, c.height⟩ :: placed)
      (nextInRow c (atlas.withSlot atlas.frontier₀.x atlas.frontier₀.y)) := by
  obtain ⟨hwidth, hheight⟩ := fits_iff.mp hfit
  have hf := h.frontiers hbuffer
  have hw := hsized.width_nonneg
  have hfrontiers := (hf.withSlot atlas.frontier₀.x atlas.frontier₀.y).nextInRow hsized
  obtain ⟨hb, hn, hs⟩ := nextInRow_kept c (atlas.withSlot atlas.frontier₀.x atlas.frontier₀.y)
  obtain ⟨h₀, -, -, hy, -⟩ := nextInRow_eq c (atlas.withSlot atlas.frontier₀.x atlas.frontier₀.y)
  refine h.newSlot (hb.trans hbuffer) hn hs hfrontiers ?_ (.inr ?_) hf.x_nonneg hf.y_nonneg ?_ ?_ ?_
  · intro r hr
    unfold Behind
    rw [h₀, hy]
    rcases h.behind r hr with habove | ⟨hleft, hrow⟩
    · exact .inl habove
    · exact .inr ⟨hleft.trans (Int.le_add_of_nonneg_right (by omega)), hrow.trans (le_max_left _ _)⟩
  · rw [h₀, hy]
    exact ⟨le_rfl, le_max_right _ _⟩
  · rw [← hf.right]
    exact Int.add_le_add_left hwidth _
  · rw [← hf.lower]
    exact Int.add_le_add_left hheight _
  · intro r hr
    exact (h.behind r hr).symm.imp And.left id

theorem Packed.nextRow (h : Packed placed atlas) (hbuffer : atlas.buffer = true) (hsized : c.Sized)
    (hfit : atlas.frontier₁.fits c = true) : Packed (⟨atlas.NumGlyphs, c.width, c.height⟩ :: placed)
      (nextRow c (atlas.withSlot atlas.frontier₁.x atlas.frontier₁.y)) := by
  obtain ⟨-, hheight⟩ := fits_iff.mp hfit
  have hf := h.frontiers hbuffer
  have habove : ∀ r ∈ reserved placed atlas, r.y + r.height ≤ atlas.frontier₁.y := by
    intro r hr
    rcases h.behind r hr with habove | ⟨-, hrow⟩
    · exact habove.trans hf.row
    · exact hrow
  refine h.newSlot hbuffer rfl rfl ((hf.withSlot _ _).nextRow hsized) (fun r hr => .inl (habove r hr))
    (.inr ⟨?_, le_rfl⟩) hf.left.ge (hf.y_nonneg.trans hf.row) ?_ ?_ (fun r hr => .inr (habove r hr))
  · rw [hf.left]
    exact (zero_add _).le
  · rw [hf.left, zero_add]
    exact hsized.width_le
  · rw [← hf.lower']
    exact Int.add_le_add_left hheight _

private theorem atlasStep_packed (h : Packed placed atlas) (hsized : c.Sized) (hmemory : c.Succeeds) :
    Packed (atlasStep (placed, atlas) c).1 (atlasStep (placed, atlas) c).2 := by
  obtain ⟨hmemalign, hrealloc⟩ := hmemory
  unfold atlasStep AtlasAlloc
  by_cases hbuffer : atlas.buffer = false
  · obtain rfl := h.empty hbuffer
    have hinit : AtlasInit c atlas = (false, { atlas with vram := (c.vram % 2 ^ 32).toNat, buffer := true }) := by
      simp [AtlasInit, hmemalign]
    simp only [hbuffer, if_true, hinit, newSlot_eq hrealloc]
    exact h.firstGlyph hsized _
  · rw [if_neg hbuffer]
    rw [Bool.not_eq_false] at hbuffer
    split_ifs with hfit₀ hfit₁
    · rw [newSlot_eq hrealloc]
      exact h.nextInRow hbuffer hsized hfit₀
    · rw [newSlot_eq hrealloc]
      exact h.nextRow hbuffer hsized hfit₁
    · exact h

private theorem atlasRun_packed (calls : List AtlasCall) (hsized : ∀ c ∈ calls, c.Sized) (hmemory : ∀ c ∈ calls, c.Succeeds)
    {s : List Placed × FontAtlas} (h : Packed s.1 s.2) :
    Packed (calls.foldl atlasStep s).1 (calls.foldl atlasStep s).2 := by
  induction calls generalizing s with
  | nil => exact h
  | cons c calls ih =>
    rw [List.foldl_cons]
    rw [List.forall_mem_cons] at hsized hmemory
    exact ih hsized.2 hmemory.2 (atlasStep_packed h hsized.1 hmemory.1)

private theorem AtlasAlloc_null (hrealloc : c.realloc = true) (h : (AtlasAlloc c atlas).1 = none) :
    (AtlasAlloc c atlas).2.frontier₀ = atlas.frontier₀ ∧ (AtlasAlloc c atlas).2.frontier₁ = atlas.frontier₁ := by
  unfold AtlasAlloc at h ⊢
  split_ifs at h ⊢ with hbuffer hfit₀ hfit₁
  · cases hmemalign : c.memalign with
    | false => simp [AtlasInit, hmemalign]
    | true => simp [AtlasInit, hmemalign, newSlot_eq hrealloc] at h
  · simp [newSlot_eq hrealloc] at h
  · simp [newSlot_eq hrealloc] at h
  · exact ⟨rfl, rfl⟩

/-- The glyphs of an atlas have places inside it that do not overlap, whatever their sizes and however many there are. -/
theorem AtlasAlloc_apart (atlas : FontAtlas) (hempty : atlas.buffer = false) (calls : List AtlasCall)
    (hsized : ∀ c ∈ calls, c.Sized) (hmemory : ∀ c ∈ calls, c.Succeeds) :
    (∀ r ∈ reserved (atlasRun calls atlas).1 (atlasRun calls atlas).2, r.Inside) ∧
    (reserved (atlasRun calls atlas).1 (atlasRun calls atlas).2).Pairwise
      (fun r r' => Disjoint r.pixels r'.pixels) ∧
    ∀ A c B, calls = A ++ c :: B → (AtlasAlloc c (atlasRun A atlas).2).1 = none →
      (AtlasAlloc c (atlasRun A atlas).2).2.frontier₀ = (atlasRun A atlas).2.frontier₀ ∧
      (AtlasAlloc c (atlasRun A atlas).2).2.frontier₁ = (atlasRun A atlas).2.frontier₁ := by
  have hstart : Packed ([] : List Placed) atlas :=
    ⟨fun h => absurd (hempty.symm.trans h) Bool.false_ne_true, fun _ => rfl, nofun, nofun, nofun, List.Pairwise.nil⟩
  have hpacked : Packed (atlasRun calls atlas).1 (atlasRun calls atlas).2 :=
    atlasRun_packed calls hsized hmemory (s := ([], atlas)) hstart
  refine ⟨hpacked.inside, hpacked.disjoint, fun A c B hcalls hnull => ?_⟩
  exact AtlasAlloc_null (hmemory c (by simp [hcalls])).2 hnull

/-- An atlas nothing was put into. -/
def emptyAtlas : FontAtlas := ⟨0, false, 0, fun _ => ⟨0, 0⟩, ⟨0, 0, 0, 0⟩, ⟨0, 0, 0, 0⟩⟩

/-- Three glyphs, of which the second is the highest and the third begins a new row. -/
theorem AtlasAlloc_apart_three :
    (reserved (atlasRun [⟨9, 9, 0, true, true⟩, ⟨99, 19, 0, true, true⟩, ⟨29, 9, 0, true, true⟩] emptyAtlas).1
      (atlasRun [⟨9, 9, 0, true, true⟩, ⟨99, 19, 0, true, true⟩, ⟨29, 9, 0, true, true⟩] emptyAtlas).2) =
      [⟨0, 20, 30, 10⟩, ⟨10, 0, 100, 20⟩, ⟨0, 0, 10, 10⟩] ∧
    (reserved (atlasRun [⟨9, 9, 0, true, true⟩, ⟨99, 19, 0, true, true⟩, ⟨29, 9, 0, true, true⟩] emptyAtlas).1
      (atlasRun [⟨9, 9, 0, true, true⟩, ⟨99, 19, 0, true, true⟩, ⟨29, 9, 0, true, true⟩] emptyAtlas).2).Pairwise
      (fun r r' => Disjoint r.pixels r'.pixels) := by
  refine ⟨by decide, (AtlasAlloc_apart emptyAtlas rfl _ ?_ ?_).2.1⟩
  · intro c hc
    simp only [List.mem_cons, List.not_mem_nil, or_false] at hc
    obtain rfl | rfl | rfl := hc
    · exact ⟨by decide, by decide, by decide, by decide⟩
    · exact ⟨by decide, by decide, by decide, by decide⟩
    · exact ⟨by decide, by decide, by decide, by decide⟩
  · intro c hc
    simp only [List.mem_cons, List.not_mem_nil, or_false] at hc
    obtain rfl | rfl | rfl := hc
    · exact ⟨rfl, rfl⟩
    · exact ⟨rfl, rfl⟩
    · exact ⟨rfl, rfl⟩

end HddChecker.Ui
