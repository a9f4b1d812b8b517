import Mathlib.Data.Int.Notation
import Mathlib.Logic.Function.Basic
import Mathlib.Tactic.Common

/-!
# Blitting

`gfx_blit` of `gfx/bitmap.c`, on rasters of both formats. The end of the copy is computed from the size of the source
alone: with an offset into the source, the last pixels may lie behind it (`gfxBlit_reads_behind`).
-/

namespace Bertos

open Function

/-- `CONFIG_BITMAP_FMT`. -/
inductive BitmapFmt
  | planarHMsb
  | planarVLsb

structure Rect where
  xmin : ℤ
  ymin : ℤ
  xmax : ℤ
  ymax : ℤ

/-- A bitmap; its stride is the one `gfx_bitmapInit` gives it. -/
structure Bitmap where
  raster : ℕ → BitVec 8
  width : ℕ
  height : ℕ
  cr : Rect

namespace Bitmap
variable (fmt : BitmapFmt) (bm : Bitmap)

def stride : ℕ :=
  match fmt with
  | .planarHMsb => (bm.width + 7) / 8
  | .planarVLsb => bm.width

/-- `RAST_ADDR`, and the number of the bit in `RAST_MASK`. -/
def addr (x y : ℕ) : ℕ × ℕ :=
  match fmt with
  | .planarHMsb => (y * bm.stride fmt + x / 8, 7 - x % 8)
  | .planarVLsb => (y / 8 * bm.stride fmt + x, y % 8)

abbrev Inside (x y : ℤ) : Prop := 0 ≤ x ∧ x < bm.width ∧ 0 ≤ y ∧ y < bm.height

def pixel (x y : ℤ) : Bool :=
  bm.raster (bm.addr fmt x.toNat y.toNat).1 &&& BitVec.twoPow 8 (bm.addr fmt x.toNat y.toNat).2 != 0

/-- `BM_READPIXEL`; `none` outside the bitmap. -/
def readPixel (x y : ℤ) : Option Bool := if bm.Inside x y then some (bm.pixel fmt x y) else none

/-- `BM_DRAWPIXEL`. -/
def drawPixel (x y : ℤ) (fgPen : Bool) : Bitmap :=
  let p := (bm.addr fmt x.toNat y.toNat).1
  let mask := BitVec.twoPow 8 (bm.addr fmt x.toNat y.toNat).2
  { bm with raster := update bm.raster p (bm.raster p &&& ~~~ mask ||| if fgPen then mask else 0) }

/-- What `gfx_setClipRect` asserts. -/
structure Clipped : Prop where
  x : 0 ≤ bm.cr.xmin ∧ bm.cr.xmin < bm.cr.xmax ∧ bm.cr.xmax ≤ bm.width
  y : 0 ≤ bm.cr.ymin ∧ bm.cr.ymin < bm.cr.ymax ∧ bm.cr.ymax ≤ bm.height

variable {fmt bm}

theorem mul_add_inj {q q' r r' s : ℕ} (hr : r < s) (hr' : r' < s) (h : q * s + r = q' * s + r') : q = q' ∧ r = r' := by
  have hq := congrArg (· / s) h
  simp only [Nat.mul_comm _ s, Nat.mul_add_div (Nat.zero_lt_of_lt hr), Nat.div_eq_of_lt, hr, hr', Nat.add_zero] at hq
  subst hq
  exact ⟨rfl, Nat.add_left_cancel h⟩

/-- Different pixels are different bits. -/
theorem addr_inj {x y x' y' : ℕ} (hx : x < bm.width) (hx' : x' < bm.width) (h : bm.addr fmt x y = bm.addr fmt x' y') :
    x = x' ∧ y = y' := by
  cases fmt with
  | planarHMsb =>
    obtain ⟨haddr, hbit⟩ := Prod.mk.inj h
    have hstride : bm.stride .planarHMsb = (bm.width + 7) / 8 := rfl
    obtain ⟨rfl, hx8⟩ := mul_add_inj (by omega) (by omega) haddr
    exact ⟨by omega, rfl⟩
  | planarVLsb =>
    obtain ⟨haddr, hbit⟩ := Prod.mk.inj h
    obtain ⟨hy8, rfl⟩ := mul_add_inj hx hx' haddr
    exact ⟨rfl, by omega⟩

theorem addr_bit (x y : ℕ) : (bm.addr fmt x y).2 < 8 := by
  cases fmt <;> simp only [addr] <;> omega

theorem pixel_eq (x y : ℤ) :
    bm.pixel fmt x y = (bm.raster (bm.addr fmt x.toNat y.toNat).1).getLsbD (bm.addr fmt x.toNat y.toNat).2 := by
  have hbit : ∀ k < 8, ∀ b : BitVec 8, (b &&& BitVec.twoPow 8 k != 0) = b.getLsbD k := by decide +kernel
  exact hbit _ (addr_bit ..) _

theorem draw_bit (b : BitVec 8) (v : Bool) {k k' : ℕ} (hk : k < 8) (hk' : k' < 8) :
    (b &&& ~~~ BitVec.twoPow 8 k ||| if v then BitVec.twoPow 8 k else 0).getLsbD k' =
      if k' = k then v else b.getLsbD k' := by
  by_cases he : k' = k
  · subst he
    cases v <;> simp [hk]
  · rw [if_neg he]
    cases v <;> simp [hk', he]

theorem pixel_draw {x y x' y' : ℤ} (v : Bool) (hin : bm.Inside x y) (hin' : bm.Inside x' y') :
    (bm.drawPixel fmt x y v).pixel fmt x' y' = if x' = x ∧ y' = y then v else bm.pixel fmt x' y' := by
  obtain ⟨hx, hw, hy, -⟩ := hin
  obtain ⟨hx', hw', hy', -⟩ := hin'
  have hsame : x' = x ∧ y' = y ↔ bm.addr fmt x'.toNat y'.toNat = bm.addr fmt x.toNat y.toNat := by
    refine ⟨fun h => by rw [h.1, h.2], fun h => ?_⟩
    have := addr_inj (by omega) (by omega) h
    omega
  rw [pixel_eq, pixel_eq]
  show (update bm.raster _ _ (bm.addr fmt x'.toNat y'.toNat).1).getLsbD (bm.addr fmt x'.toNat y'.toNat).2 = _
  by_cases haddr : (bm.addr fmt x'.toNat y'.toNat).1 = (bm.addr fmt x.toNat y.toNat).1
  · rw [haddr, update_self, draw_bit _ _ (addr_bit ..) (addr_bit ..)]
    exact if_congr (by rw [hsame, Prod.ext_iff]; exact ⟨fun h => ⟨haddr, h⟩, And.right⟩) rfl rfl
  · rw [update_of_ne haddr, if_neg fun h => haddr (congrArg Prod.fst (hsame.mp h))]

end Bitmap

open Bitmap

/-- The macro `gfx_clip`: the new `dmin`, `dmax` and `smin`. -/
def gfxClip (dmin dmax smin cmin cmax : ℤ) : ℤ × ℤ × ℤ :=
  if dmin < cmin then (cmin, min dmax cmax, smin + (cmin - dmin)) else (dmin, min dmax cmax, smin)

section
variable (fmt : BitmapFmt) (src : Bitmap)

/-- The inner loop, for `n` pixels. -/
def blitColumn (dx sx : ℤ) : (n : ℕ) → (dy sy : ℤ) → Bitmap → Option Bitmap
  | 0, _, _, dst => some dst
  | n + 1, dy, sy, dst =>
    (src.readPixel fmt sx sy).bind fun v => blitColumn dx sx n (dy + 1) (sy + 1) (dst.drawPixel fmt dx dy v)

/-- The outer loop, for `n` columns of `m` pixels. -/
def blitLoop (m : ℕ) (dy sy : ℤ) : (n : ℕ) → (dx sx : ℤ) → Bitmap → Option Bitmap
  | 0, _, _, dst => some dst
  | n + 1, dx, sx, dst =>
    (blitColumn fmt src dx sx m dy sy dst).bind fun dst => blitLoop m dy sy n (dx + 1) (sx + 1) dst

end

/-- `none` is a read outside the source. -/
def gfxBlit (fmt : BitmapFmt) (dst : Bitmap) (rect : Rect) (src : Bitmap) (srcx srcy : ℤ) : Option Bitmap :=
  let (dxmin, dxmax, srcx) :=
    gfxClip rect.xmin (min rect.xmax (rect.xmin + src.width)) srcx dst.cr.xmin dst.cr.xmax
  let (dymin, dymax, srcy) :=
    gfxClip rect.ymin (min rect.ymax (rect.ymin + src.height)) srcy dst.cr.ymin dst.cr.ymax
  blitLoop fmt src (dymax - dymin).toNat dymin srcy (dxmax - dxmin).toNat dxmin srcx dst

/-- The pixels of `dst` that satisfy `p` are replaced by those of `src`, moved by `(kx, ky)`; the others stay. -/
def Copied (fmt : BitmapFmt) (src dst dst' : Bitmap) (kx ky : ℤ) (p : ℤ → ℤ → Prop) : Prop :=
  dst'.width = dst.width ∧ dst'.height = dst.height ∧ ∀ x y, dst.Inside x y →
    (p x y → dst'.pixel fmt x y = src.pixel fmt (x + kx) (y + ky)) ∧ (¬ p x y → dst'.pixel fmt x y = dst.pixel fmt x y)

section Loops
variable {fmt : BitmapFmt} {src dst dst1 dst2 : Bitmap} {kx ky : ℤ}

theorem Copied.trans {p q r : ℤ → ℤ → Prop} (h : Copied fmt src dst dst1 kx ky p)
    (h' : Copied fmt src dst1 dst2 kx ky q) (hr : ∀ x y, r x y ↔ p x y ∨ q x y) : Copied fmt src dst dst2 kx ky r := by
  refine ⟨h'.1.trans h.1, h'.2.1.trans h.2.1, fun x y hin => ?_⟩
  obtain ⟨hp, hnp⟩ := h.2.2 x y hin
  obtain ⟨hq, hnq⟩ := h'.2.2 x y (by unfold Inside at hin ⊢; rwa [h.1, h.2.1])
  rw [hr]
  by_cases hqx : q x y
  · exact ⟨fun _ => hq hqx, fun hn => absurd (.inr hqx) hn⟩
  · exact ⟨fun hx => (hnq hqx).trans (hp (hx.resolve_right hqx)), fun hn => (hnq hqx).trans
      (hnp fun hx => hn (.inl hx))⟩

/-- A column inside both bitmaps is copied, and nothing else changes. -/
theorem blitColumn_copied (fmt : BitmapFmt) {dx : ℤ} (n : ℕ) (dy : ℤ) (dst : Bitmap)
    (hin : ∀ y, dy ≤ y → y < dy + n → dst.Inside dx y ∧ src.Inside (dx + kx) (y + ky)) :
    ∃ dst', blitColumn fmt src dx (dx + kx) n dy (dy + ky) dst = some dst' ∧
      Copied fmt src dst dst' kx ky fun x y => x = dx ∧ dy ≤ y ∧ y < dy + n := by
  induction n generalizing dy dst with
  | zero => exact ⟨dst, rfl, rfl, rfl, fun x y _ => ⟨fun h => by omega, fun _ => rfl⟩⟩
  | succ n ih =>
    obtain ⟨hd, hs⟩ := hin dy (Int.le_refl dy) (by omega)
    have hdraw : Copied fmt src dst (dst.drawPixel fmt dx dy (src.pixel fmt (dx + kx) (dy + ky))) kx ky
        fun x y => x = dx ∧ y = dy := by
      refine ⟨rfl, rfl, fun x y hxy => ?_⟩
      rw [pixel_draw _ hd hxy]
      exact ⟨fun h => by rw [if_pos h, h.1, h.2], fun h => if_neg h⟩
    obtain ⟨dst', heq, hcopied⟩ := ih (dy + 1) (dst.drawPixel fmt dx dy (src.pixel fmt (dx + kx) (dy + ky)))
      fun y hy hy' => hin y (by omega) (by omega)
    refine ⟨dst', ?_, hdraw.trans hcopied fun x y => by omega⟩
    rw [blitColumn, readPixel, if_pos hs, Option.bind_some, Int.add_right_comm dy ky 1]
    exact heq

theorem blitLoop_copied (fmt : BitmapFmt) (m : ℕ) (dy : ℤ) (n : ℕ) (dx : ℤ) (dst : Bitmap)
    (hin : ∀ x y, dx ≤ x → x < dx + n → dy ≤ y → y < dy + m → dst.Inside x y ∧ src.Inside (x + kx) (y + ky)) :
    ∃ dst', blitLoop fmt src m dy (dy + ky) n dx (dx + kx) dst = some dst' ∧
      Copied fmt src dst dst' kx ky fun x y => (dx ≤ x ∧ x < dx + n) ∧ dy ≤ y ∧ y < dy + m := by
  induction n generalizing dx dst with
  | zero => exact ⟨dst, rfl, rfl, rfl, fun x y _ => ⟨fun h => by omega, fun _ => rfl⟩⟩
  | succ n ih =>
    obtain ⟨dst1, heq1, hcol⟩ := blitColumn_copied fmt m dy dst fun y => hin dx y (Int.le_refl dx) (by omega)
    obtain ⟨dst', heq, hcopied⟩ := ih (dx + 1) dst1 fun x y hx hx' hy hy' => by
      have h := hin x y (by omega) (by omega) hy hy'
      unfold Inside at h ⊢
      rwa [hcol.1, hcol.2.1]
    refine ⟨dst', ?_, hcol.trans hcopied fun x y => by omega⟩
    rw [blitLoop, heq1, Option.bind_some, Int.add_right_comm dx kx 1]
    exact heq

/-- All the pixels that a finished copy has read are inside the source. -/
theorem blitColumn_inside {dx sx : ℤ} {n : ℕ} {dy : ℤ} (h : blitColumn fmt src dx sx n dy (dy + ky) dst = some dst1)
    (y : ℤ) (hy : dy ≤ y ∧ y < dy + n) : src.Inside sx (y + ky) := by
  induction n generalizing dy dst with
  | zero => omega
  | succ n ih =>
    obtain ⟨v, hv, hrest⟩ := Option.bind_eq_some_iff.mp h
    rw [Int.add_right_comm dy ky 1] at hrest
    by_cases he : y = dy
    · unfold readPixel at hv
      split_ifs at hv with hin
      exact he ▸ hin
    · exact ih hrest (by omega)

theorem blitLoop_inside {m n : ℕ} {dx dy : ℤ} (h : blitLoop fmt src m dy (dy + ky) n dx (dx + kx) dst = some dst1)
    (x y : ℤ) (hx : dx ≤ x ∧ x < dx + n) (hy : dy ≤ y ∧ y < dy + m) : src.Inside (x + kx) (y + ky) := by
  induction n generalizing dx dst with
  | zero => omega
  | succ n ih =>
    obtain ⟨dst2, hcol, hrest⟩ := Option.bind_eq_some_iff.mp h
    rw [Int.add_right_comm dx kx 1] at hrest
    by_cases he : x = dx
    · exact he ▸ blitColumn_inside hcol y hy
    · exact ih hrest (by omega)

end Loops

/-- One axis of the copy. -/
theorem gfxClip_range {rmin rmax s cmin cmax dmin dmax smin : ℤ} {w : ℕ}
    (h : gfxClip rmin (min rmax (rmin + w)) s cmin cmax = (dmin, dmax, smin)) : smin = dmin + (s - rmin) ∧
      ∀ d, (dmin ≤ d ∧ d < dmin + (dmax - dmin).toNat) ↔ (cmin ≤ d ∧ d < cmax) ∧ (rmin ≤ d ∧ d < rmax) ∧
      d < rmin + w := by
  unfold gfxClip at h
  split_ifs at h
  all_goals
    simp only [Prod.mk.injEq] at h
    exact ⟨by omega, fun d => by omega⟩

/-- In the clipping rectangle, in the rectangle, and with the source position inside the source. -/
def Visible (dst : Bitmap) (rect : Rect) (src : Bitmap) (srcx srcy x y : ℤ) : Prop :=
  (dst.cr.xmin ≤ x ∧ x < dst.cr.xmax ∧ dst.cr.ymin ≤ y ∧ y < dst.cr.ymax) ∧
    (rect.xmin ≤ x ∧ x < rect.xmax ∧ rect.ymin ≤ y ∧ y < rect.ymax) ∧
      src.Inside (x + (srcx - rect.xmin)) (y + (srcy - rect.ymin))

/-- **The visible part is copied**, and nothing else is read or changed, exactly if there is nothing to copy in one of
the directions, or in both the offset is 0 or the visible part of the rectangle ends before the source. -/
theorem gfxBlit_copied_iff (fmt : BitmapFmt) {dst src : Bitmap} {rect : Rect} {srcx srcy : ℤ} (hclip : dst.Clipped)
    (hx : 0 ≤ srcx) (hy : 0 ≤ srcy) :
    (∃ dst', gfxBlit fmt dst rect src srcx srcy = some dst' ∧
      Copied fmt src dst dst' (srcx - rect.xmin) (srcy - rect.ymin) (Visible dst rect src srcx srcy)) ↔
    min (min rect.xmax (rect.xmin + src.width)) dst.cr.xmax ≤ max rect.xmin dst.cr.xmin ∨
      min (min rect.ymax (rect.ymin + src.height)) dst.cr.ymax ≤ max rect.ymin dst.cr.ymin ∨
      (srcx = 0 ∨ min rect.xmax dst.cr.xmax ≤ rect.xmin + (src.width - srcx)) ∧
        (srcy = 0 ∨ min rect.ymax dst.cr.ymax ≤ rect.ymin + (src.height - srcy)) := by
  obtain ⟨hcx, hcy⟩ := hclip
  unfold gfxBlit
  rcases hrx : gfxClip rect.xmin (min rect.xmax (rect.xmin + src.width)) srcx dst.cr.xmin dst.cr.xmax
    with ⟨dxmin, dxmax, sx⟩
  rcases hry : gfxClip rect.ymin (min rect.ymax (rect.ymin + src.height)) srcy dst.cr.ymin dst.cr.ymax
    with ⟨dymin, dymax, sy⟩
  obtain ⟨rfl, hrangex⟩ := gfxClip_range hrx
  obtain ⟨rfl, hrangey⟩ := gfxClip_range hry
  constructor
  · -- the pixel at the end of both ranges was read
    rintro ⟨dst', heq, -⟩
    by_contra hcon
    obtain ⟨hnx, hny, hend⟩ : _ ∧ _ ∧ _ := by simpa only [not_or] using hcon
    have hlastx := (hrangex (min (min rect.xmax (rect.xmin + src.width)) dst.cr.xmax - 1)).mpr (by omega)
    have hlasty := (hrangey (min (min rect.ymax (rect.ymin + src.height)) dst.cr.ymax - 1)).mpr (by omega)
    have hin := blitLoop_inside heq _ _ hlastx hlasty
    unfold Inside at hin
    omega
  · intro hcond
    have hvisible : ∀ x y, Visible dst rect src srcx srcy x y ↔
        (dxmin ≤ x ∧ x < dxmin + (dxmax - dxmin).toNat) ∧ dymin ≤ y ∧ y < dymin + (dymax - dymin).toNat := by
      intro x y
      rw [hrangex, hrangey]
      unfold Visible Inside
      omega
    obtain ⟨dst', heq, hcopied⟩ := blitLoop_copied fmt (dymax - dymin).toNat dymin (dxmax - dxmin).toNat dxmin dst
      fun x y hx hx' hy hy' => by
        obtain ⟨hc, -, hs⟩ := (hvisible x y).mpr ⟨⟨hx, hx'⟩, hy, hy'⟩
        refine ⟨?_, hs⟩
        unfold Inside
        omega
    refine ⟨dst', heq, ?_⟩
    rwa [funext₂ fun x y => propext (hvisible x y)]

/-- A destination of 4 × 4 pixels, of which the inner four may be drawn to, and a source of 5 × 5 pixels with every
other column set. -/
def clippedBitmap : Bitmap := ⟨fun _ => 0, 4, 4, ⟨1, 1, 3, 3⟩⟩
def stripes : Bitmap := ⟨fun _ => 0x50, 5, 5, ⟨0, 0, 5, 5⟩⟩

/-- Clipped on all sides, with an offset: four pixels are copied, from `(2, 2)` of the source on. -/
theorem gfxBlit_copied_iff_clipped : ∃ dst', gfxBlit .planarHMsb clippedBitmap ⟨0, 0, 4, 4⟩ stripes 1 1 = some dst' ∧
    Copied .planarHMsb stripes clippedBitmap dst' (1 - 0) (1 - 0) (Visible clippedBitmap ⟨0, 0, 4, 4⟩ stripes 1 1) :=
  (gfxBlit_copied_iff .planarHMsb ⟨by decide, by decide⟩ (by decide) (by decide)).mpr (by decide)

/-- A bitmap of one pixel. -/
def onePixel (byte : BitVec 8) : Bitmap := ⟨fun _ => byte, 1, 1, ⟨0, 0, 1, 1⟩⟩

/-- With the offset 1 into a source of one pixel nothing is visible, but the pixel behind it is read. -/
theorem gfxBlit_reads_behind : gfxBlit .planarHMsb (onePixel 0) ⟨0, 0, 1, 1⟩ (onePixel 0x80) 1 0 = none := by
  decide

end Bertos
