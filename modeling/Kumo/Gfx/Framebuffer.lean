import Mathlib.Algebra.Group.Nat.Defs
import Mathlib.Tactic.Common

/-!
# The framebuffer

`g_framebuffer` as the boot loader describes it. The fields that say it is well formed
are what the boot loader promises: a depth that `put_pixel` supports, rows that hold
their pixels, and a buffer that lies in the 32-bit address space.
-/

namespace Kumo

/-- `framebuffer_t`. -/
structure Framebuffer where
  pitch : Nat
  width : Nat
  height : Nat
  bpp : Nat
  redPos : Nat
  redMask : Nat
  greenPos : Nat
  greenMask : Nat
  bluePos : Nat
  blueMask : Nat
  depth : bpp = 16 ∨ bpp = 24 ∨ bpp = 32
  row : width * (bpp / 8) ≤ pitch
  fits : pitch * height ≤ 2 ^ 32

/-- With two rows or more, the width is a positive `int32_t`. -/
theorem Framebuffer.width_lt (f : Framebuffer) (h : 1 < f.height) : f.width < 2 ^ 31 := by
  have hrow : f.width * 2 ≤ f.pitch := by
    refine Nat.le_trans (Nat.mul_le_mul_left _ ?_) f.row
    rcases f.depth with hb | hb | hb <;> rw [hb] <;> decide
  have hall : f.width * 2 * 2 ≤ 2 ^ 32 := by
    refine Nat.le_trans (Nat.mul_le_mul hrow h) f.fits
  omega

/-- With two columns or more, the height is a positive `int32_t`. -/
theorem Framebuffer.height_lt (f : Framebuffer) (h : 1 < f.width) : f.height < 2 ^ 31 := by
  have hrow : 2 * 2 ≤ f.pitch := by
    refine Nat.le_trans (Nat.mul_le_mul h ?_) f.row
    rcases f.depth with hb | hb | hb <;> rw [hb] <;> decide
  have hall : 2 * 2 * f.height ≤ 2 ^ 32 := Nat.le_trans (Nat.mul_le_mul_right _ hrow) f.fits
  omega

/-- A screen of 6 by 4 pixels. -/
def smallScreen : Framebuffer where
  pitch := 24
  width := 6
  height := 4
  bpp := 32
  redPos := 16
  redMask := 8
  greenPos := 8
  greenMask := 8
  bluePos := 0
  blueMask := 8
  depth := by decide
  row := by decide
  fits := by decide

/-- A screen of 1024 by 768 pixels. -/
def sampleScreen : Framebuffer where
  pitch := 4096
  width := 1024
  height := 768
  bpp := 32
  redPos := 16
  redMask := 8
  greenPos := 8
  greenMask := 8
  bluePos := 0
  blueMask := 8
  depth := by decide
  row := by decide
  fits := by decide

end Kumo
