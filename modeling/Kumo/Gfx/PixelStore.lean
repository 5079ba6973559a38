import Kumo.Gfx.VideoMemory

/-!
# The laws of a pixel

`get_pixel` reads what `put_pixel` wrote, as far as the depth holds it, and no store to a pixel is
seen at another one. Both access the bytes of their pixel only, all of them in the framebuffer.
-/

namespace Kumo

open Memory

namespace Framebuffer

/-- The addresses of the bytes that `put_pixel` stores and `get_pixel` loads. -/
def pixelAccesses (f : Framebuffer) (addr x y : Nat) : List Nat :=
  if f.width ≤ x ∨ f.height ≤ y then []
  else
    let p := add32 addr ((y * f.pitch + x * (f.bpp / 8)) % 2 ^ 32)
    match f.bpp with
    | 32 => (List.range 4).map (add32 p)
    | 24 => (List.range 3).map (add32 p)
    | 16 => (List.range 2).map (add32 p)
    | _ => []

variable {f : Framebuffer} {addr x y px py : Nat} {m : Memory}

/-- On the screen these are the bytes of a cell. -/
theorem pixelAccesses_visible (hv : f.Visible x y) :
    f.pixelAccesses addr x y =
      (List.range (f.bpp / 8)).map (add32 ((f.raster addr).address x y)) := by
  rw [pixelAccesses, address_raster,
    if_neg (show ¬ (f.width ≤ x ∨ f.height ≤ y) by unfold Visible at hv; omega)]
  rcases f.depth with h | h | h <;> rw [h] <;> rfl

theorem pixelAccesses_hidden (hv : ¬ f.Visible x y) : f.pixelAccesses addr x y = [] :=
  if_pos (by unfold Visible at hv; omega)

theorem putPixelAt_hidden (hv : ¬ f.Visible x y) (m : Memory) (color : Nat) :
    f.putPixelAt addr m x y color = m :=
  if_pos (by unfold Visible at hv; omega)

/-- On the screen `get_pixel` reads a cell. -/
theorem getPixelAt_visible (hv : f.Visible x y) (m : Memory) :
    f.getPixelAt addr m x y = (f.raster addr).decode m x y := by
  rw [getPixelAt_eq]
  exact if_neg (show ¬ (f.width ≤ x ∨ f.height ≤ y) by unfold Visible at hv; omega)

theorem getPixelAt_hidden (hv : ¬ f.Visible x y) (m : Memory) : f.getPixelAt addr m x y = 0 :=
  if_pos (by unfold Visible at hv; omega)

/-- `get_pixel` reads a value of the depth. -/
theorem decode_lt (f : Framebuffer) (addr : Nat) (m : Memory) (x y : Nat) :
    (f.raster addr).decode m x y < 2 ^ f.bpp := by
  have hlt := loadLow_lt m ((f.raster addr).address x y) (f.bpp / 8)
  rwa [bpp_eq] at hlt

/-- What `get_pixel` reads after `put_pixel`. -/
theorem getPixelAt_putPixelAt (hv : f.Visible px py) (m : Memory) (x y color : Nat) :
    f.getPixelAt addr (f.putPixelAt addr m x y color) px py =
      f.putPixel ((f.raster addr).decode m) ⟨x, y, color⟩ px py % 2 ^ f.bpp := by
  have hput : f.putPixelAt addr m x y color =
      (f.raster addr).encode m (f.putPixel ((f.raster addr).decode m) ⟨x, y, color⟩) := by
    rw [← putPixelAt_encode, Raster.encode_decode]
  have hbits : 8 * (f.raster addr).bytes = f.bpp := bpp_eq f
  rw [hput, getPixelAt_visible hv,
    Raster.decode_encode (r := f.raster addr) hv, hbits]

end Framebuffer

open Framebuffer

/-- The laws of `put_pixel` and `get_pixel`. -/
theorem pixel_store_laws (f : Framebuffer) (addr : Nat) (m : Memory) (x y color : Nat) :
    (f.Visible x y →
      f.getPixelAt addr (f.putPixelAt addr m x y color) x y = color % 2 ^ f.bpp) ∧
    (∀ px py, f.Visible px py → (px, py) ≠ (x, y) →
      f.getPixelAt addr (f.putPixelAt addr m x y color) px py = f.getPixelAt addr m px py) ∧
    (¬ f.Visible x y → f.putPixelAt addr m x y color = m) ∧
    (∀ a ∈ f.pixelAccesses addr x y, ∃ i < f.height * f.pitch, a = add32 addr i) ∧
    (∀ a, a ∉ f.pixelAccesses addr x y → f.putPixelAt addr m x y color a = m a) ∧
    ∀ m', (∀ a ∈ f.pixelAccesses addr x y, m' a = m a) →
      f.getPixelAt addr m' x y = f.getPixelAt addr m x y := by
  refine ⟨fun hv => ?_, fun px py hv hne => ?_, fun hv => putPixelAt_hidden hv m color,
    fun a ha => ?_, fun a ha => ?_, fun m' hsame => ?_⟩
  · rw [getPixelAt_putPixelAt hv, putPixel_same _ _ hv, Nat.mod_mod]
  · have hother : f.Visible px py → ¬ (x = px ∧ y = py) := by
      rintro - ⟨rfl, rfl⟩
      exact hne rfl
    rw [getPixelAt_putPixelAt hv, putPixel_other _ _ hother, Nat.mod_eq_of_lt (decode_lt ..),
      getPixelAt_visible hv]
  · by_cases hv : f.Visible x y
    · rw [pixelAccesses_visible hv] at ha
      obtain ⟨k, hk, rfl⟩ := List.mem_map.mp ha
      have hin := Raster.offset_lt (r := f.raster addr) hv (List.mem_range.mp hk)
      rw [Nat.mul_comm] at hin
      exact ⟨_, hin, add32_add ..⟩
    · rw [pixelAccesses_hidden hv] at ha
      cases ha
  · by_cases hv : f.Visible x y
    · rw [pixelAccesses_visible hv] at ha
      have hsize : f.bpp / 8 ≤ 2 ^ 32 := Raster.bytes_le (r := f.raster addr) hv
      rw [putPixelAt_visible hv, storePixel_eq, storeLow_apply hsize]
      refine if_neg fun ⟨hlt, hdist⟩ => ha (List.mem_map.mpr ⟨_, List.mem_range.mpr hdist, ?_⟩)
      exact (add32_eq_iff (by omega)).mpr ⟨hlt, rfl⟩
    · rw [putPixelAt_hidden hv]
  · by_cases hv : f.Visible x y
    · rw [pixelAccesses_visible hv] at hsame
      rw [getPixelAt_visible hv, getPixelAt_visible hv]
      exact loadLow_congr fun k hk => hsame _ (List.mem_map.mpr ⟨k, List.mem_range.mpr hk, rfl⟩)
    · rw [getPixelAt_hidden hv, getPixelAt_hidden hv]

end Kumo
