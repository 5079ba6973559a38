import Kumo.Gfx.Paint
import Kumo.Lib.Raster

/-!
# The framebuffer in memory

`put_pixel`, `get_pixel` and `fill_rect` on the bytes of the framebuffer at the address `addr`,
which is a 32-bit pointer. The framebuffer is a raster, whose cells are the pixels, so what is
painted on a `Screen` is what happens to the bytes. `fill_rect` walks along a row with a running
pointer instead of calling `put_pixel`.
-/

namespace Kumo

open Memory

/-- The stores of one pixel, for each depth. -/
def storePixel (bpp : Nat) (m : Memory) (p color : Nat) : Memory :=
  match bpp with
  | 32 => m.storeLow p color 4
  | 24 => m.storeLow p color 3
  | 16 => m.storeLow p color 2
  | _ => m

/-- The inner loop of `fill_rect`, for `n` columns from the pointer `line` on. -/
def fillColumns (bpp color : Nat) : Nat → Memory → Nat → Memory
  | 0, m, _ => m
  | n + 1, m, line => fillColumns bpp color n (storePixel bpp m line color) (add32 line (bpp / 8))

namespace Framebuffer

variable (f : Framebuffer) (addr : Nat)

/-- `put_pixel`. -/
def putPixelAt (m : Memory) (x y color : Nat) : Memory :=
  if f.width ≤ x ∨ f.height ≤ y then m
  else storePixel f.bpp m (add32 addr ((y * f.pitch + x * (f.bpp / 8)) % 2 ^ 32)) color

/-- `get_pixel`. -/
def getPixelAt (m : Memory) (x y : Nat) : Nat :=
  if f.width ≤ x ∨ f.height ≤ y then 0
  else
    let p := add32 addr ((y * f.pitch + x * (f.bpp / 8)) % 2 ^ 32)
    match f.bpp with
    | 32 => m.loadLow p 4
    | 24 => m.loadLow p 3
    | 16 => m.loadLow p 2
    | _ => 0

/-- The outer loop of `fill_rect`, for `n` rows from `row` on, with `cols` columns from `x` on. -/
def fillRows (x cols color : Nat) : Nat → Memory → Nat → Memory
  | 0, m, _ => m
  | n + 1, m, row =>
      let line := add32 (add32 addr (row * f.pitch % 2 ^ 32)) (x * (f.bpp / 8) % 2 ^ 32)
      fillRows x cols color n (fillColumns f.bpp color cols m line) (row + 1)

/-- `fill_rect`. -/
def fillRectAt (m : Memory) (x y w h color : Nat) : Memory :=
  if f.width ≤ x ∨ f.height ≤ y then m
  else
    let x2 := min ((x + w) % 2 ^ 32) f.width
    let y2 := min ((y + h) % 2 ^ 32) f.height
    f.fillRows addr x (x2 - x) color (y2 - y) m y

/-- Write a list of pixels with `put_pixel`, in order. -/
def paintAt (m : Memory) (ps : List Stroke) : Memory :=
  ps.foldl (fun m p => f.putPixelAt addr m p.x p.y p.color) m

/-- The pixels of the framebuffer in memory. -/
def raster : Raster where
  base := addr
  pitch := f.pitch
  width := f.width
  height := f.height
  bytes := f.bpp / 8
  bytes_pos := by rcases f.depth with h | h | h <;> rw [h] <;> decide
  row := f.row
  fits := f.fits

variable {f addr} {m : Memory} {s : Screen} {x y : Nat}

/-! ## Pixels are cells -/

theorem bpp_eq (f : Framebuffer) : 8 * (f.bpp / 8) = f.bpp := by
  rcases f.depth with h | h | h <;> rw [h]

/-- The stores of a pixel are the stores of its bytes. -/
theorem storePixel_eq (f : Framebuffer) (m : Memory) (p color : Nat) :
    storePixel f.bpp m p color = m.storeLow p color (f.bpp / 8) := by
  rcases f.depth with h | h | h <;> rw [h] <;> rfl

/-- Where `put_pixel` and `get_pixel` find a pixel. -/
theorem address_raster (f : Framebuffer) (addr x y : Nat) :
    add32 addr ((y * f.pitch + x * (f.bpp / 8)) % 2 ^ 32) = (f.raster addr).address x y := by
  show add32 addr _ = add32 addr (y * f.pitch + x * (f.bpp / 8))
  unfold add32
  omega

/-- `put_pixel` on the bytes is `put_pixel` on the pixels. -/
theorem putPixelAt_encode (m : Memory) (s : Screen) (x y color : Nat) :
    f.putPixelAt addr ((f.raster addr).encode m s) x y color =
      (f.raster addr).encode m (f.putPixel s ⟨x, y, color⟩) := by
  unfold putPixelAt putPixel
  by_cases hout : f.width ≤ x ∨ f.height ≤ y
  · rw [if_pos hout, if_pos hout]
  · have hv : f.Visible x y := by
      unfold Visible
      omega
    have hstore := Raster.storeLow_encode (r := f.raster addr) hv m s color
    have hbits : 8 * (f.raster addr).bytes = f.bpp := bpp_eq f
    rw [hbits] at hstore
    rw [if_neg hout, if_neg hout, storePixel_eq, address_raster]
    exact hstore

/-- `get_pixel` reads the pixels. -/
theorem getPixelAt_eq (m : Memory) (x y : Nat) :
    f.getPixelAt addr m x y = f.getPixel ((f.raster addr).decode m) x y := by
  unfold getPixelAt getPixel
  by_cases hout : f.width ≤ x ∨ f.height ≤ y
  · rw [if_pos hout, if_pos hout]
  · rw [if_neg hout, if_neg hout]
    dsimp only
    rw [address_raster, Raster.decode]
    show _ = loadLow m _ (f.bpp / 8)
    rcases f.depth with h | h | h <;> rw [h] <;> rfl

/-- Painting the bytes is painting the pixels. -/
theorem paintAt_encode (m : Memory) (s : Screen) (ps : List Stroke) :
    f.paintAt addr ((f.raster addr).encode m s) ps =
      (f.raster addr).encode m (f.paint s ps) := by
  induction ps generalizing s with
  | nil => rfl
  | cons p ps ih =>
      rw [paint_cons, ← ih]
      exact congrArg (f.paintAt addr · ps) (putPixelAt_encode m s p.x p.y p.color)

/-- The bytes after painting. -/
theorem paintAt_eq (m : Memory) (ps : List Stroke) :
    f.paintAt addr m ps = (f.raster addr).encode m (f.paint ((f.raster addr).decode m) ps) := by
  rw [← paintAt_encode, Raster.encode_decode]

/-! ## The running pointer -/

/-- `put_pixel` on the screen. -/
theorem putPixelAt_visible (hv : f.Visible x y) (m : Memory) (color : Nat) :
    f.putPixelAt addr m x y color = storePixel f.bpp m ((f.raster addr).address x y) color := by
  rw [putPixelAt, address_raster]
  exact if_neg (show ¬ (f.width ≤ x ∨ f.height ≤ y) by unfold Visible at hv; omega)

/-- The inner loop writes the pixels of a row from `x` on. -/
theorem fillColumns_eq (color : Nat) {n : Nat} (hx : x + n ≤ f.width) (hy : y < f.height)
    (m : Memory) :
    fillColumns f.bpp color n m ((f.raster addr).address x y) =
      f.paintAt addr m ((List.range' x n).map fun col => ⟨col, y, color⟩) := by
  induction n generalizing x m with
  | zero => rfl
  | succ n ih =>
      have hnext : add32 ((f.raster addr).address x y) (f.bpp / 8) =
          (f.raster addr).address (x + 1) y := by
        rw [Raster.address, Raster.address, add32_add, Raster.offset, Raster.offset, Nat.succ_mul,
          Nat.add_assoc]
        rfl
      rw [fillColumns, hnext, ih (by omega), ← putPixelAt_visible ⟨by omega, hy⟩]
      rfl

/-- The outer loop writes the rows from `y` on. -/
theorem fillRows_eq (color : Nat) {cols n : Nat} (hx : x + cols ≤ f.width)
    (hy : y + n ≤ f.height) (m : Memory) :
    f.fillRows addr x cols color n m y =
      f.paintAt addr m ((List.range' y n).flatMap fun row =>
        (List.range' x cols).map fun col => ⟨col, row, color⟩) := by
  induction n generalizing y m with
  | zero => rfl
  | succ n ih =>
      have hline : add32 (add32 addr (y * f.pitch % 2 ^ 32)) (x * (f.bpp / 8) % 2 ^ 32) =
          (f.raster addr).address x y := by
        rw [← address_raster]
        unfold add32
        omega
      rw [fillRows, hline, fillColumns_eq color hx (by omega), ih (by omega), List.range'_succ,
        List.flatMap_cons, paintAt, paintAt, paintAt, List.foldl_append]

/-- `fill_rect` is `put_pixel` on its pixels, row by row. -/
theorem fillRectAt_eq (m : Memory) (x y w h color : Nat) :
    f.fillRectAt addr m x y w h color = f.paintAt addr m (f.fillRect x y w h color) := by
  unfold fillRectAt fillRect
  split
  · rfl
  · next hout => exact fillRows_eq color (by omega) (by omega) m

end Framebuffer

/-- The fast fill equals the plain one: `fill_rect` leaves the memory that `put_pixel` on every
position of the rectangle leaves, in any order, and touches no byte outside the rows of the
framebuffer. -/
theorem fill_rect_eq_put_pixel (f : Framebuffer) (addr : Nat) (m : Memory) {x y w h : Nat}
    (color : Nat) (hw : x + w < 2 ^ 32) (hh : y + h < 2 ^ 32) :
    (∀ ps : List (Nat × Nat), (∀ col row, (col, row) ∈ ps ↔
        (x ≤ col ∧ col < x + w) ∧ y ≤ row ∧ row < y + h) →
      f.fillRectAt addr m x y w h color =
        ps.foldl (fun m p => f.putPixelAt addr m p.1 p.2 color) m) ∧
      ∀ a, (∀ i < f.pitch * f.height, a ≠ add32 addr i) →
        f.fillRectAt addr m x y w h color a = m a := by
  rw [Framebuffer.fillRectAt_eq, Framebuffer.paintAt_eq]
  refine ⟨fun ps hps => ?_, fun a ha => ?_⟩
  · have hfold : ps.foldl (fun m p => f.putPixelAt addr m p.1 p.2 color) m =
        f.paintAt addr m (ps.map fun p => ⟨p.1, p.2, color⟩) := by
      rw [Framebuffer.paintAt, List.foldl_map]
    rw [hfold, Framebuffer.paintAt_eq]
    refine Raster.encode_congr fun px py hv => ?_
    refine Framebuffer.paint_same_pixels color hv
      (fun p hp => ((Framebuffer.mem_fillRect_iff hw hh).mp hp).1) (fun p hp => ?_) ?_ _
    · obtain ⟨q, -, rfl⟩ := List.mem_map.mp hp
      rfl
    · have hin : px < f.width ∧ py < f.height := hv
      constructor
      · rintro ⟨p, hp, rfl, rfl⟩
        have hfill := (Framebuffer.mem_fillRect_iff hw hh).mp hp
        exact ⟨⟨p.x, p.y, color⟩, List.mem_map.mpr
          ⟨(p.x, p.y), (hps _ _).mpr ⟨by omega, by omega⟩, rfl⟩, rfl, rfl⟩
      · rintro ⟨p, hp, rfl, rfl⟩
        obtain ⟨q, hq, rfl⟩ := List.mem_map.mp hp
        have hrect := (hps _ _).mp hq
        refine ⟨⟨q.1, q.2, color⟩, (Framebuffer.mem_fillRect_iff hw hh).mpr ?_, rfl, rfl⟩
        dsimp only at hin ⊢
        omega
  · exact Raster.encode_outside (Raster.cellAt_outside ha)

/-- A rectangle that is cut off at the right and at the bottom of the screen. -/
theorem fill_rect_eq_put_pixel_sample :
    (4 + 3 < 2 ^ 32 ∧ 3 + 2 < 2 ^ 32) ∧
      smallScreen.fillRectAt 4096 (fun _ => 0) 4 3 3 2 255 =
        [(4, 3), (5, 3), (6, 3), (4, 4), (5, 4), (6, 4)].foldl
          (fun m p => smallScreen.putPixelAt 4096 m p.1 p.2 255) (fun _ => 0) := by
  have hpositions : ∀ col row, (col, row) ∈ [(4, 3), (5, 3), (6, 3), (4, 4), (5, 4), (6, 4)] ↔
      (4 ≤ col ∧ col < 4 + 3) ∧ 3 ≤ row ∧ row < 3 + 2 := by
    intro col row
    simp only [List.mem_cons, Prod.mk.injEq, List.not_mem_nil, or_false]
    omega
  exact ⟨by decide, (fill_rect_eq_put_pixel smallScreen 4096 (fun _ => 0) 255 (by decide)
    (by decide)).1 _ hpositions⟩

end Kumo
