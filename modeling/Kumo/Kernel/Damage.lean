import Kumo.Kernel.WindowRuns
import Kumo.Lib.IntBox

/-!
# Damage tracking

The mouse interrupt marks rectangles as dirty while the idle loop takes them over and
repaints them. `markDirty` clips a rectangle to the screen and merges it into
`g_dirty`; over any interleaving `g_dirty` is the bounding box of what was marked since
it was last taken over.
-/

namespace Kumo

namespace Dirty

/-- The pixels of a dirty rectangle. -/
def box (r : Dirty) : IntBox := ⟨r.x, r.x + r.w, r.y, r.y + r.h⟩

end Dirty

namespace Framebuffer

/-- The pixels of the screen. -/
def box (f : Framebuffer) : IntBox := ⟨0, f.width, 0, f.height⟩

end Framebuffer

namespace Desktop

variable {f : Framebuffer}

/-- Clipping one axis yields the part of `[x, x + w)` in `[0, limit)`. -/
theorem clipAxis_eq {limit w : Nat} {x : Int} (hlimit : limit < 2 ^ 30) (hw : w ≤ 2 ^ 30)
    (hlo : -2 ^ 31 ≤ x) (hhi : x < 2 ^ 31) (hpos : 0 < w) :
    clipAxis limit x w =
      if max x 0 < min (x + w) limit then
        some (max x 0, (min (x + w) limit - max x 0).toNat) else none := by
  unfold clipAxis
  by_cases hneg : x < 0
  · have hword : word (-x) = (-x).toNat := by
      unfold word
      omega
    have hzero : word 0 = 0 := rfl
    rw [if_pos hneg, hword]
    by_cases hout : w ≤ (-x).toNat
    · rw [if_pos hout, if_neg (by omega)]
      rfl
    · rw [if_neg hout]
      simp only [Option.bind_some, hzero]
      by_cases hempty : limit ≤ 0
      · rw [if_pos hempty, if_neg (by omega)]
      · rw [if_neg hempty, Nat.mod_eq_of_lt (by omega),
          if_pos (show max x 0 < min (x + w) limit by omega)]
        refine congrArg some (Prod.ext (by dsimp only; omega) ?_)
        dsimp only
        split <;> omega
  · have hword : word x = x.toNat := by
      unfold word
      omega
    rw [if_neg hneg]
    simp only [Option.bind_some, hword]
    by_cases hout : limit ≤ x.toNat
    · rw [if_pos hout, if_neg (by omega)]
    · rw [if_neg hout, Nat.mod_eq_of_lt (by omega),
        if_pos (show max x 0 < min (x + w) limit by omega)]
      refine congrArg some (Prod.ext (by dsimp only; omega) ?_)
      dsimp only
      split <;> omega

/-- Merging one axis yields the interval around both. -/
theorem mergeAxis_eq {dx x : Int} {dw w : Nat} (hdx : 0 ≤ dx) (hdw : dx + dw < 2 ^ 30)
    (hx : 0 ≤ x) (hw : x + w < 2 ^ 30) :
    mergeAxis dx dw x w = (min dx x, (max (dx + dw) (x + w) - min dx x).toNat) := by
  have h1 : wrap32 (dw : Int) = dw := wrap32_eq (by omega) (by omega)
  have h2 : wrap32 (w : Int) = w := wrap32_eq (by omega) (by omega)
  have h3 : wrap32 (dx + dw) = dx + dw := wrap32_eq (by omega) (by omega)
  have h4 : wrap32 (x + w) = x + w := wrap32_eq (by omega) (by omega)
  unfold mergeAxis
  rw [h1, h2, h3, h4]
  have hleft : (if x < dx then x else dx) = min dx x := by
    split <;> omega
  have hright : (if dx + dw < x + w then x + w else dx + dw) = max (dx + (dw : Int)) (x + w) := by
    split <;> omega
  dsimp only
  rw [hleft, hright]
  refine Prod.ext rfl ?_
  dsimp only
  unfold word
  omega

/-- The far edge of an interval given by its near edge and its length. -/
theorem add_length {a b : Int} (h : a ≤ b) : a + ((b - a).toNat : Int) = b := by
  omega

/-- A rectangle given by its origin and its size. -/
def rect (x y : Int) (w h : Nat) : IntBox := ⟨x, x + w, y, y + h⟩

/-- A dirty rectangle is on the screen and has pixels. -/
def OnScreen (f : Framebuffer) (b : IntBox) : Prop := b ≤ f.box ∧ b.Nonempty

/-- `wm_mark_dirty` extends the dirty rectangle by the part of a rectangle that is on the screen. -/
theorem markDirty_spec (hfw : f.width < 2 ^ 30) (hfh : f.height < 2 ^ 30) {dirty : Dirty}
    (hdirty : dirty.valid = true → OnScreen f dirty.box) {x y : Int} {w h : Nat}
    (hx : -2 ^ 31 ≤ x ∧ x < 2 ^ 31) (hy : -2 ^ 31 ≤ y ∧ y < 2 ^ 31) (hw : w ≤ 2 ^ 30)
    (hh : h ≤ 2 ^ 30) :
    (¬ ((rect x y w h).clip f.box).Nonempty → markDirty f dirty x y w h = dirty) ∧
      (((rect x y w h).clip f.box).Nonempty →
        (markDirty f dirty x y w h).valid = true ∧
          (markDirty f dirty x y w h).box =
            if dirty.valid = true then dirty.box ⊔ (rect x y w h).clip f.box
            else (rect x y w h).clip f.box) := by
  have hclip : (rect x y w h).clip f.box = ⟨max x 0, min (x + w) f.width, max y 0,
      min (y + h) f.height⟩ := rfl
  have hnonempty : ((rect x y w h).clip f.box).Nonempty ↔
      max x 0 < min (x + w) f.width ∧ max y 0 < min (y + h) f.height := Iff.rfl
  rw [hnonempty, hclip]
  unfold markDirty
  by_cases hzero : w = 0 ∨ h = 0
  · rw [if_pos hzero]
    exact ⟨fun _ => rfl, fun hne => by omega⟩
  rw [if_neg hzero, clipAxis_eq hfw hw hx.1 hx.2 (by omega), clipAxis_eq hfh hh hy.1 hy.2 (by omega)]
  by_cases hleft : max x 0 < min (x + w) f.width
  · rw [if_pos hleft]
    by_cases htop : max y 0 < min (y + h) f.height
    · rw [if_pos htop]
      refine ⟨fun hno => absurd ⟨hleft, htop⟩ hno, fun _ => ?_⟩
      dsimp only
      rw [if_neg (by omega)]
      by_cases hvalid : dirty.valid = true
      · obtain ⟨⟨e1, e2, e3, e4⟩, e5, e6⟩ := hdirty hvalid
        simp only [Dirty.box, Framebuffer.box] at e1 e2 e3 e4 e5 e6
        rw [hvalid, if_neg (by decide), if_pos rfl, mergeAxis_eq e1 (by omega) (by omega) (by omega),
          mergeAxis_eq e3 (by omega) (by omega) (by omega)]
        refine ⟨rfl, ?_⟩
        simp only [Dirty.box, IntBox.sup_def]
        rw [add_length hleft.le, add_length htop.le, add_length (by omega), add_length (by omega)]
      · rw [if_neg hvalid, if_pos (by simpa using hvalid)]
        refine ⟨rfl, ?_⟩
        simp only [Dirty.box]
        rw [add_length hleft.le, add_length htop.le]
    · rw [if_neg htop]
      exact ⟨fun _ => rfl, fun hboth => absurd hboth.2 htop⟩
  · rw [if_neg hleft]
    exact ⟨fun _ => rfl, fun hboth => absurd hboth.1 hleft⟩

end Desktop

end Kumo
