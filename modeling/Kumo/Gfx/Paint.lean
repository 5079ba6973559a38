import Kumo.Gfx.Primitives

/-!
# What painting does to a pixel

A list of strokes acts on each pixel by itself. A pixel that no stroke hits is
unchanged, and one that only strokes of one colour hit takes that colour. The outlines
that `draw_rect` draws are horizontal and vertical lines.
-/

namespace Kumo

namespace Framebuffer

variable (f : Framebuffer)

/-- A position is on the screen. -/
def Visible (x y : Nat) : Prop := x < f.width ∧ y < f.height

instance (x y : Nat) : Decidable (f.Visible x y) := inferInstanceAs (Decidable (_ ∧ _))

/-- The screen holds values of `bpp` bits. -/
def Stored (s : Screen) : Prop := ∀ x y, f.Visible x y → s x y < 2 ^ f.bpp

variable {f}

/-- A stroke at the position, on the screen. -/
theorem putPixel_same (s : Screen) (color : Nat) {x y : Nat} (h : f.Visible x y) :
    f.putPixel s ⟨x, y, color⟩ x y = color % 2 ^ f.bpp := by
  unfold putPixel
  rw [if_neg (show ¬ (f.width ≤ x ∨ f.height ≤ y) by unfold Visible at h; omega),
    Function.update_self, Function.update_self]

/-- A stroke elsewhere, or off the screen. -/
theorem putPixel_other (s : Screen) (p : Stroke) {x y : Nat}
    (h : f.Visible x y → ¬ (p.x = x ∧ p.y = y)) : f.putPixel s p x y = s x y := by
  unfold putPixel
  split
  · rfl
  · next hin =>
      by_cases hx : x = p.x
      · subst hx
        rw [Function.update_self, Function.update_of_ne]
        rintro rfl
        exact h (by unfold Visible; omega) ⟨rfl, rfl⟩
      · rw [Function.update_of_ne hx]

theorem paint_cons (s : Screen) (p : Stroke) (ps : List Stroke) :
    f.paint s (p :: ps) = f.paint (f.putPixel s p) ps := rfl

theorem paint_append (s : Screen) (ps qs : List Stroke) :
    f.paint s (ps ++ qs) = f.paint (f.paint s ps) qs := List.foldl_append

/-- A pixel that no stroke hits keeps its value. -/
theorem paint_other {s : Screen} {ps : List Stroke} {x y : Nat}
    (h : f.Visible x y → ∀ p ∈ ps, ¬ (p.x = x ∧ p.y = y)) : f.paint s ps x y = s x y := by
  induction ps generalizing s with
  | nil => rfl
  | cons p ps ih =>
      rw [paint_cons, ih fun hv q hq => h hv q (List.mem_cons_of_mem _ hq)]
      exact putPixel_other s p fun hv => h hv p (List.mem_cons_self ..)

/-- What a pixel becomes depends on its own value only. -/
theorem paint_congr {s s' : Screen} {x y : Nat} (h : s x y = s' x y) (ps : List Stroke) :
    f.paint s ps x y = f.paint s' ps x y := by
  induction ps generalizing s s' with
  | nil => exact h
  | cons p ps ih =>
      rw [paint_cons, paint_cons]
      refine ih ?_
      by_cases hhit : f.Visible x y ∧ p.x = x ∧ p.y = y
      · obtain ⟨hv, rfl, rfl⟩ := hhit
        exact (putPixel_same s p.color hv).trans (putPixel_same s' p.color hv).symm
      · have hmiss : f.Visible x y → ¬ (p.x = x ∧ p.y = y) := fun hv hp => hhit ⟨hv, hp⟩
        rw [putPixel_other s p hmiss, putPixel_other s' p hmiss, h]

/-- What a pixel that is hit becomes does not depend on its value. -/
theorem paint_hit {s s' : Screen} {ps : List Stroke} {x y : Nat} (hv : f.Visible x y)
    (hhit : ∃ p ∈ ps, p.x = x ∧ p.y = y) : f.paint s ps x y = f.paint s' ps x y := by
  induction ps generalizing s s' with
  | nil => exact absurd hhit (by simp)
  | cons p ps ih =>
      rw [paint_cons, paint_cons]
      by_cases hp : p.x = x ∧ p.y = y
      · obtain ⟨rfl, rfl⟩ := hp
        exact paint_congr ((putPixel_same s p.color hv).trans (putPixel_same s' p.color hv).symm) ps
      · obtain ⟨q, hq, hpos⟩ := hhit
        rcases List.mem_cons.mp hq with rfl | hq
        · exact absurd hpos hp
        · exact ih ⟨q, hq, hpos⟩

/-- A pixel that is hit, by strokes of one colour only, takes that colour. -/
theorem paint_uniform {s : Screen} {ps : List Stroke} {x y color : Nat} (hv : f.Visible x y)
    (hhit : ∃ p ∈ ps, p.x = x ∧ p.y = y)
    (hcolor : ∀ p ∈ ps, p.x = x → p.y = y → p.color = color) :
    f.paint s ps x y = color % 2 ^ f.bpp := by
  induction ps generalizing s with
  | nil => exact absurd hhit (by simp)
  | cons p ps ih =>
      have hrest : ∀ q ∈ ps, q.x = x → q.y = y → q.color = color :=
        fun q hq => hcolor q (List.mem_cons_of_mem _ hq)
      rw [paint_cons]
      by_cases hlater : ∃ q ∈ ps, q.x = x ∧ q.y = y
      · exact ih hlater hrest
      · obtain ⟨q, hq, rfl, rfl⟩ := hhit
        rcases List.mem_cons.mp hq with rfl | hq
        · rw [paint_other fun _ r hr hpos => hlater ⟨r, hr, hpos⟩,
            ← hcolor q (List.mem_cons_self ..) rfl rfl]
          exact putPixel_same s q.color hv
        · exact absurd ⟨q, hq, rfl, rfl⟩ hlater

/-- Strokes of one colour that hit the same pixels paint the same. -/
theorem paint_same_pixels (color : Nat) {ps qs : List Stroke} {x y : Nat} (hv : f.Visible x y)
    (hps : ∀ p ∈ ps, p.color = color) (hqs : ∀ p ∈ qs, p.color = color)
    (hsame : (∃ p ∈ ps, p.x = x ∧ p.y = y) ↔ ∃ p ∈ qs, p.x = x ∧ p.y = y) (s : Screen) :
    f.paint s ps x y = f.paint s qs x y := by
  by_cases hhit : ∃ p ∈ ps, p.x = x ∧ p.y = y
  · rw [paint_uniform hv hhit fun p hp _ _ => hps p hp,
      paint_uniform hv (hsame.mp hhit) fun p hp _ _ => hqs p hp]
  · have hmiss : ¬ ∃ p ∈ qs, p.x = x ∧ p.y = y := fun h => hhit (hsame.mpr h)
    rw [paint_other fun _ p hp hpos => hhit ⟨p, hp, hpos⟩,
      paint_other fun _ p hp hpos => hmiss ⟨p, hp, hpos⟩]

/-- Painting keeps values of `bpp` bits. -/
theorem stored_paint {s : Screen} (h : f.Stored s) (ps : List Stroke) :
    f.Stored (f.paint s ps) := by
  induction ps generalizing s with
  | nil => exact h
  | cons p ps ih =>
      refine ih fun x y hv => ?_
      by_cases hhit : p.x = x ∧ p.y = y
      · obtain ⟨rfl, rfl⟩ := hhit
        rw [putPixel_same s p.color hv]
        exact Nat.mod_lt _ (Nat.two_pow_pos _)
      · rw [putPixel_other s p fun _ => hhit]
        exact h x y hv

/-! ## Lines along an axis -/

/-- The loop of `draw_line` without a slope visits only points between its end points. -/
theorem mem_lineLoop {limA limB : Nat} {plot : Nat → Nat → Stroke} {a0 da sa sb b err : Int}
    {n : Nat} (herr : 0 ≤ err ∧ err < 2 ^ 31) {fuel k : Nat} (hk : k ≤ n) {p : Stroke}
    (hp : p ∈ lineLoop limA limB plot (wrap32 (a0 + sa * n)) da 0 sa sb fuel
      (wrap32 (a0 + sa * k)) b err) :
    ∃ j : Nat, j ≤ n ∧ p = plot (word (a0 + sa * j)) (word b) := by
  induction fuel generalizing k with
  | zero => cases hp
  | succ fuel ih =>
      have hword : word (wrap32 (a0 + sa * k)) = word (a0 + sa * k) := by
        unfold word wrap32
        omega
      rw [lineLoop] at hp
      split at hp
      · cases hp
      · rcases List.mem_cons.mp hp with rfl | hp
        · exact ⟨k, hk, by rw [hword]⟩
        · split at hp
          · cases hp
          · next hne =>
              have hlt : k < n := by
                refine Nat.lt_of_le_of_ne hk ?_
                rintro rfl
                exact hne rfl
              have hsame : wrap32 (err - 0) = err := by
                rw [Int.sub_zero]
                exact wrap32_eq (by omega) herr.2
              have hnext : wrap32 (wrap32 (a0 + sa * k) + sa) = wrap32 (a0 + sa * (k + 1 : Nat)) := by
                have hmul : sa * ((k + 1 : Nat) : Int) = sa * k + sa := by
                  rw [Int.natCast_add, Int.mul_add]
                  simp
                rw [hmul]
                unfold wrap32
                omega
              dsimp only at hp
              rw [hsame, if_neg (by omega), hnext] at hp
              exact ih hlt hp

/-- The difference of two coordinates that are `n` apart, its sign and its absolute value, as
`draw_line` computes them. -/
theorem line_delta (x : Int) {sa : Int} {n : Nat} (hn : 0 < n ∧ n < 2 ^ 31)
    (hsa : sa = 1 ∨ sa = -1) :
    wrap32 (wrap32 (x + sa * n) - wrap32 x) = sa * n ∧ (sa * n).sign = sa ∧
      (if sa * n < 0 then wrap32 (-(sa * n)) else sa * n) = n := by
  have hsign : ((n : Int)).sign = 1 := Int.sign_eq_one_of_pos (by omega)
  refine ⟨?_, ?_, ?_⟩
  · rcases hsa with rfl | rfl <;> unfold wrap32 <;> omega
  · rw [Int.sign_mul, hsign]
    rcases hsa with rfl | rfl <;> rfl
  · rcases hsa with rfl | rfl
    · rw [if_neg (by omega)]
      omega
    · rw [if_pos (by omega), wrap32_eq (by omega) (by omega)]
      omega

/-- A horizontal line of `n` pixels to the right or to the left. -/
theorem mem_drawLine_horizontal {x y sa : Int} {n color : Nat} (hn : 0 < n ∧ n < 2 ^ 31)
    (hsa : sa = 1 ∨ sa = -1) {p : Stroke}
    (hp : p ∈ f.drawLine (word x) (word y) (word (x + sa * n)) (word y) color) :
    ∃ j : Nat, j ≤ n ∧ p.x = word (x + sa * j) ∧ p.y = word y := by
  obtain ⟨hdelta, hsign, habs⟩ := line_delta x hn hsa
  have hzero : wrap32 (0 : Int) = 0 := rfl
  have hflat : (if (0 : Int) < 0 then wrap32 (-0) else 0) = 0 := rfl
  have hstart : wrap32 x = wrap32 (x + sa * (0 : Nat)) := by simp
  unfold drawLine at hp
  dsimp only at hp
  rw [wrap32_word, wrap32_word, wrap32_word, hdelta, Int.sub_self, hzero, habs, hflat,
    if_pos (show (0 : Int) ≤ n by omega), hsign, hstart] at hp
  obtain ⟨j, hj, rfl⟩ := mem_lineLoop (by
    rw [Int.tdiv_eq_ediv_of_nonneg (by omega)]
    omega) (Nat.zero_le n) hp
  exact ⟨j, hj, rfl, word_wrap32 y⟩

/-- A vertical line of `n` pixels downwards or upwards. -/
theorem mem_drawLine_vertical {x y sa : Int} {n color : Nat} (hn : 0 < n ∧ n < 2 ^ 31)
    (hsa : sa = 1 ∨ sa = -1) {p : Stroke}
    (hp : p ∈ f.drawLine (word x) (word y) (word x) (word (y + sa * n)) color) :
    ∃ j : Nat, j ≤ n ∧ p.x = word x ∧ p.y = word (y + sa * j) := by
  obtain ⟨hdelta, hsign, habs⟩ := line_delta y hn hsa
  have hzero : wrap32 (0 : Int) = 0 := rfl
  have hflat : (if (0 : Int) < 0 then wrap32 (-0) else 0) = 0 := rfl
  have hstart : wrap32 y = wrap32 (y + sa * (0 : Nat)) := by simp
  unfold drawLine at hp
  dsimp only at hp
  rw [wrap32_word, wrap32_word, wrap32_word, hdelta, Int.sub_self, hzero, habs, hflat,
    if_neg (show ¬ (n : Int) ≤ 0 by omega), hsign, hstart] at hp
  obtain ⟨j, hj, rfl⟩ := mem_lineLoop (by
    rw [Int.tdiv_eq_ediv_of_nonneg (by omega)]
    omega) (Nat.zero_le n) hp
  exact ⟨j, hj, word_wrap32 x, rfl⟩

/-- The outline of a rectangle lies on its four sides. -/
theorem mem_drawRect {x y : Int} {w h color : Nat} (hw : 0 < w ∧ w < 2 ^ 31)
    (hh : 0 < h ∧ h < 2 ^ 31) {p : Stroke}
    (hp : p ∈ f.drawRect (word x) (word y) w h color) :
    ∃ i j : Nat, i ≤ w ∧ j ≤ h ∧ p.x = word (x + i) ∧ p.y = word (y + j) := by
  have hx2 : (word x + w) % 2 ^ 32 = word (x + 1 * w) := by
    unfold word
    omega
  have hy2 : (word y + h) % 2 ^ 32 = word (y + 1 * h) := by
    unfold word
    omega
  have hx1 : word x = word (x + 1 * w + -1 * w) := congrArg word (by omega)
  have hy1 : word y = word (y + 1 * h + -1 * h) := congrArg word (by omega)
  unfold drawRect at hp
  dsimp only at hp
  rw [hx2, hy2, List.mem_append, List.mem_append, List.mem_append] at hp
  rcases hp with ((hp | hp) | hp) | hp
  · obtain ⟨j, hj, hpx, hpy⟩ := mem_drawLine_horizontal hw (.inl rfl) hp
    exact ⟨j, 0, hj, Nat.zero_le h, by rw [hpx, Int.one_mul], by rw [hpy]; simp⟩
  · obtain ⟨j, hj, hpx, hpy⟩ := mem_drawLine_vertical hh (.inl rfl) hp
    exact ⟨w, j, Nat.le_refl w, hj, by rw [hpx, Int.one_mul], by rw [hpy, Int.one_mul]⟩
  · rw [hx1] at hp
    obtain ⟨j, hj, hpx, hpy⟩ := mem_drawLine_horizontal hw (.inr rfl) hp
    exact ⟨w - j, h, by omega, Nat.le_refl h, by rw [hpx]; exact congrArg word (by omega),
      by rw [hpy, Int.one_mul]⟩
  · rw [hy1] at hp
    obtain ⟨j, hj, hpx, hpy⟩ := mem_drawLine_vertical hh (.inr rfl) hp
    exact ⟨0, h - j, Nat.zero_le w, by omega, by rw [hpx]; simp,
      by rw [hpy]; exact congrArg word (by omega)⟩

/-- A filled rectangle. -/
theorem mem_fillRect {x y : Int} {w h color : Nat} {p : Stroke}
    (hp : p ∈ f.fillRect (word x) (word y) w h color) :
    ∃ i j : Nat, i < w ∧ j < h ∧ p.x = word (x + i) ∧ p.y = word (y + j) := by
  have hx := word_lt x
  have hy := word_lt y
  have hplus : ∀ (z : Int) (k n : Nat), k < n → word z + k < (word z + n) % 2 ^ 32 →
      word z + k = word (z + k) := by
    intro z k n hk hlt
    unfold word at hlt ⊢
    omega
  unfold fillRect at hp
  split at hp
  · cases hp
  · obtain ⟨row, hrow, hp⟩ := List.mem_flatMap.mp hp
    obtain ⟨col, hcol, rfl⟩ := List.mem_map.mp hp
    rw [List.mem_range'_1] at hrow hcol
    obtain ⟨i, rfl⟩ := Nat.exists_eq_add_of_le hcol.1
    obtain ⟨j, rfl⟩ := Nat.exists_eq_add_of_le hrow.1
    refine ⟨i, j, by omega, by omega, ?_, ?_⟩
    · exact hplus x i w (by omega) (by omega)
    · exact hplus y j h (by omega) (by omega)

/-- A filled rectangle whose far corner does not wrap is clipped plainly. -/
theorem mem_fillRect_iff {x y w h color : Nat} (hw : x + w < 2 ^ 32) (hh : y + h < 2 ^ 32)
    {p : Stroke} : p ∈ f.fillRect x y w h color ↔ p.color = color ∧
      (x ≤ p.x ∧ p.x < x + w ∧ p.x < f.width) ∧ y ≤ p.y ∧ p.y < y + h ∧ p.y < f.height := by
  have hx2 : (x + w) % 2 ^ 32 = x + w := Nat.mod_eq_of_lt hw
  have hy2 : (y + h) % 2 ^ 32 = y + h := Nat.mod_eq_of_lt hh
  unfold fillRect
  split
  · next hout =>
      refine iff_of_false List.not_mem_nil ?_
      rintro ⟨-, hx, hy⟩
      omega
  · dsimp only
    rw [hx2, hy2, List.mem_flatMap]
    constructor
    · rintro ⟨row, hrow, hp⟩
      obtain ⟨col, hcol, rfl⟩ := List.mem_map.mp hp
      rw [List.mem_range'_1] at hrow hcol
      dsimp only
      omega
    · rintro ⟨rfl, hx, hy⟩
      refine ⟨p.y, List.mem_range'_1.mpr (by omega), List.mem_map.mpr ⟨p.x, ?_, rfl⟩⟩
      exact List.mem_range'_1.mpr (by omega)

/-- The strokes of `fill_rect` have its colour. -/
theorem color_fillRect {x y w h color : Nat} {p : Stroke} (hp : p ∈ f.fillRect x y w h color) :
    p.color = color := by
  unfold fillRect at hp
  split at hp
  · cases hp
  · obtain ⟨row, -, hp⟩ := List.mem_flatMap.mp hp
    obtain ⟨col, -, rfl⟩ := List.mem_map.mp hp
    rfl

end Framebuffer

end Kumo
