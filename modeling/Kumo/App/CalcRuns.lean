import Kumo.App.CalcEval
import Kumo.Lib.Transition

/-!
# Every sequence of keys

The calculator after any keys of its keypad. Two laws that its users expect fail for one kind of
state each: a further operator key replaces the pending operator, but a pending multiplication is
carried out with the second operand that was not typed; and the division is guarded against the
divisor 0, but not against the quotient `2 ^ 31`.
-/

namespace Kumo

namespace Calc

open Transition

/-- The state before the first key. The button that is pressed has no part in the arithmetic. -/
def blank (pressed : Option Nat) : Calc :=
  { accumulator := 0, current := 0, pendingOp := 0, entering := false, pressed := pressed }

/-- The keys, in the order of the buttons. -/
def keypad : List CalcKey :=
  [.digit 7, .digit 8, .digit 9, .op 4, .digit 4, .digit 5, .digit 6, .op 3,
    .digit 1, .digit 2, .digit 3, .op 2, .clr, .digit 0, .eq, .op 1]

/-- Every button has its key. -/
theorem calcButtons_keys (f : Framebuffer) :
    f.calcButtons.map (fun btn => btn.onClick) = keypad := rfl

/-- An operator is pending and no digit has been typed since. -/
def Undecided (c : Calc) : Prop := c.pendingOp ≠ 0 ∧ c.entering = false

instance (c : Calc) : Decidable c.Undecided := inferInstanceAs (Decidable (_ ∧ _))

/-- An operator key that is pressed now replaces the pending operator and changes nothing else:
neither the accumulated value nor the display. -/
def Replaces (c : Calc) (k : CalcKey) : Prop :=
  ∀ op, k = .op op → c.Undecided →
    c.onClick k = some { c with pendingOp := op } ∧
      Calc.displayed { c with pendingOp := op } = c.displayed

/-- If an operator key is pressed now, no multiplication of a value is pending. -/
def KeepsValue (c : Calc) : CalcKey → Prop
  | .op _ => c.Undecided → c.pendingOp = 3 → c.accumulator = 0
  | _ => True

instance (c : Calc) (k : CalcKey) : Decidable (c.KeepsValue k) := by
  cases k <;> (unfold KeepsValue; infer_instance)

/-- The division that a key executes: the dividend and the divisor. -/
def division (c : Calc) : CalcKey → Option (Int × Int)
  | .op _ | .eq =>
      if c.pendingOp = 4 ∧ c.current ≠ 0 then some (c.accumulator, c.current) else none
  | _ => none

/-- The division that a key executes raises no divide error. -/
def DivisionSafe (c : Calc) (k : CalcKey) : Prop :=
  ∀ ab, c.division k = some ab → ab.2 ≠ 0 ∧ FitsInt32 (ab.1.tdiv ab.2)

/-- A key that carries out what is pending divides `-2 ^ 31` by `-1`. -/
def Overflows (c : Calc) : CalcKey → Prop
  | .op _ | .eq => c.pendingOp = 4 ∧ c.accumulator = -2 ^ 31 ∧ c.current = -1
  | _ => False

instance (c : Calc) (k : CalcKey) : Decidable (c.Overflows k) := by
  cases k <;> (unfold Overflows; infer_instance)

/-! ## What holds after any keys -/

/-- What holds after any keys: both numbers are `int32_t` values, the operator is one of the
keypad's, and without a second operand the current number is 0. -/
structure Inv (c : Calc) : Prop where
  accumulator : FitsInt32 c.accumulator
  current : FitsInt32 c.current
  operator : c.pendingOp ≤ 4
  idle : c.Undecided → c.current = 0

variable {c c' : Calc} {k : CalcKey}

theorem fits_wrap32 (v : Int) : FitsInt32 (wrap32 v) := wrap32_bounds v

theorem fits_zero : FitsInt32 0 := by decide

/-- The only quotient of two `int32_t` values that is none is `2 ^ 31`. -/
theorem tdiv_fits_iff {a b : Int} (ha : FitsInt32 a) (hb : b ≠ 0) :
    FitsInt32 (a.tdiv b) ↔ ¬ (a = -2 ^ 31 ∧ b = -1) := by
  unfold FitsInt32 at ha ⊢
  by_cases hone : b.natAbs = 1
  · rcases Int.natAbs_eq b with hb' | hb' <;> rw [hone] at hb' <;> subst hb'
    · rw [Int.natCast_one, Int.tdiv_one]
      omega
    · rw [Int.natCast_one, Int.tdiv_neg, Int.tdiv_one]
      omega
  · have hquotient : (a.tdiv b).natAbs = a.natAbs / b.natAbs := Int.natAbs_tdiv a b
    have hhalf : a.natAbs / b.natAbs ≤ a.natAbs / 2 :=
      Nat.div_le_div_left (by omega) (by omega)
    refine iff_of_true ?_ fun h => hone ?_
    · omega
    · rw [h.2]
      rfl

/-- The dividend and divisor of a division that is executed. -/
theorem division_eq_some {ab : Int × Int} (h : c.division k = some ab) :
    (c.pendingOp = 4 ∧ c.current ≠ 0) ∧ ab = (c.accumulator, c.current) ∧
      (k = .eq ∨ ∃ op, k = .op op) := by
  cases k with
  | digit | clr => cases h
  | op o | eq =>
      rw [division, Option.ite_none_right_eq_some] at h
      exact ⟨h.1, (Option.some.inj h.2).symm, by simp⟩

/-- A key divides safely unless it divides `-2 ^ 31` by `-1`. -/
theorem Inv.divisionSafe_iff (h : c.Inv) : c.DivisionSafe k ↔ ¬ c.Overflows k := by
  constructor
  · intro hsafe hover
    cases k with
    | digit | clr => exact hover
    | op o | eq =>
        obtain ⟨hop, hacc, hcur⟩ := hover
        have hne : c.current ≠ 0 := by omega
        have hfits := (hsafe (c.accumulator, c.current) (if_pos ⟨hop, hne⟩)).2
        exact (tdiv_fits_iff h.accumulator hne).mp hfits ⟨hacc, hcur⟩
  · intro hover ab hdivision
    obtain ⟨⟨hop, hne⟩, rfl, hk⟩ := division_eq_some hdivision
    refine ⟨hne, (tdiv_fits_iff h.accumulator hne).mpr fun ⟨hacc, hcur⟩ => hover ?_⟩
    rcases hk with rfl | ⟨op, rfl⟩ <;> exact ⟨hop, hacc, hcur⟩

/-- What is pending is carried out unless the division overflows, and gives an `int32_t`. -/
theorem Inv.execute (h : c.Inv) (hover : ¬ c.Overflows .eq) :
    ∃ v, c.calcExecutePending = some { c with accumulator := v } ∧ FitsInt32 v := by
  unfold calcExecutePending
  split
  · exact ⟨_, rfl, fits_wrap32 _⟩
  · exact ⟨_, rfl, fits_wrap32 _⟩
  · exact ⟨_, rfl, fits_wrap32 _⟩
  · next hop =>
      split
      · exact ⟨_, rfl, h.accumulator⟩
      · next hne =>
          have hfits : FitsInt32 (c.accumulator.tdiv c.current) :=
            (tdiv_fits_iff h.accumulator hne).mpr fun hab => hover ⟨hop, hab⟩
          exact ⟨_, if_neg (Int.not_le.mpr hfits.2), hfits⟩
  · exact ⟨_, rfl, h.accumulator⟩

/-- A division that overflows is a divide error. -/
theorem execute_overflow (hover : c.Overflows .eq) : c.calcExecutePending = none := by
  obtain ⟨hop, hacc, hcur⟩ := hover
  unfold calcExecutePending
  simp only [hop, hacc, hcur]
  rw [if_neg (by decide), if_pos (by decide)]

/-- Without a second operand, a multiplication loses the value and the others keep it. -/
theorem Inv.execute_undecided (h : c.Inv) (hundecided : c.Undecided) :
    c.calcExecutePending =
      some { c with accumulator := if c.pendingOp = 3 then 0 else c.accumulator } := by
  have hcur := h.idle hundecided
  have hacc : wrap32 c.accumulator = c.accumulator := wrap32_eq h.accumulator.1 h.accumulator.2
  unfold calcExecutePending
  split
  · next hop => rw [hcur, Int.add_zero, hacc, if_neg (by omega)]
  · next hop => rw [hcur, Int.sub_zero, hacc, if_neg (by omega)]
  · next hop => rw [hcur, Int.mul_zero, if_pos hop]; rfl
  · next hop => rw [if_pos hcur, if_neg (by omega)]
  · next _ _ hop _ => rw [if_neg hop]

/-- So does an operator key. -/
theorem Inv.op_undecided (h : c.Inv) (hundecided : c.Undecided) (op : Nat) :
    c.onClick (.op op) = some { c with
      accumulator := if c.pendingOp = 3 then 0 else c.accumulator, pendingOp := op } := by
  rw [onClick, calcInputOp, if_pos hundecided.1, h.execute_undecided hundecided, Option.map_some]
  have hcur := h.idle hundecided
  have hentering := hundecided.2
  obtain ⟨acc, cur, pending, entering, pressed⟩ := c
  subst hcur hentering
  rfl

theorem blank_inv (pressed : Option Nat) : (blank pressed).Inv :=
  ⟨fits_zero, fits_zero, Nat.zero_le 4, fun _ => rfl⟩

/-- A digit of the keypad. -/
theorem mem_keypad_digit {d : Nat} : CalcKey.digit d ∈ keypad ↔ d ≤ 9 := by
  unfold keypad
  simp
  omega

theorem mem_keypad_op {op : Nat} : CalcKey.op op ∈ keypad ↔ 1 ≤ op ∧ op ≤ 4 := by
  unfold keypad
  simp
  omega

/-- What one key does. -/
theorem Inv.click (h : c.Inv) (hk : k ∈ keypad) (hover : ¬ c.Overflows k) :
    ∃ c', c.onClick k = some c' ∧ c'.Inv := by
  cases k with
  | digit d =>
      have hd := mem_keypad_digit.mp hk
      refine ⟨_, rfl, ?_⟩
      unfold calcInputDigit
      by_cases hentering : c.entering = true
      · rw [if_pos hentering]
        exact ⟨h.accumulator, fits_wrap32 _, h.operator, fun hu => by
          rw [hentering] at hu; cases hu.2⟩
      · rw [if_neg hentering]
        refine ⟨h.accumulator, ?_, h.operator, fun hu => by cases hu.2⟩
        unfold FitsInt32
        dsimp only
        omega
  | op o =>
      have ho := mem_keypad_op.mp hk
      rw [onClick, calcInputOp]
      by_cases hpending : c.pendingOp ≠ 0
      · obtain ⟨v, hexec, hv⟩ := h.execute hover
        rw [if_pos hpending, hexec, Option.map_some]
        exact ⟨_, rfl, hv, fits_zero, ho.2, fun _ => rfl⟩
      · rw [if_neg hpending, Option.map_some]
        exact ⟨_, rfl, h.current, fits_zero, ho.2, fun _ => rfl⟩
  | eq =>
      rw [onClick, calcDoEquals]
      by_cases hpending : c.pendingOp ≠ 0
      · obtain ⟨v, hexec, hv⟩ := h.execute hover
        rw [if_pos hpending, hexec, Option.map_some, Option.map_some]
        exact ⟨_, rfl, hv, hv, Nat.zero_le 4, fun hu => absurd rfl hu.1⟩
      · rw [if_neg hpending, Option.map_some]
        exact ⟨_, rfl, h.current, h.current, Nat.zero_le 4, fun hu => absurd rfl hu.1⟩
  | clr => exact ⟨_, rfl, fits_zero, fits_zero, Nat.zero_le 4, fun _ => rfl⟩

/-- A key that divides `-2 ^ 31` by `-1` stops the kernel. -/
theorem click_overflow (hover : c.Overflows k) : c.onClick k = none := by
  cases k with
  | digit | clr => exact hover.elim
  | op o =>
      have hexec := execute_overflow hover
      rw [onClick, calcInputOp, if_pos (by rw [hover.1]; decide), hexec, Option.map_none]
  | eq =>
      have hexec := execute_overflow hover
      rw [onClick, calcDoEquals, if_pos (by rw [hover.1]; decide), hexec, Option.map_none,
        Option.map_none]

/-- What holds after any keys is kept by every key. -/
theorem Inv.step (h : c.Inv) (hk : k ∈ keypad) (hclick : c.onClick k = some c') : c'.Inv := by
  by_cases hover : c.Overflows k
  · rw [click_overflow hover] at hclick
    cases hclick
  · obtain ⟨c1, hclick1, hinv⟩ := h.click hk hover
    obtain rfl := Option.some.inj (hclick1.symm.trans hclick)
    exact hinv

theorem press_eq_run (c : Calc) (keys : List CalcKey) : c.press keys = run onClick c keys := by
  induction keys generalizing c with
  | nil => rfl
  | cons k keys ih =>
      rw [press_cons, run]
      exact congrArg _ (funext fun next => ih next)

/-- It holds after any keys. -/
theorem Inv.press (h : c.Inv) {keys : List CalcKey} (hkeys : ∀ k ∈ keys, k ∈ keypad)
    (hpress : c.press keys = some c') : c'.Inv := by
  induction keys generalizing c with
  | nil =>
      obtain rfl := Option.some.inj hpress
      exact h
  | cons k keys ih =>
      rw [press_cons] at hpress
      obtain ⟨next, hnext, hrest⟩ := Option.bind_eq_some_iff.mp hpress
      exact ih (h.step (hkeys k (List.mem_cons_self ..)) hnext)
        (fun l hl => hkeys l (List.mem_cons_of_mem k hl)) hrest

/-! ## Changing one's mind -/

/-- An operator key that is pressed now loses the value or keeps it. -/
theorem Inv.replace (h : c.Inv) (hundecided : c.Undecided) (op : Nat) :
    ∃ v, c.onClick (.op op) = some { c with accumulator := v, pendingOp := op } ∧
      (v = c.accumulator ↔ c.KeepsValue (.op op)) ∧ (v = c.accumulator ∨ v = 0) := by
  refine ⟨_, h.op_undecided hundecided op, ?_, ?_⟩
  · show _ ↔ (c.Undecided → c.pendingOp = 3 → c.accumulator = 0)
    split
    · next hmul => exact ⟨fun hv _ _ => hv.symm, fun hkeeps => (hkeeps hundecided hmul).symm⟩
    · next hmul => exact ⟨fun _ _ h3 => absurd h3 hmul, fun _ => rfl⟩
  · split
    · exact .inr rfl
    · exact .inl rfl

/-- An operator key replaces the pending one unless it multiplies a value. -/
theorem Inv.replaces_iff (h : c.Inv) : c.Replaces k ↔ c.KeepsValue k := by
  cases k with
  | digit | eq | clr => exact iff_of_true (fun op hop => by cases hop) trivial
  | op o =>
      constructor
      · intro hreplaces hundecided hmul
        obtain ⟨v, hclick, hv, -⟩ := h.replace hundecided o
        have hsame := Option.some.inj (hclick.symm.trans (hreplaces o rfl hundecided).1)
        injection hsame with hacc
        exact hv.mp hacc hundecided hmul
      · rintro hkeeps op hop hundecided
        obtain rfl := CalcKey.op.inj hop
        obtain ⟨v, hclick, hv, -⟩ := h.replace hundecided o
        refine ⟨?_, rfl⟩
        rw [hclick, hv.mpr hkeeps]

/-- The code of an operator key is only stored. -/
theorem click_op {first : Nat} (hclick : c.onClick (.op first) = some c') (last : Nat) :
    c.onClick (.op last) = some { c' with pendingOp := last } := by
  rw [onClick, calcInputOp] at hclick ⊢
  obtain ⟨next, hnext, rfl⟩ := Option.map_eq_some_iff.mp hclick
  rw [hnext, Option.map_some]

theorem undecided_op {op : Nat} (hclick : c.onClick (.op op) = some c') (hop : 1 ≤ op) :
    c'.Undecided := by
  rw [onClick, calcInputOp] at hclick
  obtain ⟨next, -, rfl⟩ := Option.map_eq_some_iff.mp hclick
  exact ⟨Nat.ne_of_gt hop, rfl⟩

/-- Further operator keys keep the value just if none of them multiplies it, and lose it
otherwise. -/
theorem Inv.press_ops (h : c.Inv) (hundecided : c.Undecided) {ops : List Nat}
    (hops : ∀ op ∈ ops, CalcKey.op op ∈ keypad) (last : Nat) :
    ∃ v, c.press ((ops ++ [last]).map .op) =
        some { c with accumulator := v, pendingOp := last } ∧
      (v = c.accumulator ↔ Meets onClick KeepsValue c ((ops ++ [last]).map .op)) ∧
      (v = c.accumulator ∨ v = 0) := by
  induction ops generalizing c with
  | nil =>
      obtain ⟨v, hclick, hkeeps, hv⟩ := h.replace hundecided last
      refine ⟨v, ?_, hkeeps.trans ⟨fun hk => ⟨hk, fun _ _ => trivial⟩, And.left⟩, hv⟩
      show c.press [.op last] = _
      rw [press_cons, hclick]
      rfl
  | cons o ops ih =>
      have ho := hops o (List.mem_cons_self ..)
      obtain ⟨v, hclick, hkeeps, hv⟩ := h.replace hundecided o
      obtain ⟨w, hpress, hrest, hw⟩ := ih (h.step ho hclick)
        (undecided_op hclick (mem_keypad_op.mp ho).1)
        (fun op hop => hops op (List.mem_cons_of_mem o hop))
      dsimp only at hrest hw
      refine ⟨w, ?_, ?_, by omega⟩
      · show c.press (.op o :: (ops ++ [last]).map .op) = _
        rw [press_cons, hclick, Option.bind_some, hpress]
      · show _ ↔ c.KeepsValue (.op o) ∧ ∀ next, c.onClick (.op o) = some next →
          Meets onClick KeepsValue next ((ops ++ [last]).map .op)
        rw [hclick, ← hkeeps]
        simp only [Option.some.injEq, forall_eq']
        rw [← hrest]
        constructor
        · intro hsame
          exact ⟨by omega, by omega⟩
        · rintro ⟨hfirst, hsame⟩
          rw [hsame, hfirst]

/-- Wherever the calculator has got to: every operator key that is pressed with an operator
pending and no digit typed since replaces that operator, with the value and the display as they
were, just if none of these keys meets a pending multiplication and a value that is not 0; and of
consecutive operator keys only the last one counts just if those after the first do not. -/
theorem operator_replaced_iff (pressed : Option Nat) {keys : List CalcKey}
    (hkeys : ∀ k ∈ keys, k ∈ keypad) :
    (Meets onClick Replaces (blank pressed) keys ↔
        Meets onClick KeepsValue (blank pressed) keys) ∧
      ∀ c, (blank pressed).press keys = some c →
        ∀ first ops last, (∀ op ∈ first :: last :: ops, CalcKey.op op ∈ keypad) →
          ∀ c', c.onClick (.op first) = some c' →
            (c.press (.op first :: (ops ++ [last]).map .op) = c.press [.op last] ↔
              Meets onClick KeepsValue c' ((ops ++ [last]).map .op)) := by
  refine ⟨meets_congr (P := (· ∈ keypad)) (fun _ _ _ hinv hk hclick => hinv.step hk hclick)
    (fun _ _ hinv _ => hinv.replaces_iff) (blank_inv pressed) hkeys, ?_⟩
  intro c hpress first ops last hops c' hclick
  have hfirst := hops first (by simp)
  have hrest : ∀ op ∈ ops, CalcKey.op op ∈ keypad := fun op hop => hops op (by simp [hop])
  have hinv : c'.Inv := ((blank_inv pressed).press hkeys hpress).step hfirst hclick
  obtain ⟨v, hlast, hkeeps, -⟩ := hinv.press_ops
    (undecided_op hclick (mem_keypad_op.mp hfirst).1) hrest last
  rw [press_cons, hclick, Option.bind_some, hlast, press_cons, click_op hclick last,
    Option.bind_some, ← hkeeps]
  constructor
  · intro hsame
    injection Option.some.inj hsame with hacc
  · intro hsame
    rw [hsame]
    rfl

/-- `5 +`, then `-` and `/`: both replace the operator before them. -/
theorem operator_replaced_iff_sample :
    (∀ k ∈ [CalcKey.digit 5, .op 1, .op 2, .op 4], k ∈ keypad) ∧
      Meets onClick Replaces (blank none) [.digit 5, .op 1, .op 2, .op 4] :=
  ⟨by decide, (operator_replaced_iff none (by decide)).1.mpr (by decide)⟩

/-- `5 * +` displays 0 and not 5. -/
theorem operator_not_replaced :
    ¬ ∀ c : Calc, (∃ keys : List CalcKey, (∀ k ∈ keys, k ∈ keypad) ∧
        (blank none).press keys = some c) → c.Undecided →
      ∃ c', c.onClick (.op 1) = some c' ∧ c'.accumulator = c.accumulator := by
  intro h
  obtain ⟨c', hclick, hacc⟩ := h ⟨5, 0, 3, false, none⟩
    ⟨[.digit 5, .op 3], by decide, rfl⟩ (by decide)
  obtain rfl := Option.some.inj hclick
  cases hacc

/-! ## Divide errors -/

/-- The calculator stops the kernel just if a key divides `-2 ^ 31` by `-1`: otherwise, after any
keys, every division that is executed has a divisor that is not 0 and a quotient that is an
`int32_t`, and no key raises a divide error. -/
theorem calc_faults_iff (pressed : Option Nat) {keys : List CalcKey}
    (hkeys : ∀ k ∈ keys, k ∈ keypad) :
    (Meets onClick DivisionSafe (blank pressed) keys ∧ (blank pressed).press keys ≠ none) ↔
      Meets onClick (fun c k => ¬ c.Overflows k) (blank pressed) keys := by
  have hsafe : Meets onClick DivisionSafe (blank pressed) keys ↔
      Meets onClick (fun c k => ¬ c.Overflows k) (blank pressed) keys :=
    meets_congr (P := (· ∈ keypad)) (fun _ _ _ hinv hk hclick => Inv.step hinv hk hclick)
      (fun _ _ hinv _ => Inv.divisionSafe_iff hinv) (blank_inv pressed) hkeys
  refine ⟨fun h => hsafe.mp h.1, fun hmeets => ⟨hsafe.mpr hmeets, ?_⟩⟩
  have hall := (meets_of_forall hkeys (blank pressed)).and hmeets
  obtain ⟨-, final, hrun, -⟩ := along_of_invariant (Q := fun _ _ _ => True)
    (fun c k hinv hcond => by
      obtain ⟨c', hclick, hinv'⟩ := Inv.click hinv hcond.1 hcond.2
      exact ⟨c', hclick, hinv', trivial⟩) (blank_inv pressed) hall
  rw [press_eq_run, hrun]
  exact Option.some_ne_none final

/-- `7 / 0 =` divides nothing. -/
theorem calc_faults_iff_sample :
    (∀ k ∈ [CalcKey.digit 7, .op 4, .digit 0, .eq], k ∈ keypad) ∧
      Meets onClick DivisionSafe (blank none) [.digit 7, .op 4, .digit 0, .eq] ∧
      (blank none).press [.digit 7, .op 4, .digit 0, .eq] ≠ none :=
  ⟨by decide, (calc_faults_iff none (by decide)).mpr (by decide)⟩

/-- `2147483648 / 4294967295 =` raises a divide error: typed digits wrap around. -/
theorem calc_faults :
    ¬ ∀ keys : List CalcKey, (∀ k ∈ keys, k ∈ keypad) → (blank none).press keys ≠ none := by
  intro h
  refine h ([2, 1, 4, 7, 4, 8, 3, 6, 4, 8].map .digit ++ .op 4 ::
    [4, 2, 9, 4, 9, 6, 7, 2, 9, 5].map .digit ++ [.eq]) (by decide) ?_
  decide +kernel

end Calc

end Kumo
