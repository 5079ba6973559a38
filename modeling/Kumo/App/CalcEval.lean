import Kumo.App.Calc

/-!
# What the calculator computes

A calculation is a number followed by operators and numbers. The keys of a calculation leave
the calculator ready: carrying out what is pending would give the value of what was typed so
far, read from left to right. An operator key and the equals key both carry it out.
-/

namespace Kumo

/-- The operators of `cb_add`, `cb_sub`, `cb_mul` and `cb_div`. -/
inductive CalcOp where
  | add
  | sub
  | mul
  | div
  deriving DecidableEq

namespace CalcOp

/-- The argument of `calc_input_op`. -/
def code : CalcOp → Nat
  | add => 1
  | sub => 2
  | mul => 3
  | div => 4

/-- What an operator means. Division truncates toward zero. -/
def eval : CalcOp → Int → Int → Int
  | add, a, b => a + b
  | sub, a, b => a - b
  | mul, a, b => a * b
  | div, a, b => a.tdiv b

end CalcOp

/-- A number as it is typed: one or more digits. -/
structure Numeral where
  digits : List Nat
  typed : digits ≠ []
  digit : ∀ d ∈ digits, d ≤ 9

/-- The decimal value of `v` followed by some digits. -/
def appendDigits (v : Int) (digits : List Nat) : Int := digits.foldl (fun v d => v * 10 + d) v

namespace Numeral

/-- The value of a number. -/
def value (n : Numeral) : Int := appendDigits 0 n.digits

/-- The keys of a number. -/
def keys (n : Numeral) : List CalcKey := n.digits.map .digit

end Numeral

/-- An operator and the number after it. The equals key may be pressed before the operator. -/
structure CalcTerm where
  equals : Bool
  op : CalcOp
  number : Numeral

/-- The keys of an operator and the number after it. -/
def CalcTerm.keys (t : CalcTerm) : List CalcKey :=
  (if t.equals then [.eq] else []) ++ .op t.op.code :: t.number.keys

/-- A number followed by operators and numbers. -/
structure Calculation where
  first : Numeral
  terms : List CalcTerm

namespace Calculation

/-- The keys of a calculation, without a last equals key. -/
def keys (e : Calculation) : List CalcKey := e.first.keys ++ e.terms.flatMap CalcTerm.keys

/-- The value of a calculation, from left to right. -/
def value (e : Calculation) : Int :=
  e.terms.foldl (fun v t => t.op.eval v t.number.value) e.first.value

end Calculation

/-- An `int32_t`. -/
def FitsInt32 (v : Int) : Prop := -2 ^ 31 ≤ v ∧ v < 2 ^ 31

instance (v : Int) : Decidable (FitsInt32 v) := inferInstanceAs (Decidable (_ ∧ _))

/-- From the value `v` on, all numbers and results are `int32_t` values and no divisor is 0. -/
def TermsFit (v : Int) : List CalcTerm → Prop
  | [] => True
  | t :: terms => FitsInt32 t.number.value ∧ (t.op = .div → t.number.value ≠ 0) ∧
      FitsInt32 (t.op.eval v t.number.value) ∧ TermsFit (t.op.eval v t.number.value) terms

/-- All numbers and intermediate results are `int32_t` values and no divisor is 0. -/
def Calculation.Fits (e : Calculation) : Prop :=
  FitsInt32 e.first.value ∧ TermsFit e.first.value e.terms

/-- The beginning of a calculation that fits. -/
theorem TermsFit.left {v : Int} {before : List CalcTerm} (after : List CalcTerm)
    (h : TermsFit v (before ++ after)) : TermsFit v before := by
  induction before generalizing v with
  | nil => trivial
  | cons t before ih => exact ⟨h.1, h.2.1, h.2.2.1, ih h.2.2.2⟩

namespace Calc

/-- The callbacks of some keys, in order. -/
def press (c : Calc) (keys : List CalcKey) : Option Calc := keys.foldlM onClick c

/-- The number that `calc_refresh_display` formats. -/
def displayed (c : Calc) : Int := if c.entering then c.current else c.accumulator

/-- The display shows this number and nothing else of the state. -/
theorem calcRefreshDisplay_congr {c c' : Calc} (h : c.displayed = c'.displayed) (f : Framebuffer)
    (win : Window) : f.calcRefreshDisplay win c = f.calcRefreshDisplay win c' := by
  unfold displayed at h
  unfold Framebuffer.calcRefreshDisplay
  rw [h]

theorem press_cons (c : Calc) (k : CalcKey) (ks : List CalcKey) :
    c.press (k :: ks) = (c.onClick k).bind fun c => c.press ks := by
  rw [press, List.foldlM_cons]
  rfl

theorem press_append (c : Calc) (ks ls : List CalcKey) :
    c.press (ks ++ ls) = (c.press ks).bind fun c => c.press ls := by
  rw [press, List.foldlM_append]
  rfl

/-! ## Digits -/

theorem appendDigits_nonneg {v : Int} (hv : 0 ≤ v) (ds : List Nat) : v ≤ appendDigits v ds := by
  induction ds generalizing v with
  | nil => exact Int.le_refl v
  | cons d ds ih =>
      have hstep : v * 10 + (d : Int) ≤ appendDigits (v * 10 + d) ds := ih (by omega)
      show v ≤ appendDigits (v * 10 + d) ds
      omega

/-- Further digits of a number. -/
theorem press_digits {c : Calc} (hentering : c.entering = true) (hv : 0 ≤ c.current)
    {ds : List Nat} (hfits : appendDigits c.current ds < 2 ^ 31) :
    c.press (ds.map .digit) = some { c with current := appendDigits c.current ds } := by
  induction ds generalizing c with
  | nil => rfl
  | cons d ds ih =>
      have hle : c.current * 10 + (d : Int) ≤ appendDigits (c.current * 10 + d) ds :=
        appendDigits_nonneg (by omega) ds
      have hfits' : appendDigits (c.current * 10 + d) ds < 2 ^ 31 := hfits
      have hclick : c.onClick (.digit d) = some { c with current := c.current * 10 + d } := by
        have h10 : wrap32 (c.current * 10) = c.current * 10 := wrap32_eq (by omega) (by omega)
        rw [onClick, calcInputDigit, if_pos hentering, h10, wrap32_eq (by omega) (by omega)]
      rw [List.map_cons, press_cons, hclick, Option.bind_some]
      exact ih hentering (by show 0 ≤ c.current * 10 + (d : Int); omega) hfits'

/-- A number typed after an operator, after the equals key or from the start. -/
theorem press_numeral {c : Calc} (hentering : c.entering = false) {n : Numeral}
    (hn : FitsInt32 n.value) :
    c.press n.keys = some { c with current := n.value, entering := true } := by
  cases hdigits : n.digits with
  | nil => exact absurd hdigits n.typed
  | cons d ds =>
      have hvalue : n.value = appendDigits d ds := by
        rw [Numeral.value, hdigits]
        show appendDigits (0 * 10 + d) ds = _
        rw [Int.zero_mul, Int.zero_add]
      have hclick : c.onClick (.digit d) = some { c with current := d, entering := true } := by
        rw [onClick, calcInputDigit, if_neg (by simp [hentering])]
      have hlt : appendDigits d ds < 2 ^ 31 := hvalue ▸ hn.2
      rw [Numeral.keys, hdigits, List.map_cons, press_cons, hclick, Option.bind_some,
        press_digits rfl (Int.natCast_nonneg d) hlt, hvalue]

/-! ## Operators -/

/-- Carrying out what is pending gives `v`. -/
structure Ready (c : Calc) (v : Int) : Prop where
  entering : c.entering = true
  first : c.pendingOp = 0 → c.current = v
  pending : c.pendingOp ≠ 0 → c.calcExecutePending = some { c with accumulator := v }

/-- The value `v` is the left operand of the operator `op`. -/
def loaded (c : Calc) (v : Int) (op : Nat) : Calc :=
  { c with accumulator := v, pendingOp := op, current := 0, entering := false }

/-- What the equals key leaves. -/
def settled (c : Calc) (v : Int) : Calc :=
  { c with accumulator := v, pendingOp := 0, current := v, entering := false }

variable {c : Calc} {v : Int}

/-- An operator key makes the value so far the left operand. -/
theorem Ready.op (h : c.Ready v) (op : Nat) : c.onClick (.op op) = some (c.loaded v op) := by
  rw [onClick, calcInputOp]
  by_cases h0 : c.pendingOp = 0
  · rw [if_neg (not_not_intro h0), h.first h0]
    rfl
  · rw [if_pos h0, h.pending h0]
    rfl

/-- The equals key makes it the current value. -/
theorem Ready.eq (h : c.Ready v) : c.onClick .eq = some (c.settled v) := by
  rw [onClick, calcDoEquals]
  by_cases h0 : c.pendingOp = 0
  · rw [if_neg (not_not_intro h0), ← h.first h0]
    rfl
  · rw [if_pos h0, h.pending h0]
    rfl

/-- An operator key after the equals key takes the result as the left operand. -/
theorem settled_op (c : Calc) (v : Int) (op : Nat) :
    (c.settled v).onClick (.op op) = some (c.loaded v op) := rfl

/-- A pending operation whose result is an `int32_t`. -/
theorem calcExecutePending_eq (op : CalcOp) (hop : c.pendingOp = op.code)
    (hdiv : op = .div → c.current ≠ 0) (hresult : FitsInt32 (op.eval c.accumulator c.current)) :
    c.calcExecutePending = some { c with accumulator := op.eval c.accumulator c.current } := by
  have hwrap : wrap32 (op.eval c.accumulator c.current) = op.eval c.accumulator c.current :=
    wrap32_eq hresult.1 hresult.2
  unfold calcExecutePending
  cases op with
  | add | sub | mul =>
      rw [hop]
      simp only [CalcOp.code, CalcOp.eval] at hwrap ⊢
      rw [hwrap]
  | div =>
      have hlt : ¬ 2 ^ 31 ≤ c.accumulator.tdiv c.current := Int.not_le.mpr hresult.2
      rw [hop]
      simp only [CalcOp.code, CalcOp.eval, if_neg (hdiv rfl), if_neg hlt]

/-- The second operand makes the calculator ready again. -/
theorem loaded_ready {op : CalcOp} {n : Numeral} (hn : FitsInt32 n.value)
    (hdiv : op = .div → n.value ≠ 0) (hresult : FitsInt32 (op.eval v n.value)) :
    ∃ c', (c.loaded v op.code).press n.keys = some c' ∧ c'.Ready (op.eval v n.value) := by
  refine ⟨_, press_numeral rfl hn, rfl, fun h0 => ?_, fun _ => ?_⟩
  · cases op <;> cases h0
  · exact calcExecutePending_eq op rfl hdiv hresult

/-! ## Calculations -/

/-- An operator and a number, with or without the equals key before them. -/
theorem Ready.term (h : c.Ready v) {t : CalcTerm} (hn : FitsInt32 t.number.value)
    (hdiv : t.op = .div → t.number.value ≠ 0) (hresult : FitsInt32 (t.op.eval v t.number.value)) :
    ∃ c', c.press t.keys = some c' ∧ c'.Ready (t.op.eval v t.number.value) := by
  obtain ⟨equals, op, number⟩ := t
  cases equals with
  | false =>
      have hpress : c.press (CalcTerm.keys ⟨false, op, number⟩) =
          (c.loaded v op.code).press number.keys := by
        show c.press (.op op.code :: number.keys) = _
        rw [press_cons, h.op, Option.bind_some]
      rw [hpress]
      exact loaded_ready hn hdiv hresult
  | true =>
      have hpress : c.press (CalcTerm.keys ⟨true, op, number⟩) =
          (c.loaded v op.code).press number.keys := by
        show c.press (.eq :: .op op.code :: number.keys) = _
        rw [press_cons, h.eq, Option.bind_some, press_cons, settled_op, Option.bind_some]
      rw [hpress]
      exact loaded_ready hn hdiv hresult

/-- Any number of operators and numbers. -/
theorem Ready.terms (h : c.Ready v) {terms : List CalcTerm} (hfits : TermsFit v terms) :
    ∃ c', c.press (terms.flatMap CalcTerm.keys) = some c' ∧
      c'.Ready (terms.foldl (fun v t => t.op.eval v t.number.value) v) := by
  induction terms generalizing c v with
  | nil => exact ⟨c, rfl, h⟩
  | cons t terms ih =>
      obtain ⟨hn, hdiv, hresult, hrest⟩ := hfits
      obtain ⟨c1, hpress1, hready1⟩ := h.term hn hdiv hresult
      obtain ⟨c2, hpress2, hready2⟩ := ih hready1 hrest
      refine ⟨c2, ?_, hready2⟩
      rw [List.flatMap_cons, press_append, hpress1, Option.bind_some, hpress2]

/-- The keys of a calculation leave the cleared calculator ready to give its value. -/
theorem press_ready (c : Calc) {e : Calculation} (hfits : e.Fits) :
    ∃ c', c.calcDoClear.press e.keys = some c' ∧ c'.Ready e.value := by
  have hfirst : c.calcDoClear.press e.first.keys = some { c.calcDoClear with
      current := e.first.value, entering := true } := press_numeral rfl hfits.1
  have hready : Ready { c.calcDoClear with current := e.first.value, entering := true }
      e.first.value := ⟨rfl, fun _ => rfl, fun h0 => absurd rfl h0⟩
  obtain ⟨c', hpress, hready'⟩ := hready.terms hfits.2
  refine ⟨c', ?_, hready'⟩
  rw [Calculation.keys, press_append, hfirst, Option.bind_some, hpress]

/-- From the cleared state, wherever a calculation that fits has got to: an operator key displays
the left-to-right value of what precedes it, the equals key displays the same value, and an
operator key after that has the same effect as without it. -/
theorem calc_evaluates (c : Calc) (e : Calculation) (hfits : e.Fits) (before after : List CalcTerm)
    (hsplit : e.terms = before ++ after) :
    ∃ c1, c.calcDoClear.press (Calculation.keys ⟨e.first, before⟩) = some c1 ∧
      (∀ op : CalcOp, ∃ c2, c1.onClick (.op op.code) = some c2 ∧
        c2.displayed = Calculation.value ⟨e.first, before⟩) ∧
      ∃ c2, c1.onClick .eq = some c2 ∧ c2.displayed = Calculation.value ⟨e.first, before⟩ ∧
        ∀ op : CalcOp, c2.onClick (.op op.code) = c1.onClick (.op op.code) := by
  have hbefore : Calculation.Fits ⟨e.first, before⟩ := by
    refine ⟨hfits.1, TermsFit.left after ?_⟩
    rw [← hsplit]
    exact hfits.2
  obtain ⟨c1, hpress, hready⟩ := press_ready c hbefore
  refine ⟨c1, hpress, fun op => ⟨_, hready.op op.code, rfl⟩, _, hready.eq, rfl, fun op => ?_⟩
  rw [settled_op, hready.op]

/-- The calculation `12 / 5 - 9 * 3` with the equals key pressed after `12 / 5`. -/
def sampleCalculation : Calculation :=
  ⟨⟨[1, 2], by decide, by decide⟩, [⟨false, .div, ⟨[5], by decide, by decide⟩⟩,
    ⟨true, .sub, ⟨[9], by decide, by decide⟩⟩, ⟨false, .mul, ⟨[3], by decide, by decide⟩⟩]⟩

/-- It displays `-21`. -/
theorem calc_evaluates_sample :
    sampleCalculation.value = -21 ∧
    ∃ c1, (calcDoClear ⟨7, 8, 3, true, none⟩).press sampleCalculation.keys = some c1 ∧
      (∀ op : CalcOp, ∃ c2, c1.onClick (.op op.code) = some c2 ∧
        c2.displayed = sampleCalculation.value) ∧
      ∃ c2, c1.onClick .eq = some c2 ∧ c2.displayed = sampleCalculation.value ∧
        ∀ op : CalcOp, c2.onClick (.op op.code) = c1.onClick (.op op.code) :=
  ⟨by decide, calc_evaluates _ sampleCalculation
    (by unfold Calculation.Fits sampleCalculation; simp only [TermsFit]; decide)
    sampleCalculation.terms [] rfl⟩

end Calc

end Kumo
