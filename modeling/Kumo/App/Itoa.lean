import Kumo.App.CalcEval
import Kumo.Lib.Strings
import Mathlib.Data.Nat.Digits.Lemmas

/-!
# Numbers in decimal

`itoa` takes the digits of a number off from the right, into an array on its stack, and copies them
back to the buffer in the other order. Every `int32_t` but the least one comes out in decimal. That
one is its own negation, so the loop finds no digits in it.
-/

namespace Kumo

/-! ## Decimal notation -/

/-- The digits of a number, most significant first. -/
def decimalDigits (k : Nat) : List Nat := (Nat.digits 10 k).reverse.map (0x30 + ·)

/-- A number in decimal: a sign if it is negative, no leading zeros, and one digit for 0. -/
def decimal (n : Int) : List Nat :=
  if n = 0 then [0x30]
  else if n < 0 then 0x2D :: decimalDigits n.natAbs
  else decimalDigits n.natAbs

/-- The number that a string stands for. -/
def parseDecimal : List Nat → Int
  | 0x2D :: ds => -appendDigits 0 (ds.map (· - 0x30))
  | ds => appendDigits 0 (ds.map (· - 0x30))

/-- The digits from the right are those of the quotient and the remainder. -/
theorem decimalDigits_pos {k : Nat} (hk : 0 < k) :
    decimalDigits k = decimalDigits (k / 10) ++ [0x30 + k % 10] := by
  rw [decimalDigits, Nat.digits_def' (by decide) hk, List.reverse_cons, List.map_append]
  rfl

theorem appendDigits_append (v : Int) (ds es : List Nat) :
    appendDigits v (ds ++ es) = appendDigits (appendDigits v ds) es := by
  induction ds generalizing v with
  | nil => rfl
  | cons d ds ih => exact ih (v * 10 + d)

theorem appendDigits_decimalDigits (k : Nat) :
    appendDigits 0 ((decimalDigits k).map (· - 0x30)) = k := by
  induction k using Nat.strong_induction_on with
  | _ k ih =>
      rcases Nat.eq_zero_or_pos k with rfl | hk
      · rfl
      · rw [decimalDigits_pos hk, List.map_append, appendDigits_append, ih _ (by omega)]
        show ((k / 10 : Nat) : Int) * 10 + ((0x30 + k % 10 - 0x30 : Nat) : Int) = k
        omega

/-- A digit of a positive number, and the first one. -/
theorem decimalDigits_cons {k : Nat} (hk : 0 < k) :
    ∃ d ds, decimalDigits k = d :: ds ∧ 0x31 ≤ d ∧ d ≤ 0x39 := by
  induction k using Nat.strong_induction_on with
  | _ k ih =>
      rw [decimalDigits_pos hk]
      rcases Nat.eq_zero_or_pos (k / 10) with h0 | hpos
      · rw [h0]
        exact ⟨_, [], rfl, by omega, by omega⟩
      · obtain ⟨d, ds, hds, hd⟩ := ih (k / 10) (by omega) hpos
        exact ⟨d, ds ++ [0x30 + k % 10], by rw [hds]; rfl, hd⟩

/-- The notation stands for the number. -/
theorem parseDecimal_decimal (n : Int) : parseDecimal (decimal n) = n := by
  unfold decimal
  split
  · next h => rw [h]; rfl
  · split
    · rw [parseDecimal, appendDigits_decimalDigits]
      omega
    · next hn hpos =>
        obtain ⟨d, ds, hds, hlow, hhigh⟩ := decimalDigits_cons (k := n.natAbs) (by omega)
        have hvalue := appendDigits_decimalDigits n.natAbs
        rw [hds] at hvalue ⊢
        rw [parseDecimal, hvalue]
        · omega
        · intro es hes
          obtain rfl := (List.cons.inj hes).1
          omega

/-! ## The two loops -/

/-- `while (n > 0) { tmp[i++] = '0' + (char)(n % 10); n /= 10; }`. -/
def itoaExtract (n : Int) (tmp : Nat → Nat) (i : Nat) : (Nat → Nat) × Nat :=
  if 0 < n then
    itoaExtract (n.tdiv 10) (Function.update tmp i (0x30 + (n.tmod 10).toNat)) (i + 1)
  else (tmp, i)
termination_by n.toNat
decreasing_by
  rw [Int.tdiv_eq_ediv_of_nonneg (by omega)]
  omega

/-- `while (i > 0) *buf++ = tmp[--i];`. -/
def itoaReverse (tmp : Nat → Nat) : Nat → (Nat → Nat) → Nat → (Nat → Nat) × Nat
  | 0, buf, p => (buf, p)
  | i + 1, buf, p => itoaReverse tmp i (Function.update buf p (tmp i)) (p + 1)

/-- `itoa` on the bytes of its buffer. The bytes of `tmp` are what the stack held. -/
def itoaInto (n : Int) (tmp buf : Nat → Nat) : Nat → Nat :=
  if n = 0 then Function.update (Function.update buf 0 0x30) 1 0
  else
    let (buf, p, n) := if n < 0 then (Function.update buf 0 0x2D, 1, wrap32 (-n)) else (buf, 0, n)
    let (tmp, i) := itoaExtract n tmp 0
    let (buf, p) := itoaReverse tmp i buf p
    Function.update buf p 0

/-- The first loop stores the digits in reverse from `i` on. -/
theorem itoaExtract_spec (k : Nat) (tmp : Nat → Nat) (i : Nat) :
    (itoaExtract k tmp i).2 = i + (decimalDigits k).length ∧
      (∀ j < i, (itoaExtract k tmp i).1 j = tmp j) ∧
      HoldsAt (itoaExtract k tmp i).1 i (decimalDigits k).reverse := by
  induction k using Nat.strong_induction_on generalizing tmp i with
  | _ k ih =>
      rcases Nat.eq_zero_or_pos k with rfl | hk
      · rw [itoaExtract, if_neg (by omega)]
        exact ⟨rfl, fun _ _ => rfl, holdsAt_nil⟩
      · have hdiv : (k : Int).tdiv 10 = (k / 10 : Nat) := rfl
        have hmod : ((k : Int).tmod 10).toNat = k % 10 := rfl
        obtain ⟨hend, hkept, hholds⟩ :=
          ih (k / 10) (by omega) (Function.update tmp i (0x30 + k % 10)) (i + 1)
        rw [itoaExtract, if_pos (by omega), hdiv, hmod]
        refine ⟨?_, fun j hj => ?_, ?_⟩
        · rw [hend, decimalDigits_pos hk, List.length_append]
          show _ = i + (_ + 1)
          omega
        · rw [hkept j (by omega), Function.update_of_ne (by omega)]
        · rw [decimalDigits_pos hk, List.reverse_append]
          exact holdsAt_cons.mpr ⟨by rw [hkept i (by omega), Function.update_self], hholds⟩

/-- The second loop copies the array backwards. -/
theorem itoaReverse_spec (tmp : Nat → Nat) (i : Nat) (buf : Nat → Nat) (p : Nat) :
    (itoaReverse tmp i buf p).2 = p + i ∧
      ∀ q, (itoaReverse tmp i buf p).1 q =
        if p ≤ q ∧ q < p + i then tmp (i - 1 - (q - p)) else buf q := by
  induction i generalizing buf p with
  | zero => exact ⟨rfl, fun q => (if_neg (by omega)).symm⟩
  | succ i ih =>
      obtain ⟨hend, hbytes⟩ := ih (Function.update buf p (tmp i)) (p + 1)
      rw [itoaReverse]
      refine ⟨by omega, fun q => ?_⟩
      rw [hbytes q]
      by_cases hfirst : q = p
      · subst hfirst
        rw [if_neg (by omega), if_pos (by omega), Function.update_self]
        congr 1
        omega
      · rw [Function.update_of_ne hfirst]
        by_cases hin : p + 1 ≤ q ∧ q < p + 1 + i
        · rw [if_pos hin, if_pos (by omega)]
          congr 1
          omega
        · rw [if_neg hin, if_neg (by omega)]

/-- Together they write the digits of a number from `p` on. -/
theorem itoaReverse_extract (k : Nat) (tmp buf : Nat → Nat) (p : Nat) :
    (itoaReverse (itoaExtract k tmp 0).1 (itoaExtract k tmp 0).2 buf p).2 =
        p + (decimalDigits k).length ∧
      HoldsAt (itoaReverse (itoaExtract k tmp 0).1 (itoaExtract k tmp 0).2 buf p).1 p
        (decimalDigits k) ∧
      ∀ q, q < p ∨ p + (decimalDigits k).length ≤ q →
        (itoaReverse (itoaExtract k tmp 0).1 (itoaExtract k tmp 0).2 buf p).1 q = buf q := by
  obtain ⟨hlength, -, hdigits⟩ := itoaExtract_spec k tmp 0
  rw [Nat.zero_add] at hlength
  rw [hlength]
  obtain ⟨hend, hbytes⟩ :=
    itoaReverse_spec (itoaExtract k tmp 0).1 (decimalDigits k).length buf p
  refine ⟨hend, fun j hj => ?_, fun q hq => ?_⟩
  · have hback := hdigits ((decimalDigits k).length - 1 - j) (by rw [List.length_reverse]; omega)
    rw [Nat.zero_add, List.getElem_reverse] at hback
    rw [hbytes, if_pos (by omega), Nat.add_sub_cancel_left, hback]
    congr 1
    omega
  · rw [hbytes, if_neg (by omega)]

/-! ## What is in the buffer -/

/-- The buffer after a call: the string and its NUL, within 16 bytes, and nothing else of the
buffer has changed. -/
def Writes (n : Int) (tmp buf : Nat → Nat) (s : List Nat) : Prop :=
  HoldsAt (itoaInto n tmp buf) 0 (s ++ [0]) ∧ s.length + 1 ≤ 16 ∧
    ∀ q, s.length < q → itoaInto n tmp buf q = buf q

theorem decimalDigits_length {k d : Nat} (hk : k < 10 ^ d) : (decimalDigits k).length ≤ d := by
  induction d generalizing k with
  | zero =>
      obtain rfl : k = 0 := by omega
      exact Nat.le_refl 0
  | succ d ih =>
      rcases Nat.eq_zero_or_pos k with rfl | hpos
      · exact Nat.zero_le _
      · have hrest := ih (k := k / 10) (by omega)
        rw [decimalDigits_pos hpos, List.length_append, List.length_singleton]
        omega

/-- The digits of a number are written from `p` on, and the NUL after them. -/
theorem digits_written (k : Nat) (tmp buf : Nat → Nat) (p : Nat) {after : Nat → Nat}
    (hafter : after = Function.update
      (itoaReverse (itoaExtract k tmp 0).1 (itoaExtract k tmp 0).2 buf p).1
      (itoaReverse (itoaExtract k tmp 0).1 (itoaExtract k tmp 0).2 buf p).2 0) :
    HoldsAt after p (decimalDigits k ++ [0]) ∧
      ∀ q, q < p ∨ p + (decimalDigits k).length < q → after q = buf q := by
  obtain ⟨hend, hholds, hkept⟩ := itoaReverse_extract k tmp buf p
  rw [hend] at hafter
  subst hafter
  refine ⟨holdsAt_append.mpr ⟨fun j hj => ?_, holdsAt_singleton.mpr (Function.update_self ..)⟩,
    fun q hq => ?_⟩
  · rw [Function.update_of_ne (by omega), hholds j hj]
  · rw [Function.update_of_ne (by omega), hkept q (by omega)]

/-- The first loop finds no digits in a number that is not positive. -/
theorem itoaExtract_toNat (n : Int) (tmp : Nat → Nat) (i : Nat) :
    itoaExtract n tmp i = itoaExtract n.toNat tmp i := by
  rcases Int.lt_or_le n 0 with hneg | hpos
  · rw [itoaExtract, if_neg (by omega), itoaExtract, if_neg (by omega)]
  · rw [Int.toNat_of_nonneg hpos]

/-- The loop that collects the digits in a list finds the same digits. -/
theorem itoaDigits_eq {fuel : Nat} {n : Int} (hn : n < 10 ^ fuel) (acc : List Nat) :
    Calc.itoaDigits fuel n acc = decimalDigits n.toNat ++ acc := by
  induction fuel generalizing n acc with
  | zero =>
      have hzero : n.toNat = 0 := by omega
      rw [Calc.itoaDigits, hzero]
      rfl
  | succ fuel ih =>
      rw [Calc.itoaDigits]
      split
      · next hpos =>
          obtain ⟨k, rfl⟩ := Int.eq_ofNat_of_zero_le (Int.le_of_lt hpos)
          rw [Int.pow_succ] at hn
          have hdiv : (k : Int).tdiv 10 = (k / 10 : Nat) := rfl
          have hmod : ((k : Int).tmod 10).toNat = k % 10 := rfl
          rw [hdiv, hmod, ih (by omega), Int.toNat_natCast, Int.toNat_natCast,
            decimalDigits_pos (show 0 < k by omega), List.append_assoc]
          rfl
      · next hzero =>
          have hzero : n.toNat = 0 := by omega
          rw [hzero]
          rfl

/-- The string that `itoa` leaves. -/
theorem itoa_eq {n : Int} (hn : FitsInt32 n) :
    Calc.itoa n = if n = 0 then [0x30] else if n < 0 then 0x2D :: decimalDigits (wrap32 (-n)).toNat
      else decimalDigits n.toNat := by
  have hwrap := wrap32_bounds (-n)
  have hfits := hn.2
  rw [Calc.itoa, itoaDigits_eq (by omega), itoaDigits_eq (by omega), List.append_nil,
    List.append_nil]

/-- It is in the buffer, with its NUL, for every `int32_t`. -/
theorem writes_itoa {n : Int} (hn : FitsInt32 n) (tmp buf : Nat → Nat) :
    Writes n tmp buf (Calc.itoa n) := by
  have hwrap := wrap32_bounds (-n)
  have hfits := hn.2
  rw [itoa_eq hn]
  unfold Writes itoaInto
  split
  · refine ⟨holdsAt_cons.mpr ⟨rfl, holdsAt_singleton.mpr rfl⟩, by decide, fun q hq => ?_⟩
    rw [List.length_singleton] at hq
    rw [Function.update_of_ne (by omega), Function.update_of_ne (by omega)]
  · by_cases hneg : n < 0
    · have hlength := decimalDigits_length (k := (wrap32 (-n)).toNat) (d := 10) (by omega)
      simp only [if_pos hneg, itoaExtract_toNat (wrap32 (-n))]
      obtain ⟨hholds, hkept⟩ :=
        digits_written (wrap32 (-n)).toNat tmp (Function.update buf 0 0x2D) 1 rfl
      refine ⟨holdsAt_cons.mpr ⟨?_, hholds⟩, ?_, fun q hq => ?_⟩
      · rw [hkept 0 (by omega), Function.update_self]
      · rw [List.length_cons]
        omega
      · rw [List.length_cons] at hq
        rw [hkept q (by omega), Function.update_of_ne (by omega)]
    · have hlength := decimalDigits_length (k := n.toNat) (d := 10) (by omega)
      simp only [if_neg hneg, itoaExtract_toNat n]
      obtain ⟨hholds, hkept⟩ := digits_written n.toNat tmp buf 0 rfl
      exact ⟨hholds, by omega, fun q hq => hkept q (by omega)⟩

/-- `itoa` is correct just if the number is not the least `int32_t`: it writes the number in decimal
with a NUL after it, in at most 16 bytes, and the string stands for the number. -/
theorem itoa_formats_iff {n : Int} (hn : FitsInt32 n) (tmp buf : Nat → Nat) :
    (Writes n tmp buf (decimal n) ∧ parseDecimal (decimal n) = n) ↔ n ≠ -2 ^ 31 := by
  have hwrites := writes_itoa hn tmp buf
  rw [itoa_eq hn] at hwrites
  constructor
  · rintro ⟨hformats, -⟩ rfl
    -- the first digit would be where the NUL is
    obtain ⟨d, ds, hds, hlow, -⟩ := decimalDigits_cons (k := 2 ^ 31) (by decide)
    have hdecimal : decimal (-2 ^ 31) = 0x2D :: d :: ds := by rw [← hds]; rfl
    rw [hdecimal] at hformats
    have hdigit : itoaInto (-2 ^ 31) tmp buf 1 = d := hformats.1 1 (by simp)
    have hnul : itoaInto (-2 ^ 31) tmp buf 1 = 0 := hwrites.1 1 (by decide)
    omega
  · intro hne
    have hlow := hn.1
    refine ⟨?_, parseDecimal_decimal n⟩
    have hsame : decimal n = if n = 0 then [0x30]
        else if n < 0 then 0x2D :: decimalDigits (wrap32 (-n)).toNat
        else decimalDigits n.toNat := by
      unfold decimal
      split
      · rfl
      · split
        · rw [wrap32_eq (by omega) (by omega)]
          congr 2
          omega
        · congr 1
          omega
    rw [hsame]
    exact hwrites

/-- `-120` in a buffer. -/
theorem itoa_formats_iff_sample :
    FitsInt32 (-120) ∧ Writes (-120) (fun _ => 7) (fun _ => 7) [0x2D, 0x31, 0x32, 0x30] := by
  have hdecimal : decimal (-120) = [0x2D, 0x31, 0x32, 0x30] := by decide +kernel
  refine ⟨by decide, ?_⟩
  rw [← hdecimal]
  exact ((itoa_formats_iff (by decide) (fun _ => 7) (fun _ => 7)).mpr (by decide)).1

/-- The least `int32_t` comes out as a sign without digits. -/
theorem itoa_no_digits :
    FitsInt32 (-2 ^ 31) ∧ Writes (-2 ^ 31) (fun _ => 7) (fun _ => 7) [0x2D] ∧
      ¬ Writes (-2 ^ 31) (fun _ => 7) (fun _ => 7) (decimal (-2 ^ 31)) := by
  have hfits : FitsInt32 (-2 ^ 31) := by decide
  have hwrites : Writes (-2 ^ 31) (fun _ => 7) (fun _ => 7) [0x2D] := writes_itoa hfits _ _
  refine ⟨hfits, hwrites, fun hformats => ?_⟩
  have hdecimal : decimal (-2 ^ 31) =
      [0x2D, 0x32, 0x31, 0x34, 0x37, 0x34, 0x38, 0x33, 0x36, 0x34, 0x38] := by decide +kernel
  rw [hdecimal] at hformats
  have hdigit : itoaInto (-2 ^ 31) (fun _ => 7) (fun _ => 7) 1 = 0x32 := hformats.1 1 (by decide)
  have hnul : itoaInto (-2 ^ 31) (fun _ => 7) (fun _ => 7) 1 = 0 := hwrites.1 1 (by decide)
  omega

end Kumo
