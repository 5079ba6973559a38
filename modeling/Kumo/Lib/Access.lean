import Kumo.Lib.Wrapped
import Kumo.Lib.WordTable

/-!
# Logs of memory accesses

A program that follows pointers from its input is judged by the addresses it touches. An
access is a range of addresses, a log is a list of accesses, and `AllWithin S` says that
every address in the log belongs to `S`. Pointers are 32-bit: `add32` moves one.
-/

namespace Memory

/-- `a + b` in 32-bit arithmetic. -/
def add32 (a b : Nat) : Nat := (a + b) % 2 ^ 32

theorem add32_lt (a b : Nat) : add32 a b < 2 ^ 32 := Nat.mod_lt _ (Nat.two_pow_pos 32)

theorem add32_of_lt {a b : Nat} (h : a + b < 2 ^ 32) : add32 a b = a + b := Nat.mod_eq_of_lt h

theorem add32_add (a b c : Nat) : add32 (add32 a b) c = add32 a (b + c) := by
  simp only [add32]
  omega

theorem add32_succ (p k : Nat) : add32 p (k + 1) = add32 (p + 1) k := by
  rw [add32, add32, Nat.add_right_comm, Nat.add_assoc]

/-- A base that was taken off an address is added again. -/
theorem add32_sub32 {a b c : Nat} (hb : b ≤ c) (hsum : a + (c - b) < 2 ^ 32) :
    add32 (sub32 a b) c = a + (c - b) := by
  simp only [add32, sub32]
  omega

/-- An access to `size` bytes. -/
structure MemAccess where
  addr : Nat
  size : Nat
  deriving DecidableEq, Repr

/-- The access touches addresses of `S` only. -/
def MemAccess.Within (S : Nat → Prop) (a : MemAccess) : Prop :=
  ∀ x, a.addr ≤ x → x < a.addr + a.size → S x

/-- So does every access of the log. -/
def AllWithin (S : Nat → Prop) (log : List MemAccess) : Prop := ∀ a ∈ log, a.Within S

variable {S T : Nat → Prop} {a : MemAccess} {log : List MemAccess}

@[simp] theorem within_byte {x : Nat} : MemAccess.Within S ⟨x, 1⟩ ↔ S x := by
  constructor
  · exact fun h => h x (Nat.le_refl x) (Nat.lt_succ_self x)
  · intro h y h1 h2
    obtain rfl : y = x := by
      simp only at h1 h2
      omega
    exact h

@[simp] theorem allWithin_nil : AllWithin S [] := by simp [AllWithin]

@[simp] theorem allWithin_cons : AllWithin S (a :: log) ↔ a.Within S ∧ AllWithin S log := by
  simp only [AllWithin, List.mem_cons, forall_eq_or_imp]

theorem AllWithin.mono (h : AllWithin S log) (hsub : ∀ x, S x → T x) : AllWithin T log :=
  fun a ha x h1 h2 => hsub x (h a ha x h1 h2)

/-- A range from a pointer on that wraps around is touched byte by byte. -/
def RangeWithin (S : Nat → Prop) (p n : Nat) : Prop := ∀ k, k < n → S (add32 p k)

theorem rangeWithin_zero {p : Nat} : RangeWithin S p 0 := fun _ hk => absurd hk (Nat.not_lt_zero _)

/-- The first byte of a range, and the rest. -/
theorem rangeWithin_succ {p n : Nat} :
    RangeWithin S p (n + 1) ↔ S (p % 2 ^ 32) ∧ RangeWithin S (p + 1) n := by
  constructor
  · refine fun h => ⟨h 0 (Nat.succ_pos n), fun k hk => ?_⟩
    have hnext := h (k + 1) (by omega)
    rwa [add32_succ] at hnext
  · rintro ⟨hfirst, hrest⟩ k hk
    cases k with
    | zero => exact hfirst
    | succ k =>
        rw [add32_succ]
        exact hrest k (by omega)

/-! ## Memories that agree -/

variable {m m' m'' : Memory} {p q n x : Nat}

/-- The addresses of `S` hold in `m'` what they hold in `m`. -/
def SameOn (S : Nat → Prop) (m m' : Memory) : Prop := ∀ x, S x → m' x = m x

theorem SameOn.refl (S : Nat → Prop) (m : Memory) : SameOn S m m := fun _ _ => rfl

theorem SameOn.trans (h : SameOn S m m') (h' : SameOn S m' m'') : SameOn S m m'' :=
  fun x hx => (h' x hx).trans (h x hx)

theorem SameOn.mono (h : SameOn T m m') (hsub : ∀ x, S x → T x) : SameOn S m m' :=
  fun x hx => h x (hsub x hx)

theorem SameOn.load32 (h : SameOn S m m') (ha : MemAccess.Within S ⟨p, 4⟩) :
    m'.load32 p = m.load32 p :=
  load32_congr fun x h1 h2 => h x (ha x h1 h2)

/-- The same word is stored in both. -/
theorem SameOn.store32 (h : SameOn S m m') (p value : Nat) :
    SameOn S (m.store32 p value) (m'.store32 p value) := by
  intro x hx
  rw [Memory.store32, Memory.store32, h x hx]

/-- So is the same table. -/
theorem SameOn.fillTable (h : SameOn S m m') (table : Nat) (value : Nat → Nat) (n : Nat) :
    SameOn S (m.fillTable table value n) (m'.fillTable table value n) := by
  induction n with
  | zero => exact h
  | succ n ih => exact ih.store32 _ _

/-! ## What the byte loops change -/

/-- A copy changes the range it writes only. -/
theorem copyWrapped_outside (h : ∀ k, k < n → add32 p k ≠ x) :
    copyWrapped m p q n x = m x := by
  induction n generalizing m p q with
  | zero => rfl
  | succ n ih =>
      have hnext : ∀ k, k < n → add32 (p + 1) k ≠ x := by
        intro k hk
        rw [← add32_succ]
        exact h (k + 1) (by omega)
      have hfirst : p % 2 ^ 32 ≠ x := h 0 (Nat.succ_pos n)
      rw [copyWrapped, ih hnext, store8_other (Ne.symm hfirst)]

/-- So does a clear. -/
theorem clearWrapped_outside (h : ∀ k, k < n → add32 p k ≠ x) :
    clearWrapped m p n x = m x := by
  induction n generalizing m p with
  | zero => rfl
  | succ n ih =>
      have hnext : ∀ k, k < n → add32 (p + 1) k ≠ x := by
        intro k hk
        rw [← add32_succ]
        exact h (k + 1) (by omega)
      have hfirst : p % 2 ^ 32 ≠ x := h 0 (Nat.succ_pos n)
      rw [clearWrapped, ih hnext, store8_other (Ne.symm hfirst)]

end Memory
