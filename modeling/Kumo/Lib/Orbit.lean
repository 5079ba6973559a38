import Mathlib.Data.Set.Card
import Mathlib.Logic.Relation

/-!
# Walks of a partial function

`next a` is the element after `a`, if there is one. A walk ends when it comes to an element
without a next one. Over finitely many elements the only other possibility is that it
comes back to an element it has met: `ends_iff` is the equivalence. A loop is a walk as well:
its elements are the states its rounds begin in, and `EndsIn` counts them.
-/

namespace Orbit

variable {α : Type*} {next : α → Option α} {a b : α}

/-- The walk from `a` comes to `b`. -/
def Reach (next : α → Option α) : α → α → Prop :=
  Relation.ReflTransGen fun a b => next a = some b

/-- The walk from `a` comes to `b` through elements of `P`: all that it leaves are in `P`. -/
def ReachIn (next : α → Option α) (P : α → Prop) : α → α → Prop :=
  Relation.ReflTransGen fun a b => P a ∧ next a = some b

/-- The walk from `a` comes back to `a`. -/
def Returns (next : α → Option α) (a : α) : Prop :=
  Relation.TransGen (fun a b => next a = some b) a a

/-- The walk from `a` ends. -/
inductive Ends (next : α → Option α) : α → Prop where
  | stop {a : α} : next a = none → Ends next a
  | step {a b : α} : next a = some b → Ends next b → Ends next a

theorem Reach.refl (a : α) : Reach next a a := Relation.ReflTransGen.refl

/-- The walk goes on from the next element. -/
theorem Reach.step {c : α} (hab : next a = some b) (hbc : Reach next b c) : Reach next a c :=
  Relation.ReflTransGen.head hab hbc

theorem ReachIn.refl {P : α → Prop} (a : α) : ReachIn next P a a := Relation.ReflTransGen.refl

theorem ReachIn.step {P : α → Prop} {c : α} (ha : P a) (hab : next a = some b)
    (hbc : ReachIn next P b c) : ReachIn next P a c := Relation.ReflTransGen.head ⟨ha, hab⟩ hbc

theorem ReachIn.one {P : α → Prop} (ha : P a) (hab : next a = some b) : ReachIn next P a b :=
  .step ha hab (.refl b)

theorem ReachIn.trans {P : α → Prop} {c : α} (hab : ReachIn next P a b)
    (hbc : ReachIn next P b c) : ReachIn next P a c := Relation.ReflTransGen.trans hab hbc

/-- Such a walk is a walk. -/
theorem ReachIn.reach {P : α → Prop} (h : ReachIn next P a b) : Reach next a b := by
  induction h with
  | refl => exact .refl a
  | tail _ hstep ih => exact Relation.ReflTransGen.tail ih hstep.2

/-- The first step of a walk, if it is not at its goal already. -/
theorem Reach.cases_next {c : α} (h : Reach next a c) :
    a = c ∨ ∃ b, next a = some b ∧ Reach next b c :=
  Relation.ReflTransGen.cases_head h

/-- An element that is met again is met again by the walk from the next element. -/
theorem Returns.reach (h : Returns next a) (hab : next a = some b) : Reach next b a := by
  obtain ⟨c, hac, hca⟩ := Relation.TransGen.head'_iff.mp h
  obtain rfl := Option.some.inj (hab.symm.trans hac)
  exact hca

theorem Reach.returns (hab : next a = some b) (hba : Reach next b a) : Returns next a :=
  Relation.TransGen.head' hab hba

/-- A walk that ends meets nothing twice. -/
theorem Ends.not_returns (h : Ends next a) : ∀ c, Reach next a c → ¬ Returns next c := by
  induction h with
  | @stop a hstop =>
      intro c hac hret
      have hnone : ∀ b, next a ≠ some b := by simp [hstop]
      rcases hac.cases_next with rfl | ⟨b, hab, _⟩
      · obtain ⟨b, hab, _⟩ := Relation.TransGen.head'_iff.mp hret
        exact hnone b hab
      · exact hnone b hab
  | @step a b hab _ ih =>
      intro c hac hret
      rcases hac.cases_next with rfl | ⟨b', hab', hbc⟩
      · exact ih a (hret.reach hab) hret
      · obtain rfl := Option.some.inj (hab.symm.trans hab')
        exact ih c hbc hret

/-- A walk over finitely many elements that meets nothing twice ends. -/
theorem ends_of_not_returns (hfin : {c | Reach next a c}.Finite)
    (h : ∀ c, Reach next a c → ¬ Returns next c) : Ends next a := by
  generalize hn : {c | Reach next a c}.ncard = n
  induction n using Nat.strong_induction_on generalizing a with
  | _ n ih =>
      cases hab : next a with
      | none => exact .stop hab
      | some b =>
          have hsub : {c | Reach next b c} ⊆ {c | Reach next a c} := fun c hc => Reach.step hab hc
          -- `a` itself is not met again
          have hlt : {c | Reach next b c} ⊂ {c | Reach next a c} := by
            refine hsub.ssubset_of_mem_notMem (Reach.refl a) fun hba => ?_
            exact h a (Reach.refl a) (Reach.returns hab hba)
          have hcard := Set.ncard_lt_ncard hlt hfin
          exact .step hab (ih _ (hn ▸ hcard) (hfin.subset hsub)
            (fun c hc => h c (Reach.step hab hc)) rfl)

/-- Over finitely many elements a walk ends exactly when it meets nothing twice. -/
theorem ends_iff (hfin : {c | Reach next a c}.Finite) :
    Ends next a ↔ ∀ c, Reach next a c → ¬ Returns next c :=
  ⟨Ends.not_returns, ends_of_not_returns hfin⟩

/-- A walk through numbers below a bound meets finitely many of them. -/
theorem finite_reach {next : Nat → Option Nat} {a n : Nat} (ha : a < n)
    (hnext : ∀ b c, next b = some c → c < n) : {c | Reach next a c}.Finite := by
  refine (Set.finite_lt_nat n).subset fun c hc => ?_
  rcases Relation.ReflTransGen.cases_tail hc with rfl | ⟨b, _, hbc⟩
  · exact ha
  · exact hnext b c hbc

/-- The walk from `a` has at most `n` elements. -/
def EndsIn (next : α → Option α) : Nat → α → Prop
  | 0, _ => False
  | n + 1, a => ∀ b, next a = some b → EndsIn next n b

instance EndsIn.decidable (n : Nat) (a : α) : Decidable (EndsIn next n a) :=
  match n with
  | 0 => isFalse id
  | n + 1 =>
      match hnext : next a with
      | none => isTrue fun b hb => nomatch hnext.symm.trans hb
      | some b =>
          have := EndsIn.decidable n b
          decidable_of_iff (EndsIn next n b) ⟨fun h c hc => by
            obtain rfl := Option.some.inj (hnext.symm.trans hc)
            exact h, fun h => h b hnext⟩

theorem EndsIn.mono {n m : Nat} (h : EndsIn next n a) (hnm : n ≤ m) : EndsIn next m a := by
  induction n generalizing a m with
  | zero => exact h.elim
  | succ n ih =>
      obtain ⟨m, rfl⟩ := Nat.exists_eq_succ_of_ne_zero (by omega : m ≠ 0)
      exact fun b hb => ih (h b hb) (by omega)

/-- A walk of bounded length ends. -/
theorem EndsIn.ends {n : Nat} (h : EndsIn next n a) : Ends next a := by
  induction n generalizing a with
  | zero => exact h.elim
  | succ n ih =>
      cases hnext : next a with
      | none => exact .stop hnext
      | some b => exact .step hnext (ih (h b hnext))

/-- A measure that every step decreases, under an invariant, bounds the length of the walk. -/
theorem endsIn_of_measure {I : α → Prop} {μ : α → Nat}
    (hstep : ∀ a b, I a → next a = some b → I b ∧ μ b < μ a) (ha : I a) :
    EndsIn next (μ a + 1) a := by
  generalize hn : μ a = n
  induction n using Nat.strong_induction_on generalizing a with
  | _ n ih =>
      intro b hab
      obtain ⟨hb, hlt⟩ := hstep a b ha hab
      exact (ih (μ b) (hn ▸ hlt) hb rfl).mono (by omega)

end Orbit
