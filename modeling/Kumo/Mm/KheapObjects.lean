import Kumo.Mm.KheapRuns

/-!
# Objects in heap blocks

A client of the heap keeps a value in each block it holds. `Stored Obj` says how many bytes
a value takes and when it lies at an address; it looks at those bytes only. `Stores s objs`
says that the heap is sound and that the blocks of `objs` are live and hold their values.
Three rules carry it along: a block is allocated, a block is rewritten, a block is freed.
-/

namespace Kumo

open Memory

/-- How values of a type lie in memory. -/
class Stored (Obj : Type) where
  /-- The bytes a value takes. -/
  size : Obj → Nat
  /-- The value lies at this address. -/
  Here : Memory → Nat → Obj → Prop
  /-- Only the bytes of the value count. -/
  congr : ∀ {m m' : Memory} {p : Nat} {o : Obj},
    (∀ x, p ≤ x → x < p + size o → m' x = m x) → Here m p o → Here m' p o

namespace HeapState

/-- `kmalloc`, with its result. -/
def alloc (s : HeapState) (size : Nat) : Option (Nat × HeapState) :=
  (s.heap.kmalloc size).map fun r => (r.1, s.granted size r.1 r.2)

/-- The heap after a client wrote to memory. -/
def setMem (s : HeapState) (m : Memory) : HeapState := { s with heap := { s.heap with mem := m } }

variable {s s' : HeapState} {p q n size : Nat}

/-- What `kmalloc` leaves alone, and what is new about the block it returns. -/
structure Alloc (s : HeapState) (size p : Nat) (s' : HeapState) : Prop where
  inv : s'.Inv
  bytes : ∀ q n, s.live q = some n → ∀ x, q ≤ x → x < q + n → s'.heap.mem x = s.heap.mem x
  live : s'.live = if p = 0 then s.live else Function.update s.live p (some size)
  fresh : p ≠ 0 → s.live p = none
  block : ∀ a, s.Block a → s'.Block a

/-- `kmalloc` returns, and a block it returns was not live. -/
theorem Inv.alloc (h : s.Inv) (hsize : size + 15 < 2 ^ 32) :
    ∃ p s', s.alloc size = some (p, s') ∧ Alloc s size p s' := by
  obtain ⟨L, hL⟩ := h
  obtain ⟨p, g, L', hrun, hL', hstarts, hfresh, hkept⟩ := hL.kmalloc hsize
  refine ⟨p, s.granted size p g, by rw [HeapState.alloc, hrun]; rfl, ⟨L', hL'⟩, fun q n hq => ?_,
    rfl, hfresh, fun a ha => ?_⟩
  · exact (hkept q n hq (by intro hc; cases hc)).2 (by intro _ _ _ hc; cases hc)
  · exact (hL'.block_iff a).mpr (hstarts a ((hL.block_iff a).mp ha))

/-- A live block lies in the kernel zone, at an 8-byte boundary. -/
theorem Inv.bounds (h : s.Inv) (hp : s.live p = some n) :
    p % 8 = 0 ∧ managedBase < p ∧ p + n ≤ userMemStart := by
  obtain ⟨L, hL⟩ := h
  obtain ⟨a, k, rfl, hbusy, hle⟩ := hL.busy p n hp
  obtain ⟨h1, h2⟩ := hL.laid.bounds hbusy.1
  have h8 := (hL.laid.shape a k hbusy.1).1
  simp only [headerSize] at *
  omega

/-- A client may write what it holds; blocks start where they did. -/
theorem Inv.setMem {m : Memory} (h : s.Inv) (hp : s.live p = some n)
    (hm : ∀ x, x < p ∨ p + n ≤ x → m x = s.heap.mem x) :
    (s.setMem m).Inv ∧ ∀ a, (s.setMem m).Block a ↔ s.Block a := by
  obtain ⟨L, hL⟩ := h
  obtain ⟨a, k, rfl, hbusy, hle⟩ := hL.busy p n hp
  have hL' : (s.setMem m).Holds L := by
    refine ⟨hL.laid.of_payload fun x => ?_, hL.settled, hL.busy, hL.live⟩
    by_cases hx : x < a + headerSize ∨ a + headerSize + n ≤ x
    · exact .inl (hm x hx)
    · exact .inr ⟨a, k, hbusy, by omega, by omega⟩
  exact ⟨⟨L, hL'⟩, fun b => (hL'.block_iff b).trans (hL.block_iff b).symm⟩

/-- A live block lies in the pages of the heap. -/
theorem Inv.inHeap (h : s.Inv) (hp : s.live p = some n) {x : Nat} (h1 : p ≤ x) (h2 : x < p + n) :
    s.heap.InHeap x := by
  obtain ⟨L, hL⟩ := h
  obtain ⟨a, k, rfl, hbusy, hle⟩ := hL.busy p n hp
  exact hL.laid.covers.inside a x ⟨k, hbusy.1, by omega, by omega⟩

/-- Those pages are in the kernel zone. -/
theorem Inv.inHeap_lt (h : s.Inv) {x : Nat} (hx : s.heap.InHeap x) : x < userMemStart := by
  obtain ⟨L, hL⟩ := h
  have hupper := (hL.laid.pages _ hx).upper
  simp only [pageOf, pageSize] at hupper
  omega

/-- The heap looks at its own pages only. -/
theorem Inv.setMem_outside {m : Memory} (h : s.Inv)
    (hm : ∀ x, s.heap.InHeap x → m x = s.heap.mem x) :
    (s.setMem m).Inv ∧ ∀ a, (s.setMem m).Block a ↔ s.Block a := by
  obtain ⟨L, hL⟩ := h
  have hL' : (s.setMem m).Holds L := ⟨hL.laid.of_same hm, hL.settled, hL.busy, hL.live⟩
  exact ⟨⟨L, hL'⟩, fun b => (hL'.block_iff b).trans (hL.block_iff b).symm⟩

/-- What every operation does: the heap takes free pages only and writes in its own, and a block
that begins a page leaves a block there. -/
structure Grows (s s' : HeapState) : Prop where
  heap : Kumo.Grows s.heap s'.heap
  starts : ∀ a, a % pageSize = 0 → s.Block a → s'.Block a

theorem Grows.refl (s : HeapState) : s.Grows s := ⟨.refl _, fun _ _ => id⟩

theorem Grows.trans {s'' : HeapState} (h : s.Grows s') (h' : s'.Grows s'') : s.Grows s'' :=
  ⟨h.heap.trans h'.heap, fun a ha hblock => h'.starts a ha (h.starts a ha hblock)⟩

/-- `kmalloc` makes the heap grow. -/
theorem Inv.alloc_grows (h : s.Inv) (hsize : size + 15 < 2 ^ 32)
    (hrun : s.alloc size = some (p, s')) : s.Grows s' := by
  obtain ⟨q, s'', hrun', halloc⟩ := h.alloc hsize
  obtain ⟨⟨tiles, fl, T⟩, hL⟩ := h
  obtain rfl : T = [] := hL.settled
  obtain ⟨q', g, tiles', fl', hcall, _, ha⟩ := hL.laid.kmalloc hsize
  rw [hrun] at hrun'
  obtain ⟨rfl, rfl⟩ := Prod.mk.inj (Option.some.inj hrun')
  rw [HeapState.alloc, hcall] at hrun
  obtain ⟨rfl, rfl⟩ := Prod.mk.inj (Option.some.inj hrun)
  exact ⟨ha.grows, fun a _ => halloc.block a⟩

/-- So does `kfree`. -/
theorem Inv.kfree_grows (h : s.Inv) (hp : (s.live p).isSome)
    (hpage : s.Block (pageOf (p - headerSize))) (hrun : s.step (.kfree p) = some s') :
    s.Grows s' := by
  obtain ⟨L, hL⟩ := h
  obtain ⟨s'', L', hrun', hL', _, hgrows, hfreed⟩ := hL.kfree hp hpage
  rw [hrun] at hrun'
  obtain rfl := Option.some.inj hrun'
  exact ⟨hgrows, fun a ha hblock =>
    (hL'.block_iff a).mpr (hfreed.pageStart ha ((hL.block_iff a).mp hblock))⟩

/-- So does a client that writes what it holds. -/
theorem Inv.setMem_grows {m : Memory} (h : s.Inv) (hp : s.live p = some n)
    (hm : ∀ x, x < p ∨ p + n ≤ x → m x = s.heap.mem x) : s.Grows (s.setMem m) := by
  refine ⟨.of_writes rfl rfl fun x hx => hm x ?_, fun a _ => ((h.setMem hp hm).2 a).mpr⟩
  by_contra hin
  exact hx (h.inHeap hp (by omega) (by omega))

end HeapState

/-! ## The rules -/

section Stores

variable {Obj : Type} [Stored Obj] {s s' : HeapState} {objs : Nat → Option Obj} {p q n size : Nat}
  {o : Obj}

/-- The blocks of `objs` are live and hold their values. -/
structure Stores (s : HeapState) (objs : Nat → Option Obj) : Prop where
  inv : s.Inv
  live : ∀ p o, objs p = some o → s.live p = some (Stored.size o)
  here : ∀ p o, objs p = some o → Stored.Here s.heap.mem p o

theorem Stores.bounds (h : Stores s objs) (hp : objs p = some o) :
    p % 8 = 0 ∧ managedBase < p ∧ p + Stored.size o ≤ userMemStart :=
  h.inv.bounds (h.live p o hp)

theorem Stores.ne_zero (h : Stores s objs) (hp : objs p = some o) : p ≠ 0 := by
  have := h.bounds hp
  omega

/-- Nothing is stored at the null pointer. -/
theorem Stores.zero (h : Stores s objs) : objs 0 = none := by
  cases h0 : objs 0 with
  | none => rfl
  | some o => exact absurd rfl (h.ne_zero h0)

/-- A sound heap stores what lies in its live blocks. -/
theorem Stores.of_inv (h : s.Inv) : Stores s (fun _ => (none : Option Obj)) :=
  ⟨h, fun _ _ hp => (nomatch hp), fun _ _ hp => (nomatch hp)⟩

/-- One may forget what is stored. -/
theorem Stores.mono {objs' : Nat → Option Obj} (h : Stores s objs)
    (hsub : ∀ p o, objs' p = some o → objs p = some o) : Stores s objs' :=
  ⟨h.inv, fun p o hp => h.live p o (hsub p o hp), fun p o hp => h.here p o (hsub p o hp)⟩

/-- Allocation keeps what is stored, and returns a block that stores nothing. -/
theorem Stores.alloc (h : Stores s objs) (hsize : size + 15 < 2 ^ 32) :
    ∃ p s', s.alloc size = some (p, s') ∧ Stores s' objs ∧ HeapState.Alloc s size p s' ∧
      (p ≠ 0 → objs p = none ∧ s'.live p = some size) := by
  obtain ⟨p, s', hrun, ha⟩ := h.inv.alloc hsize
  have hnone : p ≠ 0 → objs p = none := by
    intro hp
    cases hobj : objs p with
    | none => rfl
    | some o =>
        have hlive := h.live p o hobj
        rw [ha.fresh hp] at hlive
        cases hlive
  refine ⟨p, s', hrun, ⟨ha.inv, fun q o hq => ?_, fun q o hq => ?_⟩, ha, fun hp => ⟨hnone hp, ?_⟩⟩
  · rw [ha.live]
    split
    · exact h.live q o hq
    · next hp =>
        have hne : q ≠ p := by
          rintro rfl
          rw [hnone hp] at hq
          cases hq
        rw [Function.update_of_ne hne]
        exact h.live q o hq
  · exact Stored.congr (ha.bytes q _ (h.live q o hq)) (h.here q o hq)
  · rw [ha.live, if_neg hp, Function.update_self]

/-- Writes outside the heap make no difference. -/
theorem Stores.setMem_outside {m : Memory} (h : Stores s objs)
    (hm : ∀ x, s.heap.InHeap x → m x = s.heap.mem x) : Stores (s.setMem m) objs :=
  ⟨(h.inv.setMem_outside hm).1, h.live, fun p o hp => Stored.congr
    (fun _ h1 h2 => hm _ (h.inv.inHeap (h.live p o hp) h1 h2)) (h.here p o hp)⟩

/-- Rewriting a live block keeps the others; afterwards the block holds what was written. -/
theorem Stores.write {m : Memory} (h : Stores s objs) (hp : s.live p = some (Stored.size o))
    (hm : ∀ x, x < p ∨ p + Stored.size o ≤ x → m x = s.heap.mem x) (ho : Stored.Here m p o) :
    Stores (s.setMem m) (Function.update objs p (some o)) := by
  refine ⟨(h.inv.setMem hp hm).1, fun q o' hq => ?_, fun q o' hq => ?_⟩
  · by_cases hqp : q = p
    · subst hqp
      rw [Function.update_self] at hq
      obtain rfl := Option.some.inj hq
      exact hp
    · rw [Function.update_of_ne hqp] at hq
      exact h.live q o' hq
  · by_cases hqp : q = p
    · subst hqp
      rw [Function.update_self] at hq
      obtain rfl := Option.some.inj hq
      exact ho
    · rw [Function.update_of_ne hqp] at hq
      have hdis := h.inv.safe.disjoint q _ p _ (h.live q o' hq) hp hqp
      exact Stored.congr (fun x h1 h2 => hm x (by omega)) (h.here q o' hq)

/-- Freeing a block whose page begins with a block keeps the others. -/
theorem Stores.free (h : Stores s objs) (hp : (s.live p).isSome)
    (hpage : s.Block (pageOf (p - headerSize))) :
    ∃ s', s.step (.kfree p) = some s' ∧ Stores s' (Function.update objs p none) ∧
      s'.live = Function.update s.live p none := by
  obtain ⟨s', hstep, hinv, hkept⟩ := h.inv.step (e := .kfree p) hp hpage
  have hlive : s'.live = Function.update s.live p none := by
    obtain ⟨g, _, rfl⟩ := Option.map_eq_some_iff.mp hstep
    rfl
  have hold : ∀ q o, Function.update objs p none q = some o → objs q = some o ∧ q ≠ p := by
    intro q o hq
    by_cases hqp : q = p
    · subst hqp
      rw [Function.update_self] at hq
      cases hq
    · rw [Function.update_of_ne hqp] at hq
      exact ⟨hq, hqp⟩
  refine ⟨s', hstep, ⟨hinv, fun q o hq => ?_, fun q o hq => ?_⟩, hlive⟩
  · obtain ⟨hq, hqp⟩ := hold q o hq
    exact (hkept q _ (h.live q o hq) (by simp [Ne.symm hqp])).1
  · obtain ⟨hq, hqp⟩ := hold q o hq
    exact Stored.congr ((hkept q _ (h.live q o hq) (by simp [Ne.symm hqp])).2
      (by intro _ _ _ hc; cases hc)) (h.here q o hq)

end Stores

end Kumo
