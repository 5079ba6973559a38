import Kumo.Mm.KheapOps

/-!
# Blocks that the kernel holds

The rest of the kernel knows the heap by the blocks it was given. `Owned h own` says that
the heap is laid out and that every pointer of `own` is a busy block with room for the
size its owner asked for. An owner may write what it holds, and nobody else changes it.
-/

namespace Kumo

open Memory

/-- The heap is laid out, and each pointer that is owned is a busy block of at least its size. -/
def Owned (h : Kheap) (own : Nat → Nat → Prop) : Prop :=
  ∃ tiles fl, Laid h ⟨tiles, fl, []⟩ ∧ ∀ p n, own p n →
    ∃ a k, p = a + headerSize ∧ Layout.Busy ⟨tiles, fl, []⟩ a k ∧ n + headerSize ≤ k

/-- The owned bytes are the same in two memories. -/
def SameOwned (own : Nat → Nat → Prop) (m m' : Memory) : Prop :=
  ∀ p n, own p n → ∀ x, p ≤ x → x < p + n → m' x = m x

section Owned

variable {h h' : Kheap} {own own' : Nat → Nat → Prop} {p q n m x : Nat}

theorem SameOwned.refl (own : Nat → Nat → Prop) (m : Memory) : SameOwned own m m :=
  fun _ _ _ _ _ _ => rfl

theorem SameOwned.trans {m1 m2 m3 : Memory} (h1 : SameOwned own m1 m2)
    (h2 : SameOwned own m2 m3) : SameOwned own m1 m3 :=
  fun p n hp x hx hxn => (h2 p n hp x hx hxn).trans (h1 p n hp x hx hxn)

/-- A word of an owned block is the same in two memories that agree on what is owned. -/
theorem SameOwned.load32 {m1 m2 : Memory} (hs : SameOwned own m1 m2) {k : Nat} (hp : own p n)
    (hk : k + 4 ≤ n) : m2.load32 (p + k) = m1.load32 (p + k) :=
  load32_congr fun x _ _ => hs p n hp x (by omega) (by omega)

theorem Owned.pmm_wf (ho : Owned h own) : h.pmm.Wf := by
  obtain ⟨tiles, fl, hl, _⟩ := ho
  exact hl.pmm

theorem Owned.pages (ho : Owned h own) : ∀ page ∈ h.heapPages, h.pmm.KernelPage page := by
  obtain ⟨tiles, fl, hl, _⟩ := ho
  exact hl.pages

theorem Owned.mono (ho : Owned h own) (hsub : ∀ p n, own' p n → own p n) : Owned h own' := by
  obtain ⟨tiles, fl, hl, hbusy⟩ := ho
  exact ⟨tiles, fl, hl, fun p n hp => hbusy p n (hsub p n hp)⟩

/-- An owned block lies in the kernel zone, at an 8-byte boundary. -/
theorem Owned.bounds (ho : Owned h own) (hp : own p n) :
    p % 8 = 0 ∧ managedBase < p ∧ p + n ≤ userMemStart := by
  obtain ⟨tiles, fl, hl, hbusy⟩ := ho
  obtain ⟨a, k, rfl, hb, hle⟩ := hbusy p n hp
  obtain ⟨h1, h2⟩ := hl.bounds hb.1
  have h8 := (hl.shape a k hb.1).1
  simp only [headerSize] at *
  omega

/-- Owned bytes are bytes of the heap. -/
theorem Owned.inHeap (ho : Owned h own) (hp : own p n) (hx : p ≤ x) (hxn : x < p + n) :
    h.InHeap x := by
  obtain ⟨tiles, fl, hl, hbusy⟩ := ho
  obtain ⟨a, k, rfl, hb, hle⟩ := hbusy p n hp
  simp only [headerSize] at *
  exact hl.covers.inside a x ⟨k, hb.1, by omega, by omega⟩

/-- Different owned blocks do not overlap. -/
theorem Owned.disjoint (ho : Owned h own) (hp : own p n) (hq : own q m) (hne : p ≠ q) :
    p + n ≤ q ∨ q + m ≤ p := by
  obtain ⟨tiles, fl, hl, hbusy⟩ := ho
  obtain ⟨a, k, rfl, ha, hn⟩ := hbusy p n hp
  obtain ⟨b, l, rfl, hb, hm⟩ := hbusy q m hq
  have hab : a ≠ b := fun heq => hne (by rw [heq])
  rcases Nat.lt_or_gt_of_ne hab with hlt | hgt
  · have := hl.covers.disjoint a k b l ha.1 hb.1 hlt
    omega
  · have := hl.covers.disjoint b l a k hb.1 ha.1 hgt
    omega

/-- Pages that others take make no difference. -/
theorem Owned.of_pmm {u : Pmm} (ho : Owned h own) (hu : u.Wf)
    (hused : ∀ i, h.pmm.used i = true → u.used i = true) : Owned { h with pmm := u } own := by
  obtain ⟨tiles, fl, hl, hbusy⟩ := ho
  exact ⟨tiles, fl, hl.of_pmm hu hused, hbusy⟩

/-- Memory outside the heap makes no difference. -/
theorem Owned.of_same {mem : Memory} (ho : Owned h own)
    (hsame : ∀ x, h.InHeap x → mem x = h.mem x) : Owned { h with mem := mem } own := by
  obtain ⟨tiles, fl, hl, hbusy⟩ := ho
  exact ⟨tiles, fl, hl.of_same hsame, hbusy⟩

/-- Owners may write what they own. -/
theorem Owned.write {mem : Memory} (ho : Owned h own)
    (hmem : ∀ x, mem x = h.mem x ∨ ∃ p n, own p n ∧ p ≤ x ∧ x < p + n) :
    Owned { h with mem := mem } own := by
  obtain ⟨tiles, fl, hl, hbusy⟩ := ho
  refine ⟨tiles, fl, hl.of_payload fun x => ?_, hbusy⟩
  refine (hmem x).imp id ?_
  rintro ⟨p, n, hp, hx, hxn⟩
  obtain ⟨a, k, rfl, hb, hle⟩ := hbusy p n hp
  exact ⟨a, k, hb, hx, by simp only [headerSize] at *; omega⟩

/-- Storing a word in an owned block. -/
theorem Owned.store32 (ho : Owned h own) {k v : Nat} (hp : own p n) (hk : k + 4 ≤ n) :
    Owned { h with mem := h.mem.store32 (p + k) v } own := by
  refine ho.write fun x => ?_
  by_cases hx : p + k ≤ x ∧ x < p + k + 4
  · exact .inr ⟨p, n, hp, by omega, by omega⟩
  · exact .inl (store32_outside (by omega))

/-- A word of an owned block after a store into an owned block. -/
theorem Owned.load_store (ho : Owned h own) {mem : Memory} {j k v : Nat} (hp : own p n)
    (hq : own q m) (hj : j + 4 ≤ m) (hk : k + 4 ≤ n) (hj4 : j % 4 = 0) (hk4 : k % 4 = 0) :
    (mem.store32 (p + k) v).load32 (q + j) =
      if q = p ∧ j = k then v % 2 ^ 32 else mem.load32 (q + j) := by
  have hp8 := (ho.bounds hp).1
  have hq8 := (ho.bounds hq).1
  rw [load32_store32_aligned (by omega) (by omega)]
  by_cases hqp : q = p
  · subst hqp
    simp only [Nat.add_left_cancel_iff, true_and]
  · have := ho.disjoint hp hq (Ne.symm hqp)
    rw [if_neg (by omega), if_neg (by tauto)]

/-- `kmalloc` changes nothing that is owned, and what it returns is new. -/
theorem Owned.kmalloc {size : Nat} (ho : Owned h own) (hsize : size + 15 < 2 ^ 32)
    (hrun : h.kmalloc size = some (p, h')) :
    SameOwned own h.mem h'.mem ∧ Grows h h' ∧ Owned h' own ∧
      (p ≠ 0 → Owned h' (fun q n => own q n ∨ (q = p ∧ n = size)) ∧ ∀ n, ¬ own p n) := by
  obtain ⟨tiles, fl, hl, hbusy⟩ := ho
  obtain ⟨p', g, tiles', fl', hrun', hl', halloc⟩ := hl.kmalloc hsize
  obtain ⟨rfl, rfl⟩ := Prod.mk.inj (Option.some.inj (hrun.symm.trans hrun'))
  have hgrows := halloc.grows
  cases halloc with
  | refused _ _ hk =>
      refine ⟨fun q n hq x hx hxn => ?_, hgrows, ⟨tiles', fl', hl', fun q n hq => ?_⟩,
        fun h0 => absurd rfl h0⟩
      · obtain ⟨a, k, rfl, ha, hle⟩ := hbusy q n hq
        simp only [headerSize] at *
        exact (hk 0).bytes a k x (hl.ne_zero ha.1) ha (by omega) (by omega)
      · obtain ⟨a, k, heq, ha, hle⟩ := hbusy q n hq
        exact ⟨a, k, heq, ((hk 0).busy a k (hl.ne_zero ha.1)).mpr ha, hle⟩
  | granted b n _ _ hk hb hnew hn =>
      have hold : ∀ q m, own q m → ∃ a k, q = a + headerSize ∧
          Layout.Busy ⟨tiles, fl, []⟩ a k ∧ m + headerSize ≤ k ∧ a ≠ b := by
        intro q m hq
        obtain ⟨a, k, heq, ha, hle⟩ := hbusy q m hq
        refine ⟨a, k, heq, ha, hle, ?_⟩
        rintro rfl
        exact hnew k ha
      have hkept : ∀ q m, own q m → ∃ a k, q = a + headerSize ∧
          Layout.Busy ⟨tiles', fl', []⟩ a k ∧ m + headerSize ≤ k := by
        intro q m hq
        obtain ⟨a, k, heq, ha, hle, hab⟩ := hold q m hq
        exact ⟨a, k, heq, (hk.busy a k hab).mpr ha, hle⟩
      refine ⟨fun q m hq x hx hxn => ?_, hgrows, ⟨tiles', fl', hl', hkept⟩, fun _ =>
        ⟨⟨tiles', fl', hl', fun q m hq => ?_⟩, fun m hm => ?_⟩⟩
      · obtain ⟨a, k, rfl, ha, hle, hab⟩ := hold q m hq
        simp only [headerSize] at *
        exact hk.bytes a k x hab ha (by omega) (by omega)
      · rcases hq with hq | ⟨rfl, rfl⟩
        · exact hkept q m hq
        · exact ⟨b, n, rfl, hb, hn⟩
      · obtain ⟨a, k, heq, _, _, hab⟩ := hold _ m hm
        simp only [headerSize] at heq
        exact hab (by omega)

end Owned

end Kumo
