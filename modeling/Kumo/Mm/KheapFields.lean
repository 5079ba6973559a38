import Kumo.Lib.LinkedList
import Kumo.Mm.Kheap

/-!
# The words a heap operation writes

Each operation of the heap stores into the four words at the start of a few blocks.
`Sep a b` says that two such four-word groups coincide or do not meet. The lemmas
give the four fields of a block `a` after each operation, and the bytes that the
operation leaves alone.
-/

namespace Kumo

open Memory

/-- The header and the list links of a block, as stored. -/
@[ext] structure Fields where
  size : Nat
  free : Nat
  next : Nat
  prev : Nat

/-- The four words at `a`. -/
def fields (m : Memory) (a : Nat) : Fields :=
  ⟨blockSize m a, blockFree m a, nextPtr m a, prevPtr m a⟩

/-- The first sixteen bytes at `a` and at `b` are the same bytes or do not overlap. -/
def Sep (a b : Nat) : Prop := a = b ∨ a + 16 ≤ b ∨ b + 16 ≤ a

/-- Byte `x` lies in the header or the link fields of `a`. -/
def InFields (a x : Nat) : Prop := a ≤ x ∧ x < a + 16

theorem nextPtr_lt (m : Memory) (b : Nat) : nextPtr m b < 2 ^ 32 := load32_lt m _

theorem prevPtr_lt (m : Memory) (b : Nat) : prevPtr m b < 2 ^ 32 := load32_lt m _

/-- The fields of a block depend only on its first sixteen bytes. -/
theorem fields_congr {m m' : Memory} {a : Nat} (h : ∀ x, InFields a x → m' x = m x) :
    fields m' a = fields m a := by
  simp only [InFields] at h
  ext <;> exact load32_congr fun x _ _ => h x ⟨by omega, by omega⟩

/-! ## Stores into one field -/

/-- Storing the size of `b` changes the size of `b` only. -/
theorem fields_store_size {m : Memory} {a b v : Nat} (hsep : Sep b a) (hv : v < 2 ^ 32) :
    fields (m.store32 b v) a = if a = b then { fields m a with size := v } else fields m a := by
  unfold Sep at hsep
  split
  · next hab =>
      subst hab
      ext
      · exact (load32_store32 m a v).trans (Nat.mod_eq_of_lt hv)
      all_goals exact load32_store32_disjoint (by omega)
  · ext <;> exact load32_store32_disjoint (by omega)

/-- Storing the free flag of `b` changes the flag of `b` only. -/
theorem fields_store_free {m : Memory} {a b v : Nat} (hsep : Sep b a) (hv : v < 2 ^ 32) :
    fields (m.store32 (b + 4) v) a =
      if a = b then { fields m a with free := v } else fields m a := by
  unfold Sep at hsep
  split
  · next hab =>
      subst hab
      ext
      case free => exact (load32_store32 m (a + 4) v).trans (Nat.mod_eq_of_lt hv)
      all_goals exact load32_store32_disjoint (by omega)
  · ext <;> exact load32_store32_disjoint (by omega)

/-- Storing the `next` link of `b` changes that link only. -/
theorem fields_store_next {m : Memory} {a b v : Nat} (hsep : Sep b a) (hv : v < 2 ^ 32) :
    fields (m.store32 (b + 8) v) a =
      if a = b then { fields m a with next := v } else fields m a := by
  unfold Sep at hsep
  split
  · next hab =>
      subst hab
      ext
      case next => exact (load32_store32 m (a + 8) v).trans (Nat.mod_eq_of_lt hv)
      all_goals exact load32_store32_disjoint (by omega)
  · ext <;> exact load32_store32_disjoint (by omega)

/-- Storing the `prev` link of `b` changes that link only. -/
theorem fields_store_prev {m : Memory} {a b v : Nat} (hsep : Sep b a) (hv : v < 2 ^ 32) :
    fields (m.store32 (b + 12) v) a =
      if a = b then { fields m a with prev := v } else fields m a := by
  unfold Sep at hsep
  split
  · next hab =>
      subst hab
      ext
      case prev => exact (load32_store32 m (a + 12) v).trans (Nat.mod_eq_of_lt hv)
      all_goals exact load32_store32_disjoint (by omega)
  · ext <;> exact load32_store32_disjoint (by omega)

/-- `if (c) *next_ptr(c) = v`. -/
theorem fields_link_next {m : Memory} {a c v : Nat} (hsep : Sep c a) (ha : a ≠ 0)
    (hv : v < 2 ^ 32) : fields (if c ≠ 0 then m.store32 (c + 8) v else m) a =
      if a = c then { fields m a with next := v } else fields m a := by
  by_cases hc : c = 0
  · rw [if_neg (not_not_intro hc), if_neg (by omega)]
  · rw [if_pos hc, fields_store_next hsep hv]

/-- `if (c) *prev_ptr(c) = v`. -/
theorem fields_link_prev {m : Memory} {a c v : Nat} (hsep : Sep c a) (ha : a ≠ 0)
    (hv : v < 2 ^ 32) : fields (if c ≠ 0 then m.store32 (c + 12) v else m) a =
      if a = c then { fields m a with prev := v } else fields m a := by
  by_cases hc : c = 0
  · rw [if_neg (not_not_intro hc), if_neg (by omega)]
  · rw [if_pos hc, fields_store_prev hsep hv]

/-- A store into a field of `b` leaves every other byte alone. -/
theorem store_field_outside {m : Memory} {b k v x : Nat} (hk : k + 4 ≤ 16)
    (hx : ¬ InFields b x) : m.store32 (b + k) v x = m x := by
  simp only [InFields] at hx
  exact store32_outside (by omega)

/-- A guarded store into a link of `c` leaves every other byte alone. -/
theorem link_outside {m : Memory} {c k v x : Nat} (hk : k + 4 ≤ 16)
    (hx : c ≠ 0 → ¬ InFields c x) : (if c ≠ 0 then m.store32 (c + k) v else m) x = m x := by
  split
  · next hc => exact store_field_outside hk (hx hc)
  · rfl

namespace Kheap

variable {h : Kheap} {a b x : Nat}

/-! ## The operations on the free list -/

/-- The fields of block `a` after `fl_insert(b)`. -/
theorem fields_flInsert (hb : Sep b a) (hhead : Sep h.freeHead a) (hbhead : b ≠ h.freeHead)
    (ha : a ≠ 0) (hb32 : b < 2 ^ 32) (hhead32 : h.freeHead < 2 ^ 32) :
    fields (h.flInsert b).mem a =
      if a = b then ⟨blockSize h.mem a, 1, h.freeHead, 0⟩
      else if a = h.freeHead then { fields h.mem a with prev := b } else fields h.mem a := by
  simp only [flInsert]
  rw [fields_link_prev hhead ha hb32, fields_store_prev hb (by decide),
    fields_store_next hb hhead32, fields_store_free hb (by decide)]
  by_cases hab : a = b
  · simp only [if_pos hab]
    rw [if_neg (hab ▸ hbhead)]
    rfl
  · simp only [if_neg hab]

/-- `fl_insert(b)` writes into `b` and the old head only. -/
theorem flInsert_outside (hb : ¬ InFields b x) (hhead : h.freeHead ≠ 0 → ¬ InFields h.freeHead x) :
    (h.flInsert b).mem x = h.mem x := by
  simp only [flInsert]
  rw [link_outside (by decide) hhead, store_field_outside (by decide) hb,
    store_field_outside (by decide) hb, store_field_outside (by decide) hb]

/-- The fields of block `a` after `fl_remove(b)`. -/
theorem fields_flRemove (hprev : Sep (prevPtr h.mem b) a) (hnext : Sep (nextPtr h.mem b) a)
    (ha : a ≠ 0) : fields (h.flRemove b).mem a =
      { fields h.mem a with
        next := if a = prevPtr h.mem b then nextPtr h.mem b else nextPtr h.mem a
        prev := if a = nextPtr h.mem b then prevPtr h.mem b else prevPtr h.mem a } := by
  simp only [flRemove]
  rw [fields_link_prev hnext ha (prevPtr_lt _ _), fields_link_next hprev ha (nextPtr_lt _ _)]
  split <;> split <;> rfl

/-- `fl_remove(b)` writes into the neighbours of `b` only. -/
theorem flRemove_outside (hprev : prevPtr h.mem b ≠ 0 → ¬ InFields (prevPtr h.mem b) x)
    (hnext : nextPtr h.mem b ≠ 0 → ¬ InFields (nextPtr h.mem b) x) :
    (h.flRemove b).mem x = h.mem x := by
  simp only [flRemove]
  rw [link_outside (by decide) hnext, link_outside (by decide) hprev]

/-- Writing the header of the new block leaves the links of `b` alone. -/
theorem links_new_header {m : Memory} {r v : Nat} (hrb : b + 16 ≤ r) :
    nextPtr ((m.store32 r v).store32 (r + 4) 1) b = nextPtr m b ∧
      prevPtr ((m.store32 r v).store32 (r + 4) 1) b = prevPtr m b := by
  have hkeep : fields ((m.store32 r v).store32 (r + 4) 1) b = fields m b :=
    fields_congr fun y hy => by
      simp only [InFields] at hy
      rw [store32_outside (by omega), store32_outside (by omega)]
  exact ⟨congrArg Fields.next hkeep, congrArg Fields.prev hkeep⟩

/-- The fields of block `a` after `b` is cut at `b + needed`. -/
theorem fields_splitBlock {needed : Nat} (hr : Sep (b + needed) a) (hb : Sep b a)
    (hneeded : 16 ≤ needed) (hprev : Sep (prevPtr h.mem b) a)
    (hnext : Sep (nextPtr h.mem b) a) (hrp : b + needed ≠ prevPtr h.mem b)
    (hrn : b + needed ≠ nextPtr h.mem b) (ha : a ≠ 0) (hr32 : b + needed < 2 ^ 32) :
    fields (h.splitBlock b needed).mem a =
      if a = b + needed then
        ⟨blockSize h.mem b - needed, 1, nextPtr h.mem b, prevPtr h.mem b⟩
      else
        { size := if a = b then needed else blockSize h.mem a
          free := blockFree h.mem a
          next := if a = prevPtr h.mem b then b + needed else nextPtr h.mem a
          prev := if a = nextPtr h.mem b then b + needed else prevPtr h.mem a } := by
  obtain ⟨hn, hp⟩ := links_new_header (m := h.mem) (v := blockSize h.mem b - needed)
    (show b + 16 ≤ b + needed by omega)
  have hsize := load32_lt h.mem b
  change blockSize h.mem b < _ at hsize
  simp only [splitBlock]
  rw [hn, hp, fields_store_size hb (by omega), fields_link_prev hnext ha hr32,
    fields_link_next hprev ha hr32, fields_store_prev hr (prevPtr_lt _ _),
    fields_store_next hr (nextPtr_lt _ _), fields_store_free hr (by decide),
    fields_store_size hr (by omega)]
  have hbr : b + needed ≠ b := by omega
  by_cases har : a = b + needed
  · subst har
    simp only [if_true, if_neg hbr]
    rw [if_neg hrn, if_neg hrp]
  · simp only [if_neg har]
    split <;> split <;> split <;> rfl

/-- The cut writes into `b`, the new block and the neighbours of `b` only. -/
theorem splitBlock_outside {needed : Nat} (hneeded : 16 ≤ needed)
    (hb : ¬ InFields b x) (hr : ¬ InFields (b + needed) x)
    (hprev : prevPtr h.mem b ≠ 0 → ¬ InFields (prevPtr h.mem b) x)
    (hnext : nextPtr h.mem b ≠ 0 → ¬ InFields (nextPtr h.mem b) x) :
    (h.splitBlock b needed).mem x = h.mem x := by
  obtain ⟨hn, hp⟩ := links_new_header (m := h.mem) (v := blockSize h.mem b - needed)
    (show b + 16 ≤ b + needed by omega)
  simp only [splitBlock]
  have hhead : ∀ (m : Memory) (c v : Nat), ¬ InFields c x → m.store32 c v x = m x :=
    fun m c v hc => store_field_outside (k := 0) (by decide) hc
  rw [hn, hp, hhead _ _ _ hb, link_outside (by decide) hnext, link_outside (by decide) hprev,
    store_field_outside (by decide) hr, store_field_outside (by decide) hr,
    store_field_outside (by decide) hr, hhead _ _ _ hr]

end Kheap

end Kumo
