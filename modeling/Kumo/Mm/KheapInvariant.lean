import Kumo.Lib.Tiling
import Kumo.Mm.KheapFields
import Kumo.Mm.PmmRuns

/-!
# The layout of the heap

A `Layout` says how the heap pages are cut into blocks, which blocks the free list
holds, and which are in transit: taken off the list, or not yet put on it. `Laid h L`
says that the headers and links in memory describe that layout. Every operation of
the heap takes one layout to another, and `Keeps` says what it must not touch: a
block that is neither listed nor in transit stays a block, with all of its bytes.
-/

namespace Kumo

open Memory LinkedList

/-- How the heap is cut into blocks. -/
structure Layout where
  tiles : Tiles
  listed : List Nat
  transit : List Nat

/-- Byte `x` lies in a page of the heap. -/
def Kheap.InHeap (h : Kheap) (x : Nat) : Prop := pageOf x ∈ h.heapPages

/-- Memory holds exactly the layout. -/
structure Laid (h : Kheap) (L : Layout) : Prop where
  pages : ∀ page ∈ h.heapPages, h.pmm.KernelPage page
  pmm : h.pmm.Wf
  covers : L.tiles.Covers h.InHeap
  shape : ∀ a n, L.tiles a = some n → a % 8 = 0 ∧ n % 8 = 0 ∧ 16 ≤ n
  size : ∀ a n, L.tiles a = some n → blockSize h.mem a = n
  flag : ∀ a n, L.tiles a = some n → a ∉ L.transit →
    blockFree h.mem a = if a ∈ L.listed then 1 else 0
  chain : Chain (nextPtr h.mem) (prevPtr h.mem) 0 h.freeHead L.listed
  nodup : L.listed.Nodup
  tile : ∀ a ∈ L.listed, (L.tiles a).isSome
  apart : ∀ a ∈ L.listed, a ∉ L.transit

/-- A block that is neither on the free list nor in transit. -/
def Layout.Busy (L : Layout) (a n : Nat) : Prop :=
  L.tiles a = some n ∧ a ∉ L.listed ∧ a ∉ L.transit

/-- What the heap does to the rest of the machine: it takes pages that were free, and writes
nowhere but in its own pages. -/
structure Grows (h h' : Kheap) : Prop where
  pages : ∀ page ∈ h.heapPages, page ∈ h'.heapPages
  fresh : ∀ page ∈ h'.heapPages,
    page ∈ h.heapPages ∨ h.pmm.used (Pmm.pageIndex page) = false
  used : ∀ i, h.pmm.used i = true → h'.pmm.used i = true
  totalPages : h'.pmm.totalPages = h.pmm.totalPages
  outside : ∀ x, ¬ h'.InHeap x → h'.mem x = h.mem x

/-- The busy blocks other than `c` are the same before and after, with the same bytes. -/
structure Keeps (c : Nat) (h : Kheap) (L : Layout) (h' : Kheap) (L' : Layout) : Prop where
  busy : ∀ a n, a ≠ c → (L'.Busy a n ↔ L.Busy a n)
  bytes : ∀ a n x, a ≠ c → L.Busy a n → a ≤ x → x < a + n → h'.mem x = h.mem x
  grows : Grows h h'

/-- An operation that takes no page only has to stay inside the heap. -/
theorem Grows.of_writes {h h' : Kheap} (hpages : h'.heapPages = h.heapPages)
    (hpmm : h'.pmm = h.pmm) (hout : ∀ x, ¬ h.InHeap x → h'.mem x = h.mem x) : Grows h h' := by
  refine ⟨?_, ?_, ?_, by rw [hpmm], ?_⟩
  · rw [hpages]
    exact fun _ hpage => hpage
  · rw [hpages]
    exact fun _ hpage => .inl hpage
  · rw [hpmm]
    exact fun _ hi => hi
  · unfold Kheap.InHeap at *
    rw [hpages]
    exact hout

theorem Grows.refl (h : Kheap) : Grows h h := .of_writes rfl rfl fun _ _ => rfl

theorem Grows.trans {h h' h'' : Kheap} (h1 : Grows h h') (h2 : Grows h' h'') : Grows h h'' := by
  refine ⟨fun page hpage => h2.pages page (h1.pages page hpage), fun page hpage => ?_,
    fun i hi => h2.used i (h1.used i hi), h2.totalPages.trans h1.totalPages, fun x hx => ?_⟩
  · rcases h2.fresh page hpage with hold | hfree
    · exact h1.fresh page hold
    · refine .inr ?_
      cases hu : h.pmm.used (Pmm.pageIndex page) with
      | false => rfl
      | true => rw [h1.used _ hu] at hfree; exact hfree
  · exact (h2.outside x hx).trans (h1.outside x fun hin => hx (h2.pages _ hin))

theorem Keeps.refl (c : Nat) (h : Kheap) (L : Layout) : Keeps c h L h L :=
  ⟨fun _ _ _ => Iff.rfl, fun _ _ _ _ _ _ _ => rfl, .refl h⟩

theorem Keeps.trans {c : Nat} {h h' h'' : Kheap} {L L' L'' : Layout} (h1 : Keeps c h L h' L')
    (h2 : Keeps c h' L' h'' L'') : Keeps c h L h'' L'' :=
  ⟨fun a n hc => (h2.busy a n hc).trans (h1.busy a n hc), fun a n x hc hb hx hn =>
    (h2.bytes a n x hc ((h1.busy a n hc).mpr hb) hx hn).trans (h1.bytes a n x hc hb hx hn),
    h1.grows.trans h2.grows⟩

/-! ## What a layout says about addresses -/

section Addresses

variable {h : Kheap} {L : Layout} {a b n m x : Nat}

/-- A block lies in the kernel zone. -/
theorem Laid.bounds (hl : Laid h L) (ha : L.tiles a = some n) :
    managedBase ≤ a ∧ a + n ≤ userMemStart := by
  have hpos := hl.covers.pos a n ha
  have hfirst := hl.pages _ (hl.covers.inside a a ⟨n, ha, Nat.le_refl a, by omega⟩)
  have hlast := hl.pages _ (hl.covers.inside a (a + n - 1) ⟨n, ha, by omega, by omega⟩)
  have h1 := hfirst.lower
  have h2 := hlast.upper
  simp only [pageOf, pageSize] at h1 h2
  omega

theorem Laid.ne_zero (hl : Laid h L) (ha : L.tiles a = some n) : a ≠ 0 := by
  have := (hl.bounds ha).1
  simp only [managedBase] at this
  omega

theorem Laid.lt_word (hl : Laid h L) (ha : L.tiles a = some n) : a + n < 2 ^ 32 := by
  have := (hl.bounds ha).2
  simp only [userMemStart] at this
  omega

/-- The field groups of two blocks do not meet. -/
theorem Laid.sep (hl : Laid h L) (ha : L.tiles a = some n) (hb : L.tiles b = some m) :
    Sep a b := by
  have hn := (hl.shape a n ha).2.2
  have hm := (hl.shape b m hb).2.2
  rcases Nat.lt_trichotomy a b with hlt | heq | hgt
  · have := hl.covers.disjoint a n b m ha hb hlt
    exact .inr (.inl (by omega))
  · exact .inl heq
  · have := hl.covers.disjoint b m a n hb ha hgt
    exact .inr (.inr (by omega))

theorem Laid.listed_tile (hl : Laid h L) (ha : a ∈ L.listed) : ∃ n, L.tiles a = some n :=
  Option.isSome_iff_exists.mp (hl.tile a ha)

/-- A link is null or leads to a listed block, and so it meets no other block. -/
theorem Laid.sep_link (hl : Laid h L) {p : Nat} (hp : p = 0 ∨ p ∈ L.listed)
    (ha : L.tiles a = some n) : Sep p a := by
  rcases hp with rfl | hp
  · have := (hl.bounds ha).1
    simp only [managedBase] at this
    exact .inr (.inl (by omega))
  · obtain ⟨m, hm⟩ := hl.listed_tile hp
    exact hl.sep hm ha

/-- The fields of a block lie in the block. -/
theorem Laid.mem_fields (hl : Laid h L) (ha : L.tiles a = some n) (hx : InFields a x) :
    L.tiles.Mem a x := by
  have := (hl.shape a n ha).2.2
  exact ⟨n, ha, hx.1, by have := hx.2; omega⟩

/-- A byte of one block is not in the fields of another. -/
theorem Laid.not_in_fields (hl : Laid h L) (ha : L.tiles a = some n) (hx : a ≤ x)
    (hxn : x < a + n) (hb : L.tiles b = some m) (hne : a ≠ b) : ¬ InFields b x :=
  fun hf => hne (hl.covers.unique ⟨n, ha, hx, hxn⟩ (hl.mem_fields hb hf))

/-- A byte of a busy block is not in the fields of a listed one. -/
theorem Laid.not_in_link (hl : Laid h L) (ha : L.Busy a n) (hx : a ≤ x) (hxn : x < a + n)
    {p : Nat} (hp : p = 0 ∨ p ∈ L.listed) : p ≠ 0 → ¬ InFields p x := by
  intro hp0
  have hp := hp.resolve_left hp0
  obtain ⟨m, hm⟩ := hl.listed_tile hp
  exact hl.not_in_fields ha.1 hx hxn hm (fun heq => ha.2.1 (heq ▸ hp))

/-- A byte outside the heap is in no block. -/
theorem Laid.out_of_fields (hl : Laid h L) (hx : ¬ h.InHeap x) (hb : L.tiles b = some m) :
    ¬ InFields b x :=
  fun hf => hx (hl.covers.inside b x (hl.mem_fields hb hf))

theorem Laid.out_of_link (hl : Laid h L) (hx : ¬ h.InHeap x) {p : Nat}
    (hp : p = 0 ∨ p ∈ L.listed) : p ≠ 0 → ¬ InFields p x := by
  intro hp0
  obtain ⟨m, hm⟩ := hl.listed_tile (hp.resolve_left hp0)
  exact hl.out_of_fields hx hm

theorem Laid.next_link (hl : Laid h L) (hb : b ∈ L.listed) :
    nextPtr h.mem b = 0 ∨ nextPtr h.mem b ∈ L.listed :=
  hl.chain.next_mem hb

theorem Laid.prev_link (hl : Laid h L) (hb : b ∈ L.listed) :
    prevPtr h.mem b = 0 ∨ prevPtr h.mem b ∈ L.listed :=
  hl.chain.prev_mem hb

theorem Laid.zero_not_listed (hl : Laid h L) : 0 ∉ L.listed := by
  intro h0
  obtain ⟨n, hn⟩ := hl.listed_tile h0
  exact hl.ne_zero hn rfl

end Addresses

/-! ## One step each -/

section Steps

variable {h : Kheap} {tiles : Tiles} {fl T : List Nat} {a b c n m : Nat}

/-- A block is taken off the free list. -/
theorem Laid.flRemove (hl : Laid h ⟨tiles, fl, T⟩) (hb : b ∈ fl) :
    Laid (h.flRemove b) ⟨tiles, fl.erase b, b :: T⟩ ∧
      Keeps c h ⟨tiles, fl, T⟩ (h.flRemove b) ⟨tiles, fl.erase b, b :: T⟩ := by
  have hprev := hl.prev_link hb
  have hnext := hl.next_link hb
  have hf : ∀ a n, tiles a = some n → fields (h.flRemove b).mem a = _ := fun a n ha =>
    Kheap.fields_flRemove (hl.sep_link hprev ha) (hl.sep_link hnext ha) (hl.ne_zero ha)
  have hmem : ∀ a, a ∈ fl.erase b ↔ a ∈ fl ∧ a ≠ b := by
    intro a
    rw [hl.nodup.mem_erase_iff]
    exact And.comm
  refine ⟨⟨hl.pages, hl.pmm, hl.covers, hl.shape, ?_, ?_, ?_, hl.nodup.erase b, ?_, ?_⟩, ?_, ?_,
    .of_writes rfl rfl fun x hx =>
      Kheap.flRemove_outside (hl.out_of_link hx hprev) (hl.out_of_link hx hnext)⟩
  · intro a n ha
    exact (congrArg Fields.size (hf a n ha)).trans (hl.size a n ha)
  · intro a n ha hT
    simp only [List.mem_cons, not_or] at hT
    rw [show blockFree _ a = _ from congrArg Fields.free (hf a n ha)]
    refine (hl.flag a n ha hT.2).trans ?_
    simp only [hmem, hT.1, ne_eq, not_false_eq_true, and_true]
  · have hhead : (h.flRemove b).freeHead =
        if prevPtr h.mem b = 0 then nextPtr h.mem b else h.freeHead := by
      simp only [Kheap.flRemove, ne_eq, ite_not]
    rw [hhead]
    refine hl.chain.unlink hl.nodup hl.zero_not_listed hb (fun a ha _ => ?_) (fun a ha _ => ?_)
    · obtain ⟨n, hn⟩ := hl.listed_tile ha
      exact congrArg Fields.next (hf a n hn)
    · obtain ⟨n, hn⟩ := hl.listed_tile ha
      exact congrArg Fields.prev (hf a n hn)
  · exact fun a ha => hl.tile a ((hmem a).mp ha).1
  · intro a ha
    simp only [List.mem_cons, not_or]
    exact ⟨((hmem a).mp ha).2, hl.apart a ((hmem a).mp ha).1⟩
  · intro a n _
    simp only [Layout.Busy, hmem, List.mem_cons, not_or, not_and, not_not]
    constructor
    · rintro ⟨ha, hfl, hab, hT⟩
      exact ⟨ha, fun hm => hab (hfl hm), hT⟩
    · rintro ⟨ha, hfl, hT⟩
      exact ⟨ha, fun hm => absurd hm hfl, fun hab => hfl (hab ▸ hb), hT⟩
  · intro a n x _ ha hx hxn
    exact Kheap.flRemove_outside (hl.not_in_link ha hx hxn hprev) (hl.not_in_link ha hx hxn hnext)

/-- The fields of a block after a block in transit is put on the free list. -/
theorem Laid.fields_flInsert (hl : Laid h ⟨tiles, fl, b :: T⟩) (hb : tiles b = some n)
    (hsep : Sep b a) (hsephead : Sep h.freeHead a) (ha : a ≠ 0) :
    fields (h.flInsert b).mem a =
      if a = b then ⟨blockSize h.mem a, 1, h.freeHead, 0⟩
      else if a = h.freeHead then { fields h.mem a with prev := b } else fields h.mem a := by
  have hhead : h.freeHead = 0 ∨ h.freeHead ∈ fl := hl.chain.head_mem
  have hbhead : b ≠ h.freeHead := by
    rintro heq
    rcases hhead with h0 | hm
    · exact hl.ne_zero hb (heq.trans h0)
    · exact hl.apart b (heq ▸ hm) (by simp)
  have hhead32 : h.freeHead < 2 ^ 32 := by
    rcases hhead with h0 | hm
    · omega
    · obtain ⟨k, hk⟩ := hl.listed_tile hm
      have := hl.lt_word hk
      omega
  have hb32 : b < 2 ^ 32 := by
    have := hl.lt_word hb
    omega
  exact Kheap.fields_flInsert hsep hsephead hbhead ha hb32 hhead32

/-- A block in transit is put on the free list. -/
theorem Laid.flInsert (hl : Laid h ⟨tiles, fl, b :: T⟩) (hb : tiles b = some n) (hbT : b ∉ T) :
    Laid (h.flInsert b) ⟨tiles, b :: fl, T⟩ ∧
      Keeps c h ⟨tiles, fl, b :: T⟩ (h.flInsert b) ⟨tiles, b :: fl, T⟩ := by
  have hbfl : b ∉ fl := fun hm => hl.apart b hm (by simp)
  have hhead : h.freeHead = 0 ∨ h.freeHead ∈ fl := hl.chain.head_mem
  have hf : ∀ a n, tiles a = some n → fields (h.flInsert b).mem a = _ := fun a n ha =>
    hl.fields_flInsert hb (hl.sep hb ha) (hl.sep_link hhead ha) (hl.ne_zero ha)
  have hold : ∀ a ∈ fl, fields (h.flInsert b).mem a =
      if a = h.freeHead then { fields h.mem a with prev := b } else fields h.mem a := by
    intro a ha
    obtain ⟨n, hn⟩ := hl.listed_tile ha
    rw [hf a n hn, if_neg (fun heq : a = b => hbfl (heq ▸ ha))]
  have hnew := hf b n hb
  rw [if_pos rfl] at hnew
  refine ⟨⟨hl.pages, hl.pmm, hl.covers, hl.shape, ?_, ?_, ?_, ?_, ?_, ?_⟩, ?_, ?_,
    .of_writes rfl rfl fun x hx =>
      Kheap.flInsert_outside (hl.out_of_fields hx hb) (hl.out_of_link hx hhead)⟩
  · intro a n ha
    rw [show blockSize _ a = _ from congrArg Fields.size (hf a n ha)]
    refine Eq.trans ?_ (hl.size a n ha)
    split
    · rfl
    · split <;> rfl
  · intro a n ha hT
    rw [show blockFree _ a = _ from congrArg Fields.free (hf a n ha)]
    by_cases hab : a = b
    · simp [hab]
    · have hflag := hl.flag a n ha (by simp [hab, hT])
      simp only [hab, if_false, List.mem_cons, false_or]
      refine Eq.trans ?_ hflag
      split <;> rfl
  · refine hl.chain.push hl.nodup (hl.ne_zero hb) (congrArg Fields.next hnew)
      (congrArg Fields.prev hnew) (fun a ha => ?_) (fun a ha => ?_)
    · refine (congrArg Fields.next (hold a ha)).trans ?_
      split <;> rfl
    · refine (congrArg Fields.prev (hold a ha)).trans ?_
      split <;> rfl
  · exact List.nodup_cons.mpr ⟨hbfl, hl.nodup⟩
  · intro a ha
    rcases List.mem_cons.mp ha with rfl | ha
    · exact Option.isSome_iff_exists.mpr ⟨n, hb⟩
    · exact hl.tile a ha
  · intro a ha
    rcases List.mem_cons.mp ha with rfl | ha
    · exact hbT
    · exact fun hT => hl.apart a ha (List.mem_cons_of_mem _ hT)
  · intro a n _
    simp only [Layout.Busy, List.mem_cons, not_or]
    tauto
  · intro a n x _ ha hx hxn
    have hab : a ≠ b := fun heq => ha.2.2 (by simp [heq])
    exact Kheap.flInsert_outside (hl.not_in_fields ha.1 hx hxn hb hab)
      (hl.not_in_link ha hx hxn hhead)

/-- Setting the flag of a busy block puts it in transit. -/
theorem Laid.mark (hl : Laid h ⟨tiles, fl, T⟩) (hb : tiles b = some n) (hbfl : b ∉ fl) :
    Laid { h with mem := h.mem.store32 (b + 4) 1 } ⟨tiles, fl, b :: T⟩ ∧
      Keeps b h ⟨tiles, fl, T⟩ { h with mem := h.mem.store32 (b + 4) 1 } ⟨tiles, fl, b :: T⟩ := by
  have hf : ∀ a n, tiles a = some n → a ≠ b →
      fields (h.mem.store32 (b + 4) 1) a = fields h.mem a := by
    intro a n ha hab
    rw [fields_store_free (hl.sep hb ha) (by decide), if_neg hab]
  have hfl : ∀ a ∈ fl, fields (h.mem.store32 (b + 4) 1) a = fields h.mem a := by
    intro a ha
    obtain ⟨n, hn⟩ := hl.listed_tile ha
    exact hf a n hn (fun heq => hbfl (heq ▸ ha))
  refine ⟨⟨hl.pages, hl.pmm, hl.covers, hl.shape, ?_, ?_, ?_, hl.nodup, hl.tile, ?_⟩, ?_, ?_,
    .of_writes rfl rfl fun x hx => store_field_outside (by decide) (hl.out_of_fields hx hb)⟩
  · intro a n ha
    refine Eq.trans ?_ (hl.size a n ha)
    have := fields_store_free (m := h.mem) (v := 1) (hl.sep hb ha) (by decide)
    refine (congrArg Fields.size this).trans ?_
    split <;> rfl
  · intro a n ha hT
    simp only [List.mem_cons, not_or] at hT
    exact (congrArg Fields.free (hf a n ha hT.1)).trans (hl.flag a n ha hT.2)
  · exact hl.chain.congr (fun a ha => congrArg Fields.next (hfl a ha))
      (fun a ha => congrArg Fields.prev (hfl a ha))
  · intro a ha
    simp only [List.mem_cons, not_or]
    exact ⟨fun heq => hbfl (heq ▸ ha), hl.apart a ha⟩
  · intro a n hab
    simp only [Layout.Busy, List.mem_cons, not_or]
    tauto
  · intro a n x hab ha hx hxn
    exact store_field_outside (by decide) (hl.not_in_fields ha.1 hx hxn hb hab)

/-- Clearing the flag of a block in transit makes it busy. -/
theorem Laid.claim (hl : Laid h ⟨tiles, fl, b :: T⟩) (hb : tiles b = some n) (hbT : b ∉ T) :
    Laid { h with mem := h.mem.store32 (b + 4) 0 } ⟨tiles, fl, T⟩ ∧
      Keeps b h ⟨tiles, fl, b :: T⟩ { h with mem := h.mem.store32 (b + 4) 0 } ⟨tiles, fl, T⟩ ∧
      Layout.Busy ⟨tiles, fl, T⟩ b n := by
  have hbfl : b ∉ fl := fun hm => hl.apart b hm (by simp)
  have hf : ∀ a n, tiles a = some n → fields (h.mem.store32 (b + 4) 0) a =
      if a = b then { fields h.mem a with free := 0 } else fields h.mem a := fun a n ha =>
    fields_store_free (hl.sep hb ha) (by decide)
  have hfl : ∀ a ∈ fl, fields (h.mem.store32 (b + 4) 0) a = fields h.mem a := by
    intro a ha
    obtain ⟨n, hn⟩ := hl.listed_tile ha
    rw [hf a n hn, if_neg (fun heq : a = b => hbfl (heq ▸ ha))]
  refine ⟨⟨hl.pages, hl.pmm, hl.covers, hl.shape, ?_, ?_, ?_, hl.nodup, hl.tile, ?_⟩, ⟨?_, ?_,
    .of_writes rfl rfl fun x hx => store_field_outside (by decide) (hl.out_of_fields hx hb)⟩,
    hb, hbfl, hbT⟩
  · intro a n ha
    refine Eq.trans ?_ (hl.size a n ha)
    refine (congrArg Fields.size (hf a n ha)).trans ?_
    split <;> rfl
  · intro a n ha hT
    refine (congrArg Fields.free (hf a n ha)).trans ?_
    by_cases hab : a = b
    · simp [hab, hbfl]
    · rw [if_neg hab]
      exact hl.flag a n ha (by simp [hab, hT])
  · exact hl.chain.congr (fun a ha => congrArg Fields.next (hfl a ha))
      (fun a ha => congrArg Fields.prev (hfl a ha))
  · exact fun a ha hT => hl.apart a ha (List.mem_cons_of_mem _ hT)
  · intro a n hab
    simp only [Layout.Busy, List.mem_cons, not_or]
    tauto
  · intro a n x hab ha hx hxn
    exact store_field_outside (by decide) (hl.not_in_fields ha.1 hx hxn hb hab)

/-- A block absorbs the block in transit that follows it. -/
theorem Laid.absorb (hl : Laid h ⟨tiles, fl, (a + n) :: T⟩) (ha : tiles a = some n)
    (hb : tiles (a + n) = some m) (hbT : a ∈ T ∨ a ∈ fl) :
    Laid { h with mem := h.mem.store32 a (n + m) } ⟨tiles.merge a (a + n) (n + m), fl, T⟩ ∧
      Keeps c h ⟨tiles, fl, (a + n) :: T⟩ { h with mem := h.mem.store32 a (n + m) }
        ⟨tiles.merge a (a + n) (n + m), fl, T⟩ := by
  have hn := hl.shape a n ha
  have hm := hl.shape (a + n) m hb
  have h32 := hl.lt_word hb
  -- a block of the merged tiling is the absorbing one or an old one
  have htile : ∀ d k, tiles.merge a (a + n) (n + m) d = some k →
      (d = a ∧ k = n + m) ∨ (d ≠ a ∧ d ≠ a + n ∧ tiles d = some k) := by
    intro d k hd
    rw [Tiles.merge_apply] at hd
    split at hd
    · next hda => exact .inl ⟨hda, (Option.some.inj hd).symm⟩
    · split at hd
      · cases hd
      · next h1 h2 => exact .inr ⟨h1, h2, hd⟩
  have hf : ∀ d k, tiles d = some k → fields (h.mem.store32 a (n + m)) d =
      if d = a then { fields h.mem d with size := n + m } else fields h.mem d := fun d k hd =>
    fields_store_size (hl.sep ha hd) (by omega)
  have hlinks : ∀ d ∈ fl, nextPtr (h.mem.store32 a (n + m)) d = nextPtr h.mem d ∧
      prevPtr (h.mem.store32 a (n + m)) d = prevPtr h.mem d := by
    intro d hd
    obtain ⟨k, hk⟩ := hl.listed_tile hd
    have := hf d k hk
    constructor
    · refine (congrArg Fields.next this).trans ?_
      split <;> rfl
    · refine (congrArg Fields.prev this).trans ?_
      split <;> rfl
  refine ⟨⟨hl.pages, hl.pmm, hl.covers.merge ha hb, ?_, ?_, ?_, ?_, hl.nodup, ?_, ?_⟩, ?_, ?_,
    .of_writes rfl rfl fun x hx =>
      store_field_outside (k := 0) (by decide) (hl.out_of_fields hx ha)⟩
  · intro d k hd
    rcases htile d k hd with ⟨rfl, rfl⟩ | ⟨_, _, hd⟩
    · exact ⟨hn.1, by omega, by omega⟩
    · exact hl.shape d k hd
  · intro d k hd
    rcases htile d k hd with ⟨rfl, rfl⟩ | ⟨hda, _, hd⟩
    · refine (congrArg Fields.size (hf d n ha)).trans ?_
      rw [if_pos rfl]
    · refine (congrArg Fields.size (hf d k hd)).trans ?_
      rw [if_neg hda]
      exact hl.size d k hd
  · intro d k hd hT
    have hold : ∃ k', tiles d = some k' ∧ d ≠ a + n := by
      rcases htile d k hd with ⟨rfl, rfl⟩ | ⟨_, hdb, hd⟩
      · exact ⟨n, ha, by omega⟩
      · exact ⟨k, hd, hdb⟩
    obtain ⟨k', hd', hdb⟩ := hold
    refine Eq.trans ?_ (hl.flag d k' hd' (by simp [hdb, hT]))
    refine (congrArg Fields.free (hf d k' hd')).trans ?_
    split <;> rfl
  · exact hl.chain.congr (fun d hd => (hlinks d hd).1) (fun d hd => (hlinks d hd).2)
  · intro d hd
    have hdb : d ≠ a + n := fun heq => hl.apart d hd (by simp [heq])
    show (tiles.merge a (a + n) (n + m) d).isSome
    rw [Tiles.merge_apply, if_neg hdb]
    split
    · rfl
    · exact hl.tile d hd
  · exact fun d hd hT => hl.apart d hd (List.mem_cons_of_mem _ hT)
  · intro d k _
    simp only [Layout.Busy, List.mem_cons, not_or]
    constructor
    · rintro ⟨hd, hfl, hT⟩
      rcases htile d k hd with ⟨rfl, rfl⟩ | ⟨_, hdb, hd⟩
      · exact absurd hbT (by simp [hfl, hT])
      · exact ⟨hd, hfl, hdb, hT⟩
    · rintro ⟨hd, hfl, hdb, hT⟩
      have hda : d ≠ a := by
        rintro rfl
        exact absurd hbT (by simp [hfl, hT])
      exact ⟨by rw [Tiles.merge_apply, if_neg hda, if_neg hdb]; exact hd, hfl, hT⟩
  · intro d k x _ hd hx hxk
    have hda : d ≠ a := by
      rintro rfl
      rcases hbT with hT | hfl
      · exact hd.2.2 (List.mem_cons_of_mem _ hT)
      · exact hd.2.1 hfl
    exact store_field_outside (k := 0) (by decide) (hl.not_in_fields hd.1 hx hxk ha hda)

/-- A listed block is cut in two; the rest takes its place on the list. -/
theorem Laid.splitBlock {needed : Nat} (hl : Laid h ⟨tiles, fl, T⟩) (hb : b ∈ fl)
    (hn : tiles b = some n) (h8 : needed % 8 = 0) (hneeded : 16 ≤ needed)
    (hrest : needed + 16 ≤ n) (hT : ∀ a ∈ T, (tiles a).isSome) :
    Laid (h.splitBlock b needed) ⟨tiles.split b n needed, put fl b (b + needed), b :: T⟩ ∧
      Keeps c h ⟨tiles, fl, T⟩ (h.splitBlock b needed)
        ⟨tiles.split b n needed, put fl b (b + needed), b :: T⟩ := by
  have hprev := hl.prev_link hb
  have hnext := hl.next_link hb
  have hshape := hl.shape b n hn
  have h32 := hl.lt_word hn
  have hb0 := hl.ne_zero hn
  -- the new block starts inside the old one, where no block started before
  have hnone : tiles (b + needed) = none := by
    cases hr : tiles (b + needed) with
    | none => rfl
    | some k =>
        have := hl.covers.disjoint b n (b + needed) k hn hr (by omega)
        omega
  have hrfl : b + needed ∉ fl := fun hm => by
    obtain ⟨k, hk⟩ := hl.listed_tile hm
    exact absurd (hnone.symm.trans hk) (by simp)
  have hrT : b + needed ∉ T := fun hm => by
    have := hT _ hm
    rw [hnone] at this
    cases this
  have hlink : ∀ p, p = 0 ∨ p ∈ fl → b + needed ≠ p := by
    rintro p (rfl | hp) heq
    · omega
    · exact hrfl (heq ▸ hp)
  have hcovers := hl.covers.split hn (show 0 < needed by omega) (show needed < n by omega)
  have htile : ∀ d k, tiles.split b n needed d = some k →
      (d = b ∧ k = needed) ∨ (d = b + needed ∧ k = n - needed) ∨
        (d ≠ b ∧ d ≠ b + needed ∧ tiles d = some k) := by
    intro d k hd
    rw [Tiles.split_apply] at hd
    split at hd
    · next h1 => exact .inl ⟨h1, (Option.some.inj hd).symm⟩
    · split at hd
      · next h2 => exact .inr (.inl ⟨h2, (Option.some.inj hd).symm⟩)
      · next h1 h2 => exact .inr (.inr ⟨h1, h2, hd⟩)
  have hsepr : ∀ d k, tiles d = some k → Sep (b + needed) d := by
    intro d k hd
    by_cases hdb : d = b
    · subst hdb
      exact .inr (.inr (by omega))
    · have hk := (hl.shape d k hd).2.2
      rcases Nat.lt_or_gt_of_ne hdb with hlt | hgt
      · have := hl.covers.disjoint d k b n hd hn hlt
        exact .inr (.inr (by omega))
      · have := hl.covers.disjoint b n d k hn hd hgt
        exact .inr (.inl (by omega))
  have hsize := hl.size b n hn
  have hf : ∀ d k, tiles d = some k → fields (h.splitBlock b needed).mem d = _ := fun d k hd =>
    Kheap.fields_splitBlock (hsepr d k hd) (hl.sep hn hd) hneeded (hl.sep_link hprev hd)
      (hl.sep_link hnext hd) (hlink _ hprev) (hlink _ hnext) (hl.ne_zero hd) (by omega)
  have hold : ∀ d k, tiles d = some k → fields (h.splitBlock b needed).mem d =
      { size := if d = b then needed else blockSize h.mem d
        free := blockFree h.mem d
        next := if d = prevPtr h.mem b then b + needed else nextPtr h.mem d
        prev := if d = nextPtr h.mem b then b + needed else prevPtr h.mem d } := by
    intro d k hd
    have hdr : d ≠ b + needed := fun heq => by rw [heq, hnone] at hd; cases hd
    rw [hf d k hd, if_neg hdr]
  have hsepl : ∀ p, p = 0 ∨ p ∈ fl → Sep p (b + needed) := by
    rintro p (rfl | hp)
    · exact .inr (.inl (by have := (hl.bounds hn).1; simp only [managedBase] at this; omega))
    · obtain ⟨k, hk⟩ := hl.listed_tile hp
      rcases hsepr p k hk with heq | hlt | hgt
      · exact .inl heq.symm
      · exact .inr (.inr hlt)
      · exact .inr (.inl hgt)
  have hnew : fields (h.splitBlock b needed).mem (b + needed) =
      ⟨n - needed, 1, nextPtr h.mem b, prevPtr h.mem b⟩ := by
    rw [Kheap.fields_splitBlock (.inl rfl) (.inr (.inl (by omega))) hneeded (hsepl _ hprev)
      (hsepl _ hnext) (hlink _ hprev) (hlink _ hnext) (by omega) (by omega), if_pos rfl, hsize]
  have hrest_mem : ∀ x, InFields (b + needed) x → tiles.Mem b x := fun x hr =>
    ⟨n, hn, by have := hr.1; omega, by have := hr.2; omega⟩
  have hmem : ∀ d, d ∈ put fl b (b + needed) ↔ d = b + needed ∨ (d ∈ fl ∧ d ≠ b) := fun d =>
    mem_put hb
  refine ⟨⟨hl.pages, hl.pmm, hcovers, ?_, ?_, ?_, ?_, nodup_put hl.nodup hrfl, ?_, ?_⟩, ?_, ?_,
    .of_writes rfl rfl fun x hx => ?_⟩
  · intro d k hd
    rcases htile d k hd with ⟨rfl, rfl⟩ | ⟨rfl, rfl⟩ | ⟨_, _, hd⟩
    · exact ⟨hshape.1, h8, hneeded⟩
    · omega
    · exact hl.shape d k hd
  · intro d k hd
    rcases htile d k hd with ⟨rfl, rfl⟩ | ⟨rfl, rfl⟩ | ⟨hdb, _, hd⟩
    · refine (congrArg Fields.size (hold d n hn)).trans ?_
      simp
    · exact congrArg Fields.size hnew
    · refine (congrArg Fields.size (hold d k hd)).trans ?_
      rw [if_neg hdb]
      exact hl.size d k hd
  · intro d k hd hdT
    simp only [List.mem_cons, not_or] at hdT
    rcases htile d k hd with ⟨rfl, _⟩ | ⟨rfl, rfl⟩ | ⟨hdb, hdr, hd⟩
    · exact absurd rfl hdT.1
    · rw [if_pos ((hmem _).mpr (.inl rfl))]
      exact congrArg Fields.free hnew
    · refine (congrArg Fields.free (hold d k hd)).trans ((hl.flag d k hd hdT.2).trans ?_)
      simp only [hmem, hdr, hdb, ne_eq, not_false_eq_true, and_true, false_or]
  · have hhead : (h.splitBlock b needed).freeHead =
        if prevPtr h.mem b = 0 then b + needed else h.freeHead := by
      obtain ⟨_, hp⟩ := Kheap.links_new_header (m := h.mem) (v := blockSize h.mem b - needed)
        (show b + 16 ≤ b + needed by omega)
      simp only [Kheap.splitBlock]
      rw [hp]
      simp only [ne_eq, ite_not]
    rw [hhead]
    refine hl.chain.replace hl.nodup hl.zero_not_listed hb (by omega) (congrArg Fields.next hnew)
      (congrArg Fields.prev hnew) (fun d hd _ => ?_) (fun d hd _ => ?_)
    · obtain ⟨k, hk⟩ := hl.listed_tile hd
      exact congrArg Fields.next (hold d k hk)
    · obtain ⟨k, hk⟩ := hl.listed_tile hd
      exact congrArg Fields.prev (hold d k hk)
  · intro d hd
    show (tiles.split b n needed d).isSome
    rw [Tiles.split_apply]
    rcases (hmem d).mp hd with rfl | ⟨hd, hdb⟩
    · rw [if_neg (by omega), if_pos rfl]
      rfl
    · rw [if_neg hdb]
      split
      · rfl
      · exact hl.tile d hd
  · intro d hd
    simp only [List.mem_cons, not_or]
    rcases (hmem d).mp hd with rfl | ⟨hd, hdb⟩
    · exact ⟨by omega, hrT⟩
    · exact ⟨hdb, hl.apart d hd⟩
  · intro d k _
    simp only [Layout.Busy, hmem, List.mem_cons, not_or, not_and, not_not]
    constructor
    · rintro ⟨hd, ⟨hdr, hfl⟩, hdb, hdT⟩
      rcases htile d k hd with ⟨h1, _⟩ | ⟨h1, _⟩ | ⟨_, _, hd⟩
      · exact absurd h1 hdb
      · exact absurd h1 hdr
      · exact ⟨hd, fun hm => hdb (hfl hm), hdT⟩
    · rintro ⟨hd, hfl, hdT⟩
      have hdb : d ≠ b := fun heq => hfl (heq ▸ hb)
      have hdr : d ≠ b + needed := fun heq => by rw [heq, hnone] at hd; cases hd
      exact ⟨by rw [Tiles.split_apply, if_neg hdb, if_neg hdr]; exact hd,
        ⟨hdr, fun hm => absurd hm hfl⟩, hdb, hdT⟩
  · intro d k x _ hd hx hxk
    have hdb : d ≠ b := fun heq => hd.2.1 (heq ▸ hb)
    refine Kheap.splitBlock_outside hneeded (hl.not_in_fields hd.1 hx hxk hn hdb) ?_
      (hl.not_in_link hd hx hxk hprev) (hl.not_in_link hd hx hxk hnext)
    -- the fields of the new block are bytes of the old one
    exact fun hr => hdb (hl.covers.unique ⟨k, hd.1, hx, hxk⟩ (hrest_mem x hr))
  · exact Kheap.splitBlock_outside hneeded (hl.out_of_fields hx hn)
      (fun hr => hx (hl.covers.inside b x (hrest_mem x hr))) (hl.out_of_link hx hprev)
      (hl.out_of_link hx hnext)

end Steps

end Kumo
