import Kumo.Mm.KheapMerging

/-!
# A second `kfree` of the same pointer

`kfree` notices a double free by the flag in the header of the block. The header may by then
lie inside a block that has absorbed it. As long as nothing is allocated the flag stays set:
blocks only grow, so every word the heap writes belongs to the header or the links of a block
that was there before, and a header inside a free block meets none of these.
-/

namespace Kumo

open Memory LinkedList Transition

/-- The header at `b` is that of a free block, or lies in one behind its header and links. -/
def Layout.Covered (L : Layout) (b : Nat) : Prop :=
  ∃ a n, (a ∈ L.listed ∨ a ∈ L.transit) ∧ L.tiles a = some n ∧
    (b = a ∨ (a + 16 ≤ b ∧ b + 16 ≤ a + n))

section Layouts

variable {h : Kheap} {L M : Layout} {tiles : Tiles} {fl : List Nat} {b c n p : Nat}

/-- A covered header coincides with the header of a block, or does not meet it. -/
theorem Laid.sep_covered (hl : Laid h L) (hb : L.Covered b) (hc : L.tiles c = some n) :
    Sep c b := by
  obtain ⟨a, k, _, ha, hab⟩ := hb
  rcases hab with rfl | ⟨hlow, hhigh⟩
  · exact hl.sep hc ha
  · have hk := (hl.shape a k ha).2.2
    have hn := (hl.shape c n hc).2.2
    rcases Nat.lt_trichotomy c a with hlt | rfl | hgt
    · have := hl.covers.disjoint c n a k hc ha hlt
      exact .inr (.inl (by omega))
    · exact .inr (.inl hlow)
    · have := hl.covers.disjoint a k c n ha hc hgt
      exact .inr (.inr (by omega))

theorem Laid.covered_ne_zero (hl : Laid h L) (hb : L.Covered b) : b ≠ 0 := by
  obtain ⟨a, k, _, ha, hab⟩ := hb
  have := hl.ne_zero ha
  omega

/-- A link is null or leads to a listed block. -/
theorem Laid.sep_covered_link (hl : Laid h L) (hb : L.Covered b) (hp : p = 0 ∨ p ∈ L.listed) :
    Sep p b := by
  rcases hp with rfl | hp
  · obtain ⟨a, k, _, ha, hab⟩ := hb
    have := (hl.bounds ha).1
    simp only [managedBase] at this
    exact .inr (.inl (by omega))
  · obtain ⟨k, hk⟩ := hl.listed_tile hp
    exact hl.sep_covered hb hk

/-- Every block holds at least its header and its links. -/
def Layout.Roomy (L : Layout) : Prop := ∀ a n, L.tiles a = some n → 16 ≤ n

theorem Layout.Forward.roomy (hf : Layout.Forward c L M) (hr : L.Roomy) : M.Roomy := by
  cases hf with
  | alone _ _ => exact hr
  | @absorbs tiles fl n m hc _ _ _ _ =>
      intro a k ha
      have hn := hr c n hc
      by_cases hac : a = c
      · subst hac
        obtain rfl := Option.some.inj ((Tiles.merge_self ..).symm.trans ha)
        omega
      · by_cases han : a = c + n
        · have hnone := (Tiles.merge_apply tiles c (c + n) (n + m) a).symm.trans ha
          rw [if_neg hac, if_pos han] at hnone
          cases hnone
        · exact hr a k ((Tiles.merge_other hac han).symm.trans ha)

/-- A block that absorbs the next one covers what that one covered. -/
theorem Layout.Forward.covered (hf : Layout.Forward c L M) (hr : L.Roomy) (hb : L.Covered b) :
    M.Covered b := by
  cases hf with
  | alone _ _ => exact hb
  | @absorbs tiles fl n m hc hpos hnext _ _ =>
      have hn := hr c n hc
      have hm := hr (c + n) m hnext
      obtain ⟨a, k, hfree, ha, hab⟩ := hb
      by_cases hac : a = c
      · subst hac
        obtain rfl := Option.some.inj (hc.symm.trans ha)
        exact ⟨a, n + m, .inr (by simp), Tiles.merge_self .., by omega⟩
      · by_cases han : a = c + n
        · subst han
          obtain rfl := Option.some.inj (hnext.symm.trans ha)
          exact ⟨c, n + m, .inr (by simp), Tiles.merge_self .., by omega⟩
        · have hafl : a ∈ fl := hfree.resolve_right (by simpa using hac)
          exact ⟨a, k, .inl ((List.mem_erase_of_ne han).mpr hafl),
            (Tiles.merge_other hac han).trans ha, hab⟩

/-- So does the block before it, and the list. -/
theorem Layout.Backward.covered (hf : Layout.Backward c L M) (hr : L.Roomy) (hb : L.Covered b) :
    M.Covered b := by
  obtain ⟨a, k, hfree, ha, hab⟩ := hb
  cases hf with
  | inserted _ _ =>
      refine ⟨a, k, .inl ?_, ha, hab⟩
      rcases hfree with hafl | hac
      · exact List.mem_cons_of_mem _ hafl
      · exact List.mem_cons.mpr (.inl (by simpa using hac))
  | @absorbed tiles fl d l n hd hdc _ hc hdfl =>
      have hl16 := hr d l hd
      have hn := hr c n hc
      by_cases had : a = d
      · subst had
        obtain rfl := Option.some.inj (hd.symm.trans ha)
        exact ⟨a, l + n, .inl hdfl, Tiles.merge_self .., by omega⟩
      · by_cases hac : a = c
        · subst hac
          obtain rfl := Option.some.inj (hc.symm.trans ha)
          exact ⟨d, l + n, .inl hdfl, Tiles.merge_self .., by omega⟩
        · exact ⟨a, k, .inl (hfree.resolve_right (by simpa using hac)),
            (Tiles.merge_other had hac).trans ha, hab⟩

/-- `kfree` covers the header of the block that it frees, and what was covered before. -/
theorem Layout.Freed.covered (hf : L.Freed c M) (hr : L.Roomy) (hc : L.tiles c = some n)
    (hsettled : L.transit = []) (hb : b = c ∨ L.Covered b) : M.Covered b := by
  obtain ⟨M', hforward, hbackward⟩ := hf
  refine hbackward.covered (hforward.roomy hr) (hforward.covered hr ?_)
  rcases hb with rfl | ⟨a, k, hfree, ha, hab⟩
  · exact ⟨b, n, .inr (by simp), hc, .inl rfl⟩
  · rw [hsettled] at hfree
    exact ⟨a, k, .inl (hfree.resolve_right (by simp)), ha, hab⟩

/-! ## Flags -/

/-- Absorbing the next block does not touch a covered flag. -/
theorem Laid.coalesceForward_flag (hl : Laid h ⟨tiles, fl, [c]⟩) (hc : tiles c = some n)
    (hb : Layout.Covered ⟨tiles, fl, [c]⟩ b) :
    blockFree (h.coalesceForward c).mem b = blockFree h.mem b := by
  rcases hl.coalesceForward_cases hc with ⟨hrun, -⟩ | ⟨m, hm, -, hmem, hrun⟩
  · rw [hrun]
  · rw [hrun]
    have hremove := Kheap.fields_flRemove (hl.sep_covered_link hb (hl.prev_link hmem))
      (hl.sep_covered_link hb (hl.next_link hmem)) (hl.covered_ne_zero hb)
    have hnm : n + m < 2 ^ 32 := by
      have := hl.lt_word hm
      omega
    have hstore := fields_store_size (m := (h.flRemove (c + n)).mem) (hl.sep_covered hb hc) hnm
    have hfree := congrArg Fields.free hstore
    refine Eq.trans (Eq.trans hfree ?_) (congrArg Fields.free hremove)
    split <;> rfl

/-- The end of `kfree` does not clear a covered flag. -/
theorem Laid.coalesceBackward_flag {merged : Bool} {h' : Kheap} (hl : Laid h ⟨tiles, fl, [c]⟩)
    (hc : tiles c = some n) (hstart : c ≠ pageOf c → (tiles (pageOf c)).isSome)
    (hb : Layout.Covered ⟨tiles, fl, [c]⟩ b) (hflag : blockFree h.mem b = 1)
    (hrun : h.coalesceBackward c = some (merged, h')) :
    blockFree (if merged then h' else h'.flInsert c).mem b = 1 := by
  rcases hl.coalesceBackward_cases hc hstart with ⟨hrun', -⟩ | ⟨d, k, hd, hdc, -, -, hrun'⟩
  · obtain ⟨rfl, rfl⟩ := Prod.mk.inj (Option.some.inj (hrun.symm.trans hrun'))
    have hinsert := congrArg Fields.free (hl.fields_flInsert hc (hl.sep_covered hb hc)
      (hl.sep_covered_link hb hl.chain.head_mem) (hl.covered_ne_zero hb))
    refine hinsert.trans ?_
    split
    · rfl
    · split <;> exact hflag
  · obtain ⟨rfl, rfl⟩ := Prod.mk.inj (Option.some.inj (hrun.symm.trans hrun'))
    have hkn : k + n < 2 ^ 32 := by
      have := hl.lt_word hc
      omega
    have hstore := congrArg Fields.free (fields_store_size (m := h.mem) (hl.sep_covered hb hd) hkn)
    refine hstore.trans ?_
    split <;> exact hflag

/-- `kfree` sets the flag of the block it frees and clears no covered flag. -/
theorem Laid.kfree_flag {h' : Kheap} (hl : Laid h ⟨tiles, fl, []⟩)
    (hc : Layout.Busy ⟨tiles, fl, []⟩ c n) (hstart : c ≠ pageOf c → (tiles (pageOf c)).isSome)
    (hb : b = c ∨ Layout.Covered ⟨tiles, fl, []⟩ b ∧ blockFree h.mem b = 1)
    (hrun : h.kfree (c + headerSize) = some h') : blockFree h'.mem b = 1 := by
  obtain ⟨htile, hcfl, -⟩ := hc
  have hbusy := hl.flag c n htile (by simp)
  rw [if_neg hcfl] at hbusy
  obtain ⟨hl1, -⟩ := hl.mark htile hcfl
  have hr1 : Layout.Roomy ⟨tiles, fl, [c]⟩ := fun a k ha => (hl.shape a k ha).2.2
  have hcov1 : Layout.Covered ⟨tiles, fl, [c]⟩ b := by
    rcases hb with rfl | ⟨⟨a, k, hfree, ha, hab⟩, -⟩
    · exact ⟨b, n, .inr (by simp), htile, .inl rfl⟩
    · exact ⟨a, k, .inl (hfree.resolve_right (by simp)), ha, hab⟩
  have hflag1 : blockFree (h.mem.store32 (c + 4) 1) b = 1 := by
    have hmark := congrArg Fields.free
      (fields_store_free (m := h.mem) (v := 1) (hl1.sep_covered hcov1 htile) (by decide))
    refine Eq.trans hmark ?_
    split
    · rfl
    · next hne => exact (hb.resolve_left hne).2
  obtain ⟨tiles2, fl2, n2, hl2, hc2, -, hforward⟩ := hl1.coalesceForward htile
  have hstart2 : c ≠ pageOf c → (tiles2 (pageOf c)).isSome := fun hne =>
    hforward.pageStart (Nat.mul_mod_left _ _) (hstart hne)
  rw [Kheap.kfree_run hbusy] at hrun
  obtain ⟨⟨merged, g⟩, hback, rfl⟩ := Option.map_eq_some_iff.mp hrun
  exact hl2.coalesceBackward_flag hc2 hstart2 (hforward.covered hr1 hcov1)
    ((hl1.coalesceForward_flag htile hcov1).trans hflag1) hback

end Layouts

/-! ## Runs -/

namespace HeapState

/-- An event other than an allocation. -/
def NoAlloc : HeapEvent → Prop
  | .kmalloc _ => False
  | _ => True

instance : (e : HeapEvent) → Decidable (NoAlloc e)
  | .kmalloc _ => isFalse id
  | .kfree _ => isTrue trivial
  | .write .. => isTrue trivial
  | .pages _ => isTrue trivial

/-- Pages begin with blocks, and the header at `b` is covered and has its flag set. -/
structure Spent (s : HeapState) (L : Layout) (b : Nat) : Prop where
  holds : s.Holds L
  starts : ∀ page ∈ s.heap.heapPages, (L.tiles page).isSome
  covered : L.Covered b
  flag : blockFree s.heap.mem b = 1

section Invariant

variable {s : HeapState} {L : Layout} {b ptr : Nat}

/-- A heap page that is freed into begins with a block before and after. -/
theorem Holds.kfree_spent (h : s.Holds L) (hstarts : ∀ page ∈ s.heap.heapPages, (L.tiles page).isSome)
    (hlive : (s.live ptr).isSome)
    (hb : b + headerSize = ptr ∨ L.Covered b ∧ blockFree s.heap.mem b = 1) :
    ∃ s' L', s.step (.kfree ptr) = some s' ∧ s'.Spent L' b := by
  obtain ⟨size, hsize⟩ := Option.isSome_iff_exists.mp hlive
  obtain ⟨c, n, rfl, hbusy, _⟩ := h.busy ptr size hsize
  have hbc : b = c ∨ L.Covered b ∧ blockFree s.heap.mem b = 1 := hb.imp_left fun heq => by
    simp only [headerSize] at heq
    omega
  have hin := h.laid.covers.inside c c (h.laid.covers.start_mem hbusy.1)
  have hpage : (L.tiles (pageOf c)).isSome := hstarts _ hin
  obtain ⟨s', L', hrun, hholds, -, -, hfreed⟩ := h.kfree hlive ((h.block_iff _).mpr hpage)
  have hfreed : L.Freed c L' := hfreed
  obtain ⟨g, hg, rfl⟩ := Option.map_eq_some_iff.mp hrun
  obtain ⟨tiles, fl, T⟩ := L
  obtain rfl : T = [] := h.settled
  refine ⟨_, L', hrun, hholds, fun page hin => ?_, ?_, ?_⟩
  · have hin : page ∈ s.heap.heapPages := (Kheap.kfree_heapPages hg) ▸ hin
    exact hfreed.pageStart (h.laid.pages page hin).aligned (hstarts page hin)
  · exact hfreed.covered (fun a k ha => (h.laid.shape a k ha).2.2) hbusy.1 rfl
      (hbc.imp_right And.left)
  · exact h.laid.kfree_flag hbusy (fun _ => hpage) hbc hg

/-- Writes into live payloads do not meet a covered header. -/
theorem Spent.write {offset : Nat} (byte : BitVec 8) (h : s.Spent L b)
    (hoff : offset < (s.live ptr).getD 0) :
    ∃ s', s.step (.write ptr offset byte) = some s' ∧ s'.Spent L b := by
  obtain ⟨s', hrun, hholds, -⟩ := h.holds.write byte hoff
  obtain rfl := Option.some.inj hrun
  refine ⟨_, rfl, hholds, h.starts, h.covered, ?_⟩
  refine (load32_congr fun x h1 h2 => store8_other ?_).trans h.flag
  rintro rfl
  cases hptr : s.live ptr with
  | none => simp [hptr] at hoff
  | some size =>
      rw [hptr, Option.getD_some] at hoff
      obtain ⟨c, k, rfl, hbusy, hle⟩ := h.holds.busy ptr size hptr
      obtain ⟨a, n, hfree, ha, hab⟩ := h.covered
      rw [h.holds.settled] at hfree
      have hn := (h.holds.laid.shape a n ha).2.2
      -- the byte would lie in a block in use and in the free block that covers the header
      have heq := h.holds.laid.covers.unique (x := c + headerSize + offset)
        ⟨k, hbusy.1, by omega, by omega⟩ ⟨n, ha, by omega, by omega⟩
      exact hbusy.2.1 (heq ▸ hfree.resolve_right (by simp))

/-- No event but an allocation clears the flag. -/
theorem Spent.step {e : HeapEvent} (h : s.Spent L b) (hclient : s.Client e) (hno : NoAlloc e) :
    ∃ s', s.step e = some s' ∧ ∃ L', s'.Spent L' b := by
  cases e with
  | kmalloc size => exact absurd hno id
  | kfree ptr =>
      obtain ⟨s', L', hrun, hspent⟩ := h.holds.kfree_spent h.starts hclient (.inr ⟨h.covered, h.flag⟩)
      exact ⟨s', hrun, L', hspent⟩
  | write ptr offset byte =>
      obtain ⟨s', hrun, hspent⟩ := h.write byte hclient
      exact ⟨s', hrun, L, hspent⟩
  | pages call =>
      obtain ⟨s', hrun, hholds, -⟩ := h.holds.pages call
      obtain rfl := Option.some.inj hrun
      exact ⟨_, rfl, L, hholds, h.starts, h.covered, h.flag⟩

/-- `kfree` does nothing when the flag is set. -/
theorem Spent.kfree_noop (h : s.Spent L b) : s.heap.kfree (b + headerSize) = some s.heap := by
  have hset : blockFree s.heap.mem b ≠ 0 := by
    rw [h.flag]
    decide
  unfold Kheap.kfree
  rw [if_neg (by simp only [headerSize]; omega), Nat.add_sub_cancel]
  exact if_pos hset

end Invariant

/-- In every heap that is as documented: after `kfree` of a live pointer and any run of `kfree`
calls of other live pointers (and of writes into live payloads) without an allocation, a second
`kfree` of the pointer changes nothing. -/
theorem double_free_harmless (s : HeapState) (hinv : s.Inv) (hdoc : s.Documented) (p : Nat)
    (events : List HeapEvent) (hclient : Meets step Client s (.kfree p :: events))
    (hno : ∀ e ∈ events, NoAlloc e) :
    ∃ s', run step s (.kfree p :: events) = some s' ∧ s'.heap.kfree p = some s'.heap := by
  obtain ⟨L, h⟩ := hinv
  obtain ⟨size, hsize⟩ := Option.isSome_iff_exists.mp hclient.1
  obtain ⟨b, n, rfl, -, -⟩ := h.busy p size hsize
  obtain ⟨s1, L1, hrun, hspent⟩ := h.kfree_spent (b := b)
    (fun page hpage => (h.block_iff page).mp (hdoc.starts page hpage)) hclient.1 (.inl rfl)
  obtain ⟨-, s', hrun', L', hspent'⟩ := along_of_invariant (Q := fun _ _ _ => True)
    (I := fun s => ∃ L, s.Spent L b) (fun s e hinv hcond => by
      obtain ⟨L, hspent⟩ := hinv
      obtain ⟨s', hstep, hspent'⟩ := hspent.step hcond.1 hcond.2
      exact ⟨s', hstep, hspent', trivial⟩)
    ⟨L1, hspent⟩ ((hclient.2 s1 hrun).and (meets_of_forall hno s1))
  exact ⟨s', by rw [run, hrun]; exact hrun', hspent'.kfree_noop⟩

/-- The block is freed, absorbed by the block before it, and freed again. -/
theorem double_free_harmless_sample :
    ∃ s', run step pagedState [.kfree 0x100078, .kfree 0x100008, .kfree 0x100098] = some s' ∧
      s'.heap.kfree 0x100078 = some s'.heap :=
  double_free_harmless pagedState (merged_iff.mp pagedState_holds).1
    (merged_iff.mp pagedState_holds).2.toDocumented 0x100078 [.kfree 0x100008, .kfree 0x100098]
    (by decide +kernel) (by decide)

end HeapState

end Kumo
