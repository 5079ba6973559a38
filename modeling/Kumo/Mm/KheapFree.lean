import Kumo.Mm.KheapCapacity

/-!
# What `kfree` does to other blocks

`kfree` looks for the block before the one it frees by a walk from the start of the page.
When the page does not begin with a block, the walk begins inside one and takes what it
finds there for sizes. It may then stop at something that looks like a free block, and add
to a word of a block that is in use. `kfree_keeps_iff` says exactly when this spoils a
range of bytes.
-/

namespace Kumo

open Memory

namespace Kheap

/-- The heap when the backward walk begins: block `b` is marked free and has absorbed the block
after it. -/
def marked (h : Kheap) (b : Nat) : Kheap :=
  Kheap.coalesceForward { h with mem := h.mem.store32 (b + 4) 1 } b

/-- The walk stops at `prev`, which looks like a free block. -/
structure MergesInto (h : Kheap) (b prev : Nat) : Prop where
  inside : b ≠ pageOf b
  stops : walkBack (h.marked b).mem b walkFuel 0 (pageOf b) = some prev
  nonzero : prev ≠ 0
  free : blockFree (h.marked b).mem prev ≠ 0

/-- The memory after such a merge. -/
def mergedMem (h : Kheap) (b prev : Nat) : Memory :=
  (h.marked b).mem.store32 prev (blockSize (h.marked b).mem prev + blockSize (h.marked b).mem b)

/-- The merge changes a byte of the range. -/
def Spoils (h : Kheap) (b p n : Nat) : Prop :=
  ∃ prev, h.MergesInto b prev ∧
    ∃ x, p ≤ x ∧ x < p + n ∧ h.mergedMem b prev x ≠ (h.marked b).mem x

end Kheap

variable {h h' : Kheap} {tiles : Tiles} {fl : List Nat} {a b k n p m : Nat}

/-- The two ways in which `kfree` of a block in use returns, or it does not return. -/
theorem Laid.kfree_cases (hl : Laid h ⟨tiles, fl, []⟩) (hb : Layout.Busy ⟨tiles, fl, []⟩ b n) :
    (h.kfree (b + headerSize) = none ∧ ∀ prev, ¬ h.MergesInto b prev) ∨
    (h.kfree (b + headerSize) = some ((h.marked b).flInsert b) ∧ ∀ prev, ¬ h.MergesInto b prev) ∨
    ∃ prev, h.MergesInto b prev ∧
      h.kfree (b + headerSize) = some { h.marked b with mem := h.mergedMem b prev } := by
  obtain ⟨htile, hbfl, _⟩ := hb
  have hflag := hl.flag b n htile (by simp)
  rw [if_neg hbfl] at hflag
  have hrun : h.kfree (b + headerSize) = ((h.marked b).coalesceBackward b).map fun r =>
      if r.1 then r.2 else r.2.flInsert b := Kheap.kfree_run hflag
  rw [hrun]
  unfold Kheap.coalesceBackward
  by_cases hfirst : b = pageOf b
  · rw [if_pos hfirst]
    exact .inr (.inl ⟨rfl, fun prev hm => hm.inside hfirst⟩)
  · rw [if_neg hfirst]
    cases hwalk : Kheap.walkBack (h.marked b).mem b walkFuel 0 (pageOf b) with
    | none => exact .inl ⟨rfl, fun prev hm => nomatch hwalk.symm.trans hm.stops⟩
    | some prev =>
        by_cases hstop : prev = 0 ∨ blockFree (h.marked b).mem prev = 0
        · refine .inr (.inl ⟨by simp only [if_pos hstop]; rfl, fun other hm => ?_⟩)
          obtain rfl := Option.some.inj (hwalk.symm.trans hm.stops)
          exact hstop.elim hm.nonzero hm.free
        · refine .inr (.inr ⟨prev, ⟨hfirst, hwalk, ?_, ?_⟩, by simp only [if_neg hstop]; rfl⟩)
          · exact fun h0 => hstop (.inl h0)
          · exact fun h0 => hstop (.inr h0)

/-- The bytes of another block in use when the backward walk begins, and after an insertion. -/
theorem Laid.marked_bytes (hl : Laid h ⟨tiles, fl, []⟩) (hb : Layout.Busy ⟨tiles, fl, []⟩ b n)
    (ha : Layout.Busy ⟨tiles, fl, []⟩ a k) (hab : a ≠ b) {x : Nat} (h1 : a ≤ x) (h2 : x < a + k) :
    (h.marked b).mem x = h.mem x ∧ ((h.marked b).flInsert b).mem x = h.mem x := by
  obtain ⟨htile, hbfl, _⟩ := hb
  obtain ⟨hl1, hk1⟩ := hl.mark htile hbfl
  obtain ⟨tiles2, fl2, n2, hl2, hb2, hk2, -⟩ := hl1.coalesceForward htile
  have hkeeps := hk1.trans (hk2 b)
  have hins := (hl2.flInsert (c := b) hb2 (by simp)).2
  rw [Kheap.marked]
  generalize Kheap.coalesceForward { h with mem := h.mem.store32 (b + 4) 1 } b = hm at *
  have hsame := hkeeps.bytes a k x hab ha h1 h2
  exact ⟨hsame, (hins.bytes a k x hab ((hkeeps.busy a k hab).mpr ha) h1 h2).trans hsame⟩

/-- When `kfree` of a block in use returns, a range of another block has kept its bytes just if no
merge spoils it. -/
theorem Laid.kfree_keeps_iff (hl : Laid h ⟨tiles, fl, []⟩) (hb : Layout.Busy ⟨tiles, fl, []⟩ b n)
    (ha : Layout.Busy ⟨tiles, fl, []⟩ a k) (hab : a ≠ b) (hlow : a ≤ p) (hup : p + m ≤ a + k)
    (hrun : h.kfree (b + headerSize) = some h') :
    (∀ x, p ≤ x → x < p + m → h'.mem x = h.mem x) ↔ ¬ h.Spoils b p m := by
  have hbytes := fun x (h1 : p ≤ x) (h2 : x < p + m) =>
    hl.marked_bytes hb ha hab (x := x) (by omega) (by omega)
  rcases hl.kfree_cases hb with ⟨hnone, -⟩ | ⟨hsome, hno⟩ | ⟨prev, hm, hsome⟩
  · exact nomatch hrun.symm.trans hnone
  · obtain rfl := Option.some.inj (hrun.symm.trans hsome)
    exact iff_of_true (fun x h1 h2 => (hbytes x h1 h2).2) fun ⟨prev, hm, _⟩ => hno prev hm
  · obtain rfl := Option.some.inj (hrun.symm.trans hsome)
    constructor
    · rintro hkept ⟨other, hother, x, h1, h2, hne⟩
      obtain rfl := Option.some.inj (hm.stops.symm.trans hother.stops)
      exact hne ((hkept x h1 h2).trans (hbytes x h1 h2).1.symm)
    · intro hno x h1 h2
      by_contra hne
      refine hno ⟨prev, hm, x, h1, h2, fun heq => hne ?_⟩
      exact heq.trans (hbytes x h1 h2).1

/-- A page that begins with a block: nothing is spoilt. -/
theorem Laid.not_spoils (hl : Laid h ⟨tiles, fl, []⟩) (hb : Layout.Busy ⟨tiles, fl, []⟩ b n)
    (ha : Layout.Busy ⟨tiles, fl, []⟩ a k) (hab : a ≠ b) (hlow : a ≤ p) (hup : p + m ≤ a + k)
    (hstart : b ≠ pageOf b → (tiles (pageOf b)).isSome) : ¬ h.Spoils b p m := by
  obtain ⟨h', tiles', fl', hrun, -, hk, -⟩ := hl.kfree hb hstart
  rw [← hl.kfree_keeps_iff hb ha hab hlow hup hrun]
  exact fun x h1 h2 => hk.bytes a k x hab ha (by omega) (by omega)

end Kumo
