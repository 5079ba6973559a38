import Kumo.Lib.Transition
import Kumo.Mm.KheapOps

/-!
# Runs of the kernel heap

Clients call `kmalloc` and `kfree` in any order and write into the payloads they
hold, while the rest of the kernel takes pages from the same page allocator.
`HeapSafe` is what a state must satisfy, in terms of the live pointers and of the
free list as it is linked in memory. It holds along every run in which a block is
only freed when its page begins with a block. Without that condition it fails:
`coalesce_backward` starts its walk in the payload of the block that spans the page
start.
-/

namespace Kumo

open Memory Transition

/-- The heap and the live pointers, each with the size its owner asked for. -/
structure HeapState where
  heap : Kheap
  live : Nat → Option Nat

/-- What clients do. -/
inductive HeapEvent where
  | kmalloc (size : Nat)
  | kfree (ptr : Nat)
  | write (ptr offset : Nat) (byte : BitVec 8)
  | pages (call : PmmCall)
  deriving DecidableEq

namespace HeapState

/-- Execute one event; `none` when a call does not return. -/
def step (s : HeapState) : HeapEvent → Option HeapState
  | .kmalloc size => (s.heap.kmalloc size).map fun r =>
      { heap := r.2, live := if r.1 = 0 then s.live else Function.update s.live r.1 (some size) }
  | .kfree ptr => (s.heap.kfree ptr).map fun h =>
      { heap := h, live := Function.update s.live ptr none }
  | .write ptr offset byte =>
      some { s with heap := { s.heap with mem := s.heap.mem.store8 (ptr + offset) byte } }
  | .pages call =>
      some { s with heap := { s.heap with pmm := (s.heap.pmm.call call).2 } }

/-- The state after `kheap_init`. -/
def init (mem : Memory) (pmm : Pmm) : HeapState :=
  { heap := Kheap.kheapInit mem pmm, live := fun _ => none }

/-- The rules clients follow: no wrapping size, only live pointers are freed, only live payloads
are written. -/
def Client (s : HeapState) : HeapEvent → Prop
  | .kmalloc size => size + 15 < 2 ^ 32
  | .kfree ptr => (s.live ptr).isSome
  | .write ptr offset _ => offset < (s.live ptr).getD 0
  | .pages _ => True

/-- A block starts at `a`: a live one or a listed one. -/
def Block (s : HeapState) (a : Nat) : Prop :=
  (s.live (a + headerSize)).isSome ∨ a ∈ s.heap.freeList

/-- The page of a block that is freed begins with a block. -/
def PageStart (s : HeapState) : HeapEvent → Prop
  | .kfree ptr => s.Block (pageOf (ptr - headerSize))
  | _ => True

instance (s : HeapState) (e : HeapEvent) : Decidable (s.Client e) := by
  cases e <;> unfold Client <;> infer_instance

instance (s : HeapState) (a : Nat) : Decidable (s.Block a) := by
  unfold Block
  infer_instance

instance (s : HeapState) (e : HeapEvent) : Decidable (s.PageStart e) := by
  cases e <;> unfold PageStart <;> infer_instance

/-- Byte `x` belongs to the block at `a`. -/
def InBlock (s : HeapState) (a x : Nat) : Prop :=
  s.Block a ∧ a ≤ x ∧ x < a + blockSize s.heap.mem a

/-- What every reachable state satisfies. -/
structure HeapSafe (s : HeapState) : Prop where
  /-- Live payloads do not overlap. -/
  disjoint : ∀ p n q m, s.live p = some n → s.live q = some m → p ≠ q → p + n ≤ q ∨ q + m ≤ p
  /-- Live payloads lie inside the heap's regions. -/
  inside : ∀ p n x, s.live p = some n → p ≤ x → x < p + n → s.heap.InHeap x
  /-- The regions are pages obtained from the page allocator. -/
  pages : ∀ page ∈ s.heap.heapPages, s.heap.pmm.KernelPage page
  /-- Every byte of a region belongs to exactly one block. -/
  partition : ∀ x, s.heap.InHeap x → ∃! a, s.InBlock a x
  /-- Blocks have no other bytes. -/
  within : ∀ a x, s.InBlock a x → s.heap.InHeap x
  /-- No block is listed twice. -/
  listedOnce : s.heap.freeList.Nodup
  /-- No live block is listed. -/
  exclusive : ∀ a ∈ s.heap.freeList, s.live (a + headerSize) = none

/-- A live pointer stays live until it is freed, and no call changes its payload. -/
def Untouched (s : HeapState) (e : HeapEvent) (s' : HeapState) : Prop :=
  ∀ p n, s.live p = some n → e ≠ .kfree p → s'.live p = some n ∧
    ((∀ q offset byte, e ≠ .write q offset byte) →
      ∀ x, p ≤ x → x < p + n → s'.heap.mem x = s.heap.mem x)

/-- The invariant behind `HeapSafe`: a layout whose busy blocks are the live ones. -/
structure Holds (s : HeapState) (L : Layout) : Prop where
  laid : Laid s.heap L
  settled : L.transit = []
  busy : ∀ p n, s.live p = some n → ∃ a k, p = a + headerSize ∧ L.Busy a k ∧ n + headerSize ≤ k
  live : ∀ a k, L.Busy a k → (s.live (a + headerSize)).isSome

/-- The invariant of runs. -/
def Inv (s : HeapState) : Prop := ∃ L, s.Holds L

section Invariant

variable {s : HeapState} {L : Layout}

/-- A block of the state is a tile of the layout. -/
theorem Holds.block_iff (h : s.Holds L) (a : Nat) : s.Block a ↔ (L.tiles a).isSome := by
  unfold Block
  rw [h.laid.freeList_eq]
  constructor
  · rintro (hlive | hlisted)
    · obtain ⟨n, hn⟩ := Option.isSome_iff_exists.mp hlive
      obtain ⟨b, k, heq, hbusy, _⟩ := h.busy _ n hn
      obtain rfl : a = b := by
        simp only [headerSize] at heq
        omega
      exact Option.isSome_iff_exists.mpr ⟨k, hbusy.1⟩
    · exact h.laid.tile a hlisted
  · intro htile
    obtain ⟨n, hn⟩ := Option.isSome_iff_exists.mp htile
    by_cases hlisted : a ∈ L.listed
    · exact .inr hlisted
    · exact .inl (h.live a n ⟨hn, hlisted, by simp [h.settled]⟩)

theorem Holds.inBlock_iff (h : s.Holds L) (a x : Nat) : s.InBlock a x ↔ L.tiles.Mem a x := by
  unfold InBlock Tiles.Mem
  rw [h.block_iff a]
  constructor
  · rintro ⟨htile, hax, hxn⟩
    obtain ⟨n, hn⟩ := Option.isSome_iff_exists.mp htile
    rw [h.laid.size a n hn] at hxn
    exact ⟨n, hn, hax, hxn⟩
  · rintro ⟨n, hn, hax, hxn⟩
    rw [h.laid.size a n hn]
    exact ⟨Option.isSome_iff_exists.mpr ⟨n, hn⟩, hax, hxn⟩

/-- The invariant implies every part of `HeapSafe`. -/
theorem Holds.safe (h : s.Holds L) : s.HeapSafe := by
  constructor
  case disjoint =>
    intro p n q m hp hq hne
    obtain ⟨a, k, rfl, ha, hn⟩ := h.busy p n hp
    obtain ⟨b, l, rfl, hb, hm⟩ := h.busy q m hq
    have hne' : a ≠ b := fun heq => hne (by rw [heq])
    rcases Nat.lt_or_gt_of_ne hne' with hlt | hgt
    · have := h.laid.covers.disjoint a k b l ha.1 hb.1 hlt
      omega
    · have := h.laid.covers.disjoint b l a k hb.1 ha.1 hgt
      omega
  case inside =>
    intro p n x hp hx hxn
    obtain ⟨a, k, rfl, ha, hn⟩ := h.busy p n hp
    simp only [headerSize] at *
    exact h.laid.covers.inside a x ⟨k, ha.1, by omega, by omega⟩
  case pages => exact h.laid.pages
  case partition =>
    intro x hx
    obtain ⟨a, ha⟩ := h.laid.covers.cover x hx
    refine ⟨a, (h.inBlock_iff a x).mpr ha, fun b hb => ?_⟩
    exact h.laid.covers.unique ((h.inBlock_iff b x).mp hb) ha
  case within =>
    intro a x hx
    exact h.laid.covers.inside a x ((h.inBlock_iff a x).mp hx)
  case listedOnce =>
    rw [h.laid.freeList_eq]
    exact h.laid.nodup
  case exclusive =>
    intro a ha
    rw [h.laid.freeList_eq] at ha
    cases hlive : s.live (a + headerSize) with
    | none => rfl
    | some n =>
        obtain ⟨b, k, heq, hbusy, _⟩ := h.busy _ n hlive
        obtain rfl : a = b := by
          simp only [headerSize] at heq
          omega
        exact absurd ha hbusy.2.1

/-- A live payload lies in its busy block. -/
theorem Holds.payload (h : s.Holds L) {p n : Nat} (hp : s.live p = some n) :
    ∃ a k, p = a + headerSize ∧ L.Busy a k ∧ ∀ x, p ≤ x → x < p + n → a ≤ x ∧ x < a + k := by
  obtain ⟨a, k, rfl, hbusy, hle⟩ := h.busy p n hp
  refine ⟨a, k, rfl, hbusy, fun x h1 h2 => ?_⟩
  simp only [headerSize] at *
  omega

/-- A call that keeps every busy block keeps the invariant and every payload. -/
theorem Holds.of_keeps {h' : Kheap} {L' : Layout} (h : s.Holds L) (hl : Laid h' L')
    (hsettled : L'.transit = []) (hk : Keeps 0 s.heap L h' L') :
    Holds { s with heap := h' } L' ∧
      ∀ p n, s.live p = some n → ∀ x, p ≤ x → x < p + n → h'.mem x = s.heap.mem x := by
  refine ⟨⟨hl, hsettled, ?_, ?_⟩, ?_⟩
  · intro p n hp
    obtain ⟨a, k, heq, hbusy, hle⟩ := h.busy p n hp
    exact ⟨a, k, heq, (hk.busy a k (h.laid.ne_zero hbusy.1)).mpr hbusy, hle⟩
  · intro a k hbusy
    exact h.live a k ((hk.busy a k (hl.ne_zero hbusy.1)).mp hbusy)
  · intro p n hp x h1 h2
    obtain ⟨a, k, _, hbusy, hin⟩ := h.payload hp
    exact hk.bytes a k x (h.laid.ne_zero hbusy.1) hbusy (hin x h1 h2).1 (hin x h1 h2).2

/-- The state after `kmalloc` returned `p` and left the heap `g`. -/
def granted (s : HeapState) (size p : Nat) (g : Kheap) : HeapState :=
  { heap := g, live := if p = 0 then s.live else Function.update s.live p (some size) }

/-- However an allocation ends, it keeps the invariant, and a block it returns was not live. -/
theorem Holds.granted {size p : Nat} {g : Kheap} {L' : Layout} (h : s.Holds L) (hl' : Laid g L')
    (hsettled : L'.transit = []) (halloc : Allocated s.heap L size p g L') :
    (s.granted size p g).Holds L' ∧ (p ≠ 0 → s.live p = none) ∧
      s.Untouched (.kmalloc size) (s.granted size p g) := by
  cases halloc with
  | refused _ _ hk =>
      obtain ⟨hholds, hbytes⟩ := h.of_keeps hl' hsettled (hk 0)
      exact ⟨hholds, fun h0 => absurd rfl h0, fun q n hq _ => ⟨hq, fun _ => hbytes q n hq⟩⟩
  | granted b n _ _ hk hbusy hnew hn =>
      have hb0 : b + headerSize ≠ 0 := by
        simp only [headerSize]
        omega
      -- no live pointer is the new one: its block was not busy
      have hother : ∀ q m, s.live q = some m → ∃ a k, q = a + headerSize ∧
          L.Busy a k ∧ m + headerSize ≤ k ∧ a ≠ b := by
        intro q m hq
        obtain ⟨a, k, heq, ha, hle⟩ := h.busy q m hq
        refine ⟨a, k, heq, ha, hle, ?_⟩
        rintro rfl
        exact hnew k ha
      simp only [HeapState.granted, hb0, if_false]
      refine ⟨⟨hl', hsettled, ?_, ?_⟩, fun _ => ?_, ?_⟩
      · intro q m hq
        simp only [Function.update_apply] at hq
        split at hq
        · next heq =>
            obtain rfl := Option.some.inj hq
            exact ⟨b, n, heq, hbusy, hn⟩
        · obtain ⟨a, k, heq, ha, hle, hab⟩ := hother q m hq
          exact ⟨a, k, heq, (hk.busy a k hab).mpr ha, hle⟩
      · intro a k ha
        simp only [Function.update_apply]
        split
        · rfl
        · next hne =>
            have hab : a ≠ b := fun heq => hne (by rw [heq])
            exact h.live a k ((hk.busy a k hab).mp ha)
      · cases hlive : s.live (b + headerSize) with
        | none => rfl
        | some m =>
            obtain ⟨a, k, heq, _, _, hab⟩ := hother _ m hlive
            simp only [headerSize] at heq
            exact absurd (by omega) hab
      · intro q m hq _
        obtain ⟨a, k, rfl, ha, hle, hab⟩ := hother q m hq
        have hne : a + headerSize ≠ b + headerSize := by
          simp only [headerSize]
          omega
        refine ⟨by simp only [Function.update_apply, if_neg hne]; exact hq, fun _ x h1 h2 => ?_⟩
        simp only [headerSize] at *
        exact hk.bytes a k x hab ha (by omega) (by omega)

/-- `kmalloc` keeps the invariant, and a block it returns was not live. -/
theorem Holds.kmalloc (h : s.Holds L) {size : Nat} (hsize : size + 15 < 2 ^ 32) :
    ∃ p g L', s.heap.kmalloc size = some (p, g) ∧ (s.granted size p g).Holds L' ∧
      L.tiles.StartsKept L'.tiles ∧ (p ≠ 0 → s.live p = none) ∧
      s.Untouched (.kmalloc size) (s.granted size p g) := by
  obtain ⟨tiles, fl, T⟩ := L
  obtain rfl : T = [] := h.settled
  obtain ⟨p, h', tiles', fl', hrun, hl', hstarts, halloc⟩ := h.laid.kmalloc_starts hsize
  obtain ⟨hholds, hnew, hkept⟩ := h.granted hl' rfl halloc
  exact ⟨p, h', ⟨tiles', fl', []⟩, hrun, hholds, hstarts, hnew, hkept⟩

/-- `kfree` keeps the invariant when the page of the block begins with a block. It merges blocks,
but only within their page. -/
theorem Holds.kfree (h : s.Holds L) {ptr : Nat} (hlive : (s.live ptr).isSome)
    (hpage : s.Block (pageOf (ptr - headerSize))) :
    ∃ s' L', s.step (.kfree ptr) = some s' ∧ s'.Holds L' ∧ s.Untouched (.kfree ptr) s' ∧
      Grows s.heap s'.heap ∧ L.Freed (ptr - headerSize) L' := by
  rw [h.block_iff] at hpage
  obtain ⟨tiles, fl, T⟩ := L
  obtain rfl : T = [] := h.settled
  obtain ⟨size, hsize⟩ := Option.isSome_iff_exists.mp hlive
  obtain ⟨b, n, rfl, hbusy, _⟩ := h.busy ptr size hsize
  rw [Nat.add_sub_cancel] at hpage ⊢
  obtain ⟨h', tiles', fl', hrun, hl', hk, hfreed, hmerged⟩ := h.laid.kfree hbusy (fun _ => hpage)
  refine ⟨_, ⟨tiles', fl', []⟩, by rw [step, hrun]; rfl, ⟨hl', rfl, ?_, ?_⟩, ?_, hk.grows, hmerged⟩
  · intro q m hq
    simp only [Function.update_apply] at hq
    split at hq
    · cases hq
    · next hne =>
        obtain ⟨a, k, heq, ha, hle⟩ := h.busy q m hq
        have hab : a ≠ b := fun hab => hne (by rw [heq, hab])
        exact ⟨a, k, heq, (hk.busy a k hab).mpr ha, hle⟩
  · intro a k ha
    have hab : a ≠ b := by
      rintro rfl
      exact hfreed k ha
    have hne : a + headerSize ≠ b + headerSize := by
      simp only [headerSize]
      omega
    simp only [Function.update_apply, if_neg hne]
    exact h.live a k ((hk.busy a k hab).mp ha)
  · intro q m hq hne
    have hqb : q ≠ b + headerSize := fun heq => hne (by rw [heq])
    obtain ⟨a, k, rfl, ha, hin⟩ := h.payload hq
    have hab : a ≠ b := fun hab => hqb (by rw [hab])
    refine ⟨by simp only [Function.update_apply, if_neg hqb]; exact hq, fun _ x h1 h2 => ?_⟩
    exact hk.bytes a k x hab ha (hin x h1 h2).1 (hin x h1 h2).2

/-- A write into a live payload keeps the invariant: headers and the links of listed blocks lie
elsewhere. -/
theorem Holds.write (h : s.Holds L) {ptr offset : Nat} (byte : BitVec 8)
    (hoff : offset < (s.live ptr).getD 0) :
    ∃ s', s.step (.write ptr offset byte) = some s' ∧ s'.Holds L ∧
      s.Untouched (.write ptr offset byte) s' := by
  refine ⟨_, rfl, ⟨?_, h.settled, h.busy, h.live⟩, fun q m hq _ =>
    ⟨hq, fun hcall => absurd rfl (hcall ptr offset byte)⟩⟩
  cases hptr : s.live ptr with
  | none => simp [hptr] at hoff
  | some size =>
      rw [hptr, Option.getD_some] at hoff
      obtain ⟨a, k, rfl, hbusy, hle⟩ := h.busy ptr size hptr
      refine h.laid.of_payload fun x => ?_
      by_cases hx : x = a + headerSize + offset
      · exact .inr ⟨a, k, hbusy, by omega, by omega⟩
      · exact .inl (store8_other hx)

/-- The rest of the kernel may take pages at any time. -/
theorem Holds.pages (h : s.Holds L) (call : PmmCall) :
    ∃ s', s.step (.pages call) = some s' ∧ s'.Holds L ∧ s.Untouched (.pages call) s' :=
  ⟨_, rfl, ⟨h.laid.of_pmm (h.laid.pmm.call call) (fun _ => Pmm.used_call call), h.settled,
    h.busy, h.live⟩, fun _ _ hq _ => ⟨hq, fun _ _ _ _ => rfl⟩⟩

/-- One event of a client that follows the rules. -/
theorem Inv.step {e : HeapEvent} (h : s.Inv) (hclient : s.Client e) (hpage : s.PageStart e) :
    ∃ s', s.step e = some s' ∧ s'.Inv ∧ s.Untouched e s' := by
  obtain ⟨L, h⟩ := h
  cases e with
  | kmalloc size =>
      obtain ⟨p, g, L', hrun, hholds, _, _, hkept⟩ := h.kmalloc hclient
      exact ⟨_, by rw [HeapState.step, hrun]; rfl, ⟨L', hholds⟩, hkept⟩
  | kfree ptr =>
      obtain ⟨s', L', hrun, hholds, hkept, _⟩ := h.kfree hclient hpage
      exact ⟨s', hrun, ⟨L', hholds⟩, hkept⟩
  | write ptr offset byte =>
      obtain ⟨s', hrun, hholds, hkept⟩ := h.write byte hclient
      exact ⟨s', hrun, ⟨L, hholds⟩, hkept⟩
  | pages call =>
      obtain ⟨s', hrun, hholds, hkept⟩ := h.pages call
      exact ⟨s', hrun, ⟨L, hholds⟩, hkept⟩

theorem Inv.safe (h : s.Inv) : s.HeapSafe := by
  obtain ⟨L, h⟩ := h
  exact h.safe

end Invariant

/-- `kheap_init` establishes the invariant, with or without a first region. -/
theorem init_inv (mem : Memory) {pmm : Pmm} (hpmm : pmm.Wf) : (init mem pmm).Inv := by
  obtain ⟨tiles, fl, hl, hk⟩ := laid_kheapInit mem hpmm
  refine ⟨⟨tiles, fl, []⟩, hl, rfl, by simp [init], fun a k hbusy => ?_⟩
  have hold := (hk.busy a k (hl.ne_zero hbusy.1)).mp hbusy
  cases hold.1

/-- In every run of clients that follow the rules, in which a block is freed only when its page
begins with a block, every call returns, every state is safe and no call touches a live payload. -/
theorem kheap_runs_safe (mem : Memory) (pmm : Pmm) (hpmm : pmm.Wf) (events : List HeapEvent)
    (hclient : Meets step Client (init mem pmm) events)
    (hpage : Meets step PageStart (init mem pmm) events) :
    (init mem pmm).HeapSafe ∧ (run step (init mem pmm) events).isSome ∧
      Along step (fun s e s' => s'.HeapSafe ∧ s.Untouched e s') (init mem pmm) events := by
  have hinit := init_inv mem hpmm
  obtain ⟨halong, final, hrun, _⟩ := along_of_invariant (I := Inv)
    (Q := fun s e s' => s'.HeapSafe ∧ s.Untouched e s')
    (fun s e hinv hcond => by
      obtain ⟨s', hstep, hinv', huntouched⟩ := hinv.step hcond.1 hcond.2
      exact ⟨s', hstep, hinv', hinv'.safe, huntouched⟩)
    hinit (hclient.and hpage)
  exact ⟨hinit.safe, by rw [hrun]; rfl, halong⟩

/-! ## A concrete heap -/

/-- Sixteen free pages at the start of the kernel zone. -/
def samplePmm : Pmm where
  bitmap := fun n => if n < 2 then 0#8 else 0xFF#8
  totalPages := 24
  freePages := 16

theorem samplePmm_wf : samplePmm.Wf := by
  refine ⟨by decide +kernel, fun i hi _ => ?_⟩
  simp only [samplePmm, managedBase, pageSize] at *
  omega

/-- A run that splits, writes and merges in both directions, inside one page. -/
def sampleEvents : List HeapEvent :=
  [.kmalloc 100, .kmalloc 24, .kmalloc 40, .write 0x100008 99 0xAB, .kfree 0x100078,
    .kfree 0x100008, .kmalloc 5000, .kfree 0x100098]

/-- The run statement applied to that run. -/
theorem kheap_runs_safe_sample :
    (init (fun _ => 0) samplePmm).HeapSafe ∧
      (run step (init (fun _ => 0) samplePmm) sampleEvents).isSome ∧
      Along step (fun s e s' => s'.HeapSafe ∧ s.Untouched e s')
        (init (fun _ => 0) samplePmm) sampleEvents :=
  kheap_runs_safe _ samplePmm samplePmm_wf sampleEvents (by decide +kernel) (by decide +kernel)

/-- Two live blocks, the first spanning a page boundary with a forged header on it. -/
def spanningEvents : List HeapEvent :=
  [.kmalloc 4096, .kmalloc 16, .write 0x100008 0xFF8 16, .write 0x100008 0xFFC 1]

/-- Freeing the second block walks back through the payload of the first and writes there. -/
theorem kheap_runs_unsafe : ¬ ∀ (mem : Memory) (pmm : Pmm), pmm.Wf → ∀ events : List HeapEvent,
    Meets step Client (init mem pmm) events →
    Along step (fun s e s' => s'.HeapSafe ∧ s.Untouched e s') (init mem pmm) events := by
  intro hclaim
  have halong := hclaim (fun _ => 0) samplePmm samplePmm_wf (spanningEvents ++ [.kfree 0x101010])
    (by decide +kernel)
  have hvalues : ((run step (init (fun _ => 0) samplePmm) spanningEvents).bind fun s =>
      (s.step (.kfree 0x101010)).map fun s' =>
        (s.live 0x100008, s.heap.mem 0x101000, s'.heap.mem 0x101000)) =
      some (some 4096, 0x10#8, 0x08#8) := by
    decide +kernel
  obtain ⟨s, hrun, hrest⟩ := Option.bind_eq_some_iff.mp hvalues
  obtain ⟨s', hstep, heq⟩ := Option.map_eq_some_iff.mp hrest
  simp only [Prod.mk.injEq] at heq
  obtain ⟨hlive, hbefore, hafter⟩ := heq
  have hsame := ((halong.last hrun hstep).2 0x100008 4096 hlive (by decide)).2
    (by intro q offset byte h; cases h) 0x101000 (by decide) (by decide)
  rw [hbefore, hafter] at hsame
  exact absurd hsame (by decide)

end HeapState

end Kumo
