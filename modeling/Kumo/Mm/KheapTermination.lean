import Kumo.Mm.KheapRuns

/-!
# Termination of `kfree`

The walk of `coalesce_backward` moves on by what it reads as the size of a block. Where every
address it visits is the start of a block it ends. At a page boundary inside a payload it
reads what a client has written there, and a zero keeps it where it is for ever.
-/

namespace Kumo

open Memory Transition

variable {h : Kheap} {ptr : Nat}

/-- The walk does not leave an address whose size word is zero. -/
theorem walkBack_stuck {m : Memory} {b curr : Nat} (hlt : curr < b) (h32 : curr < 2 ^ 32)
    (hzero : blockSize m curr = 0) (fuel prev : Nat) :
    Kheap.walkBack m b fuel prev curr = none := by
  have hafter : blockAfter m curr = curr := by
    rw [blockAfter, hzero, Nat.add_zero, Nat.mod_eq_of_lt h32]
  induction fuel generalizing prev with
  | zero => rfl
  | succ fuel ih => rw [Kheap.walkBack, if_pos hlt, hafter, ih]

/-- The heap that `coalesce_backward` gets to see when a block is freed. -/
def Kheap.joined (h : Kheap) (b : Nat) : Kheap :=
  { h with mem := h.mem.store32 (b + 4) 1 }.coalesceForward b

/-- `kfree` of a busy block hangs if the page of the block begins with a zero word. -/
theorem kfree_stuck (hptr : ptr ≠ 0) (hbusy : blockFree h.mem (ptr - headerSize) = 0)
    (hlt : pageOf (ptr - headerSize) < ptr - headerSize) (h32 : ptr < 2 ^ 32)
    (hzero : blockSize (h.joined (ptr - headerSize)).mem (pageOf (ptr - headerSize)) = 0) :
    h.kfree ptr = none := by
  have hback : (h.joined (ptr - headerSize)).coalesceBackward (ptr - headerSize) = none := by
    rw [Kheap.coalesceBackward, if_neg (by omega), walkBack_stuck hlt (by omega) hzero]
  rw [Kheap.joined] at hback
  unfold Kheap.kfree
  simp only [if_neg hptr, hbusy, ne_eq, not_true_eq_false, if_false, hback]

namespace HeapState

/-- A block whose page begins with a block can be freed. -/
theorem Inv.kfree_returns {s : HeapState} (h : s.Inv) {p : Nat} (hlive : (s.live p).isSome)
    (hpage : s.Block (pageOf (p - headerSize))) : (s.heap.kfree p).isSome := by
  obtain ⟨L, hL⟩ := h
  obtain ⟨s', _, hstep, _⟩ := hL.kfree hlive hpage
  obtain ⟨g, hrun, _⟩ := Option.map_eq_some_iff.mp hstep
  rw [hrun]
  rfl

/-- In every state that clients reach, each time freeing blocks whose page begins with a block,
`kfree` of every such block terminates. -/
theorem kfree_terminates (mem : Memory) (pmm : Pmm) (hpmm : pmm.Wf) (events : List HeapEvent)
    (hclient : Meets step Client (init mem pmm) events)
    (hpage : Meets step PageStart (init mem pmm) events) :
    ∃ s, run step (init mem pmm) events = some s ∧
      ∀ p, (s.live p).isSome → s.Block (pageOf (p - headerSize)) → (s.heap.kfree p).isSome := by
  obtain ⟨-, s, hrun, hinv⟩ := along_of_invariant (Q := fun _ _ _ => True) (I := Inv)
    (fun s e hinv hcond => by
      obtain ⟨s', hstep, hinv', -⟩ := hinv.step hcond.1 hcond.2
      exact ⟨s', hstep, hinv', trivial⟩)
    (init_inv mem hpmm) (hclient.and hpage)
  exact ⟨s, hrun, fun p hlive hblock => hinv.kfree_returns hlive hblock⟩

/-- The termination after a run that splits, writes and merges. -/
theorem kfree_terminates_sample :
    ∃ s, run step (init (fun _ => 0) samplePmm) sampleEvents = some s ∧
      ∀ p, (s.live p).isSome → s.Block (pageOf (p - headerSize)) → (s.heap.kfree p).isSome :=
  kfree_terminates _ samplePmm samplePmm_wf sampleEvents (by decide +kernel) (by decide +kernel)

/-- Two blocks are allocated, the first of which spans a page boundary and holds zeros there:
freeing the second one hangs. -/
theorem kfree_hangs : ¬ ∀ (mem : Memory) (pmm : Pmm), pmm.Wf → ∀ (events : List HeapEvent) s,
    Meets step Client (init mem pmm) events → run step (init mem pmm) events = some s →
    ∀ p, (s.live p).isSome → (s.heap.kfree p).isSome := by
  intro hclaim
  have hvalue : (run step (init (fun _ => 0) samplePmm) [.kmalloc 4096, .kmalloc 16]).map (fun s =>
      (s.live 0x101010, blockFree s.heap.mem (0x101010 - headerSize),
        blockSize (s.heap.joined (0x101010 - headerSize)).mem
          (pageOf (0x101010 - headerSize)))) = some (some 16, 0, 0) := by
    decide +kernel
  obtain ⟨s, hrun, heq⟩ := Option.map_eq_some_iff.mp hvalue
  simp only [Prod.mk.injEq] at heq
  obtain ⟨hlive, hbusy, hzero⟩ := heq
  have hreturns := hclaim (fun _ => 0) samplePmm samplePmm_wf [.kmalloc 4096, .kmalloc 16] s
    (by decide +kernel) hrun 0x101010 (by rw [hlive]; rfl)
  have hstuck : s.heap.kfree 0x101010 = none :=
    kfree_stuck (by decide) hbusy (by decide +kernel) (by decide) hzero
  rw [hstuck] at hreturns
  cases hreturns

end HeapState

end Kumo
