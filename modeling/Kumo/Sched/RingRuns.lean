import Kumo.Lib.LinkedRing
import Kumo.Lib.Transition
import Kumo.Sched.Creation

/-!
# Runs of the scheduler

Any sequence of creations and yields after `task_init`, with other users of the page
allocator and of the heap in between, and user programs that write their memory. In every
state the `next` fields form one ring through all tasks created so far, and exactly the
current task is marked running; a full round of yields makes each task current once.
-/

namespace Kumo

open Memory Transition LinkedRing

/-- The scheduler, and the tasks created so far. -/
structure SchedRun where
  sched : Sched
  tasks : List Nat

/-- What happens after `task_init`. `yield` has the stack pointer at the switch. -/
inductive SchedEvent where
  | create (entry : Nat)
  | createUser (entryAddr userEsp : Nat)
  | createUserWithPages (entryAddr userEsp : Nat) (userPages : List Nat)
  | yield (esp : Nat)
  | pages (call : PmmCall)
  | kmalloc (size : Nat)
  | store (address : Nat) (byte : BitVec 8)

namespace Sched

/-- The tasks that become current in a sequence of yields. -/
def yields (s : Sched) : List Nat → List Nat
  | [] => []
  | esp :: esps => (s.taskYield esp).current :: yields (s.taskYield esp) esps

end Sched

namespace SchedRun

/-- The result of a creation: the block of a new task, or 0. -/
def created (s : SchedRun) (result : Nat × Sched) : SchedRun :=
  { sched := result.2, tasks := if result.1 = 0 then s.tasks else s.tasks ++ [result.1] }

/-- One event; `none` when the call faults or does not return. -/
def step (returnToRing3 : Nat) (s : SchedRun) : SchedEvent → Option SchedRun
  | .create entry => (s.sched.taskCreate entry).map s.created
  | .createUser entryAddr userEsp =>
      (s.sched.taskCreateUser returnToRing3 entryAddr userEsp).map s.created
  | .createUserWithPages entryAddr userEsp userPages =>
      (s.sched.taskCreateUserWithPages returnToRing3 entryAddr userEsp userPages).map s.created
  | .yield esp => some { s with sched := s.sched.taskYield esp }
  | .pages call => some { s with sched := s.sched.setPmm (s.sched.heap.pmm.call call).2 }
  | .kmalloc size =>
      (s.sched.heap.kmalloc size).map fun r => { s with sched := { s.sched with heap := r.2 } }
  | .store address byte =>
      some { s with sched := s.sched.setMem (s.sched.mem.store8 address byte) }

/-- 32-bit page addresses, sizes that do not wrap, and user programs that write user pages. -/
def Valid : SchedEvent → Prop
  | .createUserWithPages _ _ userPages => ∀ page ∈ userPages, page < 2 ^ 32
  | .kmalloc size => size + 15 < 2 ^ 32
  | .store address _ => userMemStart ≤ address
  | _ => True

instance : DecidablePred Valid
  | .create _ => isTrue trivial
  | .createUser _ _ => isTrue trivial
  | .createUserWithPages _ _ _ => inferInstanceAs (Decidable (∀ _ ∈ _, _))
  | .yield _ => isTrue trivial
  | .pages _ => isTrue trivial
  | .kmalloc _ => inferInstanceAs (Decidable (_ < _))
  | .store _ _ => inferInstanceAs (Decidable (_ ≤ _))

/-- The ring of tasks is sound. -/
structure RingSound (s : SchedRun) : Prop where
  nodup : s.tasks.Nodup
  /-- Following `next` from `g_current` visits every task exactly once. -/
  visits : (List.iterate s.sched.next s.sched.current s.tasks.length).Perm s.tasks
  returns : s.sched.next^[s.tasks.length] s.sched.current = s.sched.current
  current : s.sched.current ∈ s.tasks
  running : ∀ t ∈ s.tasks, s.sched.state t = taskRunning ↔ t = s.sched.current
  /-- As many yields as there are tasks make each of them current exactly once. -/
  rotates : ∀ esps : List Nat, esps.length = s.tasks.length →
    (s.sched.yields esps).Perm s.tasks

/-- The invariant: blocks in the heap, one ring through them, and the marks. -/
structure Inv (s : SchedRun) : Prop where
  backed : s.sched.Backed s.tasks
  ring : ∃ l, Ring s.sched.next s.sched.current l ∧ l.Perm s.tasks
  state : ∀ t ∈ s.tasks, s.sched.state t =
    if t = s.sched.current then taskRunning else taskReady

variable {s : SchedRun} {sched : Sched} {t : Nat}

theorem Inv.current_mem (h : s.Inv) : s.sched.current ∈ s.tasks := by
  obtain ⟨l, hring, hperm⟩ := h.ring
  exact hperm.mem_iff.mp hring.head

theorem Inv.next_mem (h : s.Inv) : s.sched.next s.sched.current ∈ s.tasks := by
  obtain ⟨l, hring, hperm⟩ := h.ring
  exact hperm.mem_iff.mp (hring.step_mem hring.head)

/-! ## One event -/

/-- A function that changes no block and not `g_current` keeps the ring. -/
theorem Inv.of_same (h : s.Inv) (hb : sched.Backed s.tasks)
    (hsame : SameOwned (blocksOf s.tasks) s.sched.mem sched.mem)
    (hcur : sched.current = s.sched.current) : Inv { s with sched := sched } := by
  obtain ⟨l, hring, hperm⟩ := h.ring
  have hfield : ∀ t ∈ s.tasks, ∀ off, IsField off → sched.field t off = s.sched.field t off :=
    fun t ht off hoff => hsame.load32 ⟨ht, rfl⟩ hoff.2
  refine ⟨hb, ⟨l, ?_, hperm⟩, fun t ht => ?_⟩
  · show Ring sched.next sched.current l
    rw [hcur]
    exact hring.congr fun a ha => hfield a (hperm.mem_iff.mp ha) nextOff (by decide)
  · show sched.state t = if t = sched.current then taskRunning else taskReady
    rw [hcur]
    exact (hfield t ht stateOff (by decide)).trans (h.state t ht)

/-- Inserting a new task after the current one. -/
theorem Inv.added {kstackTop : Option Nat} {sp taskPd : Nat} (h : s.Inv)
    (hadd : s.sched.Added sched s.tasks t)
    (hnew : sched.NewBlock t sp taskReady kstackTop taskPd) : (s.created (t, sched)).Inv := by
  obtain ⟨l, hring, hperm⟩ := h.ring
  obtain ⟨rest, rfl⟩ := hring.cons
  have htl : t ∉ s.sched.current :: rest := fun hmem => hadd.fresh (hperm.mem_iff.mp hmem)
  have hnext : ∀ u ∈ s.tasks, sched.next u =
      if u = s.sched.current ∧ nextOff = nextOff then t else s.sched.next u :=
    fun u hu => hadd.fields u hu nextOff (by decide)
  have htasks : (s.created (t, sched)).tasks = s.tasks ++ [t] := if_neg hadd.nonzero
  have hrest : ∀ a ∈ rest, sched.next a = s.sched.next a := by
    intro a ha
    have hne : a ≠ s.sched.current := by
      rintro rfl
      exact (List.nodup_cons.mp hring.nodup).1 ha
    rw [hnext a (hperm.mem_iff.mp (List.mem_cons_of_mem _ ha)), if_neg (by tauto)]
  have hring' : Ring sched.next s.sched.current (s.sched.current :: t :: rest) :=
    hring.insert htl (by rw [hnext _ h.current_mem, if_pos ⟨rfl, rfl⟩]) hadd.next hrest
  refine ⟨?_, ⟨s.sched.current :: t :: rest, ?_, ?_⟩, fun u hu => ?_⟩
  · rw [htasks]
    exact hadd.backed
  · show Ring sched.next sched.current _
    rw [hadd.current]
    exact hring'
  · rw [htasks]
    refine (List.Perm.swap t s.sched.current rest).trans ?_
    exact (hperm.cons t).trans (List.perm_append_singleton t s.tasks).symm
  · rw [htasks, List.mem_append, List.mem_singleton] at hu
    show sched.state u = if u = sched.current then taskRunning else taskReady
    rw [hadd.current]
    rcases hu with hu | rfl
    · have hold : sched.state u = s.sched.state u :=
        (hadd.fields u hu stateOff (by decide)).trans (if_neg (by simp [stateOff, nextOff]))
      rw [hold]
      exact h.state u hu
    · have hne : u ≠ s.sched.current := fun heq => htl (by simp [heq])
      rw [if_neg hne]
      exact hnew.state

/-- A creation: a failed one only prepares. -/
theorem Inv.creation {p : Paging} (h : s.Inv) (hp : s.sched.Prepares p)
    (hcases : (t = 0 ∧ sched = s.sched.setPaging p) ∨ ∃ sp top taskPd,
      (s.sched.setPaging p).addTask sp top taskPd = some (t, sched)) :
    (s.created (t, sched)).Inv := by
  obtain ⟨hb, hsame⟩ := hp.backed h.backed
  have hprep : Inv { s with sched := s.sched.setPaging p } := h.of_same hb hsame rfl
  rcases hcases with ⟨rfl, rfl⟩ | ⟨sp, top, taskPd, hrun⟩
  · exact hprep
  · obtain ⟨hadd, hnew⟩ := hb.addTask hprep.current_mem hrun
    exact hprep.added hadd hnew

/-- Making the next task current turns the ring by one. -/
theorem Inv.picked (h : s.Inv) (hpick : s.sched.Picked sched s.tasks) :
    Inv { s with sched := sched } ∧ ∀ u ∈ s.tasks, sched.next u = s.sched.next u := by
  have hnext : ∀ u ∈ s.tasks, sched.next u = s.sched.next u := fun u hu =>
    hpick.others u hu nextOff (by decide) (by decide)
  refine ⟨⟨hpick.backed, ?_, fun u hu => ?_⟩, hnext⟩
  · obtain ⟨l, hring, hperm⟩ := h.ring
    obtain ⟨rest, rfl⟩ := hring.cons
    have hperm' := (List.perm_append_singleton s.sched.current rest).trans hperm
    refine ⟨rest ++ [s.sched.current], ?_, hperm'⟩
    show Ring sched.next sched.current _
    rw [hpick.current]
    exact hring.rotate.congr fun a ha => hnext a (hperm'.mem_iff.mp ha)
  · show sched.state u = if u = sched.current then taskRunning else taskReady
    rw [hpick.state u hu]
    by_cases h1 : u = sched.current
    · rw [if_pos h1, if_pos h1]
    · rw [if_neg h1, if_neg h1]
      by_cases h2 : u = s.sched.current
      · rw [if_pos h2]
      · rw [if_neg h2, h.state u hu, if_neg h2]

/-- `switch_to` does not touch the ring. -/
theorem Inv.switched {old new esp : Nat} (h : s.Inv)
    (hswitch : s.sched.Switched sched s.tasks old new esp) :
    Inv { s with sched := sched } ∧ ∀ u ∈ s.tasks, sched.next u = s.sched.next u := by
  have hnext : ∀ u ∈ s.tasks, sched.next u = s.sched.next u := fun u hu =>
    hswitch.others u hu nextOff (by decide) (.inr (by decide))
  refine ⟨⟨hswitch.backed, ?_, fun u hu => ?_⟩, hnext⟩
  · obtain ⟨l, hring, hperm⟩ := h.ring
    refine ⟨l, ?_, hperm⟩
    show Ring sched.next sched.current l
    rw [hswitch.current]
    exact hring.congr fun a ha => hnext a (hperm.mem_iff.mp ha)
  · show sched.state u = if u = sched.current then taskRunning else taskReady
    rw [hswitch.current, ← h.state u hu]
    exact hswitch.others u hu stateOff (by decide) (.inr (by decide))

/-- After a yield the next task is current; the links are what they were. -/
theorem Inv.yield (h : s.Inv) (esp : Nat) : Inv { s with sched := s.sched.taskYield esp } ∧
    (s.sched.taskYield esp).current = s.sched.next s.sched.current ∧
    ∀ u ∈ s.tasks, (s.sched.taskYield esp).next u = s.sched.next u := by
  unfold Sched.taskYield
  by_cases hself : s.sched.current = s.sched.next s.sched.current
  · simp only [if_pos hself]
    exact ⟨h, hself, fun _ _ => trivial⟩
  simp only [if_neg hself]
  have hpick := h.backed.pickNext h.current_mem h.next_mem
  obtain ⟨hinv, hnext⟩ := h.picked hpick
  have hswitch := hpick.backed.switchTo h.current_mem h.next_mem esp
  obtain ⟨hinv', hnext'⟩ := hinv.switched hswitch
  exact ⟨hinv', hswitch.current.trans hpick.current,
    fun u hu => (hnext' u hu).trans (hnext u hu)⟩

/-- One event keeps the invariant. -/
theorem Inv.step {r : Nat} {s' : SchedRun} {e : SchedEvent} (h : s.Inv) (hvalid : Valid e)
    (hstep : s.step r e = some s') : s'.Inv := by
  cases e with
  | create entry =>
      obtain ⟨⟨t, sched⟩, hrun, rfl⟩ := Option.map_eq_some_iff.mp hstep
      obtain ⟨p, hp, _, hcases⟩ := h.backed.taskCreate hrun
      exact h.creation hp (hcases.imp id fun ⟨sp, hadd⟩ => ⟨sp, none, 0, hadd⟩)
  | createUser entryAddr userEsp =>
      obtain ⟨⟨t, sched⟩, hrun, rfl⟩ := Option.map_eq_some_iff.mp hstep
      obtain ⟨p, hp, _, hcases⟩ := h.backed.taskCreateUser hrun
      exact h.creation hp (hcases.imp id fun ⟨sp, top, hadd⟩ => ⟨sp, some top, 0, hadd⟩)
  | createUserWithPages entryAddr userEsp userPages =>
      obtain ⟨⟨t, sched⟩, hrun, rfl⟩ := Option.map_eq_some_iff.mp hstep
      obtain ⟨p, hwf, hkeeps, hcases⟩ := h.backed.taskCreateUserWithPages hvalid hrun
      exact h.creation (h.backed.prepares.keeps hwf hkeeps)
        (hcases.imp id fun ⟨sp, top, pd, _, hadd⟩ => ⟨sp, some top, pd, hadd⟩)
  | yield esp =>
      obtain rfl := Option.some.inj hstep
      exact (h.yield esp).1
  | pages call =>
      obtain rfl := Option.some.inj hstep
      have hp := h.backed.prepares.pmm (h.backed.heap.pmm_wf.call call) fun i => Pmm.used_call call
      obtain ⟨hb, hsame⟩ := hp.backed h.backed
      exact h.of_same hb hsame rfl
  | kmalloc size =>
      obtain ⟨⟨q, heap⟩, hrun, rfl⟩ := Option.map_eq_some_iff.mp hstep
      obtain ⟨hsame, hgrows, hown, _⟩ := h.backed.heap.kmalloc hvalid hrun
      obtain ⟨hreserved, hkeep⟩ := hgrows.reserved
      exact h.of_same ⟨hown, h.backed.tables.transfer hreserved hkeep⟩ hsame rfl
  | store address byte =>
      obtain rfl := Option.some.inj hstep
      have hout : s.sched.heap.pmm.taken.Same s.sched.mem (s.sched.mem.store8 address byte) := by
        intro page x hp h1 h2
        have := hp.upper
        exact store8_other (by simp only [Valid] at hvalid; omega)
      have hp : s.sched.Prepares { s.sched.paging with mem := s.sched.mem.store8 address byte } :=
        h.backed.prepares.keeps h.backed.heap.pmm_wf ⟨hout, fun _ h => h, rfl, rfl, rfl⟩
      obtain ⟨hb, hsame⟩ := hp.backed h.backed
      exact h.of_same hb hsame rfl

/-! ## Whole rounds -/

/-- The tasks that a sequence of yields makes current are those that `next` leads to. -/
theorem Inv.yields (h : s.Inv) (esps : List Nat) : s.sched.yields esps =
    List.iterate s.sched.next (s.sched.next s.sched.current) esps.length := by
  induction esps generalizing s with
  | nil => rfl
  | cons esp esps ih =>
      obtain ⟨hinv, hcur, hnext⟩ := h.yield esp
      obtain ⟨l, hring, hperm⟩ := h.ring
      have hrest := ih hinv
      -- the links that the rest of the walk follows are links of tasks
      have hwalk : ∀ n a, a ∈ s.tasks → List.iterate (s.sched.taskYield esp).next a n =
          List.iterate s.sched.next a n := by
        intro n
        induction n with
        | zero => exact fun _ _ => rfl
        | succ n ihn =>
            intro a ha
            have hmem : s.sched.next a ∈ s.tasks :=
              hperm.mem_iff.mp (hring.step_mem (hperm.mem_iff.mpr ha))
            rw [List.iterate, List.iterate, hnext a ha, ihn _ hmem]
      rw [Sched.yields, List.length_cons, List.iterate, hrest, hcur, hnext _ h.next_mem]
      rw [hwalk _ _ (hperm.mem_iff.mp (hring.step_mem (hperm.mem_iff.mpr h.next_mem)))]

theorem Inv.sound (h : s.Inv) : s.RingSound := by
  obtain ⟨l, hring, hperm⟩ := h.ring
  have hlen := hperm.length_eq
  constructor
  case nodup => exact hperm.nodup_iff.mp hring.nodup
  case visits =>
    rw [← hlen, hring.path.iterate]
    exact hperm
  case returns =>
    rw [← hlen]
    exact hring.path.end_eq
  case current => exact h.current_mem
  case running =>
    intro t ht
    rw [h.state t ht]
    by_cases heq : t = s.sched.current <;> simp [heq, taskRunning, taskReady]
  case rotates =>
    intro esps hesps
    obtain ⟨rest, rfl⟩ := hring.cons
    have hperm' := (List.perm_append_singleton s.sched.current rest).trans hperm
    rw [h.yields, hesps, ← hperm'.length_eq, hring.rotate.path.iterate]
    exact hperm'

/-- `task_init` makes the ring of the idle task. -/
theorem taskInit_inv {s0 s : Sched} (hb : s0.Backed []) (hrun : s0.taskInit = some s) :
    Inv ⟨s, [s.current]⟩ := by
  unfold Sched.taskInit at hrun
  cases halloc : s0.heap.kmalloc taskSize with
  | none => rw [halloc] at hrun; cases hrun
  | some r =>
      obtain ⟨idle, heap⟩ := r
      rw [halloc] at hrun
      dsimp only at hrun
      by_cases h0 : idle = 0
      · rw [if_pos h0] at hrun
        cases hrun
      rw [if_neg h0] at hrun
      obtain rfl := Option.some.inj hrun
      obtain ⟨_, hfill, _⟩ := Sched.Backed.fill 0 0 taskRunning 0 (some 0) hb halloc h0
      have hwords := Sched.fillBlock_fields heap.mem idle 0 0 taskRunning 0 (some 0)
      set m := Sched.fillBlock heap.mem idle 0 0 taskRunning (some 0) 0 with hm
      have hmem : idle ∈ [] ++ [idle] := by simp
      obtain ⟨hb1, _⟩ := hfill.store (v := idle) hmem (show IsField nextOff by decide)
      have hfield : ∀ off, IsField off → Sched.field _ idle off = _ := fun off hoff =>
        hfill.field_store (v := idle) hmem hmem (show IsField nextOff by decide) hoff
      have hlt : idle < 2 ^ 32 := by
        have := (hfill.task_lt hmem).2
        omega
      refine ⟨⟨hb1.heap, hb1.tables⟩, ⟨[idle], Ring.single ?_, .refl _⟩, fun t ht => ?_⟩
      · refine (hfield nextOff (by decide)).trans ?_
        rw [if_pos ⟨rfl, rfl⟩, Nat.mod_eq_of_lt hlt]
      · obtain rfl := List.mem_singleton.mp ht
        show Sched.state _ t = if t = t then taskRunning else taskReady
        rw [if_pos rfl]
        refine (hfield stateOff (by decide)).trans ?_
        rw [if_neg (by simp [stateOff, nextOff])]
        exact hwords.2.2.1

/-- The scheduler that `kmain` starts has the invariant. -/
theorem boot_inv {mem : Memory} {pmm : Pmm} {top : Nat} {framebuffer : Option (Nat × Nat)}
    {s : Sched} (hwf : pmm.Wf) (htotal : pmm.totalPages = pmmTotalPages top) (htop : top < 2 ^ 32)
    (hfb : ∀ fb ∈ framebuffer, fb.1 < 2 ^ 32) (hboot : Sched.boot mem pmm top framebuffer = some s) :
    Inv ⟨s, [s.current]⟩ := by
  obtain ⟨k, hk, hinit⟩ := Option.bind_eq_some_iff.mp hboot
  obtain ⟨hs, _⟩ := Kernel.bootMemory_sound hwf htotal htop hfb hk
  obtain ⟨tiles, fl, hl⟩ := hs.heap
  have hbacked : (Sched.ofKernel k).Backed [] := by
    refine ⟨⟨tiles, fl, hl, ?_⟩, hs.dir.tables⟩
    rintro t n ⟨ht, _⟩
    cases ht
  exact taskInit_inv hbacked hinit

/-- In every state that creations and yields reach, in any order, the tasks form one ring in which
exactly the current task is running. -/
theorem ring_runs_sound {r top : Nat} {mem : Memory} {pmm : Pmm}
    {framebuffer : Option (Nat × Nat)} {s : Sched} (hwf : pmm.Wf)
    (htotal : pmm.totalPages = pmmTotalPages top) (htop : top < 2 ^ 32)
    (hfb : ∀ fb ∈ framebuffer, fb.1 < 2 ^ 32)
    (hboot : Sched.boot mem pmm top framebuffer = some s) (events : List SchedEvent)
    (hvalid : ∀ e ∈ events, Valid e) :
    RingSound ⟨s, [s.current]⟩ ∧
      Along (step r) (fun _ _ s' => s'.RingSound) ⟨s, [s.current]⟩ events := by
  have hinv := boot_inv hwf htotal htop hfb hboot
  refine ⟨hinv.sound, (along_of_step (I := Inv) (C := fun _ e => Valid e) ?_ hinv
    (meets_of_forall hvalid _)).1⟩
  intro s e s' h he hstep
  have h' := h.step he hstep
  exact ⟨h', h'.sound⟩

/-- A run with all three kinds of tasks, created and scheduled in turn. -/
def sampleEvents : List SchedEvent :=
  [.create 0x100400, .yield 0x106000, .createUser 0x101000 0, .store 0x800000 7, .yield 0x107000,
    .createUserWithPages 0x800000 0 [0x800000], .kmalloc 100, .yield 0x108000, .yield 0x109000]

theorem ring_runs_sound_sample : ∃ s,
    Sched.boot (fun _ => 0) Kernel.samplePmm 0x802000 none = some s ∧
      RingSound ⟨s, [s.current]⟩ ∧
      Along (step 0x100000) (fun _ _ s' => s'.RingSound) ⟨s, [s.current]⟩ sampleEvents := by
  obtain ⟨s, hboot⟩ := Option.isSome_iff_exists.mp Sched.boot_sample
  exact ⟨s, hboot, ring_runs_sound Kernel.samplePmm_wf rfl (by decide) (by simp) hboot
    sampleEvents (by decide)⟩

end SchedRun

end Kumo
