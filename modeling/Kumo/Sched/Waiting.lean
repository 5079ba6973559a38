import Kumo.Sched.RingRuns

/-!
# How long a task waits

`task_yield` takes the next task of the ring, and a new task is inserted right after the current
one, in front of those that wait already. A yield brings a waiting task one place nearer, and a
creation puts it one place back; nothing else moves it. So in any part of a run that yields
often enough, every task that was there at its beginning runs.
-/

namespace Kumo

open Memory Transition LinkedRing

/-- The event is a call of `task_yield`. -/
def SchedEvent.isYield : SchedEvent → Bool
  | .yield _ => true
  | _ => false

namespace SchedRun

/-- The number of yields in a part of a run. -/
def yieldCount (events : List SchedEvent) : Nat := events.countP SchedEvent.isYield

/-- The ring has `n` tasks from the current one on before it comes to `t`. -/
def Ahead (s : SchedRun) (t n : Nat) : Prop :=
  ∃ l, Ring s.sched.next s.sched.current l ∧ l.Perm s.tasks ∧ l.idxOf t = n

/-- A task runs at some point of the run. -/
def RunsIn (returnToRing3 : Nat) (s : SchedRun) (events : List SchedEvent) (t : Nat) : Prop :=
  ∃ k, k ≤ events.length ∧ ∃ m, run (step returnToRing3) s (events.take k) = some m ∧
    m.sched.current = t

variable {s s' : SchedRun} {sched : Sched} {t u n r : Nat} {e : SchedEvent}

/-! ## Places in the ring -/

theorem Inv.ahead (h : s.Inv) (t : Nat) : ∃ n, s.Ahead t n := by
  obtain ⟨l, hring, hperm⟩ := h.ring
  exact ⟨_, l, hring, hperm, rfl⟩

/-- A task that waits comes before the ring is back at the current one. -/
theorem Ahead.lt (h : s.Ahead t n) (ht : t ∈ s.tasks) : n < s.tasks.length := by
  obtain ⟨l, -, hperm, rfl⟩ := h
  rw [← hperm.length_eq]
  exact List.idxOf_lt_length_of_mem (hperm.mem_iff.mpr ht)

/-- Only the current task has none before it. -/
theorem Ahead.pos (h : s.Ahead t n) (hne : s.sched.current ≠ t) : 0 < n := by
  obtain ⟨l, hring, -, rfl⟩ := h
  obtain ⟨rest, rfl⟩ := hring.cons
  rw [List.idxOf_cons_ne rest hne]
  exact Nat.succ_pos _

/-- A call that changes no control block leaves every task at its place. -/
theorem Ahead.of_same (h : s.Ahead t n) (hsame : SameOwned (blocksOf s.tasks) s.sched.mem sched.mem)
    (hcur : sched.current = s.sched.current) : Ahead { s with sched := sched } t n := by
  obtain ⟨l, hring, hperm, hn⟩ := h
  refine ⟨l, ?_, hperm, hn⟩
  show Ring sched.next sched.current l
  rw [hcur]
  exact hring.congr fun a ha =>
    hsame.load32 ⟨hperm.mem_iff.mp ha, rfl⟩ (show IsField nextOff by decide).2

/-- A yield brings a waiting task one place nearer. -/
theorem Ahead.yield (h : s.Ahead t (n + 1)) (hinv : s.Inv) (ht : t ∈ s.tasks) (esp : Nat) :
    Ahead { s with sched := s.sched.taskYield esp } t n := by
  obtain ⟨-, hcur, hnext⟩ := hinv.yield esp
  obtain ⟨l, hring, hperm, hn⟩ := h
  obtain ⟨rest, rfl⟩ := hring.cons
  have hperm' := (List.perm_append_singleton s.sched.current rest).trans hperm
  have hne : s.sched.current ≠ t := by
    intro heq
    rw [heq, List.idxOf_cons_self] at hn
    exact Nat.succ_ne_zero n hn.symm
  have hrest : t ∈ rest := List.mem_of_ne_of_mem (Ne.symm hne) (hperm.mem_iff.mpr ht)
  refine ⟨rest ++ [s.sched.current], ?_, hperm', ?_⟩
  · show Ring (s.sched.taskYield esp).next (s.sched.taskYield esp).current _
    rw [hcur]
    exact hring.rotate.congr fun a ha => hnext a (hperm'.mem_iff.mp ha)
  · rw [List.idxOf_cons_ne rest hne] at hn
    rw [List.idxOf_append_of_mem hrest]
    exact Nat.succ.inj hn

/-- A new task goes before those that wait. -/
theorem Ahead.added (h : s.Ahead t (n + 1)) (hinv : s.Inv) (ht : t ∈ s.tasks)
    (hadd : s.sched.Added sched s.tasks u) : (s.created (u, sched)).Ahead t (n + 2) := by
  obtain ⟨l, hring, hperm, hn⟩ := h
  obtain ⟨rest, rfl⟩ := hring.cons
  have hul : u ∉ s.sched.current :: rest := fun hmem => hadd.fresh (hperm.mem_iff.mp hmem)
  have hnext : ∀ v ∈ s.tasks, sched.next v =
      if v = s.sched.current ∧ nextOff = nextOff then u else s.sched.next v :=
    fun v hv => hadd.fields v hv nextOff (show IsField nextOff by decide)
  have htasks : (s.created (u, sched)).tasks = s.tasks ++ [u] := if_neg hadd.nonzero
  have hrest : ∀ a ∈ rest, sched.next a = s.sched.next a := by
    intro a ha
    have hne : a ≠ s.sched.current := fun heq => (List.nodup_cons.mp hring.nodup).1 (heq ▸ ha)
    rw [hnext a (hperm.mem_iff.mp (List.mem_cons_of_mem _ ha)), if_neg fun h => hne h.1]
  have hne : s.sched.current ≠ t := by
    intro heq
    rw [heq, List.idxOf_cons_self] at hn
    exact Nat.succ_ne_zero n hn.symm
  have hut : u ≠ t := fun heq => hadd.fresh (heq ▸ ht)
  refine ⟨s.sched.current :: u :: rest, ?_, ?_, ?_⟩
  · show Ring sched.next sched.current _
    rw [hadd.current]
    exact hring.insert hul (by rw [hnext _ hinv.current_mem, if_pos ⟨rfl, rfl⟩]) hadd.next hrest
  · rw [htasks]
    exact (List.Perm.swap u s.sched.current rest).trans
      ((hperm.cons u).trans (List.perm_append_singleton u s.tasks).symm)
  · rw [List.idxOf_cons_ne rest hne] at hn
    rw [List.idxOf_cons_ne _ hne, List.idxOf_cons_ne rest hut, hn]

/-! ## One event -/

/-- What an event does to the place of a task that waits. -/
def Moved (s s' : SchedRun) (e : SchedEvent) (t n : Nat) : Prop :=
  ∃ n', s'.Ahead t n' ∧ (∀ u ∈ s.tasks, u ∈ s'.tasks) ∧ s.tasks.length ≤ s'.tasks.length ∧
    n' + yieldCount [e] = n + (s'.tasks.length - s.tasks.length)

/-- A creation moves the task back if there is a new one. -/
theorem Ahead.creation {p : Paging} (h : s.Ahead t (n + 1)) (hinv : s.Inv) (ht : t ∈ s.tasks)
    (hp : s.sched.Prepares p) (he : e.isYield = false)
    (hcases : (u = 0 ∧ sched = s.sched.setPaging p) ∨ ∃ sp top taskPd,
      (s.sched.setPaging p).addTask sp top taskPd = some (u, sched)) :
    Moved s (s.created (u, sched)) e t (n + 1) := by
  have hcount : yieldCount [e] = 0 := by
    rw [yieldCount, List.countP_singleton, he]
    rfl
  obtain ⟨hb, hsame⟩ := hp.backed hinv.backed
  have hprep : Inv { s with sched := s.sched.setPaging p } := hinv.of_same hb hsame rfl
  have hahead : Ahead { s with sched := s.sched.setPaging p } t (n + 1) := h.of_same hsame rfl
  rcases hcases with ⟨rfl, rfl⟩ | ⟨sp, top, taskPd, hrun⟩
  · refine ⟨n + 1, hahead, fun _ hu => hu, Nat.le_refl _, ?_⟩
    show n + 1 + yieldCount [e] = n + 1 + (s.tasks.length - s.tasks.length)
    omega
  · obtain ⟨hadd, -⟩ := hb.addTask hprep.current_mem hrun
    have htasks : (s.created (u, sched)).tasks = s.tasks ++ [u] := if_neg hadd.nonzero
    refine ⟨n + 2, hahead.added hprep ht hadd, fun v hv => ?_, ?_, ?_⟩
    · rw [htasks]
      exact List.mem_append_left _ hv
    · rw [htasks, List.length_append]
      exact Nat.le_add_right ..
    · rw [htasks, List.length_append, List.length_singleton]
      omega

/-- The place of a task changes with each yield and each new task, and with nothing else. -/
theorem Ahead.step (h : s.Ahead t n) (hinv : s.Inv) (ht : t ∈ s.tasks) (hne : s.sched.current ≠ t)
    (hvalid : Valid e) (hstep : s.step r e = some s') : Moved s s' e t n := by
  obtain ⟨m, rfl⟩ := Nat.exists_eq_add_of_lt (h.pos hne)
  rw [Nat.zero_add] at h ⊢
  -- an event that changes no block and adds no task
  have hquiet : ∀ sched : Sched, e.isYield = false →
      SameOwned (blocksOf s.tasks) s.sched.mem sched.mem → sched.current = s.sched.current →
      Moved s { s with sched := sched } e t (m + 1) := by
    intro sched he hsame hcur
    refine ⟨m + 1, h.of_same hsame hcur, fun _ hu => hu, Nat.le_refl _, ?_⟩
    rw [yieldCount, List.countP_singleton, he]
    show m + 1 + 0 = m + 1 + (s.tasks.length - s.tasks.length)
    omega
  cases e with
  | create entry =>
      obtain ⟨⟨u, sched⟩, hrun, rfl⟩ := Option.map_eq_some_iff.mp hstep
      obtain ⟨p, hp, -, hcases⟩ := hinv.backed.taskCreate hrun
      exact h.creation hinv ht hp rfl (hcases.imp id fun ⟨sp, hadd⟩ => ⟨sp, none, 0, hadd⟩)
  | createUser entryAddr userEsp =>
      obtain ⟨⟨u, sched⟩, hrun, rfl⟩ := Option.map_eq_some_iff.mp hstep
      obtain ⟨p, hp, -, hcases⟩ := hinv.backed.taskCreateUser hrun
      exact h.creation hinv ht hp rfl (hcases.imp id fun ⟨sp, top, hadd⟩ => ⟨sp, some top, 0, hadd⟩)
  | createUserWithPages entryAddr userEsp userPages =>
      obtain ⟨⟨u, sched⟩, hrun, rfl⟩ := Option.map_eq_some_iff.mp hstep
      obtain ⟨p, hwf, hkeeps, hcases⟩ := hinv.backed.taskCreateUserWithPages hvalid hrun
      exact h.creation hinv ht (hinv.backed.prepares.keeps hwf hkeeps) rfl
        (hcases.imp id fun ⟨sp, top, pd, _, hadd⟩ => ⟨sp, some top, pd, hadd⟩)
  | yield esp =>
      obtain rfl := Option.some.inj hstep
      refine ⟨m, h.yield hinv ht esp, fun _ hu => hu, Nat.le_refl _, ?_⟩
      show m + 1 = m + 1 + (s.tasks.length - s.tasks.length)
      omega
  | pages call =>
      obtain rfl := Option.some.inj hstep
      have hp := hinv.backed.prepares.pmm (hinv.backed.heap.pmm_wf.call call)
        fun i => Pmm.used_call call
      exact hquiet _ rfl (hp.backed hinv.backed).2 rfl
  | kmalloc size =>
      obtain ⟨⟨q, heap⟩, hrun, rfl⟩ := Option.map_eq_some_iff.mp hstep
      exact hquiet _ rfl (hinv.backed.heap.kmalloc hvalid hrun).1 rfl
  | store address byte =>
      obtain rfl := Option.some.inj hstep
      have hout : s.sched.heap.pmm.taken.Same s.sched.mem (s.sched.mem.store8 address byte) := by
        intro page x hp h1 h2
        have hupper := hp.upper
        exact store8_other (by simp only [Valid] at hvalid; omega)
      have hp : s.sched.Prepares { s.sched.paging with mem := s.sched.mem.store8 address byte } :=
        hinv.backed.prepares.keeps hinv.backed.heap.pmm_wf ⟨hout, fun _ h => h, rfl, rfl, rfl⟩
      exact hquiet _ rfl (hp.backed hinv.backed).2 rfl

/-! ## Runs -/

/-- As long as a task does not run, its place is what yields and creations have made of it. -/
theorem Inv.waits {events : List SchedEvent} {final : SchedRun} (hinv : s.Inv) (h : s.Ahead t n)
    (ht : t ∈ s.tasks) (hvalid : ∀ e ∈ events, Valid e)
    (hrun : run (SchedRun.step r) s events = some final) : RunsIn r s events t ∨
      s.tasks.length ≤ final.tasks.length ∧ ∃ n', 0 < n' ∧ final.Ahead t n' ∧
        n' + yieldCount events = n + (final.tasks.length - s.tasks.length) := by
  induction events generalizing s n with
  | nil =>
      by_cases hcur : s.sched.current = t
      · exact .inl ⟨0, Nat.le_refl _, s, rfl, hcur⟩
      · obtain rfl := Option.some.inj hrun
        refine .inr ⟨Nat.le_refl _, n, h.pos hcur, h, ?_⟩
        show n + 0 = n + (s.tasks.length - s.tasks.length)
        omega
  | cons e events ih =>
      by_cases hcur : s.sched.current = t
      · exact .inl ⟨0, Nat.zero_le _, s, rfl, hcur⟩
      have he := hvalid e (List.mem_cons_self ..)
      obtain ⟨s1, hstep, hrest⟩ := Option.bind_eq_some_iff.mp hrun
      obtain ⟨n1, hahead, hkept, hmore, hplace⟩ := h.step hinv ht hcur he hstep
      rcases ih (hinv.step he hstep) hahead (hkept t ht)
        (fun e' he' => hvalid e' (List.mem_cons_of_mem e he')) hrest with hruns | hwaits
      · obtain ⟨k, hk, m, hm, hcur'⟩ := hruns
        refine .inl ⟨k + 1, Nat.succ_le_succ hk, m, ?_, hcur'⟩
        rw [List.take_succ_cons, run, hstep]
        exact hm
      · obtain ⟨hmore', n', hpos, hahead', hplace'⟩ := hwaits
        have hcount : yieldCount (e :: events) = yieldCount [e] + yieldCount events := by
          rw [← List.singleton_append]
          exact List.countP_append
        refine .inr ⟨Nat.le_trans hmore hmore', n', hpos, hahead', ?_⟩
        rw [hcount]
        omega

/-- No task is passed over: in any part of a run with at least as many yields as there are other
tasks at its end, every task that was there at its beginning runs. -/
theorem waiting_bounded {top : Nat} {mem : Memory} {pmm : Pmm}
    {framebuffer : Option (Nat × Nat)} {s : Sched} (hwf : pmm.Wf)
    (htotal : pmm.totalPages = pmmTotalPages top) (htop : top < 2 ^ 32)
    (hfb : ∀ fb ∈ framebuffer, fb.1 < 2 ^ 32)
    (hboot : Sched.boot mem pmm top framebuffer = some s) {before during : List SchedEvent}
    (hvalid : ∀ e ∈ before ++ during, Valid e) {first last : SchedRun}
    (hbefore : run (step r) ⟨s, [s.current]⟩ before = some first)
    (hduring : run (step r) first during = some last)
    (hyields : last.tasks.length ≤ yieldCount during + 1) :
    ∀ t ∈ first.tasks, RunsIn r first during t := by
  intro t ht
  have hinv : first.Inv := (along_of_step (I := Inv) (C := fun _ e => Valid e)
    (Q := fun _ _ _ => True) (fun _ _ _ h he hstep => ⟨h.step he hstep, trivial⟩)
    (boot_inv hwf htotal htop hfb hboot)
    (meets_of_forall (fun e he => hvalid e (List.mem_append_left _ he)) _)).2 first hbefore
  obtain ⟨n, hahead⟩ := hinv.ahead t
  rcases hinv.waits hahead ht (fun e he => hvalid e (List.mem_append_right _ he)) hduring with
    hruns | hwaits
  · exact hruns
  · -- the task would have come nearer than it can be
    obtain ⟨hmore, n', hpos, -, hplace⟩ := hwaits
    have hlt := hahead.lt ht
    omega

/-- A kernel task is created and runs. -/
def sampleBefore : List SchedEvent := [.create 0x100400, .yield 0x106000]

/-- A user task is created, and the processor goes round. -/
def sampleDuring : List SchedEvent :=
  [.createUserWithPages 0x800000 0 [0x800000], .yield 0x107000, .yield 0x108000]

theorem waiting_sample : ((Sched.boot (fun _ => 0) Kernel.samplePmm 0x802000 none).bind fun s =>
    (run (step 0x100000) ⟨s, [s.current]⟩ sampleBefore).bind fun first =>
      (run (step 0x100000) first sampleDuring).map fun last => last.tasks.length) = some 3 := by
  decide +kernel

theorem waiting_bounded_sample : ∃ s first last,
    Sched.boot (fun _ => 0) Kernel.samplePmm 0x802000 none = some s ∧
      run (step 0x100000) ⟨s, [s.current]⟩ sampleBefore = some first ∧
      run (step 0x100000) first sampleDuring = some last ∧
      ∀ t ∈ first.tasks, RunsIn 0x100000 first sampleDuring t := by
  obtain ⟨s, hboot, hrest⟩ := Option.bind_eq_some_iff.mp waiting_sample
  obtain ⟨first, hbefore, hrest⟩ := Option.bind_eq_some_iff.mp hrest
  obtain ⟨last, hduring, hlength⟩ := Option.map_eq_some_iff.mp hrest
  refine ⟨s, first, last, hboot, hbefore, hduring, ?_⟩
  have hvalid : ∀ e ∈ sampleBefore ++ sampleDuring, Valid e := by decide
  refine waiting_bounded Kernel.samplePmm_wf rfl (by decide) (by simp) hboot hvalid hbefore
    hduring ?_
  rw [hlength]
  decide

end SchedRun

end Kumo
