import Kumo.Mm.KheapOwners
import Kumo.Sched.ControlBlock
import Kumo.Sched.TaskCreate

/-!
# What the scheduler does to control blocks

One specification for each function that touches a control block, in terms of the words
of the blocks: which word is new, and that all others are what they were. `Backed` is
what these specifications rest on: every task holds its block in the heap, and the
kernel's page tables lie elsewhere.
-/

namespace Kumo

open Memory

/-- What the tasks hold: a `task_t` each. -/
def blocksOf (tasks : List Nat) : Nat → Nat → Prop := fun t n => t ∈ tasks ∧ n = taskSize

/-- The offset of a word of `task_t`. -/
def IsField (off : Nat) : Prop := off % 4 = 0 ∧ off + 4 ≤ taskSize

instance (off : Nat) : Decidable (IsField off) := inferInstanceAs (Decidable (_ ∧ _))

namespace Sched

variable {s s' : Sched} {tasks : List Nat} {t u off : Nat}

/-- Every task holds its block, and the kernel's tables lie outside the heap. -/
structure Backed (s : Sched) (tasks : List Nat) : Prop where
  heap : Owned s.heap (blocksOf tasks)
  tables : KernelTables s.heap.reserved s.mem s.pdPhys

theorem Backed.task_lt (hb : s.Backed tasks) (ht : t ∈ tasks) : t ≠ 0 ∧ t + taskSize < 2 ^ 32 := by
  obtain ⟨_, h1, h2⟩ := hb.heap.bounds (p := t) (n := taskSize) ⟨ht, rfl⟩
  simp only [managedBase, userMemStart] at *
  omega

/-- A memory that differs inside the heap only has the kernel's tables where they were. -/
theorem Backed.tables_of_heap {m : Memory} (hb : s.Backed tasks)
    (hm : ∀ x, ¬ s.heap.InHeap x → m x = s.mem x) :
    KernelTables s.heap.reserved m s.pdPhys ∧ s.heap.reserved.Same s.mem m := by
  have hsame : s.heap.reserved.Same s.mem m := by
    intro page x hp h1 h2
    refine hm x fun hin => hp.2 ?_
    have hpage : pageOf x = page := by
      have := hp.1.aligned
      simp only [pageOf, pageSize] at *
      omega
    rw [← hpage]
    exact hin
  exact ⟨hb.tables.transfer (fun _ h => h) hsame, hsame⟩

/-- Storing a word of a block. -/
theorem Backed.store {v : Nat} (hb : s.Backed tasks) (ht : t ∈ tasks) (hoff : IsField off) :
    (s.setMem (s.mem.store32 (t + off) v)).Backed tasks ∧
      s.heap.reserved.Same s.mem (s.mem.store32 (t + off) v) := by
  have hown : blocksOf tasks t taskSize := ⟨ht, rfl⟩
  obtain ⟨htables, hsame⟩ := hb.tables_of_heap (m := s.mem.store32 (t + off) v) fun x hx => by
    refine store32_outside ?_
    by_contra hin
    have := hoff.2
    exact hx (hb.heap.inHeap hown (by omega) (by omega))
  exact ⟨⟨hb.heap.store32 hown hoff.2, htables⟩, hsame⟩

/-- A word of a block after a store into a block. -/
theorem Backed.field_store {off' v : Nat} (hb : s.Backed tasks) (ht : t ∈ tasks) (hu : u ∈ tasks)
    (hoff : IsField off) (hoff' : IsField off') :
    (s.setMem (s.mem.store32 (t + off) v)).field u off' =
      if u = t ∧ off' = off then v % 2 ^ 32 else s.field u off' :=
  hb.heap.load_store ⟨ht, rfl⟩ ⟨hu, rfl⟩ hoff'.2 hoff.2 hoff'.1 hoff.1

/-! ## Before the control block -/

/-- What a function may do before it asks for a control block: take pages, and write outside the
heap without moving a table of the kernel. -/
structure Prepares (s : Sched) (p : Paging) : Prop where
  wf : p.pmm.Wf
  same : (s.heap.pmm.inside s.heap.heapPages).Same s.mem p.mem
  used : ∀ i, s.heap.pmm.used i = true → p.pmm.used i = true
  tables : KernelTables s.heap.reserved p.mem p.pdPhys

theorem Backed.prepares (hb : s.Backed tasks) : s.Prepares s.paging :=
  ⟨hb.heap.pmm_wf, .refl _ _, fun _ h => h, hb.tables⟩

/-- The blocks are where they were after the preparation. -/
theorem Prepares.backed {p : Paging} (hp : s.Prepares p) (hb : s.Backed tasks) :
    (s.setPaging p).Backed tasks ∧ SameOwned (blocksOf tasks) s.mem p.mem := by
  have hheap : ∀ x, s.heap.InHeap x → p.mem x = s.mem x := fun x hx =>
    hp.same (pageOf x) x ⟨hb.heap.pages _ hx, hx⟩ (by simp only [pageOf, pageSize]; omega)
      (by simp only [pageOf, pageSize]; omega)
  refine ⟨⟨(hb.heap.of_same hheap).of_pmm hp.wf hp.used, ?_⟩, fun t n ht x h1 h2 => ?_⟩
  · exact hp.tables.transfer (fun q hq => ⟨hq.1.mono hp.used, hq.2⟩) (.refl _ _)
  · exact hheap x (hb.heap.inHeap ht h1 h2)

/-- Taking pages. -/
theorem Prepares.pmm {p : Paging} {u : Pmm} (hp : s.Prepares p) (hu : u.Wf)
    (hused : ∀ i, p.pmm.used i = true → u.used i = true) : s.Prepares { p with pmm := u } :=
  ⟨hu, hp.same, fun i hi => hused i (hp.used i hi), hp.tables⟩

/-- Writing in pages that were free. -/
theorem Prepares.keeps {p p' : Paging} (hp : s.Prepares p) (hwf : p'.pmm.Wf)
    (hk : Paging.Keeps s.heap.pmm.taken p p') : s.Prepares p' := by
  refine ⟨hwf, hp.same.trans (hk.same.mono fun q hq => hq.1),
    fun i hi => hk.used i (hp.used i hi), ?_⟩
  rw [hk.pdPhys]
  exact hp.tables.transfer (fun _ h => h) (hk.same.mono fun q hq => hq.1)

/-- Opening a page in the kernel directory. -/
theorem Prepares.userAccessible {p : Paging} {a : Nat} (hp : s.Prepares p) (ha : a < 2 ^ 32) :
    s.Prepares (p.pagingSetUserAccessible a) ∧
      (p.pagingSetUserAccessible a).pmm = p.pmm ∧
      (p.pagingSetUserAccessible a).pdPhys = p.pdPhys := by
  have hpmm : (p.pagingSetUserAccessible a).pmm = p.pmm := by
    unfold Paging.pagingSetUserAccessible
    dsimp only
    split <;> rfl
  have hpd : (p.pagingSetUserAccessible a).pdPhys = p.pdPhys := by
    unfold Paging.pagingSetUserAccessible
    dsimp only
    split <;> rfl
  obtain ⟨htables, hsame⟩ := hp.tables.setUserAccessible
    (S := s.heap.pmm.inside s.heap.heapPages) ha fun page hin hout => hout.2 hin.2
  refine ⟨⟨?_, hp.same.trans hsame, ?_, htables⟩, hpmm, hpd⟩
  · rw [hpmm]
    exact hp.wf
  · rw [hpmm]
    exact hp.used

/-! ## A new control block -/

theorem storeSome_outside {m : Memory} {a x : Nat} {v : Option Nat} (hx : x < a ∨ a + 4 ≤ x) :
    storeSome m a v x = m x := by
  cases v with
  | none => rfl
  | some v => exact store32_outside hx

theorem load32_storeSome {m : Memory} {a b : Nat} {v : Option Nat} (h : b + 4 ≤ a ∨ a + 4 ≤ b) :
    (storeSome m a v).load32 b = m.load32 b :=
  load32_congr fun x _ _ => storeSome_outside (by omega)

theorem fillBlock_outside {m : Memory} {sp id state cr3 x : Nat} {kstackTop : Option Nat}
    (hx : x < t ∨ t + taskSize ≤ x) : fillBlock m t sp id state kstackTop cr3 x = m x := by
  simp only [taskSize, maxFdPerTask] at hx
  unfold fillBlock
  simp only [espOff, idOff, stateOff, kernelStackTopOff, cr3Off, fdTableOff]
  rw [Kernel.storeWords_outside (by simp only [List.length_replicate, maxFdPerTask]; omega),
    store32_outside (by omega), storeSome_outside (by omega), store32_outside (by omega),
    store32_outside (by omega), store32_outside (by omega)]

/-- The words of a filled block. -/
theorem fillBlock_fields (m : Memory) (t sp id state cr3 : Nat) (kstackTop : Option Nat) :
    (fillBlock m t sp id state kstackTop cr3).load32 (t + espOff) = sp % 2 ^ 32 ∧
      (fillBlock m t sp id state kstackTop cr3).load32 (t + idOff) = id % 2 ^ 32 ∧
      (fillBlock m t sp id state kstackTop cr3).load32 (t + stateOff) = state % 2 ^ 32 ∧
      (∀ top, kstackTop = some top →
        (fillBlock m t sp id state kstackTop cr3).load32 (t + kernelStackTopOff) = top % 2 ^ 32) ∧
      (fillBlock m t sp id state kstackTop cr3).load32 (t + cr3Off) = cr3 % 2 ^ 32 ∧
      ∀ i, i < maxFdPerTask →
        (fillBlock m t sp id state kstackTop cr3).load32 (t + fdTableOff + 4 * i) = 0 := by
  -- the table of descriptors is stored last, above the other fields
  have hbelow : ∀ (m : Memory) (off : Nat), off + 4 ≤ fdTableOff →
      (Kernel.storeWords m (t + fdTableOff) (List.replicate maxFdPerTask 0)).load32 (t + off) =
        m.load32 (t + off) := fun m off hoff =>
    load32_congr fun x _ _ => Kernel.storeWords_outside (.inl (by omega))
  unfold fillBlock
  dsimp only
  refine ⟨?_, ?_, ?_, ?_, ?_, fun i hi => ?_⟩
  · rw [hbelow _ _ (by decide)]
    simp only [espOff, idOff, stateOff, kernelStackTopOff, cr3Off]
    rw [load32_store32_disjoint (by omega), load32_storeSome (by omega),
      load32_store32_disjoint (by omega), load32_store32_disjoint (by omega), load32_store32]
  · rw [hbelow _ _ (by decide)]
    simp only [espOff, idOff, stateOff, kernelStackTopOff, cr3Off]
    rw [load32_store32_disjoint (by omega), load32_storeSome (by omega),
      load32_store32_disjoint (by omega), load32_store32]
  · rw [hbelow _ _ (by decide)]
    simp only [espOff, idOff, stateOff, kernelStackTopOff, cr3Off]
    rw [load32_store32_disjoint (by omega), load32_storeSome (by omega), load32_store32]
  · rintro top rfl
    rw [hbelow _ _ (by decide)]
    simp only [kernelStackTopOff, cr3Off]
    rw [load32_store32_disjoint (by omega), storeSome, load32_store32]
  · rw [hbelow _ _ (by decide), load32_store32]
  · rw [Kernel.load32_storeWords (by simpa using hi) (by simp), List.getElem_replicate]

/-- What a new task has, besides its place in the ring. -/
structure NewBlock (s' : Sched) (t sp state : Nat) (kstackTop : Option Nat) (taskPd : Nat) : Prop where
  esp : s'.field t espOff = sp % 2 ^ 32
  state : s'.state t = state
  kernelStackTop : ∀ top, kstackTop = some top → s'.field t kernelStackTopOff = top % 2 ^ 32
  cr3 : s'.field t cr3Off = taskPd % 2 ^ 32

/-- What inserting task `t` after the current one does. -/
structure Added (s s' : Sched) (tasks : List Nat) (t : Nat) : Prop where
  fresh : t ∉ tasks
  nonzero : t ≠ 0
  backed : s'.Backed (tasks ++ [t])
  fields : ∀ u ∈ tasks, ∀ off, IsField off →
    s'.field u off = if u = s.current ∧ off = nextOff then t else s.field u off
  next : s'.next t = s.next s.current
  current : s'.current = s.current
  cr3 : s'.cr3 = s.cr3
  esp0 : s'.esp0 = s.esp0
  pdPhys : s'.pdPhys = s.pdPhys
  used : ∀ i, s.heap.pmm.used i = true → s'.heap.pmm.used i = true
  reserved : ∀ q, s.heap.reserved.has q → s'.heap.reserved.has q
  same : s.heap.reserved.Same s.mem s'.mem

/-- A block that `kmalloc` just returned, filled in. -/
theorem Backed.fill {heap : Kheap} (sp id state cr3 : Nat) (kstackTop : Option Nat)
    (hb : s.Backed tasks) (halloc : s.heap.kmalloc taskSize = some (t, heap)) (h0 : t ≠ 0) :
    t ∉ tasks ∧
      Backed { s with heap := { heap with mem := fillBlock heap.mem t sp id state kstackTop cr3 } }
        (tasks ++ [t]) ∧
      SameOwned (blocksOf tasks) s.mem (fillBlock heap.mem t sp id state kstackTop cr3) ∧
      (∀ i, s.heap.pmm.used i = true → heap.pmm.used i = true) ∧
      (∀ q, s.heap.reserved.has q → heap.reserved.has q) ∧
      s.heap.reserved.Same s.mem (fillBlock heap.mem t sp id state kstackTop cr3) := by
  obtain ⟨hsame, hgrows, _, hnew⟩ := hb.heap.kmalloc (by decide) halloc
  obtain ⟨hown, hfresh⟩ := hnew h0
  have hnot : t ∉ tasks := fun hmem => hfresh taskSize ⟨hmem, rfl⟩
  obtain ⟨hreserved, hkeep⟩ := hgrows.reserved
  have hblocks : Owned heap (blocksOf (tasks ++ [t])) := by
    refine hown.mono fun q n hq => ?_
    obtain ⟨hq, rfl⟩ := hq
    rcases List.mem_append.mp hq with hq | hq
    · exact .inl ⟨hq, rfl⟩
    · exact .inr ⟨List.mem_singleton.mp hq, rfl⟩
  have ht : blocksOf (tasks ++ [t]) t taskSize := ⟨by simp, rfl⟩
  set m := fillBlock heap.mem t sp id state kstackTop cr3 with hm
  have hout : ∀ x, x < t ∨ t + taskSize ≤ x → m x = heap.mem x := fun x => fillBlock_outside
  have hbase : Backed { s with heap := heap } (tasks ++ [t]) :=
    ⟨hblocks, hb.tables.transfer hreserved hkeep⟩
  obtain ⟨htables, hsame2⟩ := hbase.tables_of_heap (m := m) fun x hx => hout x (by
    by_contra hin
    exact hx (hblocks.inHeap ht (by omega) (by omega)))
  refine ⟨hnot, ⟨hblocks.write fun x => ?_, htables⟩, fun q n hq x h1 h2 => ?_, hgrows.used,
    hreserved, ?_⟩
  · by_cases hx : x < t ∨ t + taskSize ≤ x
    · exact .inl (hout x hx)
    · exact .inr ⟨t, taskSize, ht, by omega, by omega⟩
  · obtain ⟨hq, rfl⟩ := hq
    have hne : q ≠ t := fun heq => hnot (heq ▸ hq)
    have := hblocks.disjoint (p := q) (n := taskSize) (q := t) (m := taskSize)
      ⟨List.mem_append_left _ hq, rfl⟩ ht hne
    exact (hout x (by omega)).trans (hsame q taskSize ⟨hq, rfl⟩ x h1 h2)
  · exact hkeep.trans (hsame2.mono hreserved)

/-- The specification of `addTask`. -/
theorem Backed.addTask {sp taskPd : Nat} {kstackTop : Option Nat} (hb : s.Backed tasks)
    (hcur : s.current ∈ tasks) (hrun : s.addTask sp kstackTop taskPd = some (t, s')) :
    s.Added s' tasks t ∧ s'.NewBlock t sp taskReady kstackTop taskPd := by
  unfold Sched.addTask at hrun
  cases halloc : s.heap.kmalloc taskSize with
  | none => rw [halloc] at hrun; cases hrun
  | some r =>
      obtain ⟨t', heap⟩ := r
      rw [halloc] at hrun
      dsimp only at hrun
      by_cases h0 : t' = 0
      · rw [if_pos h0] at hrun
        cases hrun
      rw [if_neg h0] at hrun
      obtain ⟨rfl, rfl⟩ := Prod.mk.inj (Option.some.inj hrun)
      obtain ⟨hnot, hfill, hsame, hused, hreserved, hkeep⟩ :=
        Backed.fill sp s.nextId taskReady taskPd kstackTop hb halloc h0
      have hwords := fillBlock_fields heap.mem t' sp s.nextId taskReady taskPd kstackTop
      set m := fillBlock heap.mem t' sp s.nextId taskReady kstackTop taskPd with hm
      set s1 : Sched := { s with heap := { heap with mem := m } } with hs1
      have hcur' : s.current ∈ tasks ++ [t'] := List.mem_append_left _ hcur
      have ht' : t' ∈ tasks ++ [t'] := by simp
      have hne : t' ≠ s.current := fun heq => hnot (heq ▸ hcur)
      have hnext : IsField nextOff := by decide
      have hold : ∀ u ∈ tasks, ∀ off, IsField off → s1.field u off = s.field u off :=
        fun u hu off hoff => hsame.load32 ⟨hu, rfl⟩ hoff.2
      -- the two stores that insert the block
      obtain ⟨hb2, hsame2⟩ := hfill.store (v := s1.next s.current) ht' hnext
      set s2 := s1.setMem (s1.mem.store32 (t' + nextOff) (s1.next s.current)) with hs2
      obtain ⟨hb3, hsame3⟩ := hb2.store (v := t') hcur' hnext
      set s3 := s2.setMem (s2.mem.store32 (s.current + nextOff) t') with hs3
      have hlt : t' < 2 ^ 32 := by
        have := (hfill.task_lt ht').2
        omega
      have hf2 : ∀ u ∈ tasks ++ [t'], ∀ off, IsField off →
          s2.field u off = if u = t' ∧ off = nextOff then s1.next s.current else s1.field u off := by
        intro u hu off hoff
        have hlt : s1.next s.current < 2 ^ 32 := load32_lt s1.mem (s.current + nextOff)
        rw [← Nat.mod_eq_of_lt hlt]
        exact hfill.field_store ht' hu hnext hoff
      have hf3 : ∀ u ∈ tasks ++ [t'], ∀ off, IsField off →
          s3.field u off = if u = s.current ∧ off = nextOff then t' else s2.field u off := by
        intro u hu off hoff
        rw [← Nat.mod_eq_of_lt hlt]
        exact hb2.field_store hcur' hu hnext hoff
      -- the state after the insertion has the fields of `s3`
      have hfield : ∀ off, IsField off → off ≠ nextOff → s3.field t' off = m.load32 (t' + off) := by
        intro off hoff hoffne
        rw [hf3 t' ht' off hoff, if_neg (by tauto), hf2 t' ht' off hoff, if_neg (by tauto)]
        rfl
      refine ⟨⟨hnot, h0, ⟨hb3.heap, hb3.tables⟩, fun u hu off hoff => ?_, ?_, rfl, rfl, rfl, rfl,
        hused, hreserved, ?_⟩, ⟨?_, ?_, fun top htop => ?_, ?_⟩⟩
      · have hu' : u ∈ tasks ++ [t'] := List.mem_append_left _ hu
        have hut : u ≠ t' := fun heq => hnot (heq ▸ hu)
        refine (hf3 u hu' off hoff).trans ?_
        rw [hf2 u hu' off hoff, if_neg (show ¬ (u = t' ∧ off = nextOff) by tauto), hold u hu off hoff]
      · refine (hf3 t' ht' nextOff hnext).trans ?_
        rw [if_neg (by tauto), hf2 t' ht' nextOff hnext, if_pos ⟨rfl, rfl⟩]
        exact hold s.current hcur nextOff hnext
      · exact hkeep.trans ((hsame2.mono hreserved).trans (hsame3.mono hreserved))
      · exact (hfield espOff (by decide) (by decide)).trans hwords.1
      · exact (hfield stateOff (by decide) (by decide)).trans hwords.2.2.1
      · exact (hfield kernelStackTopOff (by decide) (by decide)).trans (hwords.2.2.2.1 top htop)
      · exact (hfield cr3Off (by decide) (by decide)).trans hwords.2.2.2.2.1

/-! ## Switching -/

@[simp] theorem setMem_current (s : Sched) (m : Memory) : (s.setMem m).current = s.current := rfl

@[simp] theorem setMem_cr3 (s : Sched) (m : Memory) : (s.setMem m).cr3 = s.cr3 := rfl

@[simp] theorem setMem_esp0 (s : Sched) (m : Memory) : (s.setMem m).esp0 = s.esp0 := rfl

/-- What the part of `task_yield` before `switch_to` does, when `new` is another task. -/
structure Picked (s s' : Sched) (tasks : List Nat) : Prop where
  backed : s'.Backed tasks
  current : s'.current = s.next s.current
  state : ∀ u ∈ tasks, s'.state u =
    if u = s'.current then taskRunning else if u = s.current then taskReady else s.state u
  others : ∀ u ∈ tasks, ∀ off, IsField off → off ≠ stateOff → s'.field u off = s.field u off
  cr3 : s'.cr3 = s.cr3
  esp0 : s'.esp0 = if s'.field s'.current kernelStackTopOff ≠ 0
    then s'.field s'.current kernelStackTopOff else s.esp0
  pdPhys : s'.pdPhys = s.pdPhys
  pmm : s'.heap.pmm = s.heap.pmm
  heapPages : s'.heap.heapPages = s.heap.heapPages
  same : s.heap.reserved.Same s.mem s'.mem

theorem Backed.pickNext (hb : s.Backed tasks) (hcur : s.current ∈ tasks)
    (hnext : s.next s.current ∈ tasks) : s.Picked s.pickNext tasks := by
  have hstate : IsField stateOff := by decide
  obtain ⟨hb1, hsame1⟩ := hb.store (v := taskReady) hcur hstate
  set s1 := s.setMem (s.mem.store32 (s.current + stateOff) taskReady) with hs1
  obtain ⟨hb2, hsame2⟩ := hb1.store (v := taskRunning) hnext hstate
  set s2 := s1.setMem (s1.mem.store32 (s.next s.current + stateOff) taskRunning) with hs2
  have hf1 : ∀ u ∈ tasks, ∀ off, IsField off → s1.field u off =
      if u = s.current ∧ off = stateOff then taskReady else s.field u off :=
    fun u hu off hoff => hb.field_store hcur hu hstate hoff
  have hf2 : ∀ u ∈ tasks, ∀ off, IsField off → s2.field u off =
      if u = s.next s.current ∧ off = stateOff then taskRunning else s1.field u off :=
    fun u hu off hoff => hb1.field_store hnext hu hstate hoff
  -- setting `esp0` or not makes no difference to memory
  have hheap : s.pickNext.heap = s2.heap := by
    unfold Sched.pickNext
    dsimp only
    split <;> rfl
  have hfield : ∀ u off, s.pickNext.field u off = s2.field u off := fun u off => by
    unfold field mem
    rw [hheap]
  have hpd : s.pickNext.pdPhys = s.pdPhys := by
    unfold Sched.pickNext
    dsimp only
    split <;> rfl
  have hcurrent : s.pickNext.current = s.next s.current := by
    unfold Sched.pickNext
    dsimp only
    split <;> rfl
  refine ⟨⟨?_, ?_⟩, hcurrent, fun u hu => ?_, fun u hu off hoff hne' => ?_, ?_, ?_, hpd, ?_, ?_, ?_⟩
  · rw [hheap]
    exact hb2.heap
  · unfold mem
    rw [hheap, hpd]
    exact hb2.tables
  · unfold state
    rw [hfield, hf2 u hu _ hstate, hf1 u hu _ hstate, hcurrent]
    by_cases h1 : u = s.next s.current
    · simp [h1]
    · by_cases h2 : u = s.current <;> simp [h1, h2]
  · rw [hfield, hf2 u hu off hoff, if_neg (by tauto), hf1 u hu off hoff, if_neg (by tauto)]
  · unfold Sched.pickNext
    dsimp only
    split <;> rfl
  · rw [hfield, hcurrent]
    unfold Sched.pickNext
    dsimp only
    split
    · next h => exact (if_pos h).symm
    · next h => exact (if_neg h).symm
  · rw [hheap]
    rfl
  · rw [hheap]
    rfl
  · unfold mem
    rw [hheap]
    exact hsame1.trans hsame2

/-- What `switch_to` does to memory and to `CR3`. -/
structure Switched (s s' : Sched) (tasks : List Nat) (old new esp : Nat) : Prop where
  backed : s'.Backed tasks
  current : s'.current = s.current
  esp : s'.field old espOff = esp % 2 ^ 32
  others : ∀ u ∈ tasks, ∀ off, IsField off → u ≠ old ∨ off ≠ espOff →
    s'.field u off = s.field u off
  cr3 : s'.cr3 = if s.field new cr3Off = 0 then s.cr3 else s.field new cr3Off
  esp0 : s'.esp0 = s.esp0
  pdPhys : s'.pdPhys = s.pdPhys
  pmm : s'.heap.pmm = s.heap.pmm
  heapPages : s'.heap.heapPages = s.heap.heapPages
  same : s.heap.reserved.Same s.mem s'.mem

theorem Backed.switchTo {old new : Nat} (hb : s.Backed tasks) (hold : old ∈ tasks)
    (hnew : new ∈ tasks) (esp : Nat) :
    s.Switched (s.switchTo old new esp) tasks old new esp := by
  have hoff : IsField espOff := by decide
  obtain ⟨hb1, hsame1⟩ := hb.store (v := esp) hold hoff
  set s1 := s.setMem (s.mem.store32 (old + espOff) esp) with hs1
  have hf1 : ∀ u ∈ tasks, ∀ off, IsField off →
      s1.field u off = if u = old ∧ off = espOff then esp % 2 ^ 32 else s.field u off :=
    fun u hu off hoff' => hb.field_store hold hu hoff hoff'
  have hcr3 : s1.field new cr3Off = s.field new cr3Off := by
    rw [hf1 new hnew _ (by decide), if_neg (by simp [cr3Off, espOff])]
  have hswitch : s.switchTo old new esp =
      if s.field new cr3Off = 0 then s1 else { s1 with cr3 := s.field new cr3Off } := by
    unfold Sched.switchTo
    rw [← hs1]
    simp only [hcr3]
  have hheap : (s.switchTo old new esp).heap = s1.heap := by
    rw [hswitch]
    split <;> rfl
  have hfield : ∀ u off, (s.switchTo old new esp).field u off = s1.field u off := fun u off => by
    unfold field mem
    rw [hheap]
  have hpd : (s.switchTo old new esp).pdPhys = s.pdPhys := by
    rw [hswitch]
    split <;> rfl
  refine ⟨⟨?_, ?_⟩, ?_, ?_, fun u hu off hoff' h => ?_, ?_, ?_, hpd, ?_, ?_, ?_⟩
  · rw [hheap]
    exact hb1.heap
  · unfold mem
    rw [hheap, hpd]
    exact hb1.tables
  · rw [hswitch]
    split <;> rfl
  · rw [hfield, hf1 old hold _ hoff, if_pos ⟨rfl, rfl⟩]
  · rw [hfield, hf1 u hu off hoff', if_neg (by tauto)]
  · rw [hswitch]
    split <;> rfl
  · rw [hswitch]
    split <;> rfl
  · rw [hheap]
    rfl
  · rw [hheap]
    rfl
  · unfold mem
    rw [hheap]
    exact hsame1

end Sched

end Kumo
