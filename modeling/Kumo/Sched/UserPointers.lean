import Kumo.Arch.UserCopy
import Kumo.Sched.TaskRuns

/-!
# User pointers in the running kernel

Every directory that a task can run with, the kernel's own included, maps its user
pages to themselves, above the kernel zone and below the last page. So the copies
between kernel and user memory are exact, in every state the kernel reaches.
-/

namespace Kumo

open Memory Transition

namespace Tasks

/-- The `cr3` of the current task: a created task, the idle task (0), or none (0). -/
def Current (s : Tasks) (cr3 : Nat) : Prop := cr3 = 0 ∨ ∃ c ∈ s.created, cr3 = c.task.cr3

/-- A copy in the running kernel. User programs may have written anything in the user region. -/
def Runs (s : Tasks) (c : UserCopy) : Prop :=
  c.paging = { s.kernel.paging with mem := c.paging.mem } ∧
    ∀ x, x < userMemStart → c.paging.mem x = s.kernel.mem x

variable {s : Tasks}

/-- A memory that is the same below the user region is the same where tables are. -/
theorem Inv.same_reserved {m' : Memory} (hm : ∀ x, x < userMemStart → m' x = s.kernel.mem x) :
    s.kernel.heap.reserved.Same s.kernel.mem m' := by
  intro page x hp h1 h2
  have := hp.1.upper
  exact hm x (by omega)

/-- The kernel directory has no user pages. -/
theorem Inv.userDir_kernel (h : s.Inv) : UserDir s.kernel.mem s.kernel.pdPhys := by
  have hnone : ∀ v, v < 2 ^ 32 → ¬ UserPage s.kernel.mem s.kernel.pdPhys v := by
    rintro v hv ⟨frame, hview⟩
    rcases h.kernel.dir.view_cases hv with heq | heq <;> simp [heq] at hview
  exact ⟨fun v hv hu => absurd hu (hnone v hv), fun v hv hu => absurd hu (hnone v hv),
    fun v hv hu => absurd hu (hnone v hv),
    fun m' hm v hv => h.kernel.dir.view_same (Inv.same_reserved hm) hv⟩

/-- The user pages of a task are pages of the user region. -/
theorem Inv.userDir_task (h : s.Inv) {c : Created} (hc : c ∈ s.created) :
    UserDir s.kernel.mem c.task.cr3 := by
  have hregion : ∀ v, v < 2 ^ 32 → UserPage s.kernel.mem c.task.cr3 v →
      s.kernel.UserRegion (frameOf v) := fun v hv hu =>
    (h.created c hc).pages _ ((h.userPage_iff hc hv).mp hu)
  refine ⟨fun v hv hu => ?_, fun v hv hu => (hregion v hv hu).lower, fun v hv hu => ?_,
    fun m' hm v hv => ?_⟩
  · rw [h.view_eq hc hv, if_pos ((h.userPage_iff hc hv).mp hu)]
  · have hup := (hregion v hv hu).upper
    have hle := h.kernel.region
    have htop := h.kernel.top
    omega
  · have hsame := Inv.same_reserved hm
    obtain ⟨priv, hdir⟩ := (h.created c hc).directory
    have hdir' := hdir.transfer h.kernel.dir (fun _ hq => hq) hsame
    rw [hdir'.view_eq (h.kernel.dir.transfer (fun _ hq => hq) hsame) hv, h.view_eq hc hv,
      h.kernel.dir.view_same hsame hv]

theorem Inv.userDir (h : s.Inv) {cr3 : Nat} (hcur : s.Current cr3) :
    UserDir s.kernel.mem (s.kernel.paging.currentPd cr3) := by
  rcases hcur with rfl | ⟨c, hc, rfl⟩
  · exact h.userDir_kernel
  · obtain ⟨priv, hdir⟩ := (h.created c hc).directory
    have hne : c.task.cr3 ≠ 0 := by
      have := hdir.dir.1.lower
      simp only [managedBase] at this
      omega
    rw [Paging.currentPd, if_pos hne]
    exact h.userDir_task hc

/-- In every state the kernel reaches by creating tasks, and for every current task, the validation
of user pointers is exact. -/
theorem user_copies_exact {r top : Nat} {mem : Memory} {pmm : Pmm} {k : Kernel}
    {framebuffer : Option (Nat × Nat)} (hr : r < 2 ^ 32) (hwf : pmm.Wf)
    (htotal : pmm.totalPages = pmmTotalPages top) (htop : top < 2 ^ 32)
    (hfb : ∀ fb ∈ framebuffer, fb.1 < 2 ^ 32)
    (hboot : Kernel.boot mem pmm top framebuffer = some k) (events : List TaskEvent)
    (hvalid : ∀ e ∈ events, Valid top e) {final : Tasks}
    (hrun : run (step r) ⟨k, []⟩ events = some final) {cr3 : Nat} (hcur : final.Current cr3)
    {c : UserCopy} (hc : final.Runs c) {ptr size : Nat} (hptr : ptr < 2 ^ 32)
    (hsize : size < 2 ^ 32) :
    c.FromUserExact cr3 ptr size ∧ c.ToUserExact cr3 ptr size ∧ c.StringExact cr3 ptr size := by
  obtain ⟨hs, _, htotal', _⟩ := Kernel.boot_sound hwf htotal htop hfb hboot
  have hinv := ((run_keeps hr hs htotal' hvalid).2 final hrun).1
  have hd : UserDir c.paging.mem (c.paging.currentPd cr3) := by
    have hpd : c.paging.currentPd cr3 = final.kernel.paging.currentPd cr3 := by
      rw [hc.1]
      rfl
    rw [hpd]
    exact ((hinv.userDir hcur).congr hc.2).1
  exact ⟨UserCopy.fromUser_exact hd hptr hsize, UserCopy.toUser_exact hd hptr hsize,
    UserCopy.string_exact hd hptr hsize⟩

/-- The first two events of the sample run leave a task with a code page and a stack page. -/
theorem sample_run : ((Kernel.boot (fun _ => 0) Kernel.samplePmm 0x802000 none).bind fun k =>
    (run (step 0x100000) ⟨k, []⟩ (sampleEvents.take 2)).map fun s => s.created.map (·.pages)) =
      some [[0x800000, 0x801000]] := by
  decide +kernel

theorem user_copies_exact_sample : ∃ (final : Tasks) (created : Created), final.created = [created] ∧
    created.pages = [0x800000, 0x801000] ∧ ∀ kbuf,
      UserCopy.FromUserExact ⟨final.kernel.paging, kbuf, []⟩ created.task.cr3 0x800FF0 32 ∧
      UserCopy.ToUserExact ⟨final.kernel.paging, kbuf, []⟩ created.task.cr3 0x800FF0 32 ∧
      UserCopy.StringExact ⟨final.kernel.paging, kbuf, []⟩ created.task.cr3 0x800FF0 32 := by
  obtain ⟨k, hboot, hrest⟩ := Option.bind_eq_some_iff.mp sample_run
  obtain ⟨final, hrun, hcreated⟩ := Option.map_eq_some_iff.mp hrest
  obtain ⟨created, htasks, hpages⟩ := List.map_eq_singleton_iff.mp hcreated
  refine ⟨final, created, htasks, hpages, fun kbuf => ?_⟩
  exact user_copies_exact (by decide) Kernel.samplePmm_wf rfl (by decide) (by simp) hboot _
    (by decide) hrun (.inr ⟨created, by simp [htasks], rfl⟩) ⟨rfl, fun _ _ => rfl⟩ (by decide)
    (by decide)

end Tasks

end Kumo
