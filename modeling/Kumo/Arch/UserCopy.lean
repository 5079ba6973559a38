import Kumo.Arch.AddressSpace

/-!
# Copying between the kernel and user memory

`is_user_accessible_range`, `copy_from_user`, `copy_to_user` and
`copy_from_user_string` of `arch/x86/paging.c`. User addresses go through the
directory that is loaded; an address it does not map is a page fault, which is `none`
here. The kernel's buffer is an array of its own, as all callers pass a local array or
a block from `kmalloc`. Every byte that is read or written is logged.
-/

namespace Kumo

open Memory

/-- One byte accessed: at a user address, or at an index of the kernel's buffer. -/
inductive Access where
  | readUser (vaddr : Nat)
  | writeUser (vaddr : Nat)
  | readKernel (i : Nat)
  | writeKernel (i : Nat)
  deriving DecidableEq

/-- The state of a copy. -/
structure UserCopy where
  paging : Paging
  kbuf : Memory
  log : List Access

/-- The directory in use when the current task has the given `cr3`. -/
def Paging.currentPd (p : Paging) (cr3 : Nat) : Nat := if cr3 ≠ 0 then cr3 else p.pdPhys

/-- The loop of `is_user_accessible_range` over pages; `none` when it never ends. -/
def Paging.rangeLoop (p : Paging) (cr3 stop : Nat) : Nat → Nat → Option Bool
  | 0, _ => none
  | fuel + 1, page =>
      if page < stop then
        if !p.pageIsUserAccessible cr3 page then some false
        else rangeLoop p cr3 stop fuel ((page + pageSize) % 2 ^ 32)
      else some true

/-- `is_user_accessible_range`. There are fewer than `2 ^ 20 + 1` pages to look at. -/
def Paging.isUserAccessibleRange (p : Paging) (cr3 vaddr size : Nat) : Option Bool :=
  if size = 0 then some true
  else
    let stop := (vaddr + size) % 2 ^ 32
    if stop < vaddr then some false else p.rangeLoop cr3 stop (2 ^ 20 + 1) (frameOf vaddr)

namespace UserCopy

/-- The physical address behind a user address. -/
def phys (c : UserCopy) (cr3 vaddr : Nat) : Option Nat :=
  translate c.paging.mem (c.paging.currentPd cr3) vaddr

/-- The byte at a user address. -/
def userByte (c : UserCopy) (cr3 vaddr : Nat) : Option (BitVec 8) :=
  (c.phys cr3 vaddr).map c.paging.mem

/-- `dst[i] = src[i]` with `src` in user memory. -/
def fetch (c : UserCopy) (vaddr i : Nat) (byte : BitVec 8) : UserCopy :=
  { c with
    kbuf := c.kbuf.store8 i byte
    log := c.log ++ [.readUser vaddr, .writeKernel i] }

/-- `dst[i] = src[i]` with `dst` in user memory. -/
def put (c : UserCopy) (vaddr phys i : Nat) : UserCopy :=
  { c with
    paging := { c.paging with mem := c.paging.mem.store8 phys (c.kbuf i) }
    log := c.log ++ [.readKernel i, .writeUser vaddr] }

/-- The loop of `copy_from_user`, from index `i` on. -/
def fromLoop (cr3 src : Nat) : Nat → Nat → UserCopy → Option UserCopy
  | 0, _, c => some c
  | steps + 1, i, c =>
      (c.userByte cr3 ((src + i) % 2 ^ 32)).bind fun byte =>
        fromLoop cr3 src steps (i + 1) (c.fetch ((src + i) % 2 ^ 32) i byte)

/-- The loop of `copy_to_user`, from index `i` on. -/
def toLoop (cr3 dst : Nat) : Nat → Nat → UserCopy → Option UserCopy
  | 0, _, c => some c
  | steps + 1, i, c =>
      (c.phys cr3 ((dst + i) % 2 ^ 32)).bind fun phys =>
        toLoop cr3 dst steps (i + 1) (c.put ((dst + i) % 2 ^ 32) phys i)

/-- `(uint32_t)-1`. -/
def failure : Nat := 2 ^ 32 - 1

/-- `copy_from_user` into the kernel's buffer. -/
def copyFromUser (c : UserCopy) (cr3 src size : Nat) : Option (Nat × UserCopy) :=
  if size = 0 then some (0, c)
  else
    (c.paging.isUserAccessibleRange cr3 src size).bind fun ok =>
      if !ok then some (failure, c) else (fromLoop cr3 src size 0 c).map fun c => (0, c)

/-- `copy_to_user` from the kernel's buffer. -/
def copyToUser (c : UserCopy) (cr3 dst size : Nat) : Option (Nat × UserCopy) :=
  if size = 0 then some (0, c)
  else
    (c.paging.isUserAccessibleRange cr3 dst size).bind fun ok =>
      if !ok then some (failure, c) else (toLoop cr3 dst size 0 c).map fun c => (0, c)

/-- The loop of `copy_from_user_string`, with the iterations left, `i` and `current_page`. -/
def stringLoop (cr3 ptr : Nat) : Nat → Nat → Nat → UserCopy → Option (Nat × UserCopy)
  | 0, _, _, c => some (failure, c)
  | steps + 1, i, currentPage, c =>
      let addr := (ptr + i) % 2 ^ 32
      let page := frameOf addr
      if page ≠ currentPage ∧ c.paging.pageIsUserAccessible cr3 page = false then some (failure, c)
      else
        (c.userByte cr3 addr).bind fun byte =>
          if byte = 0 then some (0, c.fetch addr i byte)
          else stringLoop cr3 ptr steps (i + 1) page (c.fetch addr i byte)

/-- `copy_from_user_string`. The first `current_page` is no page. -/
def copyFromUserString (c : UserCopy) (cr3 ptr maxLen : Nat) : Option (Nat × UserCopy) :=
  if maxLen = 0 then some (failure, c) else stringLoop cr3 ptr maxLen 0 0xFFFFFFFF c

end UserCopy

/-! ## Directories whose user pages are mapped to themselves -/

/-- What the kernel relies on when it follows a user pointer through directory `D`. -/
structure UserDir (m : Memory) (D : Nat) : Prop where
  identity : ∀ v, v < 2 ^ 32 → UserPage m D v → view m D v = some (frameOf v, true)
  lower : ∀ v, v < 2 ^ 32 → UserPage m D v → userMemStart ≤ frameOf v
  below : ∀ v, v < 2 ^ 32 → UserPage m D v → frameOf v + pageSize < 2 ^ 32
  stable : ∀ m' : Memory, (∀ x, x < userMemStart → m' x = m x) →
    ∀ v, v < 2 ^ 32 → view m' D v = view m D v

theorem Paging.pageIsUserAccessible_iff (p : Paging) (cr3 v : Nat) :
    p.pageIsUserAccessible cr3 v = true ↔ UserPage p.mem (p.currentPd cr3) v := by
  unfold Paging.pageIsUserAccessible UserPage view Paging.currentPd
  dsimp only
  generalize (if cr3 ≠ 0 then cr3 else p.pdPhys) = D
  cases present (pdeOf p.mem D v) <;> cases user (pdeOf p.mem D v) <;>
    cases present (pteOf p.mem D v) <;> cases user (pteOf p.mem D v) <;> simp

/-- The walk looks at the page of an address only. -/
theorem userPage_frame {m : Memory} {D v w : Nat} (h : frameOf v = frameOf w) :
    UserPage m D v ↔ UserPage m D w := by
  have hpd : pdIndex v = pdIndex w := by
    simp only [frameOf, pdIndex, pageSize, ptCoverage] at *
    omega
  have hpt : ptIndex v = ptIndex w := by
    simp only [frameOf, ptIndex, pageSize, tableEntries] at *
    omega
  unfold UserPage view pteOf pdeOf
  rw [hpd, hpt]

theorem frameOf_le (v : Nat) : frameOf v ≤ v := Nat.div_mul_le_self v pageSize

theorem frameOf_frameOf (v : Nat) : frameOf (frameOf v) = frameOf v := by
  simp only [frameOf, pageSize]
  omega

/-- Only the memory below the user region decides what such a directory means. -/
theorem UserDir.congr {m m' : Memory} {D : Nat} (hd : UserDir m D)
    (hmem : ∀ x, x < userMemStart → m' x = m x) :
    UserDir m' D ∧ ∀ w, w < 2 ^ 32 → (UserPage m' D w ↔ UserPage m D w) := by
  have hview := hd.stable m' hmem
  have hiff : ∀ w, w < 2 ^ 32 → (UserPage m' D w ↔ UserPage m D w) := by
    intro w hw
    unfold UserPage
    rw [hview w hw]
  refine ⟨⟨fun w hw h => ?_, fun w hw h => hd.lower w hw ((hiff w hw).mp h),
    fun w hw h => hd.below w hw ((hiff w hw).mp h), fun m2 hm2 w hw => ?_⟩, hiff⟩
  · rw [hview w hw]
    exact hd.identity w hw ((hiff w hw).mp h)
  · rw [hview w hw]
    exact hd.stable m2 (fun x hx => (hm2 x hx).trans (hmem x hx)) w hw

/-- A directory of that kind whose tables lie in the pages of `R`. -/
structure UserDirIn (R : PageSet) (m : Memory) (D : Nat) : Prop where
  identity : ∀ v, v < 2 ^ 32 → UserPage m D v → view m D v = some (frameOf v, true)
  lower : ∀ v, v < 2 ^ 32 → UserPage m D v → userMemStart ≤ frameOf v
  below : ∀ v, v < 2 ^ 32 → UserPage m D v → frameOf v + pageSize < 2 ^ 32
  tables : ∀ m' : Memory, R.Same m m' → ∀ v, v < 2 ^ 32 → view m' D v = view m D v

/-- Tables below the user region are not touched by writes to user memory. -/
theorem UserDirIn.userDir {R : PageSet} {m : Memory} {D : Nat} (h : UserDirIn R m D)
    (hR : ∀ q, R.has q → q + pageSize ≤ userMemStart) : UserDir m D :=
  ⟨h.identity, h.lower, h.below, fun m' hm => h.tables m' fun q x hq h1 h2 => hm x (by
    have := hR q hq
    omega)⟩

/-- Such a directory means the same in a memory with the same tables. -/
theorem UserDirIn.transfer {R R' : PageSet} {m m' : Memory} {D : Nat} (h : UserDirIn R m D)
    (hsub : ∀ q, R.has q → R'.has q) (hsame : R.Same m m') :
    UserDirIn R' m' D ∧ ∀ v, v < 2 ^ 32 → view m' D v = view m D v := by
  have hview := h.tables m' hsame
  have hiff : ∀ v, v < 2 ^ 32 → UserPage m' D v → UserPage m D v := by
    rintro v hv ⟨frame, hframe⟩
    exact ⟨frame, (hview v hv).symm.trans hframe⟩
  refine ⟨⟨fun v hv hu => ?_, fun v hv hu => h.lower v hv (hiff v hv hu),
    fun v hv hu => h.below v hv (hiff v hv hu), fun m2 hm2 v hv => ?_⟩, hview⟩
  · rw [hview v hv]
    exact h.identity v hv (hiff v hv hu)
  · rw [hview v hv]
    exact h.tables m2 (fun q x hq h1 h2 =>
      (hm2 q x (hsub q hq) h1 h2).trans (hsame q x hq h1 h2)) v hv

/-- A directory with one table, and in it one page, open to user mode. -/
structure OnePage (m : Memory) (D T page : Nat) : Prop where
  pde : ∀ i, i < tableEntries →
    m.entry D i = if i = pdIndex page then T + (pageDefault + pageUser) else 0
  pte : ∀ j, j < tableEntries →
    m.entry T j = if j = ptIndex page then page + (pageDefault + pageUser) else 0
  table : T % pageSize = 0
  aligned : page % pageSize = 0
  lower : userMemStart ≤ page
  below : page + pageSize < 2 ^ 32

/-- It maps that page only. -/
theorem OnePage.view {m : Memory} {D T page v : Nat} (h : OnePage m D T page) (hv : v < 2 ^ 32) :
    view m D v = if frameOf v = page then some (page, true) else none := by
  have hindex : frameOf v = page ↔ pdIndex v = pdIndex page ∧ ptIndex v = ptIndex page := by
    have haligned := h.aligned
    have hbelow := h.below
    simp only [frameOf, pdIndex, ptIndex, pageSize, ptCoverage, tableEntries] at *
    omega
  unfold Kumo.view pteOf pdeOf
  rw [h.pde _ (pdIndex_lt hv)]
  by_cases hpd : pdIndex v = pdIndex page
  · rw [if_pos hpd, present_user h.table, user_user h.table, frameOf_add h.table (by decide),
      h.pte _ (ptIndex_lt v)]
    by_cases hpt : ptIndex v = ptIndex page
    · rw [if_pos hpt, present_user h.aligned, user_user h.aligned,
        frameOf_add h.aligned (by decide), if_pos (hindex.mpr ⟨hpd, hpt⟩)]
      rfl
    · rw [if_neg hpt, if_neg (fun hf => hpt (hindex.mp hf).2)]
      rfl
  · rw [if_neg hpd, if_neg (fun hf => hpd (hindex.mp hf).1)]
    rfl

/-- So it is a user directory over the pages of its two tables. -/
theorem OnePage.userDirIn {R : PageSet} {m : Memory} {D T page : Nat} (h : OnePage m D T page)
    (hD : R.has D) (hT : R.has T) :
    UserDirIn R m D ∧ ∀ v, v < 2 ^ 32 → frameOf v = page → UserPage m D v := by
  have hpage : ∀ v, v < 2 ^ 32 → UserPage m D v → frameOf v = page := by
    rintro v hv ⟨frame, hframe⟩
    rw [h.view hv] at hframe
    by_contra hne
    rw [if_neg hne] at hframe
    cases hframe
  refine ⟨⟨fun v hv hu => ?_, fun v hv hu => ?_, fun v hv hu => ?_, fun m' hm v hv => ?_⟩,
    fun v hv hf => ⟨page, by rw [h.view hv, if_pos hf]⟩⟩
  · rw [h.view hv, if_pos (hpage v hv hu), hpage v hv hu]
  · rw [hpage v hv hu]
    exact h.lower
  · rw [hpage v hv hu]
    exact h.below
  · have h' : OnePage m' D T page :=
      { h with
        pde := fun i hi => (hm.entry hD hi).trans (h.pde i hi)
        pte := fun j hj => (hm.entry hT hj).trans (h.pte j hj) }
    rw [h'.view hv, h.view hv]

/-- A range of user memory that does not wrap. -/
def UserRange (m : Memory) (D start size : Nat) : Prop :=
  start + size ≤ 2 ^ 32 ∧ ∀ v, start ≤ v → v < start + size → UserPage m D v

section Range

variable {p : Paging} {cr3 : Nat}

/-- The loop over the pages decides whether all bytes up to the end are user memory. The last page
of the address space is not, so the loop counter does not wrap. -/
theorem Paging.rangeLoop_spec (hd : UserDir p.mem (p.currentPd cr3)) (stop fuel page : Nat)
    (hpage : page % pageSize = 0) (hstop : stop < 2 ^ 32) (hfuel : stop ≤ page + fuel * pageSize) :
    ∃ ok, p.rangeLoop cr3 stop (fuel + 1) page = some ok ∧
      (ok = true ↔ ∀ v, page ≤ v → v < stop → UserPage p.mem (p.currentPd cr3) v) := by
  induction fuel generalizing page with
  | zero =>
      have hdone : ¬ page < stop := by omega
      refine ⟨true, by rw [rangeLoop, if_neg hdone], ?_⟩
      simp only [true_iff]
      intro v h1 h2
      omega
  | succ fuel ih =>
      have hframe : frameOf page = page := by
        simp only [frameOf, pageSize] at *
        omega
      rw [rangeLoop]
      by_cases hlt : page < stop
      · rw [if_pos hlt]
        by_cases hacc : p.pageIsUserAccessible cr3 page = true
        · have huser := (p.pageIsUserAccessible_iff cr3 page).mp hacc
          have hbelow := hd.below page (by omega) huser
          rw [hframe] at hbelow
          have hpos : (fuel + 1) * pageSize = fuel * pageSize + pageSize := Nat.succ_mul _ _
          obtain ⟨ok, hrun, hok⟩ := ih (page + pageSize)
            (by rw [Nat.add_mod_right, hpage]) (by omega)
          refine ⟨ok, by rw [hacc, Nat.mod_eq_of_lt hbelow]; exact hrun, hok.trans ?_⟩
          refine ⟨fun h v h1 h2 => ?_, fun h v h1 h2 => h v (by omega) h2⟩
          by_cases hnext : page + pageSize ≤ v
          · exact h v hnext h2
          · have hsame : frameOf v = frameOf page := by
              simp only [frameOf, pageSize] at hpage hnext ⊢
              omega
            exact (userPage_frame hsame).mpr huser
        · refine ⟨false, by simp [hacc], ?_⟩
          simp only [Bool.false_eq_true, false_iff]
          exact fun h => hacc ((p.pageIsUserAccessible_iff cr3 page).mpr (h page (by omega) hlt))
      · refine ⟨true, by rw [if_neg hlt], ?_⟩
        simp only [true_iff]
        intro v h1 h2
        omega

/-- `is_user_accessible_range` is exact. -/
theorem Paging.isUserAccessibleRange_spec (hd : UserDir p.mem (p.currentPd cr3)) {start size : Nat}
    (hstart : start < 2 ^ 32) (hsize : size < 2 ^ 32) :
    ∃ ok, p.isUserAccessibleRange cr3 start size = some ok ∧
      (ok = true ↔ size = 0 ∨ UserRange p.mem (p.currentPd cr3) start size) := by
  unfold isUserAccessibleRange
  by_cases h0 : size = 0
  · exact ⟨true, by rw [if_pos h0], by simp [h0]⟩
  rw [if_neg h0]
  dsimp only
  by_cases hwrap : (start + size) % 2 ^ 32 < start
  · refine ⟨false, by rw [if_pos hwrap], ?_⟩
    simp only [Bool.false_eq_true, false_iff, h0, false_or]
    rintro ⟨hend, hall⟩
    -- the range ends with the last byte of the address space
    have hlast := hd.below (2 ^ 32 - 1) (by decide) (hall _ (by omega) (by omega))
    exact absurd hlast (by decide)
  · have hend : start + size < 2 ^ 32 := by omega
    rw [if_neg hwrap, Nat.mod_eq_of_lt hend]
    obtain ⟨ok, hrun, hok⟩ := rangeLoop_spec hd (start + size) (2 ^ 20)
      (frameOf start) (Nat.mul_mod_left _ _) hend
      (by simp only [frameOf, pageSize]; omega)
    refine ⟨ok, hrun, hok.trans ?_⟩
    simp only [h0, false_or]
    have hle := frameOf_le start
    refine ⟨fun h => ⟨by omega, fun v h1 h2 => h v (by omega) h2⟩, fun h v h1 h2 => ?_⟩
    by_cases hv : start ≤ v
    · exact h.2 v hv h2
    · have hsame : frameOf v = frameOf start := by
        simp only [frameOf, pageSize] at h1 hv ⊢
        omega
      exact (userPage_frame hsame).mpr (h.2 start (by omega) (by omega))

end Range

namespace UserCopy

/-! ## The copy loops -/

section Loops

variable {c : UserCopy} {cr3 : Nat}

/-- A user address is its own physical address. -/
theorem phys_user (hd : UserDir c.paging.mem (c.paging.currentPd cr3)) {v : Nat} (hv : v < 2 ^ 32)
    (huser : UserPage c.paging.mem (c.paging.currentPd cr3) v) : c.phys cr3 v = some v := by
  have hsplit : frameOf v + v % pageSize = v := Nat.div_add_mod' v pageSize
  rw [phys, translate_eq_view, hd.identity v hv huser, Option.map_some, hsplit]

theorem userByte_user (hd : UserDir c.paging.mem (c.paging.currentPd cr3)) {v : Nat}
    (hv : v < 2 ^ 32) (huser : UserPage c.paging.mem (c.paging.currentPd cr3) v) :
    c.userByte cr3 v = some (c.paging.mem v) := by
  rw [userByte, phys_user hd hv huser, Option.map_some]

/-- What a copy of `n` bytes from user address `src` on logs, from index `i` on. -/
def fetches (src i n : Nat) : List Access :=
  (List.range' i n).flatMap fun j => [.readUser (src + j), .writeKernel j]

/-- What a copy of `n` bytes to user address `dst` on logs, from index `i` on. -/
def puts (dst i n : Nat) : List Access :=
  (List.range' i n).flatMap fun j => [.readKernel j, .writeUser (dst + j)]

theorem fromLoop_spec (src n i : Nat) (hd : UserDir c.paging.mem (c.paging.currentPd cr3))
    (hend : src + i + n ≤ 2 ^ 32)
    (huser : ∀ v, src + i ≤ v → v < src + i + n →
      UserPage c.paging.mem (c.paging.currentPd cr3) v) :
    ∃ c', fromLoop cr3 src n i c = some c' ∧ c'.paging = c.paging ∧
      (∀ j, c'.kbuf j = if i ≤ j ∧ j < i + n then c.paging.mem (src + j) else c.kbuf j) ∧
      c'.log = c.log ++ fetches src i n := by
  induction n generalizing i c with
  | zero =>
      refine ⟨c, rfl, rfl, fun j => (if_neg (by omega)).symm, by simp [fetches]⟩
  | succ n ih =>
      have hbyte := userByte_user hd (v := src + i) (by omega) (huser _ (by omega) (by omega))
      obtain ⟨c', hrun, hpaging, hbuf, hlog⟩ := ih
        (c := c.fetch (src + i) i (c.paging.mem (src + i))) (i := i + 1) hd (by omega)
        (fun v h1 h2 => huser v (by omega) (by omega))
      refine ⟨c', ?_, hpaging, fun j => ?_, ?_⟩
      · rw [fromLoop, Nat.mod_eq_of_lt (by omega), hbyte]
        exact hrun
      · rw [hbuf j]
        by_cases hj : j = i
        · rw [if_neg (by omega), if_pos (by omega), hj]
          exact Function.update_self i _ _
        · have hold : (c.fetch (src + i) i (c.paging.mem (src + i))).kbuf j = c.kbuf j :=
            Function.update_of_ne hj _ _
          rw [hold]
          exact if_congr (by omega) rfl rfl
      · rw [hlog]
        simp [fetch, fetches, List.range'_succ]

/-- Writing a byte of user memory changes no directory. -/
theorem userDir_put (hd : UserDir c.paging.mem (c.paging.currentPd cr3)) {v i : Nat}
    (hv : v < 2 ^ 32) (huser : UserPage c.paging.mem (c.paging.currentPd cr3) v) :
    UserDir (c.put v v i).paging.mem (c.paging.currentPd cr3) ∧
      ∀ w, w < 2 ^ 32 → (UserPage (c.put v v i).paging.mem (c.paging.currentPd cr3) w ↔
        UserPage c.paging.mem (c.paging.currentPd cr3) w) := by
  have hlow := hd.lower v hv huser
  have hle := frameOf_le v
  exact hd.congr fun x hx => Function.update_of_ne (by omega) _ _

theorem toLoop_spec (dst n i : Nat) (hd : UserDir c.paging.mem (c.paging.currentPd cr3))
    (hend : dst + i + n ≤ 2 ^ 32)
    (huser : ∀ v, dst + i ≤ v → v < dst + i + n →
      UserPage c.paging.mem (c.paging.currentPd cr3) v) :
    ∃ c', toLoop cr3 dst n i c = some c' ∧ c'.kbuf = c.kbuf ∧
      c'.paging = { c.paging with mem := c'.paging.mem } ∧
      (∀ x, c'.paging.mem x =
        if dst + i ≤ x ∧ x < dst + i + n then c.kbuf (x - dst) else c.paging.mem x) ∧
      c'.log = c.log ++ puts dst i n := by
  induction n generalizing i c with
  | zero =>
      refine ⟨c, rfl, rfl, rfl, fun x => (if_neg (by omega)).symm, by simp [puts]⟩
  | succ n ih =>
      have hv : dst + i < 2 ^ 32 := by omega
      have hfirst := huser (dst + i) (by omega) (by omega)
      have hphys := phys_user hd hv hfirst
      obtain ⟨hd', hiff⟩ := userDir_put hd (i := i) hv hfirst
      obtain ⟨c', hrun, hbuf, hpaging, hmem, hlog⟩ := ih
        (c := c.put (dst + i) (dst + i) i) (i := i + 1) hd' (by omega)
        (fun v h1 h2 => (hiff v (by omega)).mpr (huser v (by omega) (by omega)))
      refine ⟨c', ?_, hbuf, hpaging, fun x => ?_, ?_⟩
      · rw [toLoop, Nat.mod_eq_of_lt hv, hphys]
        exact hrun
      · rw [hmem x]
        by_cases hx : x = dst + i
        · rw [if_neg (by omega), if_pos (by omega), hx, Nat.add_sub_cancel_left]
          exact Function.update_self (dst + i) _ _
        · have hold : (c.put (dst + i) (dst + i) i).paging.mem x = c.paging.mem x :=
            Function.update_of_ne hx _ _
          rw [hold]
          exact if_congr (by omega) rfl rfl
      · rw [hlog]
        simp [put, puts, List.range'_succ]

/-! ## The string loop -/

/-- A string that continues at index `i` and ends with the NUL at index `k`, in user memory. -/
structure StringAt (m : Memory) (D ptr i k : Nat) : Prop where
  word : ptr + k < 2 ^ 32
  user : ∀ j, i ≤ j → j ≤ k → UserPage m D (ptr + j)
  nonzero : ∀ j, i ≤ j → j < k → m (ptr + j) ≠ 0
  nul : m (ptr + k) = 0

/-- The loop stops at the first NUL if it is reachable, and fails otherwise. `current_page` is
known to be user memory, or is no page at all. -/
theorem stringLoop_spec (ptr n i page : Nat)
    (hd : UserDir c.paging.mem (c.paging.currentPd cr3)) (hword : ptr + i < 2 ^ 32)
    (hpage : ∀ v, v < 2 ^ 32 → frameOf v = page →
      UserPage c.paging.mem (c.paging.currentPd cr3) v) :
    ∃ ret c', stringLoop cr3 ptr n i page c = some (ret, c') ∧ c'.paging = c.paging ∧
      (∀ j, j < i → c'.kbuf j = c.kbuf j) ∧
      (∀ v, .readUser v ∈ c'.log → .readUser v ∈ c.log ∨
        v < 2 ^ 32 ∧ UserPage c.paging.mem (c.paging.currentPd cr3) v) ∧
      ((ret = 0 ∧ ∃ k, i ≤ k ∧ k < i + n ∧
          StringAt c.paging.mem (c.paging.currentPd cr3) ptr i k ∧
          ∀ j, i ≤ j → j ≤ k → c'.kbuf j = c.paging.mem (ptr + j)) ∨
        (ret = failure ∧ ∀ k, i ≤ k → k < i + n →
          ¬ StringAt c.paging.mem (c.paging.currentPd cr3) ptr i k)) := by
  induction n generalizing i page c with
  | zero =>
      refine ⟨failure, c, rfl, rfl, fun _ _ => rfl, fun _ => .inl, .inr ⟨rfl, fun k h1 h2 => ?_⟩⟩
      omega
  | succ n ih =>
      rw [stringLoop, Nat.mod_eq_of_lt hword]
      by_cases hstop : frameOf (ptr + i) ≠ page ∧
          c.paging.pageIsUserAccessible cr3 (frameOf (ptr + i)) = false
      · refine ⟨failure, c, if_pos hstop, rfl, fun _ _ => rfl, fun _ => .inl,
          .inr ⟨rfl, fun k h1 h2 hs => ?_⟩⟩
        have huser := (userPage_frame (frameOf_frameOf (ptr + i))).mpr (hs.user i (by omega) h1)
        rw [← Paging.pageIsUserAccessible_iff, hstop.2] at huser
        cases huser
      -- the byte lies in user memory, so the next address does not wrap
      have huser : UserPage c.paging.mem (c.paging.currentPd cr3) (ptr + i) := by
        by_cases hsame : frameOf (ptr + i) = page
        · exact hpage _ hword hsame
        · have hacc : c.paging.pageIsUserAccessible cr3 (frameOf (ptr + i)) = true := by
            simpa [hsame] using hstop
          rw [Paging.pageIsUserAccessible_iff] at hacc
          exact (userPage_frame (frameOf_frameOf (ptr + i))).mp hacc
      have hnext : ptr + (i + 1) < 2 ^ 32 := by
        have hbelow := hd.below _ hword huser
        simp only [frameOf, pageSize] at hbelow
        omega
      rw [if_neg hstop, userByte_user hd hword huser, Option.bind_some]
      set c1 := c.fetch (ptr + i) i (c.paging.mem (ptr + i)) with hc1
      have hlog : ∀ v, .readUser v ∈ c1.log → .readUser v ∈ c.log ∨
          v < 2 ^ 32 ∧ UserPage c.paging.mem (c.paging.currentPd cr3) v := by
        intro v hv
        simp only [hc1, fetch, List.mem_append, List.mem_cons, List.not_mem_nil, or_false,
          Access.readUser.injEq, reduceCtorEq] at hv
        rcases hv with hv | rfl
        · exact .inl hv
        · exact .inr ⟨hword, huser⟩
      have hfetch : c1.kbuf i = c.paging.mem (ptr + i) := Function.update_self i _ _
      have hkept : ∀ j, j < i → c1.kbuf j = c.kbuf j := fun j hj =>
        Function.update_of_ne (Nat.ne_of_lt hj) _ _
      by_cases h0 : c.paging.mem (ptr + i) = 0
      · rw [if_pos h0]
        refine ⟨0, c1, rfl, rfl, hkept, hlog, .inl ⟨rfl, i, Nat.le_refl i, by omega, ?_, ?_⟩⟩
        · refine ⟨hword, fun j h1 h2 => ?_, fun j h1 h2 => by omega, h0⟩
          obtain rfl : j = i := by omega
          exact huser
        · intro j h1 h2
          obtain rfl : j = i := by omega
          exact hfetch
      · rw [if_neg h0]
        obtain ⟨ret, c', hrun, hpaging, hold, hreads, hres⟩ := ih (c := c1) (i := i + 1)
          (frameOf (ptr + i)) hd hnext fun v _ hv => (userPage_frame hv).mpr huser
        refine ⟨ret, c', hrun, hpaging, fun j hj => (hold j (by omega)).trans (hkept j hj),
          fun v hv => (hreads v hv).elim (hlog v) .inr, ?_⟩
        rcases hres with ⟨hret, k, h1, h2, hs, hbuf⟩ | ⟨hret, hnone⟩
        · refine .inl ⟨hret, k, by omega, by omega, ⟨hs.word, fun j hj1 hj2 => ?_,
            fun j hj1 hj2 => ?_, hs.nul⟩, fun j hj1 hj2 => ?_⟩
          · by_cases hji : j = i
            · rw [hji]
              exact huser
            · exact hs.user j (by omega) hj2
          · by_cases hji : j = i
            · rw [hji]
              exact h0
            · exact hs.nonzero j (by omega) hj2
          · by_cases hji : j = i
            · rw [hji, hold i (by omega)]
              exact hfetch
            · exact hbuf j (by omega) hj2
        · refine .inr ⟨hret, fun k h1 h2 hs => ?_⟩
          by_cases hki : k = i
          · exact h0 (hki ▸ hs.nul)
          · exact hnone k (by omega) (by omega) ⟨hs.word, fun j hj => hs.user j (by omega),
              fun j hj => hs.nonzero j (by omega), hs.nul⟩

/-! ## The functions -/

/-- `copy_from_user` returns 0 exactly on user memory, copies all of it then, and does nothing
otherwise. -/
def FromUserExact (c : UserCopy) (cr3 src size : Nat) : Prop :=
  ∃ ret c', c.copyFromUser cr3 src size = some (ret, c') ∧
    (ret = 0 ↔ size = 0 ∨ UserRange c.paging.mem (c.paging.currentPd cr3) src size) ∧
    (ret = 0 → c'.paging = c.paging ∧ (∀ i, i < size → c.userByte cr3 (src + i) = c'.kbuf i) ∧
      (∀ i, size ≤ i → c'.kbuf i = c.kbuf i) ∧ c'.log = c.log ++ fetches src 0 size) ∧
    (ret ≠ 0 → ret = failure ∧ c' = c)

/-- `copy_to_user` returns 0 exactly on user memory, writes all of it then and nothing else, and
does nothing otherwise. -/
def ToUserExact (c : UserCopy) (cr3 dst size : Nat) : Prop :=
  ∃ ret c', c.copyToUser cr3 dst size = some (ret, c') ∧
    (ret = 0 ↔ size = 0 ∨ UserRange c.paging.mem (c.paging.currentPd cr3) dst size) ∧
    (ret = 0 → c'.kbuf = c.kbuf ∧ c'.paging = { c.paging with mem := c'.paging.mem } ∧
      (∀ i, i < size → c'.paging.mem (dst + i) = c.kbuf i) ∧
      (∀ x, x < dst ∨ dst + size ≤ x → c'.paging.mem x = c.paging.mem x) ∧
      (∀ i, i < size → c'.userByte cr3 (dst + i) = c.kbuf i) ∧
      c'.log = c.log ++ puts dst 0 size) ∧
    (ret ≠ 0 → ret = failure ∧ c' = c)

/-- The first NUL of the string at `ptr` is at index `k`. -/
def FirstNul (c : UserCopy) (cr3 ptr k : Nat) : Prop :=
  c.userByte cr3 (ptr + k) = some 0 ∧ ∀ j, j < k → c.userByte cr3 (ptr + j) ≠ some 0

/-- `copy_from_user_string` returns 0 exactly when the string ends within `maxLen` bytes and
`copy_from_user` would copy it. It reads user memory only. -/
def StringExact (c : UserCopy) (cr3 ptr maxLen : Nat) : Prop :=
  ∃ ret c', c.copyFromUserString cr3 ptr maxLen = some (ret, c') ∧
    (ret = 0 ↔ ∃ k, k < maxLen ∧ c.FirstNul cr3 ptr k ∧
      (c.copyFromUser cr3 ptr (k + 1)).map Prod.fst = some 0) ∧
    (ret ≠ 0 → ret = failure) ∧
    (ret = 0 → ∀ k, c.FirstNul cr3 ptr k → ∀ j, j ≤ k → c.userByte cr3 (ptr + j) = c'.kbuf j) ∧
    c'.paging = c.paging ∧
    ∀ v, .readUser v ∈ c'.log → .readUser v ∈ c.log ∨
      v < 2 ^ 32 ∧ UserPage c.paging.mem (c.paging.currentPd cr3) v

theorem fromUser_exact (hd : UserDir c.paging.mem (c.paging.currentPd cr3)) {src size : Nat}
    (hsrc : src < 2 ^ 32) (hsize : size < 2 ^ 32) : c.FromUserExact cr3 src size := by
  unfold FromUserExact copyFromUser
  by_cases h0 : size = 0
  · refine ⟨0, c, if_pos h0, by simp [h0], fun _ => ⟨rfl, fun i hi => ?_, fun _ _ => rfl, ?_⟩,
      by simp⟩
    · omega
    · simp [h0, fetches]
  obtain ⟨ok, hrange, hok⟩ := Paging.isUserAccessibleRange_spec hd hsrc hsize
  rw [if_neg h0, hrange, Option.bind_some, ← hok]
  cases ok with
  | false => exact ⟨failure, c, rfl, by simp [failure], by simp [failure], fun _ => ⟨rfl, rfl⟩⟩
  | true =>
      obtain ⟨hend, huser⟩ := (hok.mp rfl).resolve_left h0
      obtain ⟨c', hrun, hpaging, hbuf, hlog⟩ := fromLoop_spec src size 0 hd
        hend huser
      rw [hrun]
      refine ⟨0, c', rfl, by simp, fun _ => ⟨hpaging, fun i hi => ?_, fun i hi => ?_, hlog⟩,
        by simp⟩
      · rw [userByte_user hd (by omega) (huser _ (by omega) (by omega)), hbuf i,
          if_pos (by omega)]
      · rw [hbuf i, if_neg (by omega)]

theorem toUser_exact (hd : UserDir c.paging.mem (c.paging.currentPd cr3)) {dst size : Nat}
    (hdst : dst < 2 ^ 32) (hsize : size < 2 ^ 32) : c.ToUserExact cr3 dst size := by
  unfold ToUserExact copyToUser
  by_cases h0 : size = 0
  · refine ⟨0, c, if_pos h0, by simp [h0], fun _ => ⟨rfl, rfl, fun i hi => ?_, fun _ _ => rfl,
      fun i hi => ?_, ?_⟩, by simp⟩
    · omega
    · omega
    · simp [h0, puts]
  obtain ⟨ok, hrange, hok⟩ := Paging.isUserAccessibleRange_spec hd hdst hsize
  rw [if_neg h0, hrange, Option.bind_some, ← hok]
  cases ok with
  | false => exact ⟨failure, c, rfl, by simp [failure], by simp [failure], fun _ => ⟨rfl, rfl⟩⟩
  | true =>
      obtain ⟨hend, huser⟩ := (hok.mp rfl).resolve_left h0
      obtain ⟨c', hrun, hbuf, hpaging, hmem, hlog⟩ := toLoop_spec dst size 0
        hd hend huser
      have hbyte : ∀ i, i < size → c'.paging.mem (dst + i) = c.kbuf i := by
        intro i hi
        rw [hmem, if_pos (by omega), Nat.add_sub_cancel_left]
      have hpd : c'.paging.currentPd cr3 = c.paging.currentPd cr3 := by
        rw [hpaging]
        rfl
      -- the tables are below the bytes that were written
      have hview := hd.stable c'.paging.mem fun x hx => by
        rw [hmem, if_neg]
        rintro ⟨h1, h2⟩
        have hlow := hd.lower x (by omega) (huser x h1 h2)
        have hle := frameOf_le x
        omega
      rw [hrun]
      refine ⟨0, c', rfl, by simp, fun _ => ⟨hbuf, hpaging, hbyte, fun x hx => ?_, fun i hi => ?_,
        hlog⟩, by simp⟩
      · rw [hmem, if_neg (by omega)]
      · have hv : dst + i < 2 ^ 32 := by omega
        have hphys := phys_user hd hv (huser _ (by omega) (by omega))
        rw [phys, translate_eq_view] at hphys
        rw [userByte, phys, hpd, translate_eq_view, hview _ hv, hphys, Option.map_some, hbyte i hi]

/-- When `copy_from_user` succeeds on a string, the string is in user memory. -/
theorem stringAt_iff (hd : UserDir c.paging.mem (c.paging.currentPd cr3)) {ptr k : Nat}
    (hptr : ptr < 2 ^ 32) (hk : k + 1 < 2 ^ 32) :
    StringAt c.paging.mem (c.paging.currentPd cr3) ptr 0 k ↔
      c.FirstNul cr3 ptr k ∧ (c.copyFromUser cr3 ptr (k + 1)).map Prod.fst = some 0 := by
  obtain ⟨ret, c', hrun, hret, _⟩ := fromUser_exact hd hptr hk
  rw [hrun, Option.map_some, Option.some_inj]
  simp only [Nat.succ_ne_zero, false_or] at hret
  rw [hret]
  constructor
  · intro hs
    have hword := hs.word
    have hbyte : ∀ j, j ≤ k → c.userByte cr3 (ptr + j) = some (c.paging.mem (ptr + j)) :=
      fun j hj => userByte_user hd (by omega) (hs.user j (Nat.zero_le j) hj)
    refine ⟨⟨by rw [hbyte k (Nat.le_refl k), hs.nul], fun j hj heq => ?_⟩, by omega,
      fun v h1 h2 => ?_⟩
    · rw [hbyte j (by omega)] at heq
      exact hs.nonzero j (Nat.zero_le j) hj (Option.some.inj heq)
    · have := hs.user (v - ptr) (Nat.zero_le _) (by omega)
      rwa [Nat.add_sub_cancel' h1] at this
  · rintro ⟨⟨hnul, hfirst⟩, hend, huser⟩
    have hbyte : ∀ j, j ≤ k → c.userByte cr3 (ptr + j) = some (c.paging.mem (ptr + j)) :=
      fun j hj => userByte_user hd (by omega) (huser _ (by omega) (by omega))
    refine ⟨by omega, fun j _ hj => huser _ (by omega) (by omega), fun j _ hj heq => ?_, ?_⟩
    · exact hfirst j hj (by rw [hbyte j (by omega), heq])
    · exact Option.some.inj ((hbyte k (Nat.le_refl k)).symm.trans hnul)

theorem string_exact (hd : UserDir c.paging.mem (c.paging.currentPd cr3)) {ptr maxLen : Nat}
    (hptr : ptr < 2 ^ 32) (hmax : maxLen < 2 ^ 32) : c.StringExact cr3 ptr maxLen := by
  unfold StringExact copyFromUserString
  by_cases h0 : maxLen = 0
  · refine ⟨failure, c, if_pos h0, ?_, fun _ => rfl, by simp [failure], rfl, fun _ => .inl⟩
    simp [failure, h0]
  rw [if_neg h0]
  have hsentinel : ∀ v, v < 2 ^ 32 → frameOf v = 0xFFFFFFFF →
      UserPage c.paging.mem (c.paging.currentPd cr3) v := by
    intro v _ hv
    simp only [frameOf, pageSize] at hv
    omega
  obtain ⟨ret, c', hrun, hpaging, _, hreads, hres⟩ := stringLoop_spec ptr maxLen 0
    0xFFFFFFFF hd hptr hsentinel
  refine ⟨ret, c', hrun, ?_, ?_, ?_, hpaging, hreads⟩
  · rcases hres with ⟨rfl, k, _, hk, hs, _⟩ | ⟨rfl, hnone⟩
    · simp only [true_iff]
      exact ⟨k, by omega, (stringAt_iff hd hptr (by omega)).mp hs⟩
    · refine ⟨fun h => absurd h (by decide), ?_⟩
      rintro ⟨k, hk, hnul, hcopy⟩
      exact absurd ((stringAt_iff hd hptr (by omega)).mpr ⟨hnul, hcopy⟩)
        (hnone k (Nat.zero_le k) (by omega))
  · rcases hres with ⟨rfl, _⟩ | ⟨hret, _⟩
    · exact fun h => absurd rfl h
    · exact fun _ => hret
  · rcases hres with ⟨rfl, k, _, hk, hs, hbuf⟩ | ⟨rfl, _⟩
    · intro _ k' hnul j hj
      -- the first NUL is unique
      obtain ⟨⟨hnulk, hfirstk⟩, _⟩ := (stringAt_iff hd hptr (by omega)).mp hs
      obtain rfl : k' = k := by
        rcases Nat.lt_trichotomy k' k with hlt | heq | hgt
        · exact absurd hnul.1 (hfirstk k' hlt)
        · exact heq
        · exact absurd hnulk (hnul.2 k hgt)
      have hword := hs.word
      rw [userByte_user hd (by omega) (hs.user j (Nat.zero_le j) hj), hbuf j (Nat.zero_le j) hj]
    · exact fun h => absurd h (by decide)

end Loops

end UserCopy

end Kumo
