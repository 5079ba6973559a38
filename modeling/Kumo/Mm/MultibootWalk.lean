import Kumo.Lib.Orbit
import Kumo.Mm.Multiboot

/-!
# When the parser is safe

`multiboot_parse` checks one thing about a tag, that its size is at least 8. Everything
else is taken from the block: the entry size it divides by, the number of entries, where
the next tag begins, and that the tag lies in the block at all. `parse_safe_iff` says which
blocks are parsed safely: every tag that the walk comes to has to fit in the block, and the
walk may not come to a tag twice, as it does when a size rounds up to 0.
-/

namespace Kumo

open Memory Orbit

namespace Multiboot

variable {m : Memory} {info stop ptr e : Nat} {s : Parser}

/-! ## Reads in the block -/

/-- The read lies in `[info, info + total_size)`. -/
def InBlock (m : Memory) (info : Nat) (r : Read) : Prop :=
  (r.addr + (2 ^ 32 - info)) % 2 ^ 32 + r.size ≤ totalSize m info

/-- All reads so far lie in the block. -/
def AllIn (m : Memory) (info : Nat) (reads : List Read) : Prop := ∀ r ∈ reads, InBlock m info r

@[simp] theorem allIn_nil : AllIn m info [] := by simp [AllIn]

@[simp] theorem allIn_append {xs ys : List Read} :
    AllIn m info (xs ++ ys) ↔ AllIn m info xs ∧ AllIn m info ys := by
  simp only [AllIn, List.mem_append, or_imp, forall_and]

@[simp] theorem allIn_cons {r : Read} {ys : List Read} :
    AllIn m info (r :: ys) ↔ InBlock m info r ∧ AllIn m info ys := by
  simp only [AllIn, List.mem_cons, forall_eq_or_imp]

/-- Adjacent reads are one read. -/
theorem inBlock_add {a b : Nat} :
    InBlock m info ⟨ptr, a⟩ ∧ InBlock m info ⟨offset ptr a, b⟩ ↔ InBlock m info ⟨ptr, a + b⟩ := by
  have htotal := m.load32_lt info
  simp only [InBlock, offset, totalSize] at *
  omega

/-- The offset of an offset. -/
theorem offset_offset (ptr a b : Nat) : offset (offset ptr a) b = offset ptr (a + b) := by
  simp only [offset]
  omega

theorem offset_lt (ptr a : Nat) : offset ptr a < 2 ^ 32 := Nat.mod_lt _ (Nat.two_pow_pos 32)

/-- The next read of a chain of adjacent reads. -/
theorem inBlock_chain {a b : Nat} (h : InBlock m info ⟨ptr, a⟩) :
    InBlock m info ⟨offset ptr a, b⟩ ↔ InBlock m info ⟨ptr, a + b⟩ := by
  rw [← inBlock_add, and_iff_right h]

/-! ## Tags that fit -/

/-- The type word of the entry lies in the block, and if it is available so does what is copied. -/
structure EntryFits (m : Memory) (info e : Nat) : Prop where
  type : InBlock m info ⟨offset e 16, 4⟩
  range : available m e = true → InBlock m info ⟨e, 16⟩

/-- The number of entries that the parser computes for a memory map tag. -/
def entryCount (m : Memory) (ptr : Nat) : Nat :=
  (m.load32 (offset ptr 4) + (2 ^ 32 - 16)) % 2 ^ 32 / m.load32 (offset ptr 8)

/-- The address that the parser computes for entry `i` of a memory map tag. -/
def entryAt (m : Memory) (ptr i : Nat) : Nat :=
  offset (offset ptr 16) (i * m.load32 (offset ptr 8) % 2 ^ 32)

/-- The tag at `ptr` lies in the block as far as the parser looks at it: the type, the size unless
it is the end tag, the 30 bytes of the framebuffer tag and its six colour bytes, the 12 bytes of
the memory map tag and its entries, which have a size. -/
structure TagFits (m : Memory) (info ptr : Nat) : Prop where
  type : InBlock m info ⟨ptr, 4⟩
  size : m.load32 ptr ≠ tagEnd → InBlock m info ⟨ptr, 8⟩
  framebuffer : m.load32 ptr = tagFramebuffer → InBlock m info ⟨ptr, 30⟩ ∧
    (m (offset ptr 29) = 1 → InBlock m info ⟨offset ptr 32, 6⟩)
  mmap : m.load32 ptr = tagMmap → InBlock m info ⟨ptr, 12⟩ ∧ m.load32 (offset ptr 8) ≠ 0 ∧
    ∀ i, i < entryCount m ptr → EntryFits m info (entryAt m ptr i)

/-- The tag after the tag at `ptr`, if the walk goes on. -/
def nextTag (m : Memory) (stop ptr : Nat) : Option Nat :=
  if ptr < stop ∧ m.load32 ptr ≠ tagEnd ∧ 8 ≤ m.load32 (offset ptr 4) then
    some (offset ptr (roundUp8 (m.load32 (offset ptr 4))))
  else none

/-! ## What one tag reads -/

/-- The reads for an entry. -/
theorem allIn_entryReads (he : e < 2 ^ 32) :
    AllIn m info (entryReads m e) ↔ EntryFits m info e := by
  have he0 : offset e 0 = e := Nat.mod_eq_of_lt he
  unfold entryReads
  by_cases havail : available m e = true
  · rw [if_pos havail, he0, allIn_cons, allIn_cons, allIn_cons, and_iff_left allIn_nil, inBlock_add]
    exact ⟨fun h => ⟨h.1, fun _ => h.2⟩, fun h => ⟨h.type, h.range havail⟩⟩
  · rw [if_neg havail, allIn_cons, and_iff_left allIn_nil]
    exact ⟨fun h => ⟨h, fun ha => absurd ha havail⟩, EntryFits.type⟩

theorem mmapEntry_reads (m : Memory) (e : Nat) (s : Parser) :
    (mmapEntry m e s).reads = s.reads ++ entryReads m e := by
  unfold mmapEntry
  dsimp only
  split <;> rfl

/-- The reads of the loop over the entries. -/
theorem mmapEntries_reads {entries entrySize steps i : Nat} :
    (mmapEntries m entries entrySize steps i s).reads = s.reads ++
      (List.range' i steps).flatMap fun j =>
        entryReads m (offset entries (j * entrySize % 2 ^ 32)) := by
  induction steps generalizing i s with
  | zero => simp [mmapEntries]
  | succ steps ih =>
      rw [mmapEntries, ih, mmapEntry_reads, List.range'_succ, List.flatMap_cons, List.append_assoc]

/-- The reads of the framebuffer branch, after the type and the size. -/
theorem allIn_framebufferReads (h : InBlock m info ⟨ptr, 8⟩) :
    AllIn m info (framebufferReads m ptr) ↔ InBlock m info ⟨ptr, 30⟩ ∧
      (m (offset ptr 29) = 1 → InBlock m info ⟨offset ptr 32, 6⟩) := by
  have hfixed : (InBlock m info ⟨offset ptr 8, 8⟩ ∧ InBlock m info ⟨offset ptr 16, 4⟩ ∧
      InBlock m info ⟨offset ptr 20, 4⟩ ∧ InBlock m info ⟨offset ptr 24, 4⟩ ∧
      InBlock m info ⟨offset ptr 28, 1⟩ ∧ InBlock m info ⟨offset ptr 29, 1⟩) ↔
      InBlock m info ⟨ptr, 30⟩ := by
    rw [inBlock_chain h, ← and_assoc, inBlock_add, ← and_assoc, inBlock_add, ← and_assoc,
      inBlock_add, ← and_assoc, inBlock_add, inBlock_add]
  have hcolor : (InBlock m info ⟨offset ptr 32, 1⟩ ∧ InBlock m info ⟨offset ptr 33, 1⟩ ∧
      InBlock m info ⟨offset ptr 34, 1⟩ ∧ InBlock m info ⟨offset ptr 35, 1⟩ ∧
      InBlock m info ⟨offset ptr 36, 1⟩ ∧ InBlock m info ⟨offset ptr 37, 1⟩) ↔
      InBlock m info ⟨offset ptr 32, 6⟩ := by
    have hstep : ∀ k, offset ptr (32 + k) = offset (offset ptr 32) k := fun k =>
      (offset_offset ptr 32 k).symm
    rw [hstep 1, hstep 2, hstep 3, hstep 4, hstep 5, ← and_assoc, inBlock_add, ← and_assoc,
      inBlock_add, ← and_assoc, inBlock_add, ← and_assoc, inBlock_add, inBlock_add]
  rw [framebufferReads, allIn_append]
  simp only [allIn_cons, allIn_nil, and_true]
  rw [hfixed]
  refine and_congr_right fun _ => ?_
  by_cases hrgb : m (offset ptr 29) = 1
  · simp only [hrgb, if_true, allIn_cons, allIn_nil, and_true, hcolor, true_imp_iff]
  · simp only [hrgb, if_false, allIn_nil, false_imp_iff]

/-- The reads of the two branches that copy a tag. -/
def tagReads (m : Memory) (ptr : Nat) : List Read :=
  (if m.load32 ptr = tagFramebuffer then framebufferReads m ptr else []) ++
  if m.load32 ptr = tagMmap then
    ⟨offset ptr 8, 4⟩ :: ⟨offset ptr 4, 4⟩ ::
      (List.range (entryCount m ptr)).flatMap fun i => entryReads m (entryAt m ptr i)
  else []

/-- The branches divide by 0 for a memory map tag with entry size 0, and otherwise make the reads
of the tag. -/
theorem readTag_reads (m : Memory) (ptr : Nat) (s : Parser) :
    (readTag m ptr s = none ∧ m.load32 ptr = tagMmap ∧ m.load32 (offset ptr 8) = 0) ∨
      ∃ s', readTag m ptr s = some s' ∧ s'.reads = s.reads ++ tagReads m ptr ∧
        (m.load32 ptr = tagMmap → m.load32 (offset ptr 8) ≠ 0) := by
  have hne : tagMmap ≠ tagFramebuffer := by decide
  unfold readTag tagReads
  by_cases hmmap : m.load32 ptr = tagMmap
  · simp only [hmmap, if_neg hne, if_true, List.nil_append]
    by_cases hzero : m.load32 (offset ptr 8) = 0
    · exact .inl ⟨if_pos hzero, trivial, hzero⟩
    · refine .inr ⟨_, if_neg hzero, ?_, fun _ => hzero⟩
      rw [mmapEntries_reads, List.range_eq_range', Parser.noting, List.append_assoc]
      rfl
  · simp only [if_neg hmmap, List.append_nil]
    refine .inr ⟨_, rfl, ?_, fun h => absurd h hmmap⟩
    split
    · rfl
    · exact (List.append_nil _).symm

/-- The header of a tag and the reads of its branches lie in the block exactly if the tag fits. -/
theorem allIn_tagReads (hend : m.load32 ptr ≠ tagEnd)
    (hsize : m.load32 ptr = tagMmap → m.load32 (offset ptr 8) ≠ 0) :
    InBlock m info ⟨ptr, 4⟩ ∧ AllIn m info (tagReads m ptr) ∧ InBlock m info ⟨offset ptr 4, 4⟩ ↔
      TagFits m info ptr := by
  have hadd : InBlock m info ⟨ptr, 4⟩ ∧ InBlock m info ⟨offset ptr 4, 4⟩ ↔ InBlock m info ⟨ptr, 8⟩ :=
    inBlock_add
  have hhead (h : InBlock m info ⟨ptr, 8⟩) :
      InBlock m info ⟨offset ptr 8, 4⟩ ↔ InBlock m info ⟨ptr, 12⟩ := inBlock_chain h
  have hmmap (h : InBlock m info ⟨ptr, 8⟩) : AllIn m info
      (⟨offset ptr 8, 4⟩ :: ⟨offset ptr 4, 4⟩ ::
        (List.range (entryCount m ptr)).flatMap fun i => entryReads m (entryAt m ptr i)) ↔
      InBlock m info ⟨ptr, 12⟩ ∧ ∀ i, i < entryCount m ptr → EntryFits m info (entryAt m ptr i) := by
    rw [allIn_cons, allIn_cons, hhead h, and_iff_right (hadd.mpr h).2]
    refine and_congr_right fun _ => ?_
    constructor
    · intro hall i hi
      refine (allIn_entryReads (offset_lt _ _)).mp fun r hr => hall r ?_
      exact List.mem_flatMap.mpr ⟨i, List.mem_range.mpr hi, hr⟩
    · intro hall r hr
      obtain ⟨i, hi, hr⟩ := List.mem_flatMap.mp hr
      exact (allIn_entryReads (offset_lt _ _)).mpr (hall i (List.mem_range.mp hi)) r hr
  constructor
  · rintro ⟨h4, hreads, hsize4⟩
    have h8 := hadd.mp ⟨h4, hsize4⟩
    rw [tagReads, allIn_append] at hreads
    refine ⟨h4, fun _ => h8, fun hfb => ?_, fun hmm => ?_⟩
    · rw [if_pos hfb] at hreads
      exact (allIn_framebufferReads h8).mp hreads.1
    · rw [if_pos hmm] at hreads
      obtain ⟨h12, hentries⟩ := (hmmap h8).mp hreads.2
      exact ⟨h12, hsize hmm, hentries⟩
  · intro hfits
    have h8 := hfits.size hend
    refine ⟨hfits.type, ?_, (hadd.mpr h8).2⟩
    rw [tagReads, allIn_append]
    constructor
    · split
      · next hfb => exact (allIn_framebufferReads h8).mpr (hfits.framebuffer hfb)
      · exact allIn_nil
    · split
      · next hmm =>
          obtain ⟨h12, _, hentries⟩ := hfits.mmap hmm
          exact (hmmap h8).mpr ⟨h12, hentries⟩
      · exact allIn_nil

/-! ## One iteration -/

/-- What an iteration does: fault on an entry size of 0, leave the loop, or go on to the next tag.
If it does not fault, its reads lie in the block exactly if the tag fits. -/
inductive TagParsed (m : Memory) (info ptr : Nat) (s : Parser) : Iteration → Prop where
  | divideError : ¬ TagFits m info ptr → TagParsed m info ptr s .divideError
  | leave (s' : Parser) : (m.load32 ptr = tagEnd ∨ m.load32 (offset ptr 4) < 8) →
      (AllIn m info s'.reads ↔ AllIn m info s.reads ∧ TagFits m info ptr) →
      TagParsed m info ptr s (.leave s')
  | next (s' : Parser) : m.load32 ptr ≠ tagEnd → 8 ≤ m.load32 (offset ptr 4) →
      (AllIn m info s'.reads ↔ AllIn m info s.reads ∧ TagFits m info ptr) →
      TagParsed m info ptr s (.next (offset ptr (roundUp8 (m.load32 (offset ptr 4)))) s')

theorem parseTag_parsed (m : Memory) (info ptr : Nat) (s : Parser) :
    TagParsed m info ptr s (parseTag m ptr s) := by
  unfold parseTag
  dsimp only
  by_cases hend : m.load32 ptr = tagEnd
  · rw [if_pos hend]
    refine .leave _ (.inl hend) ?_
    have hfb : tagEnd ≠ tagFramebuffer := by decide
    have hmm : tagEnd ≠ tagMmap := by decide
    simp only [Parser.noting, allIn_append, allIn_cons, allIn_nil, and_true]
    refine and_congr_right fun _ => ⟨fun h => ⟨h, fun hne => absurd hend hne, fun h => ?_,
      fun h => ?_⟩, TagFits.type⟩
    · exact absurd (hend.symm.trans h) hfb
    · exact absurd (hend.symm.trans h) hmm
  · rw [if_neg hend]
    rcases readTag_reads m ptr (s.noting [⟨ptr, 4⟩]) with ⟨hnone, hmmap, hzero⟩ | ⟨s', hsome, hreads, hsize⟩
    · rw [hnone]
      exact .divideError fun hfits => (hfits.mmap hmmap).2.1 hzero
    · rw [hsome]
      have hall : AllIn m info (s'.noting [⟨offset ptr 4, 4⟩]).reads ↔
          AllIn m info s.reads ∧ TagFits m info ptr := by
        rw [← allIn_tagReads hend hsize]
        simp only [Parser.noting, hreads, allIn_append, allIn_cons, allIn_nil, and_true, and_assoc]
      dsimp only
      by_cases hsmall : m.load32 (offset ptr 4) < 8
      · rw [if_pos hsmall]
        exact .leave _ (.inr hsmall) hall
      · rw [if_neg hsmall]
        exact .next _ hend (by omega) hall

/-! ## The walk -/

/-- Every tag the walk from `ptr` comes to fits in the block. -/
def AllFit (m : Memory) (info ptr : Nat) : Prop :=
  ∀ p, Reach (nextTag m (stopOf m info)) ptr p → p < stopOf m info → TagFits m info p

/-- Where the walk goes on. -/
theorem nextTag_eq (hlt : ptr < stop) (hend : m.load32 ptr ≠ tagEnd)
    (hsize : 8 ≤ m.load32 (offset ptr 4)) :
    nextTag m stop ptr = some (offset ptr (roundUp8 (m.load32 (offset ptr 4)))) :=
  if_pos ⟨hlt, hend, hsize⟩

/-- Where it ends at a tag. -/
theorem nextTag_none (h : m.load32 ptr = tagEnd ∨ m.load32 (offset ptr 4) < 8) :
    nextTag m stop ptr = none := by
  refine if_neg fun hgo => ?_
  rcases h with hend | hsmall
  · exact hgo.2.1 hend
  · omega

theorem nextTag_none_of_le (h : stop ≤ ptr) : nextTag m stop ptr = none :=
  if_neg fun hgo => by omega

/-- A walk that does not go on is all at its first tag. -/
theorem allFit_of_none (hnone : nextTag m (stopOf m info) ptr = none)
    (h : ptr < stopOf m info → TagFits m info ptr) : AllFit m info ptr := by
  intro p hp hlt
  rcases hp.cases_next with rfl | ⟨q, hq, _⟩
  · exact h hlt
  · rw [hnone] at hq
    cases hq

/-- A walk that goes on. -/
theorem allFit_step {q : Nat} (hnext : nextTag m (stopOf m info) ptr = some q) :
    AllFit m info ptr ↔ (ptr < stopOf m info → TagFits m info ptr) ∧ AllFit m info q := by
  constructor
  · intro h
    exact ⟨h ptr (Reach.refl ptr), fun p hp => h p (Reach.step hnext hp)⟩
  · rintro ⟨hfirst, hrest⟩ p hp hlt
    rcases hp.cases_next with rfl | ⟨r, hr, hrp⟩
    · exact hfirst hlt
    · obtain rfl := Option.some.inj (hnext.symm.trans hr)
      exact hrest p hrp hlt

/-- A walk that ends and meets only tags that fit is one that the loop makes safely. -/
theorem parseTags_of_ends (hends : Ends (nextTag m (stopOf m info)) ptr)
    (hfit : AllFit m info ptr) (hs : AllIn m info s.reads) :
    ∃ fuel s', parseTags m (stopOf m info) fuel ptr s = .done s' ∧ AllIn m info s'.reads := by
  induction hends generalizing s with
  | @stop ptr hnone =>
      refine ⟨1, ?_⟩
      rw [parseTags]
      by_cases hlt : ptr < stopOf m info
      · rw [if_pos hlt]
        have htag := hfit ptr (Reach.refl ptr) hlt
        have hparsed := parseTag_parsed m info ptr s
        generalize parseTag m ptr s = i at hparsed
        cases hparsed with
        | divideError hno => exact absurd htag hno
        | leave s' _ hiff => exact ⟨s', rfl, hiff.mpr ⟨hs, htag⟩⟩
        | next s' hend hsize hiff =>
            rw [nextTag_eq hlt hend hsize] at hnone
            cases hnone
      · rw [if_neg hlt]
        exact ⟨s, rfl, hs⟩
  | @step ptr q hnext _ ih =>
      obtain ⟨hfirst, hrest⟩ := (allFit_step hnext).mp hfit
      have hlt : ptr < stopOf m info := by
        by_contra hge
        rw [nextTag_none_of_le (by omega)] at hnext
        cases hnext
      have htag := hfirst hlt
      have hparsed := parseTag_parsed m info ptr s
      generalize hi : parseTag m ptr s = i at hparsed
      cases hparsed with
      | divideError hno => exact absurd htag hno
      | leave s' hstop _ =>
          rw [nextTag_none hstop] at hnext
          cases hnext
      | next s' hend hsize hiff =>
          rw [nextTag_eq hlt hend hsize] at hnext
          obtain rfl := Option.some.inj hnext
          obtain ⟨fuel, s'', hrun, hall⟩ := ih hrest (hiff.mpr ⟨hs, htag⟩)
          refine ⟨fuel + 1, s'', ?_, hall⟩
          rw [parseTags, if_pos hlt, hi]
          exact hrun

/-- A loop that ends with all reads in the block walked over tags that fit, and to an end. -/
theorem ends_of_parseTags {fuel : Nat} {s' : Parser}
    (hrun : parseTags m (stopOf m info) fuel ptr s = .done s') (hall : AllIn m info s'.reads) :
    AllIn m info s.reads ∧ Ends (nextTag m (stopOf m info)) ptr ∧ AllFit m info ptr := by
  induction fuel generalizing ptr s with
  | zero => cases hrun
  | succ fuel ih =>
      rw [parseTags] at hrun
      by_cases hlt : ptr < stopOf m info
      · rw [if_pos hlt] at hrun
        have hparsed := parseTag_parsed m info ptr s
        generalize parseTag m ptr s = i at hparsed hrun
        cases hparsed with
        | divideError _ => cases hrun
        | leave s1 hstop hiff =>
            cases hrun
            obtain ⟨hs, htag⟩ := hiff.mp hall
            exact ⟨hs, .stop (nextTag_none hstop), allFit_of_none (nextTag_none hstop) fun _ => htag⟩
        | next s1 hend hsize hiff =>
            obtain ⟨hs1, hends, hrest⟩ := ih hrun
            obtain ⟨hs, htag⟩ := hiff.mp hs1
            have hnext := nextTag_eq hlt hend hsize
            exact ⟨hs, .step hnext hends, (allFit_step hnext).mpr ⟨fun _ => htag, hrest⟩⟩
      · rw [if_neg hlt] at hrun
        cases hrun
        have hnone : nextTag m (stopOf m info) ptr = none := nextTag_none_of_le (by omega)
        exact ⟨hall, .stop hnone, allFit_of_none hnone fun h => absurd h hlt⟩

/-! ## Safe blocks -/

/-- The parse ends without a divide error, and reads in the block only. -/
def ParsesSafely (m : Memory) (magic info : Nat) : Prop :=
  ∀ map fb, ∃ fuel s', multibootParse fuel m magic info map fb = .done s' ∧
    AllIn m info s'.reads

/-- The walk meets finitely many addresses. -/
theorem finite_walk (m : Memory) (info : Nat) :
    {p | Reach (nextTag m (stopOf m info)) (offset info 8) p}.Finite := by
  refine finite_reach (offset_lt info 8) fun p q hq => ?_
  unfold nextTag at hq
  split at hq
  · exact Option.some.inj hq ▸ offset_lt _ _
  · cases hq

/-- A block is parsed safely exactly if it holds its own size, every tag that the walk comes to
fits in it, and the walk comes to no tag twice. -/
theorem parse_safe_iff (m : Memory) (magic info : Nat) (hinfo : info < 2 ^ 32) :
    ParsesSafely m magic info ↔ magic ≠ multiboot2Magic ∨
      4 ≤ totalSize m info ∧
        ∀ p, Reach (nextTag m (stopOf m info)) (offset info 8) p →
          (p < stopOf m info → TagFits m info p) ∧ ¬ Returns (nextTag m (stopOf m info)) p := by
  by_cases hmagic : magic = multiboot2Magic
  · rw [or_iff_right (by simp [hmagic]), ParsesSafely]
    simp only [multibootParse, hmagic, ne_eq, not_true_eq_false, if_false]
    have hsize : AllIn m info [⟨info, 4⟩] ↔ 4 ≤ totalSize m info := by
      rw [allIn_cons, and_iff_left allIn_nil]
      simp only [InBlock]
      omega
    constructor
    · intro h
      obtain ⟨fuel, s', hrun, hall⟩ := h ⟨[], 0⟩ ⟨0, 0, 0, 0, 0, 0, 0, 0, 0, 0, 0, 0⟩
      obtain ⟨hs, hends, hfit⟩ := ends_of_parseTags hrun hall
      exact ⟨hsize.mp hs, fun p hp => ⟨hfit p hp, hends.not_returns p hp⟩⟩
    · rintro ⟨h4, hwalk⟩ map fb
      have hends := ends_of_not_returns (finite_walk m info) fun p hp => (hwalk p hp).2
      exact parseTags_of_ends hends (fun p hp => (hwalk p hp).1) (hsize.mpr h4)
  · refine iff_of_true (fun map fb => ⟨0, ⟨map, fb, []⟩, if_pos hmagic, allIn_nil⟩) (.inl hmagic)

/-- A block with the end tag only. -/
def emptyBlock : Memory :=
  store32 (store32 (store32 (fun _ => 0) 0x9000 16) 0x9008 tagEnd) 0x900C 8

theorem parse_safe_iff_sample : ParsesSafely emptyBlock multiboot2Magic 0x9000 ↔
    multiboot2Magic ≠ multiboot2Magic ∨
      4 ≤ totalSize emptyBlock 0x9000 ∧
        ∀ p, Reach (nextTag emptyBlock (stopOf emptyBlock 0x9000)) (offset 0x9000 8) p →
          (p < stopOf emptyBlock 0x9000 → TagFits emptyBlock 0x9000 p) ∧
            ¬ Returns (nextTag emptyBlock (stopOf emptyBlock 0x9000)) p :=
  parse_safe_iff emptyBlock multiboot2Magic 0x9000 (by decide)

/-- A block with a memory map tag whose entry size is 0. -/
def zeroEntryBlock : Memory :=
  store32 (store32 (store32 (fun _ => 0) 0x9000 32) 0x9008 tagMmap) 0x900C 16

/-- The parser divides by the entry size of the tag. -/
theorem parse_faults : ¬ ∀ (m : Memory) (info : Nat), info < 2 ^ 32 →
    ParsesSafely m multiboot2Magic info := by
  intro hclaim
  obtain ⟨fuel, s', hrun, _⟩ := hclaim zeroEntryBlock 0x9000 (by decide) ⟨[], 0⟩
    ⟨0, 0, 0, 0, 0, 0, 0, 0, 0, 0, 0, 0⟩
  cases fuel with
  | zero => cases hrun
  | succ fuel =>
      have hloop : parseTags zeroEntryBlock (stopOf zeroEntryBlock 0x9000) (fuel + 1)
          (offset 0x9000 8) ⟨⟨[], 0⟩, ⟨0, 0, 0, 0, 0, 0, 0, 0, 0, 0, 0, 0⟩, [⟨0x9000, 4⟩]⟩ =
          .divideError := by
        have hlt : offset 0x9000 8 < stopOf zeroEntryBlock 0x9000 := by decide
        have htype : zeroEntryBlock.load32 (offset 0x9000 8) = tagMmap := by decide
        have hzero : zeroEntryBlock.load32 (offset (offset 0x9000 8) 8) = 0 := by decide
        have hend : tagMmap ≠ tagEnd := by decide
        have hfb : tagMmap ≠ tagFramebuffer := by decide
        rw [parseTags, if_pos hlt, parseTag]
        simp only [htype, readTag, readMmap, hzero, if_neg hend, if_neg hfb, if_true]
      cases hloop.symm.trans hrun

end Multiboot

end Kumo
