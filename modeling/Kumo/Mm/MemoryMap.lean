import Kumo.Mm.Multiboot

/-!
# The memory map of a well-formed block

What `multiboot_parse` extracts from a block in the format of the Multiboot2
specification, given as a list of tags. The list of regions is a filter of the entries,
and `memory_map_iff` says when it is right: an entry that ends at or above 4 GB is
stored with a length whose sum with the base is 0 in 32 bits, so that neither
`top_of_memory` nor `pmm_init` sees it.
-/

namespace Kumo

open Memory

/-- The end of a region as 32-bit code computes it. -/
def Region.stop (r : Region) : Nat := (r.base + r.length) % 2 ^ 32

namespace Multiboot

/-! ## Blocks in the format of the specification -/

/-- `multiboot_mmap_entry_t`. -/
structure Entry where
  base : Nat
  length : Nat
  type : Nat
  deriving DecidableEq, Repr

/-- A tag: a memory map, or a tag of another type. -/
inductive Tag where
  | mmap (entrySize : Nat) (entries : List Entry)
  | other (type size : Nat)
  deriving Repr

namespace Tag

/-- The size of the tag without padding. -/
def size : Tag → Nat
  | mmap entrySize entries => 16 + entries.length * entrySize
  | other _ size => size

/-- The entries of the tag. -/
def entries : Tag → List Entry
  | mmap _ entries => entries
  | other _ _ => []

end Tag

/-- The entry lies in memory at `e`. -/
structure EntryAt (m : Memory) (e : Nat) (entry : Entry) : Prop where
  base : m.load64 e = entry.base
  length : m.load64 (e + 8) = entry.length
  type : m.load32 (e + 16) = entry.type

/-- The tag lies in memory at `p`. -/
inductive TagAt (m : Memory) (p : Nat) : Tag → Prop where
  | mmap (entrySize : Nat) (entries : List Entry) : m.load32 p = tagMmap →
      m.load32 (p + 4) = 16 + entries.length * entrySize → m.load32 (p + 8) = entrySize →
      24 ≤ entrySize →
      (∀ i entry, entries[i]? = some entry → EntryAt m (p + 16 + i * entrySize) entry) →
      TagAt m p (.mmap entrySize entries)
  | other (type size : Nat) : m.load32 p = type → m.load32 (p + 4) = size → type ≠ tagEnd →
      type ≠ tagMmap → 8 ≤ size → TagAt m p (.other type size)

/-- The tags lie one after the other, each padded to 8 bytes, up to an end tag that ends at
`stop`. -/
inductive TagsAt (m : Memory) (stop : Nat) : Nat → List Tag → Prop where
  | nil (p : Nat) : m.load32 p = tagEnd → p + 8 = stop → TagsAt m stop p []
  | cons (p : Nat) (tag : Tag) (tags : List Tag) : TagAt m p tag →
      TagsAt m stop (p + (tag.size + 7) / 8 * 8) tags → TagsAt m stop p (tag :: tags)

/-- A well-formed block in memory below `2 ^ 32`. -/
structure BlockAt (m : Memory) (info : Nat) (tags : List Tag) : Prop where
  tags : TagsAt m (info + totalSize m info) (info + 8) tags
  fits : info + totalSize m info < 2 ^ 32

/-- All entries of the block, in order. -/
def allEntries (tags : List Tag) : List Entry := tags.flatMap Tag.entries

/-- The entry describes usable memory that begins below 4 GB. -/
def Entry.usable (entry : Entry) : Bool := entry.type == mmapAvailable && entry.base < 2 ^ 32

/-- The entries that the memory map has room for. -/
def selected (entries : List Entry) : List Entry :=
  (entries.filter Entry.usable).take maxUsableRegions

/-! ## The right memory map -/

/-- The part of the entry below 4 GB. -/
def Entry.exact (entry : Entry) : Region :=
  ⟨entry.base, min (entry.base + entry.length) (2 ^ 32) - entry.base⟩

/-- The end of the entry, as far as 32 bits can express it. -/
def Entry.top (entry : Entry) : Nat := min (entry.base + entry.length) (2 ^ 32 - 1)

/-- The memory map describes the selected entries: their parts below 4 GB, the largest of their
ends, and no region that is not empty is lost when its end is computed in 32 bits. -/
structure Extracted (map : MemoryMap) (entries : List Entry) : Prop where
  regions : map.regions = (selected entries).map Entry.exact
  top : map.topOfMemory = ((selected entries).map Entry.top).foldl max 0
  kept : ∀ r ∈ map.regions, r.length ≠ 0 → r.base < r.stop

/-! ## What the parser does with the entries -/

/-- What the loop body does to the memory map for an entry. -/
def addEntry (map : MemoryMap) (entry : Entry) : MemoryMap :=
  if entry.type = mmapAvailable then addRegion map entry.base entry.length else map

/-- The region that is stored for an entry. -/
def Entry.stored (entry : Entry) : Region :=
  ⟨entry.base % 2 ^ 32,
    if 0x100000000 < (entry.base + entry.length) % 2 ^ 64 then
      (0xFFFFFFFF - entry.base % 2 ^ 32 + 1) % 2 ^ 32
    else entry.length % 2 ^ 32⟩

theorem addEntry_of_usable {map : MemoryMap} {entry : Entry} (h : entry.usable = true) :
    addEntry map entry = if map.regions.length < maxUsableRegions then
      { regions := map.regions ++ [entry.stored]
        topOfMemory := max map.topOfMemory entry.stored.stop } else map := by
  rw [Entry.usable, Bool.and_eq_true, beq_iff_eq, decide_eq_true_iff] at h
  rw [addEntry, if_pos h.1, addRegion, if_pos (show entry.base < 0x100000000 from h.2)]
  by_cases hroom : map.regions.length < maxUsableRegions
  · simp only [hroom, if_true]
    refine congrArg (MemoryMap.mk _) ?_
    show (if map.topOfMemory < entry.stored.stop then entry.stored.stop else map.topOfMemory) = _
    split <;> omega
  · simp only [hroom, if_false]

theorem addEntry_of_not_usable {map : MemoryMap} {entry : Entry} (h : ¬ entry.usable = true) :
    addEntry map entry = map := by
  rw [Entry.usable, Bool.and_eq_true, beq_iff_eq, decide_eq_true_iff] at h
  rw [addEntry]
  split
  · next htype =>
      rw [addRegion]
      exact if_neg fun hbase => h ⟨htype, hbase⟩
  · rfl

/-- The fold over the entries keeps the first that there is room for. -/
theorem foldl_addEntry {map : MemoryMap} {entries : List Entry}
    (hroom : map.regions.length ≤ maxUsableRegions) :
    entries.foldl addEntry map =
      let sel := (entries.filter Entry.usable).take (maxUsableRegions - map.regions.length)
      { regions := map.regions ++ sel.map Entry.stored
        topOfMemory := (sel.map fun e => e.stored.stop).foldl max map.topOfMemory } := by
  induction entries generalizing map with
  | nil => simp
  | cons entry entries ih =>
      rw [List.foldl_cons]
      by_cases husable : entry.usable = true
      · rw [addEntry_of_usable husable, List.filter_cons_of_pos husable]
        by_cases hlt : map.regions.length < maxUsableRegions
        · rw [if_pos hlt, ih (by rw [List.length_append, List.length_singleton]; exact hlt)]
          obtain ⟨k, hk⟩ : ∃ k, maxUsableRegions - map.regions.length = k + 1 :=
            ⟨maxUsableRegions - map.regions.length - 1, by omega⟩
          have hk' : maxUsableRegions - (map.regions ++ [entry.stored]).length = k := by
            rw [List.length_append, List.length_singleton]
            omega
          simp only [hk, hk', List.take_succ_cons, List.map_cons, List.foldl_cons,
            List.append_assoc, List.singleton_append]
        · have hzero : maxUsableRegions - map.regions.length = 0 := by omega
          rw [if_neg hlt, ih hroom]
          simp only [hzero, List.take_zero]
      · rw [addEntry_of_not_usable husable, List.filter_cons_of_neg husable, ih hroom]

/-- The memory map is right exactly if every selected entry ends below 4 GB. -/
theorem extracted_iff {entries : List Entry} :
    Extracted (entries.foldl addEntry ⟨[], 0⟩) entries ↔
      ∀ entry ∈ selected entries, entry.base + entry.length < 2 ^ 32 := by
  have hfold : entries.foldl addEntry ⟨[], 0⟩ =
      ⟨(selected entries).map Entry.stored,
        ((selected entries).map fun e => e.stored.stop).foldl max 0⟩ :=
    foldl_addEntry (Nat.zero_le _)
  have hbase : ∀ entry ∈ selected entries, entry.base < 2 ^ 32 := by
    intro entry hentry
    have hmem := List.mem_of_mem_take hentry
    have husable := (List.mem_filter.mp hmem).2
    rw [Entry.usable, Bool.and_eq_true, decide_eq_true_iff] at husable
    exact husable.2
  rw [hfold]
  constructor
  · intro h entry hentry
    by_contra hge
    have hlow := hbase entry hentry
    -- the region that is stored ends at 4 GB, and that is 0 in 32 bits
    have hexact : entry.stored = entry.exact := List.map_inj_left.mp h.regions entry hentry
    have hkept := h.kept entry.stored (List.mem_map_of_mem hentry)
    rw [hexact] at hkept
    simp only [Entry.exact, Region.stop] at hkept
    omega
  · intro h
    have hstored : ∀ entry ∈ selected entries, entry.stored = entry.exact ∧
        entry.stored.stop = entry.top ∧ (entry.stored.length ≠ 0 →
          entry.stored.base < entry.stored.stop) := by
      intro entry hentry
      have hend := h entry hentry
      have hlow := hbase entry hentry
      have hsum : ¬ 0x100000000 < (entry.base + entry.length) % 2 ^ 64 := by omega
      simp only [Entry.stored, if_neg hsum, Entry.exact, Entry.top, Region.stop, Region.mk.injEq]
      omega
    refine ⟨List.map_congr_left fun e he => (hstored e he).1, ?_, fun r hr => ?_⟩
    · exact congrArg (List.foldl max 0) (List.map_congr_left fun e he => (hstored e he).2.1)
    · obtain ⟨e, he, rfl⟩ := List.mem_map.mp hr
      exact (hstored e he).2.2

/-! ## The walk over a well-formed block -/

section Walk

variable {m : Memory} {stop p : Nat} {s : Parser}

/-- An address in the block does not wrap around. -/
theorem offset_of_lt {ptr off : Nat} (h : ptr + off < 2 ^ 32) : offset ptr off = ptr + off :=
  Nat.mod_eq_of_lt h

/-- The loop body for an entry of the block. -/
theorem mmapEntry_memoryMap {e : Nat} {entry : Entry} (he : EntryAt m e entry)
    (h32 : e + 24 < 2 ^ 32) : (mmapEntry m e s).memoryMap = addEntry s.memoryMap entry := by
  have havail : available m e = true ↔ entry.type = mmapAvailable := by
    rw [available, beq_iff_eq, offset_of_lt (by omega), he.type]
  rw [mmapEntry, addEntry]
  by_cases htype : entry.type = mmapAvailable
  · rw [if_pos (havail.mpr htype), if_pos htype, offset_of_lt (by omega), offset_of_lt (by omega),
      Nat.add_zero, he.base, he.length]
    rfl
  · rw [if_neg fun h => htype (havail.mp h), if_neg htype]
    rfl

/-- The loop over the entries of a tag folds over them. -/
theorem mmapEntries_memoryMap {entries entrySize i : Nat} {list : List Entry}
    (hentry : ∀ j entry, list[j]? = some entry → EntryAt m (entries + (i + j) * entrySize) entry)
    (hsize : 24 ≤ entrySize)
    (h32 : entries + (i + list.length) * entrySize < 2 ^ 32) :
    (mmapEntries m entries entrySize list.length i s).memoryMap =
      list.foldl addEntry s.memoryMap := by
  induction list generalizing i s with
  | nil => rfl
  | cons entry list ih =>
      have hfirst := hentry 0 entry rfl
      rw [List.length_cons] at h32 ⊢
      have hsum : (i + (list.length + 1)) * entrySize =
          i * entrySize + entrySize + list.length * entrySize := by
        rw [Nat.add_mul, Nat.add_mul, Nat.one_mul]
        omega
      have haddr : offset entries (i * entrySize % 2 ^ 32) = entries + (i + 0) * entrySize := by
        rw [Nat.add_zero, Nat.mod_eq_of_lt (by omega), offset_of_lt (by omega)]
      have hnext : ∀ j e, list[j]? = some e →
          EntryAt m (entries + (i + 1 + j) * entrySize) e := by
        intro j e he
        rw [Nat.add_right_comm i 1 j, Nat.add_assoc]
        exact hentry (j + 1) e he
      have hbound : entries + (i + 1 + list.length) * entrySize < 2 ^ 32 := by
        rw [Nat.add_right_comm i 1, Nat.add_assoc]
        exact h32
      rw [mmapEntries, haddr, ih hnext hbound, List.foldl_cons, mmapEntry_memoryMap hfirst]
      have hbase : (i + 0) * entrySize = i * entrySize := by rw [Nat.add_zero]
      omega

/-- One tag of the block: the loop goes on to the next one, and the entries are added. -/
theorem parseTag_of_tagAt {tag : Tag} (h : TagAt m p tag) (h32 : p + (tag.size + 7) / 8 * 8 < 2 ^ 32) :
    ∃ s', parseTag m p s = .next (p + (tag.size + 7) / 8 * 8) s' ∧
      s'.memoryMap = tag.entries.foldl addEntry s.memoryMap := by
  have hpad : tag.size ≤ (tag.size + 7) / 8 * 8 := by omega
  cases h with
  | mmap entrySize entries htype hsize hentrySize h24 hentries =>
      have hend : tagMmap ≠ tagEnd := by decide
      have hfb : tagMmap ≠ tagFramebuffer := by decide
      simp only [Tag.size] at h32 hpad ⊢
      have h4 : offset p 4 = p + 4 := offset_of_lt (by omega)
      have h8 : offset p 8 = p + 8 := offset_of_lt (by omega)
      have h16 : offset p 16 = p + 16 := offset_of_lt (by omega)
      have hne : entrySize ≠ 0 := by omega
      have hcount : (16 + entries.length * entrySize + (2 ^ 32 - 16)) % 2 ^ 32 / entrySize =
          entries.length := by
        have hmod : (16 + entries.length * entrySize + (2 ^ 32 - 16)) % 2 ^ 32 =
            entries.length * entrySize := by omega
        rw [hmod, Nat.mul_div_cancel _ (by omega)]
      have hround : offset p (roundUp8 (16 + entries.length * entrySize)) =
          p + (16 + entries.length * entrySize + 7) / 8 * 8 := by
        simp only [offset, roundUp8]
        omega
      have hmap : ∀ s : Parser, (mmapEntries m (p + 16) entrySize entries.length 0 s).memoryMap =
          entries.foldl addEntry s.memoryMap := fun s => by
        refine mmapEntries_memoryMap (fun j e he => ?_) h24 (by rw [Nat.zero_add]; omega)
        rw [Nat.zero_add]
        exact hentries j e he
      rw [parseTag]
      simp only [htype, if_neg hend, readTag, if_neg hfb, if_true, readMmap, h4, h8, h16, hsize,
        hentrySize, if_neg hne, hcount]
      rw [if_neg (by omega), hround]
      exact ⟨_, rfl, hmap _⟩
  | other type size htype hsize hend hmmap h8 =>
      simp only [Tag.size] at h32 hpad ⊢
      have h4 : offset p 4 = p + 4 := offset_of_lt (by omega)
      have hround : offset p (roundUp8 size) = p + (size + 7) / 8 * 8 := by
        simp only [offset, roundUp8]
        omega
      rw [parseTag]
      simp only [htype, if_neg hend, readTag, if_neg hmmap, h4, hsize]
      rw [if_neg (by omega), hround]
      refine ⟨_, rfl, ?_⟩
      split <;> rfl

/-- The tags end after they begin. -/
theorem TagsAt.le_stop {tags : List Tag} (h : TagsAt m stop p tags) : p + 8 ≤ stop := by
  induction h with
  | nil p _ hstop => omega
  | cons p tag tags _ _ ih => omega

/-- The loop over the tags of a block ends and folds over all of their entries. -/
theorem parseTags_of_tagsAt {tags : List Tag} (h : TagsAt m stop p tags) (h32 : stop < 2 ^ 32) :
    ∃ fuel s', parseTags m stop fuel p s = .done s' ∧
      s'.memoryMap = (allEntries tags).foldl addEntry s.memoryMap := by
  induction h generalizing s with
  | nil p hend hstop =>
      refine ⟨1, s.noting [⟨p, 4⟩], ?_, rfl⟩
      rw [parseTags, if_pos (by omega), parseTag]
      dsimp only
      rw [if_pos hend]
  | cons p tag tags htag hrest ih =>
      have hle := hrest.le_stop
      obtain ⟨s1, hparse, hmap⟩ := parseTag_of_tagAt htag (by omega)
      obtain ⟨fuel, s', hrun, hmap'⟩ := ih
      refine ⟨fuel + 1, s', ?_, ?_⟩
      · rw [parseTags, if_pos (by omega), hparse]
        exact hrun
      · rw [hmap', hmap, ← List.foldl_append]
        rfl

end Walk

/-- The memory map that the parser extracts from a well-formed block is right exactly if none of the
first sixteen usable entries below 4 GB ends at or above 4 GB. -/
theorem memory_map_iff (m : Memory) (info : Nat) (tags : List Tag) (h : BlockAt m info tags)
    (map : MemoryMap) (fb : FramebufferInfo) :
    ∃ fuel s', multibootParse fuel m multiboot2Magic info map fb = .done s' ∧
      (Extracted s'.memoryMap (allEntries tags) ↔
        ∀ entry ∈ selected (allEntries tags), entry.base + entry.length < 2 ^ 32) := by
  have hfits := h.fits
  have hle := h.tags.le_stop
  obtain ⟨fuel, s', hrun, hmap⟩ := parseTags_of_tagsAt (s := ⟨⟨[], 0⟩, fb, [⟨info, 4⟩]⟩) h.tags hfits
  refine ⟨fuel, s', ?_, ?_⟩
  · rw [multibootParse, if_neg (by simp), stopOf, offset_of_lt hfits, offset_of_lt (by omega)]
    exact hrun
  · rw [hmap]
    exact extracted_iff

/-- A block at `0x9000` whose memory map has one entry: the memory of the given length from 1 MB
on. -/
def oneEntryBlock (length : Nat) : Memory :=
  let m := store32 (store32 (fun _ => 0) 0x9000 56) 0x9008 tagMmap
  let m := store32 (store32 m 0x900C 40) 0x9010 24
  let m := store32 (store32 m 0x9018 0x100000) 0x9020 length
  let m := store32 m 0x9028 mmapAvailable
  store32 (store32 m 0x9030 tagEnd) 0x9034 8

theorem oneEntryBlock_at {length : Nat}
    (h : (oneEntryBlock length).load64 0x9018 = 0x100000 ∧
      (oneEntryBlock length).load64 0x9020 = length ∧
      (oneEntryBlock length).load32 0x9028 = mmapAvailable ∧
      (oneEntryBlock length).load32 0x9000 = 56 ∧
      (oneEntryBlock length).load32 0x9008 = tagMmap ∧
      (oneEntryBlock length).load32 0x900C = 40 ∧ (oneEntryBlock length).load32 0x9010 = 24 ∧
      (oneEntryBlock length).load32 0x9030 = tagEnd) :
    BlockAt (oneEntryBlock length) 0x9000 [.mmap 24 [⟨0x100000, length, mmapAvailable⟩]] := by
  obtain ⟨hbase, hlength, htype, htotal, htag, hsize, hentrySize, hend⟩ := h
  generalize oneEntryBlock length = m at *
  have hsum : 0x9000 + totalSize m 0x9000 = 0x9038 := by
    rw [totalSize, htotal]
  refine ⟨?_, by omega⟩
  rw [hsum]
  refine .cons _ _ _ (.mmap 24 _ htag hsize hentrySize (by decide) fun i entry hi => ?_) ?_
  · cases i with
    | zero =>
        obtain rfl := Option.some.inj hi
        exact ⟨hbase, hlength, htype⟩
    | succ i => cases hi
  · have hnext : 0x9000 + 8 + ((Tag.mmap 24 [⟨0x100000, length, mmapAvailable⟩]).size + 7) / 8 * 8 =
        0x9030 := by
      simp [Tag.size]
    rw [hnext]
    exact .nil _ hend rfl

/-- A machine with 128 MB of memory. -/
theorem memory_map_iff_sample : ∃ fuel s',
    multibootParse fuel (oneEntryBlock 0x7F00000) multiboot2Magic 0x9000 ⟨[], 0⟩
      ⟨0, 0, 0, 0, 0, 0, 0, 0, 0, 0, 0, 0⟩ = .done s' ∧
      (Extracted s'.memoryMap (allEntries [.mmap 24 [⟨0x100000, 0x7F00000, mmapAvailable⟩]]) ↔
        ∀ entry ∈ selected (allEntries [.mmap 24 [⟨0x100000, 0x7F00000, mmapAvailable⟩]]),
          entry.base + entry.length < 2 ^ 32) :=
  memory_map_iff _ _ _ (oneEntryBlock_at (by decide +kernel)) _ _

/-- Memory that ends exactly at 4 GB is missing from `top_of_memory`. -/
theorem memory_map_loses_region : ¬ ∀ (m : Memory) (info : Nat) (tags : List Tag),
    BlockAt m info tags → ∀ map fb fuel s',
      multibootParse fuel m multiboot2Magic info map fb = .done s' →
        Extracted s'.memoryMap (allEntries tags) := by
  intro hclaim
  have hblock : BlockAt (oneEntryBlock 0xFFF00000) 0x9000
      [.mmap 24 [⟨0x100000, 0xFFF00000, mmapAvailable⟩]] := oneEntryBlock_at (by decide +kernel)
  obtain ⟨fuel, s', hrun, hmap⟩ := parseTags_of_tagsAt
    (s := ⟨⟨[], 0⟩, ⟨0, 0, 0, 0, 0, 0, 0, 0, 0, 0, 0, 0⟩, [⟨0x9000, 4⟩]⟩) hblock.tags hblock.fits
  have hparse : multibootParse fuel (oneEntryBlock 0xFFF00000) multiboot2Magic 0x9000 ⟨[], 0⟩
      ⟨0, 0, 0, 0, 0, 0, 0, 0, 0, 0, 0, 0⟩ = .done s' := by
    rw [multibootParse, if_neg (by simp), stopOf, offset_of_lt hblock.fits,
      offset_of_lt (by decide)]
    exact hrun
  have htop := (hclaim _ _ _ hblock _ _ fuel s' hparse).top
  rw [hmap] at htop
  exact absurd htop (by decide)

end Multiboot

end Kumo
