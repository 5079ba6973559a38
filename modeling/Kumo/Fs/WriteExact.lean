import Kumo.Fs.Contents
import Kumo.Mm.KheapFree

/-!
# What `ramfs_write` leaves

The content after a successful `ramfs_write` is the old one with the buffer over it, and a
gap before the buffer is filled with zeros; a write that is refused memory changes nothing.
A write that grows a file copies the old content first and frees the old buffer then. If
the page of the old buffer does not begin with a block, `kfree` takes bytes of other blocks
for headers, and may add to a word of the new buffer. `ramfs_write_iff` says exactly when
that is the case.
-/

namespace Kumo

open Memory Content Transition

variable {s s' : Vfs} {objs : Objects} {e : Entry} {node offset needed p : Nat} {v : VfsNode}
  {buf : List (BitVec 8)}

/-- The node records this content: its size, and the bytes in its buffer. -/
structure Vfs.HoldsContent (s : Vfs) (rn : Nat) (content : List (BitVec 8)) : Prop where
  size : s.field rn sizeOff = content.length
  bytes : bytesAt s.mem (s.field rn dataOff) content.length = content

/-- What `ramfs_write` is for: whenever it returns the length of the buffer, the content is `c`,
filled with zeros up to the offset, with the buffer over it. When it has to allocate memory and
there is none, it returns -1 and the content is the same. -/
structure Vfs.WritesContent (s : Vfs) (node offset : Nat) (buf c : List (BitVec 8)) : Prop where
  written : ∀ s', s.ramfsWrite node offset buf = .ok ((buf.length : Int), s') →
    s'.HoldsContent (s.field node fsDataOff) (overwrite 0 c offset buf) ∧
      s'.field (s.field node fsDataOff) sizeOff = max c.length (offset + buf.length)
  refused : ∀ s1, c.length < offset + buf.length →
    s.kmalloc (offset + buf.length) = .ok (0, s1) →
      ∃ s', s.ramfsWrite node offset buf = .ok (-1, s') ∧ s'.HoldsContent (s.field node fsDataOff) c

/-- The heap when the old buffer of a file is freed: there is a new one at `p`, filled up to the
offset. -/
def Vfs.filledHeap (s : Vfs) (e : Entry) (p offset : Nat) : Kheap :=
  (s.setMem (filledMem s.mem p e.data e.content.length offset)).heap.heap

/-- The write grows the file, and freeing its old buffer changes a byte of the new one before the
offset. -/
def Vfs.FreeSpoils (s : Vfs) (e : Entry) (offset needed : Nat) : Prop :=
  e.content.length < needed ∧ e.data ≠ 0 ∧ ∃ p s1, s.kmalloc needed = .ok (p, s1) ∧ p ≠ 0 ∧
    (s1.filledHeap e p offset).Spoils (e.data - headerSize) p offset

/-! ## Contents in memory -/

/-- A file of the directory records its content. -/
theorem Entry.At.records (ha : e.At objs) (hs : Stores s.heap objs) :
    s.HoldsContent e.node e.content := by
  obtain ⟨next, hobj⟩ := ha.node
  have hat := Vfs.field_ramfsNode hs hobj
  have hsize : s.field e.node sizeOff = e.content.length := hat.size
  have hdata : s.field e.node dataOff = e.data := hat.data
  refine ⟨hsize, ?_⟩
  rw [hdata]
  rcases ha.data with ⟨hnil, _⟩ | ⟨_, hold⟩
  · rw [hnil]
    rfl
  · exact hs.here _ _ hold

/-- Two live blocks of a sound heap, as blocks of the layout. -/
theorem HeapState.Inv.busy_pair {s : HeapState} (h : s.Inv) {d n m : Nat} (hd : s.live d = some n)
    (hp : s.live p = some m) (hne : p ≠ d) : ∃ tiles fl a b k l, s.Holds ⟨tiles, fl, []⟩ ∧
      Layout.Busy ⟨tiles, fl, []⟩ b l ∧ d = b + headerSize ∧
      Layout.Busy ⟨tiles, fl, []⟩ a k ∧ a ≤ p ∧ p + m ≤ a + k ∧ a ≠ b := by
  obtain ⟨⟨tiles, fl, T⟩, hL⟩ := h
  obtain rfl : T = [] := hL.settled
  obtain ⟨b, l, rfl, hb, _⟩ := hL.busy d n hd
  obtain ⟨a, k, rfl, ha, hle⟩ := hL.busy p m hp
  exact ⟨tiles, fl, a, b, k, l, hL, hb, rfl, ha, by omega, by omega,
    fun heq => hne (by rw [heq])⟩

/-- The kernel freed a block: what happened to a range of another block. -/
theorem HeapState.Inv.kfree_keeps_iff {s : HeapState} (h : s.Inv) {d n m k : Nat} {g : Kheap}
    (hd : s.live d = some n) (hp : s.live p = some m) (hne : p ≠ d) (hk : k ≤ m)
    (hrun : s.heap.kfree d = some g) :
    (∀ x, p ≤ x → x < p + k → g.mem x = s.heap.mem x) ↔
      ¬ s.heap.Spoils (d - headerSize) p k := by
  obtain ⟨tiles, fl, a, b, l, j, hl, hb, rfl, ha, hlow, hup, hab⟩ := h.busy_pair hd hp hne
  rw [Nat.add_sub_cancel]
  exact hl.laid.kfree_keeps_iff hb ha hab hlow (by omega) hrun

/-- When `kfree` does not return, it has not merged anything. -/
theorem HeapState.Inv.kfree_none {s : HeapState} (h : s.Inv) {d n m k : Nat}
    (hd : s.live d = some n) (hp : s.live p = some m) (hne : p ≠ d)
    (hrun : s.heap.kfree d = none) : ¬ s.heap.Spoils (d - headerSize) p k := by
  obtain ⟨tiles, fl, a, b, l, j, hl, hb, rfl, ha, hlow, hup, hab⟩ := h.busy_pair hd hp hne
  rw [Nat.add_sub_cancel]
  rintro ⟨prev, hm, -⟩
  rcases hl.laid.kfree_cases hb with ⟨-, hno⟩ | ⟨hsome, -⟩ | ⟨other, -, hsome⟩
  · exact hno prev hm
  · exact nomatch hrun.symm.trans hsome
  · exact nomatch hrun.symm.trans hsome

/-- A page that begins with a block protects the other blocks. -/
theorem HeapState.Inv.not_spoils {s : HeapState} (h : s.Inv) {d n m k : Nat}
    (hd : s.live d = some n) (hp : s.live p = some m) (hne : p ≠ d) (hk : k ≤ m)
    (hpage : s.Block (pageOf (d - headerSize))) : ¬ s.heap.Spoils (d - headerSize) p k := by
  obtain ⟨tiles, fl, a, b, l, j, hl, hb, rfl, ha, hlow, hup, hab⟩ := h.busy_pair hd hp hne
  rw [Nat.add_sub_cancel] at hpage ⊢
  exact hl.laid.not_spoils hb ha hab hlow (by omega) fun _ => (hl.block_iff _).mp hpage

/-! ## The end of `ramfs_write` -/

/-- The node and its wrapper after the assignments, and the new buffer after the last loop. -/
theorem writeData_grown {m : Memory} {rn : Nat} (hrn : rn + ramfsNodeSize ≤ p ∨ p + needed ≤ rn)
    (hnode : node + vfsNodeSize ≤ p ∨ p + needed ≤ node)
    (hapart : node + vfsNodeSize ≤ rn ∨ rn + ramfsNodeSize ≤ node) (hp : p + needed ≤ userMemStart)
    (hneeded : needed = offset + buf.length) {m' : Memory}
    (hm' : m' = ((m.store32 (rn + dataOff) p).store32 (rn + sizeOff) needed).store32
      (node + sizeOff) needed) :
    m'.load32 (rn + dataOff) = p ∧
      (Vfs.writeData m' p offset buf).load32 (rn + dataOff) = p ∧
      (Vfs.writeData m' p offset buf).load32 (rn + sizeOff) = needed ∧
      bytesAt (Vfs.writeData m' p offset buf) p needed = bytesAt m p offset ++ buf := by
  simp only [ramfsNodeSize, vfsNodeSize, userMemStart] at hrn hnode hapart hp
  have hdata : m'.load32 (rn + dataOff) = p := by
    rw [hm', load32_store32_disjoint (by simp only [dataOff, sizeOff]; omega),
      load32_store32_disjoint (by simp only [dataOff, sizeOff]; omega), load32_store32,
      Nat.mod_eq_of_lt (by omega)]
  have hsize : m'.load32 (rn + sizeOff) = needed := by
    rw [hm', load32_store32_disjoint (by simp only [sizeOff]; omega), load32_store32,
      Nat.mod_eq_of_lt (by omega)]
  rw [writeData_eq _ _ (by omega)]
  have hout : ∀ k, k + 4 ≤ 88 →
      (storeBytes m' (p + offset) buf).load32 (rn + k) = m'.load32 (rn + k) :=
    fun k hk => load32_congr fun x h1 h2 => storeBytes_outside (by omega)
  refine ⟨hdata, (hout dataOff (by decide)).trans hdata, (hout sizeOff (by decide)).trans hsize, ?_⟩
  rw [hneeded, bytesAt_add, bytesAt_storeBytes]
  congr 1
  refine bytesAt_congr fun x h1 h2 => ?_
  rw [storeBytes_outside (by omega), hm', store32_outside (by simp only [sizeOff]; omega),
    store32_outside (by simp only [sizeOff]; omega), store32_outside (by simp only [dataOff]; omega)]

/-- The file system with a new heap after the old buffer was freed: the node gets the new buffer and
the new size, and the wrapper the new size. -/
def Vfs.moved (s : Vfs) (data : Nat) (g : Kheap) (rn node p needed : Nat) : Vfs :=
  let s : Vfs := { s with heap := { heap := g, live := Function.update s.heap.live data none } }
  s.setMem (((g.mem.store32 (rn + dataOff) p).store32 (rn + sizeOff) needed).store32
    (node + sizeOff) needed)

/-- A write that grows a file with a buffer, as far as the heap goes. -/
theorem Vfs.ramfsWrite_grown {s1 : Vfs} {rn data size : Nat} (hfs : s.field node fsDataOff = rn)
    (htype : s.field rn typeOff = vfsTypeFile) (hbuf : buf ≠ [])
    (hneeded : (offset + buf.length) % 2 ^ 32 = needed) (hsize : s.field rn sizeOff < needed)
    (hrun : s.kmalloc needed = .ok (p, s1)) (hp : p ≠ 0) (hdata1 : s1.field rn dataOff = data)
    (hsize1 : s1.field rn sizeOff = size) (hdata : data ≠ 0) :
    s.ramfsWrite node offset buf =
      match (s1.setMem (filledMem s1.mem p data size offset)).heap.heap.kfree data with
      | none => .error (s1.setMem (filledMem s1.mem p data size offset))
      | some g =>
          let s2 := s1.moved data g rn node p needed
          .ok (wrap32 buf.length,
            s2.setMem (writeData s2.mem (s2.field rn dataOff) offset buf)) := by
  have hpos : buf.length ≠ 0 := fun h0 => hbuf (List.length_eq_zero_iff.mp h0)
  unfold Vfs.ramfsWrite Vfs.makeRoom Vfs.growData
  simp only [hfs, htype, ne_eq, not_true_eq_false, if_false, hpos, hneeded, if_pos hsize, hrun,
    bind, Except.bind, pure, Except.pure, if_neg hp, hdata1, hsize1]
  have hfill : (s1.setMem (copyBytes s1.mem p data size)).setMem (clearBytes
      (s1.setMem (copyBytes s1.mem p data size)).mem (p + size) (offset - size)) =
      s1.setMem (filledMem s1.mem p data size offset) := rfl
  rw [hfill, Vfs.freeData, if_pos hdata, Vfs.kfree, HeapState.step]
  cases hg : (s1.setMem (filledMem s1.mem p data size offset)).heap.heap.kfree data with
  | none => rfl
  | some g => rfl

/-- A write that grows a file with a buffer, from the allocation of the new buffer on: it returns
just if the old buffer can be freed. -/
theorem Entry.At.grown_run {s1 : Vfs} (ha : e.At objs) (hs : Stores s.heap objs)
    (hv : objs node = some (.vfsNode v)) (hnode : v.fsData = e.node) (hbuf : buf ≠ [])
    (hneeded : needed = offset + buf.length) (h15 : needed + 15 < 2 ^ 32)
    (hgrow : e.content.length < needed) (hdata : e.data ≠ 0)
    (hrun : s.kmalloc needed = .ok (p, s1)) (hp : p ≠ 0) :
    ∃ n, s1.heap.live e.data = some n ∧ s1.heap.live p = some needed ∧ p ≠ e.data ∧
      (s1.setMem (filledMem s1.mem p e.data e.content.length offset)).heap.Inv ∧
      overwrite 0 e.content offset buf =
        bytesAt (s1.filledHeap e p offset).mem p offset ++ buf ∧
      ((s1.filledHeap e p offset).kfree e.data = none →
        ∃ t, s.ramfsWrite node offset buf = .error t) ∧
      ∀ g, (s1.filledHeap e p offset).kfree e.data = some g →
        ∃ t, s.ramfsWrite node offset buf = .ok ((buf.length : Int), t) ∧
          t.field e.node dataOff = p ∧ t.field e.node sizeOff = needed ∧
          bytesAt t.mem p needed = bytesAt g.mem p offset ++ buf := by
  obtain ⟨p', s1', hrun', hsame1, hstores1, -, -, -, hnew⟩ := Vfs.kmalloc_spec hs h15
  rw [hrun] at hrun'
  obtain ⟨rfl, rfl⟩ := Prod.mk.inj (Except.ok.inj hrun')
  obtain ⟨hfresh, hlivep⟩ := hnew hp
  obtain ⟨next, hobj⟩ := ha.node
  obtain ⟨hfs, htype, hsize, -⟩ := ha.fields hs hv hnode
  have hat := Vfs.field_ramfsNode hstores1 hobj
  have hold : objs e.data = some (.data e.content) := by
    rcases ha.data with ⟨_, hzero⟩ | ⟨_, hold⟩
    · exact absurd hzero hdata
    · exact hold
  have hpe : p ≠ e.data := by
    rintro rfl
    rw [hold] at hfresh
    cases hfresh
  obtain ⟨hstores3, hgrown⟩ :=
    ha.filled hstores1 hgrow (show offset ≤ needed by omega) hp hfresh hlivep
  have hwrite := Vfs.ramfsWrite_grown hfs htype hbuf
    (show (offset + buf.length) % 2 ^ 32 = needed by rw [hneeded, Nat.mod_eq_of_lt (by omega)])
    (by rw [hsize]; exact hgrow) hrun hp hat.data hat.size hdata
  have hheap : (s1.setMem (filledMem s1.mem p e.data e.content.length offset)).heap.heap =
    s1.filledHeap e p offset := rfl
  simp only [hheap] at hwrite
  refine ⟨_, hstores1.live _ _ hold, hlivep, hpe, hstores3.inv, ?_, fun hnone => ?_, fun g hg => ?_⟩
  · -- the new content, from what the buffer was filled with
    subst hneeded
    have hlen := hgrown.length
    have htake : (bytesAt (filledMem s1.mem p e.data e.content.length offset) p
        (offset + buf.length)).take offset = bytesAt (s1.filledHeap e p offset).mem p offset := by
      rw [take_bytesAt, Nat.min_eq_left (Nat.le_add_right _ _)]
      rfl
    generalize bytesAt (filledMem s1.mem p e.data e.content.length offset) p
      (offset + buf.length) = g at *
    rw [← hgrown.overwrite_eq hgrow, overwrite_of_lt _ _ (by omega),
      List.drop_eq_nil_of_le (by omega), List.append_nil, htake]
  · rw [hnone] at hwrite
    exact ⟨_, hwrite⟩
  · rw [hg] at hwrite
    -- the three blocks that the end of the call writes to
    have hliven : s1.heap.live e.node = some ramfsNodeSize := hstores1.live _ _ hobj
    have hlivev : s1.heap.live node = some vfsNodeSize := hstores1.live _ _ hv
    have hnp : e.node ≠ p := by
      rintro heq
      rw [heq, hfresh] at hobj
      cases hobj
    have hvp : node ≠ p := by
      rintro heq
      rw [heq, hfresh] at hv
      cases hv
    have hvn : node ≠ e.node := by
      rintro heq
      rw [heq, hobj] at hv
      cases hv
    have hdisjoint := hstores1.inv.safe.disjoint
    have hbound := (hstores1.inv.bounds hlivep).2.2
    obtain ⟨hdata', hfield, hsize', hbytes⟩ := writeData_grown (m := g.mem)
      (hdisjoint _ _ _ _ hliven hlivep hnp) (hdisjoint _ _ _ _ hlivev hlivep hvp)
      (hdisjoint _ _ _ _ hlivev hliven hvn) hbound hneeded rfl
    have hmove : (s1.moved e.data g e.node node p needed).field e.node dataOff = p := hdata'
    have hwrap : wrap32 buf.length = buf.length :=
      wrap32_eq (by omega) (by simp only [userMemStart] at hbound; omega)
    simp only [hmove, hwrap] at hwrite
    exact ⟨_, hwrite, hfield, hsize', hbytes⟩

/-! ## The content after a write -/

/-- Where `kmalloc` returns no block that is too small, it serves a request like one that does not
wrap, unless it refuses it. -/
theorem Vfs.kmalloc_unwrapped (hs : Stores s.heap objs) (h32 : needed < 2 ^ 32)
    (hfits : ∀ p h', s.heap.heap.kmalloc needed = some (p, h') → p ≠ 0 → h'.Fits needed p) :
    needed + 15 < 2 ^ 32 ∨ ∃ s1, s.kmalloc needed = .ok (0, s1) ∧ Stores s1.heap objs := by
  by_cases h15 : needed + 15 < 2 ^ 32
  · exact .inl h15
  · right
    have hsame : s.heap.heap.kmalloc needed = s.heap.heap.kmalloc 0 := by
      rw [Kheap.kmalloc, Kheap.kmalloc, neededSize_wrapped (by omega) h32]
      rfl
    obtain ⟨p, g, hrun0, hzero⟩ := kmalloc_min_ne_zero hs.inv.wf
    have hrefused : p = 0 := by
      by_contra hp
      have hserved := (kmalloc_capacity_iff s.heap.heap hs.inv.wf needed h32).mp
        ⟨p, g, hsame.trans hrun0, hfits p g (hsame.trans hrun0)⟩
      rcases hserved with hsmall | hexhausted
      · exact h15 hsmall
      · exact hp (hzero.mpr hexhausted)
    subst hrefused
    obtain ⟨q, s1, hrun, -, hstores, -⟩ := Vfs.kmalloc_spec hs (show 0 + 15 < 2 ^ 32 by decide)
    have hq : s.kmalloc needed = s.kmalloc 0 := by
      rw [Vfs.kmalloc, Vfs.kmalloc, HeapState.alloc, HeapState.alloc, hsame, hrun0]
      rfl
    have halloc : s.kmalloc 0 = .ok (0, s1) := by
      rw [Vfs.kmalloc, HeapState.alloc, hrun0] at hrun ⊢
      simp only [Option.map_some, Except.ok.injEq, Prod.mk.injEq] at hrun ⊢
      exact ⟨trivial, hrun.2⟩
    exact ⟨s1, hq.trans halloc, hstores⟩

/-- A write that is refused memory. -/
theorem Entry.At.write_refused {s1 : Vfs} (ha : e.At objs) (hs : Stores s.heap objs)
    (hv : objs node = some (.vfsNode v)) (hnode : v.fsData = e.node) (hbuf : buf ≠ [])
    (h32 : offset + buf.length < 2 ^ 32) (hgrow : e.content.length < offset + buf.length)
    (hrun : s.kmalloc (offset + buf.length) = .ok (0, s1)) :
    s.ramfsWrite node offset buf = .ok (-1, s1) := by
  obtain ⟨hfs, htype, hsize, -⟩ := ha.fields hs hv hnode
  have hpos : buf.length ≠ 0 := fun h0 => hbuf (List.length_eq_zero_iff.mp h0)
  unfold Vfs.ramfsWrite Vfs.makeRoom Vfs.growData
  simp only [hfs, htype, hsize, ne_eq, not_true_eq_false, if_false, hpos, Nat.mod_eq_of_lt h32,
    if_pos hgrow, hrun, bind, Except.bind, pure, Except.pure, if_true, Bool.false_eq_true]

/-- The content after a write whose call ends like this. -/
theorem Entry.At.writes_of_run (ha : e.At objs) (hs : Stores s.heap objs)
    (hv : objs node = some (.vfsNode v)) (hnode : v.fsData = e.node) (hbuf : buf ≠ [])
    (h32 : offset + buf.length < 2 ^ 32)
    (hfits : ∀ p h', s.heap.heap.kmalloc (offset + buf.length) = some (p, h') → p ≠ 0 →
      h'.Fits (offset + buf.length) p) :
    s.WritesContent node offset buf e.content ↔
      ∀ s', s.ramfsWrite node offset buf = .ok ((buf.length : Int), s') →
        s'.HoldsContent e.node (overwrite 0 e.content offset buf) := by
  have hfs := (ha.fields hs hv hnode).1
  refine ⟨fun h s' hrun => hfs ▸ (h.written s' hrun).1, fun h => ⟨fun s' hrun => ?_,
    fun s1 hgrow hrun => ⟨s1, ha.write_refused hs hv hnode hbuf h32 hgrow hrun, ?_⟩⟩⟩
  · rw [hfs]
    have hrecords := h s' hrun
    exact ⟨hrecords, hrecords.size.trans (length_overwrite _ _ _ _)⟩
  · rw [hfs]
    rcases Vfs.kmalloc_unwrapped hs h32 hfits with h15 | ⟨s2, hrun2, hstores⟩
    · obtain ⟨p, s2, hrun2, -, hstores, -⟩ := Vfs.kmalloc_spec hs h15
      obtain ⟨rfl, rfl⟩ := Prod.mk.inj (Except.ok.inj (hrun.symm.trans hrun2))
      exact ha.records hstores
    · obtain ⟨-, rfl⟩ := Prod.mk.inj (Except.ok.inj (hrun.symm.trans hrun2))
      exact ha.records hstores

/-- A write that frees no buffer. -/
theorem Entry.At.write_unfreed (ha : e.At objs) (hs : Stores s.heap objs)
    (hv : objs node = some (.vfsNode v)) (hnode : v.fsData = e.node) (hbuf : buf ≠ [])
    (h15 : offset + buf.length + 15 < 2 ^ 32)
    (hkept : e.data = 0 ∨ offset + buf.length ≤ e.content.length)
    (hrun : s.ramfsWrite node offset buf = .ok ((buf.length : Int), s')) :
    s'.HoldsContent e.node (overwrite 0 e.content offset buf) := by
  obtain ⟨n, t, hwrite, -, -, hres⟩ := ha.write hs hv hnode hbuf h15 fun hne hgrow => by
    rcases hkept with hzero | hle
    · exact absurd hzero hne
    · omega
  obtain ⟨hn, rfl⟩ := Prod.mk.inj (Except.ok.inj (hwrite.symm.trans hrun))
  rcases hres with ⟨hrefused, -⟩ | ⟨-, objs', data, hstores, hbecomes⟩
  · omega
  · exact (hbecomes.at ha).records hstores

/-- `ramfs_write` leaves the old content with the buffer over it, or nothing has changed, just if
freeing the old buffer does not spoil the new one. -/
theorem ramfs_write_iff (hs : Stores s.heap objs) (ha : e.At objs)
    (hv : objs node = some (.vfsNode v)) (hnode : v.fsData = e.node) (hbuf : buf ≠ [])
    (h32 : offset + buf.length < 2 ^ 32)
    (hfits : ∀ p h', s.heap.heap.kmalloc (offset + buf.length) = some (p, h') → p ≠ 0 →
      h'.Fits (offset + buf.length) p) :
    s.WritesContent node offset buf e.content ↔
      ¬ s.FreeSpoils e offset (offset + buf.length) := by
  rw [ha.writes_of_run hs hv hnode hbuf h32 hfits]
  have hle := ha.content_le hs
  simp only [userMemStart] at hle
  by_cases hgrow : e.content.length < offset + buf.length
  case neg =>
    refine iff_of_true (fun s' hrun => ?_) fun hspoils => hgrow hspoils.1
    exact ha.write_unfreed hs hv hnode hbuf (by omega) (.inr (by omega)) hrun
  rcases Vfs.kmalloc_unwrapped hs h32 hfits with h15 | ⟨s1, hrun, -⟩
  case inr =>
    -- the memory is refused
    have hwrite := ha.write_refused hs hv hnode hbuf h32 hgrow hrun
    refine iff_of_true (fun s' hrun' => ?_) ?_
    · have hn := (Prod.mk.inj (Except.ok.inj (hwrite.symm.trans hrun'))).1
      omega
    · rintro ⟨-, -, p, s2, hrun2, hp, -⟩
      exact hp (Prod.mk.inj (Except.ok.inj (hrun2.symm.trans hrun))).1
  by_cases hdata : e.data = 0
  case pos =>
    refine iff_of_true (fun s' hrun => ?_) fun hspoils => hspoils.2.1 hdata
    exact ha.write_unfreed hs hv hnode hbuf h15 (.inl hdata) hrun
  obtain ⟨p, s1, hrun, -⟩ := Vfs.kmalloc_spec hs h15
  have hspoils : s.FreeSpoils e offset (offset + buf.length) ↔
      p ≠ 0 ∧ (s1.filledHeap e p offset).Spoils (e.data - headerSize) p offset := by
    constructor
    · intro hspoils
      obtain ⟨-, -, q, s2, hrun2, hp, h⟩ := hspoils
      obtain ⟨rfl, rfl⟩ := Prod.mk.inj (Except.ok.inj (hrun2.symm.trans hrun))
      exact ⟨hp, h⟩
    · intro h
      exact ⟨hgrow, hdata, p, s1, hrun, h.1, h.2⟩
  rw [hspoils]
  by_cases hp : p = 0
  · subst hp
    have hwrite := ha.write_refused hs hv hnode hbuf h32 hgrow hrun
    refine iff_of_true (fun s' hrun' => ?_) fun h => h.1 rfl
    have hn := (Prod.mk.inj (Except.ok.inj (hwrite.symm.trans hrun'))).1
    omega
  -- the old buffer is freed after the new one was filled
  obtain ⟨n, hlived, hlivep, hpd, hinv, hnew, hnone, hsome⟩ :=
    ha.grown_run hs hv hnode hbuf rfl h15 hgrow hdata hrun hp
  cases hfree : (s1.filledHeap e p offset).kfree e.data with
  | none =>
      obtain ⟨t, herror⟩ := hnone hfree
      refine iff_of_true (fun s' hrun' => ?_) fun h => ?_
      · cases herror.symm.trans hrun'
      exact hinv.kfree_none hlived hlivep hpd hfree h.2
  | some g =>
      obtain ⟨t, hwrite, hfield, hsize, hbytes⟩ := hsome g hfree
      have hkeeps := hinv.kfree_keeps_iff (k := offset) hlived hlivep hpd
        (Nat.le_add_right _ _) hfree
      have hkept : bytesAt g.mem p offset = bytesAt (s1.filledHeap e p offset).mem p offset ↔
          ¬ (s1.filledHeap e p offset).Spoils (e.data - headerSize) p offset :=
        bytesAt_eq_iff.trans hkeeps
      have hrecords : t.HoldsContent e.node (overwrite 0 e.content offset buf) ↔
          bytesAt g.mem p offset = bytesAt (s1.filledHeap e p offset).mem p offset := by
        have hlen : (overwrite 0 e.content offset buf).length = offset + buf.length := by
          rw [length_overwrite, Nat.max_eq_right (Nat.le_of_lt hgrow)]
        have hbuffer : bytesAt t.mem (t.field e.node dataOff)
            (overwrite 0 e.content offset buf).length = bytesAt g.mem p offset ++ buf := by
          rw [hfield, hlen, hbytes]
        refine ⟨fun h => ?_, fun h => ⟨hsize.trans hlen.symm, ?_⟩⟩
        · exact List.append_cancel_right ((hbuffer.symm.trans h.bytes).trans hnew)
        · rw [hbuffer, hnew, h]
      constructor
      · intro h hspoil
        exact hkept.mp (hrecords.mp (h t hwrite)) hspoil.2
      · intro h s' hrun'
        obtain ⟨-, rfl⟩ := Prod.mk.inj (Except.ok.inj (hwrite.symm.trans hrun'))
        exact hrecords.mpr (hkept.mpr fun hspoil => h ⟨hp, hspoil⟩)

/-- A file whose old buffer lies in a page that begins with a block: nothing is spoilt. -/
theorem Entry.At.not_freeSpoils (hs : Stores s.heap objs) (ha : e.At objs)
    (hoff : offset ≤ needed) (h15 : needed + 15 < 2 ^ 32)
    (hpage : s.heap.Block (pageOf (e.data - headerSize))) : ¬ s.FreeSpoils e offset needed := by
  rintro ⟨hgrow, hdata, p, s1, hrun, hp, hspoils⟩
  obtain ⟨p', s1', hrun', -, hstores1, -, -, hblock, hnew⟩ := Vfs.kmalloc_spec hs h15
  obtain ⟨rfl, rfl⟩ := Prod.mk.inj (Except.ok.inj (hrun'.symm.trans hrun))
  obtain ⟨hfresh, hlivep⟩ := hnew hp
  have hold : objs e.data = some (.data e.content) := by
    rcases ha.data with ⟨_, hzero⟩ | ⟨_, hold⟩
    · exact absurd hzero hdata
    · exact hold
  have hpe : p' ≠ e.data := by
    rintro rfl
    rw [hold] at hfresh
    cases hfresh
  obtain ⟨hstores3, -⟩ := ha.filled hstores1 hgrow hoff hp hfresh hlivep
  have hout : ∀ x, x < p' ∨ p' + needed ≤ x →
      filledMem s1'.mem p' e.data e.content.length offset x = s1'.heap.heap.mem x :=
    fun x hx => filledMem_outside (Nat.le_of_lt hgrow) hoff hx
  have hblock3 := ((hstores1.inv.setMem hlivep hout).2 _).mpr (hblock _ hpage)
  exact hstores3.inv.not_spoils (hstores1.live _ _ hold) hlivep hpe hoff hblock3 hspoils

/-! ## A file behind a page boundary -/

/-- A client stores the bytes of a word. -/
def wordEvents (ptr off v : Nat) : List HeapEvent :=
  (List.range 4).map fun i => .write ptr (off + i) (BitVec.ofNat 8 (v / 256 ^ i))

/-- The blocks of a file of 24 bytes. A block across a page boundary lies before them, and is
free. -/
def fileEvents (content : List (BitVec 8)) : List HeapEvent :=
  [.kmalloc 4064, .kmalloc 40, .kmalloc 88, .kmalloc 80, .kmalloc 24, .kfree 0x100FF0,
    .write 0x101020 0 0x61, .write 0x101020 1 0] ++
  wordEvents 0x101020 typeOff vfsTypeFile ++ wordEvents 0x101020 sizeOff 24 ++
  wordEvents 0x101020 dataOff 0x1010D8 ++ wordEvents 0x101080 typeOff vfsTypeFile ++
  wordEvents 0x101080 fsDataOff 0x101020 ++
  content.zipIdx.map fun b => .write 0x1010D8 b.2 b.1

/-- The machine after them. -/
def fileMachine (content : List (BitVec 8)) : Vfs where
  heap := (run HeapState.step (HeapState.init (fun _ => 0) HeapState.samplePmm)
    (fileEvents content)).getD (HeapState.init (fun _ => 0) HeapState.samplePmm)
  gRoot := 0
  current := 0
  refused := false

/-- The file. -/
def fileEntry (content : List (BitVec 8)) : Entry where
  name := [0x61]
  node := 0x101020
  data := 0x1010D8
  content := content

/-- The file's node, its wrapper and its buffer. -/
def fileObjects (content : List (BitVec 8)) (p : Nat) : Option FsObject :=
  if p = 0x101020 then some ((fileEntry content).object 0)
  else if p = 0x101080 then some (.vfsNode ⟨vfsTypeFile, 0x101020⟩)
  else if p = 0x1010D8 then some (.data content)
  else none

/-- These blocks hold the file, where the run goes as it should. -/
theorem fileMachine_stores {content : List (BitVec 8)}
    (hclient : Meets HeapState.step HeapState.Client
      (HeapState.init (fun _ => 0) HeapState.samplePmm) (fileEvents content))
    (hpage : Meets HeapState.step HeapState.PageStart
      (HeapState.init (fun _ => 0) HeapState.samplePmm) (fileEvents content))
    (hlive : (fileMachine content).heap.live 0x101020 = some ramfsNodeSize ∧
      (fileMachine content).heap.live 0x101080 = some vfsNodeSize ∧
      (fileMachine content).heap.live 0x1010D8 = some content.length)
    (hnode : ((fileEntry content).object 0).Here (fileMachine content).mem 0x101020)
    (hwrapper : VfsNode.At (fileMachine content).mem 0x101080 ⟨vfsTypeFile, 0x101020⟩)
    (hbytes : bytesAt (fileMachine content).mem 0x1010D8 content.length = content) :
    Stores (fileMachine content).heap (fileObjects content) := by
  obtain ⟨-, final, hrun, hinv⟩ := along_of_invariant
    (I := HeapState.Inv) (Q := fun _ _ _ => True) (fun s e hinv hcond => by
      obtain ⟨s', hstep, hinv', -⟩ := HeapState.Inv.step hinv hcond.1 hcond.2
      exact ⟨s', hstep, hinv', trivial⟩)
    (HeapState.init_inv (fun _ => 0) HeapState.samplePmm_wf) (hclient.and hpage)
  have hfinal : (fileMachine content).heap = final := by
    rw [fileMachine, hrun, Option.getD_some]
  refine ⟨hfinal ▸ hinv, fun p o hp => ?_, fun p o hp => ?_⟩
  all_goals
    unfold fileObjects at hp
    split at hp
    · next heq =>
        subst heq
        obtain rfl := Option.some.inj hp
        first
        | exact hlive.1
        | exact hnode
    · split at hp
      · next heq =>
          subst heq
          obtain rfl := Option.some.inj hp
          first
          | exact hlive.2.1
          | exact hwrapper
      · split at hp
        · next heq =>
            subst heq
            obtain rfl := Option.some.inj hp
            first
            | exact hlive.2.2
            | exact hbytes
        · cases hp

/-- Content whose bytes at the page boundary look like the header of a free block. -/
def headerContent : List (BitVec 8) := List.replicate 16 7 ++ [0xD0, 0, 0, 0, 1, 0, 0, 0]

theorem headerContent_stores : Stores (fileMachine headerContent).heap (fileObjects headerContent) :=
  fileMachine_stores (by decide +kernel) (by decide +kernel) (by decide +kernel)
    ⟨⟨by decide +kernel, by decide +kernel, by decide +kernel, by decide +kernel⟩,
      by decide +kernel, by decide +kernel, by decide +kernel, by decide +kernel, by decide +kernel⟩
    ⟨by decide +kernel, by decide +kernel⟩ (by decide +kernel)

/-- The file at its place. -/
theorem fileEntry_at {content : List (BitVec 8)} (hne : content ≠ []) :
    (fileEntry content).At (fileObjects content) :=
  ⟨⟨0, rfl⟩, .inr ⟨hne, rfl⟩⟩

/-- A block of a heap that is in order has room for a request that does not wrap. -/
theorem Kheap.Wf.fits {h h' : Kheap} (hwf : h.Wf) (h15 : needed + 15 < 2 ^ 32)
    (hrun : h.kmalloc needed = some (p, h')) (hp : p ≠ 0) : h'.Fits needed p := by
  obtain ⟨tiles, fl, hl⟩ := hwf
  obtain ⟨q, g, tiles', fl', hrun', hl', ha⟩ := hl.kmalloc h15
  obtain ⟨rfl, rfl⟩ := Prod.mk.inj (Option.some.inj (hrun'.symm.trans hrun))
  exact (ha.fits hl' hp).1

/-- The specification for a byte at the end of that file. -/
theorem ramfs_write_iff_sample :
    (fileMachine headerContent).WritesContent 0x101080 24 [1] headerContent ↔
      ¬ (fileMachine headerContent).FreeSpoils (fileEntry headerContent) 24 (24 + 1) :=
  ramfs_write_iff (v := ⟨vfsTypeFile, 0x101020⟩) headerContent_stores
    (fileEntry_at (by decide)) rfl rfl (by decide) (by decide)
    fun _ _ hrun hp => headerContent_stores.inv.wf.fits (by decide) hrun hp

/-- Appending a byte to that file adds to a word of its content. -/
theorem ramfs_write_spoils : ¬ ∀ (s : Vfs) (objs : Objects) (e : Entry) (node offset : Nat)
    (v : VfsNode) (buf : List (BitVec 8)), Stores s.heap objs → e.At objs →
    objs node = some (.vfsNode v) → v.fsData = e.node → buf ≠ [] → offset + buf.length < 2 ^ 32 →
    (∀ p h', s.heap.heap.kmalloc (offset + buf.length) = some (p, h') → p ≠ 0 →
      h'.Fits (offset + buf.length) p) →
    s.WritesContent node offset buf e.content := by
  intro hclaim
  have hwrites := hclaim _ _ (fileEntry headerContent) 0x101080 24 ⟨vfsTypeFile, 0x101020⟩ [1]
    headerContent_stores (fileEntry_at (by decide)) rfl rfl (by decide) (by decide)
    fun _ _ hrun hp => headerContent_stores.inv.wf.fits (by decide) hrun hp
  have hvalue : (match (fileMachine headerContent).ramfsWrite 0x101080 24 [1] with
      | .ok (n, s') => some (n, bytesAt s'.mem (s'.field 0x101020 dataOff) 25)
      | .error _ => none) =
      some ((1 : Int), List.replicate 16 7 ++ [0, 0xF0, 0, 0, 1, 0, 0, 0, 1]) := by
    decide +kernel
  cases hrun : (fileMachine headerContent).ramfsWrite 0x101080 24 [1] with
  | error t =>
      rw [hrun] at hvalue
      cases hvalue
  | ok r =>
      obtain ⟨n, s'⟩ := r
      rw [hrun] at hvalue
      obtain ⟨rfl, hbytes⟩ := Prod.mk.inj (Option.some.inj hvalue)
      have hnode : (fileMachine headerContent).field 0x101080 fsDataOff = 0x101020 := by
        decide +kernel
      have hrecords := (hwrites.written s' hrun).1.bytes
      rw [hnode] at hrecords
      exact absurd (hbytes.symm.trans hrecords) (by decide +kernel)

end Kumo
