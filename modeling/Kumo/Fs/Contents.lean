import Kumo.Fs.Directory
import Kumo.Lib.Content

/-!
# Reading and writing a file

`ramfs_read` delivers a slice of the content of an entry, and `ramfs_write` overwrites it. A
write that does not fit moves the content to a larger block and frees the old one; all
wrappers of the node see the move, as the pointer is in the node.
-/

namespace Kumo

open Memory Content

variable {s s' : Vfs} {objs objs' : Objects} {head gRoot rdir node offset size : Nat}
  {entries : List Entry} {e e' : Entry} {v : VfsNode} {buf : List (BitVec 8)}

/-! ## Replacing an entry -/

/-- The entries with the one of the same node replaced. -/
def setEntry (entries : List Entry) (e' : Entry) : List Entry :=
  entries.map fun e => if e.node = e'.node then e' else e

theorem EntryList.set (h : EntryList objs head entries)
    (hold : ∀ e ∈ entries, e.node ≠ e'.node → objs' e.node = objs e.node)
    (hnew : ∀ e ∈ entries, e.node = e'.node → ∀ next, objs e.node = some (e.object next) →
      objs' e.node = some (e'.object next)) : EntryList objs' head (setEntry entries e') := by
  induction entries generalizing head with
  | nil => exact h
  | cons e entries ih =>
      obtain ⟨hhead, next, hnode, hrest⟩ := h
      have hrest' := ih hrest (fun x hx => hold x (List.mem_cons_of_mem _ hx))
        fun x hx => hnew x (List.mem_cons_of_mem _ hx)
      rw [setEntry, List.map_cons]
      by_cases he : e.node = e'.node
      · rw [if_pos he]
        refine ⟨hhead.trans he, next, ?_, hrest'⟩
        rw [← he]
        exact hnew e List.mem_cons_self he next hnode
      · rw [if_neg he]
        refine ⟨hhead, next, ?_, hrest'⟩
        rw [hold e List.mem_cons_self he]
        exact hnode

theorem mem_setEntry {x : Entry} (hx : x ∈ setEntry entries e') :
    x = e' ∨ (x ∈ entries ∧ x.node ≠ e'.node) := by
  obtain ⟨y, hy, rfl⟩ := List.mem_map.mp hx
  split
  · exact .inl rfl
  · next hne => exact .inr ⟨hy, hne⟩

/-- Entries with different nodes are different, and conversely. -/
theorem Directory.eq_of_node (hd : Directory objs gRoot rdir entries) {x : Entry}
    (hx : x ∈ entries) (he : e ∈ entries) (h : x.node = e.node) : x = e :=
  List.inj_on_of_nodup_map hd.nodes hx he h

theorem Directory.eq_of_name (hd : Directory objs gRoot rdir entries) {x : Entry}
    (hx : x ∈ entries) (he : e ∈ entries) (h : x.name = e.name) : x = e :=
  List.inj_on_of_nodup_map hd.names hx he h

/-- The directory after the content of a file changed. -/
theorem Directory.set (hd : Directory objs gRoot rdir entries) (h0 : objs 0 = none)
    (he : e ∈ entries) (hnode : e'.node = e.node) (hname : e'.name = e.name)
    (hobj : ∀ next, objs e.node = some (e.object next) → objs' e.node = some (e'.object next))
    (hdata : e'.DataAt objs') (hfresh : e'.data = e.data ∨ objs e'.data = none)
    (hold : ∀ p o, objs p = some o → p ≠ e.node → p ≠ e.data → objs' p = some o) :
    Directory objs' gRoot rdir (setEntry entries e') := by
  obtain ⟨n, hn, htype, hlist⟩ := hd.children
  obtain ⟨next, hobje⟩ := hlist.node he
  have hne0 : ∀ p o, objs p = some o → p ≠ 0 := by
    rintro p o hp rfl
    rw [h0] at hp
    cases hp
  -- the block of this file holds data, and nothing else of the directory
  have hblock : ∀ p o, objs p = some o → (∀ bytes, o ≠ .data bytes) → p ≠ e.data := by
    rintro p o hp ho rfl
    rcases hd.data e he with ⟨_, hzero⟩ | ⟨_, hd'⟩
    · exact hne0 _ _ hp hzero
    · rw [hd'] at hp
      exact ho _ (Option.some.inj hp).symm
  have hother : ∀ x ∈ entries, x.node ≠ e.node → x.data ≠ 0 → x.data ≠ e.data := by
    intro x hx hne hx0 heq
    exact hne (congrArg Entry.node (hd.owners x hx e he heq hx0))
  constructor
  case root =>
    refine hold _ _ hd.root ?_ (hblock _ _ hd.root (by simp))
    intro heq
    have hroot := hd.root
    rw [heq, hobje] at hroot
    cases hroot
  case children =>
    refine ⟨n, hold _ _ hn (Ne.symm (hd.node_ne he)) (hblock _ _ hn (by simp)), htype,
      hlist.set (fun x hx hne => ?_) fun x hx heq next' hx' => ?_⟩
    · obtain ⟨next', hx'⟩ := hlist.node hx
      rw [hx', hold _ _ hx' (by rw [← hnode]; exact hne) (hblock _ _ hx' (by simp [Entry.object]))]
    · obtain rfl := hd.eq_of_node hx he (heq.trans hnode)
      exact hobj next' hx'
  case data =>
    intro x hx
    rcases mem_setEntry hx with rfl | ⟨hx, hne⟩
    · exact hdata
    · rw [hnode] at hne
      refine (hd.data x hx).imp id fun h => ⟨h.1, hold _ _ h.2 ?_ ?_⟩
      · intro heq
        rw [heq, hobje] at h
        exact absurd h.2 (by simp [Entry.object])
      · exact hother x hx hne (hne0 _ _ h.2)
  case nodes =>
    have hsame : (setEntry entries e').map Entry.node = entries.map Entry.node := by
      rw [setEntry, List.map_map]
      refine List.map_congr_left fun x _ => ?_
      simp only [Function.comp]
      split
      · next heq => exact heq.symm
      · rfl
    rw [hsame]
    exact hd.nodes
  case names =>
    have hsame : (setEntry entries e').map Entry.name = entries.map Entry.name := by
      rw [setEntry, List.map_map]
      refine List.map_congr_left fun x hx => ?_
      simp only [Function.comp]
      split
      · next heq => rw [hname, hd.eq_of_node hx he (heq.trans hnode)]
      · rfl
    rw [hsame]
    exact hd.names
  case owners =>
    -- a block that is not the old one of this file is new, so no other file has it
    have hnew : ∀ x ∈ entries, x.node ≠ e.node → x.data ≠ 0 → x.data ≠ e'.data := by
      intro x hx hne hx0 heq
      rcases hfresh with hsame | hnone
      · exact hother x hx hne hx0 (heq.trans hsame)
      · rcases hd.data x hx with ⟨_, hzero⟩ | ⟨_, hd'⟩
        · exact hx0 hzero
        · rw [heq, hnone] at hd'
          cases hd'
    intro x hx y hy heq hx0
    rcases mem_setEntry hx with hxe | ⟨hx', hxne⟩
    · rcases mem_setEntry hy with hye | ⟨hy', hyne⟩
      · rw [hxe, hye]
      · rw [hxe] at heq hx0
        rw [hnode] at hyne
        exact absurd heq.symm (hnew y hy' hyne (by rw [← heq]; exact hx0))
    · rcases mem_setEntry hy with hye | ⟨hy', hyne⟩
      · rw [hye] at heq
        rw [hnode] at hxne
        exact absurd heq (hnew x hx' hxne hx0)
      · exact hd.owners x hx' y hy' heq hx0

/-! ## Files -/

/-- A file: its node, and where its content lies. -/
structure Entry.At (objs : Objects) (e : Entry) : Prop where
  node : ∃ next, objs e.node = some (e.object next)
  data : e.DataAt objs

theorem Directory.at (hd : Directory objs gRoot rdir entries) (he : e ∈ entries) : e.At objs :=
  ⟨hd.node he, hd.data e he⟩

/-- What a call does to the objects of the other files and of the rest. -/
def OthersKept (objs objs' : Objects) (e : Entry) : Prop :=
  ∀ p o, objs p = some o → p ≠ e.node → p ≠ e.data → objs' p = some o

/-- The content of a file changed, and perhaps moved to a new block. -/
structure Entry.Becomes (objs objs' : Objects) (e e' : Entry) : Prop where
  node : e'.node = e.node
  name : e'.name = e.name
  object : ∀ next, objs e.node = some (e.object next) → objs' e.node = some (e'.object next)
  data : e'.DataAt objs'
  place : e'.data = e.data ∨ objs e'.data = none
  others : OthersKept objs objs' e

/-- The file after the change. -/
theorem Entry.Becomes.at (h : e.Becomes objs objs' e') (ha : e.At objs) : e'.At objs' := by
  obtain ⟨next, hobj⟩ := ha.node
  exact ⟨⟨next, by rw [h.node]; exact h.object next hobj⟩, h.data⟩

/-- Two changes of one file. -/
theorem Entry.Becomes.trans {objs'' : Objects} {e'' : Entry} (h : e.Becomes objs objs' e')
    (h' : e'.Becomes objs' objs'' e'') (hplace : e''.data = e'.data) : e.Becomes objs objs'' e'' := by
  refine ⟨h'.node.trans h.node, h'.name.trans h.name, fun next hobj => ?_, h'.data, ?_,
    fun p o hp hpn hpd => ?_⟩
  · rw [← h.node]
    exact h'.object next (by rw [h.node]; exact h.object next hobj)
  · rw [hplace]
    exact h.place
  · refine h'.others p o (h.others p o hp hpn hpd) (by rw [h.node]; exact hpn) ?_
    rcases h.place with hsame | hnone
    · rw [hsame]
      exact hpd
    · rintro rfl
      rw [hnone] at hp
      cases hp

/-- The directory after such a change. -/
theorem Directory.becomes (hd : Directory objs gRoot rdir entries) (h0 : objs 0 = none)
    (he : e ∈ entries) (h : e.Becomes objs objs' e') :
    Directory objs' gRoot rdir (setEntry entries e') :=
  hd.set h0 he h.node h.name h.object h.data h.place h.others

namespace Entry.At

/-- The content of a file is in the kernel zone. -/
theorem content_le (ha : e.At objs) (hs : Stores s.heap objs) :
    e.data + e.content.length ≤ userMemStart := by
  rcases ha.data with ⟨hnil, hzero⟩ | ⟨_, hdata⟩
  · rw [hnil, hzero]
    exact Nat.zero_le _
  · exact (hs.bounds hdata).2.2

/-- The block of a file holds data and nothing else. -/
theorem ne_data (ha : e.At objs) (h0 : objs 0 = none) {p : Nat} {o : FsObject}
    (hp : objs p = some o) (ho : ∀ bytes, o ≠ .data bytes) : p ≠ e.data := by
  rintro rfl
  rcases ha.data with ⟨_, hzero⟩ | ⟨_, hdata⟩
  · rw [hzero, h0] at hp
    cases hp
  · rw [hdata] at hp
    exact ho _ (Option.some.inj hp).symm

/-- The fields of the node behind a wrapper. -/
theorem fields (ha : e.At objs) (hs : Stores s.heap objs) (hv : objs node = some (.vfsNode v))
    (hnode : v.fsData = e.node) :
    s.field node fsDataOff = e.node ∧ s.field e.node typeOff = vfsTypeFile ∧
      s.field e.node sizeOff = e.content.length ∧ s.field e.node dataOff = e.data := by
  obtain ⟨next, hobj⟩ := ha.node
  have hat := Vfs.field_ramfsNode hs hobj
  exact ⟨(Vfs.field_vfsNode hs hv).2.trans hnode, hat.type, hat.size, hat.data⟩

/-- What changes with the content of a file is its node and its block. -/
theorem rest_kept (ha : e.At objs) (h0 : objs 0 = none) (hothers : OthersKept objs objs' e) :
    ∀ p o, objs p = some o → (∀ n, o ≠ .ramfsNode n) → (∀ b, o ≠ .data b) →
      objs' p = some o := by
  intro p o hp hn hb
  refine hothers p o hp ?_ (ha.ne_data h0 hp hb)
  rintro rfl
  obtain ⟨next, hobj⟩ := ha.node
  rw [hobj] at hp
  exact hn _ (Option.some.inj hp).symm

end Entry.At

/-! ## Reading -/

/-- A wrapper of a file node, with the block of the file and what it holds. -/
structure Vfs.FileNode (s : Vfs) (node data : Nat) (content : List (BitVec 8)) : Prop where
  type : s.field (s.field node fsDataOff) typeOff = vfsTypeFile
  size : s.field (s.field node fsDataOff) sizeOff = content.length
  buffer : s.field (s.field node fsDataOff) dataOff = data
  held : bytesAt s.mem data content.length = content
  block : content ≠ [] → data ≠ 0
  inZone : data + content.length ≤ userMemStart

/-- A wrapper of a file. -/
theorem Entry.At.fileNode (ha : e.At objs) (hs : Stores s.heap objs)
    (hv : objs node = some (.vfsNode v)) (hnode : v.fsData = e.node) :
    s.FileNode node e.data e.content := by
  obtain ⟨hfs, htype, hsize, hdata⟩ := ha.fields hs hv hnode
  refine ⟨by rw [hfs, htype], by rw [hfs, hsize], by rw [hfs, hdata], ?_, fun hne => ?_,
    ha.content_le hs⟩
  · rcases ha.data with ⟨hnil, _⟩ | ⟨_, hobj⟩
    · rw [hnil]
      rfl
    · exact hs.here _ _ hobj
  · rcases ha.data with ⟨hnil, _⟩ | ⟨_, hobj⟩
    · exact absurd hnil hne
    · exact hs.ne_zero hobj

/-- `ramfs_read` delivers a slice of the content. -/
theorem Vfs.FileNode.read {data : Nat} {content : List (BitVec 8)}
    (h : s.FileNode node data content) (h32 : offset + size < 2 ^ 32) :
    s.ramfsRead node offset size =
      (((slice content offset size).length : Int), slice content offset size) := by
  have hle := h.inZone
  unfold Vfs.ramfsRead
  simp only [h.type, h.size, h.buffer, ne_eq, not_true_eq_false, if_false]
  by_cases hend : data = 0 ∨ content.length ≤ offset
  · -- an empty file has length 0, so its reads are at the end as well
    have hlen : content.length ≤ offset := by
      rcases hend with hzero | hlen
      · by_contra hlen
        have hne : content ≠ [] := fun hnil => by simp [hnil] at hlen
        exact h.block hne hzero
      · exact hlen
    rw [if_pos hend, slice_of_le _ _ hlen]
    rfl
  · have hcount : (if content.length < (offset + size) % 2 ^ 32 then content.length - offset
        else size) = (slice content offset size).length := by
      rw [Nat.mod_eq_of_lt h32, length_slice]
      split <;> omega
    rw [if_neg hend, hcount]
    set k := (slice content offset size).length with hk
    rw [length_slice] at hk
    have hslice : slice content offset size = bytesAt s.mem (data + offset) k := by
      calc slice content offset size
          = ((bytesAt s.mem data content.length).drop offset).take size := by
            rw [h.held, slice]
        _ = bytesAt s.mem (data + offset) k := by
            rw [drop_bytesAt _ _ (by omega), take_bytesAt, hk]
    have hmod : ∀ i ∈ List.range k, s.mem (data + (offset + i) % 2 ^ 32) =
        s.mem (data + offset + i) := by
      intro i hi
      rw [List.mem_range] at hi
      rw [Nat.mod_eq_of_lt (by omega), Nat.add_assoc]
    rw [List.map_congr_left hmod, map_range_eq_bytesAt, hslice,
      wrap32_eq (by omega) (by simp only [userMemStart] at hle; omega)]

theorem Entry.At.read (ha : e.At objs) (hs : Stores s.heap objs)
    (hv : objs node = some (.vfsNode v)) (hnode : v.fsData = e.node)
    (h32 : offset + size < 2 ^ 32) :
    s.ramfsRead node offset size =
      (((slice e.content offset size).length : Int), slice e.content offset size) :=
  (ha.fileNode hs hv hnode).read h32

/-! ## Writing -/

/-- Below `2 ^ 32` the loop of `ramfs_write` stores consecutive bytes. -/
theorem writeData_eq (m : Memory) (data : Nat) (h : offset + buf.length ≤ 2 ^ 32) :
    Vfs.writeData m data offset buf = storeBytes m (data + offset) buf := by
  induction buf generalizing m offset with
  | nil => rfl
  | cons b buf ih =>
      simp only [List.length_cons] at h
      rw [Vfs.writeData, storeBytes]
      cases buf with
      | nil => rfl
      | cons c buf =>
          simp only [List.length_cons] at h
          rw [Nat.mod_eq_of_lt (by omega), ih _ (by simp only [List.length_cons]; omega),
            Nat.add_assoc]

/-- Storing bytes inside the content of a file. -/
theorem Entry.At.storeData (ha : e.At objs) (hs : Stores s.heap objs) (hbuf : buf ≠ [])
    (hfit : offset + buf.length ≤ e.content.length) :
    ∃ objs', Stores (s.setMem (Vfs.writeData s.mem e.data offset buf)).heap objs' ∧
      s.heap.Grows (s.setMem (Vfs.writeData s.mem e.data offset buf)).heap ∧
      e.Becomes objs objs' { e with content := overwrite 0 e.content offset buf } := by
  have hne : e.content ≠ [] := by
    intro hnil
    rw [hnil, List.length_nil] at hfit
    exact hbuf (List.length_eq_zero_iff.mp (by omega))
  have hobj : objs e.data = some (.data e.content) := by
    rcases ha.data with ⟨hnil, _⟩ | ⟨_, hobj⟩
    · exact absurd hnil hne
    · exact hobj
  have hle := ha.content_le hs
  simp only [userMemStart] at hle
  have hbytes : bytesAt s.mem e.data e.content.length = e.content := hs.here _ _ hobj
  have hlen : (overwrite 0 e.content offset buf).length = e.content.length := by
    rw [length_overwrite]
    omega
  rw [writeData_eq _ _ (by omega)]
  have hhere : FsObject.Here (storeBytes s.mem (e.data + offset) buf) e.data
      (.data (overwrite 0 e.content offset buf)) := by
    show bytesAt _ _ (overwrite 0 e.content offset buf).length = _
    rw [hlen, bytesAt_storeBytes_inside _ _ _ _ _ hfit, hbytes, overwrite_of_lt _ _ (by omega)]
  have hsize : (FsObject.data (overwrite 0 e.content offset buf)).size =
      (FsObject.data e.content).size := hlen
  have hout : ∀ x, x < e.data ∨ e.data + (FsObject.data e.content).size ≤ x →
      storeBytes s.mem (e.data + offset) buf x = s.mem x := by
    intro x hx
    have hlength : (FsObject.data e.content).size = e.content.length := rfl
    rw [hlength] at hx
    exact storeBytes_outside (by omega)
  refine ⟨_, Vfs.assign _ hs hobj hsize hout hhere, Vfs.assign_grows hs hobj hout, rfl, rfl,
    fun next hnext => ?_, .inr ⟨fun hnil => ?_, Function.update_self ..⟩, .inl rfl,
    fun p o hp _ hpd => ?_⟩
  · rw [Function.update_of_ne (ha.ne_data hs.zero hnext (by simp [Entry.object])), hnext,
      Entry.object, Entry.object, hlen]
  · have hnil : overwrite 0 e.content offset buf = [] := hnil
    rw [hnil] at hlen
    exact hne (List.length_eq_zero_iff.mp hlen.symm)
  · rw [Function.update_of_ne hpd, hp]

/-- The content that `growData` leaves: the old content, zeros up to the offset, and as many bytes
as were asked for. -/
structure Grown (content : List (BitVec 8)) (offset needed : Nat) (g : List (BitVec 8)) :
    Prop where
  length : g.length = needed
  front : g.take (content.length + (offset - content.length)) =
    content ++ List.replicate (offset - content.length) 0

/-- The memory after the two loops that fill a new buffer: the old content, and zeros up to the
offset. -/
def filledMem (m : Memory) (newData data size offset : Nat) : Memory :=
  clearBytes (copyBytes m newData data size) (newData + size) (offset - size)

/-- The two loops write to the new buffer only. -/
theorem filledMem_outside {m : Memory} {newData data size needed x : Nat} (hsize : size ≤ needed)
    (hoff : offset ≤ needed) (hx : x < newData ∨ newData + needed ≤ x) :
    filledMem m newData data size offset x = m x := by
  rw [filledMem, clearBytes_outside (by omega), copyBytes_outside (by omega)]

/-- A new buffer for a file, filled from its old one. -/
theorem Entry.At.filled {needed p : Nat} (ha : e.At objs) (hs : Stores s.heap objs)
    (hgrow : e.content.length < needed) (hoff : offset ≤ needed) (hp : p ≠ 0)
    (hfresh : objs p = none) (hlive : s.heap.live p = some needed) :
    Stores (s.setMem (filledMem s.mem p e.data e.content.length offset)).heap
        (Function.update objs p
          (some (.data (bytesAt (filledMem s.mem p e.data e.content.length offset) p needed)))) ∧
      Grown e.content offset needed
        (bytesAt (filledMem s.mem p e.data e.content.length offset) p needed) := by
  have hout : ∀ x, x < p ∨ p + needed ≤ x →
      filledMem s.mem p e.data e.content.length offset x = s.mem x :=
    fun x hx => filledMem_outside (by omega) hoff hx
  have hpe : p ≠ e.data := by
    rintro rfl
    rcases ha.data with ⟨_, hzero⟩ | ⟨_, hold⟩
    · exact hp hzero
    · rw [hold] at hfresh
      cases hfresh
  refine ⟨?_, length_bytesAt _ _ _, ?_⟩
  · have hsize : Stored.size (FsObject.data
        (bytesAt (filledMem s.mem p e.data e.content.length offset) p needed)) = needed := by
      rw [FsObject.stored_size, FsObject.size, length_bytesAt]
    refine hs.write (hlive.trans (congrArg some hsize.symm)) (fun x hx => hout x ?_) ?_
    · rwa [hsize] at hx
    · show bytesAt _ p (bytesAt _ p needed).length = _
      rw [length_bytesAt]
  · -- the old content does not overlap the new block
    rw [take_bytesAt, Nat.min_eq_left (by omega), filledMem]
    rcases ha.data with ⟨hnil, hzero⟩ | ⟨hne, hold⟩
    · rw [hnil]
      simp only [List.length_nil, copyBytes, Nat.zero_add, Nat.add_zero, Nat.sub_zero,
        List.nil_append]
      exact bytesAt_clearBytes _ _ _
    · have hdis := hs.inv.safe.disjoint p _ e.data _ hlive (hs.live _ _ hold) hpe
      rw [FsObject.stored_size, FsObject.size] at hdis
      rw [bytesAt_copy_clear _ _ _ _ _ (by omega)]
      congr 1
      exact hs.here _ _ hold

/-- `growData`, if the old block can be freed: it makes room, or it is refused the memory and does
nothing. -/
theorem Entry.At.grow {needed : Nat} (ha : e.At objs) (hs : Stores s.heap objs)
    (hv : objs node = some (.vfsNode v)) (hgrow : e.content.length < needed)
    (hoff : offset ≤ needed) (h32 : needed + 15 < 2 ^ 32)
    (hfree : e.data ≠ 0 → s.heap.Block (pageOf (e.data - headerSize))) :
    ∃ fits s', s.growData node e.node offset needed = .ok (fits, s') ∧ Vfs.Same s s' ∧
      s.heap.Grows s'.heap ∧
      (fits = false ∧ s'.refused = true ∧ Stores s'.heap objs ∨
        fits = true ∧ ∃ objs' p g, Stores s'.heap objs' ∧ Grown e.content offset needed g ∧
          e.Becomes objs objs' { e with content := g, data := p }) := by
  obtain ⟨p, s1, hrun, hsame1, hstores1, href1, hlive1, hblock1, hnew⟩ := Vfs.kmalloc_spec hs h32
  have hgrows1 := Vfs.kmalloc_grows hs h32 hrun
  obtain ⟨next, hobj⟩ := ha.node
  unfold Vfs.growData
  simp only [hrun, bind, Except.bind, pure, Except.pure]
  by_cases hp : p = 0
  · simp only [if_pos hp]
    exact ⟨false, s1, rfl, hsame1, hgrows1, .inl ⟨rfl, by rw [href1, hp]; simp, hstores1⟩⟩
  · simp only [if_neg hp]
    obtain ⟨hfresh, hlivep⟩ := hnew hp
    have hat := Vfs.field_ramfsNode hstores1 hobj
    have hdata : s1.field e.node dataOff = e.data := hat.data
    have hsize : s1.field e.node sizeOff = e.content.length := hat.size
    simp only [hdata, hsize]
    set len := e.content.length with hlen
    -- the new block, filled up to the offset
    obtain ⟨hstores3, hgrown⟩ := ha.filled hstores1 hgrow hoff hp hfresh hlivep
    rw [← hlen] at hstores3 hgrown
    set m3 := filledMem s1.mem p e.data len offset with hm3
    set g := bytesAt m3 p needed with hgdef
    have hglen : g.length = needed := hgrown.length
    have hpe : p ≠ e.data := by
      rintro rfl
      rcases ha.data with ⟨_, hzero⟩ | ⟨_, hold⟩
      · exact hp hzero
      · rw [hold] at hfresh
        cases hfresh
    have hout : ∀ x, x < p ∨ p + needed ≤ x → m3 x = s1.mem x :=
      fun x hx => filledMem_outside (by omega) hoff hx
    have hblock3 : ∀ a, s.heap.Block a → (s1.heap.setMem m3).Block a := fun a ha =>
      ((hstores1.inv.setMem hlivep hout).2 a).mpr (hblock1 a ha)
    have hgrows3 := hgrows1.trans (hstores1.inv.setMem_grows hlivep hout)
    set s3 := s1.setMem m3 with hs3
    have hstores3 : Stores s3.heap (Function.update objs p (some (.data g))) := hstores3
    have hgrows3 : s.heap.Grows s3.heap := hgrows3
    -- the old block, if there is one, is freed
    obtain ⟨s4, hrun4, hsame4, hgrows4, hstores4⟩ :
        ∃ s4, s3.freeData e.data = .ok s4 ∧ Vfs.Same s3 s4 ∧ s3.heap.Grows s4.heap ∧
          Stores s4.heap (Function.update (Function.update objs p (some (.data g))) e.data none) := by
      by_cases h0 : e.data = 0
      · refine ⟨s3, by rw [Vfs.freeData, if_neg (not_not.mpr h0)], .refl _, .refl _, ?_⟩
        have hnone := hstores3.zero
        rw [h0, ← hnone, Function.update_eq_self]
        exact hstores3
      · rw [Vfs.freeData, if_pos h0]
        rcases ha.data with ⟨_, hzero⟩ | ⟨_, hold⟩
        · exact absurd hzero h0
        · have hold3 : Function.update objs p (some (.data g)) e.data =
              some (.data e.content) := by
            rw [Function.update_of_ne (Ne.symm hpe), hold]
          obtain ⟨s4, hrun4, hsame4, _, hstores4⟩ :=
            Vfs.kfree_spec hstores3 hold3 (hblock3 _ (hfree h0))
          exact ⟨s4, hrun4, hsame4,
            Vfs.kfree_grows hstores3 hold3 (hblock3 _ (hfree h0)) hrun4, hstores4⟩
    have hs3' : (s1.setMem (copyBytes s1.mem p e.data len)).setMem
        (clearBytes (s1.setMem (copyBytes s1.mem p e.data len)).mem (p + len) (offset - len)) =
      s3 := rfl
    rw [hs3', hrun4]
    simp only
    have hnp : e.node ≠ p := by
      intro heq
      rw [heq, hfresh] at hobj
      cases hobj
    have hnd : e.node ≠ e.data := ha.ne_data hs.zero hobj (by simp [Entry.object])
    have hplt : p < 2 ^ 32 := by
      have := (hstores1.inv.bounds hlivep).2.2
      simp only [userMemStart] at this
      omega
    -- the node gets the new block and the new size
    have hnode4 : Function.update (Function.update objs p (some (.data g))) e.data none e.node =
        some (e.object next) := by
      rw [Function.update_of_ne hnd, Function.update_of_ne hnp, hobj]
    have hstores5 := Vfs.assign_ramfsNode hstores4 hnode4 dataOff p (by decide) (by decide)
      (by decide)
    rw [Nat.mod_eq_of_lt hplt] at hstores5
    have hstores6 := Vfs.assign_ramfsNode hstores5 (p := e.node) (Function.update_self ..)
      sizeOff needed (by decide) (by decide) (by decide)
    rw [Function.update_idem, Nat.mod_eq_of_lt (by omega)] at hstores6
    have hvn : node ≠ e.node := by
      intro heq
      rw [heq, hobj] at hv
      cases hv
    have hvp : node ≠ p := by
      intro heq
      rw [heq, hfresh] at hv
      cases hv
    have hv6 : Function.update (Function.update (Function.update objs p (some (.data g))) e.data
        none) e.node (some (.ramfsNode (((⟨e.name, vfsTypeFile, e.content.length, e.data, 0,
          next⟩ : RamfsNode).set dataOff p).set sizeOff needed))) node = some (.vfsNode v) := by
      rw [Function.update_of_ne hvn, Function.update_of_ne (ha.ne_data hs.zero hv (by simp)),
        Function.update_of_ne hvp, hv]
    have hstores7 := Vfs.assign_vfsNode_size hstores6 hv6 needed
    have hgrows5 := Vfs.store32_grows hstores4 hnode4 dataOff p
      (show dataOff + 4 ≤ ramfsNodeSize by decide)
    have hgrows6 := Vfs.store32_grows hstores5 (Function.update_self ..) sizeOff needed
      (show sizeOff + 4 ≤ ramfsNodeSize by decide)
    have hgrows7 := Vfs.store32_grows hstores6 hv6 sizeOff needed
      (show sizeOff + 4 ≤ vfsNodeSize by decide)
    refine ⟨true, _, rfl, (((hsame1.setMem m3).trans hsame4).setMem _).setMem _ |>.setMem _,
      (((hgrows3.trans hgrows4).trans hgrows5).trans hgrows6).trans hgrows7,
      .inr ⟨rfl, _, p, g, hstores7, hgrown, rfl, rfl, fun next' hnext' => ?_,
        .inr ⟨fun hnil => ?_, ?_⟩, .inr hfresh, fun q o hq hqn hqd => ?_⟩⟩
    · rw [hobj] at hnext'
      obtain rfl : next = next' := by
        simp only [Entry.object, Option.some.injEq, FsObject.ramfsNode.injEq,
          RamfsNode.mk.injEq] at hnext'
        exact hnext'.2.2.2.2.2
      rw [Function.update_self, Entry.object, hglen]
      rfl
    · have hnil : g = [] := hnil
      rw [hnil, List.length_nil] at hglen
      omega
    · show Function.update _ _ _ p = _
      rw [Function.update_of_ne (Ne.symm hnp), Function.update_of_ne hpe, Function.update_self]
    · have hqp : q ≠ p := by
        rintro rfl
        rw [hfresh] at hq
        cases hq
      rw [Function.update_of_ne hqn, Function.update_of_ne hqd, Function.update_of_ne hqp, hq]

/-- Writing into the grown content is writing into the old one. -/
theorem Grown.overwrite_eq {content g : List (BitVec 8)}
    (hg : Grown content offset (offset + buf.length) g)
    (hlt : content.length < offset + buf.length) :
    overwrite 0 g offset buf = overwrite 0 content offset buf := by
  have hlen := hg.length
  have htake : g.take offset =
      (content ++ List.replicate (offset - content.length) 0).take offset := by
    rw [← hg.front, List.take_take, Nat.min_eq_left (by omega)]
  rw [overwrite_of_lt _ _ (by omega), htake, overwrite, List.drop_eq_nil_of_le (by omega),
    List.drop_eq_nil_of_le (by omega)]

theorem mem_setEntry_self (he : e ∈ entries) (h : e.node = e'.node) :
    e' ∈ setEntry entries e' :=
  List.mem_map.mpr ⟨e, he, if_pos h⟩

/-- A `ramfs_write` of nothing. -/
theorem Entry.At.write_nil (ha : e.At objs) (hs : Stores s.heap objs)
    (hv : objs node = some (.vfsNode v)) (hnode : v.fsData = e.node) (offset : Nat) :
    s.ramfsWrite node offset [] = .ok (0, s) := by
  obtain ⟨hfs, htype, _⟩ := ha.fields hs hv hnode
  unfold Vfs.ramfsWrite
  simp only [hfs, htype, ne_eq, not_true_eq_false, if_false, List.length_nil, if_true]

/-- `ramfs_write`, if the old block can be freed: it overwrites the content, or it is refused the
memory and does nothing. -/
theorem Entry.At.write (ha : e.At objs) (hs : Stores s.heap objs)
    (hv : objs node = some (.vfsNode v)) (hnode : v.fsData = e.node) (hbuf : buf ≠ [])
    (h32 : offset + buf.length + 15 < 2 ^ 32)
    (hfree : e.data ≠ 0 → e.content.length < offset + buf.length →
      s.heap.Block (pageOf (e.data - headerSize))) :
    ∃ n s', s.ramfsWrite node offset buf = .ok (n, s') ∧ Vfs.Same s s' ∧
      s.heap.Grows s'.heap ∧
      (n = -1 ∧ s'.refused = true ∧ Stores s'.heap objs ∨
        n = (buf.length : Int) ∧ ∃ objs' data, Stores s'.heap objs' ∧ e.Becomes objs objs'
          { e with content := overwrite 0 e.content offset buf, data := data }) := by
  obtain ⟨hfs, htype, hsize, hdata⟩ := ha.fields hs hv hnode
  have hpos : buf.length ≠ 0 := fun h0 => hbuf (List.length_eq_zero_iff.mp h0)
  unfold Vfs.ramfsWrite Vfs.makeRoom
  simp only [hfs, htype, hsize, ne_eq, not_true_eq_false, if_false, hpos,
    Nat.mod_eq_of_lt (show offset + buf.length < 2 ^ 32 by omega)]
  by_cases hgrow : e.content.length < offset + buf.length
  · simp only [if_pos hgrow]
    obtain ⟨fits, s1, hrun, hsame, hgrows, hres⟩ :=
      ha.grow hs hv hgrow (Nat.le_add_right offset _) h32 (fun h0 => hfree h0 hgrow)
    rw [hrun]
    rcases hres with ⟨rfl, href, hstores⟩ | ⟨rfl, objs1, p, g, hstores, hgrown, hbecomes⟩
    · exact ⟨-1, s1, rfl, hsame, hgrows, .inl ⟨rfl, href, hstores⟩⟩
    · have ha1 := hbecomes.at ha
      set e1 : Entry := { e with content := g, data := p } with he1
      have hlen := hgrown.length
      obtain ⟨objs2, hstores2, hgrows2, hbecomes2⟩ :=
        ha1.storeData hstores hbuf (show offset + buf.length ≤ g.length by omega)
      obtain ⟨next, hobj1⟩ := ha1.node
      have hdata1 : s1.field e.node dataOff = p := (Vfs.field_ramfsNode hstores hobj1).data
      have hle := ha1.content_le hstores
      have hcontent : overwrite 0 e1.content offset buf = overwrite 0 e.content offset buf :=
        hgrown.overwrite_eq hgrow
      rw [hcontent] at hbecomes2
      have hwrap : wrap32 buf.length = buf.length :=
        wrap32_eq (by omega) (by simp only [he1, userMemStart] at hle; omega)
      refine ⟨_, _, ?_, hsame.setMem _, hgrows.trans hgrows2,
        .inr ⟨rfl, objs2, p, hstores2, hbecomes.trans hbecomes2 rfl⟩⟩
      simp only [bind, Except.bind, pure, Except.pure, if_true, hdata1, hwrap]
      rfl
  · simp only [if_neg hgrow]
    obtain ⟨objs2, hstores2, hgrows2, hbecomes⟩ :=
      ha.storeData hs hbuf (show offset + buf.length ≤ e.content.length by omega)
    have hle := ha.content_le hs
    have hwrap : wrap32 buf.length = buf.length :=
      wrap32_eq (by omega) (by simp only [userMemStart] at hle; omega)
    refine ⟨_, _, ?_, (Vfs.Same.refl s).setMem _, hgrows2,
      .inr ⟨rfl, objs2, e.data, hstores2, hbecomes⟩⟩
    simp only [bind, Except.bind, pure, Except.pure, if_true, hdata, hwrap]

end Kumo
