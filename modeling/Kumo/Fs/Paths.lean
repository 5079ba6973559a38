import Kumo.Fs.Directory

/-!
# Paths of files in the root directory

A path of one component: what `path_next` makes of it, what `vfs_lookup` finds, and where the
name that `vfs_open` passes on begins.
-/

namespace Kumo

open Memory

variable {s s' : Vfs} {objs : Objects} {rdir limit : Nat} {entries : List Entry} {e : Entry}
  {name : List (BitVec 8)}

/-- The names a path `/name` may have. -/
structure FileName (name : List (BitVec 8)) : Prop where
  nonempty : name ≠ []
  noSlash : Vfs.slash ∉ name
  noNul : (0 : BitVec 8) ∉ name

instance (name : List (BitVec 8)) : Decidable (FileName name) :=
  decidable_of_iff (name ≠ [] ∧ Vfs.slash ∉ name ∧ (0 : BitVec 8) ∉ name)
    ⟨fun h => ⟨h.1, h.2.1, h.2.2⟩, fun h => ⟨h.1, h.2, h.3⟩⟩

theorem FileName.take (h : FileName name) : FileName (name.take nameMax) := by
  obtain ⟨c, rest, rfl⟩ := List.exists_cons_of_ne_nil h.nonempty
  exact ⟨by simp [nameMax], fun hmem => h.noSlash (List.mem_of_mem_take hmem),
    fun hmem => h.noNul (List.mem_of_mem_take hmem)⟩

/-- A component without a slash is cut where it gets too long. -/
theorem takeName_eq (hslash : Vfs.slash ∉ name) (limit : Nat) :
    takeName limit name = (name.take limit, name.drop limit) := by
  induction name generalizing limit with
  | nil => cases limit <;> rfl
  | cons c name ih =>
      simp only [List.mem_cons, not_or] at hslash
      cases limit with
      | zero => rfl
      | succ limit =>
          rw [takeName, if_neg (Ne.symm hslash.1), ih hslash.2]
          rfl

/-- The first component of a path `/name`. -/
theorem pathNext_file (h : FileName name) :
    pathNext (Vfs.slash :: name) = some (name.take nameMax, name.drop nameMax) := by
  obtain ⟨c, rest, rfl⟩ := List.exists_cons_of_ne_nil h.nonempty
  have hc : c ≠ Vfs.slash := fun heq => h.noSlash (by simp [heq])
  have hdrop : (Vfs.slash :: c :: rest).dropWhile (fun c => c = Vfs.slash) = c :: rest := by
    rw [List.dropWhile_cons_of_pos (by simp), List.dropWhile_cons_of_neg (by simpa using hc)]
  unfold pathNext
  rw [hdrop]
  exact congrArg some (takeName_eq h.noSlash _)

/-- What a component is made of. -/
theorem takeName_bounds (limit : Nat) (p : List (BitVec 8)) :
    (takeName limit p).1.length ≤ limit ∧ ∀ c ∈ (takeName limit p).1, c ∈ p := by
  induction p generalizing limit with
  | nil => cases limit <;> simp [takeName]
  | cons c p ih =>
      cases limit with
      | zero => simp [takeName]
      | succ limit =>
          obtain ⟨hlen, hmem⟩ := ih limit
          rw [takeName]
          split
          · simp
          · refine ⟨by simpa using hlen, fun d hd => ?_⟩
            rcases List.mem_cons.mp hd with rfl | hd
            · exact List.mem_cons_self
            · exact List.mem_cons_of_mem _ (hmem d hd)

theorem pathNext_some {path rest : List (BitVec 8)} (h0 : (0 : BitVec 8) ∉ path)
    (h : pathNext path = some (name, rest)) :
    (0 : BitVec 8) ∉ name ∧ name.length ≤ nameMax ∧ path ≠ [] := by
  unfold pathNext at h
  cases hp : path.dropWhile fun c => c = Vfs.slash with
  | nil =>
      rw [hp] at h
      cases h
  | cons c p =>
      rw [hp] at h
      obtain ⟨hlen, hmem⟩ := takeName_bounds nameMax (c :: p)
      have hname : (takeName nameMax (c :: p)).1 = name := congrArg Prod.fst (Option.some.inj h)
      rw [hname] at hlen hmem
      refine ⟨fun hz => h0 ?_, hlen, fun hnil => ?_⟩
      · exact (List.dropWhile_sublist _).subset (hp ▸ hmem 0 hz)
      · rw [hnil] at hp
        cases hp

/-- A path with a component leads to a file or nowhere. -/
theorem RootList.vfsLookup_component {path rest : List (BitVec 8)}
    (hd : RootList objs s.gRoot rdir entries) (hs : Stores s.heap objs)
    (h0 : (0 : BitVec 8) ∉ path) (hnext : pathNext path = some (name, rest)) :
    ∃ node s', s.vfsLookup path = .ok (node, s') ∧
      (node ≠ 0 → s'.field node typeOff = vfsTypeFile) := by
  obtain ⟨hnul, hshort, hne⟩ := pathNext_some h0 hnext
  obtain ⟨htype, _⟩ := Vfs.field_vfsNode hs hd.root
  obtain ⟨c, p, rfl⟩ := List.exists_cons_of_ne_nil hne
  rw [Vfs.vfsLookup, if_neg (hs.ne_zero hd.root), List.length_cons, Vfs.lookupFrom, hnext]
  simp only [htype, ne_eq, not_true_eq_false, if_false]
  cases hfind : entries.find? fun e => e.name = name with
  | none =>
      rw [hd.lookup_none hs hnul hshort hfind]
      exact ⟨0, s, rfl, fun h => absurd rfl h⟩
  | some e =>
      obtain ⟨vn, s', hrun, hmade⟩ := hd.lookup_some hs hnul hshort hfind
      rw [hrun]
      simp only [bind, Except.bind, pure, Except.pure]
      by_cases hvn : vn = 0
      · rw [if_pos hvn]
        exact ⟨0, s', rfl, fun h => absurd rfl h⟩
      · have hstores := hmade.stores
        rw [if_neg hvn] at hstores ⊢
        have hfile : s'.field vn typeOff = vfsTypeFile :=
          (Vfs.field_vfsNode hstores (Function.update_self ..)).1
        -- a second component finds no directory
        rw [Vfs.lookupFrom]
        cases pathNext rest with
        | none => exact ⟨vn, s', rfl, fun _ => hfile⟩
        | some next =>
            obtain ⟨name', rest'⟩ := next
            have hdir : s'.field vn typeOff ≠ vfsTypeDir := by
              rw [hfile]
              decide
            exact ⟨0, s', if_pos hdir, fun h => absurd rfl h⟩

/-- A path with the name of a file, and nothing behind it but slashes, leads to a new wrapper. -/
theorem RootList.vfsLookup_some {path rest : List (BitVec 8)}
    (hd : RootList objs s.gRoot rdir entries) (hs : Stores s.heap objs)
    (h0 : (0 : BitVec 8) ∉ path) (hnext : pathNext path = some (name, rest))
    (hrest : pathNext rest = none) (hfind : (entries.find? fun e => e.name = name) = some e) :
    ∃ vn s', s.vfsLookup path = .ok (vn, s') ∧
      Vfs.Made s objs (.vfsNode ⟨vfsTypeFile, e.node⟩) vn s' := by
  obtain ⟨hnul, hshort, hne⟩ := pathNext_some h0 hnext
  obtain ⟨htype, _⟩ := Vfs.field_vfsNode hs hd.root
  obtain ⟨vn, s', hrun, hmade⟩ := hd.lookup_some hs hnul hshort hfind
  refine ⟨vn, s', ?_, hmade⟩
  obtain ⟨c, p, rfl⟩ := List.exists_cons_of_ne_nil hne
  rw [Vfs.vfsLookup, if_neg (hs.ne_zero hd.root), List.length_cons, Vfs.lookupFrom, hnext]
  simp only [htype, ne_eq, not_true_eq_false, if_false, hrun, bind, Except.bind, pure, Except.pure]
  by_cases hvn : vn = 0
  · rw [if_pos hvn, hvn]
  · rw [if_neg hvn, Vfs.lookupFrom, hrest]

/-- `vfs_readdir` of such a path fails. -/
theorem RootList.readdir_component {path rest : List (BitVec 8)}
    (hd : RootList objs s.gRoot rdir entries) (hs : Stores s.heap objs)
    (h0 : (0 : BitVec 8) ∉ path) (hnext : pathNext path = some (name, rest)) (index : Nat) :
    ∃ s', s.vfsReaddir path index = .ok ((-1, []), s') := by
  obtain ⟨node, s', hrun, htype⟩ := hd.vfsLookup_component hs h0 hnext
  unfold Vfs.vfsReaddir
  simp only [hrun, bind, Except.bind, pure, Except.pure]
  by_cases hnode : node = 0
  · exact ⟨s', if_pos hnode⟩
  · have hdir : s'.field node typeOff ≠ vfsTypeDir := by
      rw [htype hnode]
      decide
    exact ⟨s', by rw [if_neg hnode, if_pos hdir]⟩

/-- `vfs_lookup` of a path `/name` whose name is short is a lookup in the root directory. -/
theorem Directory.vfsLookup_file (hd : Directory objs s.gRoot rdir entries)
    (hs : Stores s.heap objs) (h : FileName name) (hshort : name.length ≤ nameMax) :
    s.vfsLookup (Vfs.slash :: name) = s.ramfsLookup s.gRoot name := by
  obtain ⟨htype, _⟩ := Vfs.field_vfsNode hs hd.root
  obtain ⟨c, rest, hcons⟩ := List.exists_cons_of_ne_nil h.nonempty
  unfold Vfs.vfsLookup
  rw [if_neg (hs.ne_zero hd.root), List.length_cons, Vfs.lookupFrom, pathNext_file h,
    List.take_of_length_le hshort, List.drop_eq_nil_of_le hshort]
  simp only [htype, ne_eq, not_true_eq_false, if_false]
  rw [hcons, List.length_cons]
  cases s.ramfsLookup s.gRoot (c :: rest) with
  | error t => rfl
  | ok r =>
      obtain ⟨cur, t⟩ := r
      by_cases hcur : cur = 0
      · simp [bind, Except.bind, pure, Except.pure, hcur]
      · simp [bind, Except.bind, hcur, Vfs.lookupFrom, pathNext]

/-- `vfs_lookup` of a path `/name` fails if no file has the name, cut at 63 bytes. -/
theorem Directory.vfsLookup_absent (hd : Directory objs s.gRoot rdir entries)
    (hs : Stores s.heap objs) (h : FileName name)
    (hfind : (entries.find? fun e => e.name = name.take nameMax) = none) :
    s.vfsLookup (Vfs.slash :: name) = .ok (0, s) := by
  obtain ⟨htype, _⟩ := Vfs.field_vfsNode hs hd.root
  unfold Vfs.vfsLookup
  rw [if_neg (hs.ne_zero hd.root), List.length_cons, Vfs.lookupFrom, pathNext_file h]
  simp only [htype, ne_eq, not_true_eq_false, if_false]
  rw [hd.rootList.lookup_none hs h.take.noNul (List.length_take_le _ _) hfind]
  rfl

/-- No slash behind the first one. -/
theorem lastSlash_none (hslash : Vfs.slash ∉ name) (i : Nat) (last : Option Nat) :
    lastSlash name i last = last := by
  induction name generalizing i with
  | nil => rfl
  | cons c name ih =>
      simp only [List.mem_cons, not_or] at hslash
      rw [lastSlash, if_neg (Ne.symm hslash.1), ih hslash.2]

/-- `vfs_open` creates the file `/name` in the root directory. -/
theorem Directory.openCreate_file (hd : Directory objs s.gRoot rdir entries)
    (hs : Stores s.heap objs) (h : FileName name) :
    s.openCreate (Vfs.slash :: name) = s.ramfsCreate s.gRoot name vfsTypeFile := by
  obtain ⟨htype, _⟩ := Vfs.field_vfsNode hs hd.root
  unfold Vfs.openCreate
  rw [lastSlash, if_pos rfl, lastSlash_none h.noSlash]
  simp only [Nat.zero_add, List.drop_succ_cons, List.drop_zero, h.nonempty, if_false, ne_eq,
    not_true_eq_false, hs.ne_zero hd.root, htype]

end Kumo
