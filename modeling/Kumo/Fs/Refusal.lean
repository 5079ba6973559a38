import Kumo.Fs.Directory

/-!
# A refused request stays on record

Once `kmalloc` has returned NULL, `refused` stays set. So a call that ends without it was
granted all the memory it asked for, whatever it did with it.
-/

namespace Kumo

namespace Vfs

variable {α β : Type} {s s' : Vfs}

/-- A call that starts with the flag set ends with the flag set. -/
def Records (r : Except Vfs (α × Vfs)) : Prop := (after r).refused = true

/-- Whatever follows a call keeps the flag that the call has set. -/
theorem Records.bind {r : Except Vfs (α × Vfs)} {f : α × Vfs → Except Vfs (β × Vfs)}
    (h : Records r) (hf : ∀ x : α × Vfs, x.2.refused = true → Records (f x)) :
    Records (r >>= f) := by
  cases r with
  | error s => exact h
  | ok x => exact hf x h

/-- If no request was refused in the end, none was in the first part. -/
theorem granted_of_bind {r : Except Vfs (α × Vfs)} {f : α × Vfs → Except Vfs (β × Vfs)}
    (hf : ∀ x : α × Vfs, x.2.refused = true → Records (f x))
    (hg : (after (r >>= f)).refused = false) : (after r).refused = false := by
  by_contra hr
  have hrec : Records (r >>= f) := Records.bind (by simpa [Records] using hr) hf
  rw [Records, hg] at hrec
  cases hrec

theorem records_kmalloc (h : s.refused = true) (size : Nat) : Records (s.kmalloc size) := by
  unfold kmalloc
  split
  · exact h
  · simp [Records, after, h]

/-- `kfree` asks for no memory. -/
theorem records_kfree (h : s.refused = true) (ptr : Nat) (f : Vfs → α) :
    Records (s.kfree ptr >>= fun s => pure (f s, s)) := by
  rw [Records, refused_kfree, h]

theorem records_newVfsNode (h : s.refused = true) (fill : Memory → Nat → Memory) :
    Records (s.newVfsNode fill) := by
  unfold newVfsNode
  refine (records_kmalloc h _).bind fun x hx => ?_
  obtain ⟨vn, t⟩ := x
  by_cases hvn : vn = 0
  · simp only [if_pos hvn]
    exact hx
  · simp only [if_neg hvn]
    exact hx

theorem records_ramfsCreate (h : s.refused = true) (dir : Nat) (name : List (BitVec 8))
    (type : Nat) : Records (s.ramfsCreate dir name type) := by
  unfold ramfsCreate
  split
  · exact h
  · refine (records_kmalloc h _).bind fun x hx => ?_
    obtain ⟨rn, t⟩ := x
    by_cases hrn : rn = 0
    · simp only [if_pos hrn]
      exact hx
    · simp only [if_neg hrn]
      refine (records_newVfsNode (by exact hx) _).bind fun y hy => ?_
      obtain ⟨vn, u⟩ := y
      by_cases hvn : vn = 0
      · simp only [if_pos hvn]
        exact records_kfree (by exact hy) _ _
      · simp only [if_neg hvn]
        exact hy

theorem records_openCreate (h : s.refused = true) (path : List (BitVec 8)) :
    Records (s.openCreate path) := by
  unfold openCreate
  cases lastSlash path 0 none with
  | none => exact h
  | some i =>
      dsimp only
      split
      · exact h
      · split
        · exact h
        · split
          · exact h
          · split
            · exact h
            · exact records_ramfsCreate h _ _ _

/-- A `vfs_open` that is refused nothing is refused nothing while it looks for the node. -/
theorem granted_openNode {path : List (BitVec 8)} {flags i : Nat} (hcur : s.current ≠ 0)
    (hslot : s.freeSlot s.current maxFdPerTask 0 = some i)
    (hg : (after (s.vfsOpen path flags)).refused = false) :
    (after (s.openNode path)).refused = false := by
  unfold vfsOpen at hg
  rw [if_neg hcur, hslot] at hg
  refine granted_of_bind (fun x hx => ?_) hg
  obtain ⟨node, t⟩ := x
  by_cases hnode : node = 0
  · simp only [if_pos hnode]
    exact hx
  · simp only [if_neg hnode]
    refine (records_kmalloc (by exact hx) _).bind fun y hy => ?_
    obtain ⟨file, u⟩ := y
    by_cases hfile : file = 0
    · simp only [if_pos hfile]
      exact hy
    · simp only [if_neg hfile]
      exact hy

end Vfs

end Kumo
