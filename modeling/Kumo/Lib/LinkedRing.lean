import Mathlib.Algebra.Group.Nat.Defs
import Mathlib.Data.List.Iterate
import Mathlib.Data.List.Nodup
import Mathlib.Tactic.Common

/-!
# Singly linked rings

The memory is seen through one function, `next`, that returns the link of a node.
`Path next h l e` says that following `next` from `h` visits exactly the nodes of `l`
and then stands at `e`; a ring is a path from a node back to itself that meets no
node twice. A round robin makes two edits: it inserts a node after the current one,
and it moves on to the next.
-/

namespace LinkedRing

variable {α : Type*} {next next' : α → α} {h e t : α} {l : List α}

/-- Following `next` from the first node visits the list and arrives at the last argument. -/
def Path (next : α → α) : α → List α → α → Prop
  | h, [], e => h = e
  | h, a :: l, e => h = a ∧ Path next (next a) l e

/-- A path visits its nodes in the order of the list. -/
theorem Path.iterate (hp : Path next h l e) : List.iterate next h l.length = l := by
  induction l generalizing h with
  | nil => rfl
  | cons a l ih =>
      obtain ⟨rfl, hrest⟩ := hp
      rw [List.length_cons, List.iterate, ih hrest]

/-- A path of `n` nodes ends after `n` links. -/
theorem Path.end_eq (hp : Path next h l e) : next^[l.length] h = e := by
  induction l generalizing h with
  | nil => exact hp
  | cons a l ih =>
      obtain ⟨rfl, hrest⟩ := hp
      exact ih hrest

/-- A path depends only on the links of its own nodes. -/
theorem Path.congr (hp : Path next h l e) (hn : ∀ a ∈ l, next' a = next a) : Path next' h l e := by
  induction l generalizing h with
  | nil => exact hp
  | cons a l ih =>
      obtain ⟨rfl, hrest⟩ := hp
      refine ⟨rfl, ?_⟩
      rw [hn h (by simp)]
      exact ih hrest fun b hb => hn b (List.mem_cons_of_mem _ hb)

/-- A path can be extended by the node it arrives at. -/
theorem Path.snoc (hp : Path next h l e) : Path next h (l ++ [e]) (next e) := by
  induction l generalizing h with
  | nil => exact ⟨hp, rfl⟩
  | cons a l ih => exact ⟨hp.1, ih hp.2⟩

/-- The links close a cycle through the nodes of the list, each met once, starting at `h`. -/
structure Ring (next : α → α) (h : α) (l : List α) : Prop where
  path : Path next h l h
  nodup : l.Nodup
  head : h ∈ l

/-- A node linked to itself is a ring. -/
theorem Ring.single (hself : next h = h) : Ring next h [h] := by
  refine ⟨⟨rfl, hself⟩, by simp, by simp⟩

/-- The list of a ring starts with the node the ring starts at. -/
theorem Ring.cons (hr : Ring next h l) : ∃ rest, l = h :: rest := by
  cases l with
  | nil => cases hr.head
  | cons a rest => exact ⟨rest, by rw [hr.path.1]⟩

/-- Insert node `t` after node `h`. -/
theorem Ring.insert {rest : List α} (hr : Ring next h (h :: rest)) (ht : t ∉ h :: rest)
    (hh : next' h = t) (htn : next' t = next h) (hn : ∀ a ∈ rest, next' a = next a) :
    Ring next' h (h :: t :: rest) := by
  obtain ⟨⟨_, hrest⟩, hnd, _⟩ := hr
  obtain ⟨hh', hnd'⟩ := List.nodup_cons.mp hnd
  rw [List.mem_cons, not_or] at ht
  refine ⟨⟨rfl, hh, ?_⟩, ?_, by simp⟩
  · rw [htn]
    exact hrest.congr hn
  · rw [List.nodup_cons, List.nodup_cons, List.mem_cons, not_or]
    exact ⟨⟨Ne.symm ht.1, hh'⟩, ht.2, hnd'⟩

/-- Move on to the next node. -/
theorem Ring.rotate {rest : List α} (hr : Ring next h (h :: rest)) :
    Ring next (next h) (rest ++ [h]) := by
  obtain ⟨⟨_, hrest⟩, hnd, _⟩ := hr
  have hpath := hrest.snoc
  refine ⟨hpath, (List.perm_append_singleton h rest).nodup_iff.mpr hnd, ?_⟩
  cases rest with
  | nil => exact List.mem_append_right _ (by rw [show next h = h from hrest]; simp)
  | cons a rest => exact List.mem_append_left _ (by rw [hrest.1]; simp)

/-- A ring depends only on the links of its own nodes. -/
theorem Ring.congr (hr : Ring next h l) (hn : ∀ a ∈ l, next' a = next a) : Ring next' h l :=
  ⟨hr.path.congr hn, hr.nodup, hr.head⟩

/-- The links of a path lead to its nodes, or out at its end. -/
theorem Path.step_mem (hp : Path next h l e) {a : α} (ha : a ∈ l) : next a ∈ l ∨ next a = e := by
  induction l generalizing h with
  | nil => cases ha
  | cons b l ih =>
      obtain ⟨rfl, hrest⟩ := hp
      rcases List.mem_cons.mp ha with rfl | ha
      · cases l with
        | nil => exact .inr hrest
        | cons c l => exact .inl (by rw [hrest.1]; simp)
      · exact (ih hrest ha).imp (List.mem_cons_of_mem _) id

/-- Every link of a ring leads to a node of the ring. -/
theorem Ring.step_mem (hr : Ring next h l) {a : α} (ha : a ∈ l) : next a ∈ l := by
  rcases hr.path.step_mem ha with hmem | heq
  · exact hmem
  · rw [heq]
    exact hr.head

end LinkedRing
