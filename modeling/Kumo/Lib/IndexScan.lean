import Mathlib.Data.List.Nodup

/-!
# Scanning a list by index while it grows at the front

A reader asks for the item at index 0, 1, 2 and so on until there is none, while others put
items in front of the list. Every put moves the items towards the reader's index, so the
reader skips nothing that was there at the beginning; but an item it has seen comes to an
index it has not asked for yet, and a scan that ends has then seen that item twice.
-/

/-- The list, the next index, what was seen, and whether the end was seen. -/
structure IndexScan (α : Type*) where
  items : List α
  index : Nat
  seen : List α
  finished : Bool

namespace IndexScan

variable {α : Type*} {s : IndexScan α} {items : List α}

/-- A scan that has not begun. -/
def start (items : List α) : IndexScan α := ⟨items, 0, [], false⟩

/-- The reader asks for the next item. -/
def next (s : IndexScan α) : IndexScan α :=
  match s.items[s.index]? with
  | none => { s with finished := true }
  | some a => { s with index := s.index + 1, seen := s.seen ++ [a] }

/-- Items are put in front. -/
def put (s : IndexScan α) (new : List α) : IndexScan α := { s with items := new ++ s.items }

theorem next_none (h : s.items[s.index]? = none) : s.next = { s with finished := true } := by
  simp only [next, h]

theorem next_some {a : α} (h : s.items[s.index]? = some a) :
    s.next = { s with index := s.index + 1, seen := s.seen ++ [a] } := by
  simp only [next, h]

@[simp] theorem put_nil : s.put [] = s := rfl

/-! ## Nothing is skipped -/

/-- The items of the beginning are still there, and those before the index were seen. -/
structure Covers (items : List α) (s : IndexScan α) : Prop where
  bound : s.index ≤ s.items.length
  suffix : ∃ new, s.items = new ++ items ∧
    ∀ j a, items[j]? = some a → new.length + j < s.index → a ∈ s.seen
  ends : s.finished = true → ∀ a ∈ items, a ∈ s.seen

theorem covers_start (items : List α) : Covers items (start items) :=
  ⟨Nat.zero_le _, ⟨[], rfl, fun _ _ _ h => by simp [start] at h⟩, fun h => nomatch h⟩

theorem Covers.next (h : Covers items s) (hrun : s.finished = false) : Covers items s.next := by
  obtain ⟨hbound, ⟨new, heq, hseen⟩, _⟩ := h
  cases ha : s.items[s.index]? with
  | none =>
      rw [next_none ha]
      refine ⟨hbound, ⟨new, heq, hseen⟩, fun _ a hmem => ?_⟩
      obtain ⟨j, hj⟩ := List.mem_iff_getElem?.mp hmem
      obtain ⟨hlt, _⟩ := List.getElem?_eq_some_iff.mp hj
      refine hseen j a hj ?_
      have hlen := List.getElem?_eq_none_iff.mp ha
      rw [heq, List.length_append] at hlen
      omega
  | some a =>
      rw [next_some ha]
      obtain ⟨hlt, _⟩ := List.getElem?_eq_some_iff.mp ha
      refine ⟨hlt, ⟨new, heq, fun j b hb hj => ?_⟩, fun hfin => ?_⟩
      · rw [List.mem_append]
        by_cases hj' : new.length + j < s.index
        · exact .inl (hseen j b hb hj')
        · have hidx : s.index = new.length + j := by
            have hj : new.length + j < s.index + 1 := hj
            omega
          rw [heq, hidx, List.getElem?_append_right (by omega), Nat.add_sub_cancel_left, hb] at ha
          exact .inr (List.mem_singleton.mpr (Option.some.inj ha))
      · rw [hrun] at hfin
        cases hfin

theorem Covers.put (h : Covers items s) (new : List α) : Covers items (s.put new) := by
  obtain ⟨hbound, ⟨old, heq, hseen⟩, hends⟩ := h
  refine ⟨?_, ⟨new ++ old, ?_, fun j a ha hj => hseen j a ha ?_⟩, hends⟩
  · show s.index ≤ (new ++ s.items).length
    rw [List.length_append]
    omega
  · show new ++ s.items = new ++ old ++ items
    rw [heq, List.append_assoc]
  · have hj : (new ++ old).length + j < s.index := hj
    rw [List.length_append] at hj
    omega

/-! ## A scan without puts -/

/-- Nothing was put, and the items before the index were seen in order. -/
structure Quiet (items : List α) (s : IndexScan α) : Prop where
  same : s.items = items
  seen : s.seen = items.take s.index

theorem quiet_start (items : List α) : Quiet items (start items) := ⟨rfl, rfl⟩

theorem Quiet.next (h : Quiet items s) : Quiet items s.next := by
  obtain ⟨hitems, hseen⟩ := h
  cases ha : s.items[s.index]? with
  | none =>
      rw [next_none ha]
      exact ⟨hitems, hseen⟩
  | some a =>
      rw [next_some ha]
      rw [hitems] at ha
      exact ⟨hitems, by rw [hseen, List.take_add_one, ha]; rfl⟩

theorem Quiet.nodup (h : Quiet items s) (hitems : items.Nodup) : s.seen.Nodup := by
  rw [h.seen]
  exact hitems.sublist (List.take_sublist _ _)

/-! ## A scan with puts -/

/-- An item was seen twice, or one that was seen lies ahead. -/
def Repeats (s : IndexScan α) : Prop :=
  ¬ s.seen.Nodup ∨ (s.finished = false ∧ ∃ a ∈ s.seen, ∃ j, s.index ≤ j ∧ s.items[j]? = some a)

/-- A put brings the item that was seen last to the index. -/
theorem Quiet.repeats_put (h : Quiet items s) (hrun : s.finished = false) (hpos : 0 < s.index)
    (hbound : s.index ≤ s.items.length) {new : List α} (hnew : new ≠ []) :
    Repeats (s.put new) := by
  obtain ⟨a, ha⟩ : ∃ a, s.items[s.index - 1]? = some a :=
    ⟨_, List.getElem?_eq_getElem (by omega)⟩
  have hlen := List.length_pos_iff.mpr hnew
  refine .inr ⟨hrun, a, ?_, new.length + (s.index - 1), ?_, ?_⟩
  · show a ∈ s.seen
    rw [h.seen, ← h.same]
    exact List.mem_iff_getElem?.mpr ⟨s.index - 1, by rw [List.getElem?_take_of_lt (by omega), ha]⟩
  · show s.index ≤ _
    omega
  · show (new ++ s.items)[_]? = _
    rw [List.getElem?_append_right (by omega), Nat.add_sub_cancel_left, ha]

theorem Repeats.next (h : Repeats s) (hbound : s.index ≤ s.items.length) : Repeats s.next := by
  cases ha : s.items[s.index]? with
  | none =>
      rw [next_none ha]
      rcases h with hdup | ⟨_, b, hb, j, hj, hbj⟩
      · exact .inl hdup
      · obtain ⟨hlt, _⟩ := List.getElem?_eq_some_iff.mp hbj
        have := List.getElem?_eq_none_iff.mp ha
        omega
  | some a =>
      rw [next_some ha]
      rcases h with hdup | ⟨hrun, b, hb, j, hj, hbj⟩
      · exact .inl fun hnodup => hdup (List.nodup_append.mp hnodup).1
      · by_cases heq : j = s.index
        · -- the item is seen again
          subst heq
          obtain rfl : a = b := Option.some.inj (ha.symm.trans hbj)
          refine .inl fun hnodup => ?_
          exact (List.nodup_append.mp hnodup).2.2 a hb a (List.mem_singleton_self a) rfl
        · exact .inr ⟨hrun, b, List.mem_append_left _ hb, j, by
            show s.index + 1 ≤ j
            omega, hbj⟩

theorem Repeats.put (h : Repeats s) (new : List α) : Repeats (s.put new) := by
  rcases h with hdup | ⟨hrun, a, ha, j, hj, haj⟩
  · exact .inl hdup
  · refine .inr ⟨hrun, a, ha, new.length + j, ?_, ?_⟩
    · show s.index ≤ _
      omega
    · show (new ++ s.items)[_]? = _
      rw [List.getElem?_append_right (by omega), Nat.add_sub_cancel_left, haj]

/-- A scan that has ended has seen an item twice. -/
theorem Repeats.not_nodup (h : Repeats s) (hfin : s.finished = true) : ¬ s.seen.Nodup := by
  rcases h with hdup | ⟨hrun, _⟩
  · exact hdup
  · rw [hfin] at hrun
    cases hrun

end IndexScan
