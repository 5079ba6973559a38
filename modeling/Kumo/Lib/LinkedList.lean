import Mathlib.Data.List.Nodup
import Mathlib.Data.List.Perm.Subperm
import Mathlib.Tactic.Common

/-!
# Doubly linked lists threaded through a memory

The memory is seen through two functions, `next` and `prev`, that return the link
fields of a node; address 0 is the null pointer. `Chain next prev p h l` says that
following `next` from `h` visits exactly the nodes of `l` and that each `prev`
field points back, with `p` before the first node. The three edits of an allocator
are covered: push a node, unlink a node, and let one node take the place of
another. Each rule names only the link fields the edit must set.
-/

namespace LinkedList

variable (next prev : Nat → Nat)

/-- The nodes of `l` are linked both ways, starting at `h` with `p` before the first. -/
def Chain : Nat → Nat → List Nat → Prop
  | _, h, [] => h = 0
  | p, h, a :: l => h = a ∧ a ≠ 0 ∧ prev a = p ∧ Chain a (next a) l

variable {next prev}

/-- No node of a chain is null. -/
theorem Chain.ne_zero {p h : Nat} {l : List Nat} (hc : Chain next prev p h l) {a : Nat}
    (ha : a ∈ l) : a ≠ 0 := by
  induction l generalizing p h with
  | nil => cases ha
  | cons b l ih =>
      obtain ⟨_, hb, _, hrest⟩ := hc
      rcases List.mem_cons.mp ha with rfl | ha
      · exact hb
      · exact ih hrest ha

/-- The head of a chain is its first node, or null. -/
theorem Chain.head_mem {p h : Nat} {l : List Nat} (hc : Chain next prev p h l) :
    h = 0 ∨ h ∈ l := by
  cases l with
  | nil => exact .inl hc
  | cons a l => exact .inr (by simp [hc.1])

/-- The successor of a node is a node of the chain, or null. -/
theorem Chain.next_mem {p h : Nat} {l : List Nat} (hc : Chain next prev p h l) {a : Nat}
    (ha : a ∈ l) : next a = 0 ∨ next a ∈ l := by
  induction l generalizing p h with
  | nil => cases ha
  | cons b l ih =>
      obtain ⟨_, _, _, hrest⟩ := hc
      rcases List.mem_cons.mp ha with rfl | ha
      · rcases hrest.head_mem with h0 | hm
        · exact .inl h0
        · exact .inr (List.mem_cons_of_mem _ hm)
      · rcases ih hrest ha with h0 | hm
        · exact .inl h0
        · exact .inr (List.mem_cons_of_mem _ hm)

/-- The predecessor of a node is a node of the chain, or whatever stands before the chain. -/
theorem Chain.prev_mem {p h : Nat} {l : List Nat} (hc : Chain next prev p h l) {a : Nat}
    (ha : a ∈ l) : prev a = p ∨ prev a ∈ l := by
  induction l generalizing p h with
  | nil => cases ha
  | cons b l ih =>
      obtain ⟨_, _, hp, hrest⟩ := hc
      rcases List.mem_cons.mp ha with rfl | ha
      · exact .inl hp
      · rcases ih hrest ha with hb | hm
        · exact .inr (by simp [hb])
        · exact .inr (List.mem_cons_of_mem _ hm)

/-- A chain depends only on the link fields of its own nodes. -/
theorem Chain.congr {next' prev' : Nat → Nat} {p h : Nat} {l : List Nat}
    (hc : Chain next prev p h l) (hn : ∀ a ∈ l, next' a = next a)
    (hp : ∀ a ∈ l, prev' a = prev a) : Chain next' prev' p h l := by
  induction l generalizing p h with
  | nil => exact hc
  | cons a l ih =>
      obtain ⟨hh, ha, hpa, hrest⟩ := hc
      refine ⟨hh, ha, (hp a (by simp)).trans hpa, ?_⟩
      rw [hn a (by simp)]
      exact ih hrest (fun b hb => hn b (List.mem_cons_of_mem _ hb))
        (fun b hb => hp b (List.mem_cons_of_mem _ hb))

/-- Only the first node's back link has to change when the node before a chain changes. -/
theorem Chain.relink {next' prev' : Nat → Nat} {p q h : Nat} {l : List Nat}
    (hc : Chain next prev p h l) (hnd : l.Nodup) (hn : ∀ a ∈ l, next' a = next a)
    (hp : ∀ a ∈ l, prev' a = if a = h then q else prev a) : Chain next' prev' q h l := by
  cases l with
  | nil => exact hc
  | cons a l =>
      obtain ⟨rfl, ha, _, hrest⟩ := hc
      refine ⟨rfl, ha, by rw [hp h (by simp), if_pos rfl], ?_⟩
      rw [hn h (by simp)]
      refine hrest.congr (fun b hb => hn b (List.mem_cons_of_mem _ hb)) (fun b hb => ?_)
      have hne : b ≠ h := fun heq => (List.nodup_cons.mp hnd).1 (heq ▸ hb)
      rw [hp b (List.mem_cons_of_mem _ hb), if_neg hne]

/-- Push a node at the head of a list. -/
theorem Chain.push {next' prev' : Nat → Nat} {h b : Nat} {l : List Nat}
    (hc : Chain next prev 0 h l) (hnd : l.Nodup) (hb : b ≠ 0) (hnb : next' b = h)
    (hpb : prev' b = 0) (hn : ∀ a ∈ l, next' a = next a)
    (hp : ∀ a ∈ l, prev' a = if a = h then b else prev a) : Chain next' prev' 0 b (b :: l) :=
  ⟨rfl, hb, hpb, by rw [hnb]; exact hc.relink hnd hn hp⟩

/-- Unlink node `b`: its predecessor takes over its successor, and the other way round. -/
theorem Chain.unlink {next' prev' : Nat → Nat} {p h b : Nat} {l : List Nat}
    (hc : Chain next prev p h l) (hnd : l.Nodup) (hpl : p ∉ l) (hb : b ∈ l)
    (hn : ∀ a ∈ l, a ≠ b → next' a = if a = prev b then next b else next a)
    (hp : ∀ a ∈ l, a ≠ b → prev' a = if a = next b then prev b else prev a) :
    Chain next' prev' p (if prev b = p then next b else h) (l.erase b) := by
  induction l generalizing p h with
  | nil => cases hb
  | cons a l ih =>
      obtain ⟨rfl, ha, hpa, hrest⟩ := hc
      obtain ⟨hal, hnd'⟩ := List.nodup_cons.mp hnd
      rw [List.mem_cons, not_or] at hpl
      by_cases hab : h = b
      · -- the first node goes: the rest is relinked to what stood before it
        subst hab
        rw [List.erase_cons_head, if_pos hpa]
        refine hrest.relink hnd' (fun c hc => ?_) (fun c hc => ?_)
        · have hne : c ≠ h := fun heq => hal (heq ▸ hc)
          have hcp : c ≠ prev h := by
            rw [hpa]
            rintro rfl
            exact hpl.2 hc
          rw [hn c (List.mem_cons_of_mem _ hc) hne, if_neg hcp]
        · have hne : c ≠ h := fun heq => hal (heq ▸ hc)
          rw [hp c (List.mem_cons_of_mem _ hc) hne, hpa]
      · have hbl : b ∈ l := by
          rcases List.mem_cons.mp hb with heq | hbl
          · exact absurd heq.symm hab
          · exact hbl
        have hrec := ih hrest hnd' hal hbl
          (fun c hc => hn c (List.mem_cons_of_mem _ hc))
          (fun c hc => hp c (List.mem_cons_of_mem _ hc))
        have hprev : prev b ≠ p := by
          rcases hrest.prev_mem hbl with heq | hm
          · rw [heq]
            exact fun h' => hpl.1 h'.symm
          · exact fun h' => hpl.2 (h' ▸ hm)
        have hnext : h ≠ next b := by
          rcases hrest.next_mem hbl with heq | hm
          · rw [heq]
            exact ha
          · exact fun h' => hal (h' ▸ hm)
        rw [List.erase_cons_tail (by simpa using hab), if_neg hprev]
        refine ⟨rfl, ha, ?_, ?_⟩
        · rw [hp h (by simp) hab, if_neg hnext, hpa]
        · rw [hn h (by simp) hab]
          have hswap : (if h = prev b then next b else next h) =
              if prev b = h then next b else next h := by
            by_cases heq : h = prev b
            · rw [if_pos heq, if_pos heq.symm]
            · rw [if_neg heq, if_neg (Ne.symm heq)]
          rw [hswap]
          exact hrec

/-- The list with `r` in the place of `b`. -/
def put (l : List Nat) (b r : Nat) : List Nat := l.map fun a => if a = b then r else a

theorem mem_put {l : List Nat} {b r a : Nat} (hb : b ∈ l) :
    a ∈ put l b r ↔ a = r ∨ (a ∈ l ∧ a ≠ b) := by
  simp only [put, List.mem_map]
  constructor
  · rintro ⟨c, hc, rfl⟩
    split
    · exact .inl rfl
    · next hne => exact .inr ⟨hc, hne⟩
  · rintro (rfl | ⟨ha, hne⟩)
    · exact ⟨b, hb, if_pos rfl⟩
    · exact ⟨a, ha, if_neg hne⟩

theorem put_of_not_mem {l : List Nat} {b r : Nat} (hb : b ∉ l) : put l b r = l := by
  induction l with
  | nil => rfl
  | cons a l ih =>
      rw [List.mem_cons, not_or] at hb
      simp only [put, List.map_cons] at *
      rw [if_neg (Ne.symm hb.1), ih hb.2]

theorem nodup_put {l : List Nat} {b r : Nat} (hnd : l.Nodup) (hr : r ∉ l) : (put l b r).Nodup := by
  refine List.Nodup.map_on ?_ hnd
  intro x hx y hy hxy
  split at hxy <;> split at hxy
  · next h1 h2 => rw [h1, h2]
  · exact absurd (hxy ▸ hy) hr
  · exact absurd (hxy ▸ hx) hr
  · exact hxy

/-- Node `r` takes the place of node `b`. -/
theorem Chain.replace {next' prev' : Nat → Nat} {p h b r : Nat} {l : List Nat}
    (hc : Chain next prev p h l) (hnd : l.Nodup) (hpl : p ∉ l) (hb : b ∈ l) (hr : r ≠ 0)
    (hnr : next' r = next b) (hpr : prev' r = prev b)
    (hn : ∀ a ∈ l, a ≠ b → next' a = if a = prev b then r else next a)
    (hp : ∀ a ∈ l, a ≠ b → prev' a = if a = next b then r else prev a) :
    Chain next' prev' p (if prev b = p then r else h) (put l b r) := by
  induction l generalizing p h with
  | nil => cases hb
  | cons a l ih =>
      obtain ⟨rfl, ha, hpa, hrest⟩ := hc
      obtain ⟨hal, hnd'⟩ := List.nodup_cons.mp hnd
      rw [List.mem_cons, not_or] at hpl
      by_cases hab : h = b
      · subst hab
        have hput : put (h :: l) h r = r :: l := by
          have := put_of_not_mem (r := r) hal
          simp only [put, List.map_cons, if_true] at *
          rw [this]
        rw [hput, if_pos hpa]
        refine ⟨rfl, hr, hpr.trans hpa, ?_⟩
        rw [hnr]
        refine hrest.relink hnd' (fun c hc => ?_) (fun c hc => ?_)
        · have hne : c ≠ h := fun heq => hal (heq ▸ hc)
          have hcp : c ≠ prev h := by
            rw [hpa]
            rintro rfl
            exact hpl.2 hc
          rw [hn c (List.mem_cons_of_mem _ hc) hne, if_neg hcp]
        · have hne : c ≠ h := fun heq => hal (heq ▸ hc)
          rw [hp c (List.mem_cons_of_mem _ hc) hne]
      · have hbl : b ∈ l := by
          rcases List.mem_cons.mp hb with heq | hbl
          · exact absurd heq.symm hab
          · exact hbl
        have hrec := ih hrest hnd' hal hbl
          (fun c hc => hn c (List.mem_cons_of_mem _ hc))
          (fun c hc => hp c (List.mem_cons_of_mem _ hc))
        have hprev : prev b ≠ p := by
          rcases hrest.prev_mem hbl with heq | hm
          · rw [heq]
            exact fun h' => hpl.1 h'.symm
          · exact fun h' => hpl.2 (h' ▸ hm)
        have hnext : h ≠ next b := by
          rcases hrest.next_mem hbl with heq | hm
          · rw [heq]
            exact ha
          · exact fun h' => hal (h' ▸ hm)
        have hput : put (h :: l) b r = h :: put l b r := by
          simp only [put, List.map_cons, if_neg hab]
        rw [hput, if_neg hprev]
        refine ⟨rfl, ha, ?_, ?_⟩
        · rw [hp h (by simp) hab, if_neg hnext, hpa]
        · rw [hn h (by simp) hab]
          have hswap : (if h = prev b then r else next h) =
              if prev b = h then r else next h := by
            by_cases heq : h = prev b
            · rw [if_pos heq, if_pos heq.symm]
            · rw [if_neg heq, if_neg (Ne.symm heq)]
          rw [hswap]
          exact hrec

end LinkedList
