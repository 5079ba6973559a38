import Mathlib.Data.List.Nodup
import Kumo.Wm.Window

/-!
# The window list

`g_windows` and `g_window_count` of `wm/wm.c`, without the drawing. Windows are
referred to by the address of their `window_t`; 0 is `NULL`. `zorder` is the list the
array stands for, from the bottom to the top. Raising and removing a window shift the
entries above it; in terms of `zorder` they move it to the end, or take it out.
-/

namespace Kumo

/-- `MAX_WINDOWS`. -/
def maxWindows : Nat := 16

/-- The windows in memory, `g_windows` and `g_window_count`. -/
structure WindowList where
  win : Nat → Window
  slots : Nat → Nat
  count : Nat

namespace WindowList

/-- `wm_add_window`. -/
def wmAddWindow (l : WindowList) (p : Nat) : WindowList :=
  if maxWindows ≤ l.count then l
  else { l with slots := Function.update l.slots l.count p, count := l.count + 1 }

/-- The loop from the top down to the first window that contains the point: its index. -/
def hitFrom (l : WindowList) (x y : Int) : Nat → Option Nat
  | 0 => none
  | n + 1 => if windowHitTest (l.win (l.slots n)) x y then some n else hitFrom l x y n

/-- `wm_find_window_at`, or 0. -/
def wmFindWindowAt (l : WindowList) (x y : Int) : Nat :=
  match l.hitFrom x y l.count with
  | some i => l.slots i
  | none => 0

/-- The loop from the bottom up to the window `p`, with the entries left and the index. -/
def findFrom (l : WindowList) (p : Nat) : Nat → Nat → Option Nat
  | 0, _ => none
  | n + 1, i => if l.slots i = p then some i else findFrom l p n (i + 1)

/-- `for (j = idx; j < g_window_count - 1; j++) g_windows[j] = g_windows[j + 1]`, with the
iterations left. -/
def shiftDown (slots : Nat → Nat) : Nat → Nat → Nat → Nat
  | 0, _ => slots
  | n + 1, j => shiftDown (Function.update slots j (slots (j + 1))) n (j + 1)

/-- Move the window at index `i` to the top. -/
def raise (l : WindowList) (i : Nat) : WindowList :=
  let slots := shiftDown l.slots (l.count - 1 - i) i
  { l with slots := Function.update slots (l.count - 1) (l.slots i) }

/-- `wm_bring_to_top`, and whether it draws. -/
def wmBringToTop (l : WindowList) (p : Nat) : WindowList × Bool :=
  match l.findFrom p l.count 0 with
  | none => (l, false)
  | some i => if i = l.count - 1 then (l, false) else (l.raise i, true)

/-- `wm_remove_window`, and whether it draws. -/
def wmRemoveWindow (l : WindowList) (p : Nat) : WindowList × Bool :=
  match l.findFrom p l.count 0 with
  | none => (l, false)
  | some i =>
      let slots := shiftDown l.slots (l.count - 1 - i) i
      ({ l with slots := Function.update slots (l.count - 1) 0, count := l.count - 1 }, true)

/-- `wm_is_window_active`. -/
def wmIsWindowActive (l : WindowList) (p : Nat) : Bool := (l.findFrom p l.count 0).isSome

/-- `wm_handle_click`, and whether it draws. -/
def wmHandleClick (l : WindowList) (x y : Int) : WindowList × Bool :=
  match l.hitFrom x y l.count with
  | none => (l, false)
  | some i => if i = l.count - 1 then (l, false) else (l.raise i, true)

/-! ## The list it stands for -/

/-- The windows from the bottom to the top. -/
def zorder (l : WindowList) : List Nat := (List.range l.count).map l.slots

@[simp] theorem length_zorder (l : WindowList) : l.zorder.length = l.count := by
  simp [zorder]

@[simp] theorem getElem_zorder (l : WindowList) {i : Nat} (hi : i < l.zorder.length) :
    l.zorder[i] = l.slots i := by
  simp [zorder]

theorem mem_zorder {l : WindowList} {p : Nat} : p ∈ l.zorder ↔ ∃ i, i < l.count ∧ l.slots i = p := by
  simp [zorder]

theorem hitFrom_some {l : WindowList} {x y : Int} {n i : Nat} (h : l.hitFrom x y n = some i) :
    i < n ∧ windowHitTest (l.win (l.slots i)) x y = true ∧
      ∀ j, i < j → j < n → windowHitTest (l.win (l.slots j)) x y = false := by
  induction n with
  | zero => cases h
  | succ n ih =>
      rw [hitFrom] at h
      by_cases hn : windowHitTest (l.win (l.slots n)) x y = true
      · rw [if_pos hn] at h
        obtain rfl := Option.some.inj h
        exact ⟨Nat.lt_succ_self _, hn, fun j h1 h2 => by omega⟩
      · rw [if_neg hn] at h
        obtain ⟨hi, hhit, habove⟩ := ih h
        refine ⟨by omega, hhit, fun j h1 h2 => ?_⟩
        by_cases hj : j = n
        · rw [hj]
          simpa using hn
        · exact habove j h1 (by omega)

theorem hitFrom_none {l : WindowList} {x y : Int} {n : Nat} (h : l.hitFrom x y n = none) :
    ∀ j, j < n → windowHitTest (l.win (l.slots j)) x y = false := by
  induction n with
  | zero => exact fun j hj => absurd hj (Nat.not_lt_zero j)
  | succ n ih =>
      rw [hitFrom] at h
      by_cases hn : windowHitTest (l.win (l.slots n)) x y = true
      · rw [if_pos hn] at h
        cases h
      · rw [if_neg hn] at h
        intro j hj
        by_cases hjn : j = n
        · rw [hjn]
          simpa using hn
        · exact ih h j (by omega)

theorem findFrom_some {l : WindowList} {p n i k : Nat} (h : l.findFrom p n i = some k) :
    i ≤ k ∧ k < i + n ∧ l.slots k = p := by
  induction n generalizing i with
  | zero => cases h
  | succ n ih =>
      rw [findFrom] at h
      by_cases hi : l.slots i = p
      · rw [if_pos hi] at h
        obtain rfl := Option.some.inj h
        exact ⟨Nat.le_refl _, by omega, hi⟩
      · rw [if_neg hi] at h
        obtain ⟨h1, h2, h3⟩ := ih h
        exact ⟨by omega, by omega, h3⟩

theorem findFrom_none {l : WindowList} {p n i : Nat} (h : l.findFrom p n i = none) :
    ∀ k, i ≤ k → k < i + n → l.slots k ≠ p := by
  induction n generalizing i with
  | zero => exact fun k h1 h2 => by omega
  | succ n ih =>
      rw [findFrom] at h
      by_cases hi : l.slots i = p
      · rw [if_pos hi] at h
        cases h
      · rw [if_neg hi] at h
        intro k h1 h2
        by_cases hk : k = i
        · rw [hk]
          exact hi
        · exact ih h k (by omega) (by omega)

/-- The search finds exactly the windows of the list. -/
theorem findFrom_isSome (l : WindowList) (p : Nat) :
    (l.findFrom p l.count 0).isSome = true ↔ p ∈ l.zorder := by
  rw [mem_zorder]
  cases h : l.findFrom p l.count 0 with
  | none =>
      simp only [Option.isSome_none, Bool.false_eq_true, false_iff]
      rintro ⟨i, hi, hp⟩
      exact findFrom_none h i (Nat.zero_le i) (by omega) hp
  | some k =>
      obtain ⟨_, hk, hp⟩ := findFrom_some h
      simp only [Option.isSome_some, true_iff]
      exact ⟨k, by omega, hp⟩

theorem shiftDown_apply (slots : Nat → Nat) (n j k : Nat) :
    shiftDown slots n j k = if j ≤ k ∧ k < j + n then slots (k + 1) else slots k := by
  induction n generalizing slots j with
  | zero =>
      rw [shiftDown, if_neg (by omega)]
  | succ n ih =>
      rw [shiftDown, ih]
      by_cases hin : j + 1 ≤ k ∧ k < j + 1 + n
      · rw [if_pos hin, if_pos (by omega), Function.update_of_ne (by omega)]
      · rw [if_neg hin]
        by_cases hk : k = j
        · rw [hk, Function.update_self, if_pos (by omega)]
        · rw [Function.update_of_ne hk, if_neg (by omega)]

theorem zorder_eraseIdx (l : WindowList) {i : Nat} (hi : i < l.count) (f : Nat → Nat)
    (hf : ∀ k, k < l.count - 1 → f k = if k < i then l.slots k else l.slots (k + 1)) :
    (List.range (l.count - 1)).map f = l.zorder.eraseIdx i := by
  refine List.ext_getElem ?_ fun k h1 h2 => ?_
  · rw [List.length_eraseIdx_of_lt (by rw [length_zorder]; exact hi)]
    simp
  · rw [List.length_map, List.length_range] at h1
    rw [List.getElem_map, List.getElem_range, hf k h1, List.getElem_eraseIdx]
    split <;> simp

/-- Raising moves an entry to the end. -/
theorem zorder_raise (l : WindowList) {i : Nat} (hi : i < l.count) :
    (l.raise i).zorder = l.zorder.eraseIdx i ++ [l.slots i] := by
  have hcount : l.count = (l.count - 1) + 1 := by omega
  have hbody := l.zorder_eraseIdx hi
    (Function.update (shiftDown l.slots (l.count - 1 - i) i) (l.count - 1) (l.slots i))
    fun k hk => by
      rw [Function.update_of_ne (by omega), shiftDown_apply]
      by_cases hki : k < i
      · rw [if_pos hki, if_neg (by omega)]
      · rw [if_neg hki, if_pos (by omega)]
  have htop : (l.raise i).slots (l.count - 1) = l.slots i := Function.update_self _ _ _
  change (List.range l.count).map (l.raise i).slots = _
  rw [hcount, List.range_succ, List.map_append, List.map_singleton, htop, ← hbody]
  rfl

theorem eraseIdx_eq_filter {xs : List Nat} (hnodup : xs.Nodup) {i : Nat} (hi : i < xs.length) :
    xs.eraseIdx i = xs.filter (· != xs[i]) := by
  rw [← hnodup.erase_eq_filter]
  exact (List.erase_eq_eraseIdx_of_idxOf (hnodup.idxOf_getElem i hi)).symm

theorem mem_zorder_of_lt {l : WindowList} {i : Nat} (hi : i < l.count) : l.slots i ∈ l.zorder :=
  mem_zorder.mpr ⟨i, hi, rfl⟩

/-- Raising the window at an index, or leaving it on the top, moves it to the end. -/
theorem zorder_moveToEnd {l : WindowList} (hnodup : l.zorder.Nodup) {i : Nat} (hi : i < l.count) :
    (if i = l.count - 1 then l else l.raise i).zorder =
      l.zorder.filter (· != l.slots i) ++ [l.slots i] := by
  have hlen : i < l.zorder.length := by rwa [length_zorder]
  have herase := eraseIdx_eq_filter hnodup hlen
  rw [getElem_zorder] at herase
  rw [← herase]
  split
  · next htop =>
      have hnone : l.zorder.drop (i + 1) = [] :=
        List.drop_eq_nil_of_le (by rw [length_zorder]; omega)
      calc l.zorder = l.zorder.take i ++ l.zorder.drop i := (List.take_append_drop i _).symm
        _ = l.zorder.take i ++ [l.slots i] := by
            rw [List.drop_eq_getElem_cons hlen, hnone, getElem_zorder]
        _ = l.zorder.eraseIdx i ++ [l.slots i] := by
            rw [List.eraseIdx_eq_take_drop_succ, hnone, List.append_nil]
  · exact l.zorder_raise hi

theorem zorder_bringToTop {l : WindowList} (hnodup : l.zorder.Nodup) {p : Nat}
    (hp : p ∈ l.zorder) : (l.wmBringToTop p).1.zorder = l.zorder.filter (· != p) ++ [p] := by
  obtain ⟨i, hi⟩ := Option.isSome_iff_exists.mp ((findFrom_isSome l p).mpr hp)
  obtain ⟨_, hlt, hslot⟩ := findFrom_some hi
  have hmove := zorder_moveToEnd hnodup (i := i) (by omega)
  rw [hslot] at hmove
  rw [wmBringToTop, hi, ← hmove]
  dsimp only
  split <;> rfl

theorem zorder_removeWindow {l : WindowList} (hnodup : l.zorder.Nodup) {p : Nat}
    (hp : p ∈ l.zorder) : (l.wmRemoveWindow p).1.zorder = l.zorder.filter (· != p) := by
  obtain ⟨i, hi⟩ := Option.isSome_iff_exists.mp ((findFrom_isSome l p).mpr hp)
  obtain ⟨_, hlt, hslot⟩ := findFrom_some hi
  have hlen : i < l.zorder.length := by rw [length_zorder]; omega
  have herase := eraseIdx_eq_filter hnodup hlen
  rw [getElem_zorder, hslot] at herase
  rw [wmRemoveWindow, hi, ← herase]
  refine l.zorder_eraseIdx (by omega) _ fun k hk => ?_
  change Function.update (shiftDown l.slots (l.count - 1 - i) i) (l.count - 1) 0 k = _
  rw [Function.update_of_ne (by omega), shiftDown_apply]
  by_cases hki : k < i
  · rw [if_pos hki, if_neg (by omega)]
  · rw [if_neg hki, if_pos (by omega)]

/-- A window that is found is in the list. -/
theorem wmFindWindowAt_mem {l : WindowList} {x y : Int} (h : l.wmFindWindowAt x y ≠ 0) :
    l.wmFindWindowAt x y ∈ l.zorder := by
  unfold wmFindWindowAt at h ⊢
  cases hhit : l.hitFrom x y l.count with
  | none =>
      rw [hhit] at h
      exact absurd rfl h
  | some i => exact mem_zorder_of_lt (hitFrom_some hhit).1

/-- A click that hits no window leaves the list alone; one that does raises the window found. -/
theorem zorder_handleClick {l : WindowList} (hnodup : l.zorder.Nodup) (hnull : 0 ∉ l.zorder)
    (x y : Int) :
    (l.wmHandleClick x y).1.zorder =
      if l.wmFindWindowAt x y = 0 then l.zorder
      else l.zorder.filter (· != l.wmFindWindowAt x y) ++ [l.wmFindWindowAt x y] := by
  unfold wmHandleClick wmFindWindowAt
  cases hhit : l.hitFrom x y l.count with
  | none => rfl
  | some i =>
      have hi := (hitFrom_some hhit).1
      have hne : l.slots i ≠ 0 := fun h => hnull (h ▸ mem_zorder_of_lt hi)
      dsimp only
      rw [if_neg hne, ← zorder_moveToEnd hnodup hi]
      split <;> rfl

/-- A window of the list contains a point, and none above it does. -/
def Topmost (l : WindowList) (p : Nat) (x y : Int) : Prop :=
  ∃ below above, l.zorder = below ++ p :: above ∧ windowHitTest (l.win p) x y = true ∧
    ∀ q ∈ above, windowHitTest (l.win q) x y = false

/-- The search from the top finds the topmost window. -/
theorem wmFindWindowAt_eq_iff (l : WindowList) {p : Nat} (hp : p ≠ 0) (x y : Int) :
    l.wmFindWindowAt x y = p ↔ l.Topmost p x y := by
  constructor
  · intro h
    unfold wmFindWindowAt at h
    cases hhit : l.hitFrom x y l.count with
    | none =>
        rw [hhit] at h
        exact absurd h.symm hp
    | some i =>
        rw [hhit] at h
        obtain rfl : l.slots i = p := h
        obtain ⟨hi, htest, habove⟩ := hitFrom_some hhit
        have hlen : i < l.zorder.length := by rwa [length_zorder]
        refine ⟨l.zorder.take i, l.zorder.drop (i + 1), ?_, htest, fun q hq => ?_⟩
        · rw [← l.getElem_zorder hlen, ← List.drop_eq_getElem_cons hlen, List.take_append_drop]
        · obtain ⟨k, hk, rfl⟩ := List.mem_iff_getElem.mp hq
          rw [List.length_drop, length_zorder] at hk
          rw [List.getElem_drop, getElem_zorder]
          exact habove _ (by omega) (by omega)
  · rintro ⟨below, above, horder, htest, habove⟩
    have hlen : below.length < l.zorder.length := by simp [horder]
    have hslot : l.slots below.length = p := by
      rw [← l.getElem_zorder hlen]
      simp [horder]
    rw [length_zorder] at hlen
    have hupper : ∀ j, below.length < j → j < l.count →
        windowHitTest (l.win (l.slots j)) x y = false := by
      intro j hlt hj
      have hj' : j < l.zorder.length := by rwa [length_zorder]
      refine habove _ ?_
      rw [← l.getElem_zorder hj']
      obtain ⟨k, rfl⟩ : ∃ k, j = below.length + (k + 1) := ⟨j - below.length - 1, by omega⟩
      simp only [horder]
      rw [List.getElem_append_right (by omega)]
      simp
    unfold wmFindWindowAt
    cases hhit : l.hitFrom x y l.count with
    | none =>
        have hmiss := hitFrom_none hhit _ hlen
        rw [hslot, htest] at hmiss
        cases hmiss
    | some i =>
        obtain ⟨hi, htest', habove'⟩ := hitFrom_some hhit
        rcases Nat.lt_trichotomy i below.length with hlt | rfl | hgt
        · have hmiss := habove' _ hlt hlen
          rw [hslot, htest] at hmiss
          cases hmiss
        · exact hslot
        · rw [hupper i hgt hi] at htest'
          cases htest'

theorem bringToTop_win (l : WindowList) (p : Nat) : (l.wmBringToTop p).1.win = l.win := by
  unfold wmBringToTop
  split
  · rfl
  · split <;> rfl

theorem removeWindow_win (l : WindowList) (p : Nat) : (l.wmRemoveWindow p).1.win = l.win := by
  unfold wmRemoveWindow
  split <;> rfl

theorem handleClick_win (l : WindowList) (x y : Int) : (l.wmHandleClick x y).1.win = l.win := by
  unfold wmHandleClick
  split
  · rfl
  · split <;> rfl

/-- The windows added to an empty list, while there is room. -/
theorem zorder_addWindows (ps : List Nat) (l : WindowList)
    (hroom : l.count + ps.length ≤ maxWindows) :
    (ps.foldl wmAddWindow l).zorder = l.zorder ++ ps ∧ (ps.foldl wmAddWindow l).win = l.win := by
  induction ps generalizing l with
  | nil => exact ⟨(List.append_nil _).symm, rfl⟩
  | cons p ps ih =>
      rw [List.length_cons] at hroom
      have hadd : l.wmAddWindow p =
          { l with slots := Function.update l.slots l.count p, count := l.count + 1 } :=
        if_neg (by omega)
      have hz : (l.wmAddWindow p).zorder = l.zorder ++ [p] := by
        rw [hadd]
        simp only [zorder, List.range_succ, List.map_append, List.map_singleton,
          Function.update_self]
        congr 1
        refine List.map_congr_left fun k hk => Function.update_of_ne ?_ _ _
        exact Nat.ne_of_lt (List.mem_range.mp hk)
      have hcount : (l.wmAddWindow p).count = l.count + 1 := by rw [hadd]
      have hwin : (l.wmAddWindow p).win = l.win := by rw [hadd]
      obtain ⟨hrest, hrestwin⟩ := ih (l.wmAddWindow p) (by omega)
      exact ⟨by rw [List.foldl_cons, hrest, hz, List.append_assoc, List.singleton_append],
        by rw [List.foldl_cons, hrestwin, hwin]⟩

end WindowList

end Kumo
