import Kumo.Lib.Memory

/-!
# Tables of 32-bit words in memory

A table is an array of little-endian words at a base address. `fillTable` and
`copyTable` are the two loops a program runs over a whole table, in increasing
order of the index. Each has the same two facts: what the entries are afterwards,
and that nothing outside the table changes.
-/

namespace Memory

/-- `table[i]`. -/
def entry (memory : Memory) (table i : Nat) : Nat := memory.load32 (table + 4 * i)

/-- `table[i] = value`. -/
def setEntry (memory : Memory) (table i value : Nat) : Memory :=
  memory.store32 (table + 4 * i) value

/-- `for (i = 0; i < n; i++) table[i] = value(i)`. -/
def fillTable (memory : Memory) (table : Nat) (value : Nat → Nat) : Nat → Memory
  | 0 => memory
  | n + 1 => (fillTable memory table value n).setEntry table n (value n)

/-- `for (i = 0; i < n; i++) dst[i] = src[i]`. -/
def copyTable (memory : Memory) (dst src : Nat) : Nat → Memory
  | 0 => memory
  | n + 1 =>
      let copied := copyTable memory dst src n
      copied.setEntry dst n (copied.entry src n)

theorem entry_lt (memory : Memory) (table i : Nat) : entry memory table i < 2 ^ 32 :=
  load32_lt memory _

/-- An entry depends only on its four bytes. -/
theorem entry_congr {memory other : Memory} {table i : Nat}
    (h : ∀ x, table + 4 * i ≤ x → x < table + 4 * i + 4 → memory x = other x) :
    entry memory table i = entry other table i :=
  load32_congr h

theorem entry_setEntry {memory : Memory} {table i value : Nat} (hv : value < 2 ^ 32) :
    entry (setEntry memory table i value) table i = value :=
  (load32_store32 memory _ value).trans (Nat.mod_eq_of_lt hv)

/-- Storing one entry leaves the entries at other addresses alone. -/
theorem entry_setEntry_other {memory : Memory} {table i value table' i' : Nat}
    (h : table' + 4 * i' + 4 ≤ table + 4 * i ∨ table + 4 * i + 4 ≤ table' + 4 * i') :
    entry (setEntry memory table i value) table' i' = entry memory table' i' :=
  load32_store32_disjoint h

theorem setEntry_outside {memory : Memory} {table i value x : Nat}
    (h : x < table + 4 * i ∨ table + 4 * i + 4 ≤ x) : setEntry memory table i value x = memory x :=
  store32_outside h

/-- A filled table holds the given values. -/
theorem entry_fillTable {memory : Memory} {table : Nat} {f : Nat → Nat} {n i : Nat}
    (hi : i < n) (hv : f i < 2 ^ 32) : entry (fillTable memory table f n) table i = f i := by
  induction n with
  | zero => omega
  | succ n ih =>
      rw [fillTable]
      by_cases hlast : i = n
      · subst hlast
        exact entry_setEntry hv
      · rw [entry_setEntry_other (by omega)]
        exact ih (by omega)

theorem fillTable_outside {memory : Memory} {table : Nat} {value : Nat → Nat} {n x : Nat}
    (h : x < table ∨ table + 4 * n ≤ x) : fillTable memory table value n x = memory x := by
  induction n with
  | zero => rfl
  | succ n ih =>
      rw [fillTable, setEntry_outside (by omega)]
      exact ih (by omega)

theorem copyTable_outside {memory : Memory} {dst src n x : Nat}
    (h : x < dst ∨ dst + 4 * n ≤ x) : copyTable memory dst src n x = memory x := by
  induction n with
  | zero => rfl
  | succ n ih =>
      rw [copyTable, setEntry_outside (by omega)]
      exact ih (by omega)

/-- A copied table holds the entries of the source, given that the two do not overlap. -/
theorem entry_copyTable {memory : Memory} {dst src n i : Nat} (hi : i < n)
    (hdisj : dst + 4 * n ≤ src ∨ src + 4 * n ≤ dst) :
    entry (copyTable memory dst src n) dst i = entry memory src i := by
  induction n with
  | zero => omega
  | succ n ih =>
      rw [copyTable]
      by_cases hlast : i = n
      · subst hlast
        rw [entry_setEntry (entry_lt _ _ _)]
        exact entry_congr fun x _ _ => copyTable_outside (by omega)
      · rw [entry_setEntry_other (by omega)]
        exact ih (by omega) (by omega)

end Memory
