import Kumo.Fs.FileStore
import Kumo.Lib.Int32
import Kumo.Lib.Simulation
import Kumo.Lib.Strings
import Kumo.Sched.ControlBlock

/-!
# The registry of programs

`run_register` and `run_exec` of `kernel/main.c`. A program is a name and a page of code; the
registry has eight places, and a name of more than 31 characters is cut. `run_exec` looks for
the first place with the name it is given, and starts a task at its page. `registry_refines_list`
says that the array is a list of names and pages, in whatever order programs are registered and
started. The serial output is left out.
-/

namespace Kumo

open Transition

/-- A string of C: the characters before the terminator. -/
abbrev CString := { name : Bytes // (0 : BitVec 8) ∉ name }

/-- `run_entry_t`. -/
structure RunEntry where
  name : Nat → BitVec 8
  codePage : Nat

/-- `g_run_registry` and `g_run_count`. -/
structure RunRegistry where
  entries : Nat → RunEntry
  count : Nat

namespace RunRegistry

/-- `RUN_MAX_ENTRIES`. -/
def runMaxEntries : Nat := 8

/-- The two variables before anything is registered. -/
def empty : RunRegistry := ⟨fun _ => ⟨fun _ => 0, 0⟩, 0⟩

/-- The loop of `run_register` from `i` on, and the terminator. -/
def copyRunName (dest : Nat → BitVec 8) (i : Nat) : Bytes → (Nat → BitVec 8)
  | [] => Function.update dest i 0
  | c :: name =>
      if i < 31 then copyRunName (Function.update dest i c) (i + 1) name
      else Function.update dest i 0

/-- `run_register`. -/
def runRegister (r : RunRegistry) (name : Bytes) (codePage : Nat) : RunRegistry :=
  if runMaxEntries ≤ r.count then r
  else
    { entries := Function.update r.entries r.count
        ⟨copyRunName (r.entries r.count).name 0 name, codePage⟩
      count := r.count + 1 }

/-- The inner loop of `run_exec` from character `j` on. -/
def sameRunName (entry : Nat → BitVec 8) : Nat → Nat → Bytes → Bool
  | 0, _, _ => true
  | _ + 1, j, [] => entry j = 0
  | steps + 1, j, c :: name => if entry j ≠ c then false else sameRunName entry steps (j + 1) name

/-- The outer loop of `run_exec` from entry `i` on. -/
def findEntry (r : RunRegistry) (name : Bytes) : Nat → Nat → Option RunEntry
  | 0, _ => none
  | steps + 1, i =>
      if sameRunName (r.entries i).name 32 0 name then some (r.entries i)
      else findEntry r name steps (i + 1)

end RunRegistry

/-- What `run_exec` does with the page it has found. -/
def launchPage (returnToRing3 : Nat) (s : Sched) (page : Nat) : Option (Int × Sched) :=
  match s.taskCreateUserWithPages returnToRing3 page 0 [page] with
  | none => none
  | some (t, s) => if t ≠ 0 then some (wrap32 (s.field t idOff), s) else some (-1, s)

/-- `run_exec`. There is no result when a call in it does not return. -/
def runExec (returnToRing3 : Nat) (r : RunRegistry) (s : Sched) (name : Bytes) :
    Option (Int × Sched) :=
  match r.findEntry name r.count 0 with
  | none => some (-1, s)
  | some e => launchPage returnToRing3 s e.codePage

/-! ## The array and the list -/

/-- The programs of the registry, in the order of their places: a name and a page. -/
abbrev Programs := List (Bytes × Nat)

namespace Programs

/-- There is room for eight programs. -/
def register (ps : Programs) (name : Bytes) (codePage : Nat) : Programs :=
  if ps.length < 8 then ps ++ [(name.take 31, codePage)] else ps

/-- The page of the first program of this name. -/
def page (ps : Programs) (name : Bytes) : Option Nat :=
  (ps.find? fun p => p.1 = name).map Prod.snd

end Programs

/-- An array of characters holds a name and its terminator. -/
structure NameHeld (entry : Nat → BitVec 8) (name : Bytes) : Prop where
  chars : HoldsAt entry 0 name
  stop : entry name.length = 0
  noNul : (0 : BitVec 8) ∉ name
  short : name.length ≤ 31

/-- An entry holds a program. -/
def EntryHolds (e : RunEntry) (p : Bytes × Nat) : Prop := NameHeld e.name p.1 ∧ e.codePage = p.2

/-- The registry holds these programs. -/
structure RunRegistry.Holds (r : RunRegistry) (ps : Programs) : Prop where
  count : r.count = ps.length
  room : ps.length ≤ 8
  entry : ∀ i (hi : i < ps.length), EntryHolds (r.entries i) ps[i]

variable {entry : Nat → BitVec 8} {name other : Bytes} {i j k steps : Nat} {r : RunRegistry}
  {ps : Programs}

namespace RunRegistry

/-- The loop copies the characters up to the limit. -/
theorem copyRunName_held {done : Bytes} (hdone : HoldsAt entry 0 done)
    (hlen : done.length ≤ 31) :
    HoldsAt (copyRunName entry done.length name) 0 ((done ++ name).take 31) ∧
      copyRunName entry done.length name ((done ++ name).take 31).length = 0 := by
  induction name generalizing entry done with
  | nil =>
      rw [List.append_nil, List.take_of_length_le hlen, copyRunName]
      exact ⟨hdone.update (.inr (by omega)) 0, Function.update_self ..⟩
  | cons c name ih =>
      rw [copyRunName]
      by_cases hroom : done.length < 31
      · have hnext := hdone.snoc c
        rw [Nat.zero_add] at hnext
        have hih := ih hnext (by rw [List.length_append]; exact hroom)
        rw [List.length_append, List.append_assoc] at hih
        rw [if_pos hroom]
        exact hih
      · have hfull : done.length = 31 := by omega
        rw [if_neg hroom, List.take_append_of_le_length (by omega), List.take_of_length_le hlen]
        exact ⟨hdone.update (.inr (by omega)) 0, Function.update_self ..⟩

/-- The comparison is equality of names. -/
theorem sameRunName_iff (h : HoldsAt entry j name) (hstop : entry (j + name.length) = 0)
    (hnul : (0 : BitVec 8) ∉ name) (hother : (0 : BitVec 8) ∉ other) (hsteps : name.length < steps) :
    sameRunName entry steps j other = true ↔ name = other := by
  induction name generalizing j other steps with
  | nil =>
      obtain ⟨steps, rfl⟩ := Nat.exists_eq_succ_of_ne_zero (by omega : steps ≠ 0)
      rw [List.length_nil, Nat.add_zero] at hstop
      cases other with
      | nil => simp [sameRunName, hstop]
      | cons d other =>
          have hne : entry j ≠ d := by
            rw [hstop]
            exact fun heq => hother (heq ▸ List.mem_cons_self ..)
          simp [sameRunName, hne]
  | cons c name ih =>
      obtain ⟨steps, rfl⟩ := Nat.exists_eq_succ_of_ne_zero (by omega : steps ≠ 0)
      obtain ⟨hfirst, hrest⟩ := holdsAt_cons.mp h
      rw [List.length_cons] at hstop hsteps
      have hc : c ≠ 0 := fun heq => hnul (heq ▸ List.mem_cons_self ..)
      cases other with
      | nil => simpa [sameRunName, hfirst] using hc
      | cons d other =>
          have hrec := ih hrest (by rw [← hstop]; congr 1; omega)
            (fun h0 => hnul (List.mem_cons_of_mem _ h0)) (fun h0 => hother (List.mem_cons_of_mem _ h0))
            (by omega : name.length < steps)
          rw [sameRunName, hfirst]
          by_cases hcd : c = d
          · rw [if_neg (not_not.mpr hcd), hrec, hcd, List.cons_inj_right]
          · rw [if_pos hcd]
            simp [hcd]

/-- Nothing is registered. -/
theorem holds_empty : empty.Holds [] :=
  ⟨rfl, Nat.zero_le 8, fun i hi => absurd hi (Nat.not_lt_zero i)⟩

/-- Registering a program. -/
theorem Holds.register (h : r.Holds ps) (hnul : (0 : BitVec 8) ∉ name) (codePage : Nat) :
    (r.runRegister name codePage).Holds (ps.register name codePage) := by
  have hcount := h.count
  unfold runRegister Programs.register runMaxEntries
  by_cases hroom : ps.length < 8
  · rw [if_neg (by omega), if_pos hroom]
    refine ⟨by rw [List.length_append, hcount]; rfl, by rw [List.length_append]; exact hroom, ?_⟩
    intro i hi
    by_cases hold : i < ps.length
    · rw [List.getElem_append_left hold]
      show EntryHolds (Function.update r.entries r.count _ i) _
      rw [Function.update_of_ne (by omega)]
      exact h.entry i hold
    · obtain rfl : i = ps.length := by
        rw [List.length_append] at hi
        exact Nat.le_antisymm (Nat.le_of_lt_succ hi) (Nat.le_of_not_lt hold)
      rw [List.getElem_concat_length rfl]
      show EntryHolds (Function.update r.entries r.count _ ps.length) _
      rw [← hcount, Function.update_self]
      obtain ⟨hchars, hstop⟩ := @copyRunName_held (r.entries r.count).name name [] holdsAt_nil
        (by decide)
      exact ⟨⟨hchars, hstop, fun h0 => hnul (List.mem_of_mem_take h0), List.length_take_le _ _⟩, rfl⟩
  · rw [if_pos (by omega), if_neg hroom]
    exact h

/-- Looking for a program. -/
theorem Holds.findEntry (h : r.Holds ps) (hnul : (0 : BitVec 8) ∉ name) :
    (r.findEntry name r.count 0).map RunEntry.codePage = ps.page name := by
  have hloop : ∀ steps i, i + steps = ps.length →
      (r.findEntry name steps i).map RunEntry.codePage =
        ((ps.drop i).find? fun p => p.1 = name).map Prod.snd := by
    intro steps
    induction steps with
    | zero =>
        intro i hi
        rw [List.drop_eq_nil_of_le (by omega)]
        rfl
    | succ steps ih =>
        intro i hi
        have hlt : i < ps.length := by omega
        obtain ⟨⟨hchars, hstop, hnul', hshort⟩, hpage⟩ := h.entry i hlt
        have hsame := sameRunName_iff hchars (by rw [Nat.zero_add]; exact hstop) hnul' hnul
          (by omega : ps[i].1.length < 32)
        rw [RunRegistry.findEntry, List.drop_eq_getElem_cons hlt]
        by_cases heq : ps[i].1 = name
        · rw [if_pos (hsame.mpr heq), List.find?_cons_of_pos (by simpa using heq)]
          exact congrArg some hpage
        · rw [if_neg (fun hyes => heq (hsame.mp hyes)), List.find?_cons_of_neg (by simpa using heq)]
          exact ih (i + 1) (by omega)
  rw [h.count]
  exact hloop ps.length 0 (Nat.zero_add _)

end RunRegistry

/-! ## Runs -/

/-- A program is registered, or one is to be run. -/
inductive RunEvent where
  | register (name : CString) (codePage : Nat)
  | exec (name : CString)

/-- A registry, in either form, with the scheduler and what `run_exec` has returned so far. -/
structure RunState (Registry : Type) where
  registry : Registry
  sched : Sched
  returned : List Int

namespace RunState

/-- The state before anything is registered. -/
def start {Registry : Type} (registry : Registry) (s : Sched) : RunState Registry :=
  ⟨registry, s, []⟩

/-- What the two functions do. -/
def step (returnToRing3 : Nat) (σ : RunState RunRegistry) : RunEvent → Option (RunState RunRegistry)
  | .register name codePage => some { σ with registry := σ.registry.runRegister name codePage }
  | .exec name =>
      match runExec returnToRing3 σ.registry σ.sched name with
      | none => none
      | some (ret, s) => some ⟨σ.registry, s, σ.returned ++ [ret]⟩

/-- What they are for: the page of the program of that name is launched, and without one nothing
happens. -/
def stepList (returnToRing3 : Nat) (σ : RunState Programs) : RunEvent → Option (RunState Programs)
  | .register name codePage => some { σ with registry := σ.registry.register name codePage }
  | .exec name =>
      match σ.registry.page name with
      | none => some { σ with returned := σ.returned ++ [-1] }
      | some page =>
          match launchPage returnToRing3 σ.sched page with
          | none => none
          | some (ret, s) => some ⟨σ.registry, s, σ.returned ++ [ret]⟩

/-- The registry holds the programs, and the rest is the same. -/
structure Matches (σ : RunState RunRegistry) (τ : RunState Programs) : Prop where
  holds : σ.registry.Holds τ.registry
  sched : σ.sched = τ.sched
  returned : σ.returned = τ.returned

/-- The array and the list move in step. -/
theorem step_matches (returnToRing3 : Nat) :
    InStep (step returnToRing3) (stepList returnToRing3) Matches := by
  rintro ⟨r, s, returned⟩ ⟨ps, s', returned'⟩ event ⟨hholds, hsched, hreturned⟩
  obtain rfl : s = s' := hsched
  obtain rfl : returned = returned' := hreturned
  cases event with
  | register name codePage => exact .some ⟨hholds.register name.2 codePage, rfl, rfl⟩
  | exec name =>
      have hfind := hholds.findEntry name.2
      simp only [step, stepList, runExec]
      rw [← hfind]
      cases r.findEntry name r.count 0 with
      | none => exact .some ⟨hholds, rfl, rfl⟩
      | some e =>
          simp only [Option.map_some]
          cases launchPage returnToRing3 s e.codePage with
          | none => exact .none
          | some result => exact .some ⟨hholds, rfl, rfl⟩

end RunState

/-- In whatever order programs are registered and run, `run_exec` does what a list of at most eight
names and pages says: it starts a task at the page of the first program whose name, cut at 31
characters, is the one it is given, and returns -1 and changes nothing if there is none. -/
theorem registry_refines_list (returnToRing3 : Nat) (s : Sched) (events : List RunEvent) :
    (run (RunState.step returnToRing3) (RunState.start RunRegistry.empty s) events).map
        (fun σ => (σ.sched, σ.returned)) =
      (run (RunState.stepList returnToRing3) (RunState.start [] s) events).map
        fun σ => (σ.sched, σ.returned) :=
  (RunState.step_matches returnToRing3).output_eq
    (fun _ _ h => Prod.ext h.sched h.returned)
    ⟨RunRegistry.holds_empty, rfl, rfl⟩ events

end Kumo
