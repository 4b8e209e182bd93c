import Mathlib.Data.Int.Notation
import Mathlib.Logic.Function.Basic
import PicoOcaml.Lts

/-! The POSIX mutex calls on two cores, one shared read or write at a time. -/
namespace PicoOcaml.OcamlStubs

inductive Core | zero | one
deriving DecidableEq

def Core.other : Core → Core
  | .zero => .one
  | .one => .zero

theorem Core.other_ne (c : Core) : c.other ≠ c := by cases c <;> simp [Core.other]

theorem Core.eq_or_other (c d : Core) : d = c ∨ d = c.other := by
  cases c <;> cases d <;> simp [Core.other]

theorem Core.other_other (c : Core) : c.other.other = c := by cases c <;> rfl

def maxMutexes : ℕ := 64

/-- `pico_mutex_entry_t`: `magic` says whether the field holds `MUTEX_MAGIC`. -/
structure Entry where
  magic : Bool
  owner : Option Core
  depth : ℕ
deriving DecidableEq

/-- The SDK's `recursive_mutex_try_enter`. -/
def Entry.tryEnter (c : Core) (e : Entry) : Option Entry :=
  if e.owner = none ∨ e.owner = some c then some ⟨e.magic, some c, e.depth + 1⟩ else none

/-- The SDK's `recursive_mutex_exit`. -/
def Entry.exit (e : Entry) : Entry :=
  ⟨e.magic, if e.depth - 1 = 0 then none else e.owner, e.depth - 1⟩

namespace Mutex

inductive Fn | init | lock | trylock | unlock
deriving DecidableEq

/-- The next shared access of a call. `idx` and `count` are its locals. -/
inductive Pc
  | readHandle
  | checkSlot (idx : ℕ)
  | checkCount
  | readCount
  | writeCount (count : ℕ)
  | initSlot (idx : ℕ)
  | setMagic (idx : ℕ)
  | writeHandle (idx : ℕ)
  | tryEnter (idx : ℕ)
  | wait (idx : ℕ)
  | exit (idx : ℕ)
deriving DecidableEq

/-- A running call: its function, its argument and where it stands. -/
structure Frame where
  fn : Fn
  m : ℕ
  pc : Pc
deriving DecidableEq

inductive Phase | untouched | running | ready
deriving DecidableEq

/-- The statics and the mutex objects. Two history variables follow: how far the explicit
initialisation of an object is, and how many successful locks a core has not undone. -/
structure Shared where
  handle : ℕ → ℤ
  mutexCount : ℕ
  storage : ℕ → Entry
  heldMutexes : Core → BitVec 64
  heldCounts : Core → ℕ → ℕ
  phase : ℕ → Phase
  holds : Core → ℕ → ℕ

/-- Each core has a stack of calls: while a lock waits, `try_handle_stw_interrupt` may make
more. -/
structure State where
  shared : Shared
  stack : Core → List Frame

/-- Objects in `isLazy` start from the initialiser -1, the others from arbitrary memory. -/
def State.initial (isLazy : ℕ → Bool) (memory : ℕ → ℤ) : State where
  shared :=
    { handle := fun m => if isLazy m then -1 else memory m
      mutexCount := 0
      storage := fun _ => ⟨false, none, 0⟩
      heldMutexes := fun _ => 0
      heldCounts := fun _ _ => 0
      phase := fun m => if isLazy m then .ready else .untouched
      holds := fun _ _ => 0 }
  stack := fun _ => []

variable (g : Shared) (c : Core)

def Shared.setHolds (m n : ℕ) : Shared :=
  { g with holds := Function.update g.holds c (Function.update (g.holds c) m n) }

def Shared.setEntry (idx : ℕ) (e : Entry) : Shared :=
  { g with storage := Function.update g.storage idx e }

/-- The bookkeeping of a core, which only that core touches. -/
def Shared.track (idx n : ℕ) (mask : BitVec 64) : Shared :=
  { g with
    heldCounts := Function.update g.heldCounts c (Function.update (g.heldCounts c) idx n)
    heldMutexes := Function.update g.heldMutexes c mask }

/-- The call returns 0 with the lock. -/
def Shared.acquired (m idx : ℕ) (e : Entry) : Shared :=
  ((g.setEntry idx e).track c idx (g.heldCounts c idx + 1)
    (g.heldMutexes c ||| (1 : BitVec 64) <<< idx)).setHolds c m (g.holds c m + 1)

def Shared.released (m idx : ℕ) : Shared :=
  let g' := g.setEntry idx (g.storage idx).exit
  let n := g.heldCounts c idx
  let g' := if n > 0 then
      g'.track c idx (n - 1)
        (if n - 1 = 0 then g.heldMutexes c &&& ~~~((1 : BitVec 64) <<< idx) else g.heldMutexes c)
    else g'
  g'.setHolds c m (g.holds c m - 1)

def Shared.finishInit (m : ℕ) : Shared :=
  { g with phase := Function.update g.phase m .ready }

/-- One shared access of a call, and where the call stands after it; `none` when it has
returned. -/
def exec (f : Frame) : Shared × Option Pc :=
  match f.pc with
  | .readHandle =>
    let idx := g.handle f.m
    if idx < 0 ∨ idx ≥ maxMutexes then (g, if f.fn = .unlock then none else some .checkCount)
    else (g, some (.checkSlot idx.toNat))
  | .checkSlot idx =>
    match (g.storage idx).magic, f.fn with
    | true, .unlock => (g, some (.exit idx))
    | true, _ => (g, some (.tryEnter idx))
    | false, .unlock => (g, none)
    | false, _ => (g, some .checkCount)
  | .checkCount =>
    if g.mutexCount ≥ maxMutexes then
      match f.fn with
      -- ENOMEM, which caml_plat_mutex_init drops
      | .init => (g.finishInit f.m, none)
      -- 0, as if locked
      | .lock => (g.setHolds c f.m (g.holds c f.m + 1), none)
      -- EINVAL
      | _ => (g, none)
    else (g, some .readCount)
  | .readCount => (g, some (.writeCount g.mutexCount))
  | .writeCount count => ({ g with mutexCount := count + 1 }, some (.initSlot count))
  | .initSlot idx => (g.setEntry idx ⟨(g.storage idx).magic, none, 0⟩, some (.setMagic idx))
  | .setMagic idx =>
    (g.setEntry idx { g.storage idx with magic := true }, some (.writeHandle idx))
  | .writeHandle idx =>
    let g := { g with handle := Function.update g.handle f.m idx }
    if f.fn = .init then (g.finishInit f.m, none) else (g, some (.tryEnter idx))
  | .tryEnter idx =>
    match Entry.tryEnter c (g.storage idx) with
    | some e => (g.acquired c f.m idx e, none)
    | none => (g, if f.fn = .lock then some (.wait idx) else none)
  | .wait idx => (g, some (.tryEnter idx))
  | .exit idx => (g.released c f.m idx, none)

def Frame.next (f : Frame) (rest : List Frame) : Option Pc → List Frame
  | some pc => { f with pc := pc } :: rest
  | none => rest

/-- What one core does: call a function, or go on with its latest call. -/
inductive Act
  | call (fn : Fn) (m : ℕ)
  | go
deriving DecidableEq

def Fn.start : Fn → Pc
  | .init => .checkCount
  | _ => .readHandle

def State.callable (s : State) (c : Core) : Bool :=
  match s.stack c with
  | [] => true
  | ⟨_, _, .wait _⟩ :: _ => true
  | _ => false

/-- Callers initialise an object at most once and before its use, and unlock what they hold. -/
def State.mayCall (s : State) (c : Core) (m : ℕ) : Fn → Bool
  | .init => s.shared.phase m = .untouched
  | .unlock => s.shared.phase m = .ready ∧ 0 < s.shared.holds c m
  | _ => s.shared.phase m = .ready

def Enabled (s : State) : Core × Act → Bool
  | (c, .call fn m) => s.callable c && s.mayCall c m fn
  | (c, .go) => (s.stack c).isEmpty = false

def next (s : State) : Core × Act → State
  | (c, .call fn m) =>
    let shared := if fn = .init then
        { s.shared with phase := Function.update s.shared.phase m .running }
      else s.shared
    ⟨shared, Function.update s.stack c (⟨fn, m, fn.start⟩ :: s.stack c)⟩
  | (c, .go) =>
    match s.stack c with
    | [] => s
    | f :: rest =>
      let (shared, pc) := exec s.shared c f
      ⟨shared, Function.update s.stack c (f.next rest pc)⟩

def Step (s : State) (a : Core × Act) (t : State) : Prop := Enabled s a = true ∧ t = next s a

/-- An object that is in use refers to this slot of the table. -/
def Shared.Maps (m idx : ℕ) : Prop :=
  g.phase m = .ready ∧ g.handle m = idx ∧ idx < maxMutexes

/-- No slot is shared, and whoever has locked an object owns its slot alone. -/
structure Exclusive (s : State) : Prop where
  distinct : ∀ m m' idx, s.shared.Maps m idx → s.shared.Maps m' idx → m = m'
  owned : ∀ c m, 0 < s.shared.holds c m → ∃ idx, s.shared.Maps m idx ∧
    (s.shared.storage idx).owner = some c ∧ s.shared.holds c.other m = 0

end Mutex

end PicoOcaml.OcamlStubs
