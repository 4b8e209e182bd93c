import PicoOcaml.OcamlStubs.Mutex

/-! The bookkeeping of held mutexes on two cores. The SDK's operation on the mutex, the counter
and the mask are separate accesses here; `cleanup` is the end of `core1_wrapper`. -/
namespace PicoOcaml.OcamlStubs.Tracking

inductive Fn | init | lock | trylock | unlock | condWait | cleanup
deriving DecidableEq

/-- The next access of a call. `sleep` is the loop of `pthread_cond_wait` that polls the
generation. -/
inductive Pc
  | readHandle
  | checkSlot (idx : ℕ)
  | checkCount
  | readCount
  | writeCount (count : ℕ)
  | initSlot (idx : ℕ)
  | setMagic (idx : ℕ)
  | writeHandle (idx : ℕ)
  | tryEnter (idx : ℕ)
  | wait (idx : ℕ)
  | setMask (idx : ℕ)
  | incCount (idx : ℕ)
  | exit (idx : ℕ)
  | decCount (idx : ℕ)
  | clearMask (idx : ℕ)
  | sleep (mutexIdx : ℤ)
  | checkAgain (idx : ℕ)
  | cleanSlot (i : ℕ)
  | cleanExit (i : ℕ)
  | cleanCount (i : ℕ)
  | cleanMask
deriving DecidableEq

structure Frame where
  fn : Fn
  m : ℕ
  pc : Pc
deriving DecidableEq

/-- The statics and the mutex objects. Recursion depths and counters stay below their limits, so
they are numbers. -/
structure Shared where
  handle : ℕ → ℤ
  mutexCount : ℕ
  storage : ℕ → Entry
  heldMutexes : Core → BitVec 64
  heldCounts : Core → ℕ → ℕ

structure State where
  shared : Shared
  stack : Core → List Frame

def State.initial (memory : ℕ → ℤ) : State :=
  ⟨⟨memory, 0, fun _ => ⟨false, none, 0⟩, fun _ => 0, fun _ _ => 0⟩, fun _ => []⟩

variable (g : Shared) (c : Core)

def Shared.setEntry (idx : ℕ) (e : Entry) : Shared :=
  { g with storage := Function.update g.storage idx e }

def Shared.setCount (idx n : ℕ) : Shared :=
  { g with heldCounts := Function.update g.heldCounts c (Function.update (g.heldCounts c) idx n) }

def Shared.setMask (mask : BitVec 64) : Shared :=
  { g with heldMutexes := Function.update g.heldMutexes c mask }

/-- `1ULL << idx`. -/
def bit (idx : ℕ) : BitVec 64 := (1 : BitVec 64) <<< idx

/-- One access of a call on core `c`, and where the call stands after it; `none` when it has
returned. `signalled` says whether a sleeping call sees another generation. -/
def exec (f : Frame) (signalled : Bool) : Shared × Option Pc :=
  match f.pc with
  | .readHandle =>
    let idx := g.handle f.m
    if 0 ≤ idx ∧ idx < maxMutexes then (g, some (.checkSlot idx.toNat))
    else
      match f.fn with
      | .unlock => (g, none)
      | .condWait => (g, some (.sleep idx))
      | _ => (g, some .checkCount)
  | .checkSlot idx =>
    match (g.storage idx).magic, f.fn with
    | true, .unlock | true, .condWait => (g, some (.exit idx))
    | true, _ => (g, some (.tryEnter idx))
    | false, .unlock => (g, none)
    | false, .condWait => (g, some (.sleep idx))
    | false, _ => (g, some .checkCount)
  | .checkCount => if g.mutexCount ≥ maxMutexes then (g, none) else (g, some .readCount)
  | .readCount => (g, some (.writeCount g.mutexCount))
  | .writeCount count => ({ g with mutexCount := count + 1 }, some (.initSlot count))
  | .initSlot idx => (g.setEntry idx ⟨(g.storage idx).magic, none, 0⟩, some (.setMagic idx))
  | .setMagic idx =>
    (g.setEntry idx { g.storage idx with magic := true }, some (.writeHandle idx))
  | .writeHandle idx =>
    ({ g with handle := Function.update g.handle f.m idx },
      if f.fn = .init then none else some (.tryEnter idx))
  | .tryEnter idx =>
    match Entry.tryEnter c (g.storage idx) with
    | some e => (g.setEntry idx e, some (.setMask idx))
    | none => (g, if f.fn = .trylock then none else some (.wait idx))
  | .wait idx => (g, some (.tryEnter idx))
  | .setMask idx => (g.setMask c (g.heldMutexes c ||| bit idx), some (.incCount idx))
  | .incCount idx => (g.setCount c idx (g.heldCounts c idx + 1), none)
  | .exit idx => (g.setEntry idx (g.storage idx).exit, some (.decCount idx))
  | .decCount idx =>
    if g.heldCounts c idx > 0 then
      (g.setCount c idx (g.heldCounts c idx - 1), some (.clearMask idx))
    -- only pthread_cond_wait tests for 0 outside of this branch
    else (g, if f.fn = .condWait then some (.clearMask idx) else none)
  | .clearMask idx =>
    (if g.heldCounts c idx = 0 then g.setMask c (g.heldMutexes c &&& ~~~(bit idx)) else g,
      if f.fn = .condWait then some (.sleep idx) else none)
  | .sleep mutexIdx =>
    if signalled = true then
      if 0 ≤ mutexIdx ∧ mutexIdx < maxMutexes then (g, some (.checkAgain mutexIdx.toNat))
      else (g, none)
    else (g, some (.sleep mutexIdx))
  | .checkAgain idx =>
    if (g.storage idx).magic = true then (g, some (.tryEnter idx)) else (g, none)
  | .cleanSlot i =>
    if i < maxMutexes then
      if g.heldCounts .one i > 0 then (g, some (.cleanExit i)) else (g, some (.cleanSlot (i + 1)))
    else (g, some .cleanMask)
  | .cleanExit i => (g.setEntry i (g.storage i).exit, some (.cleanCount i))
  | .cleanCount i => (g.setCount .one i (g.heldCounts .one i - 1), some (.cleanSlot i))
  | .cleanMask => (g.setMask .one 0, none)

def Frame.next (f : Frame) (rest : List Frame) : Option Pc → List Frame
  | some pc => { f with pc := pc } :: rest
  | none => rest

inductive Act
  | call (fn : Fn) (m : ℕ)
  | go (signalled : Bool)
deriving DecidableEq

def Fn.start : Fn → Pc
  | .init => .checkCount
  | .cleanup => .cleanSlot 0
  | _ => .readHandle

/-- Both loops that poll call `try_handle_stw_interrupt`, which may run more code. -/
def Pc.resting : Pc → Bool
  | .wait _ | .sleep _ => true
  | _ => false

/-- The core is at a call boundary. -/
def State.callable (s : State) (c : Core) : Bool :=
  match s.stack c with
  | [] => true
  | f :: _ => f.pc.resting

/-- The core owns the slot that the object refers to. -/
def Shared.holds (m : ℕ) : Bool :=
  let idx := g.handle m
  0 ≤ idx ∧ idx < maxMutexes ∧ (g.storage idx.toNat).owner = some c

/-- A core unlocks and waits on what it holds, and core 1 cleans up when its thread is over. -/
def State.mayCall (s : State) (c : Core) (m : ℕ) : Fn → Bool
  | .unlock | .condWait => s.shared.holds c m
  | .cleanup => c = .one ∧ s.stack .one = []
  | _ => true

def Enabled (s : State) : Core × Act → Bool
  | (c, .call fn m) => s.callable c && s.mayCall c m fn
  | (c, .go _) => (s.stack c).isEmpty = false

def next (s : State) : Core × Act → State
  | (c, .call fn m) =>
    ⟨s.shared, Function.update s.stack c (⟨fn, m, fn.start⟩ :: s.stack c)⟩
  | (c, .go signalled) =>
    match s.stack c with
    | [] => s
    | f :: rest =>
      let (shared, pc) := exec s.shared c f signalled
      ⟨shared, Function.update s.stack c (f.next rest pc)⟩

def Step (s : State) (a : Core × Act) (t : State) : Prop := Enabled s a = true ∧ t = next s a

/-- The depth with which a core owns a slot. -/
def Shared.own (i : ℕ) : ℕ := if (g.storage i).owner = some c then (g.storage i).depth else 0

/-- At every call boundary counters and mask say what the core owns. -/
def Exact (s : State) : Prop :=
  ∀ c, s.callable c = true → ∀ i < maxMutexes, s.shared.heldCounts c i = s.shared.own c i ∧
    ((s.shared.heldMutexes c).getLsbD i = true ↔ 0 < s.shared.heldCounts c i)

/-- The cleanup takes nothing from core 0, and core 1 has nothing left when it is through. -/
def Cleaned (s : State) (a : Core × Act) (t : State) : Prop :=
  ∀ signalled f rest, a = (.one, .go signalled) → s.stack .one = f :: rest → f.fn = .cleanup →
    (∀ i, t.shared.own .zero i = s.shared.own .zero i) ∧
      (t.stack .one = rest → t.shared.heldMutexes .one = 0 ∧
        ∀ i < maxMutexes, t.shared.heldCounts .one i = 0 ∧
          (t.shared.storage i).owner ≠ some .one)

/-- A call that takes a slot finds one. -/
def Room (s : State) (c : Core) : Bool :=
  match s.stack c with
  | ⟨_, _, .readCount⟩ :: _ => s.shared.mutexCount < maxMutexes
  | _ => true

/-- The core has called an unlock of the object or a wait on it, and has not read its slot yet. -/
def State.leaving (s : State) (c : Core) (m : ℕ) : Bool :=
  match s.stack c with
  | ⟨fn, m', .readHandle⟩ :: _ => (fn = .unlock ∨ fn = .condWait) ∧ m' = m
  | _ => false

/-- A slot that is initialised has no owner, and an object that is given a slot is not one that the
other core is about to unlock. -/
def Fresh (s : State) (c : Core) : Bool :=
  match s.stack c with
  | ⟨_, _, .initSlot idx⟩ :: _ => (s.shared.storage idx).owner = none
  | ⟨_, m, .writeHandle _⟩ :: _ => !s.leaving c.other m
  | _ => true

end PicoOcaml.OcamlStubs.Tracking
