import PicoOcaml.OcamlStubs.Mutex

/-! `try_handle_stw_interrupt` and the calls that poll it: `pthread_mutex_lock`,
`pthread_cond_wait` and `_write`. A core has a stack of calls, the running one first. -/
namespace PicoOcaml.OcamlStubs.Stw

/-- What a call of `try_handle_stw_interrupt` finds, a history variable. -/
structure Entered where
  camlState : Option ℕ
  handling : Bool
  level : ℕ
deriving DecidableEq

/-- The next access of `try_handle_stw_interrupt`. In `handling`,
`caml_handle_incoming_interrupts` is running. -/
inductive Pc
  | checkHandling
  | checkQueued
  | getLock
  | trylock (m : ℕ) (pc : Mutex.Pc)
  | setHandling (m : ℕ)
  | setState (m : ℕ)
  | handle (m : ℕ) (savedState : Option ℕ)
  | handling (m : ℕ) (savedState : Option ℕ) (level : ℕ)
  | restoreState (m : ℕ) (savedState : Option ℕ)
  | clearHandling (m : ℕ)
  | unlock (m : ℕ) (pc : Mutex.Pc)
  | leave
deriving DecidableEq

/-- The next access of `pthread_cond_wait`. -/
inductive WaitPc
  | ensure
  | release (pc : Mutex.Pc)
  | sleep (mutexIdx : ℤ) (loops : ℕ)
  | reenter (pc : Mutex.Pc)
deriving DecidableEq

inductive Frame
  | posix (f : Mutex.Frame)
  | condWait (m : ℕ) (pc : WaitPc)
  | write (count : ℤ) (i : ℕ)
  | stw (pc : Pc) (e : Entered)
deriving DecidableEq

/-- The statics, and what the runtime answers for the domain that a core runs. -/
structure Globals where
  shared : Mutex.Shared
  handlingStw : Core → Bool
  camlState : Core → Option ℕ
  domainLock : Core → Option ℕ
  domainState : Core → Option ℕ

structure State extends Globals where
  stack : Core → List Frame

def State.initial (isLazy : ℕ → Bool) (memory : ℕ → ℤ) : State where
  shared := (Mutex.State.initial isLazy memory).shared
  handlingStw := fun _ => false
  camlState := fun _ => none
  domainLock := fun _ => none
  domainState := fun _ => none
  stack := fun _ => []

variable (g : Globals) (c : Core)

/-- The depth with which a core owns the mutex of an object. -/
def depthOf (g : Mutex.Shared) (c : Core) (m : ℕ) : ℕ :=
  let idx := g.handle m
  if 0 ≤ idx ∧ idx < maxMutexes ∧ (g.storage idx.toNat).owner = some c then
    (g.storage idx.toNat).depth
  else 0

/-- The depth with which a core owns its domain lock. -/
def Globals.level : ℕ :=
  match g.domainLock c with
  | some m => depthOf g.shared c m
  | none => 0

def Globals.entered : Frame :=
  .stw .checkHandling ⟨g.camlState c, g.handlingStw c, g.level c⟩

/-- A loop calls `try_handle_stw_interrupt` before it goes on. -/
def Globals.poll (b : Bool) (f : Frame) : List Frame := if b then [g.entered c, f] else [f]

/-- One access of a call on the mutexes. -/
def Globals.access (f : Mutex.Frame) : Globals × Option Mutex.Pc :=
  ({ g with shared := (Mutex.exec g.shared c f).1 }, (Mutex.exec g.shared c f).2)

def waits : Mutex.Pc → Bool
  | .wait _ => true
  | _ => false

/-- `pthread_mutex_trylock` returns 0. -/
def took (f : Mutex.Frame) : Bool :=
  match f.pc with
  | .tryEnter idx => (Entry.tryEnter c (g.shared.storage idx)).isSome
  | _ => false

/-- `mutex_idx`, which `pthread_cond_wait` reads once. -/
def mutexIdx (g : Mutex.Shared) (m : ℕ) : Mutex.Pc → ℤ
  | .checkSlot idx | .exit idx => idx
  | _ => g.handle m

/-- `pthread_cond_wait` tests the counter for 0 whether or not it has decremented it. -/
def clearUnheld (g : Mutex.Shared) (c : Core) : Mutex.Pc → Mutex.Shared
  | .exit idx =>
    if g.heldCounts c idx = 0 then
      { g with heldMutexes :=
          Function.update g.heldMutexes c (g.heldMutexes c &&& ~~~((1 : BitVec 64) <<< idx)) }
    else g
  | _ => g

/-- One access of `pthread_cond_wait`, and the calls that take its place. `answer` says whether
there is a condition variable, and later whether its generation has changed. -/
def execWait (answer : Bool) (m : ℕ) : WaitPc → Globals × List Frame
  | .ensure => (g, if answer then [.condWait m (.release .readHandle)] else [])
  | .release pc =>
    let (g', o) := g.access c ⟨.unlock, m, pc⟩
    match o with
    | some pc' => (g', [.condWait m (.release pc')])
    | none =>
      ({ g' with shared := clearUnheld g'.shared c pc },
        [.condWait m (.sleep (mutexIdx g.shared m pc) 0)])
  | .sleep idx loops =>
    if answer then
      (g, if 0 ≤ idx ∧ idx < maxMutexes ∧ (g.shared.storage idx.toNat).magic = true then
          [.condWait m (.reenter (.tryEnter idx.toNat))]
        else [])
    else
      (g, g.poll c (loops % 100 = 0)
        (.condWait m (.sleep idx (if loops + 1 > 100000 then 1 else loops + 1))))
  | .reenter pc =>
    let (g', o) := g.access c ⟨.lock, m, pc⟩
    (g', match o with
      | some pc' => g'.poll c (waits pc') (.condWait m (.reenter pc'))
      | none => [])

/-- One access of `try_handle_stw_interrupt`. `answer` is that of
`caml_incoming_interrupts_queued`. -/
def execStw (answer : Bool) (e : Entered) : Pc → Globals × List Frame
  | .checkHandling => (g, [.stw (if g.handlingStw c then .leave else .checkQueued) e])
  | .checkQueued => (g, [.stw (if answer then .getLock else .leave) e])
  | .getLock =>
    match g.domainLock c with
    | some m => (g, [.stw (.trylock m .readHandle) e])
    | none => (g, [.stw .leave e])
  | .trylock m pc =>
    let (g', o) := g.access c ⟨.trylock, m, pc⟩
    match o with
    | some pc' => (g', [.stw (.trylock m pc') e])
    | none => (g', [.stw (if took g c ⟨.trylock, m, pc⟩ then .setHandling m else .leave) e])
  | .setHandling m =>
    ({ g with handlingStw := Function.update g.handlingStw c true }, [.stw (.setState m) e])
  | .setState m =>
    ({ g with camlState := Function.update g.camlState c (g.domainState c) },
      [.stw (.handle m (g.camlState c)) e])
  | .handle m savedState => (g, [.stw (.handling m savedState (g.level c)) e])
  | .handling m savedState level => (g, [.stw (.handling m savedState level) e])
  | .restoreState m savedState =>
    ({ g with camlState := Function.update g.camlState c savedState }, [.stw (.clearHandling m) e])
  | .clearHandling m =>
    ({ g with handlingStw := Function.update g.handlingStw c false },
      [.stw (.unlock m .readHandle) e])
  | .unlock m pc =>
    let (g', o) := g.access c ⟨.unlock, m, pc⟩
    match o with
    | some pc' => (g', [.stw (.unlock m pc') e])
    | none => (g', [.stw .leave e])
  | .leave => (g, [])

/-- One access of a call, and the calls that take its place: none when it has returned. -/
def exec (answer : Bool) : Frame → Globals × List Frame
  | .posix f =>
    let (g', o) := g.access c f
    (g', match o with
      | some pc => g'.poll c (waits pc) (.posix { f with pc := pc })
      | none => [])
  | .condWait m pc => execWait g c answer m pc
  | .write count i =>
    (g, if (i : ℤ) < count then g.poll c (i % 32 = 0) (.write count (i + 1)) else [])
  | .stw pc e => execStw g c answer e pc

/-- What a core does: it calls one of the functions, goes on with a call, or runs the runtime's
own code, which sets `caml_state`, starts a domain or ends the handling of the interrupts. -/
inductive Act
  | call (fn : Mutex.Fn) (m : ℕ)
  | wait (m : ℕ)
  | write (fd count : ℤ)
  | setState (v : Option ℕ)
  | adopt (lock state : Option ℕ)
  | handled
  | go (answer : Bool)
deriving DecidableEq

/-- The core runs code of the runtime or of the program. -/
def outside : List Frame → Bool
  | [] => true
  | .stw (.handling _ _ _) _ :: _ => true
  | _ => false

/-- The interrupts are handled with balanced locks. -/
def Globals.balanced : List Frame → Bool
  | .stw (.handling _ _ level) _ :: _ => g.level c = level
  | _ => false

/-- The call on a mutex that a call stands in. -/
def Frame.call : Frame → Option Mutex.Frame
  | .posix f => some f
  | .condWait m (.release pc) => some ⟨.unlock, m, pc⟩
  | .condWait m (.reenter pc) => some ⟨.lock, m, pc⟩
  | .stw (.trylock m pc) _ => some ⟨.trylock, m, pc⟩
  | .stw (.unlock m pc) _ => some ⟨.unlock, m, pc⟩
  | _ => none

/-- The calls on the mutexes alone. -/
def State.mutexes (s : State) : Mutex.State := ⟨s.shared, fun c => (s.stack c).filterMap Frame.call⟩

/-- Callers use the mutexes as in `Mutex`, and a domain lock has been initialised. -/
def Enabled (s : State) : Core × Act → Bool
  | (c, .call fn m) => outside (s.stack c) && s.mutexes.mayCall c m fn
  | (c, .wait m) => outside (s.stack c) && s.mutexes.mayCall c m .unlock
  | (c, .write _ _) | (c, .setState _) => outside (s.stack c)
  | (c, .adopt lock _) => (s.stack c).isEmpty && lock.all fun m => s.shared.phase m = .ready
  | (c, .handled) => s.balanced c (s.stack c)
  | (c, .go _) => (s.stack c).isEmpty = false && !outside (s.stack c)

def State.push (s : State) (c : Core) (f : Frame) : State :=
  { s with stack := Function.update s.stack c (f :: s.stack c) }

def next (s : State) : Core × Act → State
  | (c, .call fn m) =>
    { s.push c (.posix ⟨fn, m, fn.start⟩) with
      shared := if fn = .init then
          { s.shared with phase := Function.update s.shared.phase m .running }
        else s.shared }
  | (c, .wait m) => s.push c (.condWait m .ensure)
  | (c, .write fd count) => if fd = 1 ∨ fd = 2 then s.push c (.write count 0) else s
  | (c, .setState v) => { s with camlState := Function.update s.camlState c v }
  | (c, .adopt lock state) =>
    { s with
      domainLock := Function.update s.domainLock c lock
      domainState := Function.update s.domainState c state }
  | (c, .handled) =>
    match s.stack c with
    | .stw (.handling m savedState _) e :: rest =>
      { s with stack := Function.update s.stack c (.stw (.restoreState m savedState) e :: rest) }
    | _ => s
  | (c, .go answer) =>
    match s.stack c with
    | [] => s
    | f :: rest =>
      let (g, fs) := exec s.toGlobals c answer f
      ⟨g, Function.update s.stack c (fs ++ rest)⟩

def Step (s : State) (a : Core × Act) (t : State) : Prop := Enabled s a = true ∧ t = next s a

/-- Interrupts are being handled in this call. -/
def Frame.handles : Frame → Bool
  | .stw (.handling _ _ _) _ => true
  | _ => false

/-- A step that runs `caml_handle_incoming_interrupts` does so for a call that was entered
without the domain lock, and in no frame below is it running already. -/
def Handled (s : State) (a : Core × Act) (_ : State) : Prop :=
  ∀ answer m savedState e rest, a.2 = .go answer →
    s.stack a.1 = .stw (.handle m savedState) e :: rest →
      e.level = 0 ∧ ∀ f ∈ rest, f.handles = false

/-- A call that returns leaves its core as it found it. -/
def Restored (s : State) (a : Core × Act) (t : State) : Prop :=
  ∀ answer e rest, a.2 = .go answer → s.stack a.1 = .stw .leave e :: rest →
    t.camlState a.1 = e.camlState ∧ t.handlingStw a.1 = e.handling ∧ t.level a.1 = e.level

/-- An interrupt is found only by a core that does not own its domain lock. -/
def Blocking (s : State) (a : Core × Act) (_ : State) : Prop :=
  ∀ e rest, a.2 = .go true → s.stack a.1 = .stw .checkQueued e :: rest → s.level a.1 = 0

end PicoOcaml.OcamlStubs.Stw
