import PicoOcaml.OcamlStubs.Mutex

/-! The thread calls of core 0 and `core1_wrapper` on core 1, one shared access at a time. -/
namespace PicoOcaml.OcamlStubs.Core1

variable {F A : Type*}

/-- The next access of core 0: `f` and `arg` are the arguments of `pthread_create`. -/
inductive Pc0 (F A : Type*)
  | idle
  | storeFunc (f : F) (arg : A)
  | storeArg (f : F) (arg : A)
  | clearStarted (f : F) (arg : A)
  | waitFinished (f : F) (arg : A)
  | reset (f : F) (arg : A)
  | launch (f : F) (arg : A)
  | waitStarted
  | joinWait
deriving DecidableEq

/-- The next access of core 1. -/
inductive Pc1 (F A : Type*)
  | off
  | setStarted
  | clearFinished
  | loadFunc
  | loadArg (f : Option F)
  | running (f : Option F) (arg : Option A)
  | cleanup (i : ℕ)
  | clearMask
  | resetBackup
  | setFinished
  | parked
deriving DecidableEq

/-- The statics that both cores use, the two program counters, and two history variables: the
pairs that were launched and the pairs that core 1 has called. -/
structure State (F A : Type*) where
  createCount : ℕ
  entryFunc : Option F
  entryArg : Option A
  started : Bool
  finished : Bool
  heldCounts : ℕ → ℕ
  heldMutexes : BitVec 64
  storage : ℕ → Entry
  thread : ℕ
  pc0 : Pc0 F A
  pc1 : Pc1 F A
  launched : List (Option F × Option A)
  ran : List (Option F × Option A)

def State.initial : State F A where
  createCount := 0
  entryFunc := none
  entryArg := none
  started := false
  finished := false
  heldCounts := fun _ => 0
  heldMutexes := 0
  storage := fun _ => ⟨false, none, 0⟩
  thread := 0
  pc0 := .idle
  pc1 := .off
  launched := []
  ran := []

/-- Calls and accesses of core 0, accesses of core 1, and what the launched function does: it
leaves the mutexes as it likes, and returns. -/
inductive Act (F A : Type*)
  | create (f : F) (arg : A)
  | join (t : ℕ)
  | go0
  | go1
  | body (heldCounts : ℕ → ℕ) (heldMutexes : BitVec 64) (storage : ℕ → Entry)
  | ret

variable (s : State F A)

def pthreadCreate (f : F) (arg : A) : State F A :=
  let count := s.createCount + 1
  if count % 2 = 1 then { s with createCount := count, thread := 100 + count }
  else { s with createCount := count, pc0 := .storeFunc f arg }

def pthreadJoin (t : ℕ) : State F A := if t = 2 then { s with pc0 := .joinWait } else s

def step0 : State F A :=
  match s.pc0 with
  | .idle => s
  | .storeFunc f arg => { s with entryFunc := some f, pc0 := .storeArg f arg }
  | .storeArg f arg => { s with entryArg := some arg, pc0 := .clearStarted f arg }
  | .clearStarted f arg =>
    { s with started := false
             pc0 := if s.createCount > 2 then .waitFinished f arg else .launch f arg }
  | .waitFinished f arg => if s.finished then { s with pc0 := .reset f arg } else s
  | .reset f arg => { s with pc1 := .off, pc0 := .launch f arg }
  | .launch f arg =>
    { s with pc1 := .setStarted, pc0 := .waitStarted
             launched := s.launched ++ [(some f, some arg)] }
  | .waitStarted => if s.started then { s with thread := 2, pc0 := .idle } else s
  | .joinWait => if s.finished then { s with pc0 := .idle } else s

def step1 : State F A :=
  match s.pc1 with
  | .setStarted => { s with started := true, pc1 := .clearFinished }
  | .clearFinished => { s with finished := false, pc1 := .loadFunc }
  | .loadFunc => { s with pc1 := .loadArg s.entryFunc }
  | .loadArg f => { s with pc1 := .running f s.entryArg, ran := s.ran ++ [(f, s.entryArg)] }
  | .cleanup i =>
    if i < maxMutexes then
      if s.heldCounts i > 0 then
        { s with storage := Function.update s.storage i (s.storage i).exit
                 heldCounts := Function.update s.heldCounts i (s.heldCounts i - 1) }
      else { s with pc1 := .cleanup (i + 1) }
    else { s with pc1 := .clearMask }
  | .clearMask => { s with heldMutexes := 0, pc1 := .resetBackup }
  | .resetBackup => { s with pc1 := .setFinished }
  | .setFinished => { s with finished := true, pc1 := .parked }
  | .off | .running _ _ | .parked => s

def Enabled : Act F A → Bool
  | .create _ _ | .join _ => match s.pc0 with | .idle => true | _ => false
  | .go0 => match s.pc0 with | .idle => false | _ => true
  | .go1 => match s.pc1 with | .off | .running _ _ | .parked => false | _ => true
  | .body _ _ _ | .ret => match s.pc1 with | .running _ _ => true | _ => false

def next : Act F A → State F A
  | .create f arg => pthreadCreate s f arg
  | .join t => pthreadJoin s t
  | .go0 => step0 s
  | .go1 => step1 s
  | .body heldCounts heldMutexes storage =>
    { s with heldCounts := heldCounts, heldMutexes := heldMutexes, storage := storage }
  | .ret => { s with pc1 := .cleanup 0 }

def Step (s : State F A) (a : Act F A) (t : State F A) : Prop := Enabled s a = true ∧ t = next s a

/-- The latest launch is over: its function has been called and has returned, and core 1 holds
no mutex any more. -/
structure Done : Prop where
  parked : s.pc1 = .parked
  ran : s.ran = s.launched
  released : ∀ i < maxMutexes, s.heldCounts i = 0
  unmasked : s.heldMutexes = 0

/-- A join returns, and core 1 is reset, only when the latest launch is over. -/
def WaitsForDone (s : State F A) (a : Act F A) (t : State F A) : Prop :=
  match a, s.pc0 with
  | .go0, .joinWait => t.pc0 = .idle → Done s
  | .go0, .reset _ _ => Done s
  | _, _ => True

/-- Core 1 has called what was launched, in order, the latest launch perhaps not yet. -/
def RunsOwn : Prop := s.ran <+: s.launched

/-- Core 0 does not see a finished flag that core 1 is about to clear, and does not store a
function or argument before core 1 has loaded the previous one. -/
def safe (s : State F A) : Act F A → Bool
  | .go0 =>
    match s.pc0, s.pc1 with
    | .waitFinished _ _, .clearFinished | .joinWait, .clearFinished => !s.finished
    | .storeFunc _ _, .clearFinished | .storeFunc _ _, .loadFunc => false
    | .storeArg _ _, .clearFinished | .storeArg _ _, .loadFunc | .storeArg _ _, .loadArg _ => false
    | _, _ => true
  | _ => true

def Safe (s : State F A) (a : Act F A) (_ : State F A) : Prop := safe s a = true

end PicoOcaml.OcamlStubs.Core1
