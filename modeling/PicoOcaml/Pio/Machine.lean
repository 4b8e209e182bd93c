import PicoOcaml.Lts
import PicoOcaml.Pio.Book

/-! The fiber machine: the stack of running code, the handlers on it, and the two scheduler
loops. What the program does, when its code is on top, is a label. -/
namespace PicoOcaml.Pio

/-- One entry of the stack: code of the program, an effect handler, one of the two loops, the
`try` around an element of `Fiber.both` or `Fiber.all`, or the run over the release hooks. -/
inductive Frame
  | body (b : Body)
  | handler (h : Handler)
  | scheduler (sw : ℕ)
  | mainScheduler (sw : ℕ)
  | settles (p : ℕ)
  | cleanup (sw : ℕ) (hooks : List ℕ)
deriving DecidableEq

/-- The top of the stack runs, or it is handed the answer of what it has called. -/
inductive Mode
  | run
  | ret (a : Answer)
deriving DecidableEq

/-- `switch`, with the locals `result` and `exn_ref` of its `switch_run`. -/
structure Switch where
  fibers : ℤ
  onRelease : List ℕ
  finished : Bool
  result : Option Val
  exnRef : Option Exn

/-- `segments` holds the captured continuations that have not been resumed. -/
structure State (W : Type*) where
  world : W
  book : Book
  nextSwitch : ℕ
  switches : ℕ → Switch
  segments : List (Option (List Frame))
  stack : List Frame
  mode : Mode

/-- What code of the program may do: perform an effect, use a promise, queue an element of
`Fiber.both` or `Fiber.all` with its promise, register the release hook `n`, start a run, end.
`go` lets the library go on. -/
inductive Act
  | go
  | perform (e : Eff)
  | createPromise
  | resolve (p : ℕ) (v : Val)
  | fail (p : ℕ) (e : Exn)
  | element
  | onRelease (sw n : ℕ)
  | switchRun
  | ret (v : Val)
  | raise (e : Exn)
deriving DecidableEq

def State.initial {W : Type*} (world : W) : State W where
  world := world
  book := .empty
  nextSwitch := 0
  switches := fun _ => ⟨0, [], false, none, none⟩
  segments := []
  stack := [.body .top]
  mode := .run

section

variable {W : Type*} (X : Externals W) (s : State W)

namespace State

def setSwitch (sw : ℕ) (f : Switch → Switch) : State W :=
  { s with switches := Function.update s.switches sw (f (s.switches sw)) }

def addFibers (sw : ℕ) (n : ℤ) : State W :=
  s.setSwitch sw fun sw => { sw with fibers := sw.fibers + n }

/-- `Switch.fiber_done`. -/
def fiberDone (sw : ℕ) : State W := s.addFibers sw (-1)

/-- The effect is answered at once. -/
def reply (a : Answer) : State W := { s with mode := .ret a }

/-- Where control goes when a handler keeps the continuation: fibers enter the scheduler,
`main_handler` returns to its caller. -/
def leave (h : Handler) (rest : List Frame) : State W :=
  match h with
  | .main _ => { s with stack := rest, mode := .ret (.value .unit) }
  | .fiber sw | .promise sw _ => { s with stack := .scheduler sw :: rest, mode := .run }

/-- The continuation `segment` of an effect is kept, and `refer` files the only reference. -/
def suspend (eff : Eff) (h : Handler) (segment rest : List Frame) (refer : Book → Book) :
    State W :=
  { s with
    book := refer (s.book.capture eff h)
    segments := s.segments ++ [some segment] }.leave h rest

end State

/-! ### Effects -/

/-- The stack is cut below the innermost handler. -/
def splitHandler : List Frame → Option (List Frame × Handler × List Frame)
  | [] => none
  | .handler h :: rest => some ([.handler h], h, rest)
  | f :: fs => (splitHandler fs).map fun (segment, h, rest) => (f :: segment, h, rest)

def netEffect (h : Handler) (e : NetEff) : NetStep W :=
  match h with
  | .main _ => mainNetEffect X h s.book.konts.length s.book.ioWaiters s.world e
  | .fiber _ | .promise _ _ =>
    handleNetEffect X h s.book.konts.length s.book.ioWaiters s.world e

/-- The cases of `effc`, which the three handlers share but for `leave` and `netEffect`. -/
def effc (segment : List Frame) (h : Handler) (rest : List Frame) (eff : Eff) : State W :=
  match eff with
  | .fork sw =>
    let s := s.addFibers sw 1
    { s with book := s.book.enqueue (.fiber sw) }.reply (.value .unit)
  | .forkPromise sw =>
    let p := s.book.promises.length
    let s := s.addFibers sw 1
    { s with book := s.book.createPromise.enqueue (.promiseFiber sw p) }.reply
      (.value (.promise p))
  | .await p =>
    match s.book.outcome p with
    | some a => { s with book := s.book.note (.awaited p a) }.reply a
    | none => s.suspend eff h segment rest fun b => b.addWaiter p (.waker p h s.book.konts.length)
  | .yield =>
    s.suspend eff h segment rest fun b =>
      b.enqueue (.resume h s.book.konts.length (.value .unit))
  | .net e =>
    let r := netEffect X s h e
    let s := { s with world := r.world }
    match r.reply with
    | some a => { s with book := { s.book with ioWaiters := r.ioWaiters } }.reply a
    | none => s.suspend eff h segment rest fun b => { b with ioWaiters := r.ioWaiters }
  | .other => s.reply (.exn .unhandled)

def perform (eff : Eff) : State W :=
  match splitHandler s.stack with
  | some (segment, h, rest) => effc X s segment h rest eff
  | none => s.reply (.exn .unhandled)

/-! ### Tasks and loops -/

/-- The handler around a resumption. -/
def wrapper : Handler → List Frame
  | .main sw => [.handler (.main sw)]
  | _ => []

def push (frames : List Frame) : State W := { s with stack := frames ++ s.stack, mode := .run }

/-- A task that has been taken from the queue is called. -/
def startTask : Task → State W
  | .main sw => push s [.body (.main sw), .handler (.main sw)]
  | .fiber sw => push s [.body (.fiber sw), .handler (.fiber sw)]
  | .promiseFiber sw p => push s [.body (.promise sw p), .handler (.promise sw p)]
  | .element p => push s [.body (.element p), .settles p]
  | .waker p h k =>
    match s.book.outcome p with
    | some a => { s with book := s.book.enqueue (.resume h k a) }
    | none =>
      { s with book := s.book.note (.stillPending k) }.reply (.exn (.failure "Promise still pending"))
  | .wake op sockId h k =>
    let (a, world) := h.wakeAnswer X op sockId s.world
    { s with world := world, book := s.book.enqueue (.resume h k a) }
  | .onTimeout op sockId h k =>
    let (a, world) := h.timeoutAnswer X op sockId s.world
    { s with world := world, book := s.book.enqueue (.resume h k a) }
  | .resume h k a =>
    match (s.segments[k]?).join with
    | some segment =>
      { s with segments := s.segments.set k none, stack := segment ++ wrapper h ++ s.stack }.reply a
    | none => { s with stack := wrapper h ++ s.stack }.reply (.exn .continuationAlreadyResumed)

/-- No task is left: wait a millisecond and go round. -/
def idle : State W := { s with world := X.sleepMs 1 (serviceNetwork X s.world) }

/-- One round of a loop; `done` is taken when no task is left. -/
def round (done : State W → State W) : State W :=
  let (book, world) := checkIoCompletions X s.book s.world
  let s := { s with book := book, world := world }
  match book.runQueue with
  | t :: q => startTask X { s with book := book.take t q } t
  | [] => done s

def schedulerRound (sw : ℕ) (rest : List Frame) : State W :=
  round X s fun s =>
    if (s.switches sw).fibers > 0 ∨ s.book.ioWaiters ≠ [] then idle X s
    else { s with stack := rest, mode := .ret (.value .unit) }

/-- `main_scheduler` is over, and the release hooks come next. -/
def finishMain (sw : ℕ) (rest : List Frame) : State W :=
  { s.setSwitch sw fun w => { w with finished := true } with
    stack := .cleanup sw (s.switches sw).onRelease :: rest }

def mainSchedulerRound (sw : ℕ) (rest : List Frame) : State W :=
  round X s fun s =>
    if (s.switches sw).result ≠ none ∨ (s.switches sw).exnRef ≠ none then finishMain s sw rest
    else if (s.switches sw).fibers > 0 ∨ s.book.ioWaiters ≠ [] then idle X s
    else finishMain s sw rest

/-- The last match of `switch_run`. -/
def runAnswer (w : Switch) : Answer :=
  match w.exnRef, w.result with
  | some e, _ => .exn e
  | none, some r => .value r
  | none, none => .exn (.failure "Switch.run: main fiber did not complete")

def cleanupRound (sw : ℕ) (rest : List Frame) : List ℕ → State W
  | n :: hooks => { s with stack := .body (.hook sw n) :: .cleanup sw hooks :: rest }
  | [] => { s with stack := rest, mode := .ret (runAnswer (s.switches sw)) }

/-! ### Answers -/

/-- The frame below takes the answer of what has just ended: `retc` and `exnc` of the handlers,
the `try` of an element, the loops after a task. -/
def deliver (a : Answer) (rest : List Frame) : Frame → State W
  | .body _ => { s with mode := .run }
  | .handler (.main sw) =>
    let s := match a with
      | .value r => s.setSwitch sw fun w => { w with result := some r }
      | .exn e => s.setSwitch sw fun w => { w with exnRef := some e }
    { s.fiberDone sw with stack := rest, mode := .ret (.value .unit) }
  | .handler (.fiber sw) =>
    { s.fiberDone sw with stack := .scheduler sw :: rest, mode := .run }
  | .handler (.promise sw p) =>
    let s := { s with book := s.book.resolve p a.result }
    { s.fiberDone sw with stack := .scheduler sw :: rest, mode := .run }
  | .settles p =>
    let book := match a with
      | .value v => s.book.resolve p v
      | .exn e => s.book.fail p e
    { s with book := book, stack := rest, mode := .ret (.value .unit) }
  | .scheduler _ | .mainScheduler _ =>
    match a with
    | .value _ => { s with mode := .run }
    | .exn e => { s with stack := rest, mode := .ret (.exn e) }
  | .cleanup _ _ => { s with mode := .run }

def go : State W :=
  match s.mode, s.stack with
  | .ret a, f :: rest => deliver s a rest f
  | .run, .scheduler sw :: rest => schedulerRound X s sw rest
  | .run, .mainScheduler sw :: rest => mainSchedulerRound X s sw rest
  | .run, .cleanup sw hooks :: rest => cleanupRound s sw rest hooks
  | _, _ => s

/-! ### Steps -/

/-- `switch_run` up to its loop. -/
def switchRun : State W :=
  let sw := s.nextSwitch
  { s with
    nextSwitch := sw + 1
    switches := Function.update s.switches sw ⟨1, [], false, none, none⟩
    book := s.book.enqueue (.main sw)
    stack := .mainScheduler sw :: s.stack }

/-- The body on top ends. -/
def finish (a : Answer) : State W :=
  match s.stack with
  | .body b :: rest =>
    { s with book := s.book.note (.ended b a), stack := rest, mode := .ret a }
  | _ => s

def next : Act → State W
  | .go => go X s
  | .perform e => perform X s e
  | .createPromise => { s with book := s.book.createPromise }
  | .resolve p v => { s with book := (s.book.note (.settled p)).resolve p v }
  | .fail p e => { s with book := (s.book.note (.settled p)).fail p e }
  | .element =>
    { s with book := s.book.createPromise.enqueue (.element s.book.promises.length) }
  | .onRelease sw n => s.setSwitch sw fun w => { w with onRelease := n :: w.onRelease }
  | .switchRun => switchRun s
  | .ret v => finish s (.value v)
  | .raise e => finish s (.exn e)

/-- Functions whose type makes them return unit. -/
def Body.unitary : Body → Bool
  | .main _ | .fiber _ | .hook _ _ => true
  | _ => false

/-- The program acts when its code is on top, on promises and switches that exist; else the
library goes on. -/
def Enabled : Act → Bool
  | .go =>
    match s.mode, s.stack with
    | _, [] => false
    | .run, .body _ :: _ | .run, .handler _ :: _ | .run, .settles _ :: _ => false
    | _, _ => true
  | a =>
    match s.mode, s.stack with
    | .run, .body b :: _ =>
      match a with
      | .perform (.fork sw) | .perform (.forkPromise sw) | .onRelease sw _ => sw < s.nextSwitch
      | .perform (.await p) | .resolve p _ | .fail p _ => p < s.book.promises.length
      | .ret v => !b.unitary || v = .unit
      | _ => true
    | _, _ => false

def Step (a : Act) (t : State W) : Prop := Enabled s a = true ∧ t = next X s a

end

/-- A network where every connection is made at once and no data ever comes. -/
def quiet : Externals Unit where
  sleepMs _ w := w
  wifiConnectRaw _ _ _ w := (-1, w)
  wifiDisconnectRaw w := w
  wifiGetIpRaw w := (0, w)
  tcpCreateRaw w := (0, w)
  tcpConnectRaw _ _ _ w := (0, w)
  tcpWriteRaw _ _ len w := (len, w)
  tcpReadRaw _ _ w := ((0, []), w)
  tcpCloseRaw _ w := w
  udpCreateRaw w := (-1, w)
  udpBindRaw _ _ w := (-1, w)
  udpSendtoRaw _ _ _ _ _ w := (-1, w)
  udpRecvfromRaw _ _ w := ((-1, []), w)
  udpCloseRaw _ w := w
  dnsResolveRaw _ w := (0, w)
  netPollRaw w := w
  lwipServiceRaw w := w
  ipFromStringRaw _ w := (1, w)

end PicoOcaml.Pio
