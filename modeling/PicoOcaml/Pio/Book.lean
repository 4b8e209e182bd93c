import PicoOcaml.Pio.Effects

/-! Promises, the run queue and the waiting list: what the scheduler keeps and what it does to
them. -/
namespace PicoOcaml.Pio

/-- Code of the program: the caller of a top-level run, the function of a switch, a forked
function, an element of `Fiber.both` or `Fiber.all`, or a release hook. -/
inductive Body
  | top
  | main (sw : ℕ)
  | fiber (sw : ℕ)
  | promise (sw p : ℕ)
  | element (p : ℕ)
  | hook (sw n : ℕ)
deriving DecidableEq

/-- The closures that reach the run queue, by what they capture. `resume` continues the
continuation `k` with an answer, inside a new `main_handler` when one had caught it. -/
inductive Task
  | main (sw : ℕ)
  | fiber (sw : ℕ)
  | promiseFiber (sw p : ℕ)
  | element (p : ℕ)
  | waker (p : ℕ) (h : Handler) (k : ℕ)
  | wake (op : Operation) (sockId : ℤ) (h : Handler) (k : ℕ)
  | onTimeout (op : Operation) (sockId : ℤ) (h : Handler) (k : ℕ)
  | resume (h : Handler) (k : ℕ) (a : Answer)
deriving DecidableEq

def IoWaiter.wake (w : IoWaiter) : Task := .wake w.operation w.sockId w.handler w.k

def IoWaiter.onTimeout (w : IoWaiter) : Task := .onTimeout w.operation w.sockId w.handler w.k

inductive PromiseState
  | pending (waiters : List Task)
  | resolved (v : Val)
  | failed (e : Exn)
deriving DecidableEq

def PromiseState.outcome : PromiseState → Option Answer
  | .pending _ => none
  | .resolved v => some (.value v)
  | .failed e => some (.exn e)

def PromiseState.waiters : PromiseState → List Task
  | .pending ws => ws
  | _ => []

/-- History: tasks queued and taken, awaits completed, bodies ended, promises that the program
itself has resolved or failed, and wakers that found their promise pending. -/
inductive Event
  | enqueued (t : Task)
  | ran (t : Task)
  | awaited (p : ℕ) (a : Answer)
  | ended (b : Body) (a : Answer)
  | settled (p : ℕ)
  | stillPending (k : ℕ)
deriving DecidableEq

/-- `konts` is history too: the effect that each captured continuation performed, and the
handler that captured it. -/
structure Book where
  promises : List PromiseState
  runQueue : List Task
  ioWaiters : List IoWaiter
  konts : List (Eff × Handler)
  log : List Event

def Book.empty : Book := ⟨[], [], [], [], []⟩

namespace Book

variable (b : Book)

def note (e : Event) : Book := { b with log := b.log ++ [e] }

/-- `List.iter enqueue`. -/
def enqueueAll (ts : List Task) : Book :=
  { b with runQueue := b.runQueue ++ ts, log := b.log ++ ts.map .enqueued }

def enqueue (t : Task) : Book := b.enqueueAll [t]

def outcome (p : ℕ) : Option Answer := (b.promises[p]?).bind PromiseState.outcome

/-- `Promise.create`; the new promise is number `b.promises.length`. -/
def createPromise : Book := { b with promises := b.promises ++ [.pending []] }

/-- What `Promise.resolve` and `Promise.fail` share. -/
def settle (p : ℕ) (o : PromiseState) : Book :=
  match b.promises[p]? with
  | some (.pending waiters) => { b with promises := b.promises.set p o }.enqueueAll waiters
  | _ => b

@[simp] theorem ioWaiters_settle (p : ℕ) (o : PromiseState) :
    (b.settle p o).ioWaiters = b.ioWaiters := by
  simp only [settle]
  split <;> rfl

def resolve (p : ℕ) (v : Val) : Book := b.settle p (.resolved v)

def fail (p : ℕ) (e : Exn) : Book := b.settle p (.failed e)

def addWaiter (p : ℕ) (waker : Task) : Book :=
  match b.promises[p]? with
  | some (.pending waiters) => { b with promises := b.promises.set p (.pending (waker :: waiters)) }
  | _ => b.enqueue waker

@[simp] theorem ioWaiters_addWaiter (p : ℕ) (waker : Task) :
    (b.addWaiter p waker).ioWaiters = b.ioWaiters := by
  simp only [addWaiter]
  split <;> rfl

/-- `Tcp_close` drops the waiters of its socket. -/
def dropWaiters (sock : ℤ) : Book :=
  { b with ioWaiters := b.ioWaiters.filter fun w => w.sockId ≠ sock }

/-- The continuation of a suspending effect gets the number `b.konts.length`. -/
def capture (eff : Eff) (h : Handler) : Book := { b with konts := b.konts ++ [(eff, h)] }

/-- `Queue.take_opt` has found `t`. -/
def take (t : Task) (rest : List Task) : Book := { b with runQueue := rest }.note (.ran t)

end Book

section

variable {W : Type*} (X : Externals W)

/-! ### Polling -/

def isReady (w : IoWaiter) (world : W) : Bool × W :=
  match w.operation with
  | .connect =>
    let (n, world) := X.tcpWriteRaw w.sockId [] 0 world
    (n ≥ 0, world)
  | .read =>
    let ((n, _), world) := X.tcpReadRaw w.sockId 0 world
    (n > 0 ∨ n = -2, world)

def processWaiter (acc : (List IoWaiter × List Task) × W) (w : IoWaiter) :
    (List IoWaiter × List Task) × W :=
  let ((remaining, toWake), world) := acc
  let (ready, world) := isReady X w world
  match ready, decide (w.timeoutCount ≥ w.maxTimeout) with
  | true, _ => ((remaining, w.wake :: toWake), world)
  | false, true => ((remaining, w.onTimeout :: toWake), world)
  | false, false => (({ w with timeoutCount := w.timeoutCount + 1 } :: remaining, toWake), world)

def checkIoCompletions (b : Book) (world : W) : Book × W :=
  let world := serviceNetwork X world
  let ((remaining, toWake), world) := b.ioWaiters.foldl (processWaiter X) (([], []), world)
  ({ b with ioWaiters := remaining }.enqueueAll toWake, world)

/-- How a pass may sort the waiters: who stays, and what is queued. -/
inductive Polled : List IoWaiter → List IoWaiter → List Task → Prop
  | nil : Polled [] [] []
  | ready {ws kept ts} (w : IoWaiter) : Polled ws kept ts → Polled (w :: ws) kept (w.wake :: ts)
  | expired {ws kept ts} (w : IoWaiter) : w.timeoutCount ≥ w.maxTimeout → Polled ws kept ts →
      Polled (w :: ws) kept (w.onTimeout :: ts)
  | waits {ws kept ts} (w : IoWaiter) : w.timeoutCount < w.maxTimeout → Polled ws kept ts →
      Polled (w :: ws) ({ w with timeoutCount := w.timeoutCount + 1 } :: kept) ts

theorem foldl_processWaiter (ws : List IoWaiter) (acc : (List IoWaiter × List Task) × W) :
    ∃ kept ts, Polled ws kept ts ∧
      (ws.foldl (processWaiter X) acc).1 = (kept.reverse ++ acc.1.1, ts.reverse ++ acc.1.2) := by
  induction ws generalizing acc with
  | nil => exact ⟨[], [], .nil, by simp⟩
  | cons w ws ih =>
    obtain ⟨kept, ts, hp, he⟩ := ih (processWaiter X acc w)
    rw [List.foldl_cons, he]
    cases hr : (isReady X w acc.2).1 with
    | true => exact ⟨kept, w.wake :: ts, hp.ready w, by simp [processWaiter, hr]⟩
    | false =>
      by_cases ht : w.timeoutCount ≥ w.maxTimeout
      · exact ⟨kept, w.onTimeout :: ts, hp.expired w ht, by simp [processWaiter, hr, ht]⟩
      · refine ⟨{ w with timeoutCount := w.timeoutCount + 1 } :: kept, ts,
          hp.waits w (by omega), ?_⟩
        simp [processWaiter, hr, ht]

/-- A pass over the waiting list sorts it, and queues what it has found. -/
theorem checkIoCompletions_polled (b : Book) (world : W) :
    ∃ kept ts, Polled b.ioWaiters kept ts ∧
      (checkIoCompletions X b world).1 =
        { b with ioWaiters := kept.reverse }.enqueueAll ts.reverse := by
  obtain ⟨kept, ts, hp, he⟩ :=
    foldl_processWaiter X b.ioWaiters (([], []), serviceNetwork X world)
  refine ⟨kept, ts, hp, ?_⟩
  simp only [checkIoCompletions, he, List.append_nil]

/-! ### Closures that return at once -/

/-- `handle_read_result` of `handle_net_effect`. -/
def readResult (n2 : ℤ) (buf : Bytes) : Answer :=
  if n2 > 0 then .value (.bytes (buf.take n2.toNat))
  else if n2 = -2 then .exn .socketClosed
  else .exn (.networkError "TCP read failed")

def readTimeout : Answer := .exn (.networkError "TCP read timeout")

/-- The answer with which the `wake` of `handle_net_effect` continues its fiber. -/
def wakeAnswer (op : Operation) (sockId : ℤ) (world : W) : Answer × W :=
  match op with
  | .connect => (.value (.tcpSocket sockId), world)
  | .read =>
    let ((n2, buf), world) := X.tcpReadRaw sockId 4096 world
    (readResult n2 buf, world)

def timeoutAnswer (op : Operation) (sockId : ℤ) (world : W) : Answer × W :=
  match op with
  | .connect => (.exn .connectionTimeout, X.tcpCloseRaw sockId world)
  | .read => (readTimeout, world)

/-- `handle_read_result` of `main_handler`. -/
def mainReadResult (n2 : ℤ) (buf : Bytes) : Answer :=
  if n2 > 0 then .value (.bytes (buf.take n2.toNat))
  else if n2 = -2 then .exn .socketClosed
  else .exn (.networkError "TCP read failed")

/-- The closures of `main_handler`, which has its own code for them. -/
def mainWakeAnswer (op : Operation) (sockId : ℤ) (world : W) : Answer × W :=
  match op with
  | .connect => (.value (.tcpSocket sockId), world)
  | .read =>
    let ((n2, buf), world) := X.tcpReadRaw sockId 4096 world
    (mainReadResult n2 buf, world)

def mainTimeoutAnswer (op : Operation) (sockId : ℤ) (world : W) : Answer × W :=
  match op with
  | .connect => (.exn .connectionTimeout, X.tcpCloseRaw sockId world)
  | .read => (.exn (.networkError "TCP read timeout"), world)

namespace Handler

/-- `wake` of a waiter that the handler has made. -/
def wakeAnswer (h : Handler) (op : Operation) (sockId : ℤ) (world : W) : Answer × W :=
  match h with
  | .main _ => mainWakeAnswer X op sockId world
  | .fiber _ | .promise _ _ => Pio.wakeAnswer X op sockId world

def timeoutAnswer (h : Handler) (op : Operation) (sockId : ℤ) (world : W) : Answer × W :=
  match h with
  | .main _ => mainTimeoutAnswer X op sockId world
  | .fiber _ | .promise _ _ => Pio.timeoutAnswer X op sockId world

@[simp] theorem wakeAnswer_eq (h : Handler) (op : Operation) (sockId : ℤ) (world : W) :
    h.wakeAnswer X op sockId world = Pio.wakeAnswer X op sockId world := by
  cases h with
  | main sw => cases op <;> rfl
  | fiber sw => rfl
  | promise sw p => rfl

@[simp] theorem timeoutAnswer_eq (h : Handler) (op : Operation) (sockId : ℤ) (world : W) :
    h.timeoutAnswer X op sockId world = Pio.timeoutAnswer X op sockId world := by
  cases h with
  | main sw => cases op <;> rfl
  | fiber sw => rfl
  | promise sw p => rfl

end Handler

theorem wakeAnswer_ne_timeout (op : Operation) (sockId : ℤ) (world : W) :
    (wakeAnswer X op sockId world).1 ≠ readTimeout := by
  cases op with
  | connect => simp [wakeAnswer, readTimeout]
  | read =>
    simp only [wakeAnswer, readResult, readTimeout]
    repeat' split
    all_goals simp

end

end PicoOcaml.Pio
