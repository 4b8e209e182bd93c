import PicoOcaml.Net
import PicoOcaml.Pio.Machine

/-! `Pio.run` of a program that has one fiber: the machine's run, and what it comes to from one
answer to the next. -/
namespace PicoOcaml.Pio

variable {W : Type*} (X : Externals W)

/-! ### The run -/

/-- A state, and the answers that the program has been given up to it. -/
structure Config (W : Type*) where
  state : State W
  answers : List Answer

/-- `Pio.run` has been called. -/
def Config.initial (w : W) : Config W := ⟨switchRun (State.initial w), []⟩

def act : Net.Command → Act
  | .perform e => .perform (.net e)
  | .ret => .ret .unit
  | .raise e => .raise e

/-- The program acts when its code is on top; the run ends when it has returned to its caller. -/
def Config.act (prog : Net.Prog) (c : Config W) : Option Act :=
  match c.state.mode, c.state.stack with
  | .run, .body (.main _) :: _ => some (Pio.act (prog c.answers))
  | _, [.body .top] => none
  | _, _ => some .go

/-- An answer is received when it reaches the code of the program. -/
def Config.received (c : Config W) : List Answer :=
  match c.state.mode, c.state.stack with
  | .ret a, .body (.main _) :: _ => c.answers ++ [a]
  | _, _ => c.answers

def Config.next (prog : Net.Prog) (c : Config W) : Config W :=
  match c.act prog with
  | some a => ⟨Pio.next X c.state a, c.received⟩
  | none => c

/-- `Pio.run (fun _ -> prog ())` after `m` steps. -/
def run (prog : Net.Prog) (w : W) (m : ℕ) : Config W := (Config.next X prog)^[m] (.initial w)

/-! ### From answer to answer -/

/-- Where the program acts: what it has been given, and whether an effect has waited before. -/
structure Point (W : Type*) where
  answers : List Answer
  world : W
  waited : Bool

/-- `main_scheduler` with only `x` on the waiting list, for so many passes before the last. -/
def awaitReady (x : IoWaiter) : ℕ → W → Answer × W
  | triesLeft, w =>
    let (ready, w) := isReady X x (serviceNetwork X w)
    if ready then wakeAnswer X x.operation x.sockId w
    else match triesLeft with
      | tries + 1 => awaitReady x tries (X.sleepMs 1 (serviceNetwork X w))
      | 0 => timeoutAnswer X x.operation x.sockId w

/-- One of these passes finds `x` ready. -/
def readyWithin (x : IoWaiter) : ℕ → W → Bool
  | triesLeft, w =>
    let (ready, w) := isReady X x (serviceNetwork X w)
    ready || match triesLeft with
      | tries + 1 => readyWithin x tries (X.sleepMs 1 (serviceNetwork X w))
      | 0 => false

/-- A second wait makes the outer one of two handlers return, so it lasts for one pass only. -/
def wait (waited : Bool) (x : IoWaiter) (w : W) : Option (Answer × W) :=
  if waited then
    let (ready, w) := isReady X x (serviceNetwork X w)
    if ready then some (wakeAnswer X x.operation x.sockId w) else none
  else some (awaitReady X x 1000 w)

/-- What an effect is answered with; `none` if `Pio.run` is left instead. A further pass comes
before the one who has waited goes on. -/
def effect (waited : Bool) (e : NetEff) (w : W) : Option (Answer × W × Bool) :=
  let r := mainNetEffect X (.main 0) 0 [] w e
  match r.reply with
  | some a => some (a, r.world, waited)
  | none => r.ioWaiters.head?.bind fun x =>
    (wait X waited x r.world).map fun (a, w) => (a, serviceNetwork X w, true)

def Point.effect (prog : Net.Prog) (p : Point W) : Option (Answer × W × Bool) :=
  match prog p.answers with
  | .perform e => Pio.effect X p.waited e p.world
  | .ret | .raise _ => none

def Point.next (prog : Net.Prog) (p : Point W) : Point W :=
  match p.effect X prog with
  | some (a, w, waited) => ⟨p.answers ++ [a], w, waited⟩
  | none => p

/-- The program starts after a first pass. -/
def point (prog : Net.Prog) (w : W) (n : ℕ) : Point W :=
  (Point.next X prog)^[n] ⟨[], serviceNetwork X w, false⟩

variable {X} {s : State W} {b : Book} {w w' : W} {x : IoWaiter} {prog : Net.Prog} {p : Point W}

/-! ### Passes and rounds -/

/-- The waiter is on the list, or nobody is. -/
theorem mainNetEffect_cases (e : NetEff) (w : W) :
    (∃ a w', ∀ h k, mainNetEffect X h k [] w e = ⟨w', [], some a⟩) ∨
      ∃ op sock w', ∀ h k, mainNetEffect X h k [] w e = ⟨w', [⟨sock, op, 0, 1000, h, k⟩], none⟩ := by
  cases e with
  | tcpConnect host port =>
    simp only [mainNetEffect]
    split
    · exact Or.inl ⟨_, _, fun _ _ => rfl⟩
    · split
      · exact Or.inl ⟨_, _, fun _ _ => rfl⟩
      · split
        · exact Or.inl ⟨_, _, fun _ _ => rfl⟩
        · exact Or.inr ⟨.connect, _, _, fun _ _ => rfl⟩
  | tcpRead sock =>
    simp only [mainNetEffect]
    split
    · exact Or.inl ⟨_, _, fun _ _ => rfl⟩
    · split
      · exact Or.inl ⟨_, _, fun _ _ => rfl⟩
      · exact Or.inr ⟨.read, _, _, fun _ _ => rfl⟩
  | _ =>
    left
    simp only [mainNetEffect]
    repeat' split
    all_goals exact ⟨_, _, fun _ _ => rfl⟩

theorem checkIoCompletions_nil (hb : b.ioWaiters = []) :
    checkIoCompletions X b w = (b, serviceNetwork X w) := by
  obtain ⟨promises, runQueue, ioWaiters, konts, log⟩ := b
  cases hb
  simp [checkIoCompletions, Book.enqueueAll]

theorem checkIoCompletions_one (hb : b.ioWaiters = [x]) (ready : Bool) (w' : W)
    (hr : isReady X x (serviceNetwork X w) = (ready, w')) :
    checkIoCompletions X b w =
      (if ready then { b with ioWaiters := [] }.enqueueAll [x.wake]
        else if x.timeoutCount ≥ x.maxTimeout then { b with ioWaiters := [] }.enqueueAll [x.onTimeout]
        else { b with ioWaiters := [{ x with timeoutCount := x.timeoutCount + 1 }] }.enqueueAll [],
        w') := by
  cases ready with
  | true => simp [checkIoCompletions, hb, processWaiter, hr]
  | false =>
    by_cases ht : x.timeoutCount ≥ x.maxTimeout <;>
      simp [checkIoCompletions, hb, processWaiter, hr, ht]

theorem isReady_eq {y : IoWaiter} (hop : x.operation = y.operation) (hs : x.sockId = y.sockId)
    (w : W) : isReady X x w = isReady X y w := by
  simp only [isReady, hop, hs]

end PicoOcaml.Pio
