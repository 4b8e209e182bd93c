import PicoOcaml.Lts
import PicoOcaml.OcamlInt
import PicoOcaml.Value

/-! The digital clock: NTP synchronisation on core 0 and the display on core 1, one access to the
shared time base at a time. -/
namespace PicoOcaml.Clock

open OcamlInt (add sub mul)

/-- `ocaml_time_ms`: `us` is the count of the 64-bit timer. -/
def timeMs (us : ℕ) : ℤ := ocamlInt (valInt (BitVec.ofNat 32 (us % 2 ^ 64 / 1000)))

/-- What `ntp_query` makes of bytes 40 to 43 of a reply. -/
def ntpTime (utcOffsetHours : ℤ) (b0 b1 b2 b3 : UInt8) : ℤ × ℤ × ℤ :=
  let raw := add (add (add (mul b0.toNat 15616) (mul b1.toNat 65536)) (mul b2.toNat 256)) b3.toNat
  let secsOfDay := raw.tmod 86400
  let secsWrapped := (add secsOfDay (mul utcOffsetHours 3600)).tmod 86400
  (secsWrapped.tdiv 3600, (secsWrapped.tmod 3600).tdiv 60, secsWrapped.tmod 60)

/-- `h * 3600 + m * 60 + s`. -/
def baseOf (time : ℤ × ℤ × ℤ) : ℤ := add (add (mul time.1 3600) (mul time.2.1 60)) time.2.2

/-- 10 digits of 4 rows and 3 columns. -/
def digits : List ℤ := [
  1, 0, 7, 2, 8, 6, 2, 8, 6, 3, 4, 5,
  8, 8, 7, 8, 8, 6, 8, 8, 6, 8, 8, 6,
  1, 0, 7, 8, 8, 6, 1, 0, 0, 3, 4, 4,
  1, 0, 7, 8, 8, 6, 8, 0, 7, 3, 4, 5,
  2, 8, 6, 3, 4, 5, 8, 8, 6, 8, 8, 6,
  1, 0, 0, 3, 4, 4, 8, 8, 6, 3, 4, 5,
  1, 0, 7, 2, 8, 8, 1, 0, 7, 3, 4, 5,
  1, 0, 7, 8, 8, 6, 8, 8, 6, 8, 8, 6,
  1, 0, 7, 3, 4, 5, 2, 8, 6, 3, 4, 5,
  1, 0, 7, 3, 4, 5, 8, 8, 6, 3, 4, 5]

/-- `digits.(i)`, which raises outside of the array. -/
def digitAt (i : ℤ) : Option ℤ := if 0 ≤ i then digits[i.toNat]? else none

/-- What the display does to the outside. -/
inductive Output
  | pwmSetDuty (pin duty : ℤ)
  | moveTo (col row : ℤ)
  | writeData (data : ℤ)
deriving DecidableEq

/-- `none` is the exception of an access outside of `digits`. -/
def displayDigit (col digit : ℤ) : Option (List Output) := do
  let base := mul digit 12
  let rows ← [0, 1, 2, 3].mapM fun row => do
    let segs ← [0, 1, 2].mapM fun c => digitAt (add (add base (mul row 3)) c)
    return .moveTo col row :: segs.map fun seg => .writeData (if seg = 8 then 32 else seg)
  return rows.flatten

def displayColon (col : ℤ) (visible : Bool) : List Output :=
  [0, 1, 2, 3].flatMap fun row =>
    [.moveTo col row, .writeData (if visible ∧ (row = 1 ∨ row = 2) then 0xA5 else 32)]

def backlightOfTime (daySecs : ℤ) : ℤ :=
  let minBright := 7935
  let maxBright := 65535
  if daySecs < 21600 then minBright
  else if daySecs < 25200 then add minBright (mul (sub daySecs 21600) 16)
  else if daySecs < 75600 then maxBright
  else if daySecs < 79200 then sub maxBright (mul (sub daySecs 75600) 16)
  else minBright

/-- The time of day that `display_loop` computes from what it has read. -/
def daySecs (bs sm now : ℤ) : ℤ :=
  let elapsed := (sub now sm).tdiv 1000
  (add bs elapsed).tmod 86400

def hours (day : ℤ) : ℤ := day.tdiv 3600
def minutes (day : ℤ) : ℤ := (day.tmod 3600).tdiv 60
def seconds (day : ℤ) : ℤ := day.tmod 60

/-- The rest of an iteration of `display_loop`. -/
def display (colon : Bool) (day : ℤ) : Option (List Output) := do
  let h1 ← displayDigit 2 ((hours day).tdiv 10)
  let h0 ← displayDigit 6 ((hours day).tmod 10)
  let m1 ← displayDigit 10 ((minutes day).tdiv 10)
  let m0 ← displayDigit 14 ((minutes day).tmod 10)
  return [.pwmSetDuty 27 (backlightOfTime day)] ++ h1 ++ h0 ++ displayColon 9 colon ++ m1 ++ m0 ++
    [.moveTo 18 3, .writeData (add 48 ((seconds day).tdiv 10)),
      .writeData (add 48 ((seconds day).tmod 10))]

/-- The next access of the synchronisation after a reply. -/
inductive Pc0
  | waiting
  | readTime
  | setSync (ms : ℤ)
deriving DecidableEq

/-- The next access of the display. `sync` is history: the synchronisation that stored `bs`. -/
inductive Pc1
  | getBase
  | getSync (bs : ℤ) (sync : ℕ)
  | readTime (bs sm : ℤ)
  | dead
deriving DecidableEq

/-- The timer, the two atomics, both programs, and what the display has put out. The history
variables are the pairs that synchronisations have stored, with the initial one, and the number
of the synchronisation that last set either atomic. -/
structure State where
  us : ℕ
  baseSecs : ℤ
  syncMs : ℤ
  core0 : Pc0
  core1 : Pc1
  colon : Bool
  outputs : List Output
  pairs : List (ℤ × ℤ)
  baseSync : ℕ
  syncSync : ℕ

def State.initial : State := ⟨0, 0, 0, .waiting, .getBase, true, [], [(0, 0)], 0, 0⟩

/-- Time passes, a query ends, or a core makes its next access. -/
inductive Act
  | tick (us : ℕ)
  | ntp (reply : Option (UInt8 × UInt8 × UInt8 × UInt8))
  | core0
  | core1
deriving DecidableEq

def State.step0 (s : State) : State :=
  match s.core0 with
  | .waiting => s
  | .readTime => { s with core0 := .setSync (timeMs s.us) }
  | .setSync ms =>
    { s with
      syncMs := ms, core0 := .waiting
      pairs := s.pairs ++ [(s.baseSecs, ms)], syncSync := s.baseSync }

def State.step1 (s : State) : State :=
  match s.core1 with
  | .getBase => { s with core1 := .getSync s.baseSecs s.baseSync }
  | .getSync bs _ => { s with core1 := .readTime bs s.syncMs }
  | .readTime bs sm =>
    match display s.colon (daySecs bs sm (timeMs s.us)) with
    | some outputs =>
      { s with core1 := .getBase, colon := !s.colon, outputs := s.outputs ++ outputs }
    -- what the iteration put out before the exception is not kept
    | none => { s with core1 := .dead }
  | .dead => s

def State.next (utcOffsetHours : ℤ) (s : State) : Act → State
  | .tick us => { s with us := s.us + us }
  | .ntp reply =>
    match s.core0, reply with
    | .waiting, some (b0, b1, b2, b3) =>
      { s with
        baseSecs := baseOf (ntpTime utcOffsetHours b0 b1 b2 b3)
        core0 := .readTime, baseSync := s.baseSync + 1 }
    | _, _ => s
  | .core0 => s.step0
  | .core1 => s.step1

/-- What `State.next` can do, one constructor for each access. -/
inductive Step (utcOffsetHours : ℤ) (s : State) : Act → State → Prop
  | tick (us : ℕ) : Step utcOffsetHours s (.tick us) { s with us := s.us + us }
  | failed (reply) : Step utcOffsetHours s (.ntp reply) s
  | setBase (b0 b1 b2 b3 : UInt8) (h : s.core0 = .waiting) :
    Step utcOffsetHours s (.ntp (some (b0, b1, b2, b3)))
      { s with
        baseSecs := baseOf (ntpTime utcOffsetHours b0 b1 b2 b3)
        core0 := .readTime, baseSync := s.baseSync + 1 }
  | waiting (h : s.core0 = .waiting) : Step utcOffsetHours s .core0 s
  | readTime (h : s.core0 = .readTime) :
    Step utcOffsetHours s .core0 { s with core0 := .setSync (timeMs s.us) }
  | setSync (ms : ℤ) (h : s.core0 = .setSync ms) :
    Step utcOffsetHours s .core0
      { s with
        syncMs := ms, core0 := .waiting
        pairs := s.pairs ++ [(s.baseSecs, ms)], syncSync := s.baseSync }
  | getBase (h : s.core1 = .getBase) :
    Step utcOffsetHours s .core1 { s with core1 := .getSync s.baseSecs s.baseSync }
  | getSync (bs : ℤ) (sync : ℕ) (h : s.core1 = .getSync bs sync) :
    Step utcOffsetHours s .core1 { s with core1 := .readTime bs s.syncMs }
  | shown (bs sm : ℤ) (outputs : List Output) (h : s.core1 = .readTime bs sm)
    (hd : display s.colon (daySecs bs sm (timeMs s.us)) = some outputs) :
    Step utcOffsetHours s .core1
      { s with core1 := .getBase, colon := !s.colon, outputs := s.outputs ++ outputs }
  | raised (bs sm : ℤ) (h : s.core1 = .readTime bs sm)
    (hd : display s.colon (daySecs bs sm (timeMs s.us)) = none) :
    Step utcOffsetHours s .core1 { s with core1 := .dead }
  | dead (h : s.core1 = .dead) : Step utcOffsetHours s .core1 s

variable {utcOffsetHours y : ℤ} {s : State}

theorem step_next (a : Act) : Step utcOffsetHours s a (s.next utcOffsetHours a) := by
  cases a with
  | tick us => exact .tick us
  | ntp reply =>
    cases h : s.core0 with
    | waiting =>
      cases reply with
      | none => simpa only [State.next, h] using Step.failed none
      | some b => simpa only [State.next, h] using Step.setBase b.1 b.2.1 b.2.2.1 b.2.2.2 h
    | readTime => simpa only [State.next, h] using Step.failed reply
    | setSync ms => simpa only [State.next, h] using Step.failed reply
  | core0 =>
    cases h : s.core0 with
    | waiting => simpa only [State.next, State.step0, h] using Step.waiting h
    | readTime => simpa only [State.next, State.step0, h] using Step.readTime h
    | setSync ms => simpa only [State.next, State.step0, h] using Step.setSync ms h
  | core1 =>
    cases h : s.core1 with
    | getBase => simpa only [State.next, State.step1, h] using Step.getBase h
    | getSync bs sync => simpa only [State.next, State.step1, h] using Step.getSync bs sync h
    | readTime bs sm =>
      cases hd : display s.colon (daySecs bs sm (timeMs s.us)) with
      | some outputs => simpa only [State.next, State.step1, h, hd] using Step.shown bs sm outputs h hd
      | none => simpa only [State.next, State.step1, h, hd] using Step.raised bs sm h hd
    | dead => simpa only [State.next, State.step1, h] using Step.dead h

/-- Hours, minutes and seconds add up to the time they come from, also below 0. -/
theorem split_time (hy : -86400 < y ∧ y < 86400) :
    baseOf (y.tdiv 3600, (y.tmod 3600).tdiv 60, y.tmod 60) = y := by
  have hsum : y.tdiv 3600 * 3600 + (y.tmod 3600).tdiv 60 * 60 + y.tmod 60 = y ∧
      -86400 ≤ y.tdiv 3600 * 3600 ∧ y.tdiv 3600 * 3600 ≤ 86400 ∧
      -86400 ≤ (y.tmod 3600).tdiv 60 * 60 ∧ (y.tmod 3600).tdiv 60 * 60 ≤ 86400 := by
    rcases OcamlInt.tdiv_cases y 3600 with ⟨h1, h2, h3⟩ | ⟨h1, h2, h3⟩ <;>
      rcases OcamlInt.tdiv_cases (y.tmod 3600) 60 with ⟨h4, h5, -⟩ | ⟨h4, h5, -⟩ <;>
      rcases OcamlInt.tdiv_cases y 60 with ⟨h7, -, h8⟩ | ⟨h7, -, h8⟩ <;>
      omega
  obtain ⟨hy', h1, h2, h3, h4⟩ := hsum
  have hw1 : mul (y.tdiv 3600) 3600 = y.tdiv 3600 * 3600 :=
    OcamlInt.wrap_of_small (by omega) (by omega)
  have hw2 : mul ((y.tmod 3600).tdiv 60) 60 = (y.tmod 3600).tdiv 60 * 60 :=
    OcamlInt.wrap_of_small (by omega) (by omega)
  have hw3 : add (y.tdiv 3600 * 3600) ((y.tmod 3600).tdiv 60 * 60) =
      y.tdiv 3600 * 3600 + (y.tmod 3600).tdiv 60 * 60 :=
    OcamlInt.wrap_of_small (by omega) (by omega)
  rw [baseOf, hw1, hw2, hw3, add, hy']
  exact OcamlInt.wrap_of_small (by omega) (by omega)

/-- A synchronisation stores a time of day, or one below 0 west of Greenwich. -/
theorem ntp_base (utcOffsetHours : ℤ) (b0 b1 b2 b3 : UInt8) :
    -86400 < baseOf (ntpTime utcOffsetHours b0 b1 b2 b3) ∧
      baseOf (ntpTime utcOffsetHours b0 b1 b2 b3) < 86400 := by
  simp only [ntpTime]
  generalize add (Int.tmod _ 86400) _ = x
  have hx : -86400 < x.tmod 86400 ∧ x.tmod 86400 < 86400 := by
    rcases OcamlInt.tdiv_cases x 86400 with ⟨-, -, h⟩ | ⟨-, -, h⟩ <;> omega
  rwa [split_time hx]

end PicoOcaml.Clock
