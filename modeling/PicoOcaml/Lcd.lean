import Mathlib.Data.BitVec
import Mathlib.Logic.Function.Basic

/-! The HD44780 driver: each call as the list of the primitives it calls, in order. -/
namespace PicoOcaml.Lcd

/-- OCaml's `int` on the target, by its bits. -/
abbrev Int31 := BitVec 31

abbrev Pin := ℕ

/-- A call of one of the externals. -/
inductive Event
  | gpioInit (pin : Pin)
  | gpioSetDirOut (pin : Pin)
  | gpioPut (pin : Pin) (level : Bool)
  | sleepUs (n : ℕ)
  | sleepMs (n : ℕ)
deriving DecidableEq

structure T where
  rs : Pin
  en : Pin
  d4 : Pin
  d5 : Pin
  d6 : Pin
  d7 : Pin
  columns : Int31
deriving DecidableEq

def T.pins (t : T) : List Pin := [t.rs, t.d7, t.d6, t.d5, t.d4, t.en]

def pulseEnable (t : T) : List Event :=
  [.gpioPut t.en false, .sleepUs 1, .gpioPut t.en true, .sleepUs 1, .gpioPut t.en false,
    .sleepUs 100]

def write4bits (t : T) (nibble : Int31) : List Event :=
  [.gpioPut t.d7 (nibble &&& 8 != 0), .gpioPut t.d6 (nibble &&& 4 != 0),
    .gpioPut t.d5 (nibble &&& 2 != 0), .gpioPut t.d4 (nibble &&& 1 != 0)] ++ pulseEnable t

def write8bits (t : T) (value : Int31) : List Event :=
  write4bits t (value >>> 4) ++ write4bits t value

def writeCommand (t : T) (cmd : Int31) : List Event :=
  [.gpioPut t.rs false] ++ write8bits t cmd ++ (if cmd.sle 3 then [.sleepMs 5] else [])

def writeData (t : T) (data : Int31) : List Event :=
  [.gpioPut t.rs true] ++ write8bits t data

def initPin (pin : Pin) : List Event := [.gpioInit pin, .gpioSetDirOut pin, .gpioPut pin false]

/-- `init` up to the first sleep. -/
def initPins (t : T) : List Event :=
  initPin t.rs ++ initPin t.en ++ initPin t.d4 ++ initPin t.d5 ++ initPin t.d6 ++ initPin t.d7

/-- "HD44780 init sequence": the four nibbles that are not part of a byte. -/
def initNibbles (t : T) : List Event :=
  [.sleepMs 20] ++ write4bits t 0x03 ++ [.sleepMs 5] ++ write4bits t 0x03 ++ [.sleepMs 1] ++
    write4bits t 0x03 ++ [.sleepMs 1] ++ write4bits t 0x02 ++ [.sleepMs 1]

/-- The rest of `init`. -/
def initCommands (t : T) (lines : Int31) : List Event :=
  writeCommand t (0x20 ||| if (1 : Int31).slt lines then 0x08 else 0x00) ++
    writeCommand t 0x08 ++ writeCommand t 0x01 ++ [.sleepMs 5] ++ writeCommand t 0x02 ++
    [.sleepMs 5] ++ writeCommand t 0x06 ++ writeCommand t 0x0C

def init (rsPin enPin d4Pin d5Pin d6Pin d7Pin : Pin) (lines cols : Int31) : T × List Event :=
  let t : T := ⟨rsPin, enPin, d4Pin, d5Pin, d6Pin, d7Pin, cols⟩
  (t, initPins t ++ initNibbles t ++ initCommands t lines)

def clear (t : T) : List Event :=
  writeCommand t 0x01 ++ [.sleepMs 5] ++ writeCommand t 0x02 ++ [.sleepMs 5]

/-- The address that `move_to` sends. -/
def address (t : T) (col row : Int31) : Int31 :=
  let addr := col &&& 0x3f
  let addr := if row &&& 1 ≠ 0 then addr + 0x40 else addr
  if row &&& 2 ≠ 0 then addr + t.columns else addr

def moveTo (t : T) (col row : Int31) : List Event := writeCommand t (0x80 ||| address t col row)

def printString (t : T) (s : List UInt8) : List Event :=
  s.flatMap fun c => writeData t (BitVec.ofNat 31 c.toNat)

/-! ### The lines -/

/-- The pins as the bank of GPIOs drives them. `pull` is the level of a line that is an input. -/
structure Board where
  isOut : Pin → Bool
  out : Pin → Bool
  pull : Pin → Bool

def Board.level (b : Board) (pin : Pin) : Bool := if b.isOut pin then b.out pin else b.pull pin

/-- `gpio_init` makes the pin an input and clears its output. -/
def Board.next (b : Board) : Event → Board
  | .gpioInit pin =>
    { b with isOut := Function.update b.isOut pin false, out := Function.update b.out pin false }
  | .gpioSetDirOut pin => { b with isOut := Function.update b.isOut pin true }
  | .gpioPut pin level => { b with out := Function.update b.out pin level }
  | .sleepUs _ | .sleepMs _ => b

def Board.after (b : Board) (es : List Event) : Board := es.foldl Board.next b

/-- What a falling edge of EN latches: RS and D7 to D4. -/
structure Sample where
  rs : Bool
  nibble : BitVec 4
deriving DecidableEq

def Board.sample (t : T) (b : Board) : Sample where
  rs := b.level t.rs
  nibble :=
    BitVec.ofBool (b.level t.d7) ++ BitVec.ofBool (b.level t.d6) ++
      BitVec.ofBool (b.level t.d5) ++ BitVec.ofBool (b.level t.d4)

/-- The samples at the falling edges of EN in a trace. -/
def samples (t : T) (b : Board) : List Event → List Sample
  | [] => []
  | e :: es =>
    (if b.level t.en = true ∧ (b.next e).level t.en = false then [(b.next e).sample t] else []) ++
      samples t (b.next e) es

/-- High nibble first, with the same RS in both. -/
def pairUp : List Sample → Option (List (Bool × BitVec 8))
  | [] => some []
  | [_] => none
  | high :: low :: rest =>
    if high.rs = low.rs then
      (pairUp rest).map fun bytes => (high.rs, high.nibble ++ low.nibble) :: bytes
    else none

/-! ### The controller's interface -/

/-- How the controller takes the next sample. -/
inductive Phase
  | eightBit
  | awaitingHigh
  | pending (high : Sample)
deriving DecidableEq

/-- A function-set command, `0b001x_xxxx`, sets DL to the bit after its leading 1. -/
def dataLength (phase : Phase) (rs : Bool) (high : BitVec 4) : Phase :=
  if rs = false ∧ high = 0b0011 then .eightBit
  else if rs = false ∧ high = 0b0010 then .awaitingHigh
  else phase

/-- `rsOf` is the register that a byte goes to when RS differs between its nibbles. -/
def Phase.next (rsOf : Bool → Bool → Bool) (phase : Phase) (s : Sample) : Phase :=
  match phase with
  | .eightBit => dataLength .eightBit s.rs s.nibble
  | .awaitingHigh => .pending s
  | .pending high => dataLength .awaitingHigh (rsOf high.rs s.rs) high.nibble

/-- A call of the driver after `init`. -/
inductive Call
  | writeCommand (cmd : Int31)
  | writeData (data : Int31)
  | moveTo (col row : Int31)
  | printString (s : List UInt8)
  | clear

def Call.events (t : T) : Call → List Event
  | .writeCommand cmd => Lcd.writeCommand t cmd
  | .writeData data => Lcd.writeData t data
  | .moveTo col row => Lcd.moveTo t col row
  | .printString s => Lcd.printString t s
  | .clear => Lcd.clear t

/-- The bytes that a call is to send, each with its RS. -/
def Call.bytes (t : T) : Call → List (Bool × BitVec 8)
  | .writeCommand cmd => [(false, cmd.setWidth 8)]
  | .writeData data => [(true, data.setWidth 8)]
  | .moveTo col row => [(false, (0x80 ||| address t col row).setWidth 8)]
  | .printString s => s.map fun c => (true, c.toBitVec)
  | .clear => [(false, 0x01), (false, 0x02)]

end PicoOcaml.Lcd
