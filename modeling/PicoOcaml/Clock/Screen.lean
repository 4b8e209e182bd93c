import PicoOcaml.Clock.Display
import PicoOcaml.Lcd.Screen

/-! What stands on the display after each iteration of `display_loop`, as the controller makes it of
the levels of its wires. -/
namespace PicoOcaml.Clock

open OcamlInt (add)
open Lcd (T Screen Controller Ready Shows Issues blockBytes)

/-- The pins and columns that the clock gives to `init`. -/
def lcd : T := (Lcd.init 16 17 18 19 20 21 4 20).1

/-- 8 characters of 8 rows. -/
def bitmaps : List Lcd.Int31 := [
  0x1F, 0x1F, 0x00, 0x00, 0x00, 0x00, 0x00, 0x00,
  0x1F, 0x1F, 0x18, 0x18, 0x18, 0x18, 0x18, 0x18,
  0x18, 0x18, 0x18, 0x18, 0x18, 0x18, 0x18, 0x18,
  0x18, 0x18, 0x18, 0x18, 0x18, 0x18, 0x1F, 0x1F,
  0x00, 0x00, 0x00, 0x00, 0x00, 0x00, 0x1F, 0x1F,
  0x03, 0x03, 0x03, 0x03, 0x03, 0x03, 0x1F, 0x1F,
  0x03, 0x03, 0x03, 0x03, 0x03, 0x03, 0x03, 0x03,
  0x1F, 0x1F, 0x03, 0x03, 0x03, 0x03, 0x03, 0x03]

/-- The index `i * 8 + j` is always one of the array. -/
def loadCustomChars (lcd : T) : List Lcd.Event :=
  ((List.range 8).flatMap fun i =>
    Lcd.writeCommand lcd (0x40 ||| BitVec.ofNat 31 i <<< 3) ++ [.sleepUs 40] ++
      (List.range 8).flatMap fun j =>
        Lcd.writeData lcd (bitmaps.getD (i * 8 + j) 0) ++ [.sleepUs 40]) ++
    Lcd.moveTo lcd 0 0

/-- What the main program sends between `Lcd.init` and `Domain.spawn`. -/
def status (lcd : T) (ssid ip : List UInt8) : List Lcd.Event :=
  loadCustomChars lcd ++
    Lcd.moveTo lcd 0 0 ++ Lcd.printString lcd "Connecting WiFi...".toUTF8.toList ++
    Lcd.moveTo lcd 0 1 ++ Lcd.printString lcd ssid ++
    Lcd.moveTo lcd 0 2 ++ Lcd.printString lcd "IP: ".toUTF8.toList ++ Lcd.printString lcd ip ++
    [.sleepMs 1000] ++ Lcd.clear lcd

/-- The calls that reach the driver. -/
def Output.call : Output → Option Lcd.Call
  | .pwmSetDuty _ _ => none
  | .moveTo col row => some (.moveTo (BitVec.ofInt 31 col) (BitVec.ofInt 31 row))
  | .writeData data => some (.writeData (BitVec.ofInt 31 data))

def driven (outputs : List Output) : List Lcd.Event :=
  (outputs.filterMap Output.call).flatMap (Lcd.Call.events lcd)

/-- The byte that `write_data` sends. -/
def code (data : ℤ) : BitVec 8 := (BitVec.ofInt 31 data).setWidth 8

/-- The segment of a digit in a column and row of its block. -/
def segment (digit : ℤ) (col row : ℕ) : ℤ :=
  let seg := digits.getD (digit.toNat * 12 + row * 3 + col) 0
  if seg = 8 then 32 else seg

def colonSegment (visible : Bool) (_ row : ℕ) : ℤ :=
  if visible ∧ (row = 1 ∨ row = 2) then 0xA5 else 32

/-- A block of segments over what stood there. -/
def drawn (scr : Screen) (col w : ℕ) (f : ℕ → ℕ → ℤ) : Screen :=
  scr.block col w fun c row => code (f c row)

/-- An iteration over what stood there. -/
def redrawn (colon : Bool) (day : ℤ) (scr : Screen) : Screen :=
  let scr := drawn scr 2 3 (segment ((hours day).tdiv 10))
  let scr := drawn scr 6 3 (segment ((hours day).tmod 10))
  let scr := drawn scr 9 1 (colonSegment colon)
  let scr := drawn scr 10 3 (segment ((minutes day).tdiv 10))
  let scr := drawn scr 14 3 (segment ((minutes day).tmod 10))
  scr.strip 18 3 [code (add 48 ((seconds day).tdiv 10)), code (add 48 ((seconds day).tmod 10))]

def picture (colon : Bool) (day : ℤ) : Screen := redrawn colon day Screen.blank

/-- The pattern of each of the eight characters. -/
def glyphs (a : BitVec 6) : BitVec 8 := (bitmaps.getD a.toNat 0).setWidth 8

/-- After a whole iteration the wires have given the controller, whatever it held at power-on, the
picture of the time that the iteration computed. -/
def State.Pictured (c : Controller) (b : Lcd.Board) (s0 : c.State) (ssid ip : List UInt8)
    (s : State) (a : Act) (t : State) : Prop :=
  ∀ bs sm, a = .core1 → s.core1 = .readTime bs sm → t.core1 ≠ .dead →
    ∃ bytes, Lcd.pairUp (Lcd.samples lcd (b.after (Lcd.initPins lcd ++ Lcd.initNibbles lcd))
        (Lcd.initCommands lcd 4 ++ status lcd ssid ip ++ driven t.outputs)) = some bytes ∧
      Shows c (bytes.foldl c.put s0) glyphs (picture s.colon (daySecs bs sm (timeMs s.us)))

variable {utcOffsetHours day d : ℤ} {s t : State} {a : Act} {c : Controller} {σ : c.State}
  {scr : Screen} {outputs : List Output}

theorem lcd_nodup : lcd.pins.Nodup := by decide

/-! ### One iteration -/

def bytesOf (outputs : List Output) : List (Bool × BitVec 8) :=
  (outputs.filterMap Output.call).flatMap (Lcd.Call.bytes lcd)

@[simp] theorem bytesOf_nil : bytesOf [] = [] := rfl

theorem bytesOf_append (xs ys : List Output) : bytesOf (xs ++ ys) = bytesOf xs ++ bytesOf ys := by
  rw [bytesOf, List.filterMap_append, List.flatMap_append]
  rfl

@[simp] theorem bytesOf_pwmSetDuty (pin duty : ℤ) (outputs : List Output) :
    bytesOf (.pwmSetDuty pin duty :: outputs) = bytesOf outputs := rfl

@[simp] theorem bytesOf_writeData (data : ℤ) (outputs : List Output) :
    bytesOf (.writeData data :: outputs) = (true, code data) :: bytesOf outputs := rfl

theorem bytesOf_moveTo {x y : ℕ} (hx : x < 20) (hy : y < 4) (outputs : List Output) :
    bytesOf (.moveTo x y :: outputs) = (false, 1#1 ++ Lcd.cell x y) :: bytesOf outputs := by
  have hcall : bytesOf (.moveTo x y :: outputs) =
      Lcd.Call.bytes lcd (.moveTo (BitVec.ofInt 31 x) (BitVec.ofInt 31 y)) ++ bytesOf outputs := rfl
  rw [hcall, BitVec.ofInt_natCast, BitVec.ofInt_natCast, Lcd.bytes_moveTo rfl hx hy]
  rfl

/-- A `move_to` and the data behind it. -/
theorem bytesOf_strip {x y : ℕ} (hx : x < 20) (hy : y < 4) (ds : List ℤ) :
    bytesOf (.moveTo x y :: ds.map .writeData) =
      (false, 1#1 ++ Lcd.cell x y) :: (ds.map code).map (Prod.mk true) := by
  rw [bytesOf_moveTo hx hy]
  congr 1
  induction ds with
  | nil => rfl
  | cons d ds ih => rw [List.map_cons, bytesOf_writeData, ih, List.map_cons, List.map_cons]

/-- Rows of a block, as `display_digit` and `display_colon` put them out. -/
def rowsOf (col w : ℕ) (f : ℕ → ℕ → ℤ) : List Output :=
  [0, 1, 2, 3].flatMap fun row : ℕ =>
    .moveTo col row :: (List.range w).map fun c => .writeData (f c row)

theorem displayDigit_eq (col : ℕ) (h0 : 0 ≤ d) (h1 : d ≤ 9) :
    displayDigit col d = some (rowsOf col 3 (segment d)) := by
  interval_cases d <;> rfl

theorem displayDigit_neg (col : ℕ) (h0 : d < 0) (h1 : -10 < d) : displayDigit col d = none := by
  interval_cases d <;> rfl

theorem displayColon_eq (col : ℕ) (visible : Bool) :
    displayColon col visible = rowsOf col 1 (colonSegment visible) := by
  cases visible <;> rfl

theorem bytesOf_rowsOf {col : ℕ} (hcol : col < 20) (w : ℕ) (f : ℕ → ℕ → ℤ) :
    bytesOf (rowsOf col w f) = blockBytes col w fun c row => code (f c row) := by
  have hrow : ∀ row : ℕ, row < 4 →
      bytesOf (.moveTo col row :: (List.range w).map fun c => .writeData (f c row)) =
        (false, 1#1 ++ Lcd.cell col row) ::
          ((List.range w).map fun c => code (f c row)).map (Prod.mk true) := by
    intro row hrow
    have hstrip := bytesOf_strip hcol hrow ((List.range w).map fun c => f c row)
    rw [List.map_map, List.map_map (g := code)] at hstrip
    exact hstrip
  simp only [rowsOf, blockBytes, List.flatMap_cons, List.flatMap_nil, bytesOf_append]
  rw [hrow 0 (by omega), hrow 1 (by omega), hrow 2 (by omega), hrow 3 (by omega), bytesOf_nil]

theorem shows_rowsOf (h : Shows c σ glyphs scr) (col w : ℕ) (f : ℕ → ℕ → ℤ) (hcol : col < 20)
    (hw : col + w ≤ 20) :
    Shows c ((bytesOf (rowsOf col w f)).foldl c.put σ) glyphs (drawn scr col w f) := by
  rw [bytesOf_rowsOf hcol]
  exact h.block hcol hw

/-- The digits of a time of less than a day, before or after midnight. -/
theorem shownDigits_small (h0 : -86400 < day) (h1 : day < 86400) :
    ∀ d ∈ shownDigits day, -10 < d ∧ d ≤ 9 := by
  have hh : -24 < hours day ∧ hours day < 24 := by
    rw [hours]
    rcases OcamlInt.tdiv_cases day 3600 with h | h <;> omega
  have hm : -60 < minutes day ∧ minutes day < 60 := by
    rw [minutes]
    rcases OcamlInt.tdiv_cases day 3600 with hr | hr <;>
      rcases OcamlInt.tdiv_cases (day.tmod 3600) 60 with h | h <;> omega
  have htens : ∀ n : ℤ, -60 < n → n < 60 → (-10 < n.tdiv 10 ∧ n.tdiv 10 ≤ 9) ∧
      -10 < n.tmod 10 ∧ n.tmod 10 ≤ 9 := by
    intro n h0 h1
    rcases OcamlInt.tdiv_cases n 10 with ⟨-, h, hr⟩ | ⟨-, h, hr⟩ <;> omega
  have hhours := htens (hours day) (by omega) (by omega)
  have hminutes := htens (minutes day) hm.1 hm.2
  intro d hd
  simp only [shownDigits, List.mem_cons, List.not_mem_nil, or_false] at hd
  obtain rfl | rfl | rfl | rfl := hd
  · exact hhours.1
  · exact hhours.2
  · exact hminutes.1
  · exact hminutes.2

theorem shown_digit (hd : ∀ d ∈ shownDigits day, -10 < d ∧ d ≤ 9) (col : ℕ)
    (hmem : d ∈ shownDigits day) {outputs : List Output} (h : displayDigit col d = some outputs) :
    outputs = rowsOf col 3 (segment d) := by
  by_cases h0 : 0 ≤ d
  · rw [displayDigit_eq col h0 (hd d hmem).2] at h
    exact (Option.some.inj h).symm
  · rw [displayDigit_neg col (by omega) (hd d hmem).1] at h
    cases h

theorem shows_display (h : Shows c σ glyphs scr) {colon : Bool}
    (hday : -86400 < day) (hday' : day < 86400)
    (hd : display colon day = some outputs) :
    Shows c ((bytesOf outputs).foldl c.put σ) glyphs (redrawn colon day scr) := by
  have hsmall := shownDigits_small hday hday'
  simp only [display, Option.bind_eq_bind, Option.bind_eq_some_iff, Option.pure_def,
    Option.some.injEq] at hd
  obtain ⟨h1, hh1, h0, hh0, m1, hm1, m0, hm0, rfl⟩ := hd
  obtain rfl := shown_digit hsmall 2 (by simp [shownDigits]) hh1
  obtain rfl := shown_digit hsmall 6 (by simp [shownDigits]) hh0
  obtain rfl := shown_digit hsmall 10 (by simp [shownDigits]) hm1
  obtain rfl := shown_digit hsmall 14 (by simp [shownDigits]) hm0
  have hseconds := bytesOf_strip (x := 18) (y := 3) (by omega) (by omega)
    [add 48 ((seconds day).tdiv 10), add 48 ((seconds day).tmod 10)]
  have hcolon := displayColon_eq 9 colon
  simp only [Nat.cast_ofNat, List.map_cons, List.map_nil] at hseconds hcolon
  simp only [bytesOf_append, List.foldl_append, bytesOf_pwmSetDuty, bytesOf_nil, List.foldl_nil,
    hcolon, hseconds]
  have hh1 := shows_rowsOf h 2 3 (segment ((hours day).tdiv 10)) (by omega) (by omega)
  have hh0 := shows_rowsOf hh1 6 3 (segment ((hours day).tmod 10)) (by omega) (by omega)
  have hcol := shows_rowsOf hh0 9 1 (colonSegment colon) (by omega) (by omega)
  have hm1 := shows_rowsOf hcol 10 3 (segment ((minutes day).tdiv 10)) (by omega) (by omega)
  have hm0 := shows_rowsOf hm1 14 3 (segment ((minutes day).tmod 10)) (by omega) (by omega)
  have hlen : 18 + [code (add 48 ((seconds day).tdiv 10)),
      code (add 48 ((seconds day).tmod 10))].length ≤ 20 := by simp
  have hlast := hm0.strip (x := 18) (y := 3) (by omega) (by omega) hlen
  exact hlast

/-- An iteration leaves nothing of an earlier one. -/
theorem redrawn_redrawn (colon colon' : Bool) (day day' : ℤ) (scr : Screen) :
    redrawn colon day (redrawn colon' day' scr) = redrawn colon day scr := by
  funext x y
  simp only [redrawn, drawn, Screen.block, Screen.strip]
  by_cases hlast : y = 3 ∧ 18 ≤ x
  · simp only [if_pos hlast]
    by_cases hx : x - 18 < 2
    · simp [hx]
    · have hout : ∀ col w, col + w ≤ 18 → ¬ (col ≤ x ∧ x < col + w) := by omega
      rw [List.getElem?_eq_none (by simp; omega), List.getElem?_eq_none (by simp; omega)]
      simp only [Option.getD_none, if_neg (hout 2 3 (by omega)), if_neg (hout 6 3 (by omega)),
        if_neg (hout 9 1 (by omega)), if_neg (hout 10 3 (by omega)), if_neg (hout 14 3 (by omega))]
  · simp only [if_neg hlast]
    split_ifs <;> rfl

/-! ### Before the first iteration -/

theorem issues_text (text : List UInt8) :
    Issues lcd (Lcd.printString lcd text) (Lcd.Call.bytes lcd (.printString text)) :=
  Lcd.issues_call lcd_nodup (.printString text)

/-- The pattern bytes of a character, behind its address. -/
def charBytes (i : ℕ) : List (Bool × BitVec 8) :=
  (false, 1#2 ++ BitVec.ofNat 6 (i * 8)) ::
    ((List.range 8).map fun j => glyphs (BitVec.ofNat 6 (i * 8 + j))).map (Prod.mk true)

theorem issues_loadCustomChars :
    Issues lcd (loadCustomChars lcd) ((List.range 8).flatMap charBytes ++ [(false, 1#1 ++ 0#7)]) := by
  have hdata : ∀ n, Issues lcd (Lcd.writeData lcd n ++ [Lcd.Event.sleepUs 40]) [(true, n.setWidth 8)] :=
    fun n => (Lcd.issues_put_write8bits lcd_nodup true n).append (Lcd.issues_sleepUs 40)
  have hchar : ∀ i, Issues lcd (Lcd.writeCommand lcd (0x40 ||| BitVec.ofNat 31 i <<< 3) ++
      [Lcd.Event.sleepUs 40] ++ (List.range 8).flatMap fun j =>
        Lcd.writeData lcd (bitmaps.getD (i * 8 + j) 0) ++ [Lcd.Event.sleepUs 40])
      ((false, (0x40 ||| BitVec.ofNat 31 i <<< 3).setWidth 8) ::
        (List.range 8).flatMap fun j => [(true, (bitmaps.getD (i * 8 + j) 0).setWidth 8)]) := by
    intro i
    exact ((Lcd.issues_writeCommand lcd_nodup _).append (Lcd.issues_sleepUs 40)).append
      (Issues.flatMap (fun j => hdata (bitmaps.getD (i * 8 + j) 0)) (List.range 8))
  have hall := (Issues.flatMap hchar (List.range 8)).append
    (Lcd.issues_call lcd_nodup (.moveTo 0 0))
  have hbytes : ((List.range 8).flatMap fun i =>
      (false, (0x40 ||| BitVec.ofNat 31 i <<< 3).setWidth 8) ::
        (List.range 8).flatMap fun j => [(true, (bitmaps.getD (i * 8 + j) 0).setWidth 8)]) =
      (List.range 8).flatMap charBytes := by decide
  rw [hbytes] at hall
  exact hall

/-- Characters from 0 on have been loaded. -/
structure Loaded (c : Controller) (σ : c.State) (n : ℕ) : Prop where
  mode : (c.view σ).mode = ⟨true, true, false⟩
  on : (c.view σ).on = true
  unshifted : (c.view σ).shifted = 0
  chars : ∀ a : BitVec 6, a.toNat < n * 8 → (c.view σ).cgram a = glyphs a

theorem Loaded.next {n : ℕ} (h : Loaded c σ n) (hn : n < 8) :
    Loaded c ((charBytes n).foldl c.put σ) (n + 1) := by
  have hview := Lcd.view_store h.mode (BitVec.ofNat 6 (n * 8))
    ((List.range 8).map fun j => glyphs (BitVec.ofNat 6 (n * 8 + j)))
  constructor <;> rw [charBytes, hview]
  · exact h.mode
  · exact h.on
  · exact h.unshifted
  · intro a ha
    have hsub : (a - BitVec.ofNat 6 (n * 8)).toNat =
        if n * 8 ≤ a.toNat then a.toNat - n * 8 else 64 + a.toNat - n * 8 := by
      simp only [BitVec.toNat_sub, BitVec.toNat_ofNat]
      split <;> omega
    have hlen : ((List.range 8).map fun j => glyphs (BitVec.ofNat 6 (n * 8 + j))).length ≤ 64 := by
      simp
    dsimp only
    rw [Lcd.store_apply _ _ hlen, hsub]
    split
    · next hge =>
      have hidx : a.toNat - n * 8 < 8 := by omega
      have haddr : n * 8 + (a.toNat - n * 8) = a.toNat := by omega
      simp [hidx, haddr]
    · next hlt =>
      rw [List.getElem?_eq_none (by simp; omega)]
      exact h.chars a (by omega)

theorem loaded_all {g : BitVec 6 → BitVec 8} (h : Ready c σ g) :
    Ready c (((List.range 8).flatMap charBytes ++ [(false, 1#1 ++ 0#7)]).foldl c.put σ) glyphs := by
  have hloaded : ∀ n ≤ 8, Loaded c (((List.range n).flatMap charBytes).foldl c.put σ) n := by
    intro n
    induction n with
    | zero =>
      intro _
      exact ⟨h.mode, h.on, h.unshifted, fun a ha => by omega⟩
    | succ n ih =>
      intro hn
      rw [List.range_succ, List.flatMap_append, List.foldl_append]
      have hnext := (ih (by omega)).next (by omega)
      simpa using hnext
  have hall := hloaded 8 (Nat.le_refl 8)
  have hview := c.setDdram _ 0#7 (by rw [hall.mode]) (Or.inl (by decide))
  rw [List.foldl_append]
  constructor <;> rw [List.foldl_cons, List.foldl_nil, hview]
  · exact hall.mode
  · exact hall.on
  · exact hall.unshifted
  · funext a
    exact hall.chars a (by omega)
  · exact ⟨0#7, rfl, Or.inl (by decide)⟩

/-- From the first byte of `init` on. -/
theorem shows_status (c : Controller) (σ : c.State) (ssid ip : List UInt8) :
    ∃ bytes, Issues lcd (Lcd.initCommands lcd 4 ++ status lcd ssid ip) bytes ∧
      Shows c (bytes.foldl c.put σ) glyphs Screen.blank := by
  have hinit : Issues lcd (Lcd.initCommands lcd 4) Lcd.initBytes := Lcd.issues_init lcd_nodup rfl
  have hmove : ∀ row, Issues lcd (Lcd.moveTo lcd 0 row) (Lcd.Call.bytes lcd (.moveTo 0 row)) :=
    fun row => Lcd.issues_call lcd_nodup (.moveTo 0 row)
  have hclear := Lcd.issues_call lcd_nodup .clear
  have hstatus := ((((((((issues_loadCustomChars.append (hmove 0)).append
    (issues_text "Connecting WiFi...".toUTF8.toList)).append (hmove 1)).append
    (issues_text ssid)).append (hmove 2)).append (issues_text "IP: ".toUTF8.toList)).append
    (issues_text ip)).append (Lcd.issues_sleepMs 1000)).append hclear
  rw [status]
  refine ⟨_, hinit.append hstatus, ?_⟩
  have h0 := loaded_all (Lcd.ready_init σ)
  have h1 := (h0.moveTo (t := lcd) (x := 0) (y := 0) rfl (by omega) (by omega)).text (t := lcd)
    "Connecting WiFi...".toUTF8.toList
  have h2 := (h1.moveTo (t := lcd) (x := 0) (y := 1) rfl (by omega) (by omega)).text (t := lcd) ssid
  have h3 := ((h2.moveTo (t := lcd) (x := 0) (y := 2) rfl (by omega) (by omega)).text (t := lcd)
    "IP: ".toUTF8.toList).text (t := lcd) ip
  have h4 := h3.clear (t := lcd)
  simp only [List.foldl_append, List.append_nil] at h4 ⊢
  exact h4

/-! ### Runs -/

/-- What the outputs so far have left on the display does not matter to the next picture. -/
def State.Redrawable (c : Controller) (σ : c.State) (s : State) : Prop :=
  ∃ scr, Shows c ((bytesOf s.outputs).foldl c.put σ) glyphs scr ∧
    ∀ colon day, redrawn colon day scr = picture colon day

theorem step_redrawable (h : s.Redrawable c σ) (hs : Step utcOffsetHours s a t) :
    t.Redrawable c σ ∧ ∀ bs sm, a = .core1 → s.core1 = .readTime bs sm → t.core1 ≠ .dead →
      Shows c ((bytesOf t.outputs).foldl c.put σ) glyphs
        (picture s.colon (daySecs bs sm (timeMs s.us))) := by
  have hsame : t.outputs = s.outputs → t.Redrawable c σ := by
    intro heq
    rw [State.Redrawable, heq]
    exact h
  cases hs with
  | tick us => exact ⟨hsame rfl, fun _ _ ha => by cases ha⟩
  | failed reply => exact ⟨hsame rfl, fun _ _ ha => by cases ha⟩
  | setBase b0 b1 b2 b3 h => exact ⟨hsame rfl, fun _ _ ha => by cases ha⟩
  | waiting h => exact ⟨hsame rfl, fun _ _ ha => by cases ha⟩
  | readTime h => exact ⟨hsame rfl, fun _ _ ha => by cases ha⟩
  | setSync ms h => exact ⟨hsame rfl, fun _ _ ha => by cases ha⟩
  | getBase h => exact ⟨hsame rfl, fun _ _ _ hpc => by rw [h] at hpc; cases hpc⟩
  | getSync bs sync h => exact ⟨hsame rfl, fun _ _ _ hpc => by rw [h] at hpc; cases hpc⟩
  | raised bs sm h hd => exact ⟨hsame rfl, fun _ _ _ _ halive => absurd rfl halive⟩
  | dead h => exact ⟨hsame rfl, fun _ _ _ hpc => by rw [h] at hpc; cases hpc⟩
  | shown bs sm outputs hpc hd =>
    obtain ⟨scr, hshows, hscr⟩ := h
    have hdrawn := shows_display hshows (Int.lt_tmod_of_pos _ (by omega)) (daySecs_lt _ _ _) hd
    rw [hscr, ← List.foldl_append, ← bytesOf_append] at hdrawn
    constructor
    · exact ⟨_, hdrawn, fun colon day => redrawn_redrawn ..⟩
    · intro bs' sm' _ hpc' _
      rw [hpc] at hpc'
      cases hpc'
      exact hdrawn

/-- Whatever the controller, the pins, the network name and the address are at the start, after
every iteration of a run the display has the picture of the time that the iteration computed. -/
theorem pictured (c : Controller) (b : Lcd.Board) (s0 : c.State) (ssid ip : List UInt8)
    (utcOffsetHours : ℤ) (acts : List Act) :
    Lts.Run (State.Pictured c b s0 ssid ip) State.initial
      (Lts.trace (State.next utcOffsetHours) State.initial acts) := by
  obtain ⟨bytes, hissues, hblank⟩ := shows_status c s0 ssid ip
  have hinitial : State.initial.Redrawable c (bytes.foldl c.put s0) :=
    ⟨Screen.blank, hblank, fun _ _ => rfl⟩
  have hrun : Lts.Run (fun s a t => t = State.next utcOffsetHours s a) State.initial
      (Lts.trace (State.next utcOffsetHours) State.initial acts) := Lts.run_trace
  have hkeeps := hrun.keeps hinitial
    (c := fun s a t => ∀ bs sm, a = .core1 → s.core1 = .readTime bs sm → t.core1 ≠ .dead →
      Shows c ((bytesOf t.outputs).foldl c.put (bytes.foldl c.put s0)) glyphs
        (picture s.colon (daySecs bs sm (timeMs s.us))))
    (by
      rintro s a t hs rfl
      exact step_redrawable hs (step_next a))
  refine hkeeps.2.imp fun s a t hstep bs sm ha hpc halive => ?_
  have hdriven := Issues.flatMap (Lcd.issues_call lcd_nodup) (t.outputs.filterMap Output.call)
  have hboard := (Lcd.initNibbles_from_pins lcd_nodup b).2
  refine ⟨bytes ++ bytesOf t.outputs, ?_, ?_⟩
  · rw [driven, ((hissues.append hdriven) _ hboard).1, Lcd.pairUp_nibbles]
    rfl
  · rw [List.foldl_append]
    exact hstep bs sm ha hpc halive

/-- A controller that comes up in one-line mode, off and full of other characters, at the first
iteration after a synchronisation. -/
theorem pictured_hd44780 :
    let b : Lcd.Board := ⟨fun _ => false, fun _ => false, fun _ => true⟩
    let s0 : Lcd.View :=
      ⟨⟨false, false, true⟩, false, 5, .cgram 3, fun _ => 0xFF, fun _ => 0xFF⟩
    let acts : List Act := [.ntp (some (0, 0, 14, 16)), .core0, .core0, .core1, .core1]
    let s := acts.foldl (State.next 1) State.initial
    s.core1 = .readTime 7200 0 ∧ (s.next 1 .core1).core1 ≠ .dead ∧
      State.Pictured Lcd.hd44780 b s0 [83] [49, 46, 49] s .core1 (s.next 1 .core1) := by
  intro b s0 acts s
  obtain ⟨-, -, -, -, -, hshown, -⟩ :=
    pictured Lcd.hd44780 b s0 [83] [49, 46, 49] 1 (acts ++ [.core1])
  exact ⟨rfl, by decide, hshown⟩

/-! ### Reading the display -/

theorem picture_block (colon : Bool) (day : ℤ) {k : ℕ} (hk : k < 3) (row : ℕ) :
    picture colon day (2 + k) row = code (segment ((hours day).tdiv 10) k row) ∧
    picture colon day (6 + k) row = code (segment ((hours day).tmod 10) k row) ∧
    picture colon day (10 + k) row = code (segment ((minutes day).tdiv 10) k row) ∧
    picture colon day (14 + k) row = code (segment ((minutes day).tmod 10) k row) := by
  interval_cases k <;> simp [picture, redrawn, drawn, Screen.block, Screen.strip]

theorem picture_colon (colon : Bool) (day : ℤ) :
    picture colon day 9 1 = code (colonSegment colon 0 1) := rfl

theorem picture_seconds (colon : Bool) (day : ℤ) :
    picture colon day 18 3 = code (add 48 ((seconds day).tdiv 10)) ∧
      picture colon day 19 3 = code (add 48 ((seconds day).tmod 10)) := ⟨rfl, rfl⟩

theorem segment_inj {d' : ℤ} (h : 0 ≤ d ∧ d ≤ 9) (h' : 0 ≤ d' ∧ d' ≤ 9)
    (heq : ∀ k < 3, ∀ row < 4, code (segment d k row) = code (segment d' k row)) : d = d' := by
  have hnat : ∀ d < 10, ∀ d' < 10, (∀ k < 3, ∀ row < 4,
      code (segment (d : ℕ) k row) = code (segment (d' : ℕ) k row)) → d = d' := by decide
  obtain ⟨n, rfl⟩ := Int.eq_ofNat_of_zero_le h.1
  obtain ⟨n', rfl⟩ := Int.eq_ofNat_of_zero_le h'.1
  exact congrArg _ (hnat n (by omega) n' (by omega) heq)

theorem code_inj {m n : ℤ} (hm : 0 ≤ m ∧ m ≤ 9) (hn : 0 ≤ n ∧ n ≤ 9)
    (heq : code (add 48 m) = code (add 48 n)) : m = n := by
  have hnat : ∀ m < 10, ∀ n < 10, code (add 48 (m : ℕ)) = code (add 48 (n : ℕ)) → m = n := by decide
  obtain ⟨k, rfl⟩ := Int.eq_ofNat_of_zero_le hm.1
  obtain ⟨l, rfl⟩ := Int.eq_ofNat_of_zero_le hn.1
  exact congrArg _ (hnat k (by omega) l (by omega) heq)

/-- A picture tells the time of day to the second, and the phase of the colon. -/
theorem picture_inj {day' : ℤ} {colon colon' : Bool} (h : 0 ≤ day ∧ day < 86400)
    (h' : 0 ≤ day' ∧ day' < 86400)
    (heq : ∀ x < 20, ∀ y < 4, picture colon day x y = picture colon' day' x y) :
    colon = colon' ∧ day = day' := by
  have hd := shownDigits_bounds h.1 h.2
  have hd' := shownDigits_bounds h'.1 h'.2
  simp only [shownDigits, List.forall_mem_cons] at hd hd'
  have hsecs : ∀ {day : ℤ}, 0 ≤ day ∧ day < 86400 →
      (0 ≤ (seconds day).tdiv 10 ∧ (seconds day).tdiv 10 ≤ 9) ∧
        0 ≤ (seconds day).tmod 10 ∧ (seconds day).tmod 10 ≤ 9 := by
    intro day h
    have hs : seconds day = day % 60 := Int.tmod_eq_emod_of_nonneg h.1
    rcases OcamlInt.tdiv_cases (seconds day) 10 with hr | hr <;> omega
  have hh1 : (hours day).tdiv 10 = (hours day').tdiv 10 := by
    apply segment_inj hd.1 hd'.1
    intro k hk row hrow
    have hcell := heq (2 + k) (by omega) row hrow
    rwa [(picture_block colon day hk row).1, (picture_block colon' day' hk row).1] at hcell
  have hh0 : (hours day).tmod 10 = (hours day').tmod 10 := by
    apply segment_inj hd.2.1 hd'.2.1
    intro k hk row hrow
    have hcell := heq (6 + k) (by omega) row hrow
    rwa [(picture_block colon day hk row).2.1, (picture_block colon' day' hk row).2.1] at hcell
  have hm1 : (minutes day).tdiv 10 = (minutes day').tdiv 10 := by
    apply segment_inj hd.2.2.1 hd'.2.2.1
    intro k hk row hrow
    have hcell := heq (10 + k) (by omega) row hrow
    rwa [(picture_block colon day hk row).2.2.1, (picture_block colon' day' hk row).2.2.1] at hcell
  have hm0 : (minutes day).tmod 10 = (minutes day').tmod 10 := by
    apply segment_inj hd.2.2.2.1 hd'.2.2.2.1
    intro k hk row hrow
    have hcell := heq (14 + k) (by omega) row hrow
    rwa [(picture_block colon day hk row).2.2.2, (picture_block colon' day' hk row).2.2.2] at hcell
  have hs1 : (seconds day).tdiv 10 = (seconds day').tdiv 10 := by
    have hcell := heq 18 (by omega) 3 (by omega)
    rw [(picture_seconds colon day).1, (picture_seconds colon' day').1] at hcell
    exact code_inj (hsecs h).1 (hsecs h').1 hcell
  have hs0 : (seconds day).tmod 10 = (seconds day').tmod 10 := by
    have hcell := heq 19 (by omega) 3 (by omega)
    rw [(picture_seconds colon day).2, (picture_seconds colon' day').2] at hcell
    exact code_inj (hsecs h).2 (hsecs h').2 hcell
  have hcolon : colon = colon' := by
    have hcell := heq 9 (by omega) 1 (by omega)
    rw [picture_colon, picture_colon] at hcell
    revert hcell
    cases colon <;> cases colon' <;> decide
  refine ⟨hcolon, ?_⟩
  have htens : ∀ n n' : ℤ, n.tdiv 10 = n'.tdiv 10 → n.tmod 10 = n'.tmod 10 → n = n' := by
    intro n n' hdiv hmod
    rw [← Int.mul_tdiv_add_tmod n 10, hdiv, hmod, Int.mul_tdiv_add_tmod]
  have hh := htens _ _ hh1 hh0
  have hm := htens _ _ hm1 hm0
  have hs := htens _ _ hs1 hs0
  rw [← split_time (y := day) (by omega), ← split_time (y := day') (by omega)]
  rw [hours, hours] at hh
  rw [minutes, minutes] at hm
  rw [seconds, seconds] at hs
  rw [hh, hm, hs]

/-- No two seconds of a day look the same. -/
theorem picture_legible {day' : ℤ} {colon colon' : Bool} (h : 0 ≤ day ∧ day < 86400)
    (h' : 0 ≤ day' ∧ day' < 86400) (hne : colon ≠ colon' ∨ day ≠ day') :
    ∃ x < 20, ∃ y < 4, picture colon day x y ≠ picture colon' day' x y := by
  by_contra hsame
  push Not at hsame
  obtain ⟨hcolon, hday⟩ := picture_inj h h' hsame
  exact hne.elim (fun h => h hcolon) fun h => h hday

/-- Before and after midnight. -/
theorem picture_legible_midnight :
    ∃ x < 20, ∃ y < 4, picture true 86399 x y ≠ picture false 0 x y :=
  picture_legible (by decide) (by decide) (.inl (by decide))

end PicoOcaml.Clock
