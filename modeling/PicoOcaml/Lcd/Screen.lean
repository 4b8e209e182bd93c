import PicoOcaml.Lcd.Wire

/-! A 20x4 display behind an HD44780: what the bytes of the driver leave in its cells. -/
namespace PicoOcaml.Lcd

/-- Where the next data byte goes. -/
inductive Cursor
  | ddram (a : BitVec 7)
  | cgram (a : BitVec 6)
deriving DecidableEq

/-- What the function set and the entry mode have chosen: two lines, and data that move the cursor
on and leave the display where it is. -/
structure Mode where
  twoLines : Bool
  increment : Bool
  shift : Bool
deriving DecidableEq

/-- What can be told of a controller: its mode, whether it is on, how far the display is shifted,
where the next byte goes, the character codes of the cells and the patterns of the eight characters
that can be defined. -/
structure View where
  mode : Mode
  on : Bool
  shifted : BitVec 7
  cursor : Cursor
  ddram : BitVec 7 → BitVec 8
  cgram : BitVec 6 → BitVec 8

/-- With two lines, the addresses that have a cell. -/
def HasCell (a : BitVec 7) : Prop := a.toNat < 0x28 ∨ 0x40 ≤ a.toNat ∧ a.toNat < 0x68

/-- A controller, with what its documentation says of the instructions that the driver gives. -/
structure Controller where
  State : Type
  put : State → Bool × BitVec 8 → State
  view : State → View
  clear : ∀ s, ∃ ddram, view (put s (false, 0x01)) =
    { view s with
      mode := { (view s).mode with increment := true }
      shifted := 0, cursor := .ddram 0, ddram := ddram } ∧ ∀ a, HasCell a → ddram a = 0x20
  home : ∀ s, view (put s (false, 0x02)) = { view s with shifted := 0, cursor := .ddram 0 }
  entryMode : ∀ s, view (put s (false, 0x06)) =
    { view s with mode := ⟨(view s).mode.twoLines, true, false⟩ }
  displayOff : ∀ s, view (put s (false, 0x08)) = { view s with on := false }
  displayOn : ∀ s, view (put s (false, 0x0C)) = { view s with on := true }
  functionSet : ∀ s, view (put s (false, 0x28)) =
    { view s with mode := { (view s).mode with twoLines := true } }
  setCgram : ∀ s (a : BitVec 6), view (put s (false, 1#2 ++ a)) = { view s with cursor := .cgram a }
  setDdram : ∀ s (a : BitVec 7), (view s).mode.twoLines = true → HasCell a →
    view (put s (false, 1#1 ++ a)) = { view s with cursor := .ddram a }
  writeCgram : ∀ s a d, (view s).mode = ⟨true, true, false⟩ → (view s).cursor = .cgram a →
    view (put s (true, d)) =
      { view s with cursor := .cgram (a + 1), cgram := Function.update (view s).cgram a d }
  writeDdram : ∀ s a d, (view s).mode = ⟨true, true, false⟩ → HasCell a →
    (view s).cursor = .ddram a → ∃ next, view (put s (true, d)) =
      { view s with cursor := .ddram next, ddram := Function.update (view s).ddram a d } ∧
        HasCell next ∧ (HasCell (a + 1) → next = a + 1)

/-- The line ends at 0x27 and 0x67. -/
def nextAddress (a : BitVec 7) : BitVec 7 :=
  if a = 0x27 then 0x40 else if a = 0x67 then 0 else a + 1

/-- The instruction by its highest bit. A data byte in another mode than the driver's and the shifts
are left out. -/
def View.put (v : View) (byte : Bool × BitVec 8) : View :=
  if byte.1 then
    match v.mode, v.cursor with
    | ⟨true, true, false⟩, .ddram a =>
      { v with cursor := .ddram (nextAddress a), ddram := Function.update v.ddram a byte.2 }
    | ⟨true, true, false⟩, .cgram a =>
      { v with cursor := .cgram (a + 1), cgram := Function.update v.cgram a byte.2 }
    | _, _ => v
  else if byte.2.getLsbD 7 then { v with cursor := .ddram (byte.2.setWidth 7) }
  else if byte.2.getLsbD 6 then { v with cursor := .cgram (byte.2.setWidth 6) }
  else if byte.2.getLsbD 5 then { v with mode := { v.mode with twoLines := byte.2.getLsbD 3 } }
  else if byte.2.getLsbD 4 then v
  else if byte.2.getLsbD 3 then { v with on := byte.2.getLsbD 2 }
  else if byte.2.getLsbD 2 then
    { v with mode := ⟨v.mode.twoLines, byte.2.getLsbD 1, byte.2.getLsbD 0⟩ }
  else if byte.2.getLsbD 1 then { v with shifted := 0, cursor := .ddram 0 }
  else if byte.2.getLsbD 0 then
    { v with
      mode := { v.mode with increment := true }
      shifted := 0, cursor := .ddram 0, ddram := fun _ => 0x20 }
  else v

theorem hasCell_nextAddress {a : BitVec 7} (ha : HasCell a) :
    HasCell (nextAddress a) ∧ (HasCell (a + 1) → nextAddress a = a + 1) := by
  simp only [HasCell] at ha ⊢
  rw [nextAddress]
  split_ifs with h1 h2
  · rw [h1]
    decide
  · rw [h2]
    decide
  · have h1' : a.toNat ≠ 0x27 := fun h => h1 (BitVec.eq_of_toNat_eq h)
    have h2' : a.toNat ≠ 0x67 := fun h => h2 (BitVec.eq_of_toNat_eq h)
    have hsucc : (a + 1).toNat = (a.toNat + 1) % 128 := BitVec.toNat_add a 1
    refine ⟨?_, fun _ => rfl⟩
    rw [hsucc]
    omega

/-- What is documented of the instructions can be met. -/
def hd44780 : Controller where
  State := View
  put := View.put
  view := id
  clear v := ⟨fun _ => 0x20, rfl, fun _ _ => rfl⟩
  home _ := rfl
  entryMode _ := rfl
  displayOff _ := rfl
  displayOn _ := rfl
  functionSet _ := rfl
  setCgram v a := by
    have hbits : ∀ a : BitVec 6, (1#2 ++ a).getLsbD 7 = false ∧ (1#2 ++ a).getLsbD 6 = true ∧
        (1#2 ++ a).setWidth 6 = a := by decide
    rw [View.put, if_neg Bool.false_ne_true, (hbits a).1, if_neg Bool.false_ne_true,
      if_pos (hbits a).2.1, (hbits a).2.2]
    rfl
  setDdram v a _ _ := by
    have hbits : ∀ a : BitVec 7, (1#1 ++ a).getLsbD 7 = true ∧ (1#1 ++ a).setWidth 7 = a := by decide
    rw [View.put, if_neg Bool.false_ne_true, if_pos (hbits a).1, (hbits a).2]
    rfl
  writeCgram v a d hmode hcur := by
    simp only [id] at hmode hcur
    simp [View.put, hmode, hcur]
  writeDdram v a d hmode ha hcur := by
    simp only [id] at hmode hcur
    have hnext := hasCell_nextAddress ha
    exact ⟨nextAddress a, by simp [View.put, hmode, hcur], hnext⟩

/-- The character codes by column and row. -/
abbrev Screen := ℕ → ℕ → BitVec 8

/-- The address of a cell, with 20 columns. -/
def cell (x y : ℕ) : BitVec 7 :=
  BitVec.ofNat 7 (x + (if y % 2 = 1 then 0x40 else 0) + if 2 ≤ y then 20 else 0)

/-- The controller is on, unshifted, and takes the next data byte as a character. -/
structure Ready (c : Controller) (s : c.State) (glyphs : BitVec 6 → BitVec 8) : Prop where
  mode : (c.view s).mode = ⟨true, true, false⟩
  on : (c.view s).on = true
  unshifted : (c.view s).shifted = 0
  glyphs : (c.view s).cgram = glyphs
  cursor : ∃ a, (c.view s).cursor = .ddram a ∧ HasCell a

/-- And it has `scr` on its 20 columns and 4 rows. -/
structure Shows (c : Controller) (s : c.State) (glyphs : BitVec 6 → BitVec 8) (scr : Screen) : Prop
    extends Ready c s glyphs where
  cells : ∀ x < 20, ∀ y < 4, (c.view s).ddram (cell x y) = scr x y

def Screen.blank : Screen := fun _ _ => 0x20

/-- Bytes put from column `x` of row `y` on. -/
def Screen.strip (scr : Screen) (x y : ℕ) (ds : List (BitVec 8)) : Screen :=
  fun x' y' => if y' = y ∧ x ≤ x' then ds[x' - x]?.getD (scr x' y') else scr x' y'

/-- Four rows of `w` bytes, from column `x` on. -/
def Screen.block (scr : Screen) (x w : ℕ) (f : ℕ → ℕ → BitVec 8) : Screen :=
  fun x' y' => if x ≤ x' ∧ x' < x + w then f (x' - x) y' else scr x' y'

/-- Bytes stored from `a` on. -/
def store (cgram : BitVec 6 → BitVec 8) (a : BitVec 6) : List (BitVec 8) → BitVec 6 → BitVec 8
  | [] => cgram
  | d :: ds => store (Function.update cgram a d) (a + 1) ds

variable {c : Controller} {s : c.State} {glyphs : BitVec 6 → BitVec 8} {scr scr' : Screen} {x y : ℕ}
  {t : T}

theorem Shows.congr (h : Shows c s glyphs scr) (heq : ∀ x < 20, ∀ y < 4, scr x y = scr' x y) :
    Shows c s glyphs scr' :=
  ⟨h.toReady, fun x hx y hy => (h.cells x hx y hy).trans (heq x hx y hy)⟩

theorem toNat_cell (hx : x < 20) (y : ℕ) : (cell x y).toNat =
    x + (if y % 2 = 1 then 0x40 else 0) + if 2 ≤ y then 20 else 0 := by
  rw [cell, BitVec.toNat_ofNat, Nat.mod_eq_of_lt]
  split <;> split <;> omega

theorem hasCell_cell (hx : x < 20) (y : ℕ) : HasCell (cell x y) := by
  rw [HasCell, toNat_cell hx]
  split <;> split <;> omega

theorem cell_succ (hx : x + 1 < 20) (y : ℕ) : cell x y + 1 = cell (x + 1) y := by
  have h := toNat_cell (x := x) (by omega) y
  have h' := toNat_cell hx y
  apply BitVec.eq_of_toNat_eq
  rw [BitVec.toNat_add, h, h', Nat.mod_eq_of_lt]
  · change _ + 1 = _
    omega
  · change _ + 1 < 128
    split <;> split <;> omega

theorem cell_inj {x' y' : ℕ} (hx : x < 20) (hy : y < 4) (hx' : x' < 20) (hy' : y' < 4)
    (h : cell x y = cell x' y') : x = x' ∧ y = y' := by
  have hnat := congrArg BitVec.toNat h
  rw [toNat_cell hx, toNat_cell hx'] at hnat
  split at hnat <;> split at hnat <;> split at hnat <;> split at hnat <;> omega

/-- What `move_to` sends. -/
theorem bytes_moveTo (ht : t.columns = 20) (hx : x < 20) (hy : y < 4) :
    Call.bytes t (.moveTo (BitVec.ofNat 31 x) (BitVec.ofNat 31 y)) = [(false, 1#1 ++ cell x y)] := by
  have haddr : ∀ x < 20, ∀ y < 4, (0x80 ||| address ⟨0, 0, 0, 0, 0, 0, 20⟩ (BitVec.ofNat 31 x)
      (BitVec.ofNat 31 y)).setWidth 8 = 1#1 ++ cell x y := by decide
  have hcols : address t (BitVec.ofNat 31 x) (BitVec.ofNat 31 y) =
      address ⟨0, 0, 0, 0, 0, 0, 20⟩ (BitVec.ofNat 31 x) (BitVec.ofNat 31 y) := by
    simp only [address, ht]
  rw [Call.bytes, hcols, haddr x hx y hy]

/-! ### Strips -/

theorem strip_nil (scr : Screen) (x y : ℕ) : scr.strip x y [] = scr := by
  funext x' y'
  simp [Screen.strip]

theorem strip_cons (scr : Screen) (x y : ℕ) (d : BitVec 8) (ds : List (BitVec 8)) :
    (scr.strip x y [d]).strip (x + 1) y ds = scr.strip x y (d :: ds) := by
  funext x' y'
  by_cases hy : y' = y
  · rcases Nat.lt_trichotomy x' x with hlt | rfl | hgt
    · simp [Screen.strip, show ¬ x + 1 ≤ x' by omega, show ¬ x ≤ x' by omega]
    · simp [Screen.strip, hy]
    · obtain ⟨k, rfl⟩ := Nat.exists_eq_add_of_lt hgt
      simp [Screen.strip, hy, show x + k + 1 - x = k + 1 by omega,
        show x + k + 1 - (x + 1) = k by omega, show x ≤ x + k + 1 by omega]
  · simp [Screen.strip, hy]

theorem strip_singleton_of_ne {x' y' : ℕ} (hne : x' = x → y' ≠ y) (d : BitVec 8) :
    scr.strip x y [d] x' y' = scr x' y' := by
  rw [Screen.strip]
  split
  · next hin =>
    have hlen : 1 ≤ x' - x := by
      have := mt hne (fun h => h hin.1)
      omega
    rw [List.getElem?_eq_none hlen, Option.getD_none]
  · rfl

/-- A data byte where the cursor stands. -/
theorem Shows.write (h : Shows c s glyphs scr) (hx : x < 20) (hy : y < 4)
    (hcur : (c.view s).cursor = .ddram (cell x y)) (d : BitVec 8) :
    Shows c (c.put s (true, d)) glyphs (scr.strip x y [d]) ∧
      (x + 1 < 20 → (c.view (c.put s (true, d))).cursor = .ddram (cell (x + 1) y)) := by
  obtain ⟨next, hview, hcell, hnext⟩ := c.writeDdram s _ d h.mode (hasCell_cell hx y) hcur
  constructor
  · constructor
    · constructor <;> rw [hview]
      · exact h.mode
      · exact h.on
      · exact h.unshifted
      · exact h.glyphs
      · exact ⟨next, rfl, hcell⟩
    · intro x' hx' y' hy'
      rw [hview]
      by_cases hsame : cell x' y' = cell x y
      · obtain ⟨rfl, rfl⟩ := cell_inj hx' hy' hx hy hsame
        simp [Screen.strip]
      · rw [strip_singleton_of_ne (by rintro rfl rfl; exact hsame rfl), ← h.cells x' hx' y' hy']
        exact Function.update_of_ne hsame _ _
  · intro hx'
    have hsucc := cell_succ hx' y
    rw [hview, hnext (by rw [hsucc]; exact hasCell_cell hx' y), hsucc]

theorem Shows.writes {ds : List (BitVec 8)} (h : Shows c s glyphs scr) (hy : y < 4)
    (hlen : x + ds.length ≤ 20) (hcur : ds ≠ [] → (c.view s).cursor = .ddram (cell x y)) :
    Shows c ((ds.map (Prod.mk true)).foldl c.put s) glyphs (scr.strip x y ds) := by
  induction ds generalizing s scr x with
  | nil =>
    rw [strip_nil]
    exact h
  | cons d ds ih =>
    rw [List.length_cons] at hlen
    obtain ⟨hput, hnext⟩ := h.write (by omega) hy (hcur (by simp)) d
    rw [← strip_cons]
    apply ih hput (by omega)
    intro hne
    have hpos := List.length_pos_iff.mpr hne
    exact hnext (by omega)

theorem Ready.move (h : Ready c s glyphs) {a : BitVec 7} (ha : HasCell a) :
    Ready c (c.put s (false, 1#1 ++ a)) glyphs := by
  have hview := c.setDdram s a (by rw [h.mode]) ha
  constructor <;> rw [hview]
  · exact h.mode
  · exact h.on
  · exact h.unshifted
  · exact h.glyphs
  · exact ⟨a, rfl, ha⟩

/-- A `move_to` and the data behind it. -/
theorem Shows.strip {ds : List (BitVec 8)} (h : Shows c s glyphs scr) (hx : x < 20) (hy : y < 4)
    (hlen : x + ds.length ≤ 20) :
    Shows c (((false, 1#1 ++ cell x y) :: ds.map (Prod.mk true)).foldl c.put s) glyphs
      (scr.strip x y ds) := by
  have hview := c.setDdram s (cell x y) (by rw [h.mode]) (hasCell_cell hx y)
  have hmoved : Shows c (c.put s (false, 1#1 ++ cell x y)) glyphs scr := by
    refine ⟨h.toReady.move (hasCell_cell hx y), ?_⟩
    rw [hview]
    exact h.cells
  exact hmoved.writes hy hlen fun _ => by rw [hview]

theorem strip_range_of_not {w x' : ℕ} (f : ℕ → BitVec 8) (hout : ¬ (x ≤ x' ∧ x' < x + w)) (y' : ℕ) :
    scr.strip x y ((List.range w).map f) x' y' = scr x' y' := by
  rw [Screen.strip]
  split
  · next hin =>
    rw [List.getElem?_eq_none, Option.getD_none]
    rw [List.length_map, List.length_range]
    omega
  · rfl

theorem strip_range_of_mem {w x' : ℕ} (f : ℕ → BitVec 8) (hin : x ≤ x' ∧ x' < x + w) (y' : ℕ) :
    scr.strip x y ((List.range w).map f) x' y' = if y' = y then f (x' - x) else scr x' y' := by
  have hlt : x' - x < w := by omega
  by_cases hy : y' = y
  · simp [Screen.strip, hy, hin.1, hlt]
  · simp [Screen.strip, hy]

/-- The four rows of a block, each behind its `move_to`. -/
def blockBytes (x w : ℕ) (f : ℕ → ℕ → BitVec 8) : List (Bool × BitVec 8) :=
  [0, 1, 2, 3].flatMap fun y =>
    (false, 1#1 ++ cell x y) :: ((List.range w).map fun k => f k y).map (Prod.mk true)

theorem Shows.block {w : ℕ} {f : ℕ → ℕ → BitVec 8} (h : Shows c s glyphs scr) (hx : x < 20)
    (hw : x + w ≤ 20) :
    Shows c ((blockBytes x w f).foldl c.put s) glyphs (scr.block x w f) := by
  have hrow : ∀ {s scr}, Shows c s glyphs scr → ∀ y < 4,
      Shows c (((false, 1#1 ++ cell x y) ::
        ((List.range w).map fun k => f k y).map (Prod.mk true)).foldl c.put s) glyphs
        (scr.strip x y ((List.range w).map fun k => f k y)) := by
    intro s scr h y hy
    exact h.strip hx hy (by simpa using hw)
  have hrows := hrow (hrow (hrow (hrow h 0 (by omega)) 1 (by omega)) 2 (by omega)) 3 (by omega)
  simp only [← List.foldl_append, List.append_assoc] at hrows
  have hbytes : blockBytes x w f = _ := List.flatMap_cons
  simp only [List.flatMap_cons, List.flatMap_nil, List.append_nil] at hbytes
  rw [hbytes]
  refine Shows.congr hrows fun x' hx' y' hy' => ?_
  by_cases hin : x ≤ x' ∧ x' < x + w
  · simp only [strip_range_of_mem _ hin, Screen.block, if_pos hin]
    interval_cases y' <;> rfl
  · simp only [strip_range_of_not _ hin, Screen.block, if_neg hin]

/-! ### Texts -/

theorem Ready.write (h : Ready c s glyphs) (d : BitVec 8) : Ready c (c.put s (true, d)) glyphs := by
  obtain ⟨a, hcur, ha⟩ := h.cursor
  obtain ⟨next, hview, hnext, -⟩ := c.writeDdram s a d h.mode ha hcur
  constructor <;> rw [hview]
  · exact h.mode
  · exact h.on
  · exact h.unshifted
  · exact h.glyphs
  · exact ⟨next, rfl, hnext⟩

/-- A text of any length, wherever it runs to. -/
theorem Ready.text (h : Ready c s glyphs) (text : List UInt8) :
    Ready c ((Call.bytes t (.printString text)).foldl c.put s) glyphs := by
  rw [Call.bytes]
  induction text generalizing s with
  | nil => exact h
  | cons d text ih => exact ih (h.write d.toBitVec)

theorem Ready.moveTo (h : Ready c s glyphs) (ht : t.columns = 20) (hx : x < 20) (hy : y < 4) :
    Ready c ((Call.bytes t (.moveTo (BitVec.ofNat 31 x) (BitVec.ofNat 31 y))).foldl c.put s)
      glyphs := by
  rw [bytes_moveTo ht hx hy]
  exact h.move (hasCell_cell hx y)

/-- `clear`, from whatever is on the display. -/
theorem Ready.clear (h : Ready c s glyphs) :
    Shows c ((Call.bytes t .clear).foldl c.put s) glyphs Screen.blank := by
  obtain ⟨ddram, hclear, hblank⟩ := c.clear s
  have hview := c.home (c.put s (false, 0x01))
  rw [hclear] at hview
  constructor
  · constructor <;> simp only [Call.bytes, List.foldl_cons, List.foldl_nil, hview]
    · rw [h.mode]
    · exact h.on
    · exact h.glyphs
    · exact ⟨0, rfl, Or.inl (by decide)⟩
  · intro x hx y hy
    simp only [Call.bytes, List.foldl_cons, List.foldl_nil, hview]
    exact hblank _ (hasCell_cell hx y)

/-! ### Initialisation -/

/-- What `init` sends when the display has more than one line. -/
def initBytes : List (Bool × BitVec 8) :=
  [(false, 0x28), (false, 0x08), (false, 0x01), (false, 0x02), (false, 0x06), (false, 0x0C)]

theorem issues_sleepUs (us : ℕ) : Issues t [.sleepUs us] [] :=
  fun _ hd => ⟨samples_cons_of_level rfl, hd⟩

theorem issues_init (hn : t.pins.Nodup) {lines : Int31} (hlines : (1 : Int31).slt lines = true) :
    Issues t (initCommands t lines) initBytes := by
  have hcmd : ∀ cmd, Issues t (writeCommand t cmd) [(false, cmd.setWidth 8)] :=
    issues_writeCommand hn
  have hsleep := issues_sleepMs (t := t) 5
  have hbytes := (((((((hcmd 0x28).append (hcmd 0x08)).append (hcmd 0x01)).append hsleep).append
    (hcmd 0x02)).append hsleep).append (hcmd 0x06)).append (hcmd 0x0C)
  rw [initCommands, if_pos hlines]
  exact hbytes

/-- Whatever the controller held before. -/
theorem ready_init (s : c.State) : Ready c (initBytes.foldl c.put s) (c.view s).cgram := by
  obtain ⟨ddram, hclear, -⟩ := c.clear (c.put (c.put s (false, 0x28)) (false, 0x08))
  have hview : c.view (initBytes.foldl c.put s) =
      { c.view s with
        mode := ⟨true, true, false⟩, on := true, shifted := 0
        cursor := .ddram 0, ddram := ddram } := by
    simp only [initBytes, List.foldl_cons, List.foldl_nil, c.displayOn, c.entryMode, c.home, hclear,
      c.displayOff, c.functionSet]
  constructor <;> rw [hview]
  exact ⟨0, rfl, Or.inl (by decide)⟩

/-! ### Defined characters -/

theorem store_apply (cgram : BitVec 6 → BitVec 8) (a : BitVec 6) {ds : List (BitVec 8)}
    (hlen : ds.length ≤ 64) (a' : BitVec 6) :
    store cgram a ds a' = ds[(a' - a).toNat]?.getD (cgram a') := by
  induction ds generalizing cgram a with
  | nil => rfl
  | cons d ds ih =>
    rw [List.length_cons] at hlen
    rw [store, ih _ _ (by omega)]
    have hnat : (a' - (a + 1)).toNat = (a'.toNat + 64 - (a.toNat + 1) % 64) % 64 := by
      rw [BitVec.toNat_sub, BitVec.toNat_add]
      change (64 - (a.toNat + 1) % 64 + a'.toNat) % 64 = _
      omega
    by_cases heq : a' = a
    · have hlast : (a - (a + 1)).toNat = 63 := by
        rw [heq] at hnat
        omega
      rw [heq, hlast, List.getElem?_eq_none (by omega), BitVec.sub_self]
      simp
    · have hsucc : (a' - a).toNat = (a' - (a + 1)).toNat + 1 := by
        have hne : a'.toNat ≠ a.toNat := fun h => heq (BitVec.eq_of_toNat_eq h)
        rw [hnat, BitVec.toNat_sub]
        omega
      rw [hsucc, List.getElem?_cons_succ, Function.update_of_ne heq]

/-- Data bytes behind a CGRAM address. -/
theorem view_store (hmode : (c.view s).mode = ⟨true, true, false⟩) (a : BitVec 6)
    (ds : List (BitVec 8)) :
    c.view (((false, 1#2 ++ a) :: ds.map (Prod.mk true)).foldl c.put s) =
      { c.view s with
        cursor := .cgram (a + BitVec.ofNat 6 ds.length), cgram := store (c.view s).cgram a ds } := by
  have hwrites : ∀ (ds : List (BitVec 8)) (s : c.State) (a : BitVec 6),
      (c.view s).mode = ⟨true, true, false⟩ → (c.view s).cursor = .cgram a →
      c.view ((ds.map (Prod.mk true)).foldl c.put s) =
        { c.view s with
          cursor := .cgram (a + BitVec.ofNat 6 ds.length)
          cgram := store (c.view s).cgram a ds } := by
    intro ds
    induction ds with
    | nil =>
      intro s a _ hcur
      simp only [List.map_nil, List.foldl_nil, List.length_nil, store]
      rw [show a + BitVec.ofNat 6 0 = a by simp, ← hcur]
    | cons d ds ih =>
      intro s a hmode hcur
      have hput := c.writeCgram s a d hmode hcur
      rw [List.map_cons, List.foldl_cons, ih (c.put s (true, d)) (a + 1) (by rw [hput]; exact hmode)
        (by rw [hput]), hput, store, List.length_cons]
      have hadd : a + 1 + BitVec.ofNat 6 ds.length = a + BitVec.ofNat 6 (ds.length + 1) := by
        rw [BitVec.ofNat_add, BitVec.add_assoc, BitVec.add_comm 1]
        rfl
      rw [hadd]
  have hset := c.setCgram s a
  rw [List.foldl_cons, hwrites ds _ a (by rw [hset]; exact hmode) (by rw [hset]), hset]

end PicoOcaml.Lcd
