import PicoOcaml.Lcd
import Mathlib.Tactic.IntervalCases

/-! What the controller sees on the wires: the bytes of the calls, from a known phase on. -/
namespace PicoOcaml.Lcd

variable {t : T} {b : Board} {e : Event} {es xs ys : List Event} {pin : Pin} {v r : Bool}
  {n : Int31} {bytes bytes' : List (Bool × BitVec 8)} {rsOf : Bool → Bool → Bool} {phase : Phase}

/-! ### Traces -/

@[simp] theorem after_nil : b.after [] = b := rfl

@[simp] theorem after_cons : b.after (e :: es) = (b.next e).after es := rfl

@[simp] theorem after_append : b.after (xs ++ ys) = (b.after xs).after ys := List.foldl_append

theorem samples_append : samples t b (xs ++ ys) = samples t b xs ++ samples t (b.after xs) ys := by
  induction xs generalizing b with
  | nil => rfl
  | cons e xs ih => simp only [List.cons_append, samples, ih, after_cons, List.append_assoc]

/-- An event that leaves EN's level alone latches nothing. -/
theorem samples_cons_of_level (h : (b.next e).level t.en = b.level t.en) :
    samples t b (e :: es) = samples t (b.next e) es := by
  rw [samples, if_neg, List.nil_append]
  rintro ⟨h1, h2⟩
  rw [h, h1] at h2
  cases h2

theorem samples_put (hne : pin ≠ t.en) :
    samples t b (.gpioPut pin v :: es) = samples t (b.next (.gpioPut pin v)) es := by
  apply samples_cons_of_level
  simp only [Board.level, Board.next, Function.update_of_ne hne.symm]

/-! ### Nibbles -/

theorem land_twoPow (n : Int31) {i : ℕ} (hi : i < 31) :
    (n &&& BitVec.twoPow 31 i != 0) = n.getLsbD i := by
  rw [BitVec.and_twoPow]
  cases h : n.getLsbD i with
  | false => simp
  | true =>
    have hne : BitVec.twoPow 31 i ≠ 0 := by
      intro h0
      have hbit := congrArg (·.getLsbD i) h0
      simp [hi] at hbit
    simpa using hne

/-- The tests of `write_4bits` are the low four bits. -/
theorem nibble_eq (n : Int31) :
    (BitVec.ofBool (n &&& 8 != 0) ++ BitVec.ofBool (n &&& 4 != 0) ++ BitVec.ofBool (n &&& 2 != 0) ++
      BitVec.ofBool (n &&& 1 != 0) : BitVec 4) = n.setWidth 4 := by
  have h8 : (n &&& 8 != 0) = n.getLsbD 3 := land_twoPow n (i := 3) (by decide)
  have h4 : (n &&& 4 != 0) = n.getLsbD 2 := land_twoPow n (i := 2) (by decide)
  have h2 : (n &&& 2 != 0) = n.getLsbD 1 := land_twoPow n (i := 1) (by decide)
  have h1 : (n &&& 1 != 0) = n.getLsbD 0 := land_twoPow n (i := 0) (by decide)
  rw [h8, h4, h2, h1]
  apply BitVec.eq_of_getLsbD_eq
  intro i hi
  simp only [BitVec.getLsbD_append]
  interval_cases i <;> simp

/-! ### A driven board -/

/-- Between two writes: all six pins are outputs and EN is low. -/
structure Driven (t : T) (b : Board) : Prop where
  isOut : ∀ pin ∈ t.pins, b.isOut pin = true
  low : b.out t.en = false

theorem Driven.level (hd : Driven t b) (hp : pin ∈ t.pins) : b.level pin = b.out pin := by
  rw [Board.level, if_pos (hd.isOut pin hp)]

theorem Driven.sample_eq (hd : Driven t b) : b.sample t =
    ⟨b.out t.rs, BitVec.ofBool (b.out t.d7) ++ BitVec.ofBool (b.out t.d6) ++
      BitVec.ofBool (b.out t.d5) ++ BitVec.ofBool (b.out t.d4)⟩ := by
  rw [Board.sample, hd.level (by simp [T.pins]), hd.level (by simp [T.pins]),
    hd.level (by simp [T.pins]), hd.level (by simp [T.pins]), hd.level (by simp [T.pins])]

theorem Driven.put (hd : Driven t b) (hne : pin ≠ t.en) : Driven t (b.next (.gpioPut pin v)) :=
  ⟨hd.isOut, (Function.update_of_ne hne.symm _ _).trans hd.low⟩

/-- A pulse latches what the other five pins are at. -/
theorem samples_pulseEnable (hn : t.pins.Nodup) (hd : Driven t b) :
    samples t b (pulseEnable t) = [b.sample t] := by
  have hout := hd.isOut t.en (by simp [T.pins])
  simp only [T.pins, List.nodup_cons, List.mem_cons, not_or] at hn
  simp [pulseEnable, samples, Board.next, Board.level, hout, hd.low, Board.sample, hn]

theorem after_pulseEnable (b : Board) :
    b.after (pulseEnable t) = b.next (.gpioPut t.en false) := by
  simp [pulseEnable, Board.next]

theorem after_write4bits (b : Board) : b.after (write4bits t n) =
    { b with
      out := Function.update (Function.update (Function.update (Function.update
        (Function.update b.out t.d7 (n &&& 8 != 0)) t.d6 (n &&& 4 != 0)) t.d5 (n &&& 2 != 0))
        t.d4 (n &&& 1 != 0)) t.en false } := by
  simp [write4bits, after_pulseEnable, Board.next]

theorem write4bits_spec (hn : t.pins.Nodup) (hd : Driven t b) :
    samples t b (write4bits t n) = [⟨b.out t.rs, n.setWidth 4⟩] ∧
      Driven t (b.after (write4bits t n)) ∧ (b.after (write4bits t n)).out t.rs = b.out t.rs := by
  have hne := hn
  simp only [T.pins, List.nodup_cons, List.mem_cons, not_or] at hne
  refine ⟨?_, ⟨?_, ?_⟩, ?_⟩
  · have hputs : Driven t (b.after [.gpioPut t.d7 (n &&& 8 != 0), .gpioPut t.d6 (n &&& 4 != 0),
        .gpioPut t.d5 (n &&& 2 != 0), .gpioPut t.d4 (n &&& 1 != 0)]) := by
      refine (((hd.put ?_).put ?_).put ?_).put ?_ <;> simp [hne]
    simp only [write4bits, List.cons_append, List.nil_append]
    rw [samples_put (by simp [hne]), samples_put (by simp [hne]), samples_put (by simp [hne]),
      samples_put (by simp [hne])]
    refine (samples_pulseEnable hn hputs).trans ?_
    rw [hputs.sample_eq, ← nibble_eq]
    simp [Board.next, hne]
  · rw [after_write4bits]
    exact hd.isOut
  · rw [after_write4bits]
    simp
  · rw [after_write4bits]
    simp [hne]

/-! ### Bytes -/

/-- The samples that carry a byte. -/
def nibbles (byte : Bool × BitVec 8) : List Sample :=
  [⟨byte.1, byte.2.extractLsb' 4 4⟩, ⟨byte.1, byte.2.extractLsb' 0 4⟩]

/-- From one driven board to another, the controller gets these bytes. -/
def Issues (t : T) (es : List Event) (bytes : List (Bool × BitVec 8)) : Prop :=
  ∀ b, Driven t b → samples t b es = bytes.flatMap nibbles ∧ Driven t (b.after es)

theorem Issues.append (hx : Issues t xs bytes) (hy : Issues t ys bytes') :
    Issues t (xs ++ ys) (bytes ++ bytes') := by
  intro b hd
  obtain ⟨hsx, hdx⟩ := hx b hd
  obtain ⟨hsy, hdy⟩ := hy _ hdx
  rw [samples_append, hsx, hsy, List.flatMap_append, after_append]
  exact ⟨rfl, hdy⟩

theorem issues_nil : Issues t [] [] := fun _ hd => ⟨rfl, hd⟩

theorem issues_sleepMs (ms : ℕ) : Issues t [.sleepMs ms] [] :=
  fun _ hd => ⟨samples_cons_of_level rfl, hd⟩

theorem Issues.flatMap {α : Type} {f : α → List Event} {g : α → List (Bool × BitVec 8)}
    (h : ∀ x, Issues t (f x) (g x)) (l : List α) : Issues t (l.flatMap f) (l.flatMap g) := by
  induction l with
  | nil => exact issues_nil
  | cons x l ih => exact (h x).append ih

theorem nibbles_setWidth (r : Bool) (n : Int31) :
    nibbles (r, n.setWidth 8) = [⟨r, (n >>> 4).setWidth 4⟩, ⟨r, n.setWidth 4⟩] := by
  have hhigh : (n.setWidth 8).extractLsb' 4 4 = (n >>> 4).setWidth 4 := by
    apply BitVec.eq_of_getLsbD_eq
    intro i hi
    simp [hi, show 4 + i < 8 by omega]
  have hlow : (n.setWidth 8).extractLsb' 0 4 = n.setWidth 4 := by
    apply BitVec.eq_of_getLsbD_eq
    intro i hi
    simp [hi, show i < 8 by omega]
  rw [nibbles, hhigh, hlow]

/-- RS is put first, and stays for both nibbles. -/
theorem issues_put_write8bits (hn : t.pins.Nodup) (r : Bool) (n : Int31) :
    Issues t ([.gpioPut t.rs r] ++ write8bits t n) [(r, n.setWidth 8)] := by
  intro b hd
  have hne : t.rs ≠ t.en := by
    intro heq
    simp [T.pins, heq] at hn
  have hput := hd.put (v := r) hne
  obtain ⟨hs1, hd1, hr1⟩ := write4bits_spec (n := n >>> 4) hn hput
  obtain ⟨hs2, hd2, hr2⟩ := write4bits_spec (n := n) hn hd1
  have hr : (b.next (.gpioPut t.rs r)).out t.rs = r := Function.update_self _ _ _
  rw [List.cons_append, List.nil_append, samples_put hne, write8bits, samples_append, hs1, hs2,
    hr1, hr, List.flatMap_singleton, nibbles_setWidth, after_cons, after_append]
  exact ⟨rfl, hd2⟩

theorem issues_writeCommand (hn : t.pins.Nodup) (cmd : Int31) :
    Issues t (writeCommand t cmd) [(false, cmd.setWidth 8)] := by
  have hw := issues_put_write8bits hn false cmd
  unfold writeCommand
  split
  · exact hw.append (issues_sleepMs 5)
  · exact hw.append issues_nil

theorem setWidth_code (c : UInt8) : (BitVec.ofNat 31 c.toNat).setWidth 8 = c.toBitVec := by
  apply BitVec.eq_of_toNat_eq
  simp

theorem issues_call (hn : t.pins.Nodup) (c : Call) : Issues t (c.events t) (c.bytes t) := by
  cases c with
  | writeCommand cmd => exact issues_writeCommand hn cmd
  | writeData data => exact issues_put_write8bits hn true data
  | moveTo col row => exact issues_writeCommand hn _
  | printString s =>
    have hbyte : ∀ c : UInt8, Issues t (writeData t (.ofNat 31 c.toNat)) [(true, c.toBitVec)] := by
      intro c
      have hw := issues_put_write8bits hn true (.ofNat 31 c.toNat)
      rwa [setWidth_code] at hw
    have hs := Issues.flatMap hbyte s
    rwa [← List.map_eq_flatMap] at hs
  | clear =>
    exact (((issues_writeCommand hn 1).append (issues_sleepMs 5)).append
      (issues_writeCommand hn 2)).append (issues_sleepMs 5)

theorem pairUp_nibbles (bytes : List (Bool × BitVec 8)) :
    pairUp (bytes.flatMap nibbles) = some bytes := by
  induction bytes with
  | nil => rfl
  | cons byte bytes ih =>
    have hbyte : byte.2.extractLsb' 4 4 ++ byte.2.extractLsb' 0 4 = byte.2 :=
      BitVec.extractLsb'_append_extractLsb'
    rw [List.flatMap_cons, nibbles, List.cons_append, List.cons_append, List.nil_append, pairUp,
      if_pos rfl, ih, hbyte]
    rfl

/-! ### Initialisation -/

theorem after_initPin (b : Board) (pin : Pin) : b.after (initPin pin) =
    { b with isOut := Function.update b.isOut pin true, out := Function.update b.out pin false } := by
  simp [initPin, Board.next]

/-- Whatever the pins were before, all six are outputs and low. -/
theorem after_initPins (b : Board) :
    ∀ pin ∈ t.pins, (b.after (initPins t)).isOut pin = true ∧
      (b.after (initPins t)).out pin = false := by
  intro pin hp
  simp only [T.pins, List.mem_cons, List.not_mem_nil, or_false] at hp
  simp only [initPins, after_append, after_initPin, Function.update_apply]
  grind

theorem driven_initPins (b : Board) : Driven t (b.after (initPins t)) :=
  ⟨fun pin hp => (after_initPins b pin hp).1, (after_initPins b t.en (by simp [T.pins])).2⟩

/-- The nibbles 3, 3, 3, 2, all with RS low. -/
theorem initNibbles_spec (hn : t.pins.Nodup) (hd : Driven t b) (hrs : b.out t.rs = false) :
    samples t b (initNibbles t) = [⟨false, 3⟩, ⟨false, 3⟩, ⟨false, 3⟩, ⟨false, 2⟩] ∧
      Driven t (b.after (initNibbles t)) := by
  obtain ⟨hs1, hd1, hr1⟩ := write4bits_spec (n := 0x03) hn hd
  obtain ⟨hs2, hd2, hr2⟩ := write4bits_spec (n := 0x03) hn hd1
  obtain ⟨hs3, hd3, hr3⟩ := write4bits_spec (n := 0x03) hn hd2
  obtain ⟨hs4, hd4, hr4⟩ := write4bits_spec (n := 0x02) hn hd3
  have hsleep : ∀ (b : Board) ms, samples t b [.sleepMs ms] = [] :=
    fun _ _ => samples_cons_of_level rfl
  have hafter : ∀ (b : Board) ms, b.after [.sleepMs ms] = b := fun _ _ => rfl
  simp only [initNibbles, samples_append, after_append, hsleep, hafter, hs1, hs2, hs3, hs4, hr1, hr2,
    hr3, hrs]
  exact ⟨rfl, hd4⟩

theorem issues_initCommands (hn : t.pins.Nodup) (lines : Int31) :
    ∃ bytes, Issues t (initCommands t lines) bytes :=
  ⟨_, (((((((issues_writeCommand hn _).append (issues_writeCommand hn _)).append
    (issues_writeCommand hn _)).append (issues_sleepMs 5)).append
    (issues_writeCommand hn _)).append (issues_sleepMs 5)).append
    (issues_writeCommand hn _)).append (issues_writeCommand hn _)⟩

/-- In 4-bit mode the end of a byte either sets DL or leaves the next nibble to be a high one. -/
theorem dataLength_cases (rs : Bool) (high : BitVec 4) :
    dataLength .awaitingHigh rs high = .eightBit ∨
      dataLength .awaitingHigh rs high = .awaitingHigh := by
  unfold dataLength
  split
  · exact Or.inl rfl
  · right
    split <;> rfl

/-- The first 3 ends an unfinished byte. If that does not set DL, the next two are a byte that
does, and otherwise they set it again. -/
theorem resynchronised (hrs : rsOf false false = false) (phase : Phase) :
    [⟨false, 3⟩, ⟨false, 3⟩, ⟨false, 3⟩, ⟨false, 2⟩].foldl (Phase.next rsOf) phase =
      .awaitingHigh := by
  have hlast : ∀ phase, phase = .eightBit ∨ phase = .awaitingHigh →
      [⟨false, 3⟩, ⟨false, 3⟩, ⟨false, 2⟩].foldl (Phase.next rsOf) phase = .awaitingHigh := by
    rintro _ (rfl | rfl)
    · rfl
    · simp [Phase.next, dataLength, hrs]
  cases phase with
  | eightBit => rfl
  | awaitingHigh => simp [Phase.next, dataLength, hrs]
  | pending high => exact hlast _ (dataLength_cases _ _)

theorem initNibbles_from_pins (hn : t.pins.Nodup) (b : Board) :
    samples t (b.after (initPins t)) (initNibbles t) =
        [⟨false, 3⟩, ⟨false, 3⟩, ⟨false, 3⟩, ⟨false, 2⟩] ∧
      Driven t (b.after (initPins t ++ initNibbles t)) := by
  have hrs := (after_initPins (t := t) b t.rs (by simp [T.pins])).2
  rw [after_append]
  exact initNibbles_spec hn (driven_initPins b) hrs

theorem driven_init (hn : t.pins.Nodup) (b : Board) (lines : Int31) :
    Driven t (b.after (initPins t ++ initNibbles t ++ initCommands t lines)) := by
  obtain ⟨bytes, hbytes⟩ := issues_initCommands hn lines
  rw [after_append]
  exact (hbytes _ (initNibbles_from_pins hn b).2).2

theorem samples_calls (hn : t.pins.Nodup) (hd : Driven t b) (calls : List Call) :
    pairUp (samples t b (calls.flatMap (Call.events t))) =
      some (calls.flatMap (Call.bytes t)) := by
  rw [(Issues.flatMap (issues_call hn) calls b hd).1, pairUp_nibbles]

/-- EN may fall once before the first nibble. What the controller makes of that is one more phase
it can be in. -/
theorem phase_init (hn : t.pins.Nodup) (hrs : rsOf false false = false) (b : Board) (phase : Phase) :
    (samples t b (initPins t ++ initNibbles t)).foldl (Phase.next rsOf) phase = .awaitingHigh := by
  rw [samples_append, List.foldl_append, (initNibbles_from_pins hn b).1]
  exact resynchronised hrs _

/-- Samples at EN's falling edges after `init` are the bytes of the calls, and `init` itself brings
the interface from any phase to one in which it takes them as bytes. -/
theorem wire_protocol (rsOf : Bool → Bool → Bool) (hrs : rsOf false false = false) (b : Board)
    (rsPin enPin d4Pin d5Pin d6Pin d7Pin : Pin) (lines cols : Int31)
    (hn : (init rsPin enPin d4Pin d5Pin d6Pin d7Pin lines cols).1.pins.Nodup) :
    let (t, events) := init rsPin enPin d4Pin d5Pin d6Pin d7Pin lines cols
    (∀ calls : List Call,
      pairUp (samples t (b.after events) (calls.flatMap (Call.events t))) =
        some (calls.flatMap (Call.bytes t))) ∧
    (∀ phase, (samples t b (initPins t ++ initNibbles t)).foldl (Phase.next rsOf) phase =
      .awaitingHigh) := by
  constructor
  · exact samples_calls hn (driven_init hn b lines)
  · exact phase_init hn hrs b

/-- The wiring of the clock, on a board that holds EN up before `init`, with a controller that is
waiting for the second half of a byte. -/
theorem wire_protocol_clock :
    let t : T := ⟨16, 17, 18, 19, 20, 21, 20⟩
    let b : Board := ⟨fun _ => true, fun _ => true, fun _ => false⟩
    pairUp (samples t (b.after (init 16 17 18 19 20 21 4 20).2)
      ([.moveTo 2 3, .writeData 8].flatMap (Call.events t))) =
        some [(false, 0xD6), (true, 0x08)] ∧
    (samples t b (initPins t ++ initNibbles t)).foldl (Phase.next fun high _ => high)
      (.pending ⟨true, 8⟩) = .awaitingHigh := by
  intro t b
  have hwire := wire_protocol (fun high _ => high) rfl b 16 17 18 19 20 21 4 20 (by decide)
  exact ⟨hwire.1 [.moveTo 2 3, .writeData 8], hwire.2 (.pending ⟨true, 8⟩)⟩

end PicoOcaml.Lcd
