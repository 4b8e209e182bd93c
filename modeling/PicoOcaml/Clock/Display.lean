import PicoOcaml.Clock
import Mathlib.Tactic.IntervalCases

/-! The time of day on the display stays between midnight and midnight as long as neither the
base nor the wrapped milliseconds since the synchronisation take it below 0. -/
namespace PicoOcaml.Clock

open OcamlInt (add sub)

variable {utcOffsetHours bs sm day d : ℤ} {s t : State} {a : Act}

/-- The arguments of the calls of `display_digit`. -/
def shownDigits (day : ℤ) : List ℤ :=
  [(hours day).tdiv 10, (hours day).tmod 10, (minutes day).tdiv 10, (minutes day).tmod 10]

/-- An iteration shows a time of day and does not raise. -/
def State.Safe (s : State) (a : Act) (t : State) : Prop :=
  ∀ bs sm, a = .core1 → s.core1 = .readTime bs sm →
    let day := daySecs bs sm (timeMs s.us)
    (0 ≤ day ∧ day < 86400) ∧ (∀ d ∈ shownDigits day, 0 ≤ d ∧ d ≤ 9) ∧ t.core1 ≠ .dead

/-- The milliseconds on the timer's 64 bits, not truncated. -/
def State.uptimeMs (s : State) : ℤ := (s.us % 2 ^ 64 / 1000 : ℕ)

/-- `behind` is the time since the synchronisation modulo 2^31 ms. In the lower half it has to
make up for a base below 0. In the upper half the display takes it for a time before the
synchronisation, which the base has to make up for, or be whole days away from. -/
def MakesUp (bs behind : ℤ) : Prop :=
  (behind < 2 ^ 30 ∧ 1000 * -bs ≤ behind) ∨
    (2 ^ 30 ≤ behind ∧
      ((2 ^ 31 - behind) / 1000 ≤ bs ∨ ((2 ^ 31 - behind) / 1000 - bs) % 86400 = 0))

def State.InDay (s : State) (a : Act) (_ : State) : Prop :=
  ∀ bs sm, a = .core1 → s.core1 = .readTime bs sm → MakesUp bs ((s.uptimeMs - sm) % 2 ^ 31)

/-- What `display_loop` has read is what synchronisations have stored. -/
structure BaseSmall (s : State) : Prop where
  stored : -86400 < s.baseSecs ∧ s.baseSecs < 86400
  sync : ∀ bs k, s.core1 = .getSync bs k → -86400 < bs ∧ bs < 86400
  time : ∀ bs sm, s.core1 = .readTime bs sm → -86400 < bs ∧ bs < 86400

/-- `Val_long` keeps 31 bits, which OCaml takes for signed. -/
theorem timeMs_wrap (us : ℕ) : timeMs us = OcamlInt.wrap (us % 2 ^ 64 / 1000 : ℕ) := by
  rw [timeMs, ocamlInt, BitVec.toInt_eq_toNat_cond, toNat_valInt, BitVec.toNat_ofNat,
    OcamlInt.wrap_eq]
  split <;> split <;> omega

theorem timeMs_eq (s : State) : timeMs s.us = OcamlInt.wrap s.uptimeMs :=
  timeMs_wrap s.us

/-! ### The time of day -/

theorem daySecs_nonneg_iff (hb : -86400 < bs ∧ bs < 86400) :
    0 ≤ daySecs bs sm (timeMs s.us) ↔ MakesUp bs ((s.uptimeMs - sm) % 2 ^ 31) := by
  generalize hbeh : (s.uptimeMs - sm) % 2 ^ 31 = behind
  have hbehind : 0 ≤ behind ∧ behind < 2 ^ 31 := by omega
  have hsub : sub (timeMs s.us) sm = if behind < 2 ^ 30 then behind else behind - 2 ^ 31 := by
    rw [timeMs_eq, OcamlInt.sub_wrap_left, OcamlInt.wrap_eq, hbeh]
  rw [daySecs, hsub, MakesUp]
  split
  case isTrue hr =>
    have hdiv : behind.tdiv 1000 = behind / 1000 := Int.tdiv_eq_ediv_of_nonneg hbehind.1
    have hadd : add bs (behind / 1000) = bs + behind / 1000 :=
      OcamlInt.wrap_of_small (by omega) (by omega)
    rw [hdiv, hadd]
    rcases OcamlInt.tdiv_cases (bs + behind / 1000) 86400 with ⟨h1, -, h2⟩ | ⟨h1, -, h2⟩ <;> omega
  case isFalse hr =>
    have hdiv : (behind - 2 ^ 31).tdiv 1000 = -((2 ^ 31 - behind) / 1000) := by
      rcases OcamlInt.tdiv_cases (behind - 2 ^ 31) 1000 with ⟨h1, -⟩ | ⟨-, h1, -⟩ <;> omega
    have hadd : add bs (-((2 ^ 31 - behind) / 1000)) = bs + -((2 ^ 31 - behind) / 1000) :=
      OcamlInt.wrap_of_small (by omega) (by omega)
    rw [hdiv, hadd]
    rcases OcamlInt.tdiv_cases (bs + -((2 ^ 31 - behind) / 1000)) 86400 with
      ⟨h1, -, h2⟩ | ⟨h1, -, h2⟩ <;> omega

/-- The uptime that a count of the 64-bit timer stands for. -/
def uptimeMs (us : BitVec 64) : ℤ := (us.toNat / 1000 : ℕ)

/-- The time since a synchronisation is exact for 2^30 ms, however often the two readings of the
timer have wrapped. -/
theorem daySecs_exact (us0 us : BitVec 64) (h0 : 0 ≤ uptimeMs us - uptimeMs us0)
    (h1 : uptimeMs us - uptimeMs us0 < 2 ^ 30) {base : ℤ} (hb0 : 0 ≤ base) (hb1 : base < 86400) :
    daySecs base (timeMs us0.toNat) (timeMs us.toNat) =
      (base + (uptimeMs us - uptimeMs us0) / 1000) % 86400 := by
  generalize hd : uptimeMs us - uptimeMs us0 = d at *
  have hms : ∀ v : BitVec 64, timeMs v.toNat = OcamlInt.wrap (uptimeMs v) := by
    intro v
    rw [timeMs_wrap, Nat.mod_eq_of_lt v.isLt]
    rfl
  have hsub : sub (timeMs us.toNat) (timeMs us0.toNat) = d := by
    rw [hms, hms, OcamlInt.sub_wrap, hd]
    exact OcamlInt.wrap_of_small (by omega) h1
  have hdiv : d.tdiv 1000 = d / 1000 := Int.tdiv_eq_ediv_of_nonneg h0
  have hadd : add base (d / 1000) = base + d / 1000 :=
    OcamlInt.wrap_of_small (by omega) (by omega)
  rw [daySecs, hsub, hdiv, hadd]
  exact Int.tmod_eq_emod_of_nonneg (by omega)

/-- A synchronisation just before the 31 bits wrap, and a reading 2 s later. -/
theorem daySecs_exact_wrapped :
    daySecs 86399 (timeMs (2147483647000#64).toNat) (timeMs (2147485647000#64).toNat) = 1 :=
  daySecs_exact 2147483647000#64 2147485647000#64 (by decide) (by decide) (by decide) (by decide)

theorem daySecs_lt (bs sm now : ℤ) : daySecs bs sm now < 86400 :=
  Int.tmod_lt_of_pos _ (by omega)

theorem shownDigits_bounds (h0 : 0 ≤ day) (h1 : day < 86400) :
    ∀ d ∈ shownDigits day, 0 ≤ d ∧ d ≤ 9 := by
  have hh : hours day = day / 3600 := Int.tdiv_eq_ediv_of_nonneg h0
  have hm : minutes day = day % 3600 / 60 := by
    rw [minutes, Int.tmod_eq_emod_of_nonneg h0, Int.tdiv_eq_ediv_of_nonneg (by omega)]
  simp only [shownDigits, hh, hm, List.forall_mem_cons, List.not_mem_nil, false_imp_iff,
    implies_true, and_true]
  rcases OcamlInt.tdiv_cases (day / 3600) 10 with ⟨-, h2, h3⟩ | ⟨h2, -⟩ <;>
    rcases OcamlInt.tdiv_cases (day % 3600 / 60) 10 with ⟨-, h4, h5⟩ | ⟨h4, -⟩ <;>
    omega

/-! ### The digits -/

theorem displayDigit_isSome (col : ℤ) (h0 : 0 ≤ d) (h1 : d ≤ 9) :
    (displayDigit col d).isSome := by
  interval_cases d <;> rfl

theorem display_isSome (colon : Bool) (h : ∀ d ∈ shownDigits day, 0 ≤ d ∧ d ≤ 9) :
    (display colon day).isSome := by
  have hd : ∀ col, ∀ d ∈ shownDigits day, ∃ outputs, displayDigit col d = some outputs :=
    fun col d hd => Option.isSome_iff_exists.mp (displayDigit_isSome col (h d hd).1 (h d hd).2)
  obtain ⟨h1, heq1⟩ := hd 2 ((hours day).tdiv 10) (by simp [shownDigits])
  obtain ⟨h0, heq0⟩ := hd 6 ((hours day).tmod 10) (by simp [shownDigits])
  obtain ⟨m1, hmeq1⟩ := hd 10 ((minutes day).tdiv 10) (by simp [shownDigits])
  obtain ⟨m0, hmeq0⟩ := hd 14 ((minutes day).tmod 10) (by simp [shownDigits])
  simp [display, heq1, heq0, hmeq1, hmeq0]

/-! ### Runs -/

theorem inDay_iff_safe (hi : BaseSmall s) (hs : Step utcOffsetHours s a t) :
    s.InDay a t ↔ s.Safe a t := by
  constructor
  · rintro h bs sm rfl hpc
    have h0 := (daySecs_nonneg_iff (hi.time bs sm hpc)).mpr (h bs sm rfl hpc)
    have hdigits := shownDigits_bounds h0 (daySecs_lt _ _ _)
    refine ⟨⟨h0, daySecs_lt _ _ _⟩, hdigits, ?_⟩
    cases hs with
    | getBase hpc' | getSync _ _ hpc' | dead hpc' => rw [hpc] at hpc'; cases hpc'
    | shown bs' sm' outputs hpc' hd => simp
    | raised bs' sm' hpc' hd =>
      rw [hpc] at hpc'
      cases hpc'
      have hsome := display_isSome s.colon hdigits
      rw [hd] at hsome
      cases hsome
  · intro h bs sm ha hpc
    exact (daySecs_nonneg_iff (hi.time bs sm hpc)).mp (h bs sm ha hpc).1.1

theorem step_baseSmall (hi : BaseSmall s) (hs : Step utcOffsetHours s a t) : BaseSmall t := by
  cases hs with
  | tick us => exact ⟨hi.stored, hi.sync, hi.time⟩
  | failed reply => exact hi
  | setBase b0 b1 b2 b3 h =>
    refine ⟨?_, hi.sync, hi.time⟩
    simpa only using ntp_base utcOffsetHours b0 b1 b2 b3
  | waiting h => exact hi
  | readTime h => exact ⟨hi.stored, hi.sync, hi.time⟩
  | setSync ms h => exact ⟨hi.stored, hi.sync, hi.time⟩
  | getBase h =>
    refine ⟨hi.stored, ?_, ?_⟩
    · rintro _ _ ⟨⟩
      exact hi.stored
    · rintro _ _ ⟨⟩
  | getSync bs sync h =>
    refine ⟨hi.stored, ?_, ?_⟩
    · rintro _ _ ⟨⟩
    · rintro _ _ ⟨⟩
      exact hi.sync bs sync h
  | shown bs sm outputs h hd => exact ⟨hi.stored, by rintro _ _ ⟨⟩, by rintro _ _ ⟨⟩⟩
  | raised bs sm h hd => exact ⟨hi.stored, by rintro _ _ ⟨⟩, by rintro _ _ ⟨⟩⟩
  | dead h => exact hi

theorem initial_baseSmall : BaseSmall State.initial := by
  refine ⟨by decide, ?_, ?_⟩ <;> rintro _ _ ⟨⟩

/-- Whatever the offset and the replies, every iteration of a run shows a time of day exactly when
at every iteration the base makes up for the difference of the wrapped times. -/
theorem display_safe_iff (utcOffsetHours : ℤ) (acts : List Act) :
    let xs := Lts.trace (State.next utcOffsetHours) State.initial acts
    Lts.Run State.InDay State.initial xs ↔ Lts.Run State.Safe State.initial xs := by
  intro xs
  apply Lts.run_trace.congr (p := BaseSmall) initial_baseSmall
  · rintro s a t hi rfl
    exact inDay_iff_safe hi (step_next a)
  · rintro s a t hi rfl -
    exact step_baseSmall hi (step_next a)

/-- Without a synchronisation, the first iteration after 2^30 ms reads the time as negative. -/
theorem display_unsafe :
    ¬ ∀ (utcOffsetHours : ℤ), -12 ≤ utcOffsetHours → utcOffsetHours ≤ 14 → ∀ acts : List Act,
      Lts.Run State.Safe State.initial
        (Lts.trace (State.next utcOffsetHours) State.initial acts) := by
  intro h
  have hrun := h 1 (by decide) (by decide)
    [.core1, .core1, .tick (2 ^ 30 * 1000), .core1]
  obtain ⟨-, -, -, hsafe, -⟩ := hrun
  exact absurd (hsafe 0 0 rfl rfl).1.1 (by decide)

end PicoOcaml.Clock
