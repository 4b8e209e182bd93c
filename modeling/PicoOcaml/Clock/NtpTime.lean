import PicoOcaml.Clock

/-! The 4-byte timestamp fits 31-bit integers because the first byte is not scaled by 2^24 but by
what 2^24 leaves modulo a day. -/
namespace PicoOcaml.Clock

open OcamlInt (Expr Fits add add_exact mul mul_exact)

variable {n utcOffsetHours : ℤ} {b0 b1 b2 b3 : UInt8}

/-- `secs_wrapped` of `ntp_query`. -/
def secsWrapped (utcOffsetHours : ℤ) (b0 b1 b2 b3 : UInt8) : Expr :=
  let raw := Expr.add (.add (.add (.mul (.lit b0.toNat) (.lit 15616))
      (.mul (.lit b1.toNat) (.lit 65536)))
    (.mul (.lit b2.toNat) (.lit 256))) (.lit b3.toNat)
  .mod (.add (.mod raw 86400) (.mul (.lit utcOffsetHours) (.lit 3600))) 86400

/-- The hours, minutes and seconds that `ntp_query` returns, made from these seconds. -/
def ntpExprs (secs : Expr) : Expr × Expr × Expr :=
  (.div secs 3600, .div (.mod secs 3600) 60, .mod secs 60)

/-- The results of the operations of `ntp_query` on the four bytes, over unbounded integers. -/
def ntpIntermediates (utcOffsetHours : ℤ) (b0 b1 b2 b3 : UInt8) : List ℤ :=
  let (hours, minutes, seconds) := ntpExprs (secsWrapped utcOffsetHours b0 b1 b2 b3)
  hours.results ++ minutes.results ++ seconds.results

/-- Seconds since the epoch of NTP. -/
def ntpSeconds (b0 b1 b2 b3 : UInt8) : ℤ :=
  b0.toNat * 2 ^ 24 + b1.toNat * 2 ^ 16 + b2.toNat * 2 ^ 8 + b3.toNat

/-- The scaled timestamp is far below 2^30 and agrees with the timestamp modulo a day. -/
theorem raw_bounds (b0 b1 b2 b3 : UInt8) :
    let raw : ℤ := b0.toNat * 15616 + b1.toNat * 65536 + b2.toNat * 256 + b3.toNat
    0 ≤ raw ∧ raw < 20760000 ∧ raw % 86400 = ntpSeconds b0 b1 b2 b3 % 86400 := by
  have h0 := b0.toNat_lt
  have h1 := b1.toNat_lt
  have h2 := b2.toNat_lt
  have h3 := b3.toNat_lt
  simp only [ntpSeconds]
  refine ⟨by omega, by omega, ?_⟩
  -- 2^24 is 194 days and 15616 s
  omega

/-- What is left of the timestamp and the offset, with Euclidean division only. -/
theorem day_bounds (h0 : 0 ≤ utcOffsetHours) (b0 b1 b2 b3 : UInt8) :
    let raw : ℤ := b0.toNat * 15616 + b1.toNat * 65536 + b2.toNat * 256 + b3.toNat
    let day := (ntpSeconds b0 b1 b2 b3 + 3600 * utcOffsetHours) % 86400
    0 ≤ raw.tmod 86400 ∧ raw.tmod 86400 < 86400 ∧
      (raw.tmod 86400 + utcOffsetHours * 3600).tmod 86400 = day ∧ day.tdiv 3600 = day / 3600 ∧
      day.tmod 3600 = day % 3600 ∧ (day % 3600).tdiv 60 = day % 3600 / 60 ∧
      day.tmod 60 = day % 60 := by
  intro raw day
  obtain ⟨hraw, -, hmod⟩ := raw_bounds b0 b1 b2 b3
  have hday : 0 ≤ day := by omega
  have hsecs : raw.tmod 86400 = raw % 86400 := Int.tmod_eq_emod_of_nonneg hraw
  have hsum : 0 ≤ raw % 86400 + utcOffsetHours * 3600 := by omega
  refine ⟨by omega, by omega, ?_, Int.tdiv_eq_ediv_of_nonneg hday,
    Int.tmod_eq_emod_of_nonneg hday, Int.tdiv_eq_ediv_of_nonneg (by omega),
    Int.tmod_eq_emod_of_nonneg hday⟩
  rw [hsecs, Int.tmod_eq_emod_of_nonneg hsum]
  omega

/-- The expressions are those of the code. -/
theorem ntpTime_eq_run (utcOffsetHours : ℤ) (b0 b1 b2 b3 : UInt8) :
    let (hours, minutes, seconds) := ntpExprs (secsWrapped utcOffsetHours b0 b1 b2 b3)
    ntpTime utcOffsetHours b0 b1 b2 b3 = (hours.run, minutes.run, seconds.run) := rfl

theorem secsWrapped_exact (h0 : 0 ≤ utcOffsetHours) (b0 b1 b2 b3 : UInt8) :
    (secsWrapped utcOffsetHours b0 b1 b2 b3).exact =
      (ntpSeconds b0 b1 b2 b3 + 3600 * utcOffsetHours) % 86400 :=
  (day_bounds h0 b0 b1 b2 b3).2.2.1

theorem secsWrapped_fit (h0 : 0 ≤ utcOffsetHours) (h14 : utcOffsetHours ≤ 14) (b0 b1 b2 b3 : UInt8) :
    ∀ n ∈ (secsWrapped utcOffsetHours b0 b1 b2 b3).results, Fits n := by
  have hb0 := b0.toNat_lt
  have hb1 := b1.toNat_lt
  have hb2 := b2.toNat_lt
  obtain ⟨hraw, hlt, -⟩ := raw_bounds b0 b1 b2 b3
  obtain ⟨hsecs, hsecs', hday, -⟩ := day_bounds h0 b0 b1 b2 b3
  simp only [secsWrapped, Expr.results, Expr.exact, List.nil_append, List.append_nil,
    List.forall_mem_append, List.forall_mem_singleton, Nat.cast_ofNat, hday, Fits]
  omega

theorem ntpIntermediates_fit (h0 : 0 ≤ utcOffsetHours) (h14 : utcOffsetHours ≤ 14)
    (b0 b1 b2 b3 : UInt8) : ∀ n ∈ ntpIntermediates utcOffsetHours b0 b1 b2 b3, Fits n := by
  have hsecs := secsWrapped_fit h0 h14 b0 b1 b2 b3
  obtain ⟨-, -, -, hh, hm, hm', hs⟩ := day_bounds h0 b0 b1 b2 b3
  simp only [ntpIntermediates, ntpExprs, Expr.results, Expr.exact, List.forall_mem_append,
    List.forall_mem_singleton, Nat.cast_ofNat, secsWrapped_exact h0, hh, hm, hm', hs]
  refine ⟨⟨⟨hsecs, ?_⟩, ⟨hsecs, ?_⟩, ?_⟩, hsecs, ?_⟩
  all_goals
    rw [Fits]
    omega

/-- Without an overflow the three divisions are of the exact number of seconds of the day. -/
theorem ntpTime_eq (h0 : 0 ≤ utcOffsetHours) (h14 : utcOffsetHours ≤ 14) (b0 b1 b2 b3 : UInt8) :
    let day := (ntpSeconds b0 b1 b2 b3 + 3600 * utcOffsetHours) % 86400
    ntpTime utcOffsetHours b0 b1 b2 b3 = (day / 3600, day % 3600 / 60, day % 60) := by
  have hfit := ntpIntermediates_fit h0 h14 b0 b1 b2 b3
  obtain ⟨-, -, -, hh, hm, hm', hs⟩ := day_bounds h0 b0 b1 b2 b3
  simp only [ntpIntermediates, List.forall_mem_append] at hfit
  obtain ⟨⟨hhours, hminutes⟩, hseconds⟩ := hfit
  have hrun := ntpTime_eq_run utcOffsetHours b0 b1 b2 b3
  simp only [Expr.run_eq_exact hhours, Expr.run_eq_exact hminutes, Expr.run_eq_exact hseconds] at hrun
  rw [hrun]
  simp only [ntpExprs, Expr.exact, Nat.cast_ofNat, secsWrapped_exact h0, hh, hm, hm', hs]

/-- Every operation of `ntp_query` on the timestamp is exact, and so is the time of day. -/
theorem ntp_time_exact (h0 : 0 ≤ utcOffsetHours) (h14 : utcOffsetHours ≤ 14)
    (b0 b1 b2 b3 : UInt8) :
    (∀ n ∈ ntpIntermediates utcOffsetHours b0 b1 b2 b3, Fits n) ∧
      let time := ntpTime utcOffsetHours b0 b1 b2 b3
      (0 ≤ time.1 ∧ time.1 < 24) ∧ (0 ≤ time.2.1 ∧ time.2.1 < 60) ∧
        (0 ≤ time.2.2 ∧ time.2.2 < 60) ∧
        time.1 * 3600 + time.2.1 * 60 + time.2.2 =
          (ntpSeconds b0 b1 b2 b3 + 3600 * utcOffsetHours) % 86400 ∧
        baseOf time = (ntpSeconds b0 b1 b2 b3 + 3600 * utcOffsetHours) % 86400 := by
  refine ⟨ntpIntermediates_fit h0 h14 b0 b1 b2 b3, ?_⟩
  intro time
  have htime : time = _ := ntpTime_eq h0 h14 b0 b1 b2 b3
  generalize hday : (ntpSeconds b0 b1 b2 b3 + 3600 * utcOffsetHours) % 86400 = day at htime ⊢
  have hd : 0 ≤ day ∧ day < 86400 := by omega
  obtain ⟨hh24, hm60, hs60, hsum⟩ : (0 ≤ time.1 ∧ time.1 < 24) ∧
      (0 ≤ time.2.1 ∧ time.2.1 < 60) ∧ (0 ≤ time.2.2 ∧ time.2.2 < 60) ∧
        time.1 * 3600 + time.2.1 * 60 + time.2.2 = day := by
    rw [htime]
    simp only
    omega
  refine ⟨hh24, hm60, hs60, hsum, ?_⟩
  have hh : mul time.1 3600 = time.1 * 3600 := mul_exact (by rw [Fits]; omega)
  have hm : mul time.2.1 60 = time.2.1 * 60 := mul_exact (by rw [Fits]; omega)
  have hhm : add (time.1 * 3600) (time.2.1 * 60) = time.1 * 3600 + time.2.1 * 60 :=
    add_exact (by rw [Fits]; omega)
  rw [baseOf, hh, hm, hhm, add_exact (by rw [hsum, Fits]; omega), hsum]

/-- The largest timestamp, at the largest offset. -/
theorem ntp_time_exact_last :
    baseOf (ntpTime 14 255 255 255 255) = (ntpSeconds 255 255 255 255 + 3600 * 14) % 86400 :=
  (ntp_time_exact (by decide) (by decide) 255 255 255 255).2.2.2.2.2

end PicoOcaml.Clock
