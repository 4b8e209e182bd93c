import Mathlib.NumberTheory.PrimeCounting
import Mathlib.Tactic.IntervalCases
import Mathlib.Tactic.NormNum.Prime
import PicoOcaml.OcamlInt

/-! The computation on core 1 of the demo: it counts the primes although the squares wrap. -/
namespace PicoOcaml.Hello

open OcamlInt (add mul)

/-- `check` of `is_prime`. `none` is no result within so many calls, here and below. -/
def check : ℕ → ℤ → ℤ → Option Bool
  | 0, _, _ => none
  | fuel + 1, num, d =>
    if mul d d > num then some true
    else if num.tmod d = 0 then some false
    else check fuel num (add d 1)

def isPrime (fuel : ℕ) (num : ℤ) : Option Bool :=
  if num < 2 then some false else check fuel num 2

/-- `count` of `count_primes_up_to`. -/
def count : ℕ → ℤ → ℤ → ℤ → Option ℤ
  | 0, _, _, _ => none
  | fuel + 1, n, acc, i =>
    if i > n then some acc
    else (isPrime fuel i).bind fun prime => count fuel n (if prime then add acc 1 else acc) (add i 1)

def countPrimesUpTo (fuel : ℕ) (n : ℤ) : Option ℤ := count fuel n 0 2

variable {fuel num n d e : ℕ}

/-! ### Trial division -/

theorem mul_small (h : d * d < 2 ^ 30) : mul d d = (d * d : ℕ) := by
  rw [mul, ← Nat.cast_mul]
  exact OcamlInt.wrap_of_small (by omega) (by omega)

theorem add_one_small (h : d + 1 < 2 ^ 30) : add d 1 = (d + 1 : ℕ) := by
  rw [add]
  exact OcamlInt.wrap_of_small (by omega) (by omega)

theorem tmod_eq_zero_iff : (num : ℤ).tmod d = 0 ↔ d ∣ num := by
  rw [← Int.ofNat_tmod, Nat.dvd_iff_mod_eq_zero]
  exact Int.natCast_eq_zero

/-- A square that has not passed `num` leads on to the next divisor. -/
theorem check_next (hnum : num < 2 ^ 30) (hd : d < num) (hsq : ¬ mul d d > num) (hdvd : ¬ d ∣ num) :
    check (fuel + 1) num d = check fuel num (d + 1 : ℕ) := by
  rw [check, if_neg hsq, if_neg (mt tmod_eq_zero_iff.mp hdvd), add_one_small (by omega)]

/-- A composite number is given up at its least factor, before any square has wrapped. -/
theorem check_composite (hnum : num < 2 ^ 30) (h2 : 2 ≤ num) (hp : ¬ num.Prime) {k : ℕ}
    (hd : 2 ≤ d) (hk : d + k = num.minFac) (hfuel : k < fuel) : check fuel num d = some false := by
  have hmin := Nat.minFac_sq_le_self (by omega) hp
  rw [pow_two] at hmin
  have hsmall : ∀ d ≤ num.minFac, ¬ mul d d > num := by
    intro d hd
    have hle := Nat.mul_le_mul hd hd
    rw [mul_small (by omega)]
    omega
  induction k generalizing d fuel with
  | zero =>
    obtain ⟨fuel, rfl⟩ := Nat.exists_eq_add_of_lt hfuel
    rw [Nat.zero_add, check, if_neg (hsmall d (by omega)), if_pos]
    rw [tmod_eq_zero_iff, show d = num.minFac by omega]
    exact Nat.minFac_dvd num
  | succ k ih =>
    obtain ⟨fuel, rfl⟩ : ∃ f, fuel = f + 1 := ⟨fuel - 1, by omega⟩
    have hdvd : ¬ d ∣ num := by
      intro hdvd
      have hle := Nat.minFac_le_of_dvd hd hdvd
      omega
    have hlt : d < num := by
      have hle := Nat.minFac_le (n := num) (by omega)
      omega
    rw [check_next hnum hlt (hsmall d (by omega)) hdvd]
    exact ih (by omega) (by omega) (by omega)

/-- A prime is found at the first square that is larger, be it one that has wrapped. -/
theorem check_prime (hnum : num < 2 ^ 30) (hp : num.Prime) (hstop : mul e e > num)
    (he : e ≤ num) {k : ℕ} (hd : 2 ≤ d) (hk : d + k = e) (hfuel : k < fuel) :
    check fuel num d = some true := by
  induction k generalizing d fuel with
  | zero =>
    obtain ⟨fuel, rfl⟩ := Nat.exists_eq_add_of_lt hfuel
    rw [Nat.zero_add, check, if_pos]
    rwa [show d = e by omega]
  | succ k ih =>
    obtain ⟨fuel, rfl⟩ : ∃ f, fuel = f + 1 := ⟨fuel - 1, by omega⟩
    by_cases hsq : mul d d > num
    · rw [check, if_pos hsq]
    · have hdvd : ¬ d ∣ num := by
        intro hdvd
        rcases hp.eq_one_or_self_of_dvd d hdvd with h | h <;> omega
      rw [check_next hnum (by omega) hsq hdvd]
      exact ih (by omega) (by omega) (by omega)

/-- Up to 2^30 - 8 a square passes every number: below 32767² one that is larger by itself, and from
there on that of 57098059, which wraps to 2^30 - 7. -/
theorem exists_stop (hnum : num < 2 ^ 30 - 7) (h2 : 2 ≤ num) :
    ∃ e : ℕ, mul e e > num ∧ e ≤ num ∧ e < 2 ^ 26 ∧ 2 ≤ e := by
  by_cases hsmall : num < 32767 * 32767
  · have hroot := Nat.sqrt_lt.mpr hsmall
    have hlt := Nat.sqrt_lt_self (n := num) (by omega)
    have hpos := Nat.sqrt_pos.mpr (show 0 < num by omega)
    have hgt : num < (num.sqrt + 1) * (num.sqrt + 1) := Nat.lt_succ_sqrt num
    have hle := Nat.mul_le_mul (show num.sqrt + 1 ≤ 32767 by omega) (show num.sqrt + 1 ≤ 32767 by omega)
    refine ⟨num.sqrt + 1, ?_, by omega, by omega, by omega⟩
    rw [mul_small (by omega)]
    omega
  · have hwrap : mul (57098059 : ℕ) (57098059 : ℕ) = 2 ^ 30 - 7 := by decide
    refine ⟨57098059, ?_, by omega, by omega, by omega⟩
    rw [hwrap]
    omega

/-- None of the last 30-bit numbers is prime. -/
theorem prime_lt (hnum : num < 2 ^ 30) (hp : num.Prime) : num < 2 ^ 30 - 7 := by
  by_contra hge
  obtain ⟨k, hk, rfl⟩ : ∃ k < 7, num = 2 ^ 30 - 7 + k := ⟨num - (2 ^ 30 - 7), by omega, by omega⟩
  interval_cases k <;> norm_num at hp

theorem isPrime_eq (hnum : num < 2 ^ 30) (hfuel : 2 ^ 26 ≤ fuel) :
    isPrime fuel num = some (decide num.Prime) := by
  rw [isPrime]
  split
  · next hlt =>
    have hp : ¬ num.Prime := by
      intro hp
      have h2 := hp.two_le
      omega
    rw [decide_eq_false hp]
  · next hge =>
    by_cases hp : num.Prime
    · obtain ⟨e, hstop, he, hsmall, h2⟩ := exists_stop (prime_lt hnum hp) hp.two_le
      rw [decide_eq_true hp]
      exact check_prime (d := 2) (k := e - 2) hnum hp hstop he (by omega) (by omega) (by omega)
    · have hmin := Nat.minFac_sq_le_self (n := num) (by omega) hp
      have h2 := (Nat.minFac_prime (n := num) (by omega)).two_le
      have hsmall : num.minFac < 2 ^ 15 := by
        by_contra hge
        have hle := Nat.pow_le_pow_left (Nat.not_lt.mp hge) 2
        omega
      rw [decide_eq_false hp]
      exact check_composite (d := 2) (k := num.minFac - 2) hnum (by omega) hp (by omega) (by omega)
        (by omega)

/-! ### Counting -/

theorem count_eq (hn : n + 1 < 2 ^ 30) {i k : ℕ} (hk : i + k = n + 1) (hfuel : k + 2 ^ 26 < fuel) :
    count fuel n (Nat.count Nat.Prime i) i = some (Nat.primeCounting n : ℤ) := by
  induction k generalizing i fuel with
  | zero =>
    obtain ⟨fuel, rfl⟩ : ∃ f, fuel = f + 1 := ⟨fuel - 1, by omega⟩
    rw [count, if_pos (by omega), show i = n + 1 by omega]
    rfl
  | succ k ih =>
    obtain ⟨fuel, rfl⟩ : ∃ f, fuel = f + 1 := ⟨fuel - 1, by omega⟩
    have hcount := Nat.count_le (p := Nat.Prime) (n := i)
    have hacc : (if decide i.Prime then add (Nat.count Nat.Prime i) 1 else (Nat.count Nat.Prime i : ℤ)) =
        Nat.count Nat.Prime (i + 1) := by
      rw [Nat.count_succ, add_one_small (by omega)]
      by_cases hp : i.Prime <;> simp [hp]
    rw [count, if_neg (by omega), isPrime_eq (by omega) (by omega), Option.bind_some, hacc,
      add_one_small (by omega)]
    exact ih (by omega) (by omega)

/-- The counter wraps before it passes `max_int`. -/
theorem count_max_int (fuel : ℕ) {acc i : ℤ} (hi : i < 2 ^ 30) :
    count fuel (2 ^ 30 - 1) acc i = none := by
  induction fuel generalizing acc i with
  | zero => rfl
  | succ fuel ih =>
    rw [count, if_neg (by omega)]
    cases isPrime fuel i with
    | none => rfl
    | some prime =>
      have hnext : add i 1 < 2 ^ 30 := by
        rw [add, OcamlInt.wrap_eq]
        split <;> omega
      exact ih hnext

/-- `count_primes_up_to` returns the number of primes for every `int` but `max_int`, for which it
does not return. -/
theorem countPrimesUpTo_eq (n : ℤ) (hmin : -2 ^ 30 ≤ n) (hmax : n < 2 ^ 30) :
    (n < 2 ^ 30 - 1 → ∀ fuel ≥ 2 ^ 31,
      countPrimesUpTo fuel n = some (Nat.primeCounting n.toNat : ℤ)) ∧
    (n = 2 ^ 30 - 1 → ∀ fuel, countPrimesUpTo fuel n = none) := by
  constructor
  · intro hn fuel hfuel
    rw [countPrimesUpTo]
    by_cases hsmall : n < 2
    · obtain ⟨fuel, rfl⟩ : ∃ f, fuel = f + 1 := ⟨fuel - 1, by omega⟩
      rw [count, if_pos hsmall, Nat.primeCounting_eq_zero_iff.mpr (by omega)]
      rfl
    · obtain ⟨m, rfl⟩ := Int.eq_ofNat_of_zero_le (show 0 ≤ n by omega)
      have hstart : Nat.count Nat.Prime 2 = 0 := by decide
      have hcount := count_eq (n := m) (i := 2) (k := m - 1) (by omega) (by omega)
        (show m - 1 + 2 ^ 26 < fuel by omega)
      rw [hstart] at hcount
      exact hcount
  · rintro rfl fuel
    exact count_max_int fuel (by decide)

/-- The count of the demo. -/
theorem countPrimesUpTo_demo :
    countPrimesUpTo (2 ^ 31) 50000 = some (Nat.primeCounting 50000 : ℤ) :=
  (countPrimesUpTo_eq 50000 (by decide) (by decide)).1 (by decide) (2 ^ 31) (Nat.le_refl _)

end PicoOcaml.Hello
