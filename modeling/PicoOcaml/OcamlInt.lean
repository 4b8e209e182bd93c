import Mathlib.Algebra.Group.Int.Defs
import Mathlib.Algebra.Group.Nat.Defs
import Mathlib.Data.Int.Basic

/-! OCaml's integers on a 32-bit machine: 31 bits that wrap. Division and remainder are `Int.tdiv`
and `Int.tmod`, which truncate towards zero as OCaml's do. -/
namespace OcamlInt

/-- The integer that the low 31 bits stand for. -/
def wrap (n : ℤ) : ℤ := Int.bmod n (2 ^ 31)

def add (a b : ℤ) : ℤ := wrap (a + b)
def sub (a b : ℤ) : ℤ := wrap (a - b)
def mul (a b : ℤ) : ℤ := wrap (a * b)

variable {a b n : ℤ}

theorem wrap_eq (n : ℤ) : wrap n = if n % 2 ^ 31 < 2 ^ 30 then n % 2 ^ 31 else n % 2 ^ 31 - 2 ^ 31 := by
  rw [wrap, Int.bmod_def]
  rfl

theorem wrap_of_small (h : -2 ^ 30 ≤ n) (h' : n < 2 ^ 30) : wrap n = n := by
  rw [wrap_eq]
  split <;> omega

/-- An integer of 31 bits. -/
def Fits (n : ℤ) : Prop := -2 ^ 30 ≤ n ∧ n < 2 ^ 30

theorem add_exact (h : Fits (a + b)) : add a b = a + b := wrap_of_small h.1 h.2

theorem mul_exact (h : Fits (a * b)) : mul a b = a * b := wrap_of_small h.1 h.2

/-- What is lost by wrapping an operand makes no difference to a wrapped difference. -/
theorem sub_wrap_left (a b : ℤ) : sub (wrap a) b = wrap (a - b) := by
  simp only [sub, wrap_eq]
  split <;> split <;> split <;> omega

theorem sub_wrap (a b : ℤ) : sub (wrap a) (wrap b) = wrap (a - b) := by
  rw [sub_wrap_left]
  simp only [wrap_eq]
  split <;> split <;> split <;> omega

/-- Truncating division by a positive number, by the sign of the dividend. -/
theorem tdiv_cases (a : ℤ) (b : ℤ) : (0 ≤ a ∧ a.tdiv b = a / b ∧ a.tmod b = a % b) ∨
    (a < 0 ∧ a.tdiv b = -(-a / b) ∧ a.tmod b = -(-a % b)) := by
  by_cases h : 0 ≤ a
  · exact Or.inl ⟨h, Int.tdiv_eq_ediv_of_nonneg h, Int.tmod_eq_emod_of_nonneg h⟩
  · right
    have hneg : 0 ≤ -a := by omega
    refine ⟨by omega, ?_, ?_⟩
    · rw [← Int.tdiv_eq_ediv_of_nonneg hneg, Int.neg_tdiv, Int.neg_neg]
    · rw [← Int.tmod_eq_emod_of_nonneg hneg, Int.neg_tmod, Int.neg_neg]

/-! ### Expressions -/

/-- An expression that divides by constants only. -/
inductive Expr
  | lit (n : ℤ)
  | add (a b : Expr)
  | mul (a b : Expr)
  | div (a : Expr) (n : ℕ)
  | mod (a : Expr) (n : ℕ)

namespace Expr

def run : Expr → ℤ
  | .lit n => n
  | .add a b => OcamlInt.add a.run b.run
  | .mul a b => OcamlInt.mul a.run b.run
  | .div a n => a.run.tdiv n
  | .mod a n => a.run.tmod n

/-- The value over unbounded integers. -/
def exact : Expr → ℤ
  | .lit n => n
  | .add a b => a.exact + b.exact
  | .mul a b => a.exact * b.exact
  | .div a n => a.exact.tdiv n
  | .mod a n => a.exact.tmod n

/-- The results of the operations over unbounded integers. -/
def results : Expr → List ℤ
  | .lit _ => []
  | .add a b => a.results ++ b.results ++ [a.exact + b.exact]
  | .mul a b => a.results ++ b.results ++ [a.exact * b.exact]
  | .div a n => a.results ++ [a.exact.tdiv n]
  | .mod a n => a.results ++ [a.exact.tmod n]

/-- Nothing wraps when every result fits. -/
theorem run_eq_exact {e : Expr} (h : ∀ n ∈ e.results, Fits n) : e.run = e.exact := by
  induction e with
  | lit n => rfl
  | add a b iha ihb =>
    simp only [results, List.forall_mem_append, List.forall_mem_singleton] at h
    obtain ⟨⟨ha, hb⟩, hsum⟩ := h
    rw [run, iha ha, ihb hb, add_exact hsum, exact]
  | mul a b iha ihb =>
    simp only [results, List.forall_mem_append, List.forall_mem_singleton] at h
    obtain ⟨⟨ha, hb⟩, hprod⟩ := h
    rw [run, iha ha, ihb hb, mul_exact hprod, exact]
  | div a n ih =>
    rw [run, ih fun m hm => h m (List.mem_append_left _ hm), exact]
  | mod a n ih =>
    rw [run, ih fun m hm => h m (List.mem_append_left _ hm), exact]

end Expr

end OcamlInt
