import Mathlib.Data.BitVec

/-! OCaml values as the 32-bit target stores integers: 31 value bits above one tag bit. -/
namespace PicoOcaml

/-- `intptr_t` and `uint32_t` on the target. -/
abbrev Word := BitVec 32

/-- `Val_int(x)`. -/
def valInt (x : Word) : Word := (x <<< 1) + 1

/-- `Int_val(v)`: the shift is arithmetic because `value` is signed. -/
def intVal (v : Word) : Word := v.sshiftRight 1

/-- The integer OCaml code sees in a tagged word. -/
def ocamlInt (v : Word) : ℤ := v.toInt / 2

/-- The tagged word of an OCaml integer. -/
def ofOcamlInt (n : ℤ) : Word := BitVec.ofInt 32 (2 * n + 1)

theorem toNat_valInt (x : Word) : (valInt x).toNat = (2 * x.toNat + 1) % 2 ^ 32 := by
  have h1 : (1 : Word).toNat = 1 := rfl
  simp only [valInt, BitVec.toNat_add, BitVec.toNat_shiftLeft, Nat.shiftLeft_eq, h1]
  omega

theorem toInt_intVal (v : Word) : (intVal v).toInt = v.toInt / 2 := by
  simp [intVal, BitVec.toInt_sshiftRight, Int.shiftRight_eq_div_pow]

/-- Bit 31 is shifted out, so one word other than 0 is tagged like 0. -/
theorem valInt_eq_zero_iff (x : Word) : valInt x = valInt 0 ↔ x = 0 ∨ x = 0x80000000 := by
  have hx := x.isLt
  have h0 : (0 : Word).toNat = 0 := rfl
  have h8 : (0x80000000 : Word).toNat = 0x80000000 := rfl
  rw [← BitVec.toNat_inj, ← BitVec.toNat_inj, ← BitVec.toNat_inj, toNat_valInt, toNat_valInt,
    h0, h8]
  omega

/-- Untagging copies bit 30 into the bit that tagging dropped. -/
theorem intVal_valInt_iff (x : Word) :
    intVal (valInt x) = x ↔ x.getLsbD 31 = x.getLsbD 30 := by
  have hx := x.isLt
  rw [← BitVec.toInt_inj, toInt_intVal, BitVec.toInt_eq_toNat_cond, BitVec.toInt_eq_toNat_cond,
    toNat_valInt, BitVec.getLsbD, BitVec.getLsbD, Nat.testBit_eq_decide_div_mod_eq,
    Nat.testBit_eq_decide_div_mod_eq, decide_eq_decide]
  split <;> split <;> omega

/-- Tagging always sets the low bit, so OCaml's own view of the word loses nothing more. -/
theorem ofOcamlInt_ocamlInt_valInt (x : Word) : ofOcamlInt (ocamlInt (valInt x)) = valInt x := by
  have hx := x.isLt
  rw [← BitVec.toNat_inj, ofOcamlInt, BitVec.toNat_ofInt, ocamlInt, BitVec.toInt_eq_toNat_cond,
    toNat_valInt]
  split <;> omega

/-- A short integer comes back from C. -/
theorem ocamlInt_valInt_ofInt {n : ℤ} (h : -2 ^ 30 ≤ n) (h' : n < 2 ^ 30) :
    ocamlInt (valInt (BitVec.ofInt 32 n)) = n := by
  rw [ocamlInt, BitVec.toInt_eq_toNat_cond, toNat_valInt, BitVec.toNat_ofInt]
  split <;> omega

end PicoOcaml
