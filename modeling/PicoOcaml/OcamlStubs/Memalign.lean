import PicoOcaml.OcamlStubs.Heap

/-! `posix_memalign`: a block of `malloc`, an aligned address in it, and below that a word that
says where the block starts. -/
namespace PicoOcaml.OcamlStubs.Memalign

open Heap (toNat_and_not_pred)

def enomem : ℤ := 12

/-- `sizeof(void *)`. -/
def wordSize : Word := 4

/-- The result, `*memptr`, and the word that is written: its address and its value. -/
structure Outcome where
  result : ℤ
  memptr : Word
  stored : Option (Word × Word)
deriving DecidableEq

/-- `if (alignment < sizeof(void*)) alignment = sizeof(void*)`. -/
def atLeastWord (alignment : Word) : Word := if alignment < wordSize then wordSize else alignment

/-- What is asked of `malloc`. -/
def request (alignment size : Word) : Word := size + atLeastWord alignment + wordSize

def posixMemalign (malloc : Word → Word) (memptr alignment size : Word) : Outcome :=
  let raw := malloc (request alignment size)
  let alignment := atLeastWord alignment
  if raw = 0 then ⟨enomem, memptr, none⟩
  else
    let addr := raw + wordSize
    let addr := (addr + alignment - 1) &&& ~~~(alignment - 1)
    ⟨0, addr, some (addr - wordSize, raw)⟩

/-- `malloc` returns `NULL` or a block that does not wrap. -/
def Sound (malloc : Word → Word) : Prop :=
  ∀ n, malloc n ≠ 0 → (malloc n).toNat + n.toNat ≤ 2 ^ 32

/-- What the caller is promised: the bytes and the word below them are in the block. -/
def Fits (malloc : Word → Word) (memptr alignment size : Word) : Prop :=
  let raw := malloc (request alignment size)
  let out := posixMemalign malloc memptr alignment size
  if out.result = 0 then
    alignment.toNat ∣ out.memptr.toNat ∧ raw.toNat + wordSize.toNat ≤ out.memptr.toNat ∧
      out.memptr.toNat + size.toNat ≤ raw.toNat + (request alignment size).toNat ∧
      out.memptr.toNat + size.toNat ≤ 2 ^ 32
  else out.result = enomem ∧ out.memptr = memptr

variable {alignment size : Word}

theorem toNat_wordSize : wordSize.toNat = 4 := rfl

theorem toNat_atLeastWord (alignment : Word) :
    (atLeastWord alignment).toNat = max alignment.toNat 4 := by
  have hlt : alignment < wordSize ↔ alignment.toNat < 4 := BitVec.lt_def
  by_cases h : alignment < wordSize
  · rw [atLeastWord, if_pos h, toNat_wordSize]
    have := hlt.mp h
    omega
  · rw [atLeastWord, if_neg h]
    have := mt hlt.mpr h
    omega

/-- The alignment that is used is a power of two, and a multiple of the one asked for. -/
theorem atLeastWord_spec (h : ∃ k, alignment.toNat = 2 ^ k) :
    ∃ j, (atLeastWord alignment).toNat = 2 ^ j ∧ alignment.toNat ∣ 2 ^ j := by
  obtain ⟨k, hk⟩ := h
  rw [toNat_atLeastWord, hk]
  rcases Nat.lt_or_ge k 2 with hlt | hge
  · refine ⟨2, max_eq_right ?_, Nat.pow_dvd_pow 2 (by omega)⟩
    exact Nat.pow_le_pow_right (by omega) (by omega : k ≤ 2)
  · exact ⟨k, max_eq_left (Nat.pow_le_pow_right (n := 2) (by omega) hge), dvd_rfl⟩

theorem toNat_request (alignment size : Word) : (request alignment size).toNat =
    (size.toNat + max alignment.toNat 4 + 4) % 2 ^ 32 := by
  rw [request, BitVec.toNat_add, BitVec.toNat_add, toNat_atLeastWord, toNat_wordSize]
  omega

/-- A request that does not wrap leaves room for the word and for any padding. -/
theorem fits_of_lt (h : ∃ k, alignment.toNat = 2 ^ k)
    (hlt : size.toNat + max alignment.toNat 4 + 4 < 2 ^ 32) {malloc : Word → Word} (memptr : Word)
    (hm : Sound malloc) : Fits malloc memptr alignment size := by
  have hreq := toNat_request alignment size
  obtain ⟨j, hj, hdvd⟩ := atLeastWord_spec h
  have hal := toNat_atLeastWord alignment
  by_cases hraw : malloc (request alignment size) = 0
  · have hne : ¬ enomem = 0 := by decide
    simp only [Fits, posixMemalign, hraw, if_true, if_neg hne, and_self]
  · have hblock := hm _ hraw
    have hpos := Nat.two_pow_pos j
    have h1 : (1 : Word).toNat = 1 := rfl
    have haddr : (malloc (request alignment size) + wordSize + atLeastWord alignment - 1).toNat =
        (malloc (request alignment size)).toNat + 4 + 2 ^ j - 1 := by
      rw [BitVec.toNat_sub, BitVec.toNat_add, BitVec.toNat_add, toNat_wordSize, hj, h1]
      omega
    have hmask := toNat_and_not_pred
      (malloc (request alignment size) + wordSize + atLeastWord alignment - 1) hj
    rw [haddr] at hmask
    have hdiv := Nat.div_add_mod' ((malloc (request alignment size)).toNat + 4 + 2 ^ j - 1) (2 ^ j)
    have hmod := Nat.mod_lt ((malloc (request alignment size)).toNat + 4 + 2 ^ j - 1) hpos
    simp only [Fits, posixMemalign, hraw, if_false, if_true, hmask, toNat_wordSize]
    refine ⟨?_, ?_, ?_, ?_⟩
    · exact hdvd.trans (Dvd.intro_left _ rfl)
    · omega
    · omega
    · omega

/-- A request that wraps gets a block with no room for `size` bytes behind the word. -/
theorem not_fits_of_ge (size : Word) (h : ∃ k, alignment.toNat = 2 ^ k)
    (hge : 2 ^ 32 ≤ size.toNat + max alignment.toNat 4 + 4) :
    ∃ malloc, Sound malloc ∧ ¬ Fits malloc 0 alignment size := by
  refine ⟨fun n => if n.toNat + 8 ≤ 2 ^ 32 then 8 else 0, ?_, ?_⟩
  · intro n hn
    simp only at hn ⊢
    split at hn
    · next h8 =>
      rw [if_pos h8]
      exact (Nat.add_comm 8 n.toNat).trans_le h8
    · exact absurd rfl hn
  · intro hfits
    have hreq := toNat_request alignment size
    obtain ⟨k, hk⟩ := h
    have halign : alignment.toNat ≤ 2 ^ 31 := by
      have hlt := alignment.isLt
      rw [hk] at hlt ⊢
      have hk32 : k < 32 := (Nat.pow_lt_pow_iff_right (by omega)).mp hlt
      exact Nat.pow_le_pow_right (by omega) (by omega)
    have hs := size.isLt
    have h8 : (request alignment size).toNat + 8 ≤ 2 ^ 32 := by omega
    have hne : ¬ (8 : Word) = 0 := by decide
    have hv : (8 : Word).toNat = 8 := rfl
    simp only [Fits, posixMemalign, if_pos h8, hne, if_false, if_true, toNat_wordSize, hv] at hfits
    omega

/-- The block fits, whatever `malloc` answers, exactly when the request does not wrap. -/
theorem posixMemalign_iff (h : ∃ k, alignment.toNat = 2 ^ k) :
    (∀ malloc memptr, Sound malloc → Fits malloc memptr alignment size) ↔
      size.toNat + max alignment.toNat 4 + 4 < 2 ^ 32 := by
  constructor
  · intro hfits
    by_contra hge
    obtain ⟨malloc, hm, hnot⟩ := not_fits_of_ge size h (by omega)
    exact hnot (hfits malloc 0 hm)
  · intro hlt malloc memptr hm
    exact fits_of_lt h hlt memptr hm

theorem posixMemalign_page :
    (∀ malloc memptr, Sound malloc → Fits malloc memptr 4096 100) ↔
      (100 : Word).toNat + max (4096 : Word).toNat 4 + 4 < 2 ^ 32 :=
  posixMemalign_iff ⟨12, rfl⟩

/-- For 2^32 - 16 bytes at a multiple of 16, `malloc` is asked for 4 bytes. -/
theorem posixMemalign_wraps : ¬ ∀ (malloc : Word → Word) (memptr alignment size : Word),
    (∃ k, alignment.toNat = 2 ^ k) → Sound malloc → Fits malloc memptr alignment size := by
  intro h
  have h16 : ∃ k, (16 : Word).toNat = 2 ^ k := ⟨4, rfl⟩
  obtain ⟨malloc, hm, hnot⟩ := not_fits_of_ge 0xFFFFFFF0 h16 (by decide)
  exact hnot (h malloc 0 16 0xFFFFFFF0 h16 hm)

end PicoOcaml.OcamlStubs.Memalign
