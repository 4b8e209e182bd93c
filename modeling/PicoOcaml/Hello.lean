import PicoOcaml.OcamlBytes

/-! The HTTP client of the dual-core demo: from the chunks that were read to the body. -/
namespace PicoOcaml.Hello

open OcamlInt (add sub)
open OcamlBytes (Bytes Checked create get blit length_small get_ok)

def cr : UInt8 := 13
def lf : UInt8 := 10

/-- `total` of `concat_chunks`. -/
def totalLength (chunks : List Bytes) : ℤ :=
  chunks.foldl (fun acc chunk => add acc chunk.length) 0

/-- What the second fold does for a chunk: `result` is written in place. -/
def appendChunk (acc : ℤ × Bytes) (chunk : Bytes) : Checked (ℤ × Bytes) := do
  let (pos, result) := acc
  let len := chunk.length
  let result ← blit chunk 0 result pos len
  return (add pos len, result)

/-- `concat_chunks`. -/
def concatChunks (junk : ℕ → UInt8) (chunks : List Bytes) : Checked Bytes := do
  let result ← create junk (totalLength chunks)
  let (_, result) ← chunks.foldlM appendChunk (0, result)
  return result

/-- The test of `find` at `i`, which reads no further than the first byte that differs. -/
def isSeparator (response : Bytes) (i : ℤ) : Checked Bool :=
  (· == cr) <$> get response i <&&> (· == lf) <$> get response (add i 1) <&&>
    (· == cr) <$> get response (add i 2) <&&> (· == lf) <$> get response (add i 3)

variable {response : Bytes} {i : ℤ} {b : Bool}

theorem isSeparator_ok (h : isSeparator response i = .ok b) : 0 ≤ i ∧ i < response.length := by
  cases hg : get response i with
  | error e => simp [isSeparator, hg, andM, bind, Except.bind] at h
  | ok c => exact ⟨(get_ok hg).1, (get_ok hg).2.1⟩

/-- `find` of `find_body`. -/
def find (response : Bytes) (i : ℤ) : Checked ℤ :=
  let len := response.length
  if add i 3 ≥ len then .ok len
  else match _h : isSeparator response i with
    | .error e => .error e
    | .ok true => .ok (add i 4)
    | .ok false => find response (add i 1)
termination_by (response.length - i).toNat
decreasing_by
  have hi := isSeparator_ok _h
  have hl := length_small response
  rw [add, OcamlInt.wrap_of_small (by omega) (by omega)]
  omega

/-- The same without the fact that only the termination needs. -/
theorem find_eq (response : Bytes) (i : ℤ) : find response i =
    if add i 3 ≥ response.length then .ok response.length
    else isSeparator response i >>= fun b =>
      if b then .ok (add i 4) else find response (add i 1) := by
  rw [find]
  by_cases hend : add i 3 ≥ response.length
  · rw [if_pos hend, if_pos hend]
  · rw [if_neg hend, if_neg hend]
    split
    · next h => rw [h]; rfl
    · next h => rw [h]; rfl
    · next h => rw [h]; rfl

/-- `find_body`. -/
def findBody (response : Bytes) : Checked Bytes := do
  let start ← find response 0
  OcamlBytes.sub response start (sub response.length start)

end PicoOcaml.Hello
