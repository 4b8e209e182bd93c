import PicoOcaml.OcamlInt

/-! OCaml's byte strings on a 32-bit machine, which bound the length, and the operations that raise
outside of a string. `string` and `bytes` are the same here: a write returns the new contents. -/
namespace OcamlBytes

/-- `Sys.max_string_length`. -/
def maxStringLength : ℕ := 16777211

structure Bytes where
  data : List UInt8
  fits : data.length ≤ maxStringLength
deriving DecidableEq

def Bytes.length (s : Bytes) : ℤ := s.data.length

/-- `invalid_arg`. -/
abbrev Checked := Except String

/-- `Bytes.create`. What a new string holds is not specified, so it is a parameter. -/
def create (junk : ℕ → UInt8) (n : ℤ) : Checked Bytes :=
  if h : 0 ≤ n ∧ n ≤ maxStringLength then
    .ok ⟨(List.range n.toNat).map junk, by simpa using h.2⟩
  else .error "Bytes.create"

/-- `s.[i]`. -/
def get (s : Bytes) (i : ℤ) : Checked UInt8 :=
  if 0 ≤ i then (s.data[i.toNat]?).elim (.error "index out of bounds") .ok
  else .error "index out of bounds"

/-- `Bytes.blit src srcOff dst dstOff len`. -/
def blit (src : Bytes) (srcOff : ℤ) (dst : Bytes) (dstOff len : ℤ) : Checked Bytes :=
  if h : 0 ≤ len ∧ 0 ≤ srcOff ∧ srcOff ≤ src.length - len ∧ 0 ≤ dstOff ∧
      dstOff ≤ dst.length - len then
    .ok ⟨dst.data.take dstOff.toNat ++ (src.data.drop srcOff.toNat).take len.toNat ++
      dst.data.drop (dstOff + len).toNat, by
        have := dst.fits
        simp only [Bytes.length] at h
        simp only [List.length_append, List.length_take, List.length_drop]
        omega⟩
  else .error "String.blit / Bytes.blit"

/-- `String.sub s off len`. -/
def sub (s : Bytes) (off len : ℤ) : Checked Bytes :=
  if 0 ≤ off ∧ 0 ≤ len ∧ off ≤ s.length - len then
    .ok ⟨(s.data.drop off.toNat).take len.toNat, by
      have := s.fits
      simp only [List.length_take, List.length_drop]
      omega⟩
  else .error "String.sub / Bytes.sub"

section Operations
variable {junk : ℕ → UInt8} {s dst : Bytes} {i n : ℤ} {c : UInt8}

@[ext] theorem Bytes.ext {s t : Bytes} (h : s.data = t.data) : s = t := by
  cases s
  cases t
  simpa using h

/-- A length is far below the integers that wrap. -/
theorem length_small (s : Bytes) : 0 ≤ s.length ∧ s.length < 2 ^ 24 := by
  have := s.fits
  simp only [maxStringLength] at this
  simp only [Bytes.length]
  omega

theorem create_ok (junk : ℕ → UInt8) (h : 0 ≤ n) (hn : n ≤ maxStringLength) :
    ∃ s, create junk n = .ok s ∧ s.data.length = n.toNat := by
  refine ⟨_, dif_pos ⟨h, hn⟩, ?_⟩
  simp

theorem get_ok (h : get s i = .ok c) : 0 ≤ i ∧ i < s.length ∧ s.data[i.toNat]? = some c := by
  rw [get] at h
  split at h
  · next hi =>
    cases hs : s.data[i.toNat]? with
    | none => simp [hs] at h
    | some b =>
      have hlt := (List.getElem?_eq_some_iff.mp hs).1
      simp only [hs, Option.elim_some, Except.ok.injEq] at h
      refine ⟨hi, ?_, by rw [h]⟩
      simp only [Bytes.length]
      omega
  · simp at h

theorem get_of_lt (k : ℕ) (h : k < s.data.length) : get s k = .ok s.data[k] := by
  simp [get, h]

/-- A whole string written right behind what is already there. -/
theorem blit_behind (src : Bytes) {p rest : List UInt8} (h : dst.data = p ++ rest)
    (hl : src.data.length ≤ rest.length) :
    ∃ out, blit src 0 dst p.length src.length = .ok out ∧
      out.data = p ++ src.data ++ rest.drop src.data.length := by
  refine ⟨_, dif_pos ?_, ?_⟩
  · simp only [Bytes.length, h, List.length_append]
    omega
  · have hto : ((p.length : ℤ) + src.data.length).toNat = p.length + src.data.length := by omega
    simp [h, hto, Bytes.length, List.drop_append]

/-- A whole string that `blit` has written lies inside, and the length stays. -/
theorem blit_ok {src out : Bytes} {p : ℕ} (h : blit src 0 dst p src.length = .ok out) :
    p + src.data.length ≤ dst.data.length ∧ out.data.length = dst.data.length := by
  rw [blit] at h
  split at h
  · next hin =>
    cases h
    simp only [Bytes.length] at hin ⊢
    simp only [List.length_append, List.length_take, List.length_drop]
    omega
  · cases h

/-- From an index inside to the end, as `sub` is mostly used. -/
theorem sub_rest (k : ℕ) (h : k ≤ s.data.length) :
    ∃ out, sub s k (s.length - k) = .ok out ∧ out.data = s.data.drop k := by
  refine ⟨_, if_pos ?_, ?_⟩
  · simp only [Bytes.length]
    omega
  · have hto : ((s.data.length : ℤ) - k).toNat = (s.data.drop k).length := by
      simp only [List.length_drop]
      omega
    simp only [Bytes.length, hto, Int.toNat_natCast, List.take_length]

end Operations

section Occurrences
variable {α : Type*} {p s : List α} {i j : ℕ}

/-- `p` stands in `s` from index `i` on. -/
def OccursAt (p s : List α) (i : ℕ) : Prop := p <+: s.drop i

structure FirstAt (p s : List α) (i : ℕ) : Prop where
  occurs : OccursAt p s i
  first : ∀ j < i, ¬ OccursAt p s j

theorem occursAt_length (h : OccursAt p s i) : p.length ≤ s.length - i := by
  simpa using List.IsPrefix.length_le h

end Occurrences
end OcamlBytes
