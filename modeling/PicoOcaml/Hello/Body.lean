import PicoOcaml.Hello

/-! The body of a response is the same however the response was cut into chunks. -/
namespace PicoOcaml.Hello

open OcamlInt (add)
open OcamlBytes hiding sub

variable {junk : ℕ → UInt8} {chunks : List Bytes} {response r result : Bytes}

/-- What the chunks hold together. -/
def joined (chunks : List Bytes) : List UInt8 := (chunks.map Bytes.data).flatten

def separator : List UInt8 := [cr, lf, cr, lf]

@[simp] theorem joined_nil : joined [] = [] := rfl
@[simp] theorem joined_cons (chunk : Bytes) : joined (chunk :: chunks) = chunk.data ++ joined chunks :=
  rfl

/-- An index that `find` computes is at most 4 past the longest string. -/
theorem add_index (j k : ℕ) (h : j + k ≤ maxStringLength + 4) :
    add (j : ℤ) (k : ℤ) = ((j + k : ℕ) : ℤ) := by
  simp only [maxStringLength] at h
  rw [add, OcamlInt.wrap_of_small (by omega) (by omega)]
  omega

/-- No partial sum wraps while all the chunks fit in a string. -/
theorem totalLength_from (chunks : List Bytes) (n : ℕ)
    (h : n + (joined chunks).length ≤ maxStringLength) :
    chunks.foldl (fun acc chunk => add acc chunk.length) n = n + (joined chunks).length := by
  induction chunks generalizing n with
  | nil => simp
  | cons chunk chunks ih =>
    simp only [joined_cons, List.length_append] at h
    have hadd : add n chunk.length = ((n + chunk.data.length : ℕ) : ℤ) := add_index _ _ (by omega)
    rw [List.foldl_cons, hadd, ih _ (by omega)]
    simp only [joined_cons, List.length_append]
    omega

/-- `pos` is the length of what has been written, and the rest of the buffer is what is still to
be written. -/
theorem appendChunk_fold (chunks : List Bytes) {p rest : List UInt8} (h : result.data = p ++ rest)
    (hl : rest.length = (joined chunks).length) :
    ∃ pos out, chunks.foldlM appendChunk ((p.length : ℤ), result) = .ok (pos, out) ∧
      out.data = p ++ joined chunks := by
  induction chunks generalizing p rest result with
  | nil =>
    have hr : rest = [] := by simpa using hl
    exact ⟨_, _, rfl, by rw [h, hr, joined_nil]⟩
  | cons chunk chunks ih =>
    simp only [joined_cons, List.length_append] at hl
    obtain ⟨out, hblit, hout⟩ := blit_behind chunk h (by omega)
    have hfits : p.length + chunk.data.length ≤ maxStringLength := by
      have := result.fits
      simp only [h, List.length_append] at this
      omega
    have hpos : add p.length chunk.length = ((p ++ chunk.data).length : ℤ) := by
      rw [List.length_append]
      exact add_index _ _ (by omega)
    have hstep : appendChunk (p.length, result) chunk = .ok (((p ++ chunk.data).length : ℤ), out) := by
      simp only [appendChunk, hblit, hpos, bind, Except.bind, pure, Except.pure]
    obtain ⟨pos, out', hfold, hout'⟩ := ih hout (by simp only [List.length_drop]; omega)
    refine ⟨pos, out', ?_, ?_⟩
    · rw [List.foldlM_cons, hstep]
      exact hfold
    · rw [hout', joined_cons, List.append_assoc]

theorem concatChunks_eq (h : joined chunks = r.data) : concatChunks junk chunks = .ok r := by
  have hfits : (joined chunks).length ≤ maxStringLength := h ▸ r.fits
  have htotal : totalLength chunks = (joined chunks).length := by
    have := totalLength_from chunks 0 (by simpa using hfits)
    simpa [totalLength] using this
  obtain ⟨result, hcreate, hlen⟩ := create_ok (n := totalLength chunks) junk (by omega) (by omega)
  have hempty : result.data = [] ++ result.data := rfl
  obtain ⟨pos, out, hfold, hout⟩ := appendChunk_fold chunks hempty (by omega)
  have heq : out = r := Bytes.ext (by simpa [h] using hout)
  have hfold' : chunks.foldlM appendChunk (0, result) = .ok (pos, out) := hfold
  simp only [concatChunks, hcreate, hfold', heq, bind, Except.bind, pure, Except.pure]

/-- What the second fold has written fits behind `n` bytes. -/
theorem appendChunk_fold_fits {n : ℕ} {pos : ℤ} {out : Bytes}
    (h : chunks.foldlM appendChunk ((n : ℤ), result) = .ok (pos, out)) (hn : n ≤ result.data.length) :
    n + (joined chunks).length ≤ result.data.length := by
  induction chunks generalizing n result with
  | nil => exact hn
  | cons chunk chunks ih =>
    rw [List.foldlM_cons] at h
    cases hblit : blit chunk 0 result n chunk.length with
    | error msg => simp [appendChunk, hblit, bind, Except.bind] at h
    | ok next =>
      obtain ⟨hin, hlen⟩ := blit_ok hblit
      have hfits := result.fits
      have hpos : add n chunk.length = ((n + chunk.data.length : ℕ) : ℤ) := add_index _ _ (by omega)
      have hstep : appendChunk (n, result) chunk = .ok (((n + chunk.data.length : ℕ) : ℤ), next) := by
        simp only [appendChunk, hblit, hpos, bind, Except.bind, pure, Except.pure]
      rw [hstep] at h
      have hrest := ih h (hlen ▸ hin)
      rw [joined_cons, List.length_append]
      omega

/-- The chunks are put together if they fit in a string, and only then. -/
theorem concatChunks_iff : concatChunks junk chunks = .ok r ↔ joined chunks = r.data := by
  constructor
  · intro h
    cases hcreate : create junk (totalLength chunks) with
    | error msg => simp [concatChunks, hcreate, bind, Except.bind] at h
    | ok result =>
      cases hfold : chunks.foldlM appendChunk (0, result) with
      | error msg => simp [concatChunks, hcreate, hfold, bind, Except.bind] at h
      | ok x =>
        have hle := appendChunk_fold_fits (n := 0) hfold (Nat.zero_le _)
        have hfits := result.fits
        have hall : concatChunks junk chunks = .ok ⟨joined chunks, by omega⟩ := concatChunks_eq rfl
        rw [hall] at h
        cases h
        rfl
  · exact concatChunks_eq

theorem map_ok (c d : UInt8) : (· == d) <$> (.ok c : Checked UInt8) = .ok (c == d) := rfl

theorem ok_andM (a b : Bool) : ((.ok a : Checked Bool) <&&> .ok b) = .ok (a && b) := by
  cases a <;> rfl

/-- Inside the bounds that `find` has tested, the four reads decide the occurrence. -/
theorem isSeparator_eq (k : ℕ) (h : k + 3 < response.data.length) :
    ∃ b, isSeparator response k = .ok b ∧ (b = true ↔ OccursAt separator response.data k) := by
  have hfits := response.fits
  have h1 : add k 1 = ((k + 1 : ℕ) : ℤ) := add_index k 1 (by omega)
  have h2 : add k 2 = ((k + 2 : ℕ) : ℤ) := add_index k 2 (by omega)
  have h3 : add k 3 = ((k + 3 : ℕ) : ℤ) := add_index k 3 (by omega)
  refine ⟨response.data[k] == cr && (response.data[k + 1] == lf && (response.data[k + 2] == cr &&
    response.data[k + 3] == lf)), ?_, ?_⟩
  · rw [isSeparator, h1, h2, h3, get_of_lt k (by omega), get_of_lt (k + 1) (by omega),
      get_of_lt (k + 2) (by omega), get_of_lt (k + 3) (by omega)]
    simp only [map_ok, ok_andM]
  · have hdrop : response.data.drop k = response.data[k] :: response.data[k + 1] ::
        response.data[k + 2] :: response.data[k + 3] :: response.data.drop (k + 4) := by
      rw [List.drop_eq_getElem_cons (by omega), List.drop_eq_getElem_cons (by omega),
        List.drop_eq_getElem_cons (by omega), List.drop_eq_getElem_cons (by omega)]
    simp only [OccursAt, hdrop, separator, List.cons_prefix_cons, List.nil_prefix, and_true,
      Bool.and_eq_true, beq_iff_eq, @eq_comm _ cr, @eq_comm _ lf]

/-- `find` moves on only past indices where nothing occurs, and stops at the first occurrence or
where none fits any more. -/
theorem find_ok (response : Bytes) (k : ℕ) (hk : k ≤ response.data.length)
    (h : ∀ j < k, ¬ OccursAt separator response.data j) :
    ∃ m : ℕ, find response k = .ok m ∧ m ≤ response.data.length ∧
      ((∃ i, FirstAt separator response.data i ∧ m = i + 4) ∨
        (∀ i, ¬ OccursAt separator response.data i) ∧ m = response.data.length) := by
  have hfits := response.fits
  have h3 : add k 3 = ((k + 3 : ℕ) : ℤ) := add_index k 3 (by omega)
  induction n : response.data.length - k using Nat.strong_induction_on generalizing k with
  | h n ih =>
    rw [find_eq, h3]
    by_cases hend : response.data.length ≤ k + 3
    · refine ⟨_, if_pos (by simp only [Bytes.length]; omega), le_refl _, Or.inr ⟨?_, rfl⟩⟩
      intro i hi
      have hlen := occursAt_length hi
      simp only [separator, List.length_cons, List.length_nil] at hlen
      exact h i (by omega) hi
    · have hin : k + 3 < response.data.length := by omega
      obtain ⟨b, hb, hiff⟩ := isSeparator_eq k hin
      rw [if_neg (by simp only [Bytes.length]; omega)]
      cases b with
      | true =>
        have h4 : add k 4 = ((k + 4 : ℕ) : ℤ) := add_index k 4 (by omega)
        refine ⟨k + 4, ?_, by omega, Or.inl ⟨k, ⟨hiff.mp rfl, h⟩, rfl⟩⟩
        rw [hb, h4]
        rfl
      | false =>
        have h1 : add k 1 = ((k + 1 : ℕ) : ℤ) := add_index k 1 (by omega)
        have hno : ∀ j < k + 1, ¬ OccursAt separator response.data j := by
          intro j hj hocc
          rcases Nat.lt_succ_iff_lt_or_eq.mp hj with hlt | rfl
          · exact h j hlt hocc
          · exact absurd (hiff.mpr hocc) (by simp)
        obtain ⟨m, hm, hrest⟩ := ih _ (by omega) (k + 1) (by omega) hno
          (add_index (k + 1) 3 (by omega)) rfl
        refine ⟨m, ?_, hrest⟩
        rw [hb, h1]
        exact hm

/-- `body` is what follows the first empty line, and nothing if there is none. -/
def IsBody (response body : List UInt8) : Prop :=
  (∃ i, FirstAt separator response i ∧ body = response.drop (i + separator.length)) ∨
    (∀ i, ¬ OccursAt separator response i) ∧ body = []

theorem findBody_eq (response : Bytes) :
    ∃ body, findBody response = .ok body ∧ IsBody response.data body.data := by
  obtain ⟨m, hfind, hm, hwhere⟩ := find_ok response 0 (Nat.zero_le _) (by simp)
  have hsub : OcamlInt.sub response.length m = response.length - m := by
    have hl := length_small response
    have hle : (m : ℤ) ≤ response.length := Int.ofNat_le.mpr hm
    exact OcamlInt.wrap_of_small (by omega) (by omega)
  obtain ⟨body, hrest, hbody⟩ := sub_rest m hm
  refine ⟨body, ?_, ?_⟩
  · have hfind' : find response 0 = .ok (m : ℤ) := hfind
    simp only [bind, Except.bind, findBody, hfind', hsub, hrest]
  · rcases hwhere with ⟨i, hi, rfl⟩ | ⟨hnone, rfl⟩
    · exact .inl ⟨i, hi, hbody⟩
    · exact .inr ⟨hnone, by rw [hbody, List.drop_length]⟩

/-- The body for every way to cut the response: what follows the first empty line, and nothing if
there is none. No access is out of bounds, because the result is never an error. -/
theorem findBody_concatChunks (junk : ℕ → UInt8) (r : Bytes) (chunks : List Bytes)
    (h : joined chunks = r.data) :
    ∃ body, (concatChunks junk chunks >>= findBody) = .ok body ∧
      ((∃ i, FirstAt separator r.data i ∧ body.data = r.data.drop (i + separator.length)) ∨
        (∀ i, ¬ OccursAt separator r.data i) ∧ body.data = []) := by
  obtain ⟨body, hfind, hbody⟩ := findBody_eq r
  refine ⟨body, ?_, hbody⟩
  rw [concatChunks_eq h]
  exact hfind

/-- A separator that overlaps itself and lies in three chunks, one of them empty. -/
def straddling : List Bytes :=
  [⟨[72, 13], by decide⟩, ⟨[], by decide⟩, ⟨[10, 13], by decide⟩, ⟨[10, 13, 10, 66], by decide⟩]

theorem findBody_concatChunks_straddling :
    ∃ body, (concatChunks (fun _ => 0) straddling >>= findBody) = .ok body ∧
      ((∃ i, FirstAt separator [72, 13, 10, 13, 10, 13, 10, 66] i ∧
          body.data = [72, 13, 10, 13, 10, 13, 10, 66].drop (i + separator.length)) ∨
        (∀ i, ¬ OccursAt separator [72, 13, 10, 13, 10, 13, 10, 66] i) ∧ body.data = []) :=
  findBody_concatChunks (fun _ => 0) ⟨[72, 13, 10, 13, 10, 13, 10, 66], by decide⟩ straddling rfl

end PicoOcaml.Hello
