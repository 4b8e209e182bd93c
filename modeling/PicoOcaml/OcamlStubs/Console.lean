import Mathlib.Data.List.TakeWhile
import PicoOcaml.Locked
import PicoOcaml.OcamlStubs.Mutex
import PicoOcaml.Value

/-! What the two cores print, each call under the lock of the raw output. -/
namespace PicoOcaml.OcamlStubs.Console

abbrev Bytes := List UInt8

/-- What one section under the lock prints: the bytes of an OCaml string, the end of a line, or a
tagged integer. `pico_print` is the first two, each with a section of its own. -/
inductive Print
  | string (s : Bytes)
  | newline
  | int (n : Word)
deriving DecidableEq

/-! ### Filling the buffers -/

/-- `"buf[i] = src[i]"` for the first 127 bytes, and a NUL behind them. -/
def fill (s buf : Bytes) : Bytes :=
  let len := if s.length > 127 then 127 else s.length
  s.take len ++ [0] ++ buf.drop (len + 1)

/-- `'0' + (val % 10)`. -/
def digit (val : ℕ) : UInt8 := 48 + UInt8.ofNat (val % 10)

/-- `"while (val > 0) { tmp[j++] = '0' + (val % 10); val /= 10; }"`, the last byte stored first. -/
def pushDigits (val : ℕ) (tmp : Bytes) : Bytes :=
  if val > 0 then pushDigits (val / 10) (digit val :: tmp) else tmp
termination_by val

/-- `buf` of `pico_print_int`, up to its NUL: `tmp` is emptied from its end. -/
def printIntBuf (n : Word) : Bytes :=
  let val := (intVal n).toInt
  let sign := if val < 0 then [45] else []
  let val := if val < 0 then -val else val
  sign ++ (if val = 0 then [48] else pushDigits val.toNat []) ++ [0]

/-! ### Printing under the lock -/

/-- How far the section of a call has come. -/
inductive Place
  | printBuf (p : ℕ)
  | onStack (buf : Bytes) (p : ℕ)
  | newline (k : ℕ)

/-- The row of `print_buf` that belongs to a core, and where the core stands. -/
structure Own where
  printBuf : Bytes
  place : Place

def enter : Print → Own → Own
  | .string s, o => ⟨fill s o.printBuf, .printBuf 0⟩
  | .newline, o => { o with place := .newline 0 }
  | .int n, o => { o with place := .onStack (printIntBuf n) 0 }

/-- The byte at `p`; what lies behind a buffer is taken not to be a NUL. -/
def load (buf : Bytes) (p : ℕ) : UInt8 := buf.getD p 0xff

/-- One call of `putchar_raw`, whose bytes `out` collects. -/
def body (o : Own) (out : Bytes) : Option (Own × Bytes) :=
  match o.place with
  | .printBuf p =>
    if load o.printBuf p = 0 then none
    else some ({ o with place := .printBuf (p + 1) }, out ++ [load o.printBuf p])
  | .onStack buf p =>
    if load buf p = 0 then none
    else some ({ o with place := .onStack buf (p + 1) }, out ++ [load buf p])
  | .newline 0 => some ({ o with place := .newline 1 }, out ++ [13])
  | .newline 1 => some ({ o with place := .newline 2 }, out ++ [10])
  | .newline _ => none

def code : Locked.Code Print Own Bytes := ⟨enter, body⟩

abbrev State := Locked.State Core Print Own Bytes

/-! ### What a call prints -/

def ascii (s : String) : Bytes := s.toList.map fun c => UInt8.ofNat c.toNat

/-- Long strings lose their tail, and the rest of a string behind a NUL is not printed. -/
def Print.text : Print → Bytes
  | .string s => (s.take 127).takeWhile (· ≠ 0)
  | .newline => [13, 10]
  | .int n => ascii (toString (ocamlInt n))

/-! ### Decimal -/

theorem toNat_digitChar : ∀ n < 10, UInt8.ofNat n.digitChar.toNat = 48 + UInt8.ofNat n := by
  decide

theorem digit_eq {n : ℕ} (h : n < 10) : digit n = UInt8.ofNat n.digitChar.toNat := by
  rw [digit, Nat.mod_eq_of_lt h, toNat_digitChar n h]

/-- The loop writes the decimal digits, and nothing for 0. -/
theorem pushDigits_eq {val : ℕ} (h : 0 < val) (tmp : Bytes) :
    pushDigits val tmp = (Nat.toDigits 10 val).map (fun c => UInt8.ofNat c.toNat) ++ tmp := by
  induction val, tmp using pushDigits.induct with
  | case1 val tmp hpos ih =>
    rw [pushDigits, if_pos hpos]
    by_cases hlt : val < 10
    · have hzero : val / 10 = 0 := by omega
      rw [hzero, pushDigits, if_neg (by omega), Nat.toDigits_of_lt_base hlt, digit_eq hlt]
      rfl
    · have hmod : val % 10 < 10 := Nat.mod_lt val (by omega)
      have hdigit : digit val = UInt8.ofNat (val % 10).digitChar.toNat := by
        rw [← digit_eq hmod, digit, digit, Nat.mod_mod]
      rw [ih (by omega), Nat.toDigits_of_base_le (by omega) (Nat.le_of_not_lt hlt), hdigit]
      simp
  | case2 val tmp hneg => exact absurd h hneg

def sign (k : ℤ) : Bytes := if k < 0 then [45] else []

def digits (n : ℕ) : Bytes := (Nat.toDigits 10 n).map fun c => UInt8.ofNat c.toNat

theorem ascii_toString (k : ℤ) : ascii (toString k) = sign k ++ digits k.natAbs := by
  rw [Int.toString_eq_repr, Int.repr_eq_if, sign, digits]
  by_cases hk : 0 ≤ k
  · have hnat : k.toNat = k.natAbs := by omega
    rw [if_pos hk, if_neg (by omega), ascii, hnat, Nat.toList_repr]
    rfl
  · have hnat : (-k).toNat = k.natAbs := by omega
    rw [if_neg hk, if_pos (by omega), ascii, hnat, String.toList_append, List.map_append,
      Nat.toList_repr]
    rfl

theorem ocamlInt_bounds (n : Word) : -2 ^ 30 ≤ ocamlInt n ∧ ocamlInt n < 2 ^ 30 := by
  have hlow := BitVec.le_toInt n
  have hhigh := BitVec.toInt_lt (x := n)
  rw [ocamlInt]
  omega

theorem pushDigits_nil {val : ℕ} (h : 0 < val) : pushDigits val [] = digits val := by
  rw [pushDigits_eq h, List.append_nil, digits]

theorem printIntBuf_eq (n : Word) : printIntBuf n = ascii (toString (ocamlInt n)) ++ [0] := by
  have hval : (intVal n).toInt = ocamlInt n := toInt_intVal n
  simp only [printIntBuf, hval, ascii_toString]
  generalize ocamlInt n = k
  by_cases hk : k < 0
  · have hnat : (-k).toNat = k.natAbs := by omega
    have hpos : 0 < k.natAbs := by omega
    rw [if_pos hk, if_pos hk, if_neg (by omega), hnat, pushDigits_nil hpos, sign, if_pos hk]
  · have hnat : k.toNat = k.natAbs := by omega
    rw [if_neg hk, if_neg hk, sign, if_neg hk]
    by_cases h0 : k = 0
    · subst h0
      rfl
    · rw [if_neg h0, hnat, pushDigits_nil (by omega)]

theorem digits_length (n : Word) : (digits (ocamlInt n).natAbs).length ≤ 10 := by
  obtain ⟨hlow, hhigh⟩ := ocamlInt_bounds n
  rw [digits, List.length_map]
  exact (Nat.length_toDigits_le_iff (by omega) (by omega)).mpr (by omega)

/-- Every integer is printed in decimal, and `tmp[12]` and `buf[16]` are long enough for it. -/
theorem printInt_decimal (n : Word) :
    printIntBuf n = ascii (toString (ocamlInt n)) ++ [0] ∧
      (pushDigits (ocamlInt n).natAbs []).length ≤ 12 ∧ (printIntBuf n).length ≤ 16 := by
  have hdigits := digits_length n
  refine ⟨printIntBuf_eq n, ?_, ?_⟩
  · by_cases h0 : 0 < (ocamlInt n).natAbs
    · rw [pushDigits_nil h0]
      omega
    · rw [pushDigits, if_neg h0]
      simp
  · have hsign : (sign (ocamlInt n)).length ≤ 1 := by
      rw [sign]
      split <;> simp
    rw [printIntBuf_eq, ascii_toString, List.length_append, List.length_append, List.length_singleton]
    omega

/-! ### One section -/

theorem text_ne_zero (n : Word) : (0 : UInt8) ∉ ascii (toString (ocamlInt n)) := by
  rw [ascii_toString, sign, digits]
  intro hmem
  rcases List.mem_append.mp hmem with hsign | hdigit
  · split at hsign <;> simp at hsign
  · obtain ⟨c, hc, h0⟩ := List.mem_map.mp hdigit
    obtain ⟨hlow, hhigh⟩ := Char.isDigit_iff_toNat.mp
      (Nat.isDigit_of_mem_toDigits (by omega) (by omega) hc)
    have hlow : 48 ≤ c.toNat := hlow
    have hhigh : c.toNat ≤ 57 := hhigh
    have hmod : c.toNat % 2 ^ 8 = 0 := by
      rw [← UInt8.toNat_ofNat', h0]
      rfl
    omega

/-- Printing a buffer goes from any place in it up to its first NUL. -/
theorem ends_scan (place : ℕ → Place) (pre out : Bytes) {buf text rest : Bytes} {o : Own}
    (hbody : ∀ p out, body { o with place := place p } out = if load buf p = 0 then none
      else some ({ o with place := place (p + 1) }, out ++ [load buf p]))
    (hbuf : buf = pre ++ text ++ 0 :: rest) (hne : 0 ∉ text) :
    Locked.Ends code { o with place := place pre.length } out
      { o with place := place (pre.length + text.length) } (out ++ text) := by
  induction text generalizing pre out with
  | nil =>
    have hload : load buf pre.length = 0 := by simp [load, hbuf]
    have hdone : code.body { o with place := place pre.length } out = none :=
      (hbody _ _).trans (if_pos hload)
    simpa using Locked.Ends.done hdone
  | cons c text ih =>
    have hload : load buf pre.length = c := by simp [load, hbuf]
    have hc : c ≠ 0 := fun h => hne (h ▸ List.mem_cons_self)
    have hstep : code.body { o with place := place pre.length } out =
        some ({ o with place := place (pre.length + 1) }, out ++ [c]) :=
      (hbody _ _).trans (by rw [hload, if_neg hc])
    have hrest := ih (pre ++ [c]) (out ++ [c]) (by simpa using hbuf)
      fun h => hne (List.mem_cons_of_mem _ h)
    rw [List.length_append, List.length_singleton] at hrest
    have hends := Locked.Ends.step hstep hrest
    simpa [Nat.add_assoc, Nat.add_comm 1] using hends

theorem takeWhile_split (t : Bytes) (rest : Bytes) :
    ∃ rest', t ++ 0 :: rest = t.takeWhile (· ≠ 0) ++ 0 :: rest' := by
  induction t with
  | nil => exact ⟨rest, rfl⟩
  | cons c t ih =>
    by_cases hc : c = 0
    · exact ⟨t ++ 0 :: rest, by simp [hc]⟩
    · obtain ⟨rest', h⟩ := ih
      exact ⟨rest', by simp [hc, h]⟩

/-- Where a call leaves its core. -/
def Print.after : Print → Own → Own
  | .string s, o => ⟨fill s o.printBuf, .printBuf (Print.string s).text.length⟩
  | .newline, o => { o with place := .newline 2 }
  | .int n, o => { o with place := .onStack (printIntBuf n) (Print.int n).text.length }

theorem fill_eq (s buf : Bytes) : ∃ rest, fill s buf = (Print.string s).text ++ 0 :: rest := by
  have htake : s.take (if s.length > 127 then 127 else s.length) = s.take 127 := by
    split
    · rfl
    · rw [List.take_length, List.take_of_length_le (by omega)]
  obtain ⟨rest, h⟩ := takeWhile_split (s.take 127)
    (buf.drop ((if s.length > 127 then 127 else s.length) + 1))
  refine ⟨rest, ?_⟩
  rw [fill, htake, Print.text, ← h, List.append_assoc]
  rfl

theorem computes : Locked.Computes code (fun job o out => (job.after o, out ++ job.text))
    fun _ => True := by
  refine ⟨fun job o out _ => ?_, fun _ _ _ _ => trivial⟩
  cases job with
  | string s =>
    obtain ⟨rest, hfill⟩ := fill_eq s o.printBuf
    have hne : (0 : UInt8) ∉ (Print.string s).text := by
      intro hmem
      simpa using List.mem_takeWhile_imp hmem
    have hends := ends_scan .printBuf [] out (o := ⟨fill s o.printBuf, .printBuf 0⟩)
      (fun p out => rfl) hfill hne
    rw [List.length_nil, Nat.zero_add] at hends
    exact hends
  | newline =>
    have h0 : code.body { o with place := .newline 0 } out =
        some ({ o with place := .newline 1 }, out ++ [13]) := rfl
    have h1 : code.body { o with place := .newline 1 } (out ++ [13]) =
        some ({ o with place := .newline 2 }, out ++ [13] ++ [10]) := rfl
    have h2 : code.body { o with place := .newline 2 } (out ++ [13] ++ [10]) = none := rfl
    simpa [code, enter, Print.after, Print.text] using Locked.Ends.step h0 (.step h1 (.done h2))
  | int n =>
    have hbuf : printIntBuf n = [] ++ (Print.int n).text ++ 0 :: [] := printIntBuf_eq n
    have hends := ends_scan (.onStack (printIntBuf n)) [] out (o := o)
      (fun p out => rfl) hbuf (text_ne_zero n)
    rw [List.length_nil, Nat.zero_add] at hends
    exact hends

theorem body_prefix (o : Own) (out : Bytes) (o' : Own) (out' : Bytes)
    (h : body o out = some (o', out')) : out <+: out' := by
  unfold body at h
  split at h
  · split at h
    · cases h
    · cases h
      exact List.prefix_append ..
  · split at h
    · cases h
    · cases h
      exact List.prefix_append ..
  · cases h
    exact List.prefix_append ..
  · cases h
    exact List.prefix_append ..
  · cases h

/-! ### Both cores -/

variable {out : Bytes} {own : Core → Own} {xs : List (Locked.Act Core Print × State)}

theorem foldl_text (l : List (Core × Print)) (x : Bytes × (Core → Own)) :
    (l.foldl (Locked.run fun job o out => (job.after o, out ++ job.text)) x).1 =
      x.1 ++ l.flatMap fun y => y.2.text := by
  induction l generalizing x with
  | nil => simp
  | cons y l ih =>
    rw [List.foldl_cons, ih, List.flatMap_cons, ← List.append_assoc]
    rfl

/-- The output is made of whole texts, each core's in the order of its calls, and of the beginning of
one text when a core is printing; the lock always gets free again. -/
theorem console (h : Lts.Run (Locked.Step code) (.initial out own) xs) :
    let s := Lts.last (.initial out own) xs
    (∃ begun, s.data = out ++ s.log.flatMap (fun x => x.2.text) ++ begun ∧
      (begun = [] ∨ ∃ core job, s.pc core = .inside job ∧ begun <+: job.text)) ∧
    (∀ core, s.jobs core = Lts.gather (Locked.begun core) (.initial out own) xs) ∧
    (s.flag = true → ∃ core n,
      ((List.replicate n (.step core)).foldl (Locked.State.next code) s).flag = false) := by
  intro s
  obtain ⟨d, own', hatomic⟩ := Locked.atomic h
  obtain ⟨-, heq⟩ := hatomic.serial.eq_fold computes trivial
  have hd : d = out ++ s.log.flatMap fun x => x.2.text := by
    have hfold := foldl_text s.log (out, own)
    rw [← heq] at hfold
    exact hfold
  refine ⟨?_, Locked.order h, hatomic.leaves computes trivial⟩
  by_cases hflag : s.flag = true
  · obtain ⟨core, job, hpc⟩ := hatomic.taken hflag
    obtain ⟨hlow, hhigh⟩ := hatomic.between (R := List.IsPrefix) List.prefix_refl
      (fun _ _ _ => List.IsPrefix.trans) body_prefix computes trivial hpc
    obtain ⟨begun, hbegun⟩ := hlow
    rw [← hbegun, List.prefix_append_right_inj] at hhigh
    exact ⟨begun, by rw [← hd, hbegun], .inr ⟨core, job, hpc, hhigh⟩⟩
  · refine ⟨[], ?_, .inl rfl⟩
    rw [List.append_nil, ← hd]
    exact hatomic.idle (by simpa using hflag)

/-- Core 1 asks for the lock while core 0 prints. -/
def contended : List (Locked.Act Core Print) :=
  [.begin .zero (.string [79, 75]), .begin .one .newline, .step .zero, .step .one, .step .zero,
    .step .one, .step .zero, .step .zero, .step .one, .step .one]

def blank : State := .initial [] fun _ => ⟨List.replicate 128 0, .newline 2⟩

theorem console_contended :
    let s := Lts.last blank (Lts.trace (Locked.State.next code) blank contended)
    (∃ begun, s.data = [] ++ s.log.flatMap (fun x => x.2.text) ++ begun ∧
      (begun = [] ∨ ∃ core job, s.pc core = .inside job ∧ begun <+: job.text)) ∧
    (∀ core, s.jobs core = Lts.gather (Locked.begun core) blank
      (Lts.trace (Locked.State.next code) blank contended)) ∧
    (s.flag = true → ∃ core n,
      ((List.replicate n (.step core)).foldl (Locked.State.next code) s).flag = false) :=
  console (Locked.run_of_allowed (by decide))

end PicoOcaml.OcamlStubs.Console
