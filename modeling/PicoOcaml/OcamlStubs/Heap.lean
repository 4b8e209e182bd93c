import PicoOcaml.Lts
import PicoOcaml.Value

/-! The heap between `__end__` and `__HeapLimit`, as `_sbrk` and `mmap` cut it up. Addresses are
words, so sums of them wrap. -/
namespace PicoOcaml.OcamlStubs.Heap

/-- `ORIGIN(RAM) + LENGTH(RAM)`. -/
def heapLimit : Word := 0x20000000 + 520 * 1024

/-- `__end__`, which the linker places in RAM behind the program's data. -/
structure Layout where
  end_ : Word
  inRam : 0x20000000 ≤ end_.toNat
  fits : end_.toNat ≤ heapLimit.toNat

/-- The static `heap_ptr`, 0 being `NULL`, and the bytes of memory. -/
structure Memory where
  heapPtr : Word
  mem : Word → UInt8

def Memory.initial (mem : Word → UInt8) : Memory := ⟨0, mem⟩

variable (l : Layout)

/-- The first call starts the heap at `__end__`. -/
def Memory.top (h : Memory) : Word := if h.heapPtr = 0 then l.end_ else h.heapPtr

/-- The answers `(void *)-1` and `MAP_FAILED`. -/
def failed : Word := -1

def sbrk (incr : Word) (h : Memory) : Word × Memory :=
  let h := if h.heapPtr = 0 then { h with heapPtr := l.end_ } else h
  let prevHeap := h.heapPtr
  let newHeap := h.heapPtr + incr
  if newHeap > heapLimit then (failed, h)
  else (prevHeap, { h with heapPtr := newHeap })

def memset (p : Word) (len : Word) (mem : Word → UInt8) : Word → UInt8 :=
  fun a => if (a - p).toNat < len.toNat then 0 else mem a

/-- "Round up to 8-byte alignment". -/
def roundUp (length : Word) : Word := (length + 7) &&& ~~~(7 : Word)

/-- `mapFixed` says whether the flags contain `MAP_FIXED`. -/
def mmap (addr : Word) (mapFixed : Bool) (length : Word) (h : Memory) : Word × Memory :=
  if addr ≠ 0 ∧ mapFixed = true then (addr, h) else
  let length := roundUp length
  let (p, h) := sbrk l length h
  if p ≠ failed then (p, { h with mem := memset p length h.mem }) else (failed, h)

/-! ### What has been handed out -/

structure Region where
  start : ℕ
  size : ℕ
deriving DecidableEq

def Region.Mem (r : Region) (a : ℕ) : Prop := r.start ≤ a ∧ a < r.start + r.size

/-- What is left of a region below `top`. -/
def Region.below (top : ℕ) (r : Region) : Region := ⟨r.start, min r.size (top - r.start)⟩

/-- Besides the calls that the heap answers, the program writes to memory. -/
inductive Call
  | sbrk (incr : Word)
  | mmap (mapFixed : Bool) (length : Word)
  | store (a : Word) (byte : UInt8)

/-- The memory and the regions returned and not given back. -/
structure State where
  memory : Memory
  regions : List Region

def State.initial (mem : Word → UInt8) : State := ⟨.initial mem, []⟩

/-- A call that raises `heap_ptr` returns the bytes in between; one that lowers it takes back
what lies above. -/
def State.next (s : State) : Call → State
  | .sbrk incr =>
    let (p, h) := sbrk l incr s.memory
    ⟨h, if p = failed then s.regions
      else if 0 ≤ incr.toInt then ⟨p.toNat, incr.toNat⟩ :: s.regions
      else s.regions.map (Region.below h.heapPtr.toNat)⟩
  | .mmap mapFixed length =>
    let (p, h) := mmap l 0 mapFixed length s.memory
    ⟨h, if p = failed then s.regions else ⟨p.toNat, (roundUp length).toNat⟩ :: s.regions⟩
  | .store a byte => { s with memory.mem := Function.update s.memory.mem a byte }

/-- `heap_ptr` points into the heap. -/
def InHeap (h : Memory) : Prop :=
  l.end_.toNat ≤ h.heapPtr.toNat ∧ h.heapPtr.toNat ≤ heapLimit.toNat

/-- A region that `mmap` may return for `length` bytes. -/
structure Fresh (s t : State) (length : Word) (r : Region) : Prop where
  large : length.toNat ≤ r.size
  inside : l.end_.toNat ≤ r.start ∧ r.start + r.size ≤ heapLimit.toNat
  zeroed : ∀ a, r.Mem a.toNat → t.memory.mem a = 0
  disjoint : ∀ r' ∈ s.regions, ∀ a, ¬ (r.Mem a ∧ r'.Mem a)

/-- What one call owes its caller. -/
def State.Safe (s : State) (o : Call) (t : State) : Prop :=
  match o with
  | .sbrk incr => InHeap l t.memory ∧
    ((sbrk l incr s.memory).1 = failed → t.memory.heapPtr = s.memory.top l)
  | .mmap mapFixed length =>
    let p := (mmap l 0 mapFixed length s.memory).1
    InHeap l t.memory ∧ (p = failed → t.memory.heapPtr = s.memory.top l) ∧
      (p ≠ failed → 0 < length.toNat → Fresh l s t length ⟨p.toNat, (roundUp length).toNat⟩)
  | .store _ _ => True

/-- A negative `_sbrk` stays above `__end__` or below 0, and the end of what `mmap` asks for is
still an address. -/
def State.Fits (s : State) (o : Call) (_ : State) : Prop :=
  match o with
  | .sbrk incr =>
    (s.memory.top l).toNat + incr.toInt < 0 ∨
      (l.end_.toNat : ℤ) ≤ (s.memory.top l).toNat + incr.toInt
  | .mmap _ length => (s.memory.top l).toNat + (length.toNat + 7) / 8 * 8 < 2 ^ 32
  | .store _ _ => True

/-! ### One call -/

variable {l} {s t : State} {h : Memory} {incr length : Word} {o : Call}

theorem toNat_heapLimit : heapLimit.toNat = 0x20082000 := rfl

theorem sbrk_eq : sbrk l incr h =
    if heapLimit.toNat < (h.top l + incr).toNat then (failed, { h with heapPtr := h.top l })
    else (h.top l, { h with heapPtr := h.top l + incr }) := by
  obtain ⟨p, mem⟩ := h
  by_cases hp : p = 0
  · subst hp
    rfl
  · simp only [sbrk, Memory.top, if_neg hp]
    rfl

/-- The mask of a power of two clears the bits below it. -/
theorem and_not_pred {alignment : Word} {k : ℕ}
    (x : Word) (h : alignment.toNat = 2 ^ k) : x &&& ~~~(alignment - 1) = x >>> k <<< k := by
  have hk : 2 ^ k < 2 ^ 32 := h ▸ alignment.isLt
  have hpos := Nat.two_pow_pos k
  have hmask : (alignment - 1).toNat = 2 ^ k - 1 := by
    have h1 : (1 : Word).toNat = 1 := rfl
    rw [BitVec.toNat_sub, h, h1]
    omega
  apply BitVec.eq_of_getLsbD_eq
  intro i hi
  have hbit : (alignment - 1).getLsbD i = decide (i < k) := by
    rw [BitVec.getLsbD, hmask, Nat.testBit_two_pow_sub_one]
  rw [BitVec.getLsbD_and, BitVec.getLsbD_not, hbit, BitVec.getLsbD_shiftLeft,
    BitVec.getLsbD_ushiftRight]
  by_cases hik : i < k
  · simp [hik]
  · have hki : k + (i - k) = i := by omega
    simp [hik, hi, hki]

theorem toNat_and_not_pred {alignment : Word} {k : ℕ} (x : Word) (h : alignment.toNat = 2 ^ k) :
    (x &&& ~~~(alignment - 1)).toNat = x.toNat / 2 ^ k * 2 ^ k := by
  rw [and_not_pred x h, BitVec.toNat_shiftLeft, BitVec.toNat_ushiftRight, Nat.shiftRight_eq_div_pow,
    Nat.shiftLeft_eq, Nat.mod_eq_of_lt]
  exact (Nat.div_mul_le_self _ _).trans_lt x.isLt

theorem toNat_roundUp (length : Word) : (roundUp length).toNat =
      (length.toNat + 7) % 2 ^ 32 / 8 * 8 := by
  have h7 : (7 : Word).toNat = 7 := rfl
  have h8 : (8 : Word).toNat = 2 ^ 3 := rfl
  have h87 : (8 : Word) - 1 = 7 := rfl
  have hmask := toNat_and_not_pred (length + 7) h8
  rw [h87] at hmask
  rw [roundUp, hmask, BitVec.toNat_add, h7]
  omega

/-- The pointer, once set, is inside the heap, and nothing handed out lies above it. -/
structure Inv (l : Layout) (s : State) : Prop where
  low : l.end_.toNat ≤ (s.memory.top l).toNat
  high : (s.memory.top l).toNat ≤ heapLimit.toNat
  below : ∀ r ∈ s.regions, r.size = 0 ∨ r.start + r.size ≤ (s.memory.top l).toNat

theorem Inv.top_ne_failed (hi : Inv l s) : s.memory.top l ≠ failed := by
  intro hf
  have hhigh := hi.high
  rw [hf] at hhigh
  exact absurd hhigh (by decide)

/-- A pointer inside the heap is not `NULL`, so it is where the next call starts. -/
theorem InHeap.top_eq (hh : InHeap l h) : h.top l = h.heapPtr := by
  have hne : h.heapPtr ≠ 0 := by
    intro h0
    have hlow := hh.1
    have hram := l.inRam
    rw [h0] at hlow
    change l.end_.toNat ≤ 0 at hlow
    omega
  exact if_neg hne

theorem Inv.inHeap (hi : Inv l s) {mem : Word → UInt8} : InHeap l ⟨s.memory.top l, mem⟩ :=
  ⟨hi.low, hi.high⟩

theorem toNat_add_incr (hi : Inv l s) (incr : Word) :
    let a : ℤ := (s.memory.top l).toNat + incr.toInt
    (0 ≤ a → ((s.memory.top l + incr).toNat : ℤ) = a) ∧
      (a < 0 → heapLimit.toNat < (s.memory.top l + incr).toNat) := by
  intro a
  have hhigh := hi.high
  have hlt := incr.isLt
  have htop := (s.memory.top l).isLt
  simp only [a, BitVec.toInt_eq_toNat_cond, BitVec.toNat_add, toNat_heapLimit] at hhigh ⊢
  split <;> omega

/-- A state whose pointer is in the heap keeps the invariant if the regions end below it. -/
theorem InHeap.inv {rs : List Region} (hh : InHeap l h)
    (hb : ∀ r ∈ rs, r.size = 0 ∨ r.start + r.size ≤ h.heapPtr.toNat) : Inv l ⟨h, rs⟩ := by
  have htop := hh.top_eq
  refine ⟨?_, ?_, ?_⟩
  · simpa only [htop] using hh.1
  · simpa only [htop] using hh.2
  · simpa only [htop] using hb

/-- `_sbrk` either leaves the pointer where it was or moves it by `incr`, not beyond the limit. -/
theorem sbrk_cases (hi : Inv l s) (incr : Word) :
    (sbrk l incr s.memory = (failed, { s.memory with heapPtr := s.memory.top l }) ∧
      heapLimit.toNat < (s.memory.top l + incr).toNat) ∨
    (sbrk l incr s.memory =
        (s.memory.top l, { s.memory with heapPtr := s.memory.top l + incr }) ∧
      ((s.memory.top l + incr).toNat : ℤ) = (s.memory.top l).toNat + incr.toInt ∧
      (s.memory.top l + incr).toNat ≤ heapLimit.toNat) := by
  obtain ⟨hpos, hneg⟩ := toNat_add_incr hi incr
  by_cases hlim : heapLimit.toNat < (s.memory.top l + incr).toNat
  · left
    exact ⟨by rw [sbrk_eq, if_pos hlim], hlim⟩
  · right
    refine ⟨by rw [sbrk_eq, if_neg hlim], hpos ?_, by omega⟩
    by_contra hlt
    exact hlim (hneg (by omega))

theorem next_sbrk (hi : Inv l s) (hf : s.Fits l (.sbrk incr) t) :
    Inv l (s.next l (.sbrk incr)) ∧ s.Safe l (.sbrk incr) (s.next l (.sbrk incr)) := by
  rcases sbrk_cases hi incr with ⟨heq, -⟩ | ⟨heq, hnew, hle⟩
  · have hin : InHeap l { s.memory with heapPtr := s.memory.top l } := hi.inHeap
    simp only [State.next, State.Safe, heq, if_true]
    exact ⟨hin.inv hi.below, hin, fun _ => trivial⟩
  · have hne := hi.top_ne_failed
    have hlow : (l.end_.toNat : ℤ) ≤ (s.memory.top l + incr).toNat := by
      rcases hf with hf | hf <;> omega
    have hin : InHeap l { s.memory with heapPtr := s.memory.top l + incr } :=
      ⟨by simp only; omega, hle⟩
    simp only [State.next, State.Safe, heq, if_neg hne]
    refine ⟨hin.inv fun r hr => ?_, hin, fun h => absurd h hne⟩
    simp only
    split at hr
    · have hincr : incr.toInt = incr.toNat := by
        rename_i hpos
        rw [BitVec.toInt_eq_toNat_cond] at hpos ⊢
        split at hpos <;> omega
      rcases List.mem_cons.mp hr with rfl | hr
      · simp only
        omega
      · have := hi.below r hr
        omega
    · obtain ⟨r', -, rfl⟩ := List.mem_map.mp hr
      simp only [Region.below]
      omega

/-- The rounded length, while it fits a word. -/
theorem toNat_roundUp_of_lt (hlt : (length.toNat + 7) / 8 * 8 < 2 ^ 32) :
    (roundUp length).toNat = (length.toNat + 7) / 8 * 8 := by
  have hl := length.isLt
  rw [toNat_roundUp]
  omega

theorem toNat_top_add {w : Word} (hw : (s.memory.top l).toNat + w.toNat < 2 ^ 32) :
    (s.memory.top l + w).toNat = (s.memory.top l).toNat + w.toNat := by
  rw [BitVec.toNat_add, Nat.mod_eq_of_lt hw]

theorem mmap_eq (mapFixed : Bool) : mmap l 0 mapFixed length h =
    if (sbrk l (roundUp length) h).1 ≠ failed then
      ((sbrk l (roundUp length) h).1,
        { (sbrk l (roundUp length) h).2 with
          mem := memset (sbrk l (roundUp length) h).1 (roundUp length)
            (sbrk l (roundUp length) h).2.mem })
    else (failed, (sbrk l (roundUp length) h).2) := by
  simp [mmap]

theorem memset_zero {p len a : Word} {mem : Word → UInt8}
    (ha : p.toNat ≤ a.toNat ∧ a.toNat < p.toNat + len.toNat) : memset p len mem a = 0 := by
  have hsub : (a - p).toNat = a.toNat - p.toNat := by
    rw [BitVec.toNat_sub]
    have := p.isLt
    omega
  exact if_pos (by omega)

theorem next_mmap {mapFixed : Bool} (hi : Inv l s) (hf : s.Fits l (.mmap mapFixed length) t) :
    Inv l (s.next l (.mmap mapFixed length)) ∧
      s.Safe l (.mmap mapFixed length) (s.next l (.mmap mapFixed length)) := by
  change (s.memory.top l).toNat + (length.toNat + 7) / 8 * 8 < 2 ^ 32 at hf
  have hround : (roundUp length).toNat = (length.toNat + 7) / 8 * 8 :=
    toNat_roundUp_of_lt (by omega)
  have hadd : (s.memory.top l + roundUp length).toNat =
      (s.memory.top l).toNat + (roundUp length).toNat := toNat_top_add (by omega)
  have hne := hi.top_ne_failed
  rcases sbrk_cases hi (roundUp length) with ⟨heq, -⟩ | ⟨heq, -, hle⟩
  · have hin : InHeap l { s.memory with heapPtr := s.memory.top l } := hi.inHeap
    simp only [State.next, State.Safe, mmap_eq, heq, ne_eq, not_true_eq_false, if_false, if_true]
    exact ⟨hin.inv hi.below, hin, fun _ => trivial, fun h => h.elim⟩
  · have hlow := hi.low
    have hin : InHeap l ⟨s.memory.top l + roundUp length,
        memset (s.memory.top l) (roundUp length) s.memory.mem⟩ := ⟨by simp only; omega, hle⟩
    simp only [State.next, State.Safe, mmap_eq, heq, ne_eq, if_pos hne, if_neg hne]
    refine ⟨hin.inv ?_, hin, fun h => absurd h hne, fun _ hpos => ?_⟩
    · intro r hr
      simp only
      rcases List.mem_cons.mp hr with rfl | hr
      · simp only
        omega
      · have := hi.below r hr
        omega
    · refine ⟨by simp only; omega, ⟨hlow, by simp only; omega⟩, fun a ha => ?_, ?_⟩
      · exact memset_zero ha
      · rintro r hr a ⟨⟨ha, -⟩, hra, hra'⟩
        have := hi.below r hr
        simp only at ha
        omega

/-- A pointer inside the heap cannot be the sum of a pointer and a length that wraps. -/
theorem fits_of_safe (hi : Inv l s) (hs : s.Safe l o (s.next l o)) : s.Fits l o t := by
  have htop := hi.high
  rw [toNat_heapLimit] at htop
  cases o with
  | store a byte => trivial
  | sbrk incr =>
    by_contra hf
    simp only [State.Fits, not_or, not_lt, not_le] at hf
    rcases sbrk_cases hi incr with ⟨heq, hlim⟩ | ⟨heq, hnew, -⟩
    · have hpos := (toNat_add_incr hi incr).1 hf.1
      have hend := l.fits
      omega
    · simp only [State.Safe, State.next, heq] at hs
      have hlow := hs.1.1
      simp only at hlow
      omega
  | mmap mapFixed length =>
    by_contra hf
    simp only [State.Fits, not_lt] at hf
    have hl := length.isLt
    have hround := toNat_roundUp length
    have hnew : (s.memory.top l + roundUp length).toNat ≤ (s.memory.top l).toNat := by
      rw [BitVec.toNat_add]
      omega
    rcases sbrk_cases hi (roundUp length) with ⟨heq, hlim⟩ | ⟨heq, -, hle⟩
    · have := hi.high
      omega
    · simp only [State.Safe, mmap_eq, heq, ne_eq, if_pos hi.top_ne_failed] at hs
      have hfresh := hs.2.2 hi.top_ne_failed (by omega)
      have hlarge := hfresh.large
      have hinside := hfresh.inside.2
      simp only [toNat_heapLimit] at hlarge hinside
      omega

theorem next_safe (hi : Inv l s) (hf : s.Fits l o t) :
    Inv l (s.next l o) ∧ s.Safe l o (s.next l o) := by
  cases o with
  | sbrk incr => exact next_sbrk hi hf
  | mmap mapFixed length => exact next_mmap hi hf
  | store a byte => exact ⟨⟨hi.low, hi.high, hi.below⟩, trivial⟩

theorem initial_inv (l : Layout) (mem : Word → UInt8) : Inv l (State.initial mem) := by
  refine ⟨le_rfl, l.fits, ?_⟩
  rintro r ⟨⟩

/-- The heap keeps its promises over a sequence of calls exactly when no `_sbrk` goes below
`__end__` and no `mmap` asks for a region that ends beyond the address space. -/
theorem arena_safe_iff (l : Layout) (mem : Word → UInt8) (calls : List Call) :
    let xs := Lts.trace (State.next l) (State.initial mem) calls
    Lts.Run (State.Fits l) (State.initial mem) xs ↔
      Lts.Run (State.Safe l) (State.initial mem) xs := by
  intro xs
  refine Lts.run_trace.congr (p := Inv l) (initial_inv l mem) ?_ ?_
  · rintro s o t hi rfl
    exact ⟨fun hf => (next_safe hi hf).2, fits_of_safe hi⟩
  · rintro s o t hi rfl hs
    exact (next_safe hi (fits_of_safe (t := s.next l o) hi hs)).1

/-- A length that rounds up to 0 is answered with the address of no bytes at all. -/
theorem arena_unsafe :
    ¬ ∀ (l : Layout) (mem : Word → UInt8) (calls : List Call),
      Lts.Run (State.Safe l) (State.initial mem)
        (Lts.trace (State.next l) (State.initial mem) calls) := by
  intro h
  obtain ⟨⟨-, -, hfresh⟩, -⟩ := h ⟨0x20010000, by decide, by decide⟩ (fun _ => 0)
    [.mmap false 0xFFFFFFFF]
  exact absurd (hfresh (by decide) (by decide)).large (by decide)

end PicoOcaml.OcamlStubs.Heap
