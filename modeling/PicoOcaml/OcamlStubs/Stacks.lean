import PicoOcaml.OcamlStubs.Heap

/-! The heap and the two regions that hold the stacks of the cores. -/
namespace PicoOcaml.OcamlStubs.Heap

/-- `SCRATCH_X`, with the stack of core 1. -/
def scratchX : Region := ⟨0x20080000, 4 * 1024⟩

/-- `SCRATCH_Y`, with the stack of core 0. -/
def scratchY : Region := ⟨0x20081000, 4 * 1024⟩

def InScratch (a : ℕ) : Prop := scratchX.Mem a ∨ scratchY.Mem a

def enomem : ℤ := 12

variable (l : Layout)

/-- `_sbrk` with the `errno` that it leaves. -/
def sbrkErrno (incr : Word) (h : Memory) (errno : ℤ) : (Word × ℤ) × Memory :=
  let (p, t) := sbrk l incr h
  ((p, if h.top l + incr > heapLimit then enomem else errno), t)

/-- What a program passes to `_sbrk` to get memory. -/
abbrev Increment := { incr : Word // 0 ≤ incr.toInt }

def State.grow (s : State) (incr : Increment) : State := s.next l (.sbrk incr)

/-- The bytes that a request asks for. -/
def State.asked (s : State) (incr : Increment) : Region := ⟨(s.memory.top l).toNat, incr.1.toNat⟩

/-- No block reaches into the stacks, and a request that would is refused and changes nothing. -/
def State.Apart (s : State) (incr : Increment) (t : State) : Prop :=
  (∀ r ∈ t.regions, ∀ a, r.Mem a → ¬ InScratch a) ∧
    ((∃ a, (s.asked l incr).Mem a ∧ InScratch a) →
      t.memory.heapPtr = s.memory.top l ∧ t.regions = s.regions ∧
        ∀ errno, (sbrkErrno l incr s.memory errno).1 = (failed, enomem))

/-- The request is for nothing, ends below the stacks, or lies beyond the limit that is checked. -/
def State.Short (s : State) (incr : Increment) (_ : State) : Prop :=
  incr.1.toNat = 0 ∨ (s.memory.top l).toNat + incr.1.toNat ≤ scratchX.start ∨
    heapLimit.toNat < (s.memory.top l).toNat + incr.1.toNat

variable {l} {s t : State} {incr : Increment}

theorem inScratch_iff (a : ℕ) : InScratch a ↔ 0x20080000 ≤ a ∧ a < 0x20082000 := by
  simp only [InScratch, Region.Mem, scratchX, scratchY]
  omega

theorem Increment.toInt_eq (incr : Increment) : incr.1.toInt = incr.1.toNat := by
  have h := incr.2
  rw [BitVec.toInt_eq_toNat_cond] at h ⊢
  have := incr.1.isLt
  split at h <;> omega

/-- The heap is in order and nothing handed out lies in the stacks. -/
def Clear (l : Layout) (s : State) : Prop :=
  Inv l s ∧ ∀ r ∈ s.regions, ∀ a, r.Mem a → ¬ InScratch a

theorem inv_grow (hi : Inv l s) : Inv l (s.grow l incr) := by
  have hlow := hi.low
  have hincr := incr.toInt_eq
  exact (next_sbrk (t := s) hi (Or.inr (by omega))).1

/-- A request is refused, or its block is what was asked for. -/
theorem grow_cases (incr : Increment) (hi : Inv l s) :
    (heapLimit.toNat < (s.memory.top l).toNat + incr.1.toNat ∧
      s.grow l incr = ⟨{ s.memory with heapPtr := s.memory.top l }, s.regions⟩ ∧
        ∀ errno, (sbrkErrno l incr s.memory errno).1 = (failed, enomem)) ∨
    ((s.memory.top l).toNat + incr.1.toNat ≤ heapLimit.toNat ∧
      (s.grow l incr).regions = s.asked l incr :: s.regions) := by
  have hincr := incr.toInt_eq
  have hsum := (toNat_add_incr hi incr.1).1 (by omega)
  rcases sbrk_cases hi incr.1 with ⟨heq, hlim⟩ | ⟨heq, -, hle⟩
  · left
    refine ⟨by omega, ?_, ?_⟩
    · simp only [State.grow, State.next, heq, if_true]
    · intro errno
      have hover : s.memory.top l + incr.1 > heapLimit := BitVec.lt_def.mpr hlim
      simp only [sbrkErrno, heq, if_pos hover]
  · right
    refine ⟨by omega, ?_⟩
    simp only [State.grow, State.next, heq, if_neg hi.top_ne_failed, if_pos incr.2, State.asked]

theorem asked_clear (h : s.Short l incr t)
    (hle : (s.memory.top l).toNat + incr.1.toNat ≤ heapLimit.toNat)
    {a : ℕ} (ha : (s.asked l incr).Mem a) : ¬ InScratch a := by
  have hstart : scratchX.start = 0x20080000 := rfl
  rw [inScratch_iff]
  obtain ⟨hlo, hhi⟩ := ha
  simp only [State.asked] at hlo hhi
  rcases h with h | h | h <;> omega

theorem apart_iff_short (hc : Clear l s) : s.Short l incr t ↔ s.Apart l incr (s.grow l incr) := by
  obtain ⟨hi, hclear⟩ := hc
  rcases grow_cases incr hi with ⟨hlim, hgrow, hfail⟩ | ⟨hle, hgrow⟩
  · have hapart : s.Apart l incr (s.grow l incr) := by
      rw [hgrow]
      exact ⟨hclear, fun _ => ⟨rfl, rfl, hfail⟩⟩
    exact ⟨fun _ => hapart, fun _ => Or.inr (Or.inr hlim)⟩
  · constructor
    · intro hshort
      refine ⟨?_, ?_⟩
      · intro r hr a ha
        rw [hgrow] at hr
        rcases List.mem_cons.mp hr with rfl | hr
        · exact asked_clear hshort hle ha
        · exact hclear r hr a ha
      · rintro ⟨a, ha, hin⟩
        exact absurd hin (asked_clear hshort hle ha)
    · rintro ⟨hblocks, -⟩
      by_contra hshort
      have hstart : scratchX.start = 0x20080000 := rfl
      have hend := toNat_heapLimit
      simp only [State.Short, not_or, not_lt] at hshort
      -- the first byte that is both in the block and not below the stacks
      refine hblocks (s.asked l incr) (by rw [hgrow]; exact List.mem_cons_self)
        (max (s.memory.top l).toNat 0x20080000) ⟨?_, ?_⟩ ((inScratch_iff _).mpr ?_)
      · exact le_max_left _ _
      · simp only [State.asked]
        omega
      · omega

/-- The heap stays clear of the stacks exactly when no request ends between the start of
`SCRATCH_X` and the end of the heap. -/
theorem apart_iff (l : Layout) (mem : Word → UInt8) (incrs : List Increment) :
    Lts.Run (State.Short l) (State.initial mem) (Lts.trace (State.grow l) (State.initial mem) incrs) ↔
      Lts.Run (State.Apart l) (State.initial mem)
        (Lts.trace (State.grow l) (State.initial mem) incrs) := by
  have hinit : Clear l (State.initial mem) := ⟨initial_inv l mem, by rintro r ⟨⟩⟩
  refine Lts.run_trace.congr (p := Clear l) hinit ?_ ?_
  · rintro s incr t hc rfl
    exact apart_iff_short hc
  · rintro s incr t hc rfl hs
    exact ⟨inv_grow hc.1, hs.1⟩

/-- A block of 452 kB behind 64 kB of data runs over the stack of core 1. -/
theorem heap_in_stack :
    ¬ ∀ (l : Layout) (mem : Word → UInt8) (incrs : List Increment),
      Lts.Run (State.Apart l) (State.initial mem)
        (Lts.trace (State.grow l) (State.initial mem) incrs) := by
  intro h
  obtain ⟨⟨hblocks, -⟩, -⟩ := h ⟨0x20010000, by decide, by decide⟩ (fun _ => 0)
    [⟨0x71000, by decide⟩]
  refine hblocks ⟨0x20010000, 0x71000⟩ ?_ 0x20080000 ?_ ?_
  · decide
  · exact ⟨by decide, by decide⟩
  · exact Or.inl ⟨by decide, by decide⟩

end PicoOcaml.OcamlStubs.Heap
