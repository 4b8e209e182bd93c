import PicoOcaml.OcamlStubs.Mutex

/-! Mutual exclusion of the POSIX mutexes, as long as slot allocation is not raced. -/
namespace PicoOcaml.OcamlStubs.Mutex

/-- The call is between finding its object without a slot and giving it one. -/
def Pc.initialises : Pc → Bool
  | .checkCount | .readCount | .writeCount _ | .initSlot _ | .setMagic _ | .writeHandle _ => true
  | _ => false

/-- The slot taken and not yet written to the object. -/
def Pc.reserved : Pc → Option ℕ
  | .initSlot idx | .setMagic idx | .writeHandle idx => some idx
  | _ => none

/-- The word of the object is not the number of a slot. -/
def Shared.Unslotted (g : Shared) (m : ℕ) : Prop := g.handle m < 0 ∨ g.handle m ≥ maxMutexes

/-- What a core must not do while the other core runs `others`: find an object without a slot
that the other core is initialising, read the count between the other core's read and write,
or find the table full, unless the call fails and the object has no slot either. -/
def SafeAccess (g : Shared) (f : Frame) (others : List Frame) : Prop :=
  match f.pc with
  | .readHandle => g.Unslotted f.m → f.fn ≠ .unlock →
      ∀ f' ∈ others, f'.pc.initialises = true → f'.m ≠ f.m
  | .checkCount => f.fn = .trylock ∨ (f.fn = .init ∧ g.Unslotted f.m) ∨ g.mutexCount < maxMutexes
  | .readCount => g.mutexCount < maxMutexes ∧ ∀ f' ∈ others, ∀ n, f'.pc ≠ .writeCount n
  | _ => True

def Safe (s : State) (a : Core × Act) (_ : State) : Prop :=
  a.2 = .go → ∀ f rest, s.stack a.1 = f :: rest → SafeAccess s.shared f (s.stack a.1.other)

variable {g g' : Shared} {c d : Core} {f f' : Frame} {m m' idx i n : ℕ} {s t : State}

/-- The table, the objects in use and the history of the locks agree. -/
structure Shared.Ok (g : Shared) : Prop where
  count : g.mutexCount ≤ maxMutexes
  handles : ∀ m, g.phase m = .ready → g.Unslotted m ∨
    ∃ i : ℕ, g.handle m = i ∧ i < g.mutexCount ∧ (g.storage i).magic = true
  distinct : ∀ m m' i, g.Maps m i → g.Maps m' i → m = m'
  holds : ∀ m i, g.Maps m i →
    ∀ c, g.holds c m = if (g.storage i).owner = some c then (g.storage i).depth else 0
  unmapped : ∀ m, (g.phase m = .ready → g.Unslotted m) → ∀ c, g.holds c m = 0
  unowned : ∀ i, (g.storage i).owner = none → (g.storage i).depth = 0

/-- The object of an initialising call has no slot yet. -/
def Fresh (g : Shared) (f : Frame) : Prop :=
  (f.fn = .init ∧ g.phase f.m = .running) ∨
    ((f.fn = .lock ∨ f.fn = .trylock) ∧ g.phase f.m = .ready ∧ g.Unslotted f.m)

def Free (g : Shared) (idx : ℕ) : Prop := ∀ m, ¬ g.Maps m idx

def FrameOk (g : Shared) (c : Core) (f : Frame) : Prop :=
  match f.pc with
  | .readHandle => f.fn ≠ .init ∧ g.phase f.m = .ready ∧ (f.fn = .unlock → 0 < g.holds c f.m)
  | .checkSlot idx => f.fn ≠ .init ∧ g.Maps f.m idx ∧ (f.fn = .unlock → 0 < g.holds c f.m)
  | .checkCount | .readCount => Fresh g f
  | .writeCount n => Fresh g f ∧ n = g.mutexCount ∧ n < maxMutexes
  | .initSlot idx => Fresh g f ∧ idx < g.mutexCount ∧ Free g idx
  | .setMagic idx => Fresh g f ∧ idx < g.mutexCount ∧ Free g idx ∧ (g.storage idx).owner = none
  | .writeHandle idx => Fresh g f ∧ idx < g.mutexCount ∧ Free g idx ∧
      (g.storage idx).owner = none ∧ (g.storage idx).magic = true
  | .tryEnter idx | .wait idx => g.Maps f.m idx ∧ (f.fn = .lock ∨ f.fn = .trylock)
  | .exit idx => g.Maps f.m idx ∧ 0 < g.holds c f.m

/-- Calls on the two cores do not initialise one object, lose a count or take one slot. -/
structure Apart (f f' : Frame) : Prop where
  object : f.pc.initialises = true → f'.pc.initialises = true → f.m ≠ f'.m
  count : ∀ n, f.pc = .writeCount n → ∀ n', f'.pc ≠ .writeCount n'
  slot : ∀ i, f.pc.reserved = some i → f'.pc.reserved ≠ some i

structure Inv (s : State) : Prop where
  ok : s.shared.Ok
  frames : ∀ c, ∀ f ∈ s.stack c, FrameOk s.shared c f
  waiting : ∀ c, ∀ f ∈ (s.stack c).tail, ∃ i, f.pc = .wait i
  apart : ∀ c, ∀ f ∈ s.stack c, ∀ f' ∈ s.stack c.other, Apart f f'

/-! ### The shared state -/

theorem ok_writeCount (h : g.Ok) (hn : n = g.mutexCount) (hlt : n < maxMutexes) :
    Shared.Ok { g with mutexCount := n + 1 } := by
  obtain ⟨hc, hh, hd, ho, hu, hw⟩ := h
  refine ⟨hlt, fun m hm => ?_, hd, ho, hu, hw⟩
  rcases hh m hm with hneg | ⟨i, hi, hlt', hmag⟩
  · exact Or.inl hneg
  · exact Or.inr ⟨i, hi, by simp only; omega, hmag⟩

theorem Shared.Maps.not_unslotted (h : g.Maps m i) : ¬ g.Unslotted m := by
  obtain ⟨-, hi, hlt⟩ := h
  rintro (h | h) <;> omega

/-- The entry of a slot that no object has is free to change. -/
theorem ok_setEntry (h : g.Ok) (hfree : Free g idx) {e : Entry} (he : e.owner = none → e.depth = 0) :
    (g.setEntry idx e).Ok := by
  obtain ⟨hc, hh, hd, ho, hu, hw⟩ := h
  have hne : ∀ m i, g.Maps m i → i ≠ idx := by
    rintro m i hm rfl
    exact hfree m hm
  refine ⟨hc, fun m hm => ?_, hd, fun m i hm => ?_, hu, fun i hi => ?_⟩
  · rcases hh m hm with hneg | ⟨i, hi, hlt, hmag⟩
    · exact Or.inl hneg
    · have hii := hne m i ⟨hm, hi, Nat.lt_of_lt_of_le hlt hc⟩
      refine Or.inr ⟨i, hi, hlt, ?_⟩
      simpa [Shared.setEntry, hii] using hmag
  · simpa [Shared.setEntry, hne m i hm] using ho m i hm
  · by_cases hii : i = idx
    · subst hii
      simp only [Shared.setEntry, Function.update_self] at hi ⊢
      exact he hi
    · simp only [Shared.setEntry, Function.update_of_ne hii] at hi ⊢
      exact hw i hi

/-- Giving a free and initialised slot to an object without one. -/
theorem ok_writeHandle (h : g.Ok) (hm : g.phase m = .ready → g.Unslotted m)
    (hlt : idx < g.mutexCount) (hfree : Free g idx) (hnone : (g.storage idx).owner = none)
    (hmag : (g.storage idx).magic = true) :
    (Shared.finishInit { g with handle := Function.update g.handle m idx } m).Ok := by
  obtain ⟨hc, hh, hd, ho, hu, hw⟩ := h
  have h0 := hu m hm
  have hmaps : ∀ m' i,
      (Shared.finishInit { g with handle := Function.update g.handle m idx } m).Maps m' i →
      m' = m ∧ i = idx ∨ g.Maps m' i := by
    rintro m' i ⟨hm', hi, hmax⟩
    by_cases hmm : m' = m
    · subst hmm
      simp only [Shared.finishInit, Function.update_self] at hi
      exact .inl ⟨rfl, by exact_mod_cast hi.symm⟩
    · simp only [Shared.finishInit, Function.update_of_ne hmm] at hm' hi
      exact .inr ⟨hm', hi, hmax⟩
  refine ⟨hc, fun m' hm' => ?_, fun m' m'' i h' h'' => ?_, fun m' i h' => ?_, fun m' hm' => ?_, hw⟩
  · by_cases hmm : m' = m
    · subst hmm
      exact Or.inr ⟨idx, by simp [Shared.finishInit], hlt, hmag⟩
    · simp only [Shared.Unslotted, Shared.finishInit, Function.update_of_ne hmm] at hm' ⊢
      exact hh m' hm'
  · rcases hmaps m' i h' with ⟨rfl, rfl⟩ | h' <;> rcases hmaps m'' i h'' with ⟨hm'', hi⟩ | h''
    · exact hm''.symm
    · exact absurd h'' (hfree m'')
    · exact absurd (hi ▸ h') (hfree m')
    · exact hd m' m'' i h' h''
  · rcases hmaps m' i h' with ⟨rfl, rfl⟩ | h'
    · intro c
      simp [Shared.finishInit, h0 c, hnone]
    · exact ho m' i h'
  · by_cases hmm : m' = m
    · subst hmm
      exact h0
    · simp only [Shared.Unslotted, Shared.finishInit, Function.update_of_ne hmm] at hm'
      exact hu m' hm'

/-- An initialisation that finds the table full leaves an object without a slot. -/
theorem ok_finishInit (h : g.Ok) (hr : g.phase m = .running) (hun : g.Unslotted m) :
    (g.finishInit m).Ok := by
  obtain ⟨hc, hh, hd, ho, hu, hw⟩ := h
  have h0 : ∀ c, g.holds c m = 0 := by
    refine hu m fun hm => ?_
    rw [hr] at hm
    cases hm
  have hmaps : ∀ m' i, (g.finishInit m).Maps m' i → g.Maps m' i := by
    rintro m' i ⟨hm', hi, hmax⟩
    by_cases hmm : m' = m
    · subst hmm
      have hin : (0 : ℤ) ≤ i := Int.natCast_nonneg i
      simp only [Shared.finishInit] at hi
      rcases hun with hun | hun <;> omega
    · simp only [Shared.finishInit, Function.update_of_ne hmm] at hm'
      exact ⟨hm', hi, hmax⟩
  refine ⟨hc, fun m' hm' => ?_, fun m' m'' i h' h'' => hd m' m'' i (hmaps m' i h') (hmaps m'' i h''),
    fun m' i h' => ho m' i (hmaps m' i h'), fun m' hm' => ?_, hw⟩
  · by_cases hmm : m' = m
    · exact .inl (hmm ▸ hun)
    · simp only [Shared.finishInit, Function.update_of_ne hmm] at hm'
      exact hh m' hm'
  · by_cases hmm : m' = m
    · exact hmm ▸ h0
    · simp only [Shared.finishInit, Function.update_of_ne hmm] at hm'
      exact hu m' hm'

/-- Taking or releasing the slot of `m`, whose new entry is `e`. -/
theorem ok_owner (h : g.Ok) (hmap : g.Maps m idx) {e : Entry}
    (hmag : e.magic = (g.storage idx).magic) (he : e.owner = none → e.depth = 0)
    (hholds : ∀ d, g'.holds d m = if e.owner = some d then e.depth else 0)
    (hother : ∀ d m', m' ≠ m → g'.holds d m' = g.holds d m')
    (hst : g'.storage = Function.update g.storage idx e) (hph : g'.phase = g.phase)
    (hha : g'.handle = g.handle) (hcount : g'.mutexCount = g.mutexCount) : g'.Ok := by
  obtain ⟨hc, hh, hd, ho, hu, hw⟩ := h
  have hmaps : ∀ m' i, g'.Maps m' i ↔ g.Maps m' i := fun m' i => by simp only [Shared.Maps, hph, hha]
  constructor
  · rw [hcount]
    exact hc
  · intro m' hm'
    rw [hph] at hm'
    rw [Shared.Unslotted, hha, hcount, hst]
    rcases hh m' hm' with hneg | ⟨i, hi', hlt, hmag'⟩
    · exact Or.inl hneg
    · refine Or.inr ⟨i, hi', hlt, ?_⟩
      by_cases hii : i = idx
      · subst hii
        rw [Function.update_self, hmag, hmag']
      · rw [Function.update_of_ne hii, hmag']
  · simp only [hmaps]
    exact hd
  · intro m' i hm' d
    rw [hmaps] at hm'
    rw [hst]
    by_cases hii : i = idx
    · subst hii
      obtain rfl := hd m' m i hm' hmap
      rw [Function.update_self]
      exact hholds d
    · have hmm : m' ≠ m := by
        rintro rfl
        exact hii (by exact_mod_cast hm'.2.1.symm.trans hmap.2.1)
      rw [Function.update_of_ne hii, hother d m' hmm]
      exact ho m' i hm' d
  · intro m' hm' d
    rw [Shared.Unslotted, hph, hha] at hm'
    have hmm : m' ≠ m := by
      rintro rfl
      exact hmap.not_unslotted (hm' hmap.1)
    rw [hother d m' hmm]
    exact hu m' hm' d
  · intro i hnone
    rw [hst] at hnone ⊢
    by_cases hii : i = idx
    · subst hii
      rw [Function.update_self] at hnone ⊢
      exact he hnone
    · rw [Function.update_of_ne hii] at hnone ⊢
      exact hw i hnone

theorem ok_acquired (h : g.Ok) (hmap : g.Maps m idx) {e : Entry}
    (he : Entry.tryEnter c (g.storage idx) = some e) : (g.acquired c m idx e).Ok := by
  have hh := h.holds m idx hmap
  simp only [Entry.tryEnter] at he
  split at he
  · rename_i hown
    cases he
    refine ok_owner (e := ⟨(g.storage idx).magic, some c, (g.storage idx).depth + 1⟩) h hmap rfl
      ?_ ?_ ?_ rfl rfl rfl rfl
    · intro hn
      cases hn
    · intro d
      by_cases hdc : d = c
      · subst hdc
        simp only [Shared.acquired, Shared.setHolds, Function.update_self, if_true, hh]
        rcases hown with hown | hown
        · simp [hown, h.unowned idx hown]
        · simp [hown]
      · have hcd : ¬ (c = d) := fun hcd => hdc hcd.symm
        have hne : (g.storage idx).owner ≠ some d := by
          rcases hown with hown | hown <;> simp [hown, hcd]
        simp [Shared.acquired, Shared.setHolds, Shared.track, Shared.setEntry, hdc, hcd, hh, hne]
    · intro d m' hmm
      by_cases hdc : d = c
      · subst hdc
        simp [Shared.acquired, Shared.setHolds, Shared.track, Shared.setEntry, hmm]
      · simp [Shared.acquired, Shared.setHolds, Shared.track, Shared.setEntry, hdc]
  · cases he

theorem released_eq (g : Shared) (c : Core) (m idx : ℕ) :
    (g.released c m idx).storage = Function.update g.storage idx (g.storage idx).exit ∧
      (g.released c m idx).phase = g.phase ∧ (g.released c m idx).handle = g.handle ∧
      (g.released c m idx).mutexCount = g.mutexCount ∧
      (g.released c m idx).holds =
        Function.update g.holds c (Function.update (g.holds c) m (g.holds c m - 1)) := by
  simp only [Shared.released, Shared.setHolds]
  split <;> exact ⟨rfl, rfl, rfl, rfl, rfl⟩

theorem ok_released (h : g.Ok) (hmap : g.Maps m idx) (hpos : 0 < g.holds c m) :
    (g.released c m idx).Ok := by
  have hh := h.holds m idx hmap
  have hown : (g.storage idx).owner = some c := by
    by_contra hne
    rw [hh c, if_neg hne] at hpos
    omega
  obtain ⟨hst, hph, hha, hcount, hholds⟩ := released_eq g c m idx
  refine ok_owner (e := (g.storage idx).exit) h hmap rfl ?_ ?_ ?_ hst hph hha hcount
  · intro hnone
    simp only [Entry.exit] at hnone ⊢
    split at hnone
    · assumption
    · simp [hown] at hnone
  · intro d
    rw [hholds]
    by_cases hdc : d = c
    · subst hdc
      simp only [Function.update_self, hh, hown, if_true, Entry.exit]
      split <;> simp_all
    · have hcd : ¬ (c = d) := fun hcd => hdc hcd.symm
      simp only [Function.update_of_ne hdc, hh, hown, Entry.exit, Option.some.injEq, if_neg hcd]
      split <;> simp [hcd]
  · intro d m' hmm
    rw [hholds]
    by_cases hdc : d = c
    · subst hdc
      simp [hmm]
    · simp [hdc]

/-! ### One access -/

theorem fresh_handle (h : Fresh g f) : g.phase f.m = .ready → g.Unslotted f.m := by
  rcases h with ⟨-, hp⟩ | ⟨-, -, hneg⟩
  · intro hr
    rw [hp] at hr
    cases hr
  · exact fun _ => hneg

/-- An object that is in use already stays so when it gets its slot. -/
theorem exec_writeHandle {fn : Fn} (h : Fresh g ⟨fn, m, .writeHandle idx⟩) :
    (exec g c ⟨fn, m, .writeHandle idx⟩).1 =
      Shared.finishInit { g with handle := Function.update g.handle m idx } m := by
  rcases h with ⟨hfn, -⟩ | ⟨hfn, hm, -⟩
  · simp only at hfn
    simp [exec, hfn]
  · simp only at hfn hm
    have hne : fn ≠ .init := by
      rcases hfn with rfl | rfl <;> simp
    simp [exec, hne, Shared.finishInit, ← hm]

theorem mapped_magic (h : g.Ok) (hmap : g.Maps m idx) : (g.storage idx).magic = true := by
  rcases h.handles m hmap.1 with hneg | ⟨i, hi, -, hmag⟩
  · exact absurd hneg hmap.not_unslotted
  · obtain rfl : idx = i := by exact_mod_cast hmap.2.1.symm.trans hi
    exact hmag

/-- Only a call that fails may find the table full. -/
theorem full_fails {fn : Fn} {others : List Frame} (hs : SafeAccess g ⟨fn, m, .checkCount⟩ others)
    (hfull : g.mutexCount ≥ maxMutexes) : fn = .trylock ∨ (fn = .init ∧ g.Unslotted m) := by
  rcases hs with hfn | hfn | hroom
  · exact .inl hfn
  · exact .inr hfn
  · omega

/-- An access keeps the shared state consistent and leaves the call where it should be. -/
theorem exec_ok (h : g.Ok) (hf : FrameOk g c f) {others : List Frame}
    (hs : SafeAccess g f others) :
    (exec g c f).1.Ok ∧ ∀ pc, (exec g c f).2 = some pc →
      FrameOk (exec g c f).1 c { f with pc := pc } := by
  obtain ⟨fn, m, pc⟩ := f
  cases pc with
  | readHandle =>
    obtain ⟨hfn, hm, hun⟩ := hf
    simp only at hfn hm hun
    simp only [exec]
    split
    · rename_i hout
      refine ⟨h, fun pc hpc => ?_⟩
      split at hpc
      · cases hpc
      · cases hpc
        right
        cases fn <;> simp_all [Shared.Unslotted]
    · rename_i hin
      refine ⟨h, fun pc hpc => ?_⟩
      cases hpc
      exact ⟨hfn, ⟨hm, by simp only; omega, by omega⟩, hun⟩
  | checkSlot idx =>
    obtain ⟨hfn, hmap, hun⟩ := hf
    have hmag := mapped_magic h hmap
    simp only at hfn hun
    cases fn with
    | init => exact absurd rfl hfn
    | lock =>
      simp only [exec, hmag]
      refine ⟨h, fun pc hpc => ?_⟩
      cases hpc
      exact ⟨hmap, Or.inl rfl⟩
    | trylock =>
      simp only [exec, hmag]
      refine ⟨h, fun pc hpc => ?_⟩
      cases hpc
      exact ⟨hmap, Or.inr rfl⟩
    | unlock =>
      simp only [exec, hmag]
      refine ⟨h, fun pc hpc => ?_⟩
      cases hpc
      exact ⟨hmap, hun rfl⟩
  | checkCount =>
    simp only [exec]
    split
    · rename_i hfull
      rcases full_fails hs hfull with rfl | ⟨rfl, hun⟩
      · exact ⟨h, fun pc hpc => by cases hpc⟩
      · rcases hf with ⟨-, hr⟩ | ⟨hfn, -⟩
        · exact ⟨ok_finishInit h hr hun, fun pc hpc => by cases hpc⟩
        · rcases hfn with hfn | hfn <;> cases hfn
    · refine ⟨h, fun pc hpc => ?_⟩
      cases hpc
      exact hf
  | readCount =>
    refine ⟨h, fun pc hpc => ?_⟩
    cases hpc
    exact ⟨hf, rfl, hs.1⟩
  | writeCount n =>
    obtain ⟨hfr, hn, hlt⟩ := hf
    refine ⟨ok_writeCount h hn hlt, fun pc hpc => ?_⟩
    cases hpc
    refine ⟨hfr, Nat.lt_succ_self n, ?_⟩
    intro m' hm'
    have hmap : g.Maps m' n := hm'
    rcases h.handles m' hmap.1 with hneg | ⟨i, hi, hlt', -⟩
    · exact hmap.not_unslotted hneg
    · have hi' := hmap.2.1
      omega
  | initSlot idx =>
    obtain ⟨hfr, hlt, hfree⟩ := hf
    refine ⟨ok_setEntry h hfree fun _ => rfl, fun pc hpc => ?_⟩
    cases hpc
    exact ⟨hfr, hlt, hfree, by simp [exec, Shared.setEntry]⟩
  | setMagic idx =>
    obtain ⟨hfr, hlt, hfree, hnone⟩ := hf
    refine ⟨ok_setEntry h hfree fun hn => h.unowned idx hn, fun pc hpc => ?_⟩
    cases hpc
    refine ⟨hfr, hlt, hfree, ?_, ?_⟩
    · simpa [exec, Shared.setEntry] using hnone
    · simp [exec, Shared.setEntry]
  | writeHandle idx =>
    obtain ⟨hfr, hlt, hfree, hnone, hmag⟩ := hf
    rw [exec_writeHandle hfr]
    refine ⟨ok_writeHandle h (fresh_handle hfr) hlt hfree hnone hmag, fun pc hpc => ?_⟩
    rcases hfr with ⟨hfn, -⟩ | ⟨hfn, -, -⟩
    · simp only at hfn
      subst hfn
      cases hpc
    · have hne : fn ≠ .init := by
        rcases hfn with rfl | rfl <;> simp
      simp only [exec, if_neg hne] at hpc
      cases hpc
      refine ⟨⟨by simp [Shared.finishInit], by simp [Shared.finishInit], ?_⟩, hfn⟩
      exact Nat.lt_of_lt_of_le hlt h.count
  | tryEnter idx =>
    obtain ⟨hmap, hfn⟩ := hf
    simp only [exec]
    cases he : Entry.tryEnter c (g.storage idx) with
    | some e => exact ⟨ok_acquired h hmap he, fun pc hpc => by cases hpc⟩
    | none =>
      refine ⟨h, fun pc hpc => ?_⟩
      simp only at hpc
      split at hpc
      · cases hpc
        exact ⟨hmap, hfn⟩
      · cases hpc
  | wait idx =>
    refine ⟨h, fun pc hpc => ?_⟩
    cases hpc
    exact hf
  | exit idx =>
    obtain ⟨hmap, hpos⟩ := hf
    exact ⟨ok_released h hmap hpos, fun pc hpc => by cases hpc⟩

/-- What every call but `f` may rely on while `f` makes an access on core `c`. -/
structure Rely (c : Core) (f : Frame) (g g' : Shared) : Prop where
  phase : ∀ m, (f.pc.initialises = true → f.m ≠ m) ∨ g.phase m = .ready → g'.phase m = g.phase m
  handle : ∀ m, (f.pc.initialises = true → f.m ≠ m) ∨ (g.phase m = .ready ∧ ¬ g.Unslotted m) →
    g'.handle m = g.handle m
  mapped : ∀ m i, g'.Maps m i → g.Maps m i ∨ f.pc.reserved = some i
  count : g.mutexCount ≤ g'.mutexCount ∧
    (g'.mutexCount = g.mutexCount ∨ ∃ n, f.pc = .writeCount n)
  slot : ∀ i, Free g i → f.pc.reserved ≠ some i → g'.storage i = g.storage i
  holds : ∀ d, d ≠ c → g'.holds d = g.holds d

theorem Rely.refl : Rely c f g g :=
  ⟨fun _ _ => rfl, fun _ _ => rfl, fun _ _ hm => Or.inl hm, ⟨Nat.le_refl _, Or.inl rfl⟩,
    fun _ _ _ => rfl, fun _ _ => rfl⟩

theorem rely_setEntry (hnot : ¬ Free g idx ∨ f.pc.reserved = some idx) {e : Entry}
    (hg : g' = { g.setEntry idx e with
      heldMutexes := g'.heldMutexes, heldCounts := g'.heldCounts, holds := g'.holds })
    (hholds : ∀ d, d ≠ c → g'.holds d = g.holds d) : Rely c f g g' := by
  have hst : g'.storage = Function.update g.storage idx e := by rw [hg]; rfl
  have hph : g'.phase = g.phase := by rw [hg]; rfl
  have hha : g'.handle = g.handle := by rw [hg]; rfl
  have hcount : g'.mutexCount = g.mutexCount := by rw [hg]; rfl
  refine ⟨fun m _ => by rw [hph], fun m _ => by rw [hha], fun m i hm => Or.inl ?_,
    ⟨by omega, Or.inl hcount⟩, fun i hfree hres => ?_, hholds⟩
  · simpa only [Shared.Maps, hph, hha] using hm
  · have hne : i ≠ idx := by
      rintro rfl
      rcases hnot with hnot | hnot
      · exact hnot hfree
      · exact hres hnot
    rw [hst, Function.update_of_ne hne]

theorem not_free (hmap : g.Maps m idx) : ¬ Free g idx := fun h => h m hmap

theorem rely_finishInit {fn : Fn} (hr : g.phase m = .running) (hun : g.Unslotted m) :
    Rely c ⟨fn, m, .checkCount⟩ g (g.finishInit m) := by
  refine ⟨fun m' hm' => ?_, fun _ _ => rfl, fun m' i hm' => Or.inl ?_, ⟨Nat.le_refl _, Or.inl rfl⟩,
    fun _ _ _ => rfl, fun _ _ => rfl⟩
  · have hne : m' ≠ m := by
      rintro rfl
      rcases hm' with hm' | hm'
      · exact hm' rfl rfl
      · rw [hr] at hm'
        cases hm'
    simp [Shared.finishInit, hne]
  · obtain ⟨hm', hi, hmax⟩ := hm'
    have hne : m' ≠ m := by
      rintro rfl
      simp only [Shared.finishInit] at hi
      rcases hun with hun | hun <;> omega
    simp only [Shared.finishInit, Function.update_of_ne hne] at hm'
    exact ⟨hm', hi, hmax⟩

theorem exec_rely (hf : FrameOk g c f) {others : List Frame}
    (hs : SafeAccess g f others) : Rely c f g (exec g c f).1 := by
  obtain ⟨fn, m, pc⟩ := f
  cases pc with
  | readHandle =>
    simp only [exec]
    split <;> exact Rely.refl
  | checkSlot idx =>
    simp only [exec]
    split <;> exact Rely.refl
  | checkCount =>
    simp only [exec]
    split
    · rename_i hfull
      rcases full_fails hs hfull with rfl | ⟨rfl, hun⟩
      · exact Rely.refl
      · rcases hf with ⟨-, hr⟩ | ⟨hfn, -⟩
        · exact rely_finishInit hr hun
        · rcases hfn with hfn | hfn <;> cases hfn
    · exact Rely.refl
  | readCount => exact Rely.refl
  | writeCount n =>
    obtain ⟨-, hn, -⟩ := hf
    refine ⟨fun _ _ => rfl, fun _ _ => rfl, fun _ _ hm => Or.inl hm, ⟨?_, Or.inr ⟨n, rfl⟩⟩,
      fun _ _ _ => rfl, fun _ _ => rfl⟩
    simp only [exec]
    omega
  | initSlot idx => exact rely_setEntry (Or.inr rfl) rfl fun _ _ => rfl
  | setMagic idx => exact rely_setEntry (Or.inr rfl) rfl fun _ _ => rfl
  | writeHandle idx =>
    obtain ⟨hfr, -⟩ := hf
    have hun := fresh_handle hfr
    simp only at hun
    rw [exec_writeHandle hfr]
    refine ⟨fun m' hm' => ?_, fun m' hm' => ?_, fun m' i hm' => ?_, ⟨Nat.le_refl _, Or.inl rfl⟩,
      fun _ _ _ => rfl, fun _ _ => rfl⟩
    · by_cases hmm : m' = m
      · subst hmm
        rcases hm' with hm' | hm'
        · exact absurd rfl (hm' rfl)
        · simp [Shared.finishInit, hm']
      · simp [Shared.finishInit, hmm]
    · by_cases hmm : m' = m
      · subst hmm
        rcases hm' with hm' | ⟨hr, hslot⟩
        · exact absurd rfl (hm' rfl)
        · exact absurd (hun hr) hslot
      · simp [Shared.finishInit, hmm]
    · obtain ⟨hm', hi, hmax⟩ := hm'
      by_cases hmm : m' = m
      · subst hmm
        simp only [Shared.finishInit, Function.update_self] at hi
        obtain rfl : idx = i := by exact_mod_cast hi
        exact Or.inr rfl
      · simp only [Shared.finishInit, Function.update_of_ne hmm] at hm' hi
        exact Or.inl ⟨hm', hi, hmax⟩
  | tryEnter idx =>
    obtain ⟨hmap, -⟩ := hf
    simp only [exec]
    cases he : Entry.tryEnter c (g.storage idx) with
    | some e =>
      refine rely_setEntry (Or.inl (not_free hmap)) rfl fun d hd => ?_
      simp [Shared.acquired, Shared.setHolds, Shared.track, Shared.setEntry, hd]
    | none => exact Rely.refl
  | wait idx => exact Rely.refl
  | exit idx =>
    obtain ⟨hmap, -⟩ := hf
    refine rely_setEntry (e := (g.storage idx).exit) (Or.inl (not_free hmap)) ?_ fun d hd => ?_
    · simp only [exec, Shared.released, Shared.setHolds]
      split <;> rfl
    · rw [exec, (released_eq _ _ _ _).2.2.2.2, Function.update_of_ne hd]

theorem Rely.fresh (h : Rely c f g g') (hap : Apart f f') (hi : f'.pc.initialises = true)
    (hf : Fresh g f') : Fresh g' f' := by
  have hne : f.pc.initialises = true → f.m ≠ f'.m := fun hinit => hap.object hinit hi
  rw [Fresh, Shared.Unslotted, h.phase _ (Or.inl hne), h.handle _ (Or.inl hne)]
  exact hf

theorem Rely.isReady (h : Rely c f g g') (hm : g.phase m = .ready) : g'.phase m = .ready :=
  (h.phase _ (Or.inr hm)).trans hm

theorem Rely.isMapped (h : Rely c f g g') (hm : g.Maps m idx) : g'.Maps m idx :=
  ⟨h.isReady hm.1, (h.handle _ (Or.inr ⟨hm.1, hm.not_unslotted⟩)).trans hm.2.1, hm.2.2⟩

theorem Rely.free (h : Rely c f g g') (hres : f.pc.reserved ≠ some idx) (hf : Free g idx) :
    Free g' idx := by
  intro m hm
  rcases h.mapped m idx hm with hm | hr
  · exact hf m hm
  · exact hres hr

theorem Apart.symm (h : Apart f f') : Apart f' f := by
  refine ⟨fun hi hi' => (h.object hi' hi).symm, fun n hn n' hn' => ?_, fun i hi hi' => ?_⟩
  · exact h.count n' hn' n hn
  · exact h.slot i hi' hi

/-- Calls of the other core stay where they should be. -/
theorem frameOk_rely (h : Rely c f g g') (hap : Apart f f') (hd : d ≠ c) (hf : FrameOk g d f') :
    FrameOk g' d f' := by
  have hholds := h.holds d hd
  have hlt : ∀ {i}, i < g.mutexCount → i < g'.mutexCount := fun hi =>
    Nat.lt_of_lt_of_le hi h.count.1
  have hres : ∀ i, f'.pc.reserved = some i → f.pc.reserved ≠ some i := fun i hi hr =>
    hap.slot i hr hi
  obtain ⟨fn, m, pc⟩ := f'
  cases pc with
  | readHandle =>
    obtain ⟨hfn, hm, hun⟩ := hf
    refine ⟨hfn, h.isReady hm, fun hu => ?_⟩
    rw [hholds]
    exact hun hu
  | checkSlot idx =>
    obtain ⟨hfn, hmap, hun⟩ := hf
    refine ⟨hfn, h.isMapped hmap, fun hu => ?_⟩
    rw [hholds]
    exact hun hu
  | checkCount => exact h.fresh hap rfl hf
  | readCount => exact h.fresh hap rfl hf
  | writeCount n =>
    obtain ⟨hfr, hn, hmax⟩ := hf
    refine ⟨h.fresh hap rfl hfr, ?_, hmax⟩
    rcases h.count.2 with heq | ⟨n', hn'⟩
    · rw [heq]
      exact hn
    · exact absurd rfl (hap.count n' hn' n)
  | initSlot idx =>
    obtain ⟨hfr, hi, hfree⟩ := hf
    exact ⟨h.fresh hap rfl hfr, hlt hi, h.free (hres idx rfl) hfree⟩
  | setMagic idx =>
    obtain ⟨hfr, hi, hfree, hnone⟩ := hf
    refine ⟨h.fresh hap rfl hfr, hlt hi, h.free (hres idx rfl) hfree, ?_⟩
    rw [h.slot idx hfree (hres idx rfl)]
    exact hnone
  | writeHandle idx =>
    obtain ⟨hfr, hi, hfree, hnone, hmag⟩ := hf
    refine ⟨h.fresh hap rfl hfr, hlt hi, h.free (hres idx rfl) hfree, ?_⟩
    rw [h.slot idx hfree (hres idx rfl)]
    exact ⟨hnone, hmag⟩
  | tryEnter idx => exact ⟨h.isMapped hf.1, hf.2⟩
  | wait idx => exact ⟨h.isMapped hf.1, hf.2⟩
  | exit idx =>
    refine ⟨h.isMapped hf.1, ?_⟩
    rw [hholds]
    exact hf.2

/-- So do the waiting calls of the core itself. -/
theorem frameOk_wait (h : Rely c f g g') (hw : f'.pc = .wait i) (hf : FrameOk g d f') :
    FrameOk g' d f' := by
  simp only [FrameOk, hw] at hf ⊢
  exact ⟨h.isMapped hf.1, hf.2⟩

theorem apart_idle (h : f.pc.initialises = false) : Apart f f' := by
  obtain ⟨fn, m, pc⟩ := f
  refine ⟨fun hi => ?_, fun n hn => ?_, fun i hi => ?_⟩
  · rw [h] at hi
    cases hi
  · simp only at hn
    subst hn
    cases h
  · cases pc <;> cases hi <;> cases h

theorem frameOk_reserved (h : FrameOk g c f) (hi : f.pc.reserved = some i) : i < g.mutexCount := by
  obtain ⟨fn, m, pc⟩ := f
  cases pc <;> cases hi <;> exact h.2.1

/-- An access keeps the calls of the two cores apart. -/
theorem exec_apart (h : g.Ok) (hf : FrameOk g c f) (hf' : FrameOk g c.other f')
    {others : List Frame} (hmem : f' ∈ others) (hs : SafeAccess g f others) (hap : Apart f f')
    {pc : Pc} (hpc : (exec g c f).2 = some pc) : Apart { f with pc := pc } f' := by
  obtain ⟨fn, m, pc'⟩ := f
  cases pc' with
  | readHandle =>
    simp only [exec] at hpc
    split at hpc
    · rename_i hout
      split at hpc
      · cases hpc
      · rename_i hfn
        cases hpc
        refine ⟨fun _ hi => ?_, nofun, nofun⟩
        exact (hs hout hfn f' hmem hi).symm
    · cases hpc
      exact apart_idle rfl
  | checkSlot idx =>
    have hmag := mapped_magic h hf.2.1
    simp only [exec, hmag] at hpc
    split at hpc <;> cases hpc <;> first | exact apart_idle rfl | contradiction
  | checkCount =>
    simp only [exec] at hpc
    split at hpc
    · split at hpc <;> cases hpc
    · cases hpc
      exact ⟨fun _ => hap.object rfl, nofun, nofun⟩
  | readCount =>
    cases hpc
    exact ⟨fun _ => hap.object rfl, fun n _ n' => hs.2 f' hmem n', nofun⟩
  | writeCount n =>
    cases hpc
    refine ⟨fun _ => hap.object rfl, nofun, fun i hi hi' => ?_⟩
    cases hi
    have := frameOk_reserved hf' hi'
    have := hf.2.1
    omega
  | initSlot idx =>
    cases hpc
    exact ⟨fun _ => hap.object rfl, nofun, fun i hi => hap.slot i hi⟩
  | setMagic idx =>
    cases hpc
    exact ⟨fun _ => hap.object rfl, nofun, fun i hi => hap.slot i hi⟩
  | writeHandle idx =>
    simp only [exec] at hpc
    split at hpc <;> cases hpc
    exact apart_idle rfl
  | tryEnter idx =>
    simp only [exec] at hpc
    cases he : Entry.tryEnter c (g.storage idx) with
    | some e =>
      rw [he] at hpc
      cases hpc
    | none =>
      rw [he] at hpc
      simp only at hpc
      split at hpc <;> cases hpc
      exact apart_idle rfl
  | wait idx =>
    cases hpc
    exact apart_idle rfl
  | exit idx => cases hpc

/-! ### Steps and runs -/

/-- Replacing the stack of one core. -/
theorem inv_update {stack : Core → List Frame} (h : Inv ⟨g, stack⟩) {fs : List Frame}
    (hok : g'.Ok) (hfs : ∀ f ∈ fs, FrameOk g' c f) (hwait : ∀ f ∈ fs.tail, ∃ i, f.pc = .wait i)
    (hother : ∀ f ∈ stack c.other, FrameOk g' c.other f)
    (hap : ∀ f ∈ fs, ∀ f' ∈ stack c.other, Apart f f') :
    Inv ⟨g', Function.update stack c fs⟩ := by
  have hne := Core.other_ne c
  refine ⟨hok, fun d => ?_, fun d => ?_, fun d => ?_⟩
  · rcases Core.eq_or_other c d with rfl | rfl
    · simpa using hfs
    · simpa [hne] using hother
  · rcases Core.eq_or_other c d with rfl | rfl
    · simpa using hwait
    · simpa [hne] using h.waiting c.other
  · rcases Core.eq_or_other c d with rfl | rfl
    · simpa [hne] using hap
    · simp only [Core.other_other, Function.update_self, Function.update_of_ne hne]
      exact fun f hf f' hf' => (hap f' hf' f hf).symm

theorem go_inv (h : Inv s) {f : Frame} {rest : List Frame} (hst : s.stack c = f :: rest)
    (hs : SafeAccess s.shared f (s.stack c.other)) : Inv (next s (c, .go)) := by
  obtain ⟨g, stack⟩ := s
  simp only at hst hs
  have hmem : f ∈ stack c := by simp [hst]
  have hf : FrameOk g c f := h.frames c f hmem
  have hrest : ∀ f' ∈ rest, f' ∈ stack c ∧ ∃ i, f'.pc = .wait i := by
    intro f' hf'
    refine ⟨by simp [hst, hf'], ?_⟩
    have hw := h.waiting c
    simp only [hst, List.tail_cons] at hw
    exact hw f' hf'
  have hap : ∀ f' ∈ stack c.other, Apart f f' := h.apart c f hmem
  obtain ⟨hok, hpc⟩ := exec_ok h.ok hf hs
  have hrely := exec_rely hf hs
  have hkeep : ∀ f' ∈ rest, FrameOk (exec g c f).1 c f' := by
    intro f' hf'
    obtain ⟨hm, i, hi⟩ := hrest f' hf'
    exact frameOk_wait hrely hi (h.frames c f' hm)
  have hother : ∀ f' ∈ stack c.other, FrameOk (exec g c f).1 c.other f' := fun f' hf' =>
    frameOk_rely hrely (hap f' hf') (Core.other_ne c) (h.frames c.other f' hf')
  have hidle : ∀ f' ∈ rest, ∀ f'' ∈ stack c.other, Apart f' f'' := by
    intro f' hf' f'' hf''
    obtain ⟨hm, -⟩ := hrest f' hf'
    exact h.apart c f' hm f'' hf''
  simp only [next, hst]
  cases hr : (exec g c f).2 with
  | none =>
    refine inv_update h hok hkeep (fun f' hf' => ?_) hother hidle
    exact (hrest f' (List.mem_of_mem_tail hf')).2
  | some pc =>
    refine inv_update h hok ?_ (fun f' hf' => (hrest f' hf').2) hother ?_
    · intro f' hf'
      rcases List.mem_cons.mp hf' with rfl | hf'
      · exact hpc pc hr
      · exact hkeep f' hf'
    · intro f' hf' f'' hf''
      rcases List.mem_cons.mp hf' with rfl | hf'
      · exact exec_apart h.ok hf (h.frames c.other f'' hf'') hf'' hs (hap f'' hf'') hr
      · exact hidle f' hf' f'' hf''

/-- Only an untouched object is handed to `pthread_mutex_init`. -/
theorem rely_call (hm : g.phase m = .untouched) (hf : f = ⟨.init, m, .checkCount⟩) :
    Rely c f g { g with phase := Function.update g.phase m .running } := by
  subst hf
  refine ⟨fun m' hm' => ?_, fun _ _ => rfl, fun m' i hm' => Or.inl ⟨?_, hm'.2⟩,
    ⟨Nat.le_refl _, Or.inl rfl⟩, fun _ _ _ => rfl, fun _ _ => rfl⟩
  · have hne : m' ≠ m := by
      rintro rfl
      rcases hm' with hm' | hm'
      · exact hm' rfl rfl
      · rw [hm] at hm'
        cases hm'
    simp [hne]
  · have hr := hm'.1
    by_cases hmm : m' = m
    · subst hmm
      simp at hr
    · simpa [hmm] using hr

theorem ok_call (h : g.Ok) (hm : g.phase m = .untouched) :
    Shared.Ok { g with phase := Function.update g.phase m .running } := by
  obtain ⟨hc, hh, hd, ho, hu, hw⟩ := h
  have hready : ∀ m', Function.update g.phase m .running m' = .ready ↔ g.phase m' = .ready := by
    intro m'
    by_cases hmm : m' = m
    · subst hmm
      simp [hm]
    · simp [hmm]
  constructor <;> simp only [Shared.Maps, hready] <;> assumption

theorem frameOk_fresh (h : FrameOk g c f) (hi : f.pc.initialises = true) : Fresh g f := by
  obtain ⟨fn, m, pc⟩ := f
  cases pc <;> cases hi
  · exact h
  · exact h
  · exact h.1
  · exact h.1
  · exact h.1
  · exact h.1

theorem apart_call {fn : Fn} (hm : fn = .init → g.phase m = .untouched) (hf' : FrameOk g d f') :
    Apart ⟨fn, m, fn.start⟩ f' := by
  refine ⟨fun hi hi' => ?_, fun n hn => ?_, fun i hi => ?_⟩
  · have hfn : fn = .init := by
      cases fn <;> first | rfl | cases hi
    rintro rfl
    have h0 := hm hfn
    rcases frameOk_fresh hf' hi' with ⟨-, h1⟩ | ⟨-, h1, -⟩ <;> simp [h0] at h1
  · cases fn <;> cases hn
  · cases fn <;> cases hi

theorem callable_waiting (h : Inv s) (hc : s.callable c = true) :
    ∀ f ∈ s.stack c, ∃ i, f.pc = .wait i := by
  have hw := h.waiting c
  simp only [State.callable] at hc
  intro f hf
  cases hst : s.stack c with
  | nil => simp [hst] at hf
  | cons f₀ rest =>
    obtain ⟨fn, m, pc⟩ := f₀
    rw [hst] at hf hw
    rcases List.mem_cons.mp hf with rfl | hf
    · cases pc <;> simp_all
    · exact hw f hf

theorem call_inv (h : Inv s) {fn : Fn} (he : Enabled s (c, .call fn m) = true) :
    Inv (next s (c, .call fn m)) := by
  simp only [Enabled, Bool.and_eq_true] at he
  obtain ⟨hcall, hmay⟩ := he
  have hwait := callable_waiting h hcall
  have hm : fn = .init → s.shared.phase m = .untouched := by
    rintro rfl
    simpa [State.mayCall] using hmay
  have hap : ∀ f' ∈ s.stack c.other, Apart ⟨fn, m, fn.start⟩ f' := fun f' hf' =>
    apart_call hm (h.frames c.other f' hf')
  -- the only change of the shared state is the phase of an object handed to init
  have hshared : ∀ g, g = (next s (c, .call fn m)).shared →
      g.Ok ∧ Rely c ⟨fn, m, fn.start⟩ s.shared g ∧ FrameOk g c ⟨fn, m, fn.start⟩ := by
    rintro g rfl
    cases fn with
    | init => exact ⟨ok_call h.ok (hm rfl), rely_call (hm rfl) rfl, Or.inl ⟨rfl, by simp [next]⟩⟩
    | lock => exact ⟨h.ok, Rely.refl, by simp, by simpa [State.mayCall, next] using hmay, nofun⟩
    | trylock => exact ⟨h.ok, Rely.refl, by simp, by simpa [State.mayCall, next] using hmay, nofun⟩
    | unlock =>
      simp only [State.mayCall, decide_eq_true_eq] at hmay
      exact ⟨h.ok, Rely.refl, by simp, hmay.1, fun _ => hmay.2⟩
  obtain ⟨hok, hrely, hnew⟩ := hshared _ rfl
  refine inv_update h hok ?_ (by simpa using hwait) ?_ ?_
  · intro f hf
    rcases List.mem_cons.mp hf with rfl | hf
    · exact hnew
    · obtain ⟨i, hi⟩ := hwait f hf
      exact frameOk_wait hrely hi (h.frames c f hf)
  · intro f' hf'
    exact frameOk_rely hrely (hap f' hf') (Core.other_ne c) (h.frames c.other f' hf')
  · intro f hf f' hf'
    rcases List.mem_cons.mp hf with rfl | hf
    · exact hap f' hf'
    · exact h.apart c f hf f' hf'

theorem step_inv {a : Core × Act} (h : Inv s) (hstep : Step s a t) (hs : Safe s a t) : Inv t := by
  obtain ⟨he, rfl⟩ := hstep
  obtain ⟨c, act⟩ := a
  cases act with
  | call fn m => exact call_inv h he
  | go =>
    cases hst : s.stack c with
    | nil => simp [Enabled, hst] at he
    | cons f rest => exact go_inv h hst (hs rfl f rest hst)

theorem initial_inv (isLazy : ℕ → Bool) (memory : ℕ → ℤ) : Inv (State.initial isLazy memory) := by
  have hneg : ∀ m, (State.initial isLazy memory).shared.phase m = .ready →
      (State.initial isLazy memory).shared.handle m = -1 := by
    intro m hm
    cases hl : isLazy m <;> simp_all [State.initial]
  refine ⟨⟨Nat.zero_le _, fun m hm => ?_, fun m _ i hm _ => ?_, fun m i hm => ?_,
    fun _ _ _ => rfl, fun _ _ => rfl⟩, nofun, nofun, nofun⟩
  · have := hneg m hm
    left
    left
    omega
  · have := hneg m hm.1
    have := hm.2.1
    omega
  · have := hneg m hm.1
    have := hm.2.1
    omega

theorem exclusive_of_inv (h : Inv s) : Exclusive s := by
  obtain ⟨hc, hh, hd, ho, hu, hw⟩ := h.ok
  constructor
  · exact hd
  · intro c m hpos
    have hready : ∃ i : ℕ, s.shared.phase m = .ready ∧ s.shared.handle m = i ∧
        i < s.shared.mutexCount := by
      by_contra hno
      have hzero := hu m (fun hm => ?_) c
      · omega
      · rcases hh m hm with hneg | ⟨i, hi, hlt, -⟩
        · exact hneg
        · exact absurd ⟨i, hm, hi, hlt⟩ hno
    obtain ⟨i, hm, hi, hlt⟩ := hready
    have hholds := ho m i ⟨hm, hi, Nat.lt_of_lt_of_le hlt hc⟩
    have hown : (s.shared.storage i).owner = some c := by
      by_contra hne
      rw [hholds c, if_neg hne] at hpos
      omega
    refine ⟨i, ⟨hm, hi, Nat.lt_of_lt_of_le hlt hc⟩, hown, ?_⟩
    rw [hholds, hown, if_neg]
    intro heq
    exact Core.other_ne c (Option.some.inj heq).symm

/-- In a run that is safe at each access, no two objects share a slot and a locked object is
held by one core. -/
theorem mutex_exclusive {isLazy : ℕ → Bool} {memory : ℕ → ℤ} {xs : List ((Core × Act) × State)}
    (hrun : Lts.Run Step (State.initial isLazy memory) xs)
    (hsafe : Lts.Run Safe (State.initial isLazy memory) xs) :
    Lts.Always Exclusive (State.initial isLazy memory) xs := by
  have hboth := Lts.run_and.mpr ⟨hrun, hsafe⟩
  have hinv := hboth.always (initial_inv isLazy memory) fun s a t hi hst =>
    step_inv hi hst.1 hst.2
  exact hinv.imp fun s hi => exclusive_of_inv hi

theorem safe_alone {a : Core × Act} (h : (s.stack a.1.other).isEmpty = true)
    (hc : s.shared.mutexCount < maxMutexes) : Safe s a t := by
  intro _ f rest _
  rw [List.isEmpty_iff.mp h]
  obtain ⟨fn, m, pc⟩ := f
  cases pc with
  | readHandle => exact fun _ _ f' hf' => absurd hf' List.not_mem_nil
  | checkCount => exact .inr (.inr hc)
  | readCount => exact ⟨hc, fun f' hf' => absurd hf' List.not_mem_nil⟩
  | _ => trivial

/-- A call and its accesses, without a break. -/
def callAlone (c : Core) (fn : Fn) (m accesses : ℕ) : List (Core × Act) :=
  (c, .call fn m) :: List.replicate accesses (c, .go)

/-- One core locks, the other fails to, the first one unlocks. -/
theorem mutex_exclusive_alone :
    let s := State.initial (fun _ => true) fun _ => 0
    Lts.Always Exclusive s (Lts.trace next s
      (callAlone .zero .lock 0 8 ++ callAlone .one .trylock 0 3 ++ callAlone .zero .unlock 0 3)) := by
  intro s
  apply mutex_exclusive
  · exact Lts.run_accepts Enabled (by decide)
  · refine Lts.Run.imp (Lts.run_accepts (fun s a =>
      (s.stack a.1.other).isEmpty && decide (s.shared.mutexCount < maxMutexes)) (by decide)) ?_
    intro s a t hok
    obtain ⟨h, hc⟩ := Bool.and_eq_true_iff.mp hok.1
    exact safe_alone h (of_decide_eq_true hc)

/-- Both cores find the object without a slot, give it one each and lock it. -/
theorem lazy_init_races :
    ¬ ∀ isLazy memory xs, Lts.Run Step (State.initial isLazy memory) xs →
      Lts.Always Exclusive (State.initial isLazy memory) xs := by
  intro h
  let acts := [(Core.zero, Act.call .lock 0), (.one, .call .lock 0), (.zero, .go), (.one, .go)] ++
    List.replicate 7 (Core.zero, Act.go) ++ List.replicate 7 (Core.one, Act.go)
  have hlast := (h (fun _ => true) (fun _ => 0) (Lts.trace next _ acts)
    (Lts.run_accepts Enabled (by decide))).last
  rw [Lts.last_trace] at hlast
  obtain ⟨-, -, -, hone⟩ := hlast.owned .zero 0 (by decide)
  exact absurd hone (by decide)

end PicoOcaml.OcamlStubs.Mutex
