import PicoOcaml.OcamlStubs.Tracking

/-! The bookkeeping is exact as long as slot allocation is not raced into a mutex in use. -/
namespace PicoOcaml.OcamlStubs.Tracking

variable {g g' : Shared} {c d : Core} {f : Frame} {m idx i n : ℕ} {e e' : Entry} {s t : State}
  {pc : Pc} {signalled : Bool}

/-- What the depth of slot `i` is ahead of the counter while a call is under way. -/
def Pc.ahead : Pc → ℕ → ℤ
  | .setMask idx, i | .incCount idx, i => if i = idx then 1 else 0
  | .decCount idx, i | .cleanCount idx, i => if i = idx then -1 else 0
  | _, _ => 0

def Pc.cleaning : Pc → Bool
  | .cleanSlot _ | .cleanExit _ | .cleanCount _ | .cleanMask => true
  | _ => false

/-- What the mask says of slot `i`, whose counter is `n`, while a call is under way. -/
def Pc.MaskOk : Pc → ℕ → Bool → ℕ → Prop
  | .incCount idx, i, b, n | .clearMask idx, i, b, n => b = true ↔ i = idx ∨ 0 < n
  | .cleanSlot _, _, _, _ | .cleanExit _, _, _, _ | .cleanCount _, _, _, _ | .cleanMask, _, _, _ =>
    True
  | _, _, b, n => b = true ↔ 0 < n

/-- The bookkeeping of a core whose latest call stands at `pc`. -/
structure CoreOk (g : Shared) (c : Core) (pc : Pc) : Prop where
  count : ∀ i < maxMutexes, (g.own c i : ℤ) = g.heldCounts c i + pc.ahead i
  mask : ∀ i < maxMutexes, pc.MaskOk i ((g.heldMutexes c).getLsbD i) (g.heldCounts c i)

/-- At a call boundary the core stands as if a call slept. -/
def boundary : Pc := .sleep 0

def Shared.DepthOk (g : Shared) : Prop :=
  ∀ i, (g.storage i).owner = none ↔ (g.storage i).depth = 0

/-- What a call knows of the slot it works on. -/
def PcOk (g : Shared) (c : Core) (f : Frame) : Prop :=
  match f.pc with
  | .readHandle => f.fn = .unlock ∨ f.fn = .condWait → g.holds c f.m = true
  | .checkSlot idx => idx < maxMutexes ∧
      (f.fn = .unlock ∨ f.fn = .condWait → (g.storage idx).owner = some c)
  | .exit idx => idx < maxMutexes ∧ (g.storage idx).owner = some c
  | .checkCount | .readCount | .sleep _ => True
  | .writeCount idx | .initSlot idx | .setMagic idx | .writeHandle idx | .tryEnter idx | .wait idx
  | .setMask idx | .incCount idx | .decCount idx | .clearMask idx | .checkAgain idx =>
    idx < maxMutexes
  | .cleanSlot i => c = .one ∧ ∀ j < i, j < maxMutexes → g.heldCounts .one j = 0
  | .cleanExit i => c = .one ∧ i < maxMutexes ∧ 0 < g.heldCounts .one i ∧
      ∀ j < i, g.heldCounts .one j = 0
  | .cleanCount i => c = .one ∧ i < maxMutexes ∧ ∀ j < i, g.heldCounts .one j = 0
  | .cleanMask => c = .one ∧ ∀ j < maxMutexes, g.heldCounts .one j = 0

structure FrameOk (g : Shared) (c : Core) (f : Frame) : Prop where
  cleans : f.fn = .cleanup ↔ f.pc.cleaning = true
  pc : PcOk g c f

/-- A step of the other core leaves a core what it owns and its bookkeeping. -/
structure Untouched (d : Core) (g g' : Shared) : Prop where
  owner : ∀ i, (g'.storage i).owner = some d ↔ (g.storage i).owner = some d
  depth : ∀ i, g'.own d i = g.own d i
  counts : g'.heldCounts d = g.heldCounts d
  mask : g'.heldMutexes d = g.heldMutexes d

/-- What one access of a call on core `c` comes to. -/
structure Moved (g : Shared) (c : Core) (f : Frame) (r : Shared × Option Pc) : Prop where
  depth : r.1.DepthOk
  other : Untouched c.other g r.1
  core : CoreOk r.1 c (r.2.getD boundary)
  frame : ∀ pc, r.2 = some pc → FrameOk r.1 c { f with pc := pc }

/-! ### One access -/

@[simp] theorem own_setCount (k : Core) : (g.setCount c idx n).own k i = g.own k i := rfl

theorem untouched_refl : Untouched d g g :=
  ⟨fun _ => Iff.rfl, fun _ => rfl, rfl, rfl⟩

theorem untouched_setCount : Untouched c.other g (g.setCount c idx n) :=
  ⟨fun _ => Iff.rfl, fun _ => rfl, Function.update_of_ne c.other_ne _ _, rfl⟩

theorem untouched_setMask (mask : BitVec 64) : Untouched c.other g (g.setMask c mask) :=
  ⟨fun _ => Iff.rfl, fun _ => rfl, rfl, Function.update_of_ne c.other_ne _ _⟩

/-- An entry changes hands between nobody and core `c`. -/
theorem untouched_setEntry (h : (g.storage idx).owner ≠ some c.other)
    (h' : e.owner ≠ some c.other) : Untouched c.other g (g.setEntry idx e) := by
  refine ⟨fun i => ?_, fun i => ?_, rfl, rfl⟩
  · by_cases hi : i = idx
    · subst hi
      simp [Shared.setEntry, h, h']
    · simp [Shared.setEntry, hi]
  · by_cases hi : i = idx
    · subst hi
      simp [Shared.own, Shared.setEntry, h, h']
    · simp [Shared.own, Shared.setEntry, hi]

theorem depthOk_setEntry (h : g.DepthOk) (he : e.owner = none ↔ e.depth = 0) :
    (g.setEntry idx e).DepthOk := by
  intro i
  by_cases hi : i = idx
  · subst hi
    simpa [Shared.setEntry] using he
  · simpa [Shared.setEntry, hi] using h i

theorem own_setEntry (k : Core) : (g.setEntry idx e).own k i =
    if i = idx then if e.owner = some k then e.depth else 0 else g.own k i := by
  by_cases hi : i = idx
  · subst hi
    simp [Shared.own, Shared.setEntry]
  · simp [Shared.own, Shared.setEntry, hi]

theorem own_pos (h : 0 < g.own c i) : (g.storage i).owner = some c := by
  simp only [Shared.own] at h
  split at h
  · assumption
  · omega

theorem own_of_owner (hd : g.DepthOk) (h : (g.storage i).owner = some c) : 0 < g.own c i := by
  have hne : (g.storage i).depth ≠ 0 := fun h0 => by simp [(hd i).mpr h0] at h
  simp only [Shared.own, h, if_true]
  omega

/-- `recursive_mutex_exit` by the owner takes one level away. -/
theorem own_exit (hd : g.DepthOk) (h : (g.storage idx).owner = some c) :
    (g.setEntry idx (g.storage idx).exit).own c i + (if i = idx then 1 else 0) = g.own c i := by
  rw [own_setEntry]
  by_cases hi : i = idx
  · subst hi
    have hpos := own_of_owner hd h
    simp only [Shared.own, h, if_true] at hpos ⊢
    simp only [Entry.exit, h]
    split <;> simp_all <;> omega
  · simp [hi]

theorem owner_exit (hd : g.DepthOk) : (g.storage idx).exit.owner = none ↔
    (g.storage idx).exit.depth = 0 := by
  have hi := hd idx
  simp only [Entry.exit]
  split
  · simp_all
  · rename_i hne
    simp only [hi, hne, iff_false]
    omega

theorem getLsbD_bit (hidx : idx < 64) (hi : i < 64) : (bit idx).getLsbD i = decide (i = idx) := by
  simp only [bit, BitVec.getLsbD_shiftLeft]
  by_cases h : i = idx
  · subst h
    simp [hi]
  · simp only [h, decide_false]
    rcases Nat.lt_or_gt_of_ne h with hlt | hlt
    · simp [hlt]
    · have : ¬ i - idx = 0 := by omega
      simp [this]

/-- Between the accesses to the bookkeeping the core stands as at a boundary. -/
def Pc.plain : Pc → Bool
  | .setMask _ | .incCount _ | .decCount _ | .clearMask _ => false
  | pc => !pc.cleaning

theorem Pc.ahead_of_plain (hp : pc.plain = true) (i : ℕ) : pc.ahead i = 0 := by
  cases pc <;> first | rfl | cases hp

theorem Pc.maskOk_of_plain (hp : pc.plain = true) (i : ℕ) (b : Bool) (n : ℕ) :
    pc.MaskOk i b n ↔ (b = true ↔ 0 < n) := by
  cases pc <;> first | exact Iff.rfl | cases hp

theorem CoreOk.plain {pc' : Pc} (h : CoreOk g c pc) (hp : pc.plain = true) (hp' : pc'.plain = true) :
    CoreOk g c pc' := by
  refine ⟨fun i hi => ?_, fun i hi => ?_⟩
  · have hcount := h.count i hi
    rwa [Pc.ahead_of_plain hp, ← Pc.ahead_of_plain hp' i] at hcount
  · have hmask := h.mask i hi
    rwa [Pc.maskOk_of_plain hp, ← Pc.maskOk_of_plain hp' i] at hmask

/-- Nothing shared changes. -/
theorem moved_same {o : Option Pc} (hd : g.DepthOk) (hc : CoreOk g c f.pc) (hp : f.pc.plain = true)
    (ho : ∀ pc, o = some pc → pc.plain = true ∧ FrameOk g c { f with pc := pc }) :
    Moved g c f (g, o) := by
  refine ⟨hd, untouched_refl, ?_, fun pc h => (ho pc h).2⟩
  cases o with
  | none => exact hc.plain hp rfl
  | some pc => exact hc.plain hp (ho pc rfl).1

/-- Nothing changes that the bookkeeping depends on. -/
theorem CoreOk.congr (h : CoreOk g c pc) (ho : ∀ i, g'.own c i = g.own c i)
    (hn : g'.heldCounts c = g.heldCounts c) (hm : g'.heldMutexes c = g.heldMutexes c) :
    CoreOk g' c pc := by
  refine ⟨fun i hi => ?_, fun i hi => ?_⟩
  · rw [ho, hn]
    exact h.count i hi
  · rw [hn, hm]
    exact h.mask i hi

theorem holds_facts (h : g.holds c m = true) : 0 ≤ g.handle m ∧ g.handle m < maxMutexes ∧
    (g.storage (g.handle m).toNat).owner = some c := by
  simpa only [Shared.holds, decide_eq_true_eq] using h

theorem frameOk_of {pc' : Pc} (hf : FrameOk g c f) (hp : f.pc.cleaning = pc'.cleaning)
    (hpc : PcOk g' c { f with pc := pc' }) : FrameOk g' c { f with pc := pc' } :=
  ⟨by rw [hf.cleans, hp], hpc⟩

theorem moved_readHandle (hd : g.DepthOk) (hc : CoreOk g c .readHandle)
    (hf : FrameOk g c ⟨f.fn, f.m, .readHandle⟩) :
    Moved g c ⟨f.fn, f.m, .readHandle⟩ (exec g c ⟨f.fn, f.m, .readHandle⟩ signalled) := by
  have hpc := hf.pc
  simp only [PcOk] at hpc
  simp only [exec]
  by_cases hidx : 0 ≤ g.handle f.m ∧ g.handle f.m < maxMutexes
  · rw [if_pos hidx]
    apply moved_same hd hc rfl
    rintro _ ⟨⟩
    refine ⟨rfl, frameOk_of hf rfl ⟨by omega, fun h => (holds_facts (hpc h)).2.2⟩⟩
  · rw [if_neg hidx]
    cases hfn : f.fn <;> apply moved_same hd hc rfl <;> rintro _ ⟨⟩
    all_goals
      rw [hfn] at hf
      exact ⟨rfl, frameOk_of hf rfl trivial⟩

theorem moved_checkSlot (hd : g.DepthOk) (hc : CoreOk g c (.checkSlot idx))
    (hf : FrameOk g c ⟨f.fn, f.m, .checkSlot idx⟩) :
    Moved g c ⟨f.fn, f.m, .checkSlot idx⟩ (exec g c ⟨f.fn, f.m, .checkSlot idx⟩ signalled) := by
  obtain ⟨hlt, hown⟩ := hf.pc
  simp only [exec]
  cases hmag : (g.storage idx).magic <;> cases hfn : f.fn <;> apply moved_same hd hc rfl <;>
    rintro _ ⟨⟩
  all_goals
    rw [hfn] at hf hown
    refine ⟨rfl, frameOk_of hf rfl ?_⟩
    first
    | trivial
    | exact hlt
    | exact ⟨hlt, hown (by simp)⟩

theorem moved_tryEnter (hd : g.DepthOk) (hc : CoreOk g c (.tryEnter idx))
    (hf : FrameOk g c ⟨f.fn, f.m, .tryEnter idx⟩) :
    Moved g c ⟨f.fn, f.m, .tryEnter idx⟩ (exec g c ⟨f.fn, f.m, .tryEnter idx⟩ signalled) := by
  have hlt : idx < maxMutexes := hf.pc
  simp only [exec]
  cases he : Entry.tryEnter c (g.storage idx) with
  | none =>
    apply moved_same hd hc rfl
    intro pc hpc
    split at hpc
    · cases hpc
    · cases hpc
      exact ⟨rfl, frameOk_of hf rfl hlt⟩
  | some e =>
    simp only [Entry.tryEnter] at he
    split at he
    · rename_i howner
      cases he
      have hne : (g.storage idx).owner ≠ some c.other := by
        rcases howner with h | h
        · rw [h]
          rintro ⟨⟩
        · rw [h]
          intro heq
          exact c.other_ne (Option.some.inj heq).symm
      have hown : (g.storage idx).depth = g.own c idx := by
        rcases howner with h | h
        · simp [Shared.own, h, (hd idx).mp h]
        · simp [Shared.own, h]
      refine ⟨depthOk_setEntry hd (by simp), untouched_setEntry hne ?_, ⟨fun i hi => ?_, hc.mask⟩, ?_⟩
      · intro heq
        exact c.other_ne (Option.some.inj heq).symm
      · have hcount := hc.count i hi
        simp only [Option.getD_some, own_setEntry, Pc.ahead, if_true] at hcount ⊢
        by_cases hii : i = idx
        · subst hii
          simp only [if_true, hown, Shared.setEntry]
          omega
        · simp only [if_neg hii]
          exact hcount
      · rintro _ ⟨⟩
        exact frameOk_of hf rfl hlt
    · cases he

theorem moved_setMask (hd : g.DepthOk) (hc : CoreOk g c (.setMask idx))
    (hf : FrameOk g c ⟨f.fn, f.m, .setMask idx⟩) :
    Moved g c ⟨f.fn, f.m, .setMask idx⟩ (exec g c ⟨f.fn, f.m, .setMask idx⟩ signalled) := by
  have hlt : idx < maxMutexes := hf.pc
  refine ⟨hd, untouched_setMask _, ⟨hc.count, fun i hi => ?_⟩, ?_⟩
  · have hmask := hc.mask i hi
    simp only [exec, Option.getD_some, Pc.MaskOk, Shared.setMask, Function.update_self,
      BitVec.getLsbD_or, getLsbD_bit hlt hi, Bool.or_eq_true, decide_eq_true_eq] at hmask ⊢
    rw [hmask, or_comm]
  · rintro _ ⟨⟩
    exact frameOk_of hf rfl hlt

/-- A counter catches up with the depth of its slot. -/
theorem count_setCount {pc' : Pc} (hc : CoreOk g c pc) (hn : n = g.own c idx)
    (hother : ∀ i ≠ idx, pc.ahead i = 0) (hahead : ∀ i, pc'.ahead i = 0) :
    ∀ i < maxMutexes, ((g.setCount c idx n).own c i : ℤ) =
      (g.setCount c idx n).heldCounts c i + pc'.ahead i := by
  intro i hi
  have hcount := hc.count i hi
  rw [hahead, own_setCount]
  by_cases hii : i = idx
  · subst hii
    simp [Shared.setCount, hn]
  · rw [hother i hii] at hcount
    simpa [Shared.setCount, hii] using hcount

theorem moved_incCount (hd : g.DepthOk) (hc : CoreOk g c (.incCount idx))
    (hf : FrameOk g c ⟨f.fn, f.m, .incCount idx⟩) :
    Moved g c ⟨f.fn, f.m, .incCount idx⟩ (exec g c ⟨f.fn, f.m, .incCount idx⟩ signalled) := by
  have hlt : idx < maxMutexes := hf.pc
  have hidx := hc.count idx hlt
  simp only [Pc.ahead, if_true] at hidx
  refine ⟨hd, untouched_setCount, ⟨?_, fun i hi => ?_⟩, ?_⟩
  · exact count_setCount hc (by omega) (fun i hi => if_neg hi) fun _ => rfl
  · have hmask := hc.mask i hi
    by_cases hii : i = idx
    · subst hii
      simpa [exec, boundary, Pc.MaskOk, Shared.setCount] using hmask
    · simpa [exec, boundary, Pc.MaskOk, Shared.setCount, hii] using hmask
  · rintro _ ⟨⟩

/-- Either exit takes a level of a slot that the core owns. -/
theorem count_exit {pc' : Pc} (hd : g.DepthOk) (hc : CoreOk g c pc)
    (howner : (g.storage idx).owner = some c) (hplain : ∀ i, pc.ahead i = 0)
    (hahead : ∀ i, pc'.ahead i = if i = idx then -1 else 0) :
    ∀ i < maxMutexes, ((g.setEntry idx (g.storage idx).exit).own c i : ℤ) =
      (g.setEntry idx (g.storage idx).exit).heldCounts c i + pc'.ahead i := by
  intro i hi
  have hcount := hc.count i hi
  have hown := own_exit (i := i) hd howner
  have hsame : (g.setEntry idx (g.storage idx).exit).heldCounts c i = g.heldCounts c i := rfl
  rw [hplain] at hcount
  rw [hahead, hsame]
  split at hown
  · simp_all
    omega
  · simp_all

theorem untouched_exit (howner : (g.storage idx).owner = some c) :
    Untouched c.other g (g.setEntry idx (g.storage idx).exit) := by
  have hne : (some c : Option Core) ≠ some c.other := fun h => c.other_ne (Option.some.inj h).symm
  apply untouched_setEntry
  · rw [howner]
    exact hne
  · simp only [Entry.exit, howner]
    split
    · rintro ⟨⟩
    · exact hne

theorem moved_exit (hd : g.DepthOk) (hc : CoreOk g c (.exit idx))
    (hf : FrameOk g c ⟨f.fn, f.m, .exit idx⟩) :
    Moved g c ⟨f.fn, f.m, .exit idx⟩ (exec g c ⟨f.fn, f.m, .exit idx⟩ signalled) := by
  obtain ⟨hlt, howner⟩ := hf.pc
  refine ⟨depthOk_setEntry hd (owner_exit hd), untouched_exit howner,
    ⟨count_exit hd hc howner (fun _ => rfl) fun _ => rfl, hc.mask⟩, ?_⟩
  rintro _ ⟨⟩
  exact frameOk_of hf rfl hlt

theorem moved_decCount (hd : g.DepthOk) (hc : CoreOk g c (.decCount idx))
    (hf : FrameOk g c ⟨f.fn, f.m, .decCount idx⟩) :
    Moved g c ⟨f.fn, f.m, .decCount idx⟩ (exec g c ⟨f.fn, f.m, .decCount idx⟩ signalled) := by
  have hlt : idx < maxMutexes := hf.pc
  have hidx := hc.count idx hlt
  simp only [Pc.ahead, if_true] at hidx
  have hpos : g.heldCounts c idx > 0 := by omega
  simp only [exec, if_pos hpos]
  refine ⟨hd, untouched_setCount, ⟨?_, fun i hi => ?_⟩, ?_⟩
  · exact count_setCount hc (by omega) (fun i hi => if_neg hi) fun _ => rfl
  · have hmask := hc.mask i hi
    by_cases hii : i = idx
    · subst hii
      simp only [Pc.MaskOk] at hmask
      simpa [Pc.MaskOk, Shared.setCount] using hmask.mpr hpos
    · simpa [Pc.MaskOk, Shared.setCount, hii] using hmask
  · rintro _ ⟨⟩
    exact frameOk_of hf rfl hlt

theorem moved_clearMask (hd : g.DepthOk) (hc : CoreOk g c (.clearMask idx))
    (hf : FrameOk g c ⟨f.fn, f.m, .clearMask idx⟩) :
    Moved g c ⟨f.fn, f.m, .clearMask idx⟩ (exec g c ⟨f.fn, f.m, .clearMask idx⟩ signalled) := by
  have hlt : idx < maxMutexes := hf.pc
  simp only [exec]
  set g' := if g.heldCounts c idx = 0 then g.setMask c (g.heldMutexes c &&& ~~~(bit idx)) else g
    with hg'
  have hcases : (g.heldCounts c idx = 0 ∧ g' = g.setMask c (g.heldMutexes c &&& ~~~(bit idx))) ∨
      (g.heldCounts c idx > 0 ∧ g' = g) := by
    by_cases h0 : g.heldCounts c idx = 0
    · exact Or.inl ⟨h0, by rw [hg', if_pos h0]⟩
    · exact Or.inr ⟨by omega, by rw [hg', if_neg h0]⟩
  have hcore : CoreOk g' c boundary := by
    rcases hcases with ⟨h0, hs⟩ | ⟨hpos, hs⟩
    · rw [hs]
      refine ⟨hc.count, fun i hi => ?_⟩
      have hmask := hc.mask i hi
      simp only [boundary, Pc.MaskOk, Shared.setMask, Function.update_self, BitVec.getLsbD_and,
        BitVec.getLsbD_not, getLsbD_bit hlt hi] at hmask ⊢
      by_cases hii : i = idx
      · subst hii
        simp [h0]
      · simpa [hii, show i < 64 from hi] using hmask
    · rw [hs]
      refine ⟨hc.count, fun i hi => ?_⟩
      have hmask := hc.mask i hi
      simp only [boundary, Pc.MaskOk] at hmask ⊢
      rw [hmask]
      constructor
      · rintro (rfl | h)
        · exact hpos
        · exact h
      · exact Or.inr
  have hdepth : g'.DepthOk := by
    rcases hcases with ⟨-, hs⟩ | ⟨-, hs⟩ <;> rw [hs] <;> exact hd
  have hother : Untouched c.other g g' := by
    rcases hcases with ⟨-, hs⟩ | ⟨-, hs⟩ <;> rw [hs]
    · exact untouched_setMask _
    · exact untouched_refl
  refine ⟨hdepth, hother, ?_, fun pc h => ?_⟩
  · split
    · exact hcore.plain rfl rfl
    · exact hcore
  · split at h
    · cases h
      exact frameOk_of hf rfl trivial
    · cases h

theorem moved_initSlot (hd : g.DepthOk) (hc : CoreOk g c (.initSlot idx))
    (hf : FrameOk g c ⟨f.fn, f.m, .initSlot idx⟩) (hnone : (g.storage idx).owner = none) :
    Moved g c ⟨f.fn, f.m, .initSlot idx⟩ (exec g c ⟨f.fn, f.m, .initSlot idx⟩ signalled) := by
  have hown : ∀ i, (g.setEntry idx ⟨(g.storage idx).magic, none, 0⟩).own c i = g.own c i := by
    intro i
    rw [own_setEntry]
    by_cases hi : i = idx
    · subst hi
      simp [Shared.own, hnone]
    · simp [hi]
  refine ⟨depthOk_setEntry hd (by simp), untouched_setEntry (by simp [hnone]) (by simp),
    (hc.congr hown rfl rfl).plain rfl rfl, ?_⟩
  rintro _ ⟨⟩
  exact frameOk_of hf rfl hf.pc

theorem moved_setMagic (hd : g.DepthOk) (hc : CoreOk g c (.setMagic idx))
    (hf : FrameOk g c ⟨f.fn, f.m, .setMagic idx⟩) :
    Moved g c ⟨f.fn, f.m, .setMagic idx⟩ (exec g c ⟨f.fn, f.m, .setMagic idx⟩ signalled) := by
  have howner : ∀ i, ((g.setEntry idx { g.storage idx with magic := true }).storage i).owner =
      (g.storage i).owner ∧
      ((g.setEntry idx { g.storage idx with magic := true }).storage i).depth =
        (g.storage i).depth := by
    intro i
    by_cases hi : i = idx
    · subst hi
      simp [Shared.setEntry]
    · simp [Shared.setEntry, hi]
  have hown : ∀ k i, (g.setEntry idx { g.storage idx with magic := true }).own k i = g.own k i := by
    intro k i
    simp only [Shared.own, howner]
  refine ⟨fun i => ?_, ⟨fun i => ?_, hown _, rfl, rfl⟩, (hc.congr (hown c) rfl rfl).plain rfl rfl, ?_⟩
  · have hi := hd i
    simpa only [exec, howner] using hi
  · simp only [exec, howner]
  · rintro _ ⟨⟩
    exact frameOk_of hf rfl hf.pc

theorem moved_writeHandle (hd : g.DepthOk) (hc : CoreOk g c (.writeHandle idx))
    (hf : FrameOk g c ⟨f.fn, f.m, .writeHandle idx⟩) :
    Moved g c ⟨f.fn, f.m, .writeHandle idx⟩ (exec g c ⟨f.fn, f.m, .writeHandle idx⟩ signalled) := by
  simp only [exec]
  have hcore : CoreOk { g with handle := Function.update g.handle f.m idx } c boundary := by
    have hplain : CoreOk g c boundary := hc.plain rfl rfl
    exact hplain.congr (fun _ => rfl) rfl rfl
  refine ⟨hd, ⟨fun _ => Iff.rfl, fun _ => rfl, rfl, rfl⟩, ?_, fun pc h => ?_⟩
  · split
    · exact hcore
    · exact hcore.plain rfl rfl
  · split at h
    · cases h
    · cases h
      exact frameOk_of hf rfl hf.pc

theorem moved_sleep {mutexIdx : ℤ} (hd : g.DepthOk) (hc : CoreOk g c (.sleep mutexIdx))
    (hf : FrameOk g c ⟨f.fn, f.m, .sleep mutexIdx⟩) :
    Moved g c ⟨f.fn, f.m, .sleep mutexIdx⟩ (exec g c ⟨f.fn, f.m, .sleep mutexIdx⟩ signalled) := by
  simp only [exec]
  split
  · split
    · apply moved_same hd hc rfl
      rintro _ ⟨⟩
      exact ⟨rfl, frameOk_of hf rfl (by simp only [PcOk]; omega)⟩
    · apply moved_same hd hc rfl
      rintro _ ⟨⟩
  · apply moved_same hd hc rfl
    rintro _ ⟨⟩
    exact ⟨rfl, hf⟩

/-- While core 1 cleans up only its counters must agree with what it owns. -/
theorem CoreOk.cleaning {pc' : Pc} (h : CoreOk g c pc) (ha : ∀ i, pc'.ahead i = pc.ahead i)
    (hp : pc'.cleaning = true) : CoreOk g c pc' := by
  refine ⟨fun i hi => ?_, fun i _ => ?_⟩
  · rw [ha]
    exact h.count i hi
  · cases pc' <;> trivial

theorem moved_cleanSlot (hd : g.DepthOk) (hc : CoreOk g c (.cleanSlot i))
    (hf : FrameOk g c ⟨f.fn, f.m, .cleanSlot i⟩) :
    Moved g c ⟨f.fn, f.m, .cleanSlot i⟩ (exec g c ⟨f.fn, f.m, .cleanSlot i⟩ signalled) := by
  obtain ⟨hone, hbelow⟩ := hf.pc
  simp only [exec]
  by_cases hi : i < maxMutexes
  · by_cases hpos : g.heldCounts .one i > 0
    · simp only [if_pos hi, if_pos hpos]
      refine ⟨hd, untouched_refl, hc.cleaning (fun _ => rfl) rfl, ?_⟩
      rintro _ ⟨⟩
      exact frameOk_of hf rfl ⟨hone, hi, hpos, fun j hj => hbelow j hj (by omega)⟩
    · simp only [if_pos hi, if_neg hpos]
      refine ⟨hd, untouched_refl, hc.cleaning (fun _ => rfl) rfl, ?_⟩
      rintro _ ⟨⟩
      refine frameOk_of hf rfl ⟨hone, fun j hj hlt => ?_⟩
      rcases Nat.lt_succ_iff_lt_or_eq.mp hj with hj | rfl
      · exact hbelow j hj hlt
      · change g.heldCounts .one j = 0
        omega
  · simp only [if_neg hi]
    refine ⟨hd, untouched_refl, hc.cleaning (fun _ => rfl) rfl, ?_⟩
    rintro _ ⟨⟩
    exact frameOk_of hf rfl ⟨hone, fun j hj => hbelow j (by omega) hj⟩

theorem moved_cleanExit (hd : g.DepthOk) (hc : CoreOk g c (.cleanExit idx))
    (hf : FrameOk g c ⟨f.fn, f.m, .cleanExit idx⟩) :
    Moved g c ⟨f.fn, f.m, .cleanExit idx⟩ (exec g c ⟨f.fn, f.m, .cleanExit idx⟩ signalled) := by
  obtain ⟨hone, hlt, hpos, hbelow⟩ := hf.pc
  subst hone
  have hcount := hc.count idx hlt
  have howner : (g.storage idx).owner = some .one := by
    apply own_pos
    simp only [Pc.ahead] at hcount
    omega
  refine ⟨depthOk_setEntry hd (owner_exit hd), untouched_exit howner,
    ⟨count_exit hd hc howner (fun _ => rfl) fun _ => rfl, fun _ _ => trivial⟩, ?_⟩
  rintro _ ⟨⟩
  exact frameOk_of hf rfl ⟨rfl, hlt, hbelow⟩

theorem moved_cleanCount (hd : g.DepthOk) (hc : CoreOk g c (.cleanCount idx))
    (hf : FrameOk g c ⟨f.fn, f.m, .cleanCount idx⟩) :
    Moved g c ⟨f.fn, f.m, .cleanCount idx⟩ (exec g c ⟨f.fn, f.m, .cleanCount idx⟩ signalled) := by
  obtain ⟨hone, hlt, hbelow⟩ := hf.pc
  subst hone
  have hidx := hc.count idx hlt
  simp only [Pc.ahead, if_true] at hidx
  refine ⟨hd, untouched_setCount, ⟨?_, fun _ _ => trivial⟩, ?_⟩
  · exact count_setCount hc (by omega) (fun i hi => if_neg hi) fun _ => rfl
  · rintro _ ⟨⟩
    refine frameOk_of hf rfl ⟨rfl, fun j hj _ => ?_⟩
    have hne : j ≠ idx := by omega
    simpa [exec, Shared.setCount, hne] using hbelow j hj

theorem moved_cleanMask (hd : g.DepthOk) (hc : CoreOk g c .cleanMask)
    (hf : FrameOk g c ⟨f.fn, f.m, .cleanMask⟩) :
    Moved g c ⟨f.fn, f.m, .cleanMask⟩ (exec g c ⟨f.fn, f.m, .cleanMask⟩ signalled) := by
  obtain ⟨hone, hzero⟩ := hf.pc
  subst hone
  refine ⟨hd, untouched_setMask _, ⟨hc.count, fun i hi => ?_⟩, ?_⟩
  · have hi0 := hzero i hi
    simp [exec, boundary, Pc.MaskOk, Shared.setMask, hi0]
  · rintro _ ⟨⟩

/-- One access keeps the bookkeeping of both cores, if slot allocation finds a free slot. -/
theorem exec_moved (hd : g.DepthOk) (hc : CoreOk g c f.pc) (hf : FrameOk g c f)
    (hroom : f.pc = .readCount → g.mutexCount < maxMutexes)
    (hslot : ∀ idx, f.pc = .initSlot idx → (g.storage idx).owner = none) :
    Moved g c f (exec g c f signalled) := by
  obtain ⟨fn, m, pc⟩ := f
  cases pc with
  | readHandle => exact moved_readHandle (f := ⟨fn, m, .readHandle⟩) hd hc hf
  | checkSlot idx => exact moved_checkSlot (f := ⟨fn, m, .checkSlot idx⟩) hd hc hf
  | checkCount =>
    simp only [exec]
    split
    · apply moved_same hd hc rfl
      rintro _ ⟨⟩
    · apply moved_same hd hc rfl
      rintro _ ⟨⟩
      exact ⟨rfl, frameOk_of hf rfl trivial⟩
  | readCount =>
    apply moved_same hd hc rfl
    rintro _ ⟨⟩
    exact ⟨rfl, frameOk_of hf rfl (hroom rfl)⟩
  | writeCount count =>
    refine ⟨hd, ⟨fun _ => Iff.rfl, fun _ => rfl, rfl, rfl⟩, ?_, ?_⟩
    · have hplain : CoreOk g c (.initSlot count) := hc.plain rfl rfl
      exact hplain.congr (fun _ => rfl) rfl rfl
    · rintro _ ⟨⟩
      exact frameOk_of hf rfl hf.pc
  | initSlot idx => exact moved_initSlot (f := ⟨fn, m, .initSlot idx⟩) hd hc hf (hslot idx rfl)
  | setMagic idx => exact moved_setMagic (f := ⟨fn, m, .setMagic idx⟩) hd hc hf
  | writeHandle idx => exact moved_writeHandle (f := ⟨fn, m, .writeHandle idx⟩) hd hc hf
  | tryEnter idx => exact moved_tryEnter (f := ⟨fn, m, .tryEnter idx⟩) hd hc hf
  | wait idx =>
    apply moved_same hd hc rfl
    rintro _ ⟨⟩
    exact ⟨rfl, frameOk_of hf rfl hf.pc⟩
  | setMask idx => exact moved_setMask (f := ⟨fn, m, .setMask idx⟩) hd hc hf
  | incCount idx => exact moved_incCount (f := ⟨fn, m, .incCount idx⟩) hd hc hf
  | exit idx => exact moved_exit (f := ⟨fn, m, .exit idx⟩) hd hc hf
  | decCount idx => exact moved_decCount (f := ⟨fn, m, .decCount idx⟩) hd hc hf
  | clearMask idx => exact moved_clearMask (f := ⟨fn, m, .clearMask idx⟩) hd hc hf
  | sleep mutexIdx => exact moved_sleep (f := ⟨fn, m, .sleep mutexIdx⟩) hd hc hf
  | checkAgain idx =>
    simp only [exec]
    split
    · apply moved_same hd hc rfl
      rintro _ ⟨⟩
      exact ⟨rfl, frameOk_of hf rfl hf.pc⟩
    · apply moved_same hd hc rfl
      rintro _ ⟨⟩
  | cleanSlot i => exact moved_cleanSlot (f := ⟨fn, m, .cleanSlot i⟩) hd hc hf
  | cleanExit i => exact moved_cleanExit (f := ⟨fn, m, .cleanExit i⟩) hd hc hf
  | cleanCount i => exact moved_cleanCount (f := ⟨fn, m, .cleanCount i⟩) hd hc hf
  | cleanMask => exact moved_cleanMask (f := ⟨fn, m, .cleanMask⟩) hd hc hf

/-! ### Steps and runs -/

/-- Where the latest call of a core stands. -/
def State.top (s : State) (c : Core) : Pc := ((s.stack c).head?.map Frame.pc).getD boundary

structure Inv (s : State) : Prop where
  depth : s.shared.DepthOk
  core : ∀ c, CoreOk s.shared c (s.top c)
  frame : ∀ c f rest, s.stack c = f :: rest → FrameOk s.shared c f
  resting : ∀ c, ∀ f ∈ (s.stack c).tail, f.fn ≠ .cleanup ∧
    ((∃ mutexIdx, f.pc = .sleep mutexIdx) ∨ ∃ idx < maxMutexes, f.pc = .wait idx)

/-- Only the end of slot allocation writes an object. -/
theorem exec_handle (h : ∀ idx, f.pc = .writeHandle idx → m ≠ f.m) :
    (exec g c f signalled).1.handle m = g.handle m := by
  obtain ⟨fn, m', pc⟩ := f
  cases pc with
  | writeHandle idx => exact Function.update_of_ne (h idx rfl) _ _
  | _ =>
    simp only [exec]
    repeat' split
    all_goals rfl

/-- The other core may go on where it was, unless the object that it is about to read has changed. -/
theorem FrameOk.untouched (h : FrameOk g d f) (hu : Untouched d g g')
    (hm : f.pc = .readHandle → f.fn = .unlock ∨ f.fn = .condWait → g'.handle f.m = g.handle f.m) :
    FrameOk g' d f := by
  obtain ⟨hcl, hpc⟩ := h
  refine ⟨hcl, ?_⟩
  obtain ⟨fn, m, pc⟩ := f
  cases pc with
  | readHandle =>
    intro hfn
    have hholds := hpc hfn
    simp only [Shared.holds, decide_eq_true_eq, hm rfl hfn] at hholds ⊢
    exact ⟨hholds.1, hholds.2.1, (hu.owner _).mpr hholds.2.2⟩
  | checkSlot idx => exact ⟨hpc.1, fun hfn => (hu.owner idx).mpr (hpc.2 hfn)⟩
  | exit idx => exact ⟨hpc.1, (hu.owner idx).mpr hpc.2⟩
  | cleanSlot i =>
    obtain ⟨rfl, hb⟩ := hpc
    exact ⟨rfl, fun j hj hlt => by rw [hu.counts]; exact hb j hj hlt⟩
  | cleanExit i =>
    obtain ⟨rfl, hlt, hpos, hb⟩ := hpc
    exact ⟨rfl, hlt, by rw [hu.counts]; exact hpos, fun j hj => by rw [hu.counts]; exact hb j hj⟩
  | cleanCount i =>
    obtain ⟨rfl, hlt, hb⟩ := hpc
    exact ⟨rfl, hlt, fun j hj => by rw [hu.counts]; exact hb j hj⟩
  | cleanMask =>
    obtain ⟨rfl, hb⟩ := hpc
    exact ⟨rfl, fun j hj => by rw [hu.counts]; exact hb j hj⟩
  | _ => exact hpc

theorem CoreOk.untouched (h : CoreOk g d pc) (hu : Untouched d g g') : CoreOk g' d pc :=
  h.congr hu.depth hu.counts hu.mask

/-- A resting call asks nothing of the shared state, and stands as a boundary. -/
theorem resting_frameOk (hfn : f.fn ≠ .cleanup)
    (h : (∃ mutexIdx, f.pc = .sleep mutexIdx) ∨ ∃ idx < maxMutexes, f.pc = .wait idx) :
    FrameOk g c f ∧ f.pc.plain = true := by
  obtain ⟨fn, m, pc⟩ := f
  rcases h with ⟨mutexIdx, rfl⟩ | ⟨idx, hlt, rfl⟩
  · exact ⟨⟨by simpa [Pc.cleaning] using hfn, trivial⟩, rfl⟩
  · exact ⟨⟨by simpa [Pc.cleaning] using hfn, hlt⟩, rfl⟩

theorem inv_go {rest : List Frame} (hi : Inv s) (hs : s.stack c = f :: rest)
    (hm : Moved s.shared c f (exec s.shared c f signalled))
    (hobject : ∀ idx, f.pc = .writeHandle idx → s.leaving c.other f.m = false) :
    Inv (next s (c, .go signalled)) := by
  have hrest : ∀ f' ∈ rest, f'.fn ≠ .cleanup ∧ ((∃ mutexIdx, f'.pc = .sleep mutexIdx) ∨
      ∃ idx < maxMutexes, f'.pc = .wait idx) := by
    intro f' hf'
    exact hi.resting c f' (by rw [hs]; exact hf')
  have hnext : next s (c, .go signalled) = ⟨(exec s.shared c f signalled).1,
      Function.update s.stack c (f.next rest (exec s.shared c f signalled).2)⟩ := by
    simp only [next, hs]
  rw [hnext]
  have hother : ∀ d, d ≠ c → d = c.other := fun d hd => (c.eq_or_other d).resolve_left hd
  refine ⟨hm.depth, fun d => ?_, fun d f' rest' hf' => ?_, fun d f' hf' => ?_⟩
  · by_cases hd : d = c
    · subst hd
      have hcore := hm.core
      simp only [State.top, Function.update_self]
      cases ho : (exec s.shared d f signalled).2 with
      | some pc => simpa [Frame.next, ho] using hcore
      | none =>
        rw [ho] at hcore
        cases rest with
        | nil => exact hcore
        | cons f' rest' =>
          obtain ⟨hfn, hpc⟩ := hrest f' List.mem_cons_self
          exact hcore.plain rfl (resting_frameOk (g := s.shared) (c := d) hfn hpc).2
    · have hdo := hother d hd
      subst hdo
      have hcore := (hi.core c.other).untouched hm.other
      simpa only [State.top, Function.update_of_ne hd] using hcore
  · by_cases hd : d = c
    · subst hd
      simp only [Function.update_self] at hf'
      cases ho : (exec s.shared d f signalled).2 with
      | some pc =>
        rw [ho] at hf'
        simp only [Frame.next, List.cons.injEq] at hf'
        rw [← hf'.1]
        exact hm.frame pc ho
      | none =>
        rw [ho] at hf'
        simp only [Frame.next] at hf'
        obtain ⟨hfn, hpc⟩ := hrest f' (by rw [hf']; exact List.mem_cons_self)
        exact (resting_frameOk hfn hpc).1
    · have hdo := hother d hd
      subst hdo
      simp only [Function.update_of_ne hd] at hf'
      refine (hi.frame c.other f' rest' hf').untouched hm.other fun hpc hfn => exec_handle ?_
      rintro idx hidx heq
      obtain ⟨fn, m, pc⟩ := f'
      obtain rfl : pc = .readHandle := hpc
      have hleaving := hobject idx hidx
      simp only [State.leaving, hf', decide_eq_false_iff_not] at hleaving
      exact hleaving ⟨hfn, heq⟩
  · by_cases hd : d = c
    · subst hd
      simp only [Function.update_self] at hf'
      cases ho : (exec s.shared d f signalled).2 with
      | some pc =>
        rw [ho] at hf'
        exact hrest f' hf'
      | none =>
        rw [ho] at hf'
        exact hrest f' (List.mem_of_mem_tail hf')
    · simp only [Function.update_of_ne hd] at hf'
      exact hi.resting d f' hf'

theorem top_plain (h : s.callable c = true) : (s.top c).plain = true := by
  simp only [State.callable, State.top] at h ⊢
  cases hs : s.stack c with
  | nil => rfl
  | cons f rest =>
    rw [hs] at h
    simp only [List.head?_cons, Option.map_some, Option.getD_some]
    cases hpc : f.pc <;> simp_all [Pc.resting, Pc.plain, Pc.cleaning]

theorem inv_call {fn : Fn} (hi : Inv s) (hcall : s.callable c = true)
    (hmay : s.mayCall c m fn = true) : Inv (next s (c, .call fn m)) := by
  have hcore : CoreOk s.shared c fn.start := by
    have htop := hi.core c
    have hplain := top_plain hcall
    cases fn with
    | cleanup =>
      have hboundary : CoreOk s.shared c boundary := htop.plain hplain rfl
      exact hboundary.cleaning (fun _ => rfl) rfl
    | _ => exact htop.plain hplain rfl
  have hframe : FrameOk s.shared c ⟨fn, m, fn.start⟩ := by
    cases fn with
    | init => exact ⟨by simp [Fn.start, Pc.cleaning], trivial⟩
    | cleanup =>
      have hone : c = .one := by
        simp only [State.mayCall, decide_eq_true_eq] at hmay
        exact hmay.1
      exact ⟨by simp [Fn.start, Pc.cleaning], hone, fun j hj => absurd hj (Nat.not_lt_zero j)⟩
    | lock => exact ⟨by simp [Fn.start, Pc.cleaning], by rintro (h | h) <;> cases h⟩
    | trylock => exact ⟨by simp [Fn.start, Pc.cleaning], by rintro (h | h) <;> cases h⟩
    | unlock => exact ⟨by simp [Fn.start, Pc.cleaning], fun _ => hmay⟩
    | condWait => exact ⟨by simp [Fn.start, Pc.cleaning], fun _ => hmay⟩
  refine ⟨hi.depth, fun d => ?_, fun d f rest hf => ?_, fun d f hf => ?_⟩
  · by_cases hd : d = c
    · subst hd
      simpa [State.top, next] using hcore
    · simpa only [State.top, next, Function.update_of_ne hd] using hi.core d
  · by_cases hd : d = c
    · subst hd
      simp only [next, Function.update_self, List.cons.injEq] at hf
      rw [← hf.1]
      exact hframe
    · simp only [next, Function.update_of_ne hd] at hf
      exact hi.frame d f rest hf
  · by_cases hd : d = c
    · subst hd
      simp only [next, Function.update_self, List.tail_cons] at hf
      cases hs : s.stack d with
      | nil =>
        rw [hs] at hf
        cases hf
      | cons f' rest =>
        rw [hs] at hf
        rcases List.mem_cons.mp hf with rfl | hf
        · have hok := hi.frame d f rest hs
          simp only [State.callable, hs] at hcall
          obtain ⟨fn', m', pc⟩ := f
          cases pc with
          | wait idx => exact ⟨by simpa [Pc.cleaning] using hok.cleans, Or.inr ⟨idx, hok.pc, rfl⟩⟩
          | sleep k => exact ⟨by simpa [Pc.cleaning] using hok.cleans, Or.inl ⟨k, rfl⟩⟩
          | _ => cases hcall
        · exact hi.resting d f (by rw [hs]; exact hf)
    · simp only [next, Function.update_of_ne hd] at hf
      exact hi.resting d f hf

theorem initial_inv (memory : ℕ → ℤ) : Inv (State.initial memory) := by
  refine ⟨fun i => by simp [State.initial], fun c => ⟨fun i _ => ?_, fun i _ => ?_⟩, ?_, ?_⟩
  · simp [State.initial, State.top, Shared.own, boundary, Pc.ahead]
  · simp [State.initial, State.top, boundary, Pc.MaskOk]
  · rintro c f rest ⟨⟩
  · rintro c f ⟨⟩

theorem moved_of (signalled : Bool) (hi : Inv s) (hs : s.stack c = f :: rest) (hroom : Room s c = true)
    (hfresh : Fresh s c = true) : Moved s.shared c f (exec s.shared c f signalled) := by
  have hcore := hi.core c
  simp only [State.top, hs, List.head?_cons, Option.map_some, Option.getD_some] at hcore
  obtain ⟨fn, m, pc⟩ := f
  refine exec_moved hi.depth hcore (hi.frame c _ rest hs) ?_ ?_
  · rintro rfl
    simpa [Room, hs] using hroom
  · rintro idx rfl
    simpa [Fresh, hs] using hfresh

theorem inv_step {a : Core × Act} (hi : Inv s) (hs : Step s a t) (hroom : Room s a.1 = true)
    (hfresh : Fresh s a.1 = true) : Inv t := by
  obtain ⟨hen, rfl⟩ := hs
  obtain ⟨c, act⟩ := a
  cases act with
  | call fn m =>
    obtain ⟨hcall, hmay⟩ := Bool.and_eq_true_iff.mp hen
    exact inv_call hi hcall hmay
  | go signalled =>
    cases hst : s.stack c with
    | nil => simp [Enabled, hst] at hen
    | cons f rest =>
      refine inv_go hi hst (moved_of _ hi hst hroom hfresh) ?_
      obtain ⟨fn, m, pc⟩ := f
      rintro idx rfl
      simpa [Fresh, hst] using hfresh

theorem Inv.exact (hi : Inv s) : Exact s := by
  intro c hcall i hlt
  have hcore : CoreOk s.shared c boundary := (hi.core c).plain (top_plain hcall) rfl
  have hcount := hcore.count i hlt
  simp only [boundary, Pc.ahead] at hcount
  exact ⟨by omega, hcore.mask i hlt⟩

/-- The last access of the cleanup finds every counter of core 1 at 0. -/
theorem cleaned_step {a : Core × Act} (hi : Inv s) (hs : Step s a t) (hroom : Room s a.1 = true)
    (hfresh : Fresh s a.1 = true) : Cleaned s a t := by
  obtain ⟨-, rfl⟩ := hs
  rintro signalled f rest rfl hst hfn
  have hm := moved_of signalled hi hst hroom hfresh
  have hframe := hi.frame .one f rest hst
  simp only [next, hst, Function.update_self]
  refine ⟨fun i => hm.other.depth i, fun hret => ?_⟩
  obtain ⟨fn, m, pc⟩ := f
  have hcl := hframe.cleans.mp hfn
  have hcons : ∀ pc', (⟨fn, m, pc'⟩ : Frame) :: rest ≠ rest := fun pc' h => by
    simpa using congrArg List.length h
  cases pc with
  | cleanSlot i =>
    simp only [exec] at hret
    split at hret
    · split at hret <;> exact absurd hret (hcons _)
    · exact absurd hret (hcons _)
  | cleanExit i => exact absurd hret (hcons _)
  | cleanCount i => exact absurd hret (hcons _)
  | cleanMask =>
    obtain ⟨-, hzero⟩ := hframe.pc
    refine ⟨by simp [exec, Shared.setMask], fun i hlt => ⟨hzero i hlt, fun howner => ?_⟩⟩
    have hcore := hi.core .one
    simp only [State.top, hst, List.head?_cons, Option.map_some, Option.getD_some] at hcore
    have hcount := hcore.count i hlt
    have hpos := own_of_owner hi.depth howner
    have h0 := hzero i hlt
    simp only [Pc.ahead] at hcount
    omega
  | _ => cases hcl

/-- In every interleaving whose allocations find free slots the bookkeeping is exact at every call
boundary, and the cleanup of core 1 frees what that core owns and nothing else. -/
theorem bookkeeping_exact (memory : ℕ → ℤ) (xs : List ((Core × Act) × State))
    (hrun : Lts.Run Step (State.initial memory) xs)
    (hroom : Lts.Run (fun s a _ => Room s a.1 = true) (State.initial memory) xs)
    (hfresh : Lts.Run (fun s a _ => Fresh s a.1 = true) (State.initial memory) xs) :
    Lts.Always Exact (State.initial memory) xs ∧ Lts.Run Cleaned (State.initial memory) xs := by
  have hall := Lts.run_and.mpr ⟨hrun, Lts.run_and.mpr ⟨hroom, hfresh⟩⟩
  obtain ⟨hinv, hclean⟩ := hall.keeps (p := Inv) (c := Cleaned) (initial_inv memory)
    fun u a v hu hs => ⟨inv_step hu hs.1 hs.2.1 hs.2.2, cleaned_step hu hs.1 hs.2.1 hs.2.2⟩
  exact ⟨hinv.imp fun u hu => hu.exact, hclean⟩

/-- `n` accesses in a row of one core. -/
def steps (c : Core) (n : ℕ) : List (Core × Act) := List.replicate n (c, .go true)

/-- Core 1 locks a mutex twice, waits on it, and ends while it still holds it. -/
def abandoned : List (Core × Act) :=
  [(.zero, .call .init 0)] ++ steps .zero 6 ++ [(.one, .call .lock 0)] ++ steps .one 5 ++
    [(.one, .call .lock 0)] ++ steps .one 5 ++ [(.one, .call .condWait 0)] ++ steps .one 10 ++
    [(.one, .call .cleanup 0)] ++ steps .one 72

theorem bookkeeping_exact_abandoned :
    let s₀ := State.initial fun _ => -1
    let xs := Lts.trace next s₀ abandoned
    (Lts.Always Exact s₀ xs ∧ Lts.Run Cleaned s₀ xs) ∧ (abandoned.foldl next s₀).stack .one = [] ∧
      ((abandoned.foldl next s₀).shared.storage 0).owner = none := by
  intro s₀ xs
  have hok : Lts.accepts (fun s a => Enabled s a && (Room s a.1 && Fresh s a.1)) next s₀ abandoned =
      true := by decide +kernel
  have hall := Lts.run_accepts _ hok
  have hstep : ∀ u a v, (Enabled u a && (Room u a.1 && Fresh u a.1)) = true ∧ v = next u a →
      Step u a v ∧ Room u a.1 = true ∧ Fresh u a.1 = true := by
    intro u a v h
    simp only [Bool.and_eq_true] at h
    exact ⟨⟨h.1.1, h.2⟩, h.1.2⟩
  obtain ⟨hrun, hrest⟩ := Lts.run_and.mp (hall.imp hstep)
  obtain ⟨hroom, hfresh⟩ := Lts.run_and.mp hrest
  exact ⟨bookkeeping_exact _ _ hrun hroom hfresh, by decide +kernel, by decide +kernel⟩

/-- Both cores take slot 0, and the second `recursive_mutex_init` frees the first core's mutex. -/
theorem bookkeeping_broken :
    ¬ ∀ (memory : ℕ → ℤ) (xs : List ((Core × Act) × State)),
      Lts.Run Step (State.initial memory) xs →
        Lts.Run (fun s a _ => Room s a.1 = true) (State.initial memory) xs →
          Lts.Always Exact (State.initial memory) xs ∧
            Lts.Run Cleaned (State.initial memory) xs := by
  intro h
  let raced : List (Core × Act) := [(.zero, .call .lock 0), (.one, .call .lock 1)] ++
    steps .zero 3 ++ steps .one 3 ++ steps .zero 7 ++ steps .one 2
  have hok : Lts.accepts (fun s a => Enabled s a && Room s a.1) next (State.initial fun _ => -1)
      raced = true := by decide +kernel
  have hall := Lts.run_accepts _ hok
  have hstep : ∀ u a v, (Enabled u a && Room u a.1) = true ∧ v = next u a →
      Step u a v ∧ Room u a.1 = true := by
    intro u a v h
    simp only [Bool.and_eq_true] at h
    exact ⟨⟨h.1.1, h.2⟩, h.1.2⟩
  obtain ⟨hrun, hroom⟩ := Lts.run_and.mp (hall.imp hstep)
  obtain ⟨hexact, -⟩ := h _ _ hrun hroom
  have hlast := hexact.last
  rw [Lts.last_trace] at hlast
  have hcount := (hlast .zero (by decide +kernel) 0 (by decide)).1
  exact absurd hcount (by decide +kernel)

end PicoOcaml.OcamlStubs.Tracking
