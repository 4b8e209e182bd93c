import PicoOcaml.Clock

/-! The display takes the time of one synchronisation as long as none of them stores one half of
the time base between its two reads. -/
namespace PicoOcaml.Clock

variable {utcOffsetHours : ℤ} {s t : State} {a : Act} {xs : List (Act × State)}

/-- Core 0 has stored `base_secs` and not yet `sync_ms`. -/
def State.halfway (s : State) : Bool :=
  match s.core0 with
  | .waiting => false
  | _ => true

/-- The step stores `sync_ms`. -/
def storesSync (s : State) : Act → Bool
  | .core0 =>
    match s.core0 with
    | .setSync _ => true
    | _ => false
  | _ => false

/-- Between the two reads of an iteration core 0 stores `sync_ms` once if it was halfway at the
first one, and otherwise not at all. -/
def Undisturbed (s : State) (xs : List (Act × State)) : Prop :=
  ∀ pre t mid u post, xs = pre ++ (.core1, t) :: (mid ++ (.core1, u) :: post) →
    (Lts.last s pre).core1 = .getBase → (∀ x ∈ mid, x.1 ≠ .core1) →
      Lts.count storesSync t mid = if (Lts.last s pre).halfway then 1 else 0

/-- The time shown is what one stored pair gives. -/
def State.Consistent (s : State) (a : Act) (_ : State) : Prop :=
  ∀ bs sm, a = .core1 → s.core1 = .readTime bs sm →
    ∃ p ∈ s.pairs, daySecs bs sm (timeMs s.us) = daySecs p.1 p.2 (timeMs s.us)

/-- The display finds the `sync_ms` of the synchronisation whose `base_secs` it has read. -/
def State.Untorn (s : State) (a : Act) (_ : State) : Prop :=
  ∀ bs sync, a = .core1 → s.core1 = .getSync bs sync → s.syncSync = sync

/-- Two halves of the time base with the same number have been stored as a pair. -/
structure Paired (s : State) : Prop where
  order : s.syncSync ≤ s.baseSync
  stored : s.syncSync = s.baseSync → (s.baseSecs, s.syncMs) ∈ s.pairs
  read : ∀ bs sync, s.core1 = .getSync bs sync →
    sync ≤ s.baseSync ∧ (sync = s.baseSync → bs = s.baseSecs) ∧
      (s.syncSync = sync → (bs, s.syncMs) ∈ s.pairs)
  both : ∀ bs sm, s.core1 = .readTime bs sm → (bs, sm) ∈ s.pairs

theorem step_paired (hi : Paired s) (hu : s.Untorn a t) (hs : Step utcOffsetHours s a t) :
    Paired t := by
  cases hs with
  | tick us => exact ⟨hi.order, hi.stored, hi.read, hi.both⟩
  | failed reply => exact hi
  | setBase b0 b1 b2 b3 h =>
    have hord := hi.order
    refine ⟨?_, ?_, ?_, hi.both⟩
    · apply Nat.le_succ_of_le hord
    · intro heq
      change s.syncSync = s.baseSync + 1 at heq
      omega
    · intro bs sync hpc
      obtain ⟨hle, -, hpair⟩ := hi.read bs sync hpc
      refine ⟨Nat.le_succ_of_le hle, ?_, hpair⟩
      intro heq
      change sync = s.baseSync + 1 at heq
      omega
  | waiting h => exact hi
  | readTime h => exact ⟨hi.order, hi.stored, hi.read, hi.both⟩
  | setSync ms h =>
    refine ⟨le_rfl, ?_, ?_, ?_⟩
    · intro _
      simp
    · intro bs sync hpc
      obtain ⟨hle, hbase, -⟩ := hi.read bs sync hpc
      refine ⟨hle, hbase, ?_⟩
      intro heq
      simp [hbase heq.symm]
    · intro bs sm hpc
      exact List.mem_append_left _ (hi.both bs sm hpc)
  | getBase h =>
    refine ⟨hi.order, hi.stored, ?_, ?_⟩
    · rintro _ _ ⟨⟩
      exact ⟨le_rfl, fun _ => rfl, hi.stored⟩
    · rintro _ _ ⟨⟩
  | getSync bs sync h =>
    refine ⟨hi.order, hi.stored, ?_, ?_⟩
    · rintro _ _ ⟨⟩
    · rintro _ _ ⟨⟩
      exact (hi.read bs sync h).2.2 (hu bs sync rfl h)
  | shown bs sm outputs h hd =>
    exact ⟨hi.order, hi.stored, by rintro _ _ ⟨⟩, by rintro _ _ ⟨⟩⟩
  | raised bs sm h hd => exact ⟨hi.order, hi.stored, by rintro _ _ ⟨⟩, by rintro _ _ ⟨⟩⟩
  | dead h => exact hi

theorem initial_paired : Paired State.initial := by
  refine ⟨le_rfl, ?_, ?_, ?_⟩
  · intro _
    exact List.mem_singleton_self _
  · rintro _ _ ⟨⟩
  · rintro _ _ ⟨⟩

/-! ### Between the two reads -/

/-- The numbers of the synchronisations count their stores. -/
def Numbered (s : State) : Prop := s.baseSync = s.syncSync + if s.halfway then 1 else 0

theorem step_numbered (h : Numbered s) (hs : Step utcOffsetHours s a t) :
    Numbered t ∧ t.syncSync = s.syncSync + if storesSync s a then 1 else 0 := by
  cases hs with
  | setBase b0 b1 b2 b3 hpc => simp_all [Numbered, State.halfway, storesSync]
  | readTime hpc => simp_all [Numbered, State.halfway, storesSync]
  | setSync ms hpc => simp_all [Numbered, State.halfway, storesSync]
  | waiting hpc => exact ⟨h, by simp [storesSync, hpc]⟩
  | _ => exact ⟨h, by simp [storesSync]⟩

theorem step_core1 (hs : Step utcOffsetHours s a t) (ha : a ≠ .core1) : t.core1 = s.core1 := by
  cases hs <;> first | rfl | exact absurd rfl ha

/-- Other steps than those of core 1 leave it where it is, and count the stores of `sync_ms`. -/
theorem run_between (h : Lts.Run (Step utcOffsetHours) s xs) (hn : Numbered s)
    (hmid : ∀ x ∈ xs, x.1 ≠ .core1) : Numbered (Lts.last s xs) ∧
      (Lts.last s xs).core1 = s.core1 ∧
      (Lts.last s xs).syncSync = s.syncSync + Lts.count storesSync s xs := by
  induction xs generalizing s with
  | nil => exact ⟨hn, rfl, rfl⟩
  | cons x xs ih =>
    obtain ⟨a, t⟩ := x
    obtain ⟨hn', hsync⟩ := step_numbered hn h.1
    have hpc := step_core1 h.1 (hmid (a, t) (List.mem_cons_self ..))
    obtain ⟨hlast, hcore, hcount⟩ := ih h.2 hn' fun x hx => hmid x (List.mem_cons_of_mem _ hx)
    refine ⟨hlast, hcore.trans hpc, ?_⟩
    rw [Lts.last_cons, Lts.count_cons, hcount, hsync]
    omega

theorem run_numbered (h : Lts.Run (Step utcOffsetHours) State.initial xs) :
    Numbered (Lts.last State.initial xs) :=
  (h.always (p := Numbered) rfl fun _ _ _ hu hs => (step_numbered hu hs).1).last

/-- At the second read the number that was read with `base_secs` is still that of `sync_ms` just
when core 0 has stored `sync_ms` as often in between as it was halfway. -/
theorem untorn_between {pre mid : List (Act × State)}
    (h : Lts.Run (Step utcOffsetHours) State.initial (pre ++ (.core1, t) :: mid))
    (hpc : (Lts.last State.initial pre).core1 = .getBase) (hmid : ∀ x ∈ mid, x.1 ≠ .core1) :
    ∃ bs sync, (Lts.last t mid).core1 = .getSync bs sync ∧
      ((Lts.last t mid).syncSync = sync ↔
        Lts.count storesSync t mid = if (Lts.last State.initial pre).halfway then 1 else 0) := by
  obtain ⟨hpre, hstep, hrun⟩ := Lts.run_append.mp h
  have hnum := run_numbered hpre
  obtain ⟨hn, -⟩ := step_numbered hnum hstep
  obtain ⟨-, hcore, hcount⟩ := run_between hrun hn hmid
  generalize Lts.last State.initial pre = s at hpc hnum hstep
  cases hstep with
  | getBase _ =>
    refine ⟨s.baseSecs, s.baseSync, hcore, ?_⟩
    have hsync : (Lts.last { s with core1 := .getSync s.baseSecs s.baseSync } mid).syncSync =
      s.syncSync + Lts.count storesSync { s with core1 := .getSync s.baseSecs s.baseSync } mid := hcount
    rw [Numbered] at hnum
    omega
  | getSync bs sync hpc' => cases hpc.symm.trans hpc'
  | shown bs sm outputs hpc' hd => cases hpc.symm.trans hpc'
  | raised bs sm hpc' hd => cases hpc.symm.trans hpc'
  | dead hpc' => cases hpc.symm.trans hpc'

/-- Where core 1 is about to read `sync_ms`, it has read `base_secs` and nothing since. -/
theorem cut_of_getSync {bs : ℤ} {sync : ℕ} (h : Lts.Run (Step utcOffsetHours) State.initial xs)
    (hpc : (Lts.last State.initial xs).core1 = .getSync bs sync) :
    ∃ pre t mid, xs = pre ++ (.core1, t) :: mid ∧ (Lts.last State.initial pre).core1 = .getBase ∧
      ∀ x ∈ mid, x.1 ≠ .core1 := by
  induction xs using List.reverseRecOn with
  | nil => cases hpc
  | append_singleton xs x ih =>
    obtain ⟨a, t⟩ := x
    obtain ⟨hrun, hstep, -⟩ := Lts.run_append.mp h
    rw [Lts.last_append, Lts.last_cons, Lts.last_nil] at hpc
    by_cases ha : a = .core1
    · subst ha
      refine ⟨xs, t, [], rfl, ?_, by simp⟩
      generalize Lts.last State.initial xs = s at hstep
      cases hstep with
      | getBase hpc' => exact hpc'
      | getSync bs' sync' hpc' => cases hpc
      | shown bs' sm outputs hpc' hd => cases hpc
      | raised bs' sm hpc' hd => cases hpc
      | dead hpc' => cases hpc.symm.trans hpc'
    · rw [step_core1 hstep ha] at hpc
      obtain ⟨pre, u, mid, rfl, hbase, hmid⟩ := ih hrun hpc
      refine ⟨pre, u, mid ++ [(a, t)], by simp, hbase, fun x hx => ?_⟩
      rcases List.mem_append.mp hx with hx | hx
      · exact hmid x hx
      · rw [List.mem_singleton.mp hx]
        exact ha

/-- The condition on the stores says when the display reads the two halves of one synchronisation. -/
theorem undisturbed_iff (h : Lts.Run (Step utcOffsetHours) State.initial xs) :
    Undisturbed State.initial xs ↔ Lts.Run State.Untorn State.initial xs := by
  rw [Lts.run_iff_cut]
  constructor
  · rintro hun pre a t post rfl bs sync rfl hpc
    obtain ⟨before, u, mid, rfl, hbase, hmid⟩ := cut_of_getSync (Lts.run_append.mp h).1 hpc
    obtain ⟨bs', sync', hpc', hiff⟩ := untorn_between (Lts.run_append.mp h).1 hbase hmid
    rw [Lts.last_append, Lts.last_cons] at hpc ⊢
    cases hpc'.symm.trans hpc
    exact hiff.mpr (hun before u mid t post (by simp) hbase hmid)
  · rintro hun pre t mid u post rfl hbase hmid
    have hcut : pre ++ (Act.core1, t) :: (mid ++ (Act.core1, u) :: post) =
        (pre ++ (.core1, t) :: mid) ++ (.core1, u) :: post := by simp
    rw [hcut] at h
    obtain ⟨bs, sync, hpc, hiff⟩ := untorn_between (Lts.run_append.mp h).1 hbase hmid
    have hlast : Lts.last State.initial (pre ++ (.core1, t) :: mid) = Lts.last t mid := by
      rw [Lts.last_append, Lts.last_cons]
    have hread := hun (pre ++ (.core1, t) :: mid) .core1 u post hcut bs sync rfl (hlast ▸ hpc)
    rw [hlast] at hread
    exact hiff.mp hread

theorem run_next (acts : List Act) : Lts.Run (Step utcOffsetHours) State.initial
    (Lts.trace (State.next utcOffsetHours) State.initial acts) := by
  refine Lts.run_trace.imp ?_
  rintro u a v rfl
  exact step_next a

/-- No time shown is torn in a run in which core 0 stores nothing between the two reads of an
iteration, but for the rest of a synchronisation that it was in the middle of. -/
theorem time_base_untorn (utcOffsetHours : ℤ) (acts : List Act)
    (h : Undisturbed State.initial
      (Lts.trace (State.next utcOffsetHours) State.initial acts)) :
    Lts.Run State.Consistent State.initial
      (Lts.trace (State.next utcOffsetHours) State.initial acts) := by
  have hrun := Lts.run_and.mpr ⟨run_next acts, (undisturbed_iff (run_next acts)).mp h⟩
  refine (hrun.keeps initial_paired ?_).2
  rintro s a t hi ⟨hs, hu⟩
  refine ⟨step_paired hi hu hs, ?_⟩
  intro bs sm _ hpc
  exact ⟨(bs, sm), hi.both bs sm hpc, rfl⟩

/-- `State.Untorn`, as a test. -/
def untorn (s : State) : Act → Bool
  | .core1 =>
    match s.core1 with
    | .getSync _ sync => s.syncSync = sync
    | _ => true
  | _ => true

/-- One synchronisation, and one iteration of the display after it. -/
theorem time_base_untorn_after :
    Lts.Run State.Consistent State.initial
      (Lts.trace (State.next 1) State.initial
        [.tick 10000000, .ntp (some (0, 0, 0, 0)), .core0, .core0, .core1, .core1, .core1]) := by
  apply time_base_untorn
  rw [undisturbed_iff (run_next _)]
  refine (Lts.run_accepts untorn (by decide)).imp ?_
  rintro s a t ⟨htest, -⟩ bs sync rfl hpc
  simpa [untorn, hpc] using htest

/-- A synchronisation between the two reads: it stores one o'clock at 10 s, and midnight is
shown. -/
theorem time_base_torn :
    ¬ ∀ (utcOffsetHours : ℤ) (acts : List Act),
      Lts.Run State.Consistent State.initial
        (Lts.trace (State.next utcOffsetHours) State.initial acts) := by
  intro h
  obtain ⟨-, -, -, -, -, -, hshown, -⟩ := h 1
    [.core1, .tick 10000000, .ntp (some (0, 0, 0, 0)), .core0, .core0, .core1, .core1]
  obtain ⟨p, hp, heq⟩ := hshown 0 10000 rfl rfl
  rcases List.mem_pair.mp hp with rfl | rfl
  · exact absurd heq (by decide)
  · exact absurd heq (by decide)

end PicoOcaml.Clock
