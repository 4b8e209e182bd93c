import PicoOcaml.OcamlStubs.Core1

/-! The launch and join handshake, as long as no stale flag is read and no pair overwritten. -/
namespace PicoOcaml.OcamlStubs.Core1

variable {F A : Type*} {s t : State F A} {a : Act F A}

/-- Core 1 still has to call the latest pair, or has called all. -/
def History (s : State F A) : Prop :=
  match s.pc1 with
  | .setStarted | .clearFinished | .loadFunc => s.launched = s.ran ++ [(s.entryFunc, s.entryArg)]
  | .loadArg f => s.launched = s.ran ++ [(f, s.entryArg)]
  | _ => s.launched = s.ran

/-- How far the cleanup is. -/
def Released (s : State F A) : Prop :=
  match s.pc1 with
  | .cleanup i => ∀ j < i, s.heldCounts j = 0
  | .clearMask => ∀ j < maxMutexes, s.heldCounts j = 0
  | .resetBackup | .setFinished | .parked =>
    (∀ j < maxMutexes, s.heldCounts j = 0) ∧ s.heldMutexes = 0
  | _ => True

def Flags (s : State F A) : Prop :=
  match s.pc1 with
  | .off => (s.launched = [] ∧ s.finished = false) ∨ ∃ f arg, s.pc0 = .launch f arg
  | .setStarted => s.pc0 = .waitStarted ∧ s.started = false
  | .clearFinished | .parked => True
  | _ => s.finished = false

/-- What core 0 knows at each point of `pthread_create`. -/
def Creating (s : State F A) : Prop :=
  match s.pc0 with
  | .idle | .joinWait | .waitStarted => s.createCount / 2 = s.launched.length
  | .storeFunc _ _ => s.createCount = 2 * (s.launched.length + 1)
  | .storeArg f _ => s.createCount = 2 * (s.launched.length + 1) ∧ s.entryFunc = some f
  | .clearStarted f arg =>
    s.createCount = 2 * (s.launched.length + 1) ∧ s.entryFunc = some f ∧ s.entryArg = some arg
  | .waitFinished f arg =>
    s.createCount = 2 * (s.launched.length + 1) ∧ s.entryFunc = some f ∧ s.entryArg = some arg ∧
      s.started = false
  | .reset f arg =>
    s.createCount = 2 * (s.launched.length + 1) ∧ s.entryFunc = some f ∧ s.entryArg = some arg ∧
      s.started = false ∧ s.pc1 = .parked
  | .launch f arg =>
    s.createCount = 2 * (s.launched.length + 1) ∧ s.entryFunc = some f ∧ s.entryArg = some arg ∧
      s.started = false ∧ s.pc1 = .off

structure Inv (s : State F A) : Prop where
  history : History s
  released : Released s
  flags : Flags s
  begun : s.launched = [] → s.pc1 = .off
  creating : Creating s

theorem initial_inv : Inv (State.initial : State F A) :=
  ⟨rfl, trivial, Or.inl ⟨rfl, rfl⟩, fun _ => rfl, Nat.zero_div 2⟩

/-- The flag that ends a wait of core 0 tells the truth unless core 1 is about to clear it. -/
theorem parked_of_finished (h : Inv s) (hfin : s.finished = true) (hlate : s.pc1 ≠ .clearFinished)
    (hwait : ∀ f arg, s.pc0 ≠ .launch f arg) (hstart : s.pc0 ≠ .waitStarted) :
    s.pc1 = .parked := by
  have hf := h.flags
  simp only [Flags] at hf
  cases hp : s.pc1 <;> simp_all

theorem done_of_parked (h : Inv s) (hp : s.pc1 = .parked) : Done s := by
  obtain ⟨hh, hr, -, -, -⟩ := h
  simp only [History, Released, hp] at hh hr
  exact ⟨hp, hh.symm, hr.1, hr.2⟩

/-- Core 0 moves on where core 1 does not look at it. -/
theorem Flags.move (hf : Flags s) (hpc : t.pc1 = s.pc1) (hfin : t.finished = s.finished)
    (hl : t.launched = s.launched) (hlaunch : ∀ f arg, s.pc0 ≠ .launch f arg)
    (hwait : s.pc0 ≠ .waitStarted) : Flags t := by
  simp only [Flags, hpc, hfin, hl] at hf ⊢
  cases hq : s.pc1 with
  | off =>
    simp only [hq] at hf
    rcases hf with hf | ⟨f, arg, hf⟩
    · exact .inl hf
    · exact absurd hf (hlaunch f arg)
  | setStarted =>
    simp only [hq] at hf
    exact absurd hf.1 hwait
  | clearFinished => trivial
  | parked => trivial
  | _ => simpa only [hq] using hf

theorem not_starting (hf : Flags s) (hwait : s.pc0 ≠ .waitStarted) : s.pc1 ≠ .setStarted := by
  intro hq
  simp only [Flags, hq] at hf
  exact hwait hf.1

/-- The pair may be replaced once core 1 has loaded the previous one. -/
theorem history_storeFunc (hh : History s) (hstart : s.pc1 ≠ .setStarted)
    (hclear : s.pc1 ≠ .clearFinished) (hload : s.pc1 ≠ .loadFunc) (f : Option F) (pc : Pc0 F A) :
    History { s with entryFunc := f, pc0 := pc } := by
  simp only [History] at hh ⊢
  cases hq : s.pc1 with
  | setStarted => exact absurd hq hstart
  | clearFinished => exact absurd hq hclear
  | loadFunc => exact absurd hq hload
  | _ => simpa only [hq] using hh

theorem history_storeArg (hh : History s) (hstart : s.pc1 ≠ .setStarted)
    (hclear : s.pc1 ≠ .clearFinished) (hload : s.pc1 ≠ .loadFunc) (harg : ∀ f, s.pc1 ≠ .loadArg f)
    (arg : Option A) (pc : Pc0 F A) : History { s with entryArg := arg, pc0 := pc } := by
  simp only [History] at hh ⊢
  cases hq : s.pc1 with
  | setStarted => exact absurd hq hstart
  | clearFinished => exact absurd hq hclear
  | loadFunc => exact absurd hq hload
  | loadArg f => exact absurd hq (harg f)
  | _ => simpa only [hq] using hh

/-- Core 0 only moves its program counter. -/
theorem inv_setPc0 (h : Inv s) {pc : Pc0 F A} (hlaunch : ∀ f arg, s.pc0 ≠ .launch f arg)
    (hwait : s.pc0 ≠ .waitStarted) (hc : Creating { s with pc0 := pc }) :
    Inv { s with pc0 := pc } :=
  ⟨h.history, h.released, h.flags.move rfl rfl rfl hlaunch hwait, h.begun, hc⟩

theorem storeFunc_inv (h : Inv s) {f : F} {arg : A} (hp : s.pc0 = .storeFunc f arg)
    (hs : safe s .go0 = true) : Inv { s with entryFunc := some f, pc0 := .storeArg f arg } := by
  have hstart := not_starting h.flags (by simp [hp])
  have hc := h.creating
  simp only [Creating, hp] at hc
  refine ⟨history_storeFunc h.history hstart ?_ ?_ _ _, h.released,
    h.flags.move rfl rfl rfl (by simp [hp]) (by simp [hp]), h.begun, hc, rfl⟩
  · intro hq
    simp [safe, hp, hq] at hs
  · intro hq
    simp [safe, hp, hq] at hs

theorem storeArg_inv (h : Inv s) {f : F} {arg : A} (hp : s.pc0 = .storeArg f arg)
    (hs : safe s .go0 = true) : Inv { s with entryArg := some arg, pc0 := .clearStarted f arg } := by
  have hstart := not_starting h.flags (by simp [hp])
  have hc := h.creating
  simp only [Creating, hp] at hc
  refine ⟨history_storeArg h.history hstart ?_ ?_ ?_ _ _, h.released,
    h.flags.move rfl rfl rfl (by simp [hp]) (by simp [hp]), h.begun, hc.1, hc.2, rfl⟩
  · intro hq
    simp [safe, hp, hq] at hs
  · intro hq
    simp [safe, hp, hq] at hs
  · intro f' hq
    simp [safe, hp, hq] at hs

theorem clearStarted_inv (h : Inv s) {f : F} {arg : A} (hp : s.pc0 = .clearStarted f arg) :
    Inv { s with started := false
                 pc0 := if s.createCount > 2 then .waitFinished f arg else .launch f arg } := by
  have hc := h.creating
  simp only [Creating, hp] at hc
  refine ⟨h.history, h.released, h.flags.move rfl rfl rfl (by simp [hp]) (by simp [hp]), h.begun, ?_⟩
  by_cases hcount : s.createCount > 2
  · simp only [Creating, if_pos hcount]
    exact ⟨hc.1, hc.2.1, hc.2.2, trivial⟩
  · -- the first launch: core 1 has not been started yet
    simp only [Creating, if_neg hcount]
    refine ⟨hc.1, hc.2.1, hc.2.2, trivial, h.begun (List.eq_nil_of_length_eq_zero ?_)⟩
    omega

theorem launch_inv (h : Inv s) {f : F} {arg : A} (hp : s.pc0 = .launch f arg) :
    Inv { s with pc1 := .setStarted, pc0 := .waitStarted
                 launched := s.launched ++ [(some f, some arg)] } := by
  have hc := h.creating
  simp only [Creating, hp] at hc
  obtain ⟨hcount, hfunc, harg, hstarted, hoff⟩ := hc
  have hh := h.history
  simp only [History, hoff] at hh
  refine ⟨?_, trivial, ⟨rfl, hstarted⟩, ?_, ?_⟩
  · simp only [History, hfunc, harg, hh]
  · simp
  · simp only [Creating, List.length_append, List.length_singleton]
    omega

theorem step0_inv (h : Inv s) (he : Enabled s .go0 = true) (hs : safe s .go0 = true) :
    Inv (step0 s) := by
  have hc := h.creating
  cases hp : s.pc0 with
  | idle => simp [Enabled, hp] at he
  | storeFunc f arg =>
    simp only [step0, hp]
    exact storeFunc_inv h hp hs
  | storeArg f arg =>
    simp only [step0, hp]
    exact storeArg_inv h hp hs
  | clearStarted f arg =>
    simp only [step0, hp]
    exact clearStarted_inv h hp
  | waitFinished f arg =>
    simp only [step0, hp]
    split
    · rename_i hfin
      have hpark := parked_of_finished h hfin (by intro hq; simp [safe, hp, hq, hfin] at hs)
        (by simp [hp]) (by simp [hp])
      simp only [Creating, hp] at hc
      exact inv_setPc0 h (by simp [hp]) (by simp [hp])
        ⟨hc.1, hc.2.1, hc.2.2.1, hc.2.2.2, hpark⟩
    · exact h
  | reset f arg =>
    simp only [step0, hp]
    simp only [Creating, hp] at hc
    have hh := h.history
    simp only [History, hc.2.2.2.2] at hh
    exact ⟨hh, trivial, .inr ⟨f, arg, rfl⟩, fun _ => rfl, hc.1, hc.2.1, hc.2.2.1, hc.2.2.2.1, rfl⟩
  | launch f arg =>
    simp only [step0, hp]
    exact launch_inv h hp
  | waitStarted =>
    simp only [step0, hp]
    simp only [Creating, hp] at hc
    split
    · rename_i hstarted
      refine ⟨h.history, h.released, ?_, h.begun, hc⟩
      have hf := h.flags
      simp only [Flags] at hf ⊢
      cases hq : s.pc1 with
      | off =>
        simp only [hq, hp] at hf
        rcases hf with hf | ⟨f, arg, hf⟩
        · exact .inl hf
        · cases hf
      | setStarted =>
        simp only [hq, hstarted] at hf
        cases hf.2
      | clearFinished => trivial
      | parked => trivial
      | _ => simpa only [hq] using hf
    · exact h
  | joinWait =>
    simp only [step0, hp]
    simp only [Creating, hp] at hc
    split
    · exact inv_setPc0 h (by simp [hp]) (by simp [hp]) hc
    · exact h

/-- Core 1 moves on while core 0 neither resets nor launches it. -/
theorem Creating.move (hc : Creating s) (hoff : s.pc1 ≠ .off) (hpark : s.pc1 ≠ .parked)
    (hpc : t.pc0 = s.pc0) (hcount : t.createCount = s.createCount) (hl : t.launched = s.launched)
    (hfunc : t.entryFunc = s.entryFunc) (harg : t.entryArg = s.entryArg)
    (hst : t.started = s.started) : Creating t := by
  simp only [Creating, hpc, hcount, hl, hfunc, harg, hst] at hc ⊢
  cases hp : s.pc0 with
  | reset f arg =>
    simp only [hp] at hc
    exact absurd hc.2.2.2.2 hpark
  | launch f arg =>
    simp only [hp] at hc
    exact absurd hc.2.2.2.2 hoff
  | _ => simpa only [hp] using hc

theorem launched_of_on (h : Inv s) (hoff : s.pc1 ≠ .off) {p : Prop} : s.launched = [] → p :=
  fun hl => absurd (h.begun hl) hoff

/-- What core 1 does to its own part leaves the part of core 0. -/
theorem Inv.moved (h : Inv s) (hoff : s.pc1 ≠ .off) (hpark : s.pc1 ≠ .parked)
    (hpc : t.pc0 = s.pc0) (hcount : t.createCount = s.createCount) (hl : t.launched = s.launched)
    (hfunc : t.entryFunc = s.entryFunc) (harg : t.entryArg = s.entryArg)
    (hst : t.started = s.started) (hh : History t) (hr : Released t) (hf : Flags t) : Inv t := by
  refine ⟨hh, hr, hf, ?_, h.creating.move hoff hpark hpc hcount hl hfunc harg hst⟩
  intro hnone
  exact launched_of_on h hoff (hl.symm.trans hnone)

/-- The cleanup loop releases what it counts down, slot by slot. -/
theorem cleanup_inv (h : Inv s) {i : ℕ} (hq : s.pc1 = .cleanup i) : Inv (step1 s) := by
  have hoff : s.pc1 ≠ .off := by simp [hq]
  have hpark : s.pc1 ≠ .parked := by simp [hq]
  have hh := h.history
  have hr := h.released
  have hf := h.flags
  simp only [Released, History, Flags, hq] at hr hh hf
  by_cases hi : i < maxMutexes
  · by_cases hpos : s.heldCounts i > 0
    · simp only [step1, hq, if_pos hi, if_pos hpos]
      refine h.moved hoff hpark rfl rfl rfl rfl rfl rfl hh ?_ hf
      intro j hj
      have hne : j ≠ i := by omega
      exact (Function.update_of_ne hne _ _).trans (hr j hj)
    · simp only [step1, hq, if_pos hi, if_neg hpos]
      refine h.moved hoff hpark rfl rfl rfl rfl rfl rfl hh ?_ hf
      intro j hj
      rcases Nat.lt_succ_iff_lt_or_eq.mp hj with hj | rfl
      · exact hr j hj
      · exact Nat.eq_zero_of_not_pos hpos
  · simp only [step1, hq, if_neg hi]
    refine h.moved hoff hpark rfl rfl rfl rfl rfl rfl hh ?_ hf
    intro j hj
    exact hr j (by omega)

theorem step1_inv (h : Inv s) : Inv (step1 s) := by
  have hh := h.history
  have hr := h.released
  have hf := h.flags
  cases hq : s.pc1 with
  | cleanup i => exact cleanup_inv h hq
  | off => simpa only [step1, hq] using h
  | running f arg => simpa only [step1, hq] using h
  | parked => simpa only [step1, hq] using h
  | setStarted =>
    -- the one flag of core 1 that core 0 waits for
    have hc := h.creating
    simp only [History, Flags, hq] at hh hf
    simp only [Creating, hf.1] at hc
    simp only [step1, hq]
    refine ⟨hh, trivial, trivial, launched_of_on h (by simp [hq]), ?_⟩
    simp only [Creating, hf.1]
    exact hc
  | clearFinished =>
    simp only [History, hq] at hh
    simp only [step1, hq]
    exact h.moved (by simp [hq]) (by simp [hq]) rfl rfl rfl rfl rfl rfl hh trivial rfl
  | loadFunc =>
    simp only [History, Flags, hq] at hh hf
    simp only [step1, hq]
    exact h.moved (by simp [hq]) (by simp [hq]) rfl rfl rfl rfl rfl rfl hh trivial hf
  | loadArg f =>
    simp only [History, Flags, hq] at hh hf
    simp only [step1, hq]
    exact h.moved (by simp [hq]) (by simp [hq]) rfl rfl rfl rfl rfl rfl hh trivial hf
  | clearMask =>
    simp only [History, Released, Flags, hq] at hh hr hf
    simp only [step1, hq]
    exact h.moved (by simp [hq]) (by simp [hq]) rfl rfl rfl rfl rfl rfl hh ⟨hr, rfl⟩ hf
  | resetBackup =>
    simp only [History, Released, Flags, hq] at hh hr hf
    simp only [step1, hq]
    exact h.moved (by simp [hq]) (by simp [hq]) rfl rfl rfl rfl rfl rfl hh hr hf
  | setFinished =>
    simp only [History, Released, hq] at hh hr
    simp only [step1, hq]
    exact h.moved (by simp [hq]) (by simp [hq]) rfl rfl rfl rfl rfl rfl hh hr trivial

theorem idle_of_enabled (f : F) (arg : A) (he : Enabled s (.create f arg) = true) :
    s.pc0 = .idle := by
  simp only [Enabled] at he
  split at he
  · assumption
  · cases he

theorem running_of_enabled (he : Enabled s .ret = true) : ∃ f arg, s.pc1 = .running f arg := by
  simp only [Enabled] at he
  split at he
  · exact ⟨_, _, by assumption⟩
  · cases he

theorem create_inv (h : Inv s) (f : F) (arg : A) (he : Enabled s (.create f arg) = true) :
    Inv (pthreadCreate s f arg) := by
  have hidle := idle_of_enabled f arg he
  have hc := h.creating
  simp only [Creating, hidle] at hc
  by_cases hodd : (s.createCount + 1) % 2 = 1
  · simp only [pthreadCreate, if_pos hodd]
    refine ⟨h.history, h.released, h.flags.move rfl rfl rfl (by simp [hidle]) (by simp [hidle]),
      h.begun, ?_⟩
    simp only [Creating, hidle]
    omega
  · simp only [pthreadCreate, if_neg hodd]
    refine ⟨h.history, h.released, h.flags.move rfl rfl rfl (by simp [hidle]) (by simp [hidle]),
      h.begun, ?_⟩
    simp only [Creating]
    omega

theorem body_inv (h : Inv s) {f : Option F} {arg : Option A} (hq : s.pc1 = .running f arg)
    (heldCounts : ℕ → ℕ) (heldMutexes : BitVec 64) (storage : ℕ → Entry) :
    Inv { s with heldCounts := heldCounts, heldMutexes := heldMutexes, storage := storage } :=
  ⟨h.history, by simp only [Released, hq], h.flags, h.begun, h.creating⟩

theorem ret_inv (h : Inv s) {f : Option F} {arg : Option A} (hq : s.pc1 = .running f arg) :
    Inv { s with pc1 := .cleanup 0 } := by
  have hh := h.history
  have hf := h.flags
  simp only [History, Flags, hq] at hh hf
  refine h.moved (by simp [hq]) (by simp [hq]) rfl rfl rfl rfl rfl rfl hh ?_ hf
  rintro j ⟨⟩

theorem next_inv (h : Inv s) (he : Enabled s a = true) (hs : safe s a = true) : Inv (next s a) := by
  cases a with
  | create f arg => exact create_inv h f arg he
  | join n =>
    have hidle : s.pc0 = .idle := by
      simp only [Enabled] at he
      split at he
      · assumption
      · cases he
    have hc := h.creating
    simp only [Creating, hidle] at hc
    simp only [next, pthreadJoin]
    split
    · exact inv_setPc0 h (by simp [hidle]) (by simp [hidle]) hc
    · exact h
  | go0 => exact step0_inv h he hs
  | go1 => exact step1_inv h
  | body heldCounts heldMutexes storage =>
    obtain ⟨f, arg, hq⟩ := running_of_enabled (s := s) he
    exact body_inv h hq heldCounts heldMutexes storage
  | ret =>
    obtain ⟨f, arg, hq⟩ := running_of_enabled he
    exact ret_inv h hq

theorem runsOwn_of_inv (h : Inv s) : RunsOwn s := by
  have hh := h.history
  rw [RunsOwn]
  cases hq : s.pc1 <;> simp_all [History]

/-- Core 0 goes on from a wait only when the latest launch is over. -/
theorem waitsForDone_step (h : Inv s) (hs : safe s a = true) (ht : t = next s a) :
    WaitsForDone s a t := by
  subst ht
  cases a with
  | go0 =>
    cases hp : s.pc0 with
    | joinWait =>
      simp only [WaitsForDone, hp, next]
      intro hidle
      have hfin : s.finished = true := by
        cases hfin : s.finished <;> simp_all [step0]
      refine done_of_parked h (parked_of_finished h hfin ?_ (by simp [hp]) (by simp [hp]))
      intro hq
      simp [safe, hp, hq, hfin] at hs
    | reset f arg =>
      simp only [WaitsForDone, hp]
      have hc := h.creating
      simp only [Creating, hp] at hc
      exact done_of_parked h hc.2.2.2.2
    | _ => simp [WaitsForDone, hp]
  | _ => simp [WaitsForDone]

/-- In a run of safe steps, every join and every reset of core 1 waits for the latest launch to
be over, and core 1 calls exactly what was launched. -/
theorem launch_join {xs : List (Act F A × State F A)}
    (hrun : Lts.Run Step (State.initial : State F A) xs)
    (hsafe : Lts.Run Safe (State.initial : State F A) xs) :
    Lts.Always RunsOwn State.initial xs ∧ Lts.Run WaitsForDone State.initial xs := by
  have hboth := Lts.run_and.mpr ⟨hrun, hsafe⟩
  obtain ⟨hinv, hwait⟩ := hboth.keeps (c := WaitsForDone) initial_inv fun s a t hi hst => by
    obtain ⟨⟨he, ht⟩, hs⟩ := hst
    exact ⟨ht ▸ next_inv hi he hs, waitsForDone_step hi hs ht⟩
  exact ⟨hinv.imp fun s hi => runsOwn_of_inv hi, hwait⟩

/-- A backup thread, a domain thread, and both cores on their way until core 1 has parked. -/
def firstLaunch : List (Act ℕ ℕ) :=
  [.create 0 0, .create 1 1, .go0, .go0, .go0, .go0, .go1, .go0, .go1, .go1, .go1, .ret] ++
    List.replicate 68 .go1

theorem launch_join_first :
    let xs := Lts.trace next State.initial (firstLaunch ++ [.join 2, .go0])
    Lts.Always RunsOwn State.initial xs ∧ Lts.Run WaitsForDone State.initial xs := by
  intro xs
  apply launch_join
  · exact Lts.run_accepts Enabled (by decide)
  · refine Lts.Run.imp (Lts.run_accepts safe (by decide)) ?_
    intro s a t hs
    exact hs.1

/-- The second join reads the flag of the first launch while core 1 is about to clear it. -/
theorem second_join_early :
    ¬ ∀ xs : List (Act ℕ ℕ × State ℕ ℕ), Lts.Run Step State.initial xs →
      Lts.Always RunsOwn State.initial xs ∧ Lts.Run WaitsForDone State.initial xs := by
  intro h
  let acts : List (Act ℕ ℕ) := firstLaunch ++
    [.create 0 0, .create 2 2, .go0, .go0, .go0, .go0, .go0, .go0, .go1, .go0, .join 2]
  obtain ⟨-, hwait⟩ := h (Lts.trace next State.initial (acts ++ [.go0]))
    (Lts.run_accepts Enabled (by decide))
  rw [Lts.trace_append, Lts.run_append, Lts.last_trace] at hwait
  have hp : (acts.foldl next State.initial).pc0 = .joinWait := by decide
  have hq : (acts.foldl next State.initial).pc1 = .clearFinished := by decide
  have hfin : (acts.foldl next State.initial).finished = true := by decide
  have hdone := hwait.2.1
  simp only [WaitsForDone, hp, next, step0, hfin, if_true, true_implies] at hdone
  have hpark := hdone.parked
  rw [hq] at hpark
  cases hpark

end PicoOcaml.OcamlStubs.Core1
