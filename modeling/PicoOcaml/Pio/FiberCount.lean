import PicoOcaml.Pio.MainFiber

/-! The count of a switch against the fibers of it that have not ended. -/
namespace PicoOcaml.Pio

variable {W : Type*}

/-- The function of the run has ended, and a handler has taken an answer for it. -/
def State.mainEnded (s : State W) (sw : ℕ) : Bool :=
  s.book.log.any (Event.ends (.main sw)) &&
    ((s.switches sw).result ≠ none || (s.switches sw).exnRef ≠ none)

/-- The fibers of a switch that have not returned or raised. One that has been forked is where
its handler is: still to be started, on the stack or in a captured continuation. -/
def State.live (s : State W) (sw : ℕ) : ℕ :=
  (Census.ofSwitch sw).load s + if s.mainEnded sw then 0 else 1

/-- `sw.fibers` is the number of fibers that have not ended. -/
def CountsFibers (s : State W) : Prop := ∀ sw < s.nextSwitch, s.fibers sw = s.live sw

/-- If `retc` or `exnc` of `main_handler` is about to run, then for the end of the function of
its run, which no handler has been told of. -/
def EndsMainOnce (s : State W) : Prop := ∀ a sw rest, s.Returns a (.handler (.main sw)) rest →
  sw < s.nextSwitch → s.EndedMain sw ∧ ¬ s.Answered sw

variable {s t : State W}

theorem mainEnded_iff {sw : ℕ} : s.mainEnded sw = true ↔ s.EndedMain sw ∧ s.Answered sw := by
  have hends : s.book.log.any (Event.ends (.main sw)) = true ↔ s.EndedMain sw := by
    rw [List.any_eq_true]
    constructor
    · rintro ⟨e, he, hends⟩
      cases e with
      | ended b a =>
        have hb : b = .main sw := by simpa [Event.ends] using hends
        exact ⟨a, hb ▸ he⟩
      | _ => cases hends
    · rintro ⟨a, he⟩
      exact ⟨_, he, by simp [Event.ends]⟩
  simp [State.mainEnded, hends, State.Answered]

/-- The count is right, and no handler has been told of an end that has not come. -/
structure Tallied (s : State W) : Prop where
  sane : Sane s
  count : CountsFibers s
  kept : ∀ sw < s.nextSwitch, s.Answered sw → s.EndedMain sw
  fresh : ∀ sw, s.nextSwitch ≤ sw → (Census.ofSwitch sw).load s = 0

/-- As long as answers are kept only for ends, they tell which main fibers have ended. -/
theorem live_eq {sw : ℕ} (hkept : s.Answered sw → s.EndedMain sw) [Decidable (s.Answered sw)] :
    s.live sw = (Census.ofSwitch sw).load s + if s.Answered sw then 0 else 1 := by
  have hiff : s.mainEnded sw = true ↔ s.Answered sw :=
    mainEnded_iff.trans ⟨And.right, fun h => ⟨hkept h, h⟩⟩
  simp only [State.live, hiff]

/-- Only `main_handler` sets `result` and `exn_ref`. -/
theorem Shift.answered_iff {c : List Frame → Handler → List Frame → Prop} (h : Shift c s t) {sw : ℕ}
    (hno : ∀ a rest, ¬ s.Returns a (.handler (.main sw)) rest) (hsw : sw < s.nextSwitch) :
    t.Answered sw ↔ s.Answered sw := by
  cases h with
  | onRelease sw' n => exact answered_update (by rfl) (by rfl) (by rfl)
  | fork hlt => exact answered_update (by rfl) (by rfl) (by rfl)
  | forkPromise hlt => exact answered_update (by rfl) (by rfl) (by rfl)
  | switchRun hs =>
    have hne : sw ≠ s.nextSwitch := Nat.ne_of_lt hsw
    simp [State.Answered, PicoOcaml.Pio.switchRun, hne]
  | @suspend b fs segment rest eff hd book w hs hsplit hc hcap => cases hd <;> rfl
  | @endMain a sw' rest hs =>
    have hne : sw ≠ sw' := by
      rintro rfl
      exact hno a rest hs
    cases a <;>
      simp [State.Answered, State.fiberDone, State.addFibers, State.keepAnswer, State.setSwitch, hne]
  | endFiber hs => exact answered_update (by rfl) (by rfl) (by rfl)
  | endPromise hs => exact answered_update (by rfl) (by rfl) (by rfl)
  | exitMain hs hq hr => exact answered_update (by rfl) (by rfl) (by rfl)
  | _ => rfl

/-- A switch that has just been made has no answer. -/
theorem Shift.new_unanswered {c : List Frame → Handler → List Frame → Prop} (h : Shift c s t) {sw : ℕ}
    (hsw : s.nextSwitch ≤ sw) (hlt : sw < t.nextSwitch) : ¬ t.Answered sw := by
  cases h with
  | switchRun hs =>
    have heq : sw = s.nextSwitch := by
      simp only [PicoOcaml.Pio.switchRun] at hlt
      omega
    subst heq
    simp [State.Answered, PicoOcaml.Pio.switchRun]
  | suspend w hs hsplit hc hcap =>
    rw [State.leave_nextSwitch] at hlt
    exact absurd hlt (Nat.not_lt.mpr hsw)
  | @endMain a sw' rest hs => cases a <;> exact absurd hlt (Nat.not_lt.mpr hsw)
  | _ => exact absurd hlt (Nat.not_lt.mpr hsw)

/-- As long as no answer reaches a `main_handler` the counts stay right. -/
theorem Shift.tallied {c : List Frame → Handler → List Frame → Prop} (hsh : Shift c s t)
    (h : Tallied s) (hno : ∀ a sw rest, ¬ s.Returns a (.handler (.main sw)) rest) : Tallied t := by
  classical
  have hkept : ∀ sw < t.nextSwitch, t.Answered sw → t.EndedMain sw := by
    intro sw hsw ht
    by_cases hold : sw < s.nextSwitch
    · rw [hsh.answered_iff (fun a rest => hno a sw rest) hold] at ht
      obtain ⟨a, he⟩ := h.kept sw hold ht
      exact ⟨a, hsh.extends.log he⟩
    · exact absurd ht (hsh.new_unanswered (by omega) hsw)
  refine ⟨hsh.sane h.sane, ?_, hkept, (hsh.flow h.sane.agreed).fresh h.fresh⟩
  have hf := hsh.flow h.sane.agreed
  intro sw hsw
  rw [live_eq (hkept sw hsw)]
  by_cases hold : sw < s.nextSwitch
  · have hcount := h.count sw hold
    rw [live_eq (h.kept sw hold)] at hcount
    have hsame := hf.forked_count (fun a rest => hno a sw rest) hold
    simp only [hsh.answered_iff (fun a rest => hno a sw rest) hold]
    omega
  · obtain ⟨hone, hzero⟩ := hf.new_count h.fresh (by omega) hsw
    rw [hone, hzero, if_neg (hsh.new_unanswered (by omega) hsw)]
    rfl

/-! ### The handler of the main fiber -/

/-- What `retc` and `exnc` of `main_handler` do. -/
def State.endMain (s : State W) (a : Answer) (sw : ℕ) (rest : List Frame) : State W :=
  { (s.keepAnswer sw a).fiberDone sw with stack := rest, mode := .ret (.value .unit) }

theorem answered_endMain (a : Answer) (sw sw' : ℕ) (rest : List Frame) :
    (s.endMain a sw rest).Answered sw' ↔ sw' = sw ∨ s.Answered sw' := by
  by_cases h : sw' = sw
  · subst h
    cases a <;>
      simp [State.endMain, State.Answered, State.fiberDone, State.addFibers, State.keepAnswer,
        State.setSwitch]
  · cases a <;>
      simp [State.endMain, State.Answered, State.fiberDone, State.addFibers, State.keepAnswer,
        State.setSwitch, h]

theorem fibers_endMain (a : Answer) (sw sw' : ℕ) (rest : List Frame) :
    (s.endMain a sw rest).fibers sw' = s.fibers sw' - if sw' = sw then 1 else 0 := by
  have h := fibers_fiberDone (s := s.keepAnswer sw a) sw sw'
  rw [fibers_keepAnswer] at h
  exact h

theorem endedMain_endMain (a : Answer) (sw sw' : ℕ) (rest : List Frame) :
    (s.endMain a sw rest).EndedMain sw' ↔ s.EndedMain sw' := by
  cases a <;> rfl

theorem load_endMain {a : Answer} {sw : ℕ} {rest : List Frame}
    (hret : s.Returns a (.handler (.main sw)) rest) (w : Census) :
    w.load (s.endMain a sw rest) = w.load s := by
  have h0 : w.frame (.handler (.main sw)) = 0 := w.library _ rfl
  cases a <;>
    simp only [State.endMain, Census.load, State.keepAnswer, State.fiberDone, State.addFibers,
      State.setSwitch, hret.2, Census.frames_cons, h0, Nat.zero_add]

/-- The count stays right when the function of the run has ended and the answer is the first. -/
theorem counts_endMain (h : Tallied s) {a : Answer} {sw : ℕ} {rest : List Frame}
    (hret : s.Returns a (.handler (.main sw)) rest) : CountsFibers (s.endMain a sw rest) ↔
      (sw < s.nextSwitch → s.EndedMain sw ∧ ¬ s.Answered sw) := by
  classical
  have hnext : (s.endMain a sw rest).nextSwitch = s.nextSwitch := by cases a <;> rfl
  have hlive : ∀ sw', (s.endMain a sw rest).live sw' = (Census.ofSwitch sw').load s +
      if s.EndedMain sw' ∧ (sw' = sw ∨ s.Answered sw') then 0 else 1 := by
    intro sw'
    have hiff : (s.endMain a sw rest).mainEnded sw' = true ↔
        s.EndedMain sw' ∧ (sw' = sw ∨ s.Answered sw') := by
      rw [mainEnded_iff, endedMain_endMain, answered_endMain]
    simp only [State.live, load_endMain hret, hiff]
  have hother : ∀ sw' < s.nextSwitch, sw' ≠ sw →
      (s.endMain a sw rest).fibers sw' = (s.endMain a sw rest).live sw' := by
    intro sw' hsw' hne
    have hcount := h.count sw' hsw'
    rw [fibers_endMain, hlive, if_neg hne, hcount, State.live]
    simp [hne, mainEnded_iff]
  constructor
  · intro hcounts hsw
    have hold := h.count sw hsw
    have hnew := hcounts sw (hnext ▸ hsw)
    rw [live_eq (h.kept sw hsw)] at hold
    rw [fibers_endMain, hlive, if_pos rfl] at hnew
    simp only [true_or, and_true] at hnew
    by_cases hans : s.Answered sw
    · rw [if_pos hans] at hold
      split at hnew <;> omega
    · rw [if_neg hans] at hold
      refine ⟨?_, hans⟩
      by_contra hended
      rw [if_neg hended] at hnew
      omega
  · intro hcond sw' hsw'
    rw [hnext] at hsw'
    by_cases hne : sw' = sw
    · subst hne
      obtain ⟨hended, hans⟩ := hcond hsw'
      have hold := h.count sw' hsw'
      rw [live_eq (h.kept sw' hsw'), if_neg hans] at hold
      rw [fibers_endMain, hlive, if_pos rfl, if_pos ⟨hended, .inl rfl⟩]
      omega
    · exact hother sw' hsw' hne

theorem Tallied.endMain (h : Tallied s) {a : Answer} {sw : ℕ} {rest : List Frame}
    (hret : s.Returns a (.handler (.main sw)) rest) (hsane : Sane (s.endMain a sw rest))
    (hcond : sw < s.nextSwitch → s.EndedMain sw ∧ ¬ s.Answered sw) :
    Tallied (s.endMain a sw rest) := by
  have hnext : (s.endMain a sw rest).nextSwitch = s.nextSwitch := by cases a <;> rfl
  refine ⟨hsane, (counts_endMain h hret).mpr hcond, ?_, ?_⟩
  · intro sw' hsw' hans
    rw [hnext] at hsw'
    rw [endedMain_endMain]
    rcases (answered_endMain a sw sw' rest).mp hans with rfl | hans
    · exact (hcond hsw').1
    · exact h.kept sw' hsw' hans
  · intro sw' hsw'
    rw [load_endMain hret]
    exact h.fresh sw' (hnext ▸ hsw')

/-! ### Runs -/

theorem endsMainOnce_iff {a : Answer} {sw : ℕ} {rest : List Frame}
    (hret : s.Returns a (.handler (.main sw)) rest) :
    EndsMainOnce s ↔ (sw < s.nextSwitch → s.EndedMain sw ∧ ¬ s.Answered sw) := by
  constructor
  · intro h
    exact h a sw rest hret
  · intro h a' sw' rest' hret'
    have hst := hret.2.symm.trans hret'.2
    simp only [List.cons.injEq, Frame.handler.injEq, Handler.main.injEq] at hst
    exact hst.1 ▸ h

variable {X : Externals W} {a : Act}

theorem Stride.tallied {c : List Frame → Handler → List Frame → Prop} (hst : Stride c s t)
    (h : Tallied s) (hno : ∀ a sw rest, ¬ s.Returns a (.handler (.main sw)) rest) : Tallied t := by
  cases hst with
  | stay ht => exact ht ▸ h
  | one hsh => exact hsh.tallied h hno
  | two hsh hstack hmode hsh' =>
    apply hsh'.tallied (hsh.tallied h hno)
    rintro a sw rest ⟨hm, hs⟩
    exact hno a sw rest ⟨hmode ▸ hm, hstack ▸ hs⟩

theorem Tallied.closed (h : Tallied s) (sock : ℤ) (w : W) {b : Body} {rest : List Frame}
    (hs : s.Program b rest) : Tallied (s.closed sock w) :=
  ⟨h.sane.closed sock w hs, h.count, h.kept, h.fresh⟩

/-- The next step runs `retc` or `exnc` of the handler. -/
theorem step_endMain (h : Step X s a t) {b : Answer} {sw : ℕ} {rest : List Frame}
    (hret : s.Returns b (.handler (.main sw)) rest) : t = s.endMain b sw rest := by
  obtain ⟨he, rfl⟩ := h
  by_cases ha : a = .go
  · subst ha
    have hgo : next X s .go = deliver s b rest (.handler (.main sw)) := by
      simp only [next, go, hret.1, hret.2]
    rw [hgo]
    cases b <;> rfl
  · obtain ⟨⟨body, fs, hprog⟩, -⟩ := enabled_program he ha
    cases hret.1.symm.trans hprog.1

/-- One step keeps the counts right exactly when it does not end a main fiber out of turn. -/
theorem step_tallied (h : Step X s a t) (hi : Tallied s) :
    (CountsFibers t ↔ EndsMainOnce s) ∧ (EndsMainOnce s → Tallied t) := by
  by_cases hret : ∃ b sw rest, s.Returns b (.handler (.main sw)) rest
  · obtain ⟨b, sw, rest, hret⟩ := hret
    have hsane := step_sane h hi.sane
    obtain rfl := step_endMain h hret
    rw [endsMainOnce_iff hret]
    exact ⟨counts_endMain hi hret, hi.endMain hret hsane⟩
  · have hno : ∀ b sw rest, ¬ s.Returns b (.handler (.main sw)) rest :=
      fun b sw rest hr => hret ⟨b, sw, rest, hr⟩
    have htally : Tallied t := by
      rcases step_stride (c := fun _ _ _ => True) h (by intros; trivial) with
        hm | ⟨sock, w, hc, rfl⟩
      · exact hm.tallied hi hno
      · obtain ⟨b, rest, hp⟩ := closes_program h hc
        exact hi.closed sock w hp
    have honce : EndsMainOnce s := fun b sw rest hr => absurd hr (hno b sw rest)
    exact ⟨iff_of_true htally.count honce, fun _ => htally⟩

theorem tallied_initial (world : W) : Tallied (State.initial world) where
  sane := sane_initial world
  count _ hsw := absurd hsw (Nat.not_lt_zero _)
  kept _ hsw := absurd hsw (Nat.not_lt_zero _)
  fresh _ _ := rfl

end PicoOcaml.Pio
