import PicoOcaml.Pio.FiberCount
import PicoOcaml.Pio.Hooks
import PicoOcaml.Pio.Lost
import PicoOcaml.Pio.SingleFiber
import PicoOcaml.Pio.Timeouts

/-! A deadlock is never reported: the loop that has nothing left to do goes round for ever, and the
error behind it is out of reach. -/
namespace PicoOcaml.Pio

variable {W : Type*}

/-- A loop goes round although nothing is queued and nobody waits for the network. -/
structure Stalled (s : State W) : Prop where
  polling : s.polling = true
  idles : s.idles = true
  alone : s.book.ioWaiters = []

/-- Until a main fiber has answered it is counted together with the forked ones, and its hooks are
not run. -/
structure Outstanding (s : State W) : Prop where
  count : ∀ sw < s.nextSwitch, ¬ s.Answered sw → s.fibers sw = 1 + (Census.ofSwitch sw).load s
  fresh : ∀ sw, s.nextSwitch ≤ sw → (Census.ofSwitch sw).load s = 0
  ended : ∀ sw, s.finished sw = true → sw < s.nextSwitch ∧ s.Answered sw

section

variable {s t : State W} {c : List Frame → Handler → List Frame → Prop} {sw : ℕ}

theorem finished_endMain (a : Answer) (sw sw' : ℕ) (rest : List Frame) :
    (s.endMain a sw rest).finished sw' = s.finished sw' := by
  by_cases h : sw' = sw
  · subst h
    cases a <;>
      simp [State.endMain, State.finished, State.fiberDone, State.addFibers, State.keepAnswer,
        State.setSwitch]
  · cases a <;>
      simp [State.endMain, State.finished, State.fiberDone, State.addFibers, State.keepAnswer,
        State.setSwitch, h]

/-- Only `main_scheduler` ends a run. -/
theorem Shift.finished (hsh : Shift c s t) (ht : t.finished sw = true) : s.finished sw = true ∨
    (∃ rest, s.stack = .mainScheduler sw :: rest) ∧ (s.Answered sw ∨ s.fibers sw ≤ 0) := by
  have hsame : ∀ {sw' : ℕ} {x : Switch}, t.switches = Function.update s.switches sw' x →
      x.finished = (s.switches sw').finished → s.finished sw = true := by
    intro sw' x hsw hx
    rw [State.finished, switch_update Switch.finished hsw hx] at ht
    exact ht
  cases hsh with
  | onRelease sw' n => exact .inl (hsame rfl rfl)
  | fork hlt => exact .inl (hsame rfl rfl)
  | forkPromise hlt => exact .inl (hsame rfl rfl)
  | switchRun hs =>
    left
    by_cases hsw : sw = s.nextSwitch
    · subst hsw
      simp [State.finished, PicoOcaml.Pio.switchRun] at ht
    · simpa [State.finished, PicoOcaml.Pio.switchRun, hsw] using ht
  | suspend w hs hsplit hc hcap =>
    left
    rw [State.finished, State.leave_switches] at ht
    exact ht
  | @endMain a sw' rest hs => exact .inl ((finished_endMain a sw' sw rest).symm.trans ht)
  | endFiber hs => exact .inl (hsame rfl rfl)
  | endPromise hs => exact .inl (hsame rfl rfl)
  | @exitMain sw' rest hs hq hr =>
    by_cases hsw : sw = sw'
    · subst hsw
      right
      refine ⟨⟨rest, hs.2.1⟩, ?_⟩
      rcases hr with hr | hr | hr
      · exact .inl (.inl hr)
      · exact .inl (.inr hr)
      · exact .inr hr.1
    · left
      simpa [State.finished, finishMain, State.setSwitch, hsw] using ht
  | _ => exact .inl ht

/-- An answer that has been taken stays. -/
theorem Shift.answered_mono (hsh : Shift c s t) (hsw : sw < s.nextSwitch) (hans : s.Answered sw) :
    t.Answered sw := by
  cases hsh with
  | onRelease sw' n => exact (answered_update (by rfl) (by rfl) (by rfl)).mpr hans
  | fork hlt => exact (answered_update (by rfl) (by rfl) (by rfl)).mpr hans
  | forkPromise hlt => exact (answered_update (by rfl) (by rfl) (by rfl)).mpr hans
  | switchRun hs =>
    have hne : sw ≠ s.nextSwitch := Nat.ne_of_lt hsw
    simpa [State.Answered, PicoOcaml.Pio.switchRun, hne] using hans
  | suspend w hs hsplit hc hcap =>
    rw [State.Answered, State.leave_switches]
    exact hans
  | @endMain a sw' rest hs => exact (answered_endMain a sw' sw rest).mpr (.inr hans)
  | endFiber hs => exact (answered_update (by rfl) (by rfl) (by rfl)).mpr hans
  | endPromise hs => exact (answered_update (by rfl) (by rfl) (by rfl)).mpr hans
  | exitMain hs hq hr => exact (answered_update (by rfl) (by rfl) (by rfl)).mpr hans
  | _ => exact hans

theorem Shift.nextSwitch_le (hsh : Shift c s t) : s.nextSwitch ≤ t.nextSwitch := by
  cases hsh with
  | switchRun hs => exact Nat.le_succ _
  | suspend w hs hsplit hc hcap => rw [State.leave_nextSwitch]
  | @endMain a sw' rest hs => cases a <;> exact Nat.le_refl _
  | _ => exact Nat.le_refl _

/-- The count of an unanswered run changes with its forked fibers only. -/
theorem Shift.count (hsh : Shift c s t) (ha : Agreed s.book) (h : Outstanding s)
    (hno : ∀ a sw rest, ¬ s.Returns a (.handler (.main sw)) rest) (sw : ℕ) (hsw : sw < t.nextSwitch)
    (hans : ¬ t.Answered sw) : t.fibers sw = 1 + (Census.ofSwitch sw).load t := by
  have hf := hsh.flow ha
  by_cases hold : sw < s.nextSwitch
  · have hcount := h.count sw hold fun hans' => hans (hsh.answered_mono hold hans')
    have hsame := hf.forked_count (fun a rest => hno a sw rest) hold
    omega
  · obtain ⟨hone, hzero⟩ := hf.new_count h.fresh (by omega) hsw
    rw [hone, hzero]
    rfl

theorem Shift.outstanding (hsh : Shift c s t) (ha : Agreed s.book) (hk : Known s)
    (h : Outstanding s) (hno : ∀ a sw rest, ¬ s.Returns a (.handler (.main sw)) rest) :
    Outstanding t := by
  refine ⟨hsh.count ha h hno, (hsh.flow ha).fresh h.fresh, ?_⟩
  intro sw ht
  have hle := hsh.nextSwitch_le
  rcases hsh.finished ht with hf | ⟨⟨rest, hst⟩, hout⟩
  · obtain ⟨hlt, hans⟩ := h.ended sw hf
    exact ⟨Nat.lt_of_lt_of_le hlt hle, hsh.answered_mono hlt hans⟩
  · have hlt : sw < s.nextSwitch := hk.stack sw (by rw [hst]; exact List.mem_cons_self ..)
    refine ⟨Nat.lt_of_lt_of_le hlt hle, hsh.answered_mono hlt ?_⟩
    rcases hout with hans | hout
    · exact hans
    · by_contra hans
      have hcount := h.count sw hlt hans
      omega

theorem Stride.outstanding (hst : Stride c s t) (hs : Sane s) (hk : Known s) (h : Outstanding s)
    (hno : ∀ a sw rest, ¬ s.Returns a (.handler (.main sw)) rest) : Outstanding t := by
  cases hst with
  | stay ht => exact ht ▸ h
  | one hsh => exact hsh.outstanding hs.agreed hk h hno
  | two hsh hstack hmode hsh' =>
    apply hsh'.outstanding (hsh.agreed hs.agreed) (hsh.known hk) (hsh.outstanding hs.agreed hk h hno)
    rintro a sw rest ⟨hm, hst⟩
    exact hno a sw rest ⟨hmode ▸ hm, hstack ▸ hst⟩

theorem Outstanding.endMain (h : Outstanding s) {a : Answer} {sw : ℕ} {rest : List Frame}
    (hret : s.Returns a (.handler (.main sw)) rest) : Outstanding (s.endMain a sw rest) := by
  have hnext : (s.endMain a sw rest).nextSwitch = s.nextSwitch := by cases a <;> rfl
  refine ⟨?_, ?_, ?_⟩
  · intro sw' hsw hans
    rw [answered_endMain] at hans
    push Not at hans
    have hcount := h.count sw' (hnext ▸ hsw) hans.2
    rw [fibers_endMain, load_endMain hret, if_neg hans.1, hcount, Int.sub_zero]
  · intro sw' hsw
    rw [load_endMain hret]
    exact h.fresh sw' (hnext ▸ hsw)
  · intro sw' hf
    rw [finished_endMain] at hf
    obtain ⟨hlt, hans⟩ := h.ended sw' hf
    exact ⟨hnext ▸ hlt, (answered_endMain a sw sw' rest).mpr (.inr hans)⟩

end

variable {X : Externals W} {s t : State W} {a : Act} {xs : List (Act × State W)}

theorem step_known (h : Step X s a t) (hk : Known s) : Known t := by
  rcases step_shifts (c := fun _ _ _ => True) h (by intros; trivial) with hm | ⟨sock, w, -, rfl⟩
  · exact hm.keeps (fun _ _ hu hsh => hsh.known hu) hk
  · exact hk.keep rfl rfl fun _ => id

theorem step_outstanding (h : Step X s a t) (hs : Sane s) (hk : Known s) (ho : Outstanding s) :
    Outstanding t := by
  by_cases hret : ∃ b sw rest, s.Returns b (.handler (.main sw)) rest
  · obtain ⟨b, sw, rest, hret⟩ := hret
    obtain rfl := step_endMain h hret
    exact ho.endMain hret
  · have hno : ∀ b sw rest, ¬ s.Returns b (.handler (.main sw)) rest :=
      fun b sw rest hr => hret ⟨b, sw, rest, hr⟩
    rcases step_stride (c := fun _ _ _ => True) h (by intros; trivial) with hm | ⟨sock, w, -, rfl⟩
    · exact hm.outstanding hs hk ho hno
    · exact ⟨ho.count, ho.fresh, ho.ended⟩

/-! ### Going round for ever -/

theorem pass_alone (hio : s.book.ioWaiters = []) : (s.pass X).book = s.book := by
  simp only [State.pass, checkIoCompletions_nil hio]

/-- Nothing but the time changes. -/
theorem Stalled.step (hst : Stalled s) (h : Step X s a t) :
    a = .go ∧ t = { s with world := t.world } ∧ Stalled t := by
  obtain ⟨he, rfl⟩ := h
  obtain ⟨hpoll, hidle, hio⟩ := hst
  obtain ⟨f, rest, hloop⟩ := polling_looping hpoll
  have ha : a = .go := by
    by_contra hne
    obtain ⟨⟨b, fs, hprog⟩, -⟩ := enabled_program he hne
    cases hloop.2.1.symm.trans hprog.2
    cases hloop.2.2
  subst ha
  have hbook : (s.pass X).book = s.book := pass_alone hio
  have hidle' : (s.pass X).idles = true := by
    simp only [State.idles, hbook] at hidle ⊢
    exact hidle
  have hgo : next X s .go = idle X (s.pass X) := go_idle hpoll hidle'
  have hkeeps : next X s .go = { s with world := (next X s .go).world } := by
    rw [hgo]
    simp only [idle, hbook]
    rfl
  refine ⟨rfl, hkeeps, ?_⟩
  rw [hkeeps]
  exact ⟨hpoll, hidle, hio⟩

/-- A loop with nothing queued and nobody waiting either goes round for ever or is left at once. -/
theorem stalled_or_leaves (hpoll : s.polling = true) (hq : s.book.runQueue = [])
    (hio : s.book.ioWaiters = []) : Stalled s ∨ ¬ s.stack <:+ (go X s).stack := by
  by_cases hidle : s.idles = true
  · exact .inl ⟨hpoll, hidle, hio⟩
  · right
    obtain ⟨f, rest, hm, hst, hl⟩ := polling_looping hpoll
    have hbook : (s.pass X).book = s.book := pass_alone hio
    have hempty : (s.pass X).book.runQueue = [] := hbook ▸ hq
    cases f with
    | scheduler sw =>
      have hgo : go X s = schedulerRound X s sw rest := by simp only [go, hm, hst]
      have hout : ¬ ((s.switches sw).fibers > 0 ∨ (s.pass X).book.ioWaiters ≠ []) := by
        simp only [State.idles, hst, hq, hio] at hidle
        rw [hbook, hio]
        simpa using hidle
      have hleft : go X s = { s.pass X with stack := rest, mode := .ret (.value .unit) } := by
        rw [hgo, schedulerRound, round_idle hempty]
        exact if_neg hout
      rw [hleft, hst]
      intro hsuf
      have hlen : rest.length + 1 ≤ rest.length := hsuf.length_le
      omega
    | mainScheduler sw =>
      have hgo : go X s = mainSchedulerRound X s sw rest := by simp only [go, hm, hst]
      have hleft : go X s = finishMain (s.pass X) sw rest := by
        rw [hgo, mainSchedulerRound, round_idle hempty]
        split
        · rfl
        · rename_i hnone
          push Not at hnone
          have hr : (s.switches sw).result = none := hnone.1
          have he : (s.switches sw).exnRef = none := hnone.2
          have hout : ¬ ((s.switches sw).fibers > 0 ∨ (s.pass X).book.ioWaiters ≠ []) := by
            simp only [State.idles, hst, hq, hio, hr, he] at hidle
            rw [hbook, hio]
            simpa using hidle
          exact if_neg hout
      have hfinished : (finishMain (s.pass X) sw rest).stack ≠ s.stack := by
        rw [hst]
        simp [finishMain]
      rw [hleft]
      intro hsuf
      refine hfinished (hsuf.eq_of_length ?_).symm
      rw [hst]
      simp [finishMain]
    | _ => cases hl

/-- The continuation is that of an `Await`, and its waker is in a promise that nobody has settled. -/
def AwaitsPending (b : Book) (k : ℕ) : Prop :=
  ∃ p h ws, b.promises[p]? = some (.pending ws) ∧ .waker p h k ∈ ws ∧
    b.konts[k]? = some (.await p, h)

theorem Stalled.awaiting {k : ℕ} (hst : Stalled s) (ha : Agreed s.book)
    (hr : Referenced s.book k) : AwaitsPending s.book k := by
  have hempty : s.book.runQueue = [] := by
    obtain ⟨f, rest, -, hstack, hl⟩ := polling_looping hst.polling
    have hidle := hst.idles
    cases f with
    | scheduler sw =>
      simp only [State.idles, hstack, Bool.and_eq_true, decide_eq_true_eq] at hidle
      exact hidle.1
    | mainScheduler sw =>
      simp only [State.idles, hstack, Bool.and_eq_true, decide_eq_true_eq] at hidle
      exact hidle.1.1
    | _ => cases hl
  rcases hr with ⟨u, hu, -⟩ | ⟨w, hw, -⟩ | ⟨p, ws, hp, u, hu, hkont⟩
  · rw [hempty] at hu
    cases hu
  · rw [hst.alone] at hw
    cases hw
  · obtain ⟨hd, j, rfl, hj⟩ := ha.pending hp u hu
    have hjk : j = k := by simpa [Task.kont] using hkont
    subst hjk
    exact ⟨p, hd, ws, hp, hu, hj⟩

/-- The error that stands behind `main_scheduler` is never raised: its hooks run only once a
`main_handler` has set `result` or `exn_ref`. A loop with nothing queued and nobody waiting that is
not left at once makes nothing but rounds from then on, whatever happens on the network, and every
fiber that is suspended awaits a promise that nobody is left to settle, unless `Tcp_close` has
closed the socket on which that fiber was waiting. -/
structure DeadlockSilent (X : Externals W) (s : State W) (xs : List (Act × State W)) : Prop where
  unreported : Lts.Always (fun u => ∀ sw hooks rest, u.stack = .cleanup sw hooks :: rest →
    u.Answered sw) s xs
  decided : ∀ u, u = Lts.last s xs → u.polling = true → u.book.runQueue = [] →
    u.book.ioWaiters = [] → Stalled u ∨ ¬ u.stack <:+ (go X u).stack
  forever : Stalled (Lts.last s xs) → ∀ ys, Lts.Run (Step X) (Lts.last s xs) ys →
    Lts.Run (fun u a v => a = .go ∧ v = { u with world := v.world }) (Lts.last s xs) ys
  awaiting : Stalled (Lts.last s xs) → ∀ k < (Lts.last s xs).book.konts.length,
    ¬ Resumed (Lts.last s xs).book k → Lts.Run (fun u a _ => SparesKont k u a) s xs →
      AwaitsPending (Lts.last s xs).book k

theorem outstanding_initial (world : W) : Outstanding (State.initial world) where
  count _ hsw := absurd hsw (Nat.not_lt_zero _)
  fresh _ _ := rfl
  ended _ hf := by cases hf

theorem deadlock_silent {world : W} (h : Lts.Run (Step X) (State.initial world) xs) :
    DeadlockSilent X (State.initial world) xs := by
  refine ⟨?_, ?_, ?_, ?_⟩
  · have hinv : Lts.Always (fun u => (Tidy u ∧ ∀ sw, ∃ R, Progress u sw R) ∧ Known u ∧ Outstanding u)
        (State.initial world) xs := by
      refine h.always ⟨⟨tidy_initial world, fun sw => ⟨_, progress_initial world sw⟩⟩,
        (mainInv_initial world).known, outstanding_initial world⟩ ?_
      rintro u a v ⟨⟨ht, hp⟩, hk, ho⟩ hstep
      refine ⟨⟨step_tidy hstep ht, ?_⟩, step_known hstep hk, step_outstanding hstep ht.sane hk ho⟩
      intro sw
      obtain ⟨R, hR⟩ := hp sw
      obtain ⟨R', hR', -⟩ := step_progress hstep ht hR
      exact ⟨R', hR'⟩
    refine hinv.imp ?_
    rintro u ⟨⟨ht, hp⟩, -, ho⟩ sw hooks rest hst
    obtain ⟨R, hR⟩ := hp sw
    obtain ⟨-, -, hf, -⟩ := hR.on_cleanup ht.sane ht.grounded.rooted hst
    exact (ho.ended sw hf).2
  · rintro u - hpoll hq hio
    exact stalled_or_leaves hpoll hq hio
  · intro hst ys hrun
    refine (hrun.keeps (p := Stalled) hst ?_).2
    intro u a v hu hstep
    obtain ⟨ha, hv, hstalled⟩ := hu.step hstep
    exact ⟨hstalled, ha, hv⟩
  · intro hst k hk hr hsp
    have hkept := run_kept h hsp
    exact hst.awaiting hkept.agreed (hkept.referenced hk hr)

/-- The main fiber awaits a promise that it has made itself. -/
def awaitOwn : List Act := [.switchRun, .go, .createPromise, .perform (.await 0), .go]

theorem deadlock_silent_awaitOwn :
    DeadlockSilent quiet (State.initial ()) (Lts.trace (next quiet) (State.initial ()) awaitOwn) ∧
      Stalled (Lts.last (State.initial ()) (Lts.trace (next quiet) (State.initial ()) awaitOwn)) :=
  ⟨deadlock_silent (X := quiet) (Lts.run_accepts Enabled (by decide)), rfl, rfl, rfl⟩

end PicoOcaml.Pio
