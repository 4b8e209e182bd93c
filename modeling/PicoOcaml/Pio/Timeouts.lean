import PicoOcaml.Pio.ReadWakeup
import PicoOcaml.Pio.World

/-! What the timeout of a waiter counts: the rounds of the loops, of which only the idle ones take
time. -/
namespace PicoOcaml.Pio

variable {W : Type*}

/-! ### The waiting list in one step -/

variable {X : Externals W} {s t : State W} {a : Act} {xs : List (Act × State W)}

theorem ioWaiters_startTask (u : Task) :
    (startTask X s u).book.ioWaiters = s.book.ioWaiters := by
  cases u with
  | waker p h k =>
    simp only [startTask]
    split <;> rfl
  | resume h k a =>
    simp only [startTask]
    split <;> rfl
  | _ => rfl

theorem ioWaiters_round {done : State W → State W}
    (hdone : ∀ u : State W, (done u).book.ioWaiters = u.book.ioWaiters) :
    (round X s done).book.ioWaiters = (s.pass X).book.ioWaiters := by
  simp only [round]
  split
  · exact ioWaiters_startTask _
  · exact hdone _

theorem ioWaiters_deliver (a : Answer) (rest : List Frame) (f : Frame) :
    (deliver s a rest f).book.ioWaiters = s.book.ioWaiters := by
  cases f with
  | handler h =>
    cases h with
    | main sw => cases a <;> rfl
    | fiber sw => rfl
    | promise sw p => simp [deliver, State.fiberDone, State.addFibers, State.setSwitch, Book.resolve]
  | settles p => cases a <;> simp [deliver, Book.resolve, Book.fail]
  | scheduler sw => cases a <;> rfl
  | mainScheduler sw => cases a <;> rfl
  | _ => rfl

/-- A loop that goes on leaves on the list what its pass has left there. -/
theorem ioWaiters_polling (hp : s.polling = true) :
    (go X s).book.ioWaiters = (s.pass X).book.ioWaiters := by
  obtain ⟨f, rest, hm, hst, hl⟩ := polling_looping hp
  cases f with
  | scheduler sw =>
    simp only [go, hm, hst, schedulerRound]
    apply ioWaiters_round
    intro u
    split <;> rfl
  | mainScheduler sw =>
    simp only [go, hm, hst, mainSchedulerRound]
    apply ioWaiters_round
    intro u
    split
    · rfl
    · split <;> rfl
  | _ => cases hl

theorem ioWaiters_go (hp : s.polling = false) : (go X s).book.ioWaiters = s.book.ioWaiters := by
  simp only [go]
  split
  · exact ioWaiters_deliver ..
  · rename_i sw rest hm hst
    simp [State.polling, hm, hst, Frame.loop] at hp
  · rename_i sw rest hm hst
    simp [State.polling, hm, hst, Frame.loop] at hp
  · rename_i sw hooks rest hm hst
    cases hooks <;> rfl
  · rfl

/-- The waiter has not been counted yet. -/
def IoWaiter.Fresh (b : Book) (w : IoWaiter) : Prop :=
  w.k = b.konts.length ∧ w.timeoutCount = 0 ∧ w.maxTimeout = 1000

/-- A network effect has registered the waiter. -/
def Registered (X : Externals W) (s t : State W) (w : IoWaiter) : Prop := ∃ h e,
  (handleNetEffect X h s.book.konts.length s.book.ioWaiters s.world e).reply = none ∧
    (handleNetEffect X h s.book.konts.length s.book.ioWaiters s.world e).ioWaiters =
      w :: s.book.ioWaiters ∧
    t.world = (handleNetEffect X h s.book.konts.length s.book.ioWaiters s.world e).world

theorem Registered.fresh {w : IoWaiter} (h : Registered X s t w) : w.Fresh s.book := by
  obtain ⟨hd, e, hr, hws, -⟩ := h
  rcases handleNetEffect_waiters X hd s.book.konts.length s.book.ioWaiters s.world e with
    ⟨a, hr', -⟩ | ⟨sock, he, hr', -⟩ | ⟨sock, op, hread, hconn, -, hws'⟩
  · cases hr.symm.trans hr'
  · cases hr.symm.trans hr'
  · rw [hws', List.cons.injEq] at hws
    exact hws.1 ▸ ⟨rfl, rfl, rfl⟩

theorem ioWaiters_effc {segment rest : List Frame} {h : Handler} {eff : Eff} {w : IoWaiter}
    (hw : w ∈ (effc X s segment h rest eff).book.ioWaiters) :
    w ∈ s.book.ioWaiters ∨ Registered X s (effc X s segment h rest eff) w := by
  cases eff with
  | await p =>
    simp only [effc] at hw
    split at hw
    · exact .inl hw
    · rw [State.suspend, State.leave_book, Book.ioWaiters_addWaiter] at hw
      exact .inl hw
  | yield =>
    simp only [effc, State.suspend, State.leave_book] at hw
    exact .inl hw
  | net e =>
    simp only [effc, netEffect_eq] at hw ⊢
    rcases handleNetEffect_waiters X h s.book.konts.length s.book.ioWaiters s.world e with
      ⟨a, hr, hws⟩ | ⟨sock, he, hr, hws⟩ | ⟨sock, op, hread, hconn, hr, hws⟩
    · simp only [hr, hws] at hw
      exact .inl hw
    · simp only [hr, hws] at hw
      exact .inl (List.mem_filter.mp hw).1
    · simp only [hr, hws, State.suspend, State.leave_book] at hw
      rcases List.mem_cons.mp hw with rfl | hw
      · refine .inr ⟨h, e, hr, hws, ?_⟩
        simp only [hr, world_suspend]
      · exact .inl hw
  | _ => exact .inl hw

/-- The step is a round of a loop. -/
def Polling (s : State W) (a : Act) : Bool := a = .go && s.polling

/-- What the program does, effects apart, leaves the list as it is. -/
theorem ioWaiters_next (hgo : a ≠ .go) (hperform : ∀ eff, a ≠ .perform eff) :
    (next X s a).book.ioWaiters = s.book.ioWaiters := by
  cases a with
  | go => exact absurd rfl hgo
  | perform eff => exact absurd rfl (hperform eff)
  | resolve p v => simp [next, Book.resolve, Book.note]
  | fail p e => simp [next, Book.fail, Book.note]
  | ret v =>
    simp only [next, finish]
    split <;> rfl
  | raise e =>
    simp only [next, finish]
    split <;> rfl
  | _ => rfl

/-- Without a pass the list only loses waiters, and gains one when an effect registers it. -/
theorem step_waiters (h : Step X s a t) (hp : Polling s a = false) {w : IoWaiter}
    (hw : w ∈ t.book.ioWaiters) : w ∈ s.book.ioWaiters ∨ Registered X s t w := by
  obtain ⟨-, rfl⟩ := h
  cases a with
  | go =>
    have hpoll : s.polling = false := by simpa [Polling] using hp
    exact .inl (ioWaiters_go (X := X) hpoll ▸ hw)
  | perform eff =>
    simp only [next, perform] at hw ⊢
    split at hw
    · exact ioWaiters_effc hw
    · exact .inl hw
  | _ =>
    left
    rwa [ioWaiters_next (by simp) (by simp)] at hw

theorem step_polled (h : Step X s a t) (hp : Polling s a = true) :
    t.book.ioWaiters = (s.pass X).book.ioWaiters := by
  obtain ⟨hgo, hpoll⟩ : a = .go ∧ s.polling = true := by simpa [Polling] using hp
  subst hgo
  rw [h.2]
  exact ioWaiters_polling hpoll

/-- A waiter that a pass leaves on the list has been counted once more. -/
theorem Polled.kept {ws kept : List IoWaiter} {ts : List Task} (hp : Polled ws kept ts) {w : IoWaiter}
    (hw : w ∈ kept) : ∃ v ∈ ws, v.timeoutCount < v.maxTimeout ∧
      w = { v with timeoutCount := v.timeoutCount + 1 } := by
  induction hp with
  | nil => cases hw
  | ready u hp ih =>
    obtain ⟨v, hv, hlt, he⟩ := ih hw
    exact ⟨v, List.mem_cons_of_mem _ hv, hlt, he⟩
  | expired u hu hp ih =>
    obtain ⟨v, hv, hlt, he⟩ := ih hw
    exact ⟨v, List.mem_cons_of_mem _ hv, hlt, he⟩
  | waits u hu hp ih =>
    rcases List.mem_cons.mp hw with rfl | hw
    · exact ⟨u, List.mem_cons_self, hu, rfl⟩
    · obtain ⟨v, hv, hlt, he⟩ := ih hw
      exact ⟨v, List.mem_cons_of_mem _ hv, hlt, he⟩

theorem step_kept (h : Step X s a t) (hp : Polling s a = true) {w : IoWaiter}
    (hw : w ∈ t.book.ioWaiters) : ∃ v ∈ s.book.ioWaiters, v.timeoutCount < v.maxTimeout ∧
      w = { v with timeoutCount := v.timeoutCount + 1 } := by
  rw [step_polled h hp] at hw
  obtain ⟨kept, ts, hpolled, he⟩ := checkIoCompletions_polled X s.book s.world
  apply hpolled.kept
  rw [State.pass, he] at hw
  exact List.mem_reverse.mp hw

/-- A pass queues the `on_timeout` of waiters at their limit only. -/
theorem Polled.timedOut {ws kept : List IoWaiter} {ts : List Task} (hp : Polled ws kept ts)
    {w : IoWaiter} (hw : w.onTimeout ∈ ts) :
    ∃ v ∈ ws, v.maxTimeout ≤ v.timeoutCount ∧ v.k = w.k := by
  induction hp with
  | nil => cases hw
  | ready u hp ih =>
    rcases List.mem_cons.mp hw with heq | hw
    · cases heq
    · obtain ⟨v, hv, hle, hk⟩ := ih hw
      exact ⟨v, List.mem_cons_of_mem _ hv, hle, hk⟩
  | expired u hu hp ih =>
    rcases List.mem_cons.mp hw with heq | hw
    · simp only [IoWaiter.onTimeout, Task.onTimeout.injEq] at heq
      exact ⟨u, List.mem_cons_self, hu, heq.2.2.2.symm⟩
    · obtain ⟨v, hv, hle, hk⟩ := ih hw
      exact ⟨v, List.mem_cons_of_mem _ hv, hle, hk⟩
  | waits u hu hp ih =>
    obtain ⟨v, hv, hle, hk⟩ := ih hw
    exact ⟨v, List.mem_cons_of_mem _ hv, hle, hk⟩

/-! ### Rounds and ticks -/

/-- After its pass the loop on top sleeps: it has no task, and does not end. -/
def State.idles (s : State W) : Bool :=
  match s.stack with
  | .scheduler sw :: _ => s.book.runQueue = [] &&
    (0 < (s.switches sw).fibers || s.book.ioWaiters ≠ [])
  | .mainScheduler sw :: _ => s.book.runQueue = [] &&
    ((s.switches sw).result = none && (s.switches sw).exnRef = none) &&
      (0 < (s.switches sw).fibers || s.book.ioWaiters ≠ [])
  | _ => false

theorem round_idle {done : State W → State W} (hq : (s.pass X).book.runQueue = []) :
    round X s done = done (s.pass X) := by
  have hq' : (checkIoCompletions X s.book s.world).1.runQueue = [] := hq
  simp only [round, hq']
  rfl

theorem go_idle (hp : s.polling = true) (hi : (s.pass X).idles = true) :
    go X s = idle X (s.pass X) := by
  obtain ⟨f, rest, hm, hst, hl⟩ := polling_looping hp
  have hst' : (s.pass X).stack = f :: rest := hst
  cases f with
  | scheduler sw =>
    have hgo : go X s = schedulerRound X s sw rest := by simp only [go, hm, hst]
    simp only [State.idles, hst', Bool.and_eq_true, Bool.or_eq_true, decide_eq_true_eq] at hi
    obtain ⟨hq, hw⟩ := hi
    rw [hgo, schedulerRound, round_idle hq]
    exact if_pos hw
  | mainScheduler sw =>
    have hgo : go X s = mainSchedulerRound X s sw rest := by simp only [go, hm, hst]
    simp only [State.idles, hst', Bool.and_eq_true, Bool.or_eq_true, decide_eq_true_eq] at hi
    obtain ⟨⟨hq, hr, he⟩, hw⟩ := hi
    rw [hgo, mainSchedulerRound, round_idle hq, if_neg]
    · exact if_pos hw
    · rintro (hn | hn)
      · exact hn hr
      · exact hn he
  | _ => cases hl

/-- The step is a round of a loop, made after `k` was captured. -/
def Rounds (k : ℕ) (s : State W) (a : Act) : Bool := Polling s a && k < s.book.konts.length

/-- The step is such a round, and takes a tick. -/
def Ticks (X : Externals W) (k : ℕ) (s : State W) (a : Act) : Bool := Rounds k s a && (s.pass X).idles

/-- The pass of the step gives up on the waiter. -/
def TimesOut (X : Externals W) (s : State W) (a : Act) (w : IoWaiter) : Prop :=
  Polling s a = true ∧ w ∈ s.book.ioWaiters ∧ w.onTimeout ∈ (s.pass X).book.runQueue

/-- Whoever times out has waited for as many ticks as its limit says. -/
def TimeoutsMeasureTicks (X : Externals W) (s : State W) (xs : List (Act × State W)) : Prop :=
  ∀ pre a t post, xs = pre ++ (a, t) :: post → ∀ w, TimesOut X (Lts.last s pre) a w →
    w.maxTimeout ≤ Lts.count (Ticks X w.k) s pre

/-- Every round between the registration of a waiter and its timeout has been idle. -/
def RoundsTick (X : Externals W) (s : State W) (xs : List (Act × State W)) : Prop :=
  ∀ pre a t post, xs = pre ++ (a, t) :: post → ∀ w, TimesOut X (Lts.last s pre) a w →
    Lts.Run (fun u b _ => Rounds w.k u b = true → Ticks X w.k u b = true) s pre

theorem Extends.length_le {b b' : Book} (h : Extends b b') : b.konts.length ≤ b'.konts.length := by
  by_contra hlt
  obtain ⟨kont, hk⟩ : ∃ kont, b.konts[b'.konts.length]? = some kont :=
    ⟨_, List.getElem?_eq_getElem (by omega)⟩
  have hk' := (List.getElem?_eq_some_iff.mp (h.konts hk)).1
  omega

theorem konts_le_last (h : Lts.Run (Step X) s xs) :
    s.book.konts.length ≤ (Lts.last s xs).book.konts.length := by
  have hall : Lts.Always (fun u => s.book.konts.length ≤ u.book.konts.length) s xs :=
    h.always (Nat.le_refl _) fun _ _ _ hu hstep => hu.trans (step_extends hstep).length_le
  exact hall.last

/-- No round is made after the capture of a continuation that is still to come. -/
theorem rounds_before {k : ℕ} (h : Lts.Run (Step X) s xs)
    (hk : (Lts.last s xs).book.konts.length ≤ k) : Lts.count (Rounds k) s xs = 0 := by
  apply Lts.count_eq_zero
  induction xs generalizing s with
  | nil => trivial
  | cons x xs ih =>
    obtain ⟨a, t⟩ := x
    refine ⟨?_, ih h.2 hk⟩
    have hle : s.book.konts.length ≤ (Lts.last s ((a, t) :: xs)).book.konts.length :=
      konts_le_last h
    have hnot : ¬ k < s.book.konts.length := by omega
    simp [Rounds, hnot]

theorem IoWaiter.Sound.captured {b : Book} {w : IoWaiter} (h : w.Sound b) : w.k < b.konts.length := by
  obtain ⟨e, hk, -⟩ := h
  exact (List.getElem?_eq_some_iff.mp hk).1

/-- The waiter has been counted once in every round since it was registered. -/
theorem counted_rounds {world : W} (h : Lts.Run (Step X) (State.initial world) xs) :
    ∀ w ∈ (Lts.last (State.initial world) xs).book.ioWaiters,
      w.timeoutCount = Lts.count (Rounds w.k) (State.initial world) xs ∧
        w.timeoutCount ≤ w.maxTimeout ∧ w.maxTimeout = 1000 := by
  induction xs using List.reverseRecOn with
  | nil =>
    intro w hw
    cases hw
  | append_singleton xs x ih =>
    obtain ⟨a, t⟩ := x
    obtain ⟨hpre, hstep, -⟩ := Lts.run_append.mp h
    intro w hw
    rw [Lts.last_append, Lts.last_cons, Lts.last_nil] at hw
    rw [Lts.count_append, Lts.count_cons, Lts.count_nil, Nat.add_zero]
    have hagreed := (run_agreed hpre).last
    by_cases hp : Polling (Lts.last (State.initial world) xs) a = true
    · obtain ⟨v, hv, hlt, rfl⟩ := step_kept hstep hp hw
      obtain ⟨hcount, -, hmax⟩ := ih hpre v hv
      have hround : Rounds v.k (Lts.last (State.initial world) xs) a = true := by
        simp [Rounds, hp, (hagreed.waiting v hv).captured]
      exact ⟨by simp [hround, hcount], hlt, hmax⟩
    · have hround : ∀ k, Rounds k (Lts.last (State.initial world) xs) a = false := by
        intro k
        simp [Rounds, hp]
      rw [hround, if_neg Bool.false_ne_true, Nat.add_zero]
      rcases step_waiters hstep (by simpa using hp) hw with hw | hreg
      · exact ih hpre w hw
      · obtain ⟨hk, hzero, hmax⟩ := hreg.fresh
        rw [rounds_before hpre (Nat.le_of_eq hk.symm)]
        exact ⟨hzero, by omega, hmax⟩

/-- A waiter times out after as many rounds as its limit says. -/
theorem timesOut_rounds {world : W} (h : Lts.Run (Step X) (State.initial world) xs) {w : IoWaiter}
    (hw : TimesOut X (Lts.last (State.initial world) xs) a w) :
    w.maxTimeout = Lts.count (Rounds w.k) (State.initial world) xs := by
  obtain ⟨-, hmem, hqueue⟩ := hw
  obtain ⟨hcount, hle, hmax⟩ := counted_rounds h w hmem
  obtain ⟨kept, ts, hpolled, he⟩ := checkIoCompletions_polled X
    (Lts.last (State.initial world) xs).book (Lts.last (State.initial world) xs).world
  rw [State.pass, he] at hqueue
  rcases List.mem_append.mp hqueue with hqueue | hqueue
  · -- its `on_timeout` is not in the queue while it waits
    exact absurd rfl ((run_balanced h).last.not_queued hmem hqueue)
  · obtain ⟨v, hv, hlimit, hk⟩ := hpolled.timedOut (List.mem_reverse.mp hqueue)
    obtain ⟨hcount', -, hmax'⟩ := counted_rounds h v hv
    rw [hk] at hcount'
    omega

/-- A run measures time with its timeouts exactly when whoever times out has seen idle rounds
only. -/
theorem timeouts_measure_ticks_iff {world : W} (h : Lts.Run (Step X) (State.initial world) xs) :
    TimeoutsMeasureTicks X (State.initial world) xs ↔ RoundsTick X (State.initial world) xs := by
  have hticks : ∀ k (u : State W) b, Ticks X k u b = true → Rounds k u b = true := by
    intro k u b hu
    exact (Bool.and_eq_true_iff.mp hu).1
  constructor
  · rintro hmeasure pre a t post rfl w hw
    have hle := hmeasure pre a t post rfl w hw
    rw [timesOut_rounds (Lts.run_append.mp h).1 hw] at hle
    exact (Lts.count_le_iff (hticks w.k)).mp hle
  · rintro hidle pre a t post rfl w hw
    rw [timesOut_rounds (Lts.run_append.mp h).1 hw]
    exact (Lts.count_le_iff (hticks w.k)).mpr (hidle pre a t post rfl w hw)

/-! ### A fiber that only yields -/

/-- A read of the main fiber has been counted `n` times, and the only other fiber runs. -/
structure Spinning (n : ℕ) (s : State Unit) : Prop where
  mode : s.mode = .run
  stack : ∃ rest, s.stack = .body (.fiber 0) :: .handler (.fiber 0) :: rest
  queue : s.book.runQueue = []
  waiters : s.book.ioWaiters = [⟨0, .read, n, 1000, .main 0, 0⟩]
  segments : s.segments.length = s.book.konts.length

/-- The fiber has yielded, and its scheduler is about to make a round. -/
structure Yielded (n : ℕ) (s : State Unit) : Prop where
  mode : s.mode = .run
  stack : ∃ rest, s.stack = .scheduler 0 :: rest
  queue : ∃ k, s.book.runQueue = [.resume (.fiber 0) k (.value .unit)] ∧
    s.segments[k]? = some (some [.body (.fiber 0), .handler (.fiber 0)])
  waiters : s.book.ioWaiters = [⟨0, .read, n, 1000, .main 0, 0⟩]
  segments : s.segments.length = s.book.konts.length

theorem Spinning.yields {n : ℕ} {s : State Unit} (h : Spinning n s) :
    Enabled s (.perform .yield) = true ∧ Yielded n (next quiet s (.perform .yield)) := by
  obtain ⟨rest, hst⟩ := h.stack
  have hmode := h.mode
  have hq := h.queue
  have hws := h.waiters
  have hlen := h.segments
  refine ⟨by simp [Enabled, hmode, hst], ?_, ?_, ?_, ?_, ?_⟩
  all_goals simp [next, perform, splitHandler, effc, State.suspend, State.leave, Book.enqueue,
    Book.enqueueAll, Book.capture, hst, hq, hws, hlen]

/-- The round counts the reader and continues the fiber, without a tick. -/
theorem Yielded.round {n : ℕ} {s : State Unit} (h : Yielded n s) (hn : n < 1000) :
    Enabled s .go = true ∧ (s.pass quiet).idles = false ∧
      Enabled (next quiet s .go) .go = true ∧ (next quiet s .go).polling = false ∧
        Spinning (n + 1) (next quiet (next quiet s .go) .go) := by
  obtain ⟨rest, hst⟩ := h.stack
  obtain ⟨k, hq, hseg⟩ := h.queue
  have hmode := h.mode
  have hws := h.waiters
  have hlen := h.segments
  have hlt : ¬ n ≥ 1000 := by omega
  refine ⟨by simp [Enabled, hmode, hst], ?_, ?_, ?_, ?_, ?_, ?_, ?_, ?_⟩
  all_goals simp [Enabled, State.idles, State.pass, State.polling, next, go, schedulerRound,
    PicoOcaml.Pio.round, checkIoCompletions, processWaiter, isReady, quiet, serviceNetwork,
    startTask, deliver, wrapper, State.reply, Book.enqueueAll, Book.take, Book.note, hst, hmode, hq,
    hws, hlen, hseg, hlt]

theorem Spinning.cycle {n : ℕ} {s : State Unit} (h : Spinning n s) (hn : n < 1000) :
    ∃ xs, Lts.Run (Step quiet) s xs ∧ Spinning (n + 1) (Lts.last s xs) ∧
      Lts.count (Ticks quiet 0) s xs = 0 := by
  obtain ⟨he, hy⟩ := h.yields
  obtain ⟨he', hidle, he'', hpoll, hs⟩ := hy.round hn
  refine ⟨Lts.trace (next quiet) s [.perform .yield, .go, .go],
    ⟨⟨he, rfl⟩, ⟨he', rfl⟩, ⟨he'', rfl⟩, trivial⟩, hs, ?_⟩
  apply Lts.count_eq_zero
  refine ⟨rfl, ?_, ?_, trivial⟩
  · simp [Ticks, hidle]
  · simp [Ticks, Rounds, Polling, hpoll]

/-- The fiber can yield until the reader is at its limit. -/
theorem Spinning.spins {n m : ℕ} {s : State Unit} (h : Spinning n s) (hm : n + m ≤ 1000) :
    ∃ xs, Lts.Run (Step quiet) s xs ∧ Spinning (n + m) (Lts.last s xs) ∧
      Lts.count (Ticks quiet 0) s xs = 0 := by
  induction m with
  | zero => exact ⟨[], trivial, h, rfl⟩
  | succ m ih =>
    obtain ⟨xs, hrun, hspin, hcount⟩ := ih (by omega)
    obtain ⟨ys, hrun', hspin', hcount'⟩ := hspin.cycle (by omega)
    refine ⟨xs ++ ys, Lts.run_append.mpr ⟨hrun, hrun'⟩, ?_, ?_⟩
    · rw [Lts.last_append]
      exact hspin'
    · rw [Lts.count_append, hcount, hcount']

theorem Yielded.enabled {n : ℕ} {s : State Unit} (h : Yielded n s) : Enabled s .go = true := by
  obtain ⟨rest, hst⟩ := h.stack
  simp [Enabled, h.mode, hst]

theorem Yielded.timesOut {s : State Unit} (h : Yielded 1000 s) :
    TimesOut quiet s .go ⟨0, .read, 1000, 1000, .main 0, 0⟩ := by
  obtain ⟨rest, hst⟩ := h.stack
  have hmode := h.mode
  have hws := h.waiters
  refine ⟨?_, ?_, ?_⟩
  · simp [Polling, State.polling, hmode, hst, Frame.loop]
  · simp [hws]
  · simp [State.pass, checkIoCompletions, processWaiter, isReady, quiet, serviceNetwork,
      Book.enqueueAll, hws]

/-- A run that has spun up to the limit without a tick goes on to time out. -/
theorem Spinning.unmeasured {s : State Unit} {xs : List (Act × State Unit)}
    (hrun : Lts.Run (Step quiet) s xs) (h : Spinning 1000 (Lts.last s xs))
    (hcount : Lts.count (Ticks quiet 0) s xs = 0) :
    ∃ ys, Lts.Run (Step quiet) s ys ∧ ¬ TimeoutsMeasureTicks quiet s ys := by
  obtain ⟨he, hy⟩ := h.yields
  refine ⟨(xs ++ [(.perform .yield, next quiet (Lts.last s xs) (.perform .yield))]) ++
    [(.go, next quiet (next quiet (Lts.last s xs) (.perform .yield)) .go)], ?_, ?_⟩
  · rw [Lts.run_append, Lts.run_append, Lts.last_append]
    exact ⟨⟨hrun, ⟨he, rfl⟩, trivial⟩, ⟨hy.enabled, rfl⟩, trivial⟩
  · intro hmeasure
    have hle := hmeasure _ _ _ _ rfl ⟨0, .read, 1000, 1000, .main 0, 0⟩
      (by rw [Lts.last_append]; exact hy.timesOut)
    rw [Lts.count_append, hcount] at hle
    exact absurd hle (by simp [Ticks, Rounds, Polling])

/-- The main fiber forks another and reads, and the other one starts. -/
def readAndFork : List Act :=
  [.switchRun, .go, .perform (.fork 0), .go, .perform (.net (.tcpRead 0)), .go, .go]

theorem spinning_readAndFork : Spinning 1 (Lts.last (State.initial ())
    (Lts.trace (next quiet) (State.initial ()) readAndFork)) :=
  ⟨rfl, ⟨_, rfl⟩, rfl, rfl, rfl⟩

theorem timeouts_measure_ticks_iff_fork :
    TimeoutsMeasureTicks quiet (State.initial ())
      (Lts.trace (next quiet) (State.initial ()) readAndFork) ↔
    RoundsTick quiet (State.initial ())
      (Lts.trace (next quiet) (State.initial ()) readAndFork) :=
  timeouts_measure_ticks_iff (X := quiet) (Lts.run_accepts Enabled (by decide))

/-- While a fiber yields a read times out, and no time has passed at all. -/
theorem timeout_without_ticks : ∃ xs, Lts.Run (Step quiet) (State.initial ()) xs ∧
    ¬ TimeoutsMeasureTicks quiet (State.initial ()) xs := by
  have hstart : Lts.Run (Step quiet) (State.initial ())
      (Lts.trace (next quiet) (State.initial ()) readAndFork) :=
    Lts.run_accepts Enabled (by decide)
  obtain ⟨xs, hrun, hspin, hcount⟩ := spinning_readAndFork.spins (m := 999) (by omega)
  rw [← Lts.last_append] at hspin
  apply hspin.unmeasured (Lts.run_append.mpr ⟨hstart, hrun⟩)
  rw [Lts.count_append, hcount]
  decide

end PicoOcaml.Pio
