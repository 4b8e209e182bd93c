import PicoOcaml.Pio.Hooks

/-! Scheduler loops pile up: a forked fiber that suspends or ends enters another one on top of the
stack, and it is left only when its switch is out of fibers. -/
namespace PicoOcaml.Pio

def loopsIn (fs : List Frame) : ℕ := fs.countP Frame.loop

def capturedLoops (o : Option (List Frame)) : ℕ := loopsIn (o.getD [])

/-- `main_handler` returns to its loop; the handlers of the other fibers call `!scheduler_ref`. -/
def Handler.nests : Handler → Bool
  | .main _ => false
  | .fiber _ | .promise _ _ => true

variable {W : Type*}

/-- The loops that have been entered and not left, on the stack or in a continuation. -/
def State.loops (s : State W) : ℕ := loopsIn s.stack + (s.segments.map capturedLoops).sum

/-- The step is the first of a run, or a forked fiber suspends or ends. -/
def Enters (X : Externals W) (s : State W) : Act → Bool
  | .switchRun => true
  | .perform eff => (splitHandler s.stack).any fun (_, h, _) => h.nests && suspends X s h eff
  | .go =>
    match s.mode, s.stack with
    | .ret _, .handler h :: _ => h.nests
    | _, _ => false
  | _ => false

/-- The round finds no task; `scheduler` finds no fiber and no waiter either, and `main_scheduler`
may find the answer of its main fiber instead. -/
def Leaves (X : Externals W) (s : State W) : Act → Bool
  | .go =>
    match s.mode, s.stack with
    | .run, .scheduler sw :: _ =>
      (s.pass X).book.runQueue = [] ∧ (s.switches sw).fibers ≤ 0 ∧ (s.pass X).book.ioWaiters = []
    | .run, .mainScheduler sw :: _ =>
      (s.pass X).book.runQueue = [] ∧
        ((s.switches sw).result ≠ none ∨ (s.switches sw).exnRef ≠ none ∨
          ((s.switches sw).fibers ≤ 0 ∧ (s.pass X).book.ioWaiters = []))
    | _, _ => false
  | _ => false

section

@[simp] theorem loopsIn_nil : loopsIn [] = 0 := rfl

@[simp] theorem loopsIn_cons (f : Frame) (fs : List Frame) :
    loopsIn (f :: fs) = loopsIn fs + if f.loop then 1 else 0 := by
  simp [loopsIn, List.countP_cons]

@[simp] theorem loopsIn_append (fs gs : List Frame) :
    loopsIn (fs ++ gs) = loopsIn fs + loopsIn gs := by
  simp [loopsIn]

@[simp] theorem loopsIn_wrapper (h : Handler) : loopsIn (wrapper h) = 0 := by
  cases h <;> rfl

end

variable {X : Externals W} {s t : State W} {a : Act} {xs : List (Act × State W)}

theorem loops_suspend {eff : Eff} {h : Handler} {segment rest : List Frame} {refer : Book → Book}
    (hsplit : splitHandler s.stack = some (segment, h, rest)) :
    (s.suspend eff h segment rest refer).loops = s.loops + if h.nests then 1 else 0 := by
  obtain ⟨happ, -⟩ := splitHandler_spec hsplit
  have hsome : capturedLoops (some segment) = loopsIn segment := rfl
  cases h with
  | main sw =>
    simp only [State.loops, State.suspend, State.leave, happ, loopsIn_append, List.map_append,
      List.sum_append, List.map_cons, List.map_nil, List.sum_cons, List.sum_nil, hsome, Handler.nests]
    simp only [Bool.false_eq_true, if_false]
    omega
  | fiber sw =>
    simp only [State.loops, State.suspend, State.leave, happ, loopsIn_append, loopsIn_cons,
      List.map_append, List.sum_append, List.map_cons, List.map_nil, List.sum_cons, List.sum_nil,
      hsome, Handler.nests, Frame.loop, if_true]
    omega
  | promise sw p =>
    simp only [State.loops, State.suspend, State.leave, happ, loopsIn_append, loopsIn_cons,
      List.map_append, List.sum_append, List.map_cons, List.map_nil, List.sum_cons, List.sum_nil,
      hsome, Handler.nests, Frame.loop, if_true]
    omega

theorem loops_effc {eff : Eff} {h : Handler} {segment rest : List Frame}
    (hsplit : splitHandler s.stack = some (segment, h, rest)) :
    (effc X s segment h rest eff).loops =
      s.loops + if h.nests && suspends X s h eff then 1 else 0 := by
  cases eff with
  | fork sw => simp [effc, suspends, State.reply, State.loops, State.addFibers, State.setSwitch]
  | forkPromise sw =>
    simp [effc, suspends, State.reply, State.loops, State.addFibers, State.setSwitch]
  | await p =>
    cases ho : s.book.outcome p with
    | some a => simp [effc, suspends, ho, State.reply, State.loops]
    | none =>
      simp only [effc, suspends, ho, Option.isNone_none, Bool.and_true]
      exact loops_suspend hsplit
  | yield =>
    simp only [effc, suspends, Bool.and_true]
    exact loops_suspend hsplit
  | net e =>
    cases hr : (netEffect X s h e).reply with
    | some a => simp [effc, suspends, hr, State.reply, State.loops]
    | none =>
      simp only [effc, suspends, hr, Option.isNone_none, Bool.and_true]
      exact loops_suspend (s := { s with world := (netEffect X s h e).world }) hsplit
  | other => simp [effc, suspends, State.reply, State.loops]

theorem loops_startTask (u : Task) : (startTask X s u).loops = s.loops := by
  cases u with
  | waker p h k =>
    simp only [startTask]
    split <;> rfl
  | resume h k a =>
    simp only [startTask]
    split
    · rename_i segment hk
      have hset := sum_map_set (f := capturedLoops) (y := none) (Option.join_eq_some_iff.mp hk)
      have hnone : capturedLoops none = 0 := rfl
      have hsome : capturedLoops (some segment) = loopsIn segment := rfl
      simp only [State.reply, State.loops, loopsIn_append, loopsIn_wrapper]
      omega
    · simp only [State.reply, State.loops, loopsIn_append, loopsIn_wrapper, Nat.zero_add]
  | _ => rfl

/-- A round that has a task calls it, whatever the loop. -/
theorem loops_round {done : State W → State W} {n : ℕ}
    (hdone : (s.pass X).book.runQueue = [] → (done (s.pass X)).loops + n = s.loops)
    (hn : (s.pass X).book.runQueue ≠ [] → n = 0) : (round X s done).loops + n = s.loops := by
  simp only [round]
  split
  · next u q hq =>
    have hne : (s.pass X).book.runQueue ≠ [] := by
      intro hnil
      exact List.cons_ne_nil u q (hq.symm.trans hnil)
    rw [hn hne]
    exact loops_startTask u
  · next hq => exact hdone hq

theorem loops_idle (u : State W) : (idle X u).loops = u.loops := rfl

theorem loops_finishMain (u : State W) {sw : ℕ} {rest : List Frame}
    (hst : u.stack = .mainScheduler sw :: rest) : (finishMain u sw rest).loops + 1 = u.loops := by
  simp only [finishMain, State.loops, State.setSwitch, hst, loopsIn_cons, Frame.loop, if_true]
  simp only [Bool.false_eq_true, if_false]
  omega

theorem loops_scheduler {sw : ℕ} {rest : List Frame} (hm : s.mode = .run)
    (hst : s.stack = .scheduler sw :: rest) :
    (schedulerRound X s sw rest).loops + (if Leaves X s .go then 1 else 0) = s.loops := by
  refine loops_round ?_ ?_
  · intro hq
    by_cases hstay : (s.switches sw).fibers > 0 ∨ (s.pass X).book.ioWaiters ≠ []
    · have hleaves : Leaves X s .go = false := by
        simp only [Leaves, hm, hst, decide_eq_false_iff_not]
        rintro ⟨-, hf, hio⟩
        rcases hstay with hstay | hstay
        · omega
        · exact hstay hio
      rw [if_pos (show ((s.pass X).switches sw).fibers > 0 ∨ _ from hstay), hleaves, loops_idle]
      rfl
    · have hleaves : Leaves X s .go = true := by
        push Not at hstay
        simp only [Leaves, hm, hst, decide_eq_true_eq]
        exact ⟨hq, hstay.1, hstay.2⟩
      have hstack : (s.pass X).stack = .scheduler sw :: rest := hst
      rw [if_neg (show ¬(((s.pass X).switches sw).fibers > 0 ∨ _) from hstay), hleaves]
      simp only [State.loops, hst, loopsIn_cons, Frame.loop, if_true]
      have hseg : (s.pass X).segments = s.segments := rfl
      rw [hseg]
      omega
  · intro hq
    have hleaves : Leaves X s .go = false := by
      simp only [Leaves, hm, hst, decide_eq_false_iff_not]
      exact fun h => hq h.1
    rw [hleaves]
    rfl

theorem loops_mainScheduler {sw : ℕ} {rest : List Frame} (hm : s.mode = .run)
    (hst : s.stack = .mainScheduler sw :: rest) :
    (mainSchedulerRound X s sw rest).loops + (if Leaves X s .go then 1 else 0) = s.loops := by
  refine loops_round ?_ ?_
  · intro hq
    have hiff : Leaves X s .go = true ↔ ((s.switches sw).result ≠ none ∨
        (s.switches sw).exnRef ≠ none) ∨
          ¬ ((s.switches sw).fibers > 0 ∨ (s.pass X).book.ioWaiters ≠ []) := by
      simp only [Leaves, hm, hst, hq, true_and, decide_eq_true_eq]
      push Not
      tauto
    have hleft := loops_finishMain (s.pass X) hst
    have hloops : (s.pass X).loops = s.loops := rfl
    split
    · rename_i hanswered
      rw [if_pos (hiff.mpr (.inl hanswered))]
      omega
    · rename_i hunanswered
      split
      · rename_i hstay
        have hleaves : ¬ Leaves X s .go = true := by
          rw [hiff]
          rintro (h | h)
          · exact hunanswered h
          · exact h hstay
        rw [if_neg hleaves, loops_idle]
        omega
      · rename_i hout
        rw [if_pos (hiff.mpr (.inr hout))]
        omega
  · intro hq
    have hleaves : Leaves X s .go = false := by
      simp only [Leaves, hm, hst, decide_eq_false_iff_not]
      exact fun h => hq h.1
    rw [hleaves]
    rfl

/-- Only the ends of forked fibers enter a loop, and no loop is left by an answer. -/
theorem loops_deliver {a : Answer} {f : Frame} {rest : List Frame} (hret : s.Returns a f rest)
    (hl : LoopAnswers s) :
    (deliver s a rest f).loops = s.loops + if Enters X s .go then 1 else 0 := by
  obtain ⟨hm, hst⟩ := hret
  cases f with
  | handler h =>
    cases h with
    | main sw =>
      cases a <;> simp [deliver, Enters, Handler.nests, hm, hst, State.loops, State.fiberDone,
        State.addFibers, State.setSwitch, Frame.loop]
    | fiber sw =>
      simp only [deliver, Enters, Handler.nests, hm, hst, State.loops, State.fiberDone,
        State.addFibers, State.setSwitch, loopsIn_cons, Frame.loop]
      simp only [Bool.false_eq_true, if_false, if_true]
      omega
    | promise sw p =>
      simp only [deliver, Enters, Handler.nests, hm, hst, State.loops, State.fiberDone,
        State.addFibers, State.setSwitch, loopsIn_cons, Frame.loop]
      simp only [Bool.false_eq_true, if_false, if_true]
      omega
  | scheduler sw =>
    obtain ⟨v, rfl⟩ := hl a _ rest ⟨hm, hst⟩ rfl
    simp [deliver, Enters, hm, hst, State.loops]
  | mainScheduler sw =>
    obtain ⟨v, rfl⟩ := hl a _ rest ⟨hm, hst⟩ rfl
    simp [deliver, Enters, hm, hst, State.loops]
  | settles p => simp [deliver, Enters, hm, hst, State.loops, Frame.loop]
  | body b => simp [deliver, Enters, hm, hst, State.loops]
  | cleanup sw hooks => simp [deliver, Enters, hm, hst, State.loops]

theorem loops_cleanup {sw : ℕ} {hooks : List ℕ} {rest : List Frame}
    (hst : s.stack = .cleanup sw hooks :: rest) : (cleanupRound s sw rest hooks).loops = s.loops := by
  cases hooks <;> simp [cleanupRound, State.loops, hst, Frame.loop]

theorem loops_go (hl : LoopAnswers s) (he : Enabled s .go = true) :
    (go X s).loops + (if Leaves X s .go then 1 else 0) =
      s.loops + if Enters X s .go then 1 else 0 := by
  cases hm : s.mode with
  | ret a =>
    cases hst : s.stack with
    | nil => simp [Enabled, hm, hst] at he
    | cons f rest =>
      have hgo : go X s = deliver s a rest f := by simp only [go, hm, hst]
      have hleaves : Leaves X s .go = false := by simp only [Leaves, hm]
      rw [hgo, hleaves, loops_deliver (X := X) ⟨hm, hst⟩ hl]
      rfl
  | run =>
    have henters : Enters X s .go = false := by simp only [Enters, hm]
    rw [henters]
    cases hst : s.stack with
    | nil => simp [Enabled, hm, hst] at he
    | cons f rest =>
      cases f with
      | scheduler sw =>
        have hgo : go X s = schedulerRound X s sw rest := by simp only [go, hm, hst]
        rw [hgo]
        exact loops_scheduler hm hst
      | mainScheduler sw =>
        have hgo : go X s = mainSchedulerRound X s sw rest := by simp only [go, hm, hst]
        rw [hgo]
        exact loops_mainScheduler hm hst
      | cleanup sw hooks =>
        have hgo : go X s = cleanupRound s sw rest hooks := by simp only [go, hm, hst]
        have hleaves : Leaves X s .go = false := by simp only [Leaves, hm, hst]
        rw [hgo, hleaves, loops_cleanup hst]
      | _ => simp [Enabled, hm, hst] at he

/-- A step enters at most one loop, or leaves at most one. -/
theorem step_loops (h : Step X s a t) (hl : LoopAnswers s) :
    t.loops + (if Leaves X s a then 1 else 0) = s.loops + if Enters X s a then 1 else 0 := by
  obtain ⟨he, rfl⟩ := h
  cases a with
  | go => exact loops_go hl he
  | perform eff =>
    cases hsplit : splitHandler s.stack with
    | none => simp only [next, perform, Enters, Leaves, hsplit, Option.any_none]; rfl
    | some p =>
      obtain ⟨segment, h, rest⟩ := p
      simp only [next, perform, Enters, Leaves, hsplit, Option.any_some]
      exact loops_effc hsplit
  | switchRun =>
    have hentered : (switchRun s).loops = s.loops + 1 := by
      simp only [switchRun, State.loops, loopsIn_cons, Frame.loop, if_true]
      omega
    exact hentered
  | ret v =>
    simp only [next, finish, Enters, Leaves]
    split
    · rename_i b rest hst
      simp [State.loops, hst, Frame.loop]
    · rfl
  | raise e =>
    simp only [next, finish, Enters, Leaves]
    split
    · rename_i b rest hst
      simp [State.loops, hst, Frame.loop]
    · rfl
  | _ => rfl

theorem loops_left (h : Step X s a t) (hl : LoopAnswers s) (hlt : t.loops < s.loops) :
    Leaves X s a = true := by
  have hone := step_loops h hl
  by_contra hn
  rw [if_neg hn] at hone
  omega

/-- The loops that have been entered and not left are those that stand. -/
theorem run_loops (h : Lts.Run (Step X) s xs) (hs : Tidy s) :
    (Lts.last s xs).loops + Lts.count (Leaves X) s xs = s.loops + Lts.count (Enters X) s xs := by
  induction xs generalizing s with
  | nil => rfl
  | cons x xs ih =>
    obtain ⟨a, t⟩ := x
    obtain ⟨hstep, hrun⟩ := h
    have hone := step_loops hstep hs.loop
    have hrest := ih hrun (step_tidy hstep hs)
    rw [Lts.last_cons, Lts.count_cons, Lts.count_cons]
    omega

/-- In every run the loops that stand are the ones entered less the ones left, and a loop is left
only by a round that has nothing to do for its switch. -/
theorem loops_counted {world : W} (h : Lts.Run (Step X) (State.initial world) xs) :
    (Lts.last (State.initial world) xs).loops + Lts.count (Leaves X) (State.initial world) xs =
        Lts.count (Enters X) (State.initial world) xs ∧
      Lts.Run (fun s a t => t.loops < s.loops → Leaves X s a = true) (State.initial world) xs := by
  constructor
  · have hall := run_loops h (tidy_initial world)
    have hzero : (State.initial world).loops = 0 := rfl
    omega
  · refine (h.keeps (tidy_initial world) ?_).2
    intro s a t hs hstep
    exact ⟨step_tidy hstep hs, loops_left hstep hs.loop⟩

/-! ### One fiber is enough -/

/-- The scheduler has next to nothing to do. -/
def Sparse (s : State Unit) : Prop :=
  (s.switches 0).fibers ≤ 2 ∧ s.book.runQueue.length ≤ 1 ∧ s.book.ioWaiters = []

instance : DecidablePred Sparse := fun _ => inferInstanceAs (Decidable (_ ∧ _ ∧ _))

/-- The forked fiber, which is the only one left, runs above `n` loops. -/
structure Nested (n : ℕ) (s : State Unit) : Prop where
  mode : s.mode = .run
  stack : ∃ rest, s.stack = .body (.fiber 0) :: .handler (.fiber 0) :: rest ∧ loopsIn rest = n
  fibers : (s.switches 0).fibers = 1
  queue : s.book.runQueue = []
  waiters : s.book.ioWaiters = []
  segments : s.segments.length = s.book.konts.length

/-- The fiber has yielded. -/
structure Rescheduled (n : ℕ) (s : State Unit) : Prop where
  mode : s.mode = .run
  stack : ∃ rest, s.stack = .scheduler 0 :: rest ∧ loopsIn rest = n
  fibers : (s.switches 0).fibers = 1
  queue : ∃ k, s.book.runQueue = [.resume (.fiber 0) k (.value .unit)] ∧
    s.segments[k]? = some (some [.body (.fiber 0), .handler (.fiber 0)])
  waiters : s.book.ioWaiters = []
  segments : s.segments.length = s.book.konts.length

theorem Nested.yields {n : ℕ} {s : State Unit} (h : Nested n s) :
    Enabled s (.perform .yield) = true ∧ Rescheduled n (next quiet s (.perform .yield)) := by
  obtain ⟨rest, hst, hn⟩ := h.stack
  have hmode := h.mode
  have hq := h.queue
  have hlen := h.segments
  refine ⟨by simp [Enabled, hmode, hst], ?_, ⟨rest, ?_, hn⟩, ?_, ?_, ?_, ?_⟩
  all_goals simp [next, perform, splitHandler, effc, State.suspend, State.leave, Book.enqueue,
    Book.enqueueAll, Book.capture, h.fibers, h.waiters, hst, hq, hlen]

/-- The round above which the fiber runs on stays where it is. -/
theorem Rescheduled.round {n : ℕ} {s : State Unit} (h : Rescheduled n s) :
    Enabled s .go = true ∧ Sparse (next quiet s .go) ∧ Enabled (next quiet s .go) .go = true ∧
      Nested (n + 1) (next quiet (next quiet s .go) .go) := by
  obtain ⟨rest, hst, hn⟩ := h.stack
  obtain ⟨k, hq, hseg⟩ := h.queue
  have hmode := h.mode
  have hfibers := h.fibers
  have hws := h.waiters
  have hlen := h.segments
  refine ⟨by simp [Enabled, hmode, hst], ⟨?_, ?_, ?_⟩, ?_, ?_, ⟨.scheduler 0 :: rest, ?_, ?_⟩, ?_, ?_,
    ?_, ?_⟩
  all_goals simp [Enabled, next, go, schedulerRound, PicoOcaml.Pio.round, checkIoCompletions, quiet,
    serviceNetwork, startTask, deliver, wrapper, State.reply, Book.enqueueAll, Book.take, Book.note,
    Frame.loop, hst, hmode, hfibers, hq, hws, hlen, hseg, hn]

theorem Nested.sparse {n : ℕ} {s : State Unit} (h : Nested n s) : Sparse s :=
  ⟨by have := h.fibers; omega, by simp [h.queue], h.waiters⟩

theorem Rescheduled.sparse {n : ℕ} {s : State Unit} (h : Rescheduled n s) : Sparse s := by
  obtain ⟨k, hq, -⟩ := h.queue
  exact ⟨by have := h.fibers; omega, by simp [hq], h.waiters⟩

/-- The fiber yields, and is resumed. -/
def yieldsAgain : List Act := [.perform .yield, .go, .go]

/-- Code of the forked fiber yields in the step, if any code does. -/
def FiberYields (s : State Unit) (a : Act) (_ : State Unit) : Prop :=
  a = .perform .yield → ∃ rest, s.Program (.fiber 0) rest

theorem Nested.deeper {n : ℕ} {s : State Unit} (h : Nested n s) :
    let xs := Lts.trace (next quiet) s yieldsAgain
    Lts.Run (Step quiet) s xs ∧ Lts.Run FiberYields s xs ∧ Lts.Always Sparse s xs ∧
      Nested (n + 1) (Lts.last s xs) := by
  obtain ⟨he, hy⟩ := h.yields
  obtain ⟨he', hsparse, he'', hnested⟩ := hy.round
  obtain ⟨rest, hst, -⟩ := h.stack
  refine ⟨⟨⟨he, rfl⟩, ⟨he', rfl⟩, ⟨he'', rfl⟩, trivial⟩,
    ⟨fun _ => ⟨_, h.mode, hst⟩, nofun, nofun, trivial⟩, ?_, hnested⟩
  refine Lts.always_cons.mpr ⟨h.sparse, Lts.always_cons.mpr ⟨hy.sparse, ?_⟩⟩
  exact Lts.always_cons.mpr ⟨hsparse, Lts.always_nil.mpr hnested.sparse⟩

/-- The main fiber forks another and ends, and the other one starts. -/
def forkAndEnd : List Act :=
  [.switchRun, .go, .perform (.fork 0), .go, .ret .unit, .go, .go, .go]

theorem loops_counted_forkAndEnd :
    (Lts.last (State.initial ()) (Lts.trace (next quiet) (State.initial ()) forkAndEnd)).loops +
          Lts.count (Leaves quiet) (State.initial ())
            (Lts.trace (next quiet) (State.initial ()) forkAndEnd) =
        Lts.count (Enters quiet) (State.initial ())
          (Lts.trace (next quiet) (State.initial ()) forkAndEnd) ∧
      Lts.Run (fun s a t => t.loops < s.loops → Leaves quiet s a = true) (State.initial ())
        (Lts.trace (next quiet) (State.initial ()) forkAndEnd) :=
  loops_counted (X := quiet) (Lts.run_accepts Enabled (by decide))

theorem nested_forkAndEnd :
    Nested 1 (Lts.last (State.initial ()) (Lts.trace (next quiet) (State.initial ()) forkAndEnd)) :=
  ⟨rfl, ⟨_, rfl, rfl⟩, rfl, rfl, rfl, rfl⟩

/-- The main fiber forks another and ends, and the other one yields so many times. -/
def forkAndYields : ℕ → List Act
  | 0 => forkAndEnd
  | n + 1 => forkAndYields n ++ yieldsAgain

def yielding (n : ℕ) : List (Act × State Unit) :=
  Lts.trace (next quiet) (State.initial ()) (forkAndYields n)

/-- There is no bound: a single forked fiber that does nothing but yield drives the loops on the
stack as high as one likes, with never more than one task in the queue and nobody waiting. -/
theorem loops_unbounded (n : ℕ) :
    Lts.Run (Step quiet) (State.initial ()) (yielding n) ∧
      Lts.Run FiberYields (State.initial ()) (yielding n) ∧
      Lts.Always Sparse (State.initial ()) (yielding n) ∧
      loopsIn (Lts.last (State.initial ()) (yielding n)).stack = n + 1 := by
  have hdeep : Lts.Run (Step quiet) (State.initial ()) (yielding n) ∧
      Lts.Run FiberYields (State.initial ()) (yielding n) ∧
      Lts.Always Sparse (State.initial ()) (yielding n) ∧
      Nested (n + 1) (Lts.last (State.initial ()) (yielding n)) := by
    induction n with
    | zero =>
      refine ⟨Lts.run_accepts Enabled (by decide), ?_, ⟨by decide, by decide⟩, nested_forkAndEnd⟩
      refine (Lts.run_accepts (fun _ a => decide (a ≠ .perform .yield)) (by decide)).imp ?_
      exact fun _ _ _ h ha => absurd ha (of_decide_eq_true h.1)
    | succ n ih =>
      obtain ⟨hrun, hyields, hsparse, hnested⟩ := ih
      obtain ⟨hrun', hyields', hsparse', hnested'⟩ := hnested.deeper
      simp only [yielding, Lts.last_trace] at hrun' hyields' hsparse' hnested' hrun hyields hsparse
      simp only [yielding, forkAndYields, Lts.trace_append, Lts.run_append, Lts.always_append,
        Lts.last_append, Lts.last_trace]
      exact ⟨⟨hrun, hrun'⟩, ⟨hyields, hyields'⟩, ⟨hsparse, hsparse'⟩, hnested'⟩
  obtain ⟨hrun, hyields, hsparse, hnested⟩ := hdeep
  obtain ⟨rest, hst, hn⟩ := hnested.stack
  refine ⟨hrun, hyields, hsparse, ?_⟩
  rw [hst]
  exact hn

end PicoOcaml.Pio
