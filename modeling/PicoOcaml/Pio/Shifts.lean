import PicoOcaml.Pio.Moves

/-! What a step of the machine can do: it closes a socket, or it makes a sequence of shifts. -/
namespace PicoOcaml.Pio

/-- The loops that run tasks. -/
def Frame.loop : Frame → Bool
  | .scheduler _ | .mainScheduler _ => true
  | _ => false

/-- The frames under which a task starts code of the program. -/
def Task.frames : Task → List Frame
  | .main sw => [.body (.main sw), .handler (.main sw)]
  | .fiber sw => [.body (.fiber sw), .handler (.fiber sw)]
  | .promiseFiber sw p => [.body (.promise sw p), .handler (.promise sw p)]
  | .element p => [.body (.element p), .settles p]
  | _ => []

variable {W : Type*}

namespace State

variable (s : State W)

/-- Code of the program runs. -/
def Program (b : Body) (rest : List Frame) : Prop := s.mode = .run ∧ s.stack = .body b :: rest

/-- A loop is about to look at the queue. -/
def Looping (f : Frame) (rest : List Frame) : Prop :=
  s.mode = .run ∧ s.stack = f :: rest ∧ f.loop = true

/-- `f` is handed the answer. -/
def Returns (a : Answer) (f : Frame) (rest : List Frame) : Prop :=
  s.mode = .ret a ∧ s.stack = f :: rest

/-- `retc` and `exnc` of `main_handler` keep the answer. -/
def keepAnswer (sw : ℕ) : Answer → State W
  | .value r => s.setSwitch sw fun w => { w with result := some r }
  | .exn e => s.setSwitch sw fun w => { w with exnRef := some e }

end State

/-- One change of control; `c` restricts the continuations that are captured. -/
inductive Shift (c : List Frame → Handler → List Frame → Prop) (s : State W) : State W → Prop
  | quiet {b : Book} (w : W) : Quiet s.book b →
      Shift c s { s with book := b, world := w }
  | world (w : W) : Shift c s { s with world := w }
  | onRelease (sw n : ℕ) :
      Shift c s (s.setSwitch sw fun w => { w with onRelease := n :: w.onRelease })
  | fork {sw : ℕ} : sw < s.nextSwitch →
      Shift c s { s.addFibers sw 1 with book := s.book.enqueue (.fiber sw) }
  | forkPromise {sw : ℕ} : sw < s.nextSwitch → Shift c s { s.addFibers sw 1 with
      book := s.book.createPromise.enqueue (.promiseFiber sw s.book.promises.length) }
  | element : Shift c s { s with
      book := s.book.createPromise.enqueue (.element s.book.promises.length) }
  | switchRun {b : Body} {rest : List Frame} : s.Program b rest →
      Shift c s (switchRun s)
  | reply {b : Body} {rest : List Frame} (a : Answer) : s.Program b rest →
      Shift c s (s.reply a)
  | suspend {b : Body} {fs segment rest : List Frame} {eff : Eff} {h : Handler}
      {book : Book} (w : W) : s.Program b fs → splitHandler s.stack = some (segment, h, rest) →
      c segment h rest → Capture h s.book eff book →
      Shift c s ({ s with
        world := w, book := book, segments := s.segments ++ [some segment] }.leave h rest)
  | finish {b : Body} {rest : List Frame} (a : Answer) : s.Program b rest →
      Shift c s { s with book := s.book.note (.ended b a), stack := rest, mode := .ret a }
  | launch {f : Frame} {rest : List Frame} {t : Task} {q : List Task} :
      s.Looping f rest → s.book.runQueue = t :: q → t.starts = true →
      Shift c s (push { s with book := s.book.take t q } t.frames)
  | resume {f : Frame} {rest segment : List Frame} {h : Handler} {k : ℕ} {a : Answer}
      {q : List Task} : s.Looping f rest → s.book.runQueue = .resume h k a :: q →
      s.segments[k]? = some (some segment) →
      Shift c s { s with
        book := s.book.take (.resume h k a) q, segments := s.segments.set k none
        stack := segment ++ wrapper h ++ s.stack, mode := .ret a }
  | resumeTwice {f : Frame} {rest : List Frame} {h : Handler} {k : ℕ} {a : Answer}
      {q : List Task} : s.Looping f rest → s.book.runQueue = .resume h k a :: q →
      (s.segments[k]?).join = none →
      Shift c s { s with
        book := s.book.take (.resume h k a) q, stack := wrapper h ++ s.stack
        mode := .ret (.exn .continuationAlreadyResumed) }
  | stillPending {f : Frame} {rest : List Frame} {p k : ℕ} {h : Handler}
      {q : List Task} : s.Looping f rest → s.book.runQueue = .waker p h k :: q →
      s.book.outcome p = none →
      Shift c s { s with
        book := (s.book.take (.waker p h k) q).note (.stillPending k)
        mode := .ret (.exn (.failure "Promise still pending")) }
  | toBody {a : Answer} {b : Body} {rest : List Frame} : s.Returns a (.body b) rest →
      Shift c s { s with mode := .run }
  | toCleanup {a : Answer} {sw : ℕ} {hooks : List ℕ} {rest : List Frame} :
      s.Returns a (.cleanup sw hooks) rest → Shift c s { s with mode := .run }
  | toLoop {v : Val} {f : Frame} {rest : List Frame} : s.Returns (.value v) f rest →
      f.loop = true → Shift c s { s with mode := .run }
  | breakLoop {e : Exn} {f : Frame} {rest : List Frame} :
      s.Returns (.exn e) f rest → f.loop = true →
      Shift c s { s with stack := rest, mode := .ret (.exn e) }
  | endMain {a : Answer} {sw : ℕ} {rest : List Frame} :
      s.Returns a (.handler (.main sw)) rest →
      Shift c s { (s.keepAnswer sw a).fiberDone sw with stack := rest, mode := .ret (.value .unit) }
  | endFiber {a : Answer} {sw : ℕ} {rest : List Frame} :
      s.Returns a (.handler (.fiber sw)) rest →
      Shift c s { s.fiberDone sw with stack := .scheduler sw :: rest, mode := .run }
  | endPromise {a : Answer} {sw p : ℕ} {rest : List Frame} :
      s.Returns a (.handler (.promise sw p)) rest →
      Shift c s { s.fiberDone sw with
        book := s.book.resolve p a.result, stack := .scheduler sw :: rest, mode := .run }
  | endElement {a : Answer} {p : ℕ} {rest : List Frame} {o : PromiseState} :
      s.Returns a (.settles p) rest → o.outcome = some a →
      Shift c s { s with
        book := s.book.settle p o, stack := rest, mode := .ret (.value .unit) }
  | exitScheduler {sw : ℕ} {rest : List Frame} : s.Looping (.scheduler sw) rest →
      s.book.runQueue = [] → s.book.ioWaiters = [] → (s.switches sw).fibers ≤ 0 →
      Shift c s { s with stack := rest, mode := .ret (.value .unit) }
  | exitMain {sw : ℕ} {rest : List Frame} : s.Looping (.mainScheduler sw) rest →
      s.book.runQueue = [] →
      (s.switches sw).result ≠ none ∨ (s.switches sw).exnRef ≠ none ∨
        ((s.switches sw).fibers ≤ 0 ∧ s.book.ioWaiters = []) →
      Shift c s (finishMain s sw rest)
  | runHook {sw n : ℕ} {hooks : List ℕ} {rest : List Frame} :
      s.mode = .run → s.stack = .cleanup sw (n :: hooks) :: rest →
      Shift c s { s with stack := .body (.hook sw n) :: .cleanup sw hooks :: rest }
  | exitCleanup {sw : ℕ} {rest : List Frame} :
      s.mode = .run → s.stack = .cleanup sw [] :: rest →
      Shift c s { s with stack := rest, mode := .ret (runAnswer (s.switches sw)) }

/-- An update of a switch leaves its other data as they are. -/
theorem switch_update {β : Type*} (g : Switch → β) {s t : State W} {sw sw' : ℕ} {x : Switch}
    (hsw : t.switches = Function.update s.switches sw' x) (hx : g x = g (s.switches sw')) :
    g (t.switches sw) = g (s.switches sw) := by
  by_cases h : sw = sw'
  · subst h
    rw [hsw, Function.update_self, hx]
  · rw [hsw, Function.update_of_ne h]

abbrev Shifts (c : List Frame → Handler → List Frame → Prop) : State W → State W → Prop :=
  Relation.ReflTransGen (Shift c)

theorem Shift.imp {c d : List Frame → Handler → List Frame → Prop} {s t : State W}
    (h : Shift c s t) (hcd : ∀ segment hd rest, c segment hd rest → d segment hd rest) :
    Shift d s t := by
  cases h with
  | suspend w hs hsplit hc hcap => exact .suspend w hs hsplit (hcd _ _ _ hc) hcap
  | quiet w hq => exact .quiet w hq
  | world w => exact .world w
  | element => exact .element
  | toCleanup hs => exact .toCleanup hs
  | toLoop hs hl => exact .toLoop hs hl
  | _ => constructor <;> assumption

theorem Shifts.one {c : List Frame → Handler → List Frame → Prop} {s t : State W}
    (h : Shift c s t) : Shifts c s t := .single h

/-- At most two shifts, of which the first leaves the stack as it is. -/
inductive Stride (c : List Frame → Handler → List Frame → Prop) (s t : State W) : Prop
  | stay : t = s → Stride c s t
  | one : Shift c s t → Stride c s t
  | two {u : State W} : Shift c s u → u.stack = s.stack → u.mode = s.mode → Shift c u t →
      Stride c s t

theorem Stride.shifts {c : List Frame → Handler → List Frame → Prop} {s t : State W}
    (h : Stride c s t) : Shifts c s t := by
  cases h with
  | stay h => exact h ▸ .refl
  | one h => exact Shifts.one h
  | two h hst hm h' => exact Relation.ReflTransGen.head h (Shifts.one h')

variable {X : Externals W} {c : List Frame → Handler → List Frame → Prop} {s t : State W} {a : Act}
  {b : Body} {fs segment rest : List Frame} {h : Handler}

theorem netEffect_eq (h : Handler) (e : NetEff) : netEffect X s h e =
    handleNetEffect X h s.book.konts.length s.book.ioWaiters s.world e := by
  cases h with
  | main sw => exact mainNetEffect_eq X _ _ _ _ e
  | fiber sw => rfl
  | promise sw p => rfl

/-- The step is a `Tcp_close` of the socket, and some handler catches it. -/
def Closes (s : State W) (a : Act) (sock : ℤ) : Prop :=
  a = .perform (.net (.tcpClose sock)) ∧ splitHandler s.stack ≠ none

/-- What a close does. -/
def State.closed (s : State W) (sock : ℤ) (w : W) : State W :=
  { s with world := w, book := s.book.dropWaiters sock }.reply (.value .unit)

/-- The switch or the promise that the effect names has been created. -/
def Eff.Known (s : State W) : Eff → Prop
  | .fork sw | .forkPromise sw => sw < s.nextSwitch
  | .await p => p < s.book.promises.length
  | _ => True

/-- The handler keeps the continuation of this effect. -/
def suspends (X : Externals W) (s : State W) (h : Handler) : Eff → Bool
  | .await p => (s.book.outcome p).isNone
  | .yield => true
  | .net e => (netEffect X s h e).reply.isNone
  | _ => false

theorem net_stride (hs : s.Program b fs) (hsplit : splitHandler s.stack = some (segment, h, rest))
    {e : NetEff} (hc : suspends X s h (.net e) = true → c segment h rest) :
    Stride c s (effc X s segment h rest (.net e)) ∨ ∃ sock w, e = .tcpClose sock ∧
      effc X s segment h rest (.net e) = s.closed sock w := by
  simp only [suspends, effc, netEffect_eq] at hc ⊢
  rcases handleNetEffect_waiters X h s.book.konts.length s.book.ioWaiters s.world e with
    ⟨a, hr, hw⟩ | ⟨sock, he, hr, hw⟩ | ⟨sock, op, hread, hconn, hr, hw⟩
  · left
    simp only [hr, hw]
    exact .two (.world (handleNetEffect X h s.book.konts.length s.book.ioWaiters s.world e).world)
      rfl rfl (.reply a hs)
  · right
    simp only [hr, hw]
    exact ⟨sock, _, he, rfl⟩
  · left
    simp only [hr, hw]
    exact .one (.suspend _ hs hsplit (hc (by simp [hr])) (.wait ⟨hread, hconn⟩))

theorem effc_stride (hs : s.Program b fs) (hsplit : splitHandler s.stack = some (segment, h, rest))
    {eff : Eff} (hc : suspends X s h eff = true → c segment h rest) (he : eff.Known s) :
    Stride c s (effc X s segment h rest eff) ∨ ∃ sock w, eff = .net (.tcpClose sock) ∧
      effc X s segment h rest eff = s.closed sock w := by
  cases eff with
  | fork sw =>
    left
    exact .two (.fork he) rfl rfl (.reply _ hs)
  | forkPromise sw =>
    left
    exact .two (.forkPromise he) rfl rfl (.reply _ hs)
  | await p =>
    left
    simp only [effc]
    cases ho : s.book.outcome p with
    | some a =>
      exact .two (.quiet s.world (.awaited ho)) rfl rfl (.reply a hs)
    | none => exact .one (.suspend s.world hs hsplit (hc (by simp [suspends, ho])) (.await ho he))
  | yield =>
    left
    exact .one (.suspend s.world hs hsplit (hc rfl) .yield)
  | net e =>
    rcases net_stride (X := X) hs hsplit hc with hm | ⟨sock, w, rfl, hb⟩
    · exact .inl hm
    · exact .inr ⟨sock, w, rfl, hb⟩
  | other =>
    left
    exact .one (.reply _ hs)

theorem perform_stride (hs : s.Program b fs) {eff : Eff}
    (hc : ∀ segment h rest, splitHandler s.stack = some (segment, h, rest) →
      suspends X s h eff = true → c segment h rest)
    (he : eff.Known s) :
    Stride c s (perform X s eff) ∨ ∃ sock w, Closes s (.perform eff) sock ∧
      perform X s eff = s.closed sock w := by
  simp only [perform]
  split
  · rename_i segment h rest hsplit
    rcases effc_stride (X := X) hs hsplit (hc segment h rest hsplit) he with hm | ⟨sock, w, rfl, hb⟩
    · exact .inl hm
    · exact .inr ⟨sock, w, ⟨rfl, by simp [hsplit]⟩, hb⟩
  · left
    exact .one (.reply _ hs)

/-- The handler that keeps the continuation is left. -/
theorem perform_suspended {eff : Eff}
    (hsplit : splitHandler s.stack = some (segment, h, rest)) (hsus : suspends X s h eff = true) :
    ∃ u : State W, perform X s eff = u.leave h rest ∧ u.nextSwitch = s.nextSwitch ∧
      u.segments = s.segments ++ [some segment] := by
  simp only [perform, hsplit]
  cases eff with
  | await p =>
    have ho : s.book.outcome p = none := Option.isNone_iff_eq_none.mp hsus
    simp only [effc, ho, State.suspend]
    exact ⟨_, rfl, rfl, rfl⟩
  | yield =>
    simp only [effc, State.suspend]
    exact ⟨_, rfl, rfl, rfl⟩
  | net e =>
    have hr : (netEffect X s h e).reply = none := Option.isNone_iff_eq_none.mp hsus
    simp only [effc, hr, State.suspend]
    exact ⟨_, rfl, rfl, rfl⟩
  | _ => cases hsus

/-- Any other effect is answered. -/
theorem perform_answered {eff : Eff} (hsus : ∀ segment h rest,
    splitHandler s.stack = some (segment, h, rest) → suspends X s h eff = false) :
    (perform X s eff).stack = s.stack ∧ (perform X s eff).mode ≠ .run ∧
      (perform X s eff).segments = s.segments := by
  simp only [perform]
  split
  · rename_i segment h rest hsplit
    have hnot := hsus segment h rest hsplit
    cases eff with
    | await p =>
      obtain ⟨a, ha⟩ := Option.isSome_iff_exists.mp (by simpa [suspends] using hnot)
      simp [effc, ha, State.reply]
    | yield => cases hnot
    | net e =>
      obtain ⟨a, ha⟩ := Option.isSome_iff_exists.mp (by simpa [suspends] using hnot)
      simp [effc, ha, State.reply]
    | _ => exact ⟨rfl, nofun, rfl⟩
  · exact ⟨rfl, nofun, rfl⟩

theorem perform_control (X : Externals W) (s : State W) (eff : Eff) :
    (perform X s eff).stack = s.stack ∧ (perform X s eff).mode ≠ .run ∧
      (perform X s eff).segments = s.segments ∨
    ∃ (segment : List Frame) (h : Handler) (rest : List Frame) (u : State W),
      splitHandler s.stack = some (segment, h, rest) ∧ suspends X s h eff = true ∧
      perform X s eff = u.leave h rest := by
  by_cases hsus : ∃ segment h rest, splitHandler s.stack = some (segment, h, rest) ∧
      suspends X s h eff = true
  · obtain ⟨segment, h, rest, hsplit, hsus⟩ := hsus
    obtain ⟨u, hu, -, -⟩ := perform_suspended hsplit hsus
    exact .inr ⟨segment, h, rest, u, hsplit, hsus, hu⟩
  · left
    apply perform_answered
    intro segment h rest hsplit
    by_contra hne
    exact hsus ⟨segment, h, rest, hsplit, by simpa using hne⟩

/-- A loop starts the first task of the queue. -/
theorem startTask_shift {f : Frame} (hs : s.Looping f rest) {t : Task} {q : List Task}
    (hq : s.book.runQueue = t :: q) :
    Shift c s (startTask X { s with book := s.book.take t q } t) := by
  cases t with
  | main sw => exact .launch hs hq rfl
  | fiber sw => exact .launch hs hq rfl
  | promiseFiber sw p => exact .launch hs hq rfl
  | element p => exact .launch hs hq rfl
  | waker p h k =>
    simp only [startTask]
    have ho : (s.book.take (.waker p h k) q).outcome p = s.book.outcome p := rfl
    cases hp : s.book.outcome p with
    | some a =>
      rw [ho, hp]
      exact .quiet s.world (.waker hq hp)
    | none =>
      rw [ho, hp]
      exact .stillPending hs hq hp
  | wake op sock h k =>
    have hne : (h.wakeAnswer X op sock s.world).1 ≠ readTimeout := by
      rw [Handler.wakeAnswer_eq]
      exact wakeAnswer_ne_timeout X op sock s.world
    exact .quiet _ (.wake hq hne)
  | onTimeout op sock h k => exact .quiet _ (.onTimeout hq)
  | resume h k a =>
    simp only [startTask]
    cases hk : (s.segments[k]?).join with
    | none => exact .resumeTwice hs hq hk
    | some segment =>
      have hk' : s.segments[k]? = some (some segment) := Option.join_eq_some_iff.mp hk
      exact .resume hs hq hk'

/-- The state as a pass over the waiting list leaves it. -/
def State.pass (X : Externals W) (s : State W) : State W :=
  { s with
    book := (checkIoCompletions X s.book s.world).1
    world := (checkIoCompletions X s.book s.world).2 }

theorem pass_shift : Shift c s (s.pass X) := by
  obtain ⟨kept, ts, hp, he⟩ := checkIoCompletions_polled X s.book s.world
  have hq : Quiet s.book (checkIoCompletions X s.book s.world).1 := he ▸ .poll hp
  exact .quiet _ hq

/-- After its pass a round runs a task, or does what comes when there is none. -/
theorem round_shift {done : State W → State W} {f : Frame} (hs : s.Looping f rest)
    (hdone : ∀ u : State W, u.Looping f rest → u.book.runQueue = [] → Shift c u (done u)) :
    Shift c (s.pass X) (round X s done) := by
  simp only [round]
  split
  · rename_i t q hq
    exact startTask_shift (s := s.pass X) hs hq
  · rename_i hq
    exact hdone (s.pass X) hs hq

theorem scheduler_shift {sw : ℕ} (hs : s.Looping (.scheduler sw) rest) :
    Shift c (s.pass X) (schedulerRound X s sw rest) := by
  apply round_shift hs
  intro u hu hq
  split
  · exact .world _
  · rename_i hn
    push Not at hn
    exact .exitScheduler hu hq hn.2 hn.1

theorem mainScheduler_shift {sw : ℕ} (hs : s.Looping (.mainScheduler sw) rest) :
    Shift c (s.pass X) (mainSchedulerRound X s sw rest) := by
  apply round_shift hs
  intro u hu hq
  split
  · rename_i hr
    refine .exitMain hu hq ?_
    tauto
  · split
    · exact .world _
    · rename_i hn
      push Not at hn
      exact .exitMain hu hq (.inr (.inr hn))

/-- A loop that goes on makes its pass first. -/
theorem looping_shift {f : Frame} (hs : s.Looping f rest) : Shift c (s.pass X) (go X s) := by
  obtain ⟨hm, hst, hl⟩ := hs
  cases f with
  | scheduler sw =>
    simp only [go, hm, hst]
    exact scheduler_shift ⟨hm, hst, rfl⟩
  | mainScheduler sw =>
    simp only [go, hm, hst]
    exact mainScheduler_shift ⟨hm, hst, rfl⟩
  | _ => cases hl

theorem deliver_shift {f : Frame} {a : Answer} (hs : s.Returns a f rest) :
    Shift c s (deliver s a rest f) := by
  cases f with
  | body b => exact .toBody hs
  | handler h =>
    cases h with
    | main sw => cases a <;> exact .endMain hs
    | fiber sw => exact .endFiber hs
    | promise sw p => exact .endPromise hs
  | scheduler sw =>
    cases a with
    | value v => exact .toLoop hs rfl
    | exn e => exact .breakLoop hs rfl
  | mainScheduler sw =>
    cases a with
    | value v => exact .toLoop hs rfl
    | exn e => exact .breakLoop hs rfl
  | settles p =>
    cases a with
    | value v => exact .endElement (o := .resolved v) hs rfl
    | exn e => exact .endElement (o := .failed e) hs rfl
  | cleanup sw hooks => exact .toCleanup hs

theorem go_stride : Stride c s (go X s) := by
  simp only [go]
  split
  · rename_i a f rest hm hst
    exact .one (deliver_shift ⟨hm, hst⟩)
  · rename_i sw rest hm hst
    exact .two pass_shift rfl rfl (scheduler_shift ⟨hm, hst, rfl⟩)
  · rename_i sw rest hm hst
    exact .two pass_shift rfl rfl (mainScheduler_shift ⟨hm, hst, rfl⟩)
  · rename_i sw hooks rest hm hst
    cases hooks with
    | nil => exact .one (.exitCleanup hm hst)
    | cons n hooks => exact .one (.runHook hm hst)
  · exact .stay rfl

/-- The program acts only when its code is on top, on what has been created. -/
theorem enabled_program (he : Enabled s a = true) (ha : a ≠ .go) :
    (∃ b rest, s.Program b rest) ∧ ∀ eff, a = .perform eff → eff.Known s := by
  cases a with
  | go => exact absurd rfl ha
  | perform eff =>
    simp only [Enabled] at he
    split at he
    · rename_i b rest hm hst
      refine ⟨⟨b, rest, hm, hst⟩, ?_⟩
      rintro _ ⟨⟩
      cases eff with
      | fork sw => simpa [Eff.Known] using he
      | forkPromise sw => simpa [Eff.Known] using he
      | await p => simpa [Eff.Known] using he
      | _ => trivial
    · cases he
  | _ =>
    simp only [Enabled] at he
    split at he
    · rename_i b rest hm hst
      exact ⟨⟨b, rest, hm, hst⟩, nofun⟩
    · cases he

/-- Every step closes a socket or is a stride. -/
theorem step_stride (h : Step X s a t)
    (hc : ∀ eff segment h rest, a = .perform eff →
      splitHandler s.stack = some (segment, h, rest) → suspends X s h eff = true →
        c segment h rest) :
    Stride c s t ∨ ∃ sock w, Closes s a sock ∧ t = s.closed sock w := by
  obtain ⟨he, rfl⟩ := h
  by_cases ha : a = .go
  · subst ha
    exact .inl go_stride
  · obtain ⟨⟨b, rest, hs⟩, hp⟩ := enabled_program he ha
    cases a with
    | go => exact absurd rfl ha
    | perform eff =>
      apply perform_stride hs
      · intro segment h rest
        exact hc eff segment h rest rfl
      · exact hp eff rfl
    | createPromise => exact .inl (.one (.quiet s.world .create))
    | resolve p v => exact .inl (.one (.quiet s.world (.settle p (o := .resolved v) rfl)))
    | fail p e => exact .inl (.one (.quiet s.world (.settle p (o := .failed e) rfl)))
    | element => exact .inl (.one .element)
    | onRelease sw n => exact .inl (.one (.onRelease sw n))
    | switchRun => exact .inl (.one (.switchRun hs))
    | ret v =>
      simp only [next, finish, hs.2]
      exact .inl (.one (.finish _ hs))
    | raise e =>
      simp only [next, finish, hs.2]
      exact .inl (.one (.finish _ hs))

theorem step_shifts (h : Step X s a t)
    (hc : ∀ eff segment h rest, a = .perform eff →
      splitHandler s.stack = some (segment, h, rest) → suspends X s h eff = true →
        c segment h rest) :
    Shifts c s t ∨ ∃ sock w, Closes s a sock ∧ t = s.closed sock w := by
  rcases step_stride h hc with hm | hcl
  · exact .inl hm.shifts
  · exact .inr hcl

/-! ### What every step keeps -/

@[simp] theorem State.leave_book (h : Handler) (rest : List Frame) :
    (s.leave h rest).book = s.book := by
  cases h <;> rfl

@[simp] theorem State.leave_segments (h : Handler) (rest : List Frame) :
    (s.leave h rest).segments = s.segments := by
  cases h <;> rfl

@[simp] theorem State.leave_nextSwitch (h : Handler) (rest : List Frame) :
    (s.leave h rest).nextSwitch = s.nextSwitch := by
  cases h <;> rfl

@[simp] theorem State.leave_switches (h : Handler) (rest : List Frame) :
    (s.leave h rest).switches = s.switches := by
  cases h <;> rfl

@[simp] theorem State.keepAnswer_book (sw : ℕ) (a : Answer) : (s.keepAnswer sw a).book = s.book := by
  cases a <;> rfl

@[simp] theorem State.endMain_book (sw : ℕ) (a : Answer) :
    ((s.keepAnswer sw a).fiberDone sw).book = s.book := s.keepAnswer_book sw a

theorem Shift.moves (h : Shift c s t) : Moves s.book t.book := by
  cases h with
  | quiet w hb => exact Moves.one (.quiet hb)
  | fork hsw => exact Moves.one (.start rfl)
  | forkPromise hsw =>
    refine Relation.ReflTransGen.head (.quiet .create) ?_
    exact Moves.one (.start rfl)
  | element =>
    refine Relation.ReflTransGen.head (.quiet .create) ?_
    exact Moves.one (.start rfl)
  | switchRun hs => exact Moves.one (.start rfl)
  | suspend w hs hsplit hc hcap =>
    rw [State.leave_book]
    exact Moves.one (.capture hcap)
  | finish a hs => exact Moves.one (.ended _ a)
  | launch hs hq ht => exact Moves.one (.run hq ht)
  | resume hs hq hk => exact Moves.one (.resume hq)
  | resumeTwice hs hq hk => exact Moves.one (.resume hq)
  | stillPending hs hq ho => exact Moves.one (.stillPending hq ho)
  | @endMain a sw rest hs =>
    simp only [State.endMain_book]
    exact .refl
  | endPromise hs => exact Moves.one (.settle _ rfl)
  | endElement hs ho => exact Moves.one (.settle _ ho)
  | _ => exact .refl

theorem Shifts.moves (h : Shifts c s t) : Moves s.book t.book := by
  induction h with
  | refl => exact .refl
  | tail _ hm ih => exact ih.trans hm.moves

theorem pass_moves : Moves s.book (s.pass X).book :=
  Shift.moves (c := fun _ _ _ => True) pass_shift

theorem looping_moves {f : Frame} (hs : s.Looping f rest) :
    Moves (s.pass X).book (go X s).book :=
  (looping_shift (c := fun _ _ _ => True) hs).moves

theorem Shifts.keeps {p : State W → Prop} (h : Shifts c s t)
    (hshift : ∀ s t, p s → Shift c s t → p t) (hs : p s) : p t := by
  induction h with
  | refl => exact hs
  | tail _ hm ih => exact hshift _ _ ih hm

theorem step_moves (h : Step X s a t) :
    Moves s.book t.book ∨ ∃ sock, Closes s a sock ∧ t.book = s.book.dropWaiters sock := by
  rcases step_shifts (c := fun _ _ _ => True) h (by intros; trivial) with hm | ⟨sock, w, hc, rfl⟩
  · exact .inl hm.moves
  · exact .inr ⟨sock, hc, rfl⟩

/-- What the moves and the closes keep, every step keeps. -/
theorem step_keeps {p : Book → Prop} (h : Step X s a t)
    (hmove : ∀ b b', p b → Move b b' → p b') (hdrop : ∀ b sock, p b → p (b.dropWaiters sock))
    (hs : p s.book) : p t.book := by
  rcases step_moves h with hm | ⟨sock, -, hb⟩
  · exact hm.keeps hmove hs
  · rw [hb]
    exact hdrop _ sock hs

end PicoOcaml.Pio
