import PicoOcaml.Pio.SingleFiber

/-! The stages of a run with one fiber: each step is one of them, and each of them ends. -/
namespace PicoOcaml.Pio

variable {W : Type*} {X : Externals W} {s : State W} {c : Config W} {w w' : W} {x : IoWaiter}
  {prog : Net.Prog} {p : Point W} {rest : List Frame} {a : Answer} {k : ℕ}

def loop : List Frame := [.mainScheduler 0, .body .top]

/-- The second handler is the one around a resumption. -/
def handlers (waited : Bool) : List Frame :=
  if waited then [.handler (.main 0), .handler (.main 0)] else [.handler (.main 0)]

/-- The book and the switch of a run whose program has not ended. -/
structure Alone (s : State W) (w : W) (queue : List Task) (waiters : List IoWaiter) : Prop where
  world : s.world = w
  queue : s.book.runQueue = queue
  waiters : s.book.ioWaiters = waiters
  konts : s.book.konts.length = s.segments.length
  noHooks : (s.switches 0).onRelease = []
  noExn : (s.switches 0).exnRef = none
  running : ∀ a, .ended (.main 0) a ∉ s.book.log

/-- A continuation has been captured exactly if an effect has waited; until then no handler has
returned. -/
structure Waited (s : State W) (waited : Bool) : Prop where
  konts : waited = true ↔ s.book.konts ≠ []
  result : waited = false → (s.switches 0).result = none

/-- The program's code is on top, at `p`. -/
structure OnTop (p : Point W) (s : State W) : Prop where
  mode : s.mode = .run
  stack : s.stack = .body (.main 0) :: (handlers p.waited ++ loop)
  alone : Alone s p.world [] []
  waited : Waited s p.waited

/-- The waiter `x` is the only one, and refers to the program's continuation. -/
structure Waits (s : State W) (w : W) (x : IoWaiter) : Prop where
  alone : Alone s w [] [x]
  konts : s.book.konts ≠ []
  segment : s.segments[x.k]? = some (some [.body (.main 0), .handler (.main 0)])
  handler : x.handler = .main 0

/-- The program has ended, or its run is left without it. -/
structure Closing (X : Externals W) (prog : Net.Prog) (p : Point W) (s : State W) : Prop where
  noEffect : p.effect X prog = none
  noHooks : (s.switches 0).onRelease = []
  ended : ∀ a, (prog p.answers).outcome = some a →
    .ended (.main 0) a ∈ s.book.log ∧ runAnswer (s.switches 0) = a
  only : ∀ a, .ended (.main 0) a ∈ s.book.log → (prog p.answers).outcome = some a

/-- The answer after a wait that the main loop may end. -/
def Point.Awaits (X : Externals W) (prog : Net.Prog) (p : Point W) (r : Option (Answer × W)) : Prop :=
  p.effect X prog = r.map fun (a, w) => (a, serviceNetwork X w, true)

/-- The stages of the run from the program's code on top, at `p`, to the next answer or to the
end. The number bounds the steps that are left. -/
inductive Phase (X : Externals W) (prog : Net.Prog) (p : Point W) : ℕ → State W → Prop
  | start {s : State W} {w : W} (mode : s.mode = .run) (stack : s.stack = loop)
    (alone : Alone s w [.main 0] []) (waited : Waited s false)
    (first : p = ⟨[], serviceNetwork X w, false⟩) : Phase X prog p 1007 s
  | program {s : State W} (onTop : OnTop p s) : Phase X prog p 1006 s
  | returning {s : State W} {w : W} {x : IoWaiter} (running : (prog p.answers).outcome = none)
    (awaits : p.Awaits X prog (wait X true x w)) (mode : s.mode = .ret (.value .unit))
    (stack : s.stack = .handler (.main 0) :: loop) (waits : Waits s w x)
    (time : x.timeoutCount < x.maxTimeout) : Phase X prog p 5 s
  | returned {s : State W} {w : W} {x : IoWaiter} (running : (prog p.answers).outcome = none)
    (awaits : p.Awaits X prog (wait X true x w)) (mode : s.mode = .ret (.value .unit))
    (stack : s.stack = loop) (waits : Waits s w x) (time : x.timeoutCount < x.maxTimeout)
    (result : (s.switches 0).result ≠ none) : Phase X prog p 4 s
  | once {s : State W} {w : W} {x : IoWaiter} (running : (prog p.answers).outcome = none)
    (awaits : p.Awaits X prog (wait X true x w)) (mode : s.mode = .run)
    (stack : s.stack = loop) (waits : Waits s w x) (time : x.timeoutCount < x.maxTimeout)
    (result : (s.switches 0).result ≠ none) : Phase X prog p 3 s
  | suspended {s : State W} {w : W} {x : IoWaiter}
    (awaits : p.Awaits X prog (some (awaitReady X x 1000 w)))
    (mode : s.mode = .ret (.value .unit)) (stack : s.stack = loop) (waits : Waits s w x)
    (time : x.timeoutCount + 1000 = x.maxTimeout) (result : (s.switches 0).result = none) :
    Phase X prog p 1005 s
  | waiting {s : State W} {w : W} {x : IoWaiter} (tries : ℕ)
    (awaits : p.Awaits X prog (some (awaitReady X x tries w))) (mode : s.mode = .run)
    (stack : s.stack = loop) (waits : Waits s w x) (time : x.timeoutCount + tries = x.maxTimeout)
    (result : (s.switches 0).result = none) : Phase X prog p (tries + 3) s
  | woken {s : State W} {w : W} {k : ℕ} {a : Answer}
    (effect : p.effect X prog = some (a, serviceNetwork X w, true)) (mode : s.mode = .run)
    (stack : s.stack = loop) (alone : Alone s w [.resume (.main 0) k a] [])
    (konts : s.book.konts ≠ [])
    (segment : s.segments[k]? = some (some [.body (.main 0), .handler (.main 0)])) :
    Phase X prog p 2 s
  | reply {s : State W} {w : W} {a : Answer} {waited : Bool}
    (effect : p.effect X prog = some (a, w, waited)) (mode : s.mode = .ret a)
    (stack : s.stack = .body (.main 0) :: (handlers waited ++ loop)) (alone : Alone s w [] [])
    (waited : Waited s waited) : Phase X prog p 1 s
  | ended {s : State W} {a : Answer} (outcome : (prog p.answers).outcome = some a)
    (mode : s.mode = .ret a) (stack : s.stack = handlers p.waited ++ loop)
    (queue : s.book.runQueue = []) (waiters : s.book.ioWaiters = [])
    (noHooks : (s.switches 0).onRelease = []) (noExn : (s.switches 0).exnRef = none)
    (log : ∀ a', .ended (.main 0) a' ∈ s.book.log ↔ a' = a) : Phase X prog p 6 s
  | closing {s : State W} {n : ℕ} (closing : Closing X prog p s)
    (mode : s.mode = .ret (.value .unit)) (n_le : n ≤ 1)
    (stack : s.stack = List.replicate n (.handler (.main 0)) ++ loop)
    (queue : s.book.runQueue = []) (waiters : s.book.ioWaiters = [])
    (result : (s.switches 0).result ≠ none ∨ (s.switches 0).exnRef ≠ none) :
    Phase X prog p (n + 4) s
  | lastPass {s : State W} (closing : Closing X prog p s) (mode : s.mode = .run)
    (stack : s.stack = loop) (queue : s.book.runQueue = []) (waiters : s.book.ioWaiters = [])
    (result : (s.switches 0).result ≠ none ∨ (s.switches 0).exnRef ≠ none) : Phase X prog p 3 s
  | cleanup {s : State W} (closing : Closing X prog p s) (mode : s.mode = .run)
    (stack : s.stack = [.cleanup 0 [], .body .top]) : Phase X prog p 1 s
  | done {s : State W} (noEffect : p.effect X prog = none) (stack : s.stack = [.body .top])
    (ended : ∀ a, (prog p.answers).outcome = some a →
      .ended (.main 0) a ∈ s.book.log ∧ s.mode = .ret a)
    (only : ∀ a, .ended (.main 0) a ∈ s.book.log → (prog p.answers).outcome = some a) :
    Phase X prog p 0 s

theorem Alone.setMode {queue : List Task} {waiters : List IoWaiter} (h : Alone s w queue waiters)
    (m : Mode) : Alone { s with mode := m } w queue waiters :=
  ⟨h.world, h.queue, h.waiters, h.konts, h.noHooks, h.noExn, h.running⟩

theorem Waits.setMode (h : Waits s w x) (m : Mode) : Waits { s with mode := m } w x :=
  ⟨h.alone.setMode m, h.konts, h.segment, h.handler⟩

theorem Waits.idle (h : Waits s w x) :
    Waits (idle X s) (X.sleepMs 1 (serviceNetwork X w)) x := by
  refine ⟨⟨?_, h.alone.queue, h.alone.waiters, h.alone.konts, h.alone.noHooks, h.alone.noExn,
    h.alone.running⟩, h.konts, h.segment, h.handler⟩
  simp only [Pio.idle, h.alone.world]

/-! ### Rounds -/

/-- What a pass that calls a closure of the waiter leaves behind. -/
structure Wakes (s t : State W) (w : W) (k : ℕ) (a : Answer) : Prop where
  mode : t.mode = s.mode
  stack : t.stack = s.stack
  alone : Alone t w [.resume (.main 0) k a] []
  konts : t.book.konts = s.book.konts
  segments : t.segments = s.segments

/-- A pass that finds the waiter ready calls its `wake`. -/
theorem mainSchedulerRound_ready (h : Waits s w x)
    (hr : isReady X x (serviceNetwork X w) = (true, w')) :
    Wakes s (mainSchedulerRound X s 0 rest) (wakeAnswer X x.operation x.sockId w').2 x.k
      (wakeAnswer X x.operation x.sockId w').1 := by
  have hpass := checkIoCompletions_one (X := X) h.alone.waiters true w' hr
  have hrunning := h.alone.running
  simp only [mainSchedulerRound, round, h.alone.world, hpass, if_true, Book.enqueueAll,
    h.alone.queue, List.nil_append, IoWaiter.wake, startTask, Handler.wakeAnswer_eq, h.handler,
    Book.take, Book.note, Book.enqueue]
  exact ⟨rfl, rfl,
    ⟨rfl, rfl, rfl, h.alone.konts, h.alone.noHooks, h.alone.noExn, by simpa using hrunning⟩,
    rfl, rfl⟩

/-- A pass that finds it not ready for the last time calls its `on_timeout`. -/
theorem mainSchedulerRound_expired (h : Waits s w x)
    (hr : isReady X x (serviceNetwork X w) = (false, w')) (ht : x.timeoutCount ≥ x.maxTimeout) :
    Wakes s (mainSchedulerRound X s 0 rest) (timeoutAnswer X x.operation x.sockId w').2 x.k
      (timeoutAnswer X x.operation x.sockId w').1 := by
  have hpass := checkIoCompletions_one (X := X) h.alone.waiters false w' hr
  have hrunning := h.alone.running
  simp only [mainSchedulerRound, round, h.alone.world, hpass, Bool.false_eq_true, if_false, if_pos ht,
    Book.enqueueAll, h.alone.queue, List.nil_append, IoWaiter.onTimeout, startTask,
    Handler.timeoutAnswer_eq, h.handler, Book.take, Book.note, Book.enqueue]
  exact ⟨rfl, rfl,
    ⟨rfl, rfl, rfl, h.alone.konts, h.alone.noHooks, h.alone.noExn, by simpa using hrunning⟩,
    rfl, rfl⟩

/-- Otherwise the waiter stays, and the loop idles or ends by what the handlers have stored. -/
theorem mainSchedulerRound_waits (rest : List Frame) (h : Waits s w x)
    (hr : isReady X x (serviceNetwork X w) = (false, w')) (ht : x.timeoutCount < x.maxTimeout) :
    ∃ t, t.mode = s.mode ∧ t.stack = s.stack ∧ t.switches = s.switches ∧
      Waits t w' { x with timeoutCount := x.timeoutCount + 1 } ∧
      mainSchedulerRound X s 0 rest =
        if (s.switches 0).result ≠ none then finishMain t 0 rest else idle X t := by
  have hpass := checkIoCompletions_one (X := X) h.alone.waiters false w' hr
  have hrunning := h.alone.running
  refine ⟨{ s with
    book := { s.book with ioWaiters := [{ x with timeoutCount := x.timeoutCount + 1 }] }
    world := w' }, rfl, rfl, rfl, ⟨⟨rfl, h.alone.queue, rfl, h.alone.konts, h.alone.noHooks, h.alone.noExn,
      hrunning⟩, h.konts, h.segment, h.handler⟩, ?_⟩
  simp only [mainSchedulerRound, round, h.alone.world, hpass, Bool.false_eq_true, if_false,
    if_neg (not_le.mpr ht), Book.enqueueAll, List.append_nil, List.map_nil, h.alone.queue,
    h.alone.noExn, ne_eq, not_true_eq_false, or_false]
  simp

theorem mainSchedulerRound_done (hq : s.book.runQueue = []) (hw : s.book.ioWaiters = [])
    (hr : (s.switches 0).result ≠ none ∨ (s.switches 0).exnRef ≠ none) :
    mainSchedulerRound X s 0 rest = finishMain { s with world := serviceNetwork X s.world } 0 rest := by
  simp only [mainSchedulerRound, round, checkIoCompletions_nil hw, hq, if_pos hr]

theorem mainSchedulerRound_resume (rest : List Frame) {segment : List Frame}
    (h : Alone s w [.resume (.main 0) k a] [])
    (hk : s.segments[k]? = some (some segment)) :
    let t := mainSchedulerRound X s 0 rest
    t.mode = .ret a ∧ t.stack = segment ++ [.handler (.main 0)] ++ s.stack ∧
      Alone t (serviceNetwork X w) [] [] ∧ t.book.konts = s.book.konts := by
  have hrunning := h.running
  simp only [mainSchedulerRound, round, h.world, checkIoCompletions_nil h.waiters, h.queue, startTask, hk,
    Option.join_some, State.reply, Book.take, Book.note, wrapper]
  refine ⟨trivial, by simp, ⟨rfl, rfl, h.waiters, ?_, h.noHooks, h.noExn, by simpa using hrunning⟩,
    trivial⟩
  simpa using h.konts

theorem mainSchedulerRound_main (rest : List Frame) (h : Alone s w [.main 0] []) :
    let t := mainSchedulerRound X s 0 rest
    t.mode = .run ∧ t.stack = .body (.main 0) :: .handler (.main 0) :: s.stack ∧
      Alone t (serviceNetwork X w) [] [] ∧ t.book.konts = s.book.konts ∧ t.switches = s.switches := by
  have hrunning := h.running
  simp only [mainSchedulerRound, round, h.world, checkIoCompletions_nil h.waiters, h.queue, startTask,
    Book.take, Book.note, push]
  exact ⟨trivial, rfl, ⟨rfl, rfl, h.waiters, h.konts, h.noHooks, h.noExn, by simpa using hrunning⟩,
    trivial, trivial⟩

theorem awaitReady_congr {y : IoWaiter} (hop : x.operation = y.operation) (hs : x.sockId = y.sockId)
    (tries : ℕ) (w : W) : awaitReady X x tries w = awaitReady X y tries w := by
  induction tries generalizing w with
  | zero =>
    rw [awaitReady, awaitReady, isReady_eq hop hs, hop, hs]
  | succ tries ih =>
    rw [awaitReady, awaitReady, isReady_eq hop hs, hop, hs]
    simp only [ih]

/-- A wait depends on the operation and the socket only. -/
theorem wait_congr {y : IoWaiter} (hop : x.operation = y.operation) (hs : x.sockId = y.sockId)
    (waited : Bool) (w : W) : wait X waited x w = wait X waited y w := by
  rw [wait, wait, awaitReady_congr hop hs, isReady_eq hop hs, hop, hs]

theorem effect_replied {e : NetEff} {waited : Bool}
    (h : ∀ h k, mainNetEffect X h k [] w e = ⟨w', [], some a⟩) :
    effect X waited e w = some (a, w', waited) := by
  simp only [effect, h]

theorem effect_waits {e : NetEff} {waited : Bool} {op : Operation} {sock : ℤ}
    (h : ∀ h k, mainNetEffect X h k [] w e = ⟨w', [⟨sock, op, 0, 1000, h, k⟩], none⟩)
    (hop : x.operation = op) (hs : x.sockId = sock) :
    effect X waited e w =
      (wait X waited x w').map fun (a, w) => (a, serviceNetwork X w, true) := by
  simp only [effect, h, List.head?_cons, Option.bind_some]
  rw [wait_congr hop.symm hs.symm]

theorem perform_net (e : NetEff) {waited : Bool}
    (hs : s.stack = .body (.main 0) :: (handlers waited ++ loop)) :
    Pio.next X s (.perform (.net e)) =
      effc X s [.body (.main 0), .handler (.main 0)] (.main 0) ((handlers waited).tail ++ loop)
        (.net e) := by
  cases waited <;> simp [Pio.next, perform, hs, splitHandler, handlers]

theorem perform_replied {e : NetEff} (segment rest : List Frame) (ha : Alone s w [] [])
    (h : ∀ h k, mainNetEffect X h k [] w e = ⟨w', [], some a⟩) :
    let t := effc X s segment (.main 0) rest (.net e)
    t.mode = .ret a ∧ t.stack = s.stack ∧ Alone t w' [] [] ∧ t.book.konts = s.book.konts ∧
      t.switches = s.switches := by
  simp only [effc, netEffect, ha.waiters, ha.world, h, State.reply]
  exact ⟨trivial, trivial, ⟨rfl, ha.queue, rfl, ha.konts, ha.noHooks,
    ha.noExn, ha.running⟩, trivial, trivial⟩

theorem perform_waits {e : NetEff} {op : Operation} {sock : ℤ} (rest : List Frame) (ha : Alone s w [] [])
    (h : ∀ h k, mainNetEffect X h k [] w e = ⟨w', [⟨sock, op, 0, 1000, h, k⟩], none⟩) :
    let t := effc X s [.body (.main 0), .handler (.main 0)] (.main 0) rest (.net e)
    t.mode = .ret (.value .unit) ∧ t.stack = rest ∧
      Waits t w' ⟨sock, op, 0, 1000, .main 0, s.book.konts.length⟩ ∧ t.switches = s.switches := by
  simp only [effc, netEffect, ha.waiters, ha.world, h, State.suspend, State.leave]
  have hk := ha.konts
  refine ⟨trivial, trivial, ⟨⟨rfl, ha.queue, rfl, ?_, ha.noHooks, ha.noExn, ha.running⟩,
    ?_, ?_, rfl⟩, trivial⟩
  · simp [Book.capture, hk]
  · simp [Book.capture]
  · simp [hk]

/-! ### Returning -/

/-- `retc` and `exnc` of `main_handler`. -/
def Switch.handled (w : Switch) : Answer → Switch
  | .value r => { w with fibers := w.fibers - 1, result := some r }
  | .exn e => { w with fibers := w.fibers - 1, exnRef := some e }

theorem go_handler (hm : s.mode = .ret a) (hs : s.stack = .handler (.main 0) :: rest) :
    let t := go X s
    t.mode = .ret (.value .unit) ∧ t.stack = rest ∧ t.book = s.book ∧ t.world = s.world ∧
      t.segments = s.segments ∧ t.switches 0 = (s.switches 0).handled a := by
  simp only [go, hm, hs, deliver]
  cases a <;>
    simp [State.fiberDone, State.addFibers, State.setSwitch, Switch.handled, Int.sub_eq_add_neg]

theorem go_loop (hm : s.mode = .ret (.value .unit)) (hs : s.stack = loop) :
    go X s = { s with mode := .run } := by
  simp only [go, hm, hs, loop, deliver]

theorem go_run (hm : s.mode = .run) (hs : s.stack = loop) :
    go X s = mainSchedulerRound X s 0 [.body .top] := by
  simp only [go, hm, hs, loop]

theorem go_cleanup (hm : s.mode = .run) (hs : s.stack = [.cleanup 0 [], .body .top]) :
    go X s = { s with stack := [.body .top], mode := .ret (runAnswer (s.switches 0)) } := by
  simp only [go, hm, hs, cleanupRound]

/-- The library goes on, and the program receives nothing, while its code is not on top. -/
theorem next_go {f : Frame} (hs : c.state.stack = f :: rest) (hf : ∀ b, f ≠ .body b) :
    c.next X prog = ⟨go X c.state, c.answers⟩ := by
  have hact : c.act prog = some .go := by
    cases hm : c.state.mode <;> cases f <;> simp_all [Config.act]
  have hrec : c.received = c.answers := by
    cases hm : c.state.mode <;> cases f <;> simp_all [Config.received]
  rw [Config.next, hact, hrec]
  rfl

theorem next_program (hm : c.state.mode = .run) (hs : c.state.stack = .body (.main 0) :: rest) :
    c.next X prog = ⟨Pio.next X c.state (act (prog c.answers)), c.answers⟩ := by
  simp only [Config.next, Config.act, Config.received, hm, hs]

theorem next_reply (hm : c.state.mode = .ret a) (hs : c.state.stack = .body (.main 0) :: rest) :
    c.next X prog = ⟨{ c.state with mode := .run }, c.answers ++ [a]⟩ := by
  simp only [Config.next, Config.act, Config.received, hm, hs]
  simp only [Pio.next, go, hm, hs, deliver]

theorem next_done (hs : c.state.stack = [.body .top]) : c.next X prog = c := by
  have hact : c.act prog = none := by
    cases hm : c.state.mode <;> simp [Config.act, hm, hs]
  rw [Config.next, hact]

/-! ### Stages -/

theorem phase_replied {e : NetEff} (hp : prog p.answers = .perform e)
    (hs : s.stack = .body (.main 0) :: (handlers p.waited ++ loop)) (ha : Alone s p.world [] [])
    (hw : Waited s p.waited)
    (h : ∀ h k, mainNetEffect X h k [] p.world e = ⟨w', [], some a⟩) :
    Phase X prog p 1 (Pio.next X s (.perform (.net e))) := by
  have heff : p.effect X prog = some (a, w', p.waited) := by
    simp only [Point.effect, hp, effect_replied h]
  obtain ⟨hm', hs', ha', hk, hsw⟩ := perform_replied [.body (.main 0), .handler (.main 0)]
    ((handlers p.waited).tail ++ loop) ha h
  rw [perform_net e hs]
  refine .reply heff hm' (hs'.trans hs) ha' ⟨?_, ?_⟩
  · rw [hk]
    exact hw.konts
  · rw [hsw]
    exact hw.result

theorem phase_waits {e : NetEff} {op : Operation} {sock : ℤ} (hp : prog p.answers = .perform e)
    (hs : s.stack = .body (.main 0) :: (handlers p.waited ++ loop))
    (ha : Alone s p.world [] []) (hw : Waited s p.waited)
    (h : ∀ h k, mainNetEffect X h k [] p.world e = ⟨w', [⟨sock, op, 0, 1000, h, k⟩], none⟩) :
    ∃ m < 1006, Phase X prog p m (Pio.next X s (.perform (.net e))) := by
  have heff : p.Awaits X prog
      (wait X p.waited ⟨sock, op, 0, 1000, .main 0, s.book.konts.length⟩ w') := by
    rw [Point.Awaits, Point.effect, hp]
    exact effect_waits h rfl rfl
  have hout : (prog p.answers).outcome = none := by rw [hp]; rfl
  obtain ⟨hm', hs', hw', hsw⟩ := perform_waits ((handlers p.waited).tail ++ loop) ha h
  rw [perform_net e hs]
  cases hwait : p.waited with
  | true =>
    rw [hwait] at heff hs' hm' hw' hsw
    exact ⟨5, by omega, .returning hout heff hm' hs' hw' (by simp)⟩
  | false =>
    rw [hwait] at heff hs' hm' hw' hsw
    refine ⟨1005, by omega, .suspended heff hm' hs' hw' rfl ?_⟩
    rw [hsw]
    exact hw.result hwait

theorem phase_outcome (hout : (prog p.answers).outcome = some a)
    (hs : s.stack = .body (.main 0) :: (handlers p.waited ++ loop)) (ha : Alone s p.world [] []) :
    Phase X prog p 6 (Pio.next X s (act (prog p.answers))) := by
  have hnext : Pio.next X s (act (prog p.answers)) =
      { s with
        book := s.book.note (.ended (.main 0) a)
        stack := handlers p.waited ++ loop
        mode := .ret a } := by
    cases hp : prog p.answers with
    | perform e => simp [hp, Net.Command.outcome] at hout
    | ret =>
      rw [hp] at hout
      cases hout
      simp only [act, Pio.next, finish, hs]
    | raise e =>
      rw [hp] at hout
      cases hout
      simp only [act, Pio.next, finish, hs]
  rw [hnext]
  refine .ended hout rfl rfl ha.queue ha.waiters ha.noHooks ha.noExn ?_
  intro a'
  have hrunning := ha.running a'
  simp [Book.note, hrunning]

/-- A continuation that is answered after a wait. -/
theorem Wakes.woken {t : State W} (h : Wakes s t w x.k a) (hw : Waits s w' x) (hm : s.mode = .run)
    (hs : s.stack = loop) (he : p.effect X prog = some (a, serviceNetwork X w, true)) :
    Phase X prog p 2 t :=
  .woken he (h.mode.trans hm) (h.stack.trans hs) h.alone (h.konts ▸ hw.konts)
    (h.segments ▸ hw.segment)

theorem phase_waiting {tries : ℕ} (he : p.Awaits X prog (some (awaitReady X x tries w)))
    (hm : s.mode = .run) (hs : s.stack = loop) (hw : Waits s w x)
    (ht : x.timeoutCount + tries = x.maxTimeout) (hr : (s.switches 0).result = none) :
    ∃ m < tries + 3, Phase X prog p m (go X s) := by
  rw [go_run hm hs]
  rw [Point.Awaits, Option.map_some] at he
  cases hready : isReady X x (serviceNetwork X w) with
  | mk ready w' =>
    cases ready with
    | true =>
      have hawait : awaitReady X x tries w = wakeAnswer X x.operation x.sockId w' := by
        rw [awaitReady, hready]
        rfl
      rw [hawait] at he
      exact ⟨2, by omega, (mainSchedulerRound_ready hw hready).woken hw hm hs he⟩
    | false =>
      cases tries with
      | zero =>
        have hawait : awaitReady X x 0 w = timeoutAnswer X x.operation x.sockId w' := by
          rw [awaitReady, hready]
          rfl
        rw [hawait] at he
        exact ⟨2, by omega, (mainSchedulerRound_expired hw hready (by omega)).woken hw hm hs he⟩
      | succ tries =>
        have hawait : awaitReady X x (tries + 1) w =
            awaitReady X x tries (X.sleepMs 1 (serviceNetwork X w')) := by
          rw [awaitReady, hready]
          rfl
        obtain ⟨t, htm, hts, htsw, htw, heq⟩ :=
          mainSchedulerRound_waits [.body .top] hw hready (by omega)
        rw [heq, if_neg (by simp [hr])]
        refine ⟨tries + 3, by omega, .waiting tries ?_ (htm.trans hm) (hts.trans hs) htw.idle ?_ ?_⟩
        · rw [Point.Awaits, Option.map_some, he, hawait]
          rw [awaitReady_congr (x := x) (y := { x with timeoutCount := x.timeoutCount + 1 }) rfl rfl]
        · simp only
          omega
        · simp only [idle, htsw]
          exact hr

theorem phase_once (hout : (prog p.answers).outcome = none)
    (he : p.Awaits X prog (wait X true x w)) (hm : s.mode = .run) (hs : s.stack = loop)
    (hw : Waits s w x) (ht : x.timeoutCount < x.maxTimeout) (hr : (s.switches 0).result ≠ none) :
    ∃ m < 3, Phase X prog p m (go X s) := by
  rw [go_run hm hs]
  cases hready : isReady X x (serviceNetwork X w) with
  | mk ready w' =>
    simp only [Point.Awaits, wait, if_true, hready] at he
    cases ready with
    | true => exact ⟨2, by omega, (mainSchedulerRound_ready hw hready).woken hw hm hs he⟩
    | false =>
      obtain ⟨t, htm, -, htsw, htw, heq⟩ :=
        mainSchedulerRound_waits [.body .top] hw hready ht
      rw [heq, if_pos hr]
      refine ⟨1, by omega, .cleanup ⟨he, ?_, ?_, ?_⟩ (htm.trans hm) ?_⟩
      · simpa [finishMain, State.setSwitch] using htw.alone.noHooks
      · intro a ha
        rw [hout] at ha
        cases ha
      · intro a ha
        exact absurd ha (htw.alone.running a)
      · simp [finishMain, htw.alone.noHooks]

theorem phase_woken {k : ℕ} (he : p.effect X prog = some (a, serviceNetwork X w, true))
    (hm : s.mode = .run) (hs : s.stack = loop) (ha : Alone s w [.resume (.main 0) k a] [])
    (hk : s.book.konts ≠ [])
    (hseg : s.segments[k]? = some (some [.body (.main 0), .handler (.main 0)])) :
    Phase X prog p 1 (go X s) := by
  rw [go_run hm hs]
  obtain ⟨hm', hs', ha', hk'⟩ := mainSchedulerRound_resume (X := X) [.body .top] ha hseg
  refine .reply he hm' ?_ ha' ⟨?_, by simp⟩
  · rw [hs', hs]
    rfl
  · simp [hk', hk]

/-! ### One step -/

theorem Switch.handled_runAnswer {sw : Switch} (h : sw.exnRef = none)
    (ha : ∀ r, a = .value r → r = .unit) :
    runAnswer (sw.handled a) = a ∧ ((sw.handled a).result ≠ none ∨ (sw.handled a).exnRef ≠ none) := by
  cases a with
  | value r =>
    cases ha r rfl
    simp [Switch.handled, runAnswer, h]
  | exn e => simp [Switch.handled, runAnswer]

/-- The outer handler stores a unit, which makes no difference to a program that returns one. -/
theorem Switch.handled_unit {sw : Switch} (h : sw.result ≠ none ∨ sw.exnRef ≠ none)
    (ha : ∀ r, runAnswer sw = .value r → r = .unit) :
    runAnswer (sw.handled (.value .unit)) = runAnswer sw := by
  cases he : sw.exnRef with
  | some e => simp [Switch.handled, runAnswer, he]
  | none =>
    cases hr : sw.result with
    | some r =>
      have hunit := ha r (by simp [runAnswer, he, hr])
      simp [Switch.handled, runAnswer, he, hr, hunit]
    | none => simp [he, hr] at h

theorem outcome_unit {m : Net.Command} {r : Val} (h : m.outcome = some (.value r)) : r = .unit := by
  cases m <;> simp_all [Net.Command.outcome]

theorem effect_of_outcome (hout : (prog p.answers).outcome = some a) : p.effect X prog = none := by
  cases hp : prog p.answers with
  | perform e => simp [hp, Net.Command.outcome] at hout
  | ret | raise e => simp only [Point.effect, hp]

theorem phase_ended (hout : (prog p.answers).outcome = some a) (hm : s.mode = .ret a)
    (hs : s.stack = handlers p.waited ++ loop) (hq : s.book.runQueue = [])
    (hw : s.book.ioWaiters = []) (hh : (s.switches 0).onRelease = [])
    (hx : (s.switches 0).exnRef = none)
    (hlog : ∀ a', .ended (.main 0) a' ∈ s.book.log ↔ a' = a) :
    ∃ m < 6, Phase X prog p m (go X s) := by
  have hstack : s.stack =
      .handler (.main 0) :: (List.replicate p.waited.toNat (.handler (.main 0)) ++ loop) := by
    rw [hs]
    cases p.waited <;> rfl
  have hle := p.waited.toNat_le
  obtain ⟨hm', hs', hb, -, -, hsw⟩ := go_handler (X := X) hm hstack
  have hunit : ∀ r, a = .value r → r = .unit := by
    rintro r rfl
    exact outcome_unit hout
  obtain ⟨hans, hres⟩ := Switch.handled_runAnswer hx hunit
  refine ⟨p.waited.toNat + 4, by omega, .closing ⟨effect_of_outcome hout, ?_, ?_, ?_⟩ hm' hle hs'
    (hb ▸ hq) (hb ▸ hw) (hsw ▸ hres)⟩
  · rw [hsw]
    cases a <;> exact hh
  · intro a' ha'
    rw [hout] at ha'
    cases ha'
    rw [hb, hsw]
    exact ⟨(hlog a).mpr rfl, hans⟩
  · intro a' ha'
    rw [hb, hlog] at ha'
    rw [ha', hout]

theorem phase_closing {n : ℕ} (hc : Closing X prog p s) (hm : s.mode = .ret (.value .unit))
    (hn : n ≤ 1) (hs : s.stack = List.replicate n (.handler (.main 0)) ++ loop)
    (hq : s.book.runQueue = []) (hw : s.book.ioWaiters = [])
    (hr : (s.switches 0).result ≠ none ∨ (s.switches 0).exnRef ≠ none) :
    ∃ m < n + 4, Phase X prog p m (go X s) := by
  cases n with
  | zero =>
    rw [go_loop hm hs]
    exact ⟨3, by omega, .lastPass ⟨hc.noEffect, hc.noHooks, hc.ended, hc.only⟩ rfl hs hq hw hr⟩
  | succ n =>
    obtain rfl : n = 0 := by omega
    obtain ⟨hm', hs', hb, -, -, hsw⟩ := go_handler (X := X) hm hs
    refine ⟨4, by omega, .closing (n := 0) ⟨hc.noEffect, ?_, ?_, ?_⟩ hm' (by omega) hs' (hb ▸ hq)
      (hb ▸ hw) ?_⟩
    · rw [hsw]
      exact hc.noHooks
    · intro a ha
      obtain ⟨hlog, hans⟩ := hc.ended a ha
      rw [hb, hsw, Switch.handled_unit hr, hans]
      · exact ⟨hlog, rfl⟩
      · intro r hrun
        rw [hans] at hrun
        exact outcome_unit (hrun ▸ ha)
    · intro a ha
      rw [hb] at ha
      exact hc.only a ha
    · simp [hsw, Switch.handled]

theorem phase_lastPass (hc : Closing X prog p s) (hm : s.mode = .run) (hs : s.stack = loop)
    (hq : s.book.runQueue = []) (hw : s.book.ioWaiters = [])
    (hr : (s.switches 0).result ≠ none ∨ (s.switches 0).exnRef ≠ none) :
    Phase X prog p 1 (go X s) := by
  rw [go_run hm hs, mainSchedulerRound_done hq hw hr]
  refine .cleanup ⟨hc.noEffect, ?_, ?_, hc.only⟩ hm ?_
  · simpa [finishMain, State.setSwitch] using hc.noHooks
  · intro a ha
    obtain ⟨hlog, hans⟩ := hc.ended a ha
    refine ⟨hlog, ?_⟩
    rw [← hans]
    simp [finishMain, State.setSwitch, runAnswer]
  · simp [finishMain, hc.noHooks]

theorem phase_cleanup (hc : Closing X prog p s) (hm : s.mode = .run)
    (hs : s.stack = [.cleanup 0 [], .body .top]) : Phase X prog p 0 (go X s) := by
  rw [go_cleanup hm hs]
  refine .done hc.noEffect rfl ?_ hc.only
  intro a ha
  obtain ⟨hlog, hans⟩ := hc.ended a ha
  exact ⟨hlog, by rw [hans]⟩

theorem phase_returning (hout : (prog p.answers).outcome = none)
    (he : p.Awaits X prog (wait X true x w)) (hm : s.mode = .ret (.value .unit))
    (hs : s.stack = .handler (.main 0) :: loop) (hw : Waits s w x)
    (ht : x.timeoutCount < x.maxTimeout) : Phase X prog p 4 (go X s) := by
  obtain ⟨hm', hs', hb, hworld, hseg, hsw⟩ := go_handler (X := X) hm hs
  refine .returned hout he hm' hs' ⟨⟨?_, ?_, ?_, ?_, ?_, ?_, ?_⟩, ?_, ?_, hw.handler⟩ ht ?_
  · rw [hworld, hw.alone.world]
  · rw [hb, hw.alone.queue]
  · rw [hb, hw.alone.waiters]
  · rw [hb, hseg, hw.alone.konts]
  · rw [hsw]
    exact hw.alone.noHooks
  · rw [hsw]
    exact hw.alone.noExn
  · rw [hb]
    exact hw.alone.running
  · rw [hb]
    exact hw.konts
  · rw [hseg]
    exact hw.segment
  · simp [hsw, Switch.handled]

theorem OnTop.next (h : OnTop p c.state) (hc : c.answers = p.answers) :
    ∃ m < 1006, Phase X prog p m (c.next X prog).state := by
  rw [next_program h.mode h.stack, hc]
  cases hout : (prog p.answers).outcome with
  | some a => exact ⟨6, by omega, phase_outcome hout h.stack h.alone⟩
  | none =>
    cases hp : prog p.answers with
    | perform e =>
      rcases mainNetEffect_cases (X := X) e p.world with ⟨a, w', heff⟩ | ⟨op, sock, w', heff⟩
      · exact ⟨1, by omega, phase_replied hp h.stack h.alone h.waited heff⟩
      · exact phase_waits hp h.stack h.alone h.waited heff
    | ret | raise e => simp [hp, Net.Command.outcome] at hout

theorem start_onTop (mode : s.mode = .run) (stack : s.stack = loop) (alone : Alone s w [.main 0] [])
    (waited : Waited s false) : OnTop ⟨[], serviceNetwork X w, false⟩ (go X s) := by
  obtain ⟨hm, hs, ha, hk, hsw⟩ := mainSchedulerRound_main (X := X) [.body .top] alone
  rw [go_run mode stack]
  refine ⟨hm, hs.trans ?_, ha, ?_, ?_⟩
  · rw [stack]
    rfl
  · rw [hk]
    exact waited.konts
  · rw [hsw]
    exact waited.result

theorem Point.next_of_effect {waited : Bool} (h : p.effect X prog = some (a, w, waited)) :
    p.next X prog = ⟨p.answers ++ [a], w, waited⟩ := by
  rw [Point.next, h]

theorem Point.next_of_none (h : p.effect X prog = none) : p.next X prog = p := by
  rw [Point.next, h]

/-- One step: the stage gets closer to its end, the next answer arrives, or the run is over. -/
theorem Phase.next {n : ℕ} (h : Phase X prog p n c.state) (hc : c.answers = p.answers) :
    (∃ m < n, Phase X prog p m (c.next X prog).state ∧ (c.next X prog).answers = p.answers) ∨
    (p.effect X prog ≠ none ∧ OnTop (p.next X prog) (c.next X prog).state ∧
      (c.next X prog).answers = (p.next X prog).answers) ∨
    (n = 0 ∧ c.next X prog = c) := by
  obtain ⟨s, as⟩ := c
  have hgo : ∀ {f : Frame} {rest : List Frame}, s.stack = f :: rest → (∀ b, f ≠ .body b) →
      (∃ m < n, Phase X prog p m (go X s)) →
      ∃ m < n, Phase X prog p m (Config.next X prog ⟨s, as⟩).state ∧
        (Config.next X prog ⟨s, as⟩).answers = p.answers := by
    rintro f rest hs hf ⟨m, hm, hphase⟩
    rw [next_go hs hf]
    exact ⟨m, hm, hphase, hc⟩
  cases h with
  | start mode stack alone waited first =>
    left
    subst first
    exact hgo stack (by simp) ⟨1006, by omega, .program (start_onTop mode stack alone waited)⟩
  | program onTop =>
    left
    obtain ⟨m, hm, hphase⟩ := onTop.next (c := ⟨s, as⟩) hc
    refine ⟨m, hm, hphase, ?_⟩
    rw [next_program onTop.mode onTop.stack]
    exact hc
  | returning running awaits mode stack waits time =>
    exact .inl (hgo stack (by simp) ⟨4, by omega, phase_returning running awaits mode stack waits time⟩)
  | returned running awaits mode stack waits time result =>
    left
    refine hgo stack (by simp) ⟨3, by omega, ?_⟩
    rw [go_loop mode stack]
    exact .once running awaits rfl stack (waits.setMode .run) time result
  | once running awaits mode stack waits time result =>
    exact .inl (hgo stack (by simp) (phase_once running awaits mode stack waits time result))
  | suspended awaits mode stack waits time result =>
    left
    refine hgo stack (by simp) ⟨1003, by omega, ?_⟩
    rw [go_loop mode stack]
    exact .waiting 1000 awaits rfl stack (waits.setMode .run) time result
  | waiting tries awaits mode stack waits time result =>
    exact .inl (hgo stack (by simp) (phase_waiting awaits mode stack waits time result))
  | woken effect mode stack alone konts segment =>
    exact .inl (hgo stack (by simp) ⟨1, by omega, phase_woken effect mode stack alone konts segment⟩)
  | reply effect mode stack alone waited =>
    right
    left
    rw [next_reply mode stack, Point.next_of_effect effect, effect]
    refine ⟨by simp, ⟨rfl, stack, alone.setMode .run, ⟨waited.konts, waited.result⟩⟩, ?_⟩
    exact congrArg (· ++ [_]) hc
  | ended outcome mode stack queue waiters noHooks noExn log =>
    left
    have hstack : ∃ rest, s.stack = .handler (.main 0) :: rest := by
      rw [stack]
      cases p.waited <;> exact ⟨_, rfl⟩
    obtain ⟨rest, hs⟩ := hstack
    exact hgo hs (by simp) (phase_ended outcome mode stack queue waiters noHooks noExn log)
  | closing closing mode n_le stack queue waiters result =>
    left
    rename_i k
    have hstack : ∃ f rest, s.stack = f :: rest ∧ ∀ b, f ≠ .body b := by
      rw [stack]
      cases k <;> exact ⟨_, _, rfl, by simp⟩
    obtain ⟨f, rest, hs, hf⟩ := hstack
    exact hgo hs hf (phase_closing closing mode n_le stack queue waiters result)
  | lastPass closing mode stack queue waiters result =>
    left
    exact hgo stack (by simp) ⟨1, by omega, phase_lastPass closing mode stack queue waiters result⟩
  | cleanup closing mode stack =>
    exact .inl (hgo stack (by simp) ⟨0, by omega, phase_cleanup closing mode stack⟩)
  | done noEffect stack ended only => exact .inr (.inr ⟨rfl, next_done stack⟩)

/-! ### The whole run -/

/-- Where a run is between two answers. -/
def Config.Within (X : Externals W) (prog : Net.Prog) (p : Point W) (c : Config W) : Prop :=
  (∃ n, Phase X prog p n c.state) ∧ c.answers = p.answers

/-- The program has ended and its caller has its outcome. -/
def Config.Returns (c : Config W) (a : Answer) : Prop :=
  .ended (.main 0) a ∈ c.state.book.log ∧ c.state.stack = [.body .top] ∧ c.state.mode = .ret a

theorem initial_alone (w : W) : Alone (Config.initial w).state w [.main 0] [] := by
  refine ⟨rfl, rfl, rfl, rfl, rfl, rfl, ?_⟩
  intro a
  simp [Config.initial, switchRun, State.initial, Book.empty, Book.enqueue, Book.enqueueAll]

theorem initial_waited (w : W) : Waited (Config.initial w).state false :=
  ⟨by simp [Config.initial, switchRun, State.initial, Book.empty, Book.enqueue, Book.enqueueAll],
    fun _ => rfl⟩

theorem initial_within (prog : Net.Prog) (w : W) :
    (Config.initial w).Within X prog (point X prog w 0) :=
  ⟨⟨1007, .start rfl rfl (initial_alone w) (initial_waited w) rfl⟩, rfl⟩

/-- Every state of the run lies between two answers. -/
theorem run_within (prog : Net.Prog) (w : W) (m : ℕ) :
    ∃ n, (run X prog w m).Within X prog (point X prog w n) := by
  induction m with
  | zero => exact ⟨0, initial_within prog w⟩
  | succ m ih =>
    obtain ⟨n, ⟨r, hphase⟩, hans⟩ := ih
    rw [run, Function.iterate_succ_apply', ← run]
    rcases hphase.next hans with ⟨r', -, h, ha⟩ | ⟨-, h, ha⟩ | ⟨-, heq⟩
    · exact ⟨n, ⟨r', h⟩, ha⟩
    · refine ⟨n + 1, ⟨1006, .program ?_⟩, ?_⟩
      · rwa [point, Function.iterate_succ_apply', ← point]
      · rwa [point, Function.iterate_succ_apply', ← point]
    · exact ⟨n, ⟨r, heq.symm ▸ hphase⟩, heq.symm ▸ hans⟩

/-- An effect that is answered lets the run come to its answer. -/
theorem Config.Within.reaches (h : c.Within X prog p) (he : p.effect X prog ≠ none) :
    ∃ k, OnTop (p.next X prog) ((Config.next X prog)^[k] c).state ∧
      ((Config.next X prog)^[k] c).answers = (p.next X prog).answers := by
  obtain ⟨⟨n, hphase⟩, hans⟩ := h
  induction n using Nat.strong_induction_on generalizing c with
  | _ n ih =>
    rcases hphase.next hans with ⟨m, hlt, h, ha⟩ | ⟨-, h, ha⟩ | ⟨rfl, -⟩
    · obtain ⟨k, hk⟩ := ih m hlt ha h
      exact ⟨k + 1, hk⟩
    · exact ⟨1, h, ha⟩
    · cases hphase with
      | done noEffect => exact absurd noEffect he

/-- Otherwise the run comes to its end. -/
theorem Config.Within.ends (h : c.Within X prog p) (he : p.effect X prog = none) :
    ∃ k, Phase X prog p 0 ((Config.next X prog)^[k] c).state := by
  obtain ⟨⟨n, hphase⟩, hans⟩ := h
  induction n using Nat.strong_induction_on generalizing c with
  | _ n ih =>
    rcases hphase.next hans with ⟨m, hlt, h, ha⟩ | ⟨hne, -⟩ | ⟨rfl, -⟩
    · obtain ⟨k, hk⟩ := ih m hlt ha h
      exact ⟨k + 1, hk⟩
    · exact absurd he hne
    · exact ⟨0, hphase⟩

theorem point_reached (prog : Net.Prog) (w : W) (n : ℕ) :
    ∃ m, OnTop (point X prog w n) (run X prog w m).state ∧
      (run X prog w m).answers = (point X prog w n).answers := by
  induction n with
  | zero =>
    refine ⟨1, ?_⟩
    rw [run, Function.iterate_one, next_go (f := .mainScheduler 0) rfl (by simp)]
    exact ⟨start_onTop rfl rfl (initial_alone w) (initial_waited w), rfl⟩
  | succ n ih =>
    obtain ⟨m, hm, ha⟩ := ih
    rw [point, Function.iterate_succ_apply', ← point]
    by_cases he : (point X prog w n).effect X prog = none
    · exact ⟨m, by rwa [Point.next_of_none he], by rwa [Point.next_of_none he]⟩
    · obtain ⟨k, hk⟩ := Config.Within.reaches ⟨⟨1006, .program hm⟩, ha⟩ he
      refine ⟨k + m, ?_⟩
      rwa [run, Function.iterate_add_apply]

/-- The answers that the program is given in the run are those at its points. -/
theorem received_iff {w : W} {as : List Answer} :
    (∃ m, (run X prog w m).answers = as) ↔ ∃ n, (point X prog w n).answers = as := by
  constructor
  · rintro ⟨m, rfl⟩
    obtain ⟨n, hn⟩ := run_within (X := X) prog w m
    exact ⟨n, hn.2.symm⟩
  · rintro ⟨n, rfl⟩
    obtain ⟨m, -, ha⟩ := point_reached (X := X) prog w n
    exact ⟨m, ha⟩

/-- Where code is on top, it is the program's, at `p` or about to be given an answer, or that of
the caller. -/
theorem Phase.body {n : ℕ} {b : Body} (h : Phase X prog p n s) (hs : s.stack = .body b :: rest) :
    b = .main 0 ∧ (OnTop p s ∨ ∃ a, s.mode = .ret a) ∨
      b = .top ∧ ∀ a, .ended (.main 0) a ∈ s.book.log → (prog p.answers).outcome = some a := by
  cases h with
  | program onTop =>
    have hstack := onTop.stack.symm.trans hs
    cases hstack
    exact .inl ⟨rfl, .inl onTop⟩
  | reply _ mode stack =>
    rw [stack] at hs
    cases hs
    exact .inl ⟨rfl, .inr ⟨_, mode⟩⟩
  | done _ stack _ only =>
    rw [stack] at hs
    cases hs
    exact .inr ⟨rfl, only⟩
  | returning _ _ _ stack | cleanup _ _ stack => simp [stack] at hs
  | ended _ _ stack => cases hw : p.waited <;> simp [stack, handlers, hw] at hs
  | @closing s n _ _ _ stack =>
    cases n <;> simp [stack, loop, List.replicate_succ] at hs
  | start _ stack | returned _ _ _ stack | once _ _ _ stack | suspended _ _ stack
  | waiting _ _ _ stack | woken _ _ stack | lastPass _ _ stack => simp [stack, loop] at hs

/-- The run returns what the program ends with at one of its points. -/
theorem returns_iff {w : W} : (∃ m, (run X prog w m).Returns a) ↔
    ∃ n, (prog (point X prog w n).answers).outcome = some a := by
  constructor
  · rintro ⟨m, hlog, hs, -⟩
    obtain ⟨n, ⟨r, hphase⟩, -⟩ := run_within (X := X) prog w m
    rcases hphase.body hs with ⟨hmain, -⟩ | ⟨-, only⟩
    · cases hmain
    · exact ⟨n, only a hlog⟩
  · rintro ⟨n, hout⟩
    obtain ⟨m, hm, ha⟩ := point_reached (X := X) prog w n
    obtain ⟨k, hk⟩ := Config.Within.ends ⟨⟨1006, .program hm⟩, ha⟩ (effect_of_outcome hout)
    refine ⟨k + m, ?_⟩
    rw [run, Function.iterate_add_apply, ← run]
    cases hk with
    | done noEffect stack ended only =>
      obtain ⟨hlog, hmode⟩ := ended a hout
      exact ⟨hlog, stack, hmode⟩

/-- The program's code is on top at the points only. -/
theorem Phase.onTop {n b : ℕ} (h : Phase X prog p n s) (hm : s.mode = .run)
    (hs : s.stack = .body (.main b) :: rest) : OnTop p s := by
  rcases h.body hs with ⟨-, hp | ⟨a, hret⟩⟩ | ⟨htop, -⟩
  · exact hp
  · rw [hm] at hret
    cases hret
  · cases htop

end PicoOcaml.Pio
