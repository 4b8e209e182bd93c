import PicoOcaml.Pio.Census
import PicoOcaml.Pio.OneShot

/-! The main fiber of a run, as long as no handler of it keeps a continuation too many. -/
namespace PicoOcaml.Pio

/-- A `main_handler` keeps a continuation only if it does not run inside another one. -/
def calm (_segment : List Frame) (h : Handler) (rest : List Frame) : Bool :=
  match h with
  | .main sw => rest.head? != some (.handler (.main sw))
  | _ => true

theorem calm_main {segment rest : List Frame} {sw : ℕ} (h : calm segment (.main sw) rest = true) :
    rest.head? ≠ some (.handler (.main sw)) := by
  simpa [calm] using h

variable {W : Type*}

abbrev CalmShift : State W → State W → Prop := Shift fun segment h rest => calm segment h rest = true

theorem above_main {f : Frame} {sw : ℕ} (h : Above f (.handler (.main sw))) :
    f = .body (.main sw) ∨ f = .handler (.main sw) := by
  cases f with
  | body b =>
    cases b with
    | main sw' =>
      cases h
      exact .inl rfl
    | top => exact h.elim
    | fiber sw' => cases h
    | promise sw' p => cases h
    | element p => cases h
    | hook sw' n =>
      obtain ⟨hooks, h⟩ := h
      cases h
  | handler h' =>
    cases h' with
    | main sw' =>
      rcases h with h | h
      · cases h
        exact .inr rfl
      · cases h
    | fiber sw' => cases h
    | promise sw' p => cases h
  | scheduler sw' => cases h
  | settles p => cases h
  | mainScheduler sw' =>
    obtain ⟨b, h⟩ := h
    cases h
  | cleanup sw' hooks =>
    obtain ⟨b, h⟩ := h
    cases h

/-! ### Continuations that are referred to have not been resumed -/

section

variable {s : State W}

theorem segment_of_reference (hs : Sane s) (hb : Balanced s.book) {k : ℕ}
    (hk : k < s.book.konts.length)
    (hr : 0 < (s.book.runQueue.map (Ledger.references k).queued).sum +
      (Ledger.references k).waiting s.book.ioWaiters) :
    ∃ segment, s.segments[k]? = some (some segment) := by
  have hlt : k < s.segments.length := hs.control.length ▸ hk
  cases ho : s.segments[k] with
  | some segment => exact ⟨segment, by rw [List.getElem?_eq_getElem hlt, ho]⟩
  | none =>
    -- it would have been resumed already
    exfalso
    obtain ⟨hd, a, hlog⟩ := hs.control.opened (k := k) (by rw [List.getElem?_eq_getElem hlt, ho])
    have hone : 0 < (s.book.log.map (Ledger.references k).event).sum :=
      sum_map_pos.mpr ⟨_, hlog, by simp [Ledger.references, Task.resumes]⟩
    have htotal := hb (Ledger.references k)
    have hdue := Ledger.due_le_one (b := s.book) (Ledger.references_grant_le k)
    simp only [Ledger.total] at htotal
    omega

/-- A resumption in the queue finds its continuation. -/
theorem segment_of_resume (hs : Sane s) (hb : Balanced s.book) {h : Handler} {k : ℕ} {a : Answer}
    {q : List Task} (hq : s.book.runQueue = .resume h k a :: q) :
    ∃ segment, s.segments[k]? = some (some segment) := by
  obtain ⟨eff, hk, -⟩ := hs.agreed.queued (.resume h k a) (by simp [hq])
  refine segment_of_reference hs hb (List.getElem?_eq_some_iff.mp hk).1 ?_
  have hone : (Ledger.references k).queued (.resume h k a) = 1 := if_pos rfl
  rw [hq, List.map_cons, List.sum_cons, hone]
  omega

/-- A waiter's continuation is there, captured by the waiter's handler. -/
theorem segment_of_waiter (hs : Sane s) (hb : Balanced s.book) {w : IoWaiter}
    (hw : w ∈ s.book.ioWaiters) :
    ∃ segment, some segment ∈ s.segments ∧ Captured w.handler segment := by
  obtain ⟨e, hk, -⟩ := hs.agreed.waiting w hw
  have hpos : 0 < (Ledger.references w.k).waiting s.book.ioWaiters :=
    sum_map_pos.mpr ⟨w, hw, by rw [waiter_reference]; exact Nat.one_pos⟩
  obtain ⟨segment, hseg⟩ :=
    segment_of_reference hs hb (List.getElem?_eq_some_iff.mp hk).1 (by omega)
  obtain ⟨eff, hd, hk', hcap⟩ := hs.control.segments hseg
  rw [hk, Option.some.injEq, Prod.mk.injEq] at hk'
  exact ⟨segment, List.mem_iff_getElem?.mpr ⟨w.k, hseg⟩, hk'.2 ▸ hcap⟩

/-- No resumption is too late, and no waker too early. -/
theorem not_resumed_twice (hs : Sane s) (hb : Balanced s.book) {h : Handler} {k : ℕ} {a : Answer}
    {q : List Task} (hq : s.book.runQueue = .resume h k a :: q) : (s.segments[k]?).join ≠ none := by
  obtain ⟨segment, hseg⟩ := segment_of_resume hs hb hq
  simp [hseg]

theorem not_still_pending (hs : Sane s) {p k : ℕ} {h : Handler} {q : List Task}
    (hq : s.book.runQueue = .waker p h k :: q) : s.book.outcome p ≠ none := by
  obtain ⟨-, a, ha⟩ := hs.agreed.queued (.waker p h k) (by simp [hq])
  simp [ha]

/-- What `main_handler` has captured ends in the function of its run. -/
theorem Captured.body_main {sw : ℕ} {segment : List Frame} (h : Captured (.main sw) segment) :
    ∃ fs, segment = fs ++ [.body (.main sw), .handler (.main sw)] := by
  obtain ⟨b, fs, rfl, hfs⟩ := h.shape
  have hchain := h.chain
  obtain ⟨gs, g, hg⟩ : ∃ gs g, Frame.body b :: fs = gs ++ [g] :=
    ⟨_, _, (List.dropLast_append_getLast (List.cons_ne_nil _ _)).symm⟩
  rw [hg, List.append_assoc] at hchain ⊢
  have hrel : Above g (.handler (.main sw)) :=
    (List.isChain_append_cons_cons.mp hchain).2.1
  have hgmem : g ∈ Frame.body b :: fs := by simp [hg]
  have hnot : g.isHandler = false := by
    rcases List.mem_cons.mp hgmem with rfl | hmem
    · rfl
    · exact hfs g hmem
  refine ⟨gs, ?_⟩
  rcases above_main hrel with rfl | rfl
  · rfl
  · cases hnot

end

/-! ### Answers -/

def State.EndedMain (s : State W) (sw : ℕ) : Prop := ∃ a, .ended (.main sw) a ∈ s.book.log

/-- `result` or `exn_ref` of the run has been set. -/
def State.Answered (s : State W) (sw : ℕ) : Prop :=
  (s.switches sw).result ≠ none ∨ (s.switches sw).exnRef ≠ none

/-- No exception is handed to a loop. -/
def LoopAnswers (s : State W) : Prop :=
  ∀ a f rest, s.Returns a f rest → f.loop = true → ∃ v, a = .value v

structure Answers (s : State W) : Prop where
  main : ∀ {a : Answer} {sw : ℕ} {rest : List Frame},
    s.Returns a (.handler (.main sw)) rest → s.EndedMain sw
  loop : ∀ {a : Answer} {f : Frame} {rest : List Frame}, s.Returns a f rest → f.loop = true →
    ∃ v, a = .value v
  kept : ∀ {sw : ℕ}, s.Answered sw → s.EndedMain sw

theorem answered_update {s t : State W} {sw sw' : ℕ} {x : Switch}
    (hsw : t.switches = Function.update s.switches sw x) (hr : x.result = (s.switches sw).result)
    (he : x.exnRef = (s.switches sw).exnRef) : t.Answered sw' ↔ s.Answered sw' := by
  rw [State.Answered, State.Answered, switch_update Switch.result hsw hr,
    switch_update Switch.exnRef hsw he]

/-- Only `main_handler` sets `result` and `exn_ref`. -/
theorem Shift.answered {c : List Frame → Handler → List Frame → Prop} {s t : State W}
    (h : Shift c s t) {sw : ℕ} (ht : t.Answered sw) :
    s.Answered sw ∨ ∃ a rest, s.Returns a (.handler (.main sw)) rest := by
  cases h with
  | onRelease sw' n => exact .inl ((answered_update (by rfl) (by rfl) (by rfl)).mp ht)
  | fork hsw => exact .inl ((answered_update (by rfl) (by rfl) (by rfl)).mp ht)
  | forkPromise hsw => exact .inl ((answered_update (by rfl) (by rfl) (by rfl)).mp ht)
  | switchRun hs =>
    left
    by_cases h : sw = s.nextSwitch
    · subst h
      simp [State.Answered, PicoOcaml.Pio.switchRun] at ht
    · simpa [State.Answered, PicoOcaml.Pio.switchRun, h] using ht
  | @suspend b fs segment rest eff hd book w hs hsplit hc hcap =>
    left
    cases hd <;> exact ht
  | @endMain a sw' rest hs =>
    by_cases h : sw = sw'
    · subst h
      exact .inr ⟨a, rest, hs⟩
    · left
      cases a <;>
        simpa [State.Answered, State.fiberDone, State.addFibers, State.keepAnswer, State.setSwitch, h]
          using ht
  | endFiber hs => exact .inl ((answered_update (by rfl) (by rfl) (by rfl)).mp ht)
  | endPromise hs => exact .inl ((answered_update (by rfl) (by rfl) (by rfl)).mp ht)
  | exitMain hs hq hr => exact .inl ((answered_update (by rfl) (by rfl) (by rfl)).mp ht)
  | _ => exact .inl ht

theorem not_body_above_loop {b : Body} {g : Frame} (h : Above (.body b) g) : g.loop = false := by
  cases b with
  | top => exact h.elim
  | hook sw n =>
    obtain ⟨hooks, rfl⟩ := h
    rfl
  | main sw => exact h ▸ rfl
  | fiber sw => exact h ▸ rfl
  | promise sw p => exact h ▸ rfl
  | element p => exact h ▸ rfl

section

variable {s t : State W}

theorem not_returns_of_run {a : Answer} {f : Frame} {rest : List Frame} (hmode : t.mode = .run) :
    ¬ t.Returns a f rest := by
  intro hret
  cases hmode.symm.trans hret.1

theorem loopAnswers_of_run (hmode : t.mode = .run) : LoopAnswers t :=
  fun _ _ _ hret _ => absurd hret (not_returns_of_run hmode)

theorem loopAnswers_of_unit (hmode : t.mode = .ret (.value .unit)) : LoopAnswers t := by
  intro a f rest hret hl
  exact ⟨.unit, by simpa using hret.1.symm.trans hmode⟩

theorem loopAnswers_of_top (htop : ∀ f ∈ t.stack.head?, f.loop = false) : LoopAnswers t := by
  intro a f rest hret hl
  have hnot := htop f (by simp [hret.2])
  rw [hl] at hnot
  cases hnot

theorem loopAnswers_of_body {b : Body} {rest : List Frame} (hst : t.stack = .body b :: rest) :
    LoopAnswers t := by
  apply loopAnswers_of_top
  intro f hf
  have hf' : Frame.body b = f := by simpa [hst] using hf
  exact hf' ▸ rfl

/-- The answer of a body, a handler or the hooks of a run goes to no loop, and a task that has been
called returns unit. -/
theorem Shift.loopAnswers {c : List Frame → Handler → List Frame → Prop} (hsh : Shift c s t)
    (hs : Sane s) (hb : Balanced s.book) (h : LoopAnswers s) : LoopAnswers t := by
  have hchain := hs.control.chain
  cases hsh with
  | switchRun hs' => exact loopAnswers_of_run hs'.1
  | reply a hs' => exact loopAnswers_of_body hs'.2
  | @suspend b fs segment rest eff hd book w hs' hsplit hc hcap =>
    cases hd with
    | main sw => exact loopAnswers_of_unit rfl
    | fiber sw => exact loopAnswers_of_run rfl
    | promise sw p => exact loopAnswers_of_run rfl
  | finish a hs' =>
    rw [hs'.2] at hchain
    exact loopAnswers_of_top fun f hf => not_body_above_loop ((List.isChain_cons.mp hchain).1 f hf)
  | launch hs' hq ht => exact loopAnswers_of_run rfl
  | @resume f rest segment hd k a q hs' hq hk =>
    obtain ⟨b, fs, rfl, -⟩ := (hs.control.captured_resume hs.agreed hq hk).shape
    exact loopAnswers_of_body rfl
  | resumeTwice hs' hq hk => exact absurd hk (not_resumed_twice hs hb hq)
  | stillPending hs' hq ho => exact absurd ho (not_still_pending hs hq)
  | toBody hs' => exact loopAnswers_of_run rfl
  | toCleanup hs' => exact loopAnswers_of_run rfl
  | toLoop hs' hl => exact loopAnswers_of_run rfl
  | breakLoop hs' hl =>
    obtain ⟨v, hv⟩ := h _ _ _ hs' hl
    cases hv
  | endMain hs' => exact loopAnswers_of_unit rfl
  | endFiber hs' => exact loopAnswers_of_run rfl
  | endPromise hs' => exact loopAnswers_of_run rfl
  | endElement hs' ho => exact loopAnswers_of_unit rfl
  | exitScheduler hs' hq hio hf => exact loopAnswers_of_unit rfl
  | exitMain hs' hq hr => exact loopAnswers_of_run hs'.1
  | runHook hm hst => exact loopAnswers_of_run hm
  | exitCleanup hm hst =>
    rw [hst] at hchain
    apply loopAnswers_of_top
    intro f hf
    obtain ⟨b, rfl⟩ := (List.isChain_cons.mp hchain).1 f hf
    rfl
  | _ => exact h

end

variable {s t : State W}

theorem Answers.toProgram (hkept : ∀ sw, t.Answered sw → t.EndedMain sw) {b : Body}
    {rest : List Frame} (hst : t.stack = .body b :: rest) : Answers t := by
  refine ⟨?_, loopAnswers_of_body hst _ _ _, fun ht => hkept _ ht⟩
  intro a sw rest' hret
  cases hst.symm.trans hret.2

theorem Shift.answers (hsh : CalmShift s t) (hs : Sane s) (hb : Balanced s.book) (h : Answers s) :
    Answers t := by
  have hlog := fun e => hsh.extends.log (e := e)
  have hmono : ∀ sw, s.EndedMain sw → t.EndedMain sw := fun sw ⟨a, he⟩ => ⟨a, hlog _ he⟩
  have hkept : ∀ sw, t.Answered sw → t.EndedMain sw := by
    intro sw ht
    rcases hsh.answered ht with hs' | ⟨a, rest, hret⟩
    · exact hmono sw (h.kept hs')
    · exact hmono sw (h.main hret)
  have hchain := hs.control.chain
  refine ⟨?_, hsh.loopAnswers hs hb (fun _ _ _ => h.loop) _ _ _, fun ht => hkept _ ht⟩
  intro a' sw' rest' hret
  have hhead : t.stack.head? = some (.handler (.main sw')) := by rw [hret.2, List.head?_cons]
  cases hsh with
  | switchRun hs' => exact absurd hret (not_returns_of_run hs'.1)
  | reply a hs' => cases hs'.2.symm.trans hret.2
  | @suspend b fs segment rest eff hd book w hs' hsplit hc hcap =>
    obtain ⟨happ, gs, rfl, -⟩ := splitHandler_spec hsplit
    cases hd with
    | fiber sw => cases hret.1
    | promise sw p => cases hret.1
    | main sw =>
      rw [happ, List.append_assoc] at hchain
      -- the handler is not inside another one
      exfalso
      have hrel := (List.isChain_cons.mp hchain.right_of_append).1 _ hhead
      rcases hrel with hrel | hrel
      · have hrest : rest.head? = some (.handler (.main sw)) := hrel ▸ hhead
        exact calm_main hc hrest
      · cases hrel
  | @finish b rest a hs' =>
    rw [hs'.2] at hchain
    rcases above_main ((List.isChain_cons.mp hchain).1 _ hhead) with hb' | hb'
    · cases hb'
      exact ⟨a, List.mem_append_right _ (List.mem_singleton.mpr rfl)⟩
    · cases hb'
  | launch hs' hq ht => cases hret.1
  | @resume f rest segment hd k a q hs' hq hk =>
    obtain ⟨b, fs, rfl, -⟩ := (hs.control.captured_resume hs.agreed hq hk).shape
    cases hhead
  | resumeTwice hs' hq hk => exact absurd hk (not_resumed_twice hs hb hq)
  | stillPending hs' hq ho => exact absurd ho (not_still_pending hs hq)
  | toBody hs' => cases hret.1
  | toCleanup hs' => cases hret.1
  | toLoop hs' hl => cases hret.1
  | breakLoop hs' hl =>
    obtain ⟨v, hv⟩ := h.loop hs' hl
    cases hv
  | @endMain a sw rest hs' =>
    rw [hs'.2] at hchain
    rcases (List.isChain_cons.mp hchain).1 _ hhead with hrel | hrel
    · cases hrel
      exact hmono sw' (h.main hs')
    · cases hrel
  | endFiber hs' => cases hret.1
  | endPromise hs' => cases hret.1
  | endElement hs' ho =>
    rw [hs'.2] at hchain
    cases (List.isChain_cons.mp hchain).1 _ hhead
  | exitScheduler hs' hq hio hf =>
    rw [hs'.2.1] at hchain
    cases (List.isChain_cons.mp hchain).1 _ hhead
  | exitMain hs' hq hr => exact absurd hret (not_returns_of_run hs'.1)
  | runHook hm hst => exact absurd hret (not_returns_of_run hm)
  | exitCleanup hm hst =>
    rw [hst] at hchain
    obtain ⟨b, hb'⟩ := (List.isChain_cons.mp hchain).1 _ hhead
    cases hb'
  | _ => exact hmono sw' (h.main hret)

theorem answers_initial (world : W) : Answers (State.initial world) where
  main hret := by cases hret.1
  loop hret _ := by cases hret.1
  kept ht := by simp [State.Answered, State.initial] at ht

/-! ### Counts -/

/-- Where the fibers of a switch are, its main fiber apart. -/
def Census.ofSwitch (sw : ℕ) : Census where
  frame f := if f.switch = some sw then 1 else 0
  library f hf := by
    cases f with
    | handler h => cases h <;> first | rfl | cases hf
    | _ => rfl

/-- The event is an end of the body. -/
def Event.ends (b : Body) : Event → Bool
  | .ended b' _ => b' = b
  | _ => false

theorem task_body (sw : ℕ) (u : Task) :
    (Census.only (.body (.main sw)) rfl).task u = if u = .main sw then 1 else 0 := by
  cases u <;> simp [Census.task, Task.frames, Census.only]

theorem task_switch (sw : ℕ) (u : Task) :
    (Census.ofSwitch sw).task u = if u.switch = some sw then 1 else 0 := by
  cases u <;> simp [Census.task, Task.frames, Census.ofSwitch, Frame.switch, Task.switch]

/-- The frames that an event has put into the queue. -/
def Census.event (w : Census) : Event → ℕ
  | .enqueued u => w.task u
  | _ => 0

def Census.issued (w : Census) (l : List Event) : ℕ := (l.map w.event).sum

@[simp] theorem Census.issued_append (w : Census) (l l' : List Event) :
    w.issued (l ++ l') = w.issued l + w.issued l' := by
  simp [Census.issued]

@[simp] theorem Census.issued_singleton (w : Census) (e : Event) : w.issued [e] = w.event e := by
  simp [Census.issued]

/-- A body is queued, started, suspended and resumed, and then it ends. -/
theorem Flow.accounted (hf : Flow s t) {b : Body} (hb : (Frame.body b).ofLibrary = false) :
    (Census.only (.body b) hb).load t + t.program.countP (Event.ends b) +
        (Census.only (.body b) hb).issued s.program =
      (Census.only (.body b) hb).load s + s.program.countP (Event.ends b) +
        (Census.only (.body b) hb).issued t.program := by
  cases hf with
  | still hn hload hprog hfib => rw [hload, hprog]
  | issue u hn hu hmain hsw hp hload hprog hfib =>
    have hends : [Event.enqueued u].countP (Event.ends b) = 0 := rfl
    rw [hload, hprog, List.countP_append, Census.issued_append, Census.issued_singleton,
      Census.event]
    omega
  | run hn hload hprog hfib =>
    have hends : [Event.enqueued (.main s.nextSwitch)].countP (Event.ends b) = 0 := rfl
    rw [hload, hprog, List.countP_append, Census.issued_append, Census.issued_singleton,
      Census.event]
    omega
  | ended b' a hn hload hprog hfib =>
    have hl := hload (Census.only (.body b) hb)
    have hw : (Census.only (.body b) hb).frame (.body b') =
        [Event.ended b' a].countP (Event.ends b) := by
      simp [Census.only, Event.ends, List.countP_singleton]
    have hevent : (Census.only (.body b) hb).event (.ended b' a) = 0 := rfl
    rw [hprog, List.countP_append, Census.issued_append, Census.issued_singleton, hevent]
    omega
  | done f a rest hn hret hbody hload hprog hfib =>
    have hl := hload (Census.only (.body b) hb)
    have hw : (Census.only (.body b) hb).frame f = 0 := by
      cases f with
      | body b => exact absurd rfl hbody
      | _ => rfl
    rw [hprog]
    omega
  | mainDone a sw rest hn hret hload hprog hfib => rw [hload, hprog]

/-- The main fiber of a switch is queued when the switch is made. -/
theorem Flow.issued_main (hf : Flow s t) (sw : ℕ) :
    (Census.only (.body (.main sw)) rfl).issued t.program + (if sw < s.nextSwitch then 1 else 0) =
      (Census.only (.body (.main sw)) rfl).issued s.program +
        if sw < t.nextSwitch then 1 else 0 := by
  cases hf with
  | still hn hload hprog hfib => rw [hprog, hn]
  | issue u hn hu hmain hsw hp hload hprog hfib =>
    rw [hprog, hn, Census.issued_append, Census.issued_singleton, Census.event, task_body,
      if_neg (hmain sw), Nat.add_zero]
  | run hn hload hprog hfib =>
    rw [hprog, hn, Census.issued_append, Census.issued_singleton, Census.event, task_body]
    simp only [Task.main.injEq]
    split <;> split <;> split <;> omega
  | ended b a hn hload hprog hfib =>
    have hevent : (Census.only (.body (.main sw)) rfl).event (.ended b a) = 0 := rfl
    rw [hprog, hn, Census.issued_append, Census.issued_singleton, hevent, Nat.add_zero]
  | done f a rest hn hret hbody hload hprog hfib => rw [hprog, hn]
  | mainDone a sw rest hn hret hload hprog hfib => rw [hprog, hn]

/-- No fiber belongs to a switch that is still to be made. -/
theorem Flow.fresh (hf : Flow s t) (h : ∀ sw, s.nextSwitch ≤ sw → (Census.ofSwitch sw).load s = 0)
    (sw : ℕ) (hsw : t.nextSwitch ≤ sw) : (Census.ofSwitch sw).load t = 0 := by
  cases hf with
  | still hn hload hprog hfib => rw [hload, h sw (hn ▸ hsw)]
  | issue u hn hu hmain hlt hp hload hprog hfib =>
    rw [hload, task_switch, h sw (hn ▸ hsw), if_neg]
    intro hu'
    have := hlt sw hu'
    omega
  | run hn hload hprog hfib =>
    rw [hload, task_switch, h sw (by omega)]
    rfl
  | ended b a hn hload hprog hfib =>
    have hl := hload (Census.ofSwitch sw)
    have h0 := h sw (hn ▸ hsw)
    omega
  | done f a rest hn hret hbody hload hprog hfib =>
    have hl := hload (Census.ofSwitch sw)
    have h0 := h sw (hn ▸ hsw)
    omega
  | mainDone a sw' rest hn hret hload hprog hfib => rw [hload, h sw (hn ▸ hsw)]

/-- The function of each run is in one place until it has ended, and the fibers of a run are
counted until then. -/
structure Counted (s : State W) : Prop where
  main : ∀ sw, (Census.only (.body (.main sw)) rfl).load s +
    s.program.countP (Event.ends (.main sw)) = if sw < s.nextSwitch then 1 else 0
  fibers : ∀ sw, sw < s.nextSwitch → ¬ s.EndedMain sw →
    s.fibers sw = 1 + (Census.ofSwitch sw).load s
  fresh : ∀ sw, s.nextSwitch ≤ sw → (Census.ofSwitch sw).load s = 0

theorem endedMain_iff {sw : ℕ} :
    s.EndedMain sw ↔ 0 < s.program.countP (Event.ends (.main sw)) := by
  rw [List.countP_pos_iff]
  constructor
  · rintro ⟨a, he⟩
    exact ⟨_, (mem_program rfl).mpr he, by simp [Event.ends]⟩
  · rintro ⟨e, he, hends⟩
    cases e with
    | ended b a =>
      have hb : b = .main sw := by simpa [Event.ends] using hends
      subst hb
      exact ⟨a, (mem_program rfl).mp he⟩
    | _ => cases hends

/-- A main fiber that is somewhere has not ended. -/
theorem Counted.not_ended (h : Counted s) {sw : ℕ}
    (hpos : 0 < (Census.only (.body (.main sw)) rfl).load s) :
    sw < s.nextSwitch ∧ ¬ s.EndedMain sw := by
  have hm := h.main sw
  refine ⟨?_, ?_⟩
  · by_contra hlt
    rw [if_neg hlt] at hm
    omega
  · intro hended
    have hone := endedMain_iff.mp hended
    split at hm <;> omega

theorem Counted.main_flow (hf : Flow s t) (h : Counted s) (sw : ℕ) :
    (Census.only (.body (.main sw)) rfl).load t + t.program.countP (Event.ends (.main sw)) =
      if sw < t.nextSwitch then 1 else 0 := by
  have hm := h.main sw
  have hacc := hf.accounted (b := .main sw) rfl
  have hissued := hf.issued_main sw
  omega

/-- Forked fibers come and go with their handlers. -/
theorem Flow.forked_count (hf : Flow s t) {sw : ℕ}
    (hno : ∀ a rest, ¬ s.Returns a (.handler (.main sw)) rest) (hsw : sw < s.nextSwitch) :
    t.fibers sw - (Census.ofSwitch sw).load t = s.fibers sw - (Census.ofSwitch sw).load s := by
  cases hf with
  | still hn hload hprog hfib => rw [hload, hfib]
  | issue u hn hu hmain hlt hp hload hprog hfib =>
    rw [hload, hfib, task_switch]
    split <;> omega
  | run hn hload hprog hfib =>
    have hne : sw ≠ s.nextSwitch := Nat.ne_of_lt hsw
    rw [hload, hfib, task_switch, if_neg hne]
    simp [Task.switch]
  | ended b a hn hload hprog hfib =>
    have hl := hload (Census.ofSwitch sw)
    have hw : (Census.ofSwitch sw).frame (.body b) = 0 := rfl
    rw [hfib]
    omega
  | done f a rest hn hret hbody hload hprog hfib =>
    have hl := hload (Census.ofSwitch sw)
    have hw : (Census.ofSwitch sw).frame f = if f.switch = some sw then 1 else 0 := rfl
    rw [hfib]
    split at hw
    · rename_i hsome
      rw [if_pos hsome]
      omega
    · rename_i hnone
      rw [if_neg hnone]
      omega
  | mainDone a sw' rest hn hret hload hprog hfib =>
    have hne : sw ≠ sw' := by
      rintro rfl
      exact hno a rest hret
    rw [hload, hfib, if_neg hne]
    omega

/-- A switch that has just been made has one fiber. -/
theorem Flow.new_count (hf : Flow s t)
    (hfresh : ∀ sw, s.nextSwitch ≤ sw → (Census.ofSwitch sw).load s = 0) {sw : ℕ}
    (hsw : s.nextSwitch ≤ sw) (hlt : sw < t.nextSwitch) :
    t.fibers sw = 1 ∧ (Census.ofSwitch sw).load t = 0 := by
  cases hf with
  | run hn hload hprog hfib =>
    have heq : sw = s.nextSwitch := by omega
    rw [hload, hfib, if_pos heq, task_switch, hfresh sw hsw]
    exact ⟨rfl, rfl⟩
  | _ => omega

theorem Counted.fibers_flow (hf : Flow s t) (ha : Answers s)
    (hmono : ∀ sw, s.EndedMain sw → t.EndedMain sw) (h : Counted s) (sw : ℕ)
    (hsw : sw < t.nextSwitch) (hn' : ¬ t.EndedMain sw) :
    t.fibers sw = 1 + (Census.ofSwitch sw).load t := by
  have hne : ¬ s.EndedMain sw := fun he => hn' (hmono sw he)
  rcases Nat.lt_or_ge sw s.nextSwitch with hlt | hge
  · have hcount := hf.forked_count (fun a rest hret => hne (ha.main hret)) hlt
    have hs := h.fibers sw hlt hne
    omega
  · obtain ⟨hone, hzero⟩ := hf.new_count h.fresh hge hsw
    rw [hone, hzero]
    rfl

theorem Counted.flow (hf : Flow s t) (ha : Answers s)
    (hmono : ∀ sw, s.EndedMain sw → t.EndedMain sw) (h : Counted s) : Counted t :=
  ⟨h.main_flow hf, h.fibers_flow hf ha hmono, hf.fresh h.fresh⟩

theorem counted_initial (world : W) : Counted (State.initial world) where
  main _ := rfl
  fibers _ hsw := absurd hsw (Nat.not_lt_zero _)
  fresh _ _ := rfl

end PicoOcaml.Pio
