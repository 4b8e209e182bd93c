import PicoOcaml.Pio.MainFiber

/-! The loop of a top-level run is left only when the main fiber has ended. -/
namespace PicoOcaml.Pio

/-- A `main_handler` keeps no continuation that a loop is part of. -/
def loopless (segment : List Frame) (h : Handler) (_rest : List Frame) : Bool :=
  match h with
  | .main _ => segment.all fun f => !f.loop
  | _ => true

theorem loopless_main {segment rest : List Frame} {sw : ℕ}
    (h : loopless segment (.main sw) rest = true) : ∀ f ∈ segment, f.loop = false := by
  simpa [loopless] using h

/-- A loop that does not exit while a continuation of `h` waits for the network. -/
def Handler.Covered (h : Handler) (fs : List Frame) : Prop :=
  (∃ sw, .scheduler sw ∈ fs) ∨ ∃ sw, h = .main sw ∧ .mainScheduler sw ∈ fs

theorem Handler.Covered.mono {h : Handler} {fs gs : List Frame} (hc : h.Covered fs)
    (hl : ∀ f ∈ fs, f.loop = true → f ∈ gs) : h.Covered gs := by
  rcases hc with ⟨sw, hsw⟩ | ⟨sw, rfl, hsw⟩
  · exact .inl ⟨sw, hl _ hsw rfl⟩
  · exact .inr ⟨sw, rfl, hl _ hsw rfl⟩

/-- Below a main fiber that has not been suspended yet, a loop waits for it. -/
def Firsts (fs : List Frame) : Prop :=
  ∀ (sw : ℕ) (rest : List Frame), (.body (.main sw) :: .handler (.main sw) :: rest) <:+ fs →
    rest.head? ≠ some (.handler (.main sw)) → (Handler.main sw).Covered rest

theorem Firsts.of_suffix {fs gs : List Frame} (h : Firsts fs) (hs : gs <:+ fs) : Firsts gs :=
  fun sw rest hsuf hhead => h sw rest (hsuf.trans hs) hhead

theorem Firsts.tail {f : Frame} {fs : List Frame} (h : Firsts (f :: fs)) : Firsts fs :=
  h.of_suffix (List.suffix_cons f fs)

theorem Firsts.cons {f : Frame} {fs : List Frame} (h : Firsts fs)
    (hf : ∀ sw, f ≠ .body (.main sw)) : Firsts (f :: fs) := by
  intro sw rest hsuf hhead
  rcases List.suffix_cons_iff.mp hsuf with heq | hsuf
  · simp only [List.cons.injEq] at heq
    exact absurd heq.1.symm (hf sw)
  · exact h sw rest hsuf hhead

theorem Firsts.start {sw : ℕ} {fs : List Frame} (h : Firsts fs)
    (hc : (Handler.main sw).Covered fs) :
    Firsts (.body (.main sw) :: .handler (.main sw) :: fs) := by
  intro sw' rest hsuf hhead
  rcases List.suffix_cons_iff.mp hsuf with heq | hsuf
  · simp only [List.cons.injEq, Frame.body.injEq, Body.main.injEq] at heq
    obtain ⟨rfl, -, rfl⟩ := heq
    exact hc
  · have hcons : Firsts (.handler (.main sw) :: fs) := h.cons nofun
    exact hcons sw' rest hsuf hhead

theorem Firsts.wrapper {h : Handler} {fs : List Frame} (hfs : Firsts fs) :
    Firsts (wrapper h ++ fs) := by
  cases h with
  | main sw => exact hfs.cons nofun
  | fiber sw => exact hfs
  | promise sw p => exact hfs

/-- A resumed main fiber runs inside a second handler. -/
theorem Firsts.resume (h : Handler) (pre : List Frame) {fs : List Frame} (hfs : Firsts fs)
    (hpre : ∀ f ∈ pre, f.isHandler = false) :
    Firsts (pre ++ [.handler h] ++ PicoOcaml.Pio.wrapper h ++ fs) := by
  induction pre with
  | nil =>
    have hw := Firsts.wrapper (h := h) hfs
    exact hw.cons nofun
  | cons f pre ih =>
    have ih' := ih fun g hg => hpre g (List.mem_cons_of_mem _ hg)
    intro sw rest hsuf hhead
    have hsuf' : (.body (.main sw) :: .handler (.main sw) :: rest) <:+
        f :: (pre ++ (.handler h :: (PicoOcaml.Pio.wrapper h ++ fs))) := by simpa using hsuf
    rcases List.suffix_cons_iff.mp hsuf' with heq | hsuf'
    · -- the handler of the fiber is the last of the continuation
      exfalso
      simp only [List.cons.injEq] at heq
      cases pre with
      | nil =>
        obtain ⟨-, heq⟩ := heq
        simp only [List.nil_append, List.cons.injEq, Frame.handler.injEq] at heq
        obtain ⟨rfl, rfl⟩ := heq
        exact hhead rfl
      | cons g pre =>
        simp only [List.cons_append, List.cons.injEq] at heq
        have hg := hpre g (by simp)
        rw [← heq.2.1] at hg
        cases hg
    · exact ih' sw rest (by simpa using hsuf') hhead

variable {W : Type*}

abbrev LooplessShift : State W → State W → Prop :=
  Shift fun segment h rest => calm segment h rest = true ∧ loopless segment h rest = true

structure Covers (s : State W) : Prop where
  waiters : ∀ w ∈ s.book.ioWaiters, w.handler.Covered s.stack
  tasks : ∀ sw, .main sw ∈ s.book.runQueue → (Handler.main sw).Covered s.stack
  first : Firsts s.stack

section

variable {s t : State W}

theorem Covers.keep (h : Covers s)
    (hw : ∀ w ∈ t.book.ioWaiters, ∃ w' ∈ s.book.ioWaiters, w'.handler = w.handler)
    (hq : ∀ sw, .main sw ∈ t.book.runQueue → .main sw ∈ s.book.runQueue)
    (hl : ∀ f ∈ s.stack, f.loop = true → f ∈ t.stack) (hfirst : Firsts t.stack) : Covers t := by
  refine ⟨?_, ?_, hfirst⟩
  · intro w hmem
    obtain ⟨w', hmem', he⟩ := hw w hmem
    exact he ▸ (h.waiters w' hmem').mono hl
  · intro sw hmem
    exact (h.tasks sw (hq sw hmem)).mono hl

theorem covers_of_scheduler {sw : ℕ} (hst : .scheduler sw ∈ t.stack) (hfirst : Firsts t.stack) :
    Covers t :=
  ⟨fun _ _ => .inl ⟨sw, hst⟩, fun _ _ => .inl ⟨sw, hst⟩, hfirst⟩

theorem same_waiters (b : Book) : ∀ w ∈ b.ioWaiters, ∃ w' ∈ b.ioWaiters, w'.handler = w.handler :=
  fun w hw => ⟨w, hw, rfl⟩

/-- Where the loops are when the top of the stack, which is none of them, goes. -/
theorem loops_below {f₀ : Frame} {rest gs : List Frame} (hst : s.stack = f₀ :: rest)
    (hf₀ : f₀.loop = false) (hgs : ∀ f ∈ rest, f ∈ gs) :
    ∀ f ∈ s.stack, f.loop = true → f ∈ gs := by
  intro f hf hl
  rw [hst] at hf
  rcases List.mem_cons.mp hf with rfl | hf
  · rw [hl] at hf₀
    cases hf₀
  · exact hgs f hf

/-- No main fiber is queued by queueing another task. -/
theorem enqueue_tasks {b : Book} {u : Task} (hu : ∀ sw, u ≠ .main sw) :
    ∀ sw, .main sw ∈ (b.enqueue u).runQueue → .main sw ∈ b.runQueue := by
  intro sw hmem
  rcases List.mem_append.mp hmem with hmem | hmem
  · exact hmem
  · exact absurd (List.mem_singleton.mp hmem).symm (hu sw)

theorem take_tasks {b : Book} {u : Task} {q : List Task} (hq : b.runQueue = u :: q) :
    ∀ sw, .main sw ∈ (b.take u q).runQueue → .main sw ∈ b.runQueue := by
  intro sw hmem
  rw [hq]
  exact List.mem_cons_of_mem _ hmem

theorem Polled.handlers {ws kept : List IoWaiter} {ts : List Task} (h : Polled ws kept ts) :
    ∀ w ∈ kept, ∃ w' ∈ ws, w'.handler = w.handler := by
  induction h with
  | nil => nofun
  | ready v _ ih =>
    intro w hw
    obtain ⟨w', hmem, he⟩ := ih w hw
    exact ⟨w', List.mem_cons_of_mem _ hmem, he⟩
  | expired v _ _ ih =>
    intro w hw
    obtain ⟨w', hmem, he⟩ := ih w hw
    exact ⟨w', List.mem_cons_of_mem _ hmem, he⟩
  | waits v _ _ ih =>
    intro w hw
    rcases List.mem_cons.mp hw with rfl | hw
    · exact ⟨v, List.mem_cons_self .., rfl⟩
    · obtain ⟨w', hmem, he⟩ := ih w hw
      exact ⟨w', List.mem_cons_of_mem _ hmem, he⟩

theorem quiet_waiters {b b' : Book} (h : Quiet b b') :
    ∀ w ∈ b'.ioWaiters, ∃ w' ∈ b.ioWaiters, w'.handler = w.handler := by
  cases h with
  | settle p ho =>
    simp only [Book.settle]
    split <;> exact same_waiters b
  | poll hp =>
    intro w hw
    exact hp.handlers w (List.mem_reverse.mp hw)
  | _ => exact same_waiters b

theorem capture_waiters {b b' : Book} {eff : Eff} {h : Handler} (hc : Capture h b eff b') :
    ∀ w ∈ b'.ioWaiters, w ∈ b.ioWaiters ∨ w.handler = h := by
  cases hc with
  | await ho hlt =>
    simp only [Book.addWaiter]
    split <;> exact fun w hw => .inl hw
  | yield => exact fun w hw => .inl hw
  | wait he =>
    intro w hw
    rcases List.mem_cons.mp hw with rfl | hw
    · exact .inr rfl
    · exact .inl hw

theorem same_tasks {b b' : Book} (h : SameProgram b b') {t : Task} (ht : t.starts = true)
    (hmem : t ∈ b'.runQueue) : t ∈ b.runQueue := by
  have hf : t ∈ b'.runQueue.filter Task.starts := List.mem_filter.mpr ⟨hmem, ht⟩
  rw [h.queue] at hf
  exact (List.mem_filter.mp hf).1

end

section

variable {s t : State W}

/-- A waiter of a main fiber holds the function of its run, which has not ended. -/
theorem waiter_not_ended (hs : Sane s) (hb : Balanced s.book) (hcount : Counted s) {w : IoWaiter}
    {sw : ℕ} (hw : w ∈ s.book.ioWaiters) (hmain : w.handler = .main sw) :
    sw < s.nextSwitch ∧ ¬ s.EndedMain sw := by
  obtain ⟨segment, hseg, hcap⟩ := segment_of_waiter hs hb hw
  rw [hmain] at hcap
  obtain ⟨fs, rfl⟩ := hcap.body_main
  have hpos : 0 < (Census.only (.body (.main sw)) rfl).load s := by
    have hone : 0 < (s.segments.map (Census.only (.body (.main sw)) rfl).segment).sum :=
      sum_map_pos.mpr ⟨_, hseg, by simp [Census.segment, Census.only]⟩
    simp only [Census.load]
    omega
  exact hcount.not_ended hpos

/-- The loop of a run is left when its main fiber has ended. -/
theorem ended_of_exit (ha : Answers s) (hcount : Counted s) {sw : ℕ} (hsw : sw < s.nextSwitch)
    (hr : (s.switches sw).result ≠ none ∨ (s.switches sw).exnRef ≠ none ∨
      ((s.switches sw).fibers ≤ 0 ∧ s.book.ioWaiters = [])) : s.EndedMain sw := by
  rcases hr with hr | hr | ⟨hr, -⟩
  · exact ha.kept (.inl hr)
  · exact ha.kept (.inr hr)
  · by_contra hn
    have hf : (s.switches sw).fibers = 1 + (Census.ofSwitch sw).load s := hcount.fibers sw hsw hn
    omega

theorem Shift.covers (hsh : LooplessShift s t) (hs : Sane s) (hb : Balanced s.book) (ha : Answers s)
    (hcount : Counted s) (h : Covers s) : Covers t := by
  have hfirst := h.first
  cases hsh with
  | quiet w hq =>
    exact h.keep (quiet_waiters hq) (fun _ => same_tasks (hq.same hs.agreed) rfl) (fun _ hf _ => hf)
      hfirst
  | fork hsw => exact h.keep (same_waiters _) (enqueue_tasks nofun) (fun _ hf _ => hf) hfirst
  | forkPromise hsw =>
    exact h.keep (same_waiters _) (enqueue_tasks (b := s.book.createPromise) nofun)
      (fun _ hf _ => hf) hfirst
  | element =>
    exact h.keep (same_waiters _) (enqueue_tasks (b := s.book.createPromise) nofun)
      (fun _ hf _ => hf) hfirst
  | switchRun hs' =>
    refine ⟨?_, ?_, hfirst.cons nofun⟩
    · intro w hw
      exact (h.waiters w hw).mono fun f hf _ => List.mem_cons_of_mem _ hf
    · intro sw hmem
      rcases List.mem_append.mp hmem with hmem | hmem
      · exact (h.tasks sw hmem).mono fun f hf _ => List.mem_cons_of_mem _ hf
      · cases List.mem_singleton.mp hmem
        exact .inr ⟨_, rfl, List.mem_cons_self ..⟩
  | @suspend b fs segment rest eff hd book w hs' hsplit hc hcap =>
    obtain ⟨happ, -⟩ := splitHandler_spec hsplit
    rw [happ] at hfirst
    have hrest : Firsts rest := hfirst.of_suffix (List.suffix_append ..)
    cases hd with
    | fiber sw => exact covers_of_scheduler (List.mem_cons_self ..) (hrest.cons nofun)
    | promise sw p => exact covers_of_scheduler (List.mem_cons_self ..) (hrest.cons nofun)
    | main sw =>
      have hloops := loopless_main hc.2
      have hl : ∀ f ∈ s.stack, f.loop = true → f ∈ rest := by
        intro f hf hloop
        rw [happ] at hf
        rcases List.mem_append.mp hf with hf | hf
        · rw [hloops f hf] at hloop
          cases hloop
        · exact hf
      refine ⟨?_, ?_, hrest⟩
      · intro v hv
        rcases capture_waiters hcap v hv with hv | hv
        · exact (h.waiters v hv).mono hl
        · -- the first suspension of this main fiber
          rw [hv]
          obtain ⟨gs, hgs⟩ := (captured_of_split hs'.2 hs.control.chain hsplit).body_main
          refine hfirst sw rest ⟨gs, ?_⟩ (calm_main hc.1)
          rw [hgs]
          simp
      · intro sw' hmem
        exact (h.tasks sw' (same_tasks hcap.same rfl hmem)).mono hl
  | finish a hs' =>
    rw [hs'.2] at hfirst
    exact h.keep (same_waiters _) (fun _ => id) (loops_below hs'.2 rfl fun _ => id) hfirst.tail
  | @launch f rest u q hs' hq ht =>
    refine h.keep (same_waiters _) (take_tasks hq) (fun f hf _ => List.mem_append_right _ hf) ?_
    cases u with
    | main sw => exact hfirst.start (h.tasks sw (by simp [hq]))
    | fiber sw => exact (hfirst.cons (f := .handler (.fiber sw)) nofun).cons nofun
    | promiseFiber sw p => exact (hfirst.cons (f := .handler (.promise sw p)) nofun).cons nofun
    | element p => exact (hfirst.cons (f := .settles p) nofun).cons nofun
    | _ => cases ht
  | @resume f rest segment hd k a q hs' hq hk =>
    refine h.keep (same_waiters _) (take_tasks hq) (fun f hf _ => List.mem_append_right _ hf) ?_
    obtain ⟨b, gs, rfl, hgs⟩ := (hs.control.captured_resume hs.agreed hq hk).shape
    refine hfirst.resume hd (.body b :: gs) ?_
    intro g hg
    rcases List.mem_cons.mp hg with rfl | hg
    · rfl
    · exact hgs g hg
  | resumeTwice hs' hq hk =>
    exact h.keep (same_waiters _) (take_tasks hq) (fun f hf _ => List.mem_append_right _ hf)
      hfirst.wrapper
  | stillPending hs' hq ho =>
    exact h.keep (same_waiters _) (take_tasks hq) (fun f hf _ => hf) hfirst
  | breakLoop hs' hl =>
    obtain ⟨v, hv⟩ := ha.loop hs' hl
    cases hv
  | @endMain a sw rest hs' =>
    rw [hs'.2] at hfirst
    exact h.keep (by rw [State.endMain_book]; exact same_waiters _)
      (by rw [State.endMain_book]; exact fun _ => id)
      (loops_below hs'.2 rfl fun _ => id) hfirst.tail
  | endFiber hs' =>
    rw [hs'.2] at hfirst
    exact covers_of_scheduler (List.mem_cons_self ..) (hfirst.tail.cons nofun)
  | endPromise hs' =>
    rw [hs'.2] at hfirst
    exact covers_of_scheduler (List.mem_cons_self ..) (hfirst.tail.cons nofun)
  | @endElement a p rest o hs' ho =>
    rw [hs'.2] at hfirst
    refine h.keep ?_ (fun _ => same_tasks (same_settle hs.agreed p o) rfl)
      (loops_below hs'.2 rfl fun _ => id) hfirst.tail
    rw [Book.ioWaiters_settle]
    exact same_waiters _
  | exitScheduler hs' hq hio hf =>
    rw [hs'.2.1] at hfirst
    refine ⟨?_, ?_, hfirst.tail⟩
    · intro w hw
      rw [hio] at hw
      cases hw
    · intro sw hmem
      rw [hq] at hmem
      cases hmem
  | @exitMain sw rest hs' hq hr =>
    rw [hs'.2.1] at hfirst
    refine ⟨?_, ?_, hfirst.tail.cons nofun⟩
    · intro w hw
      have hcov := h.waiters w hw
      rw [hs'.2.1] at hcov
      rcases hcov with ⟨sw', hsw'⟩ | ⟨sw', hmain, hsw'⟩
      · have hrest : Frame.scheduler sw' ∈ rest := by simpa using hsw'
        exact .inl ⟨sw', List.mem_cons_of_mem _ hrest⟩
      · rcases List.mem_cons.mp hsw' with heq | hrest
        · -- the run that is left has no waiter of its own
          exfalso
          cases heq
          obtain ⟨hlt, hnot⟩ := waiter_not_ended hs hb hcount hw hmain
          exact hnot (ended_of_exit ha hcount hlt hr)
        · exact .inr ⟨sw', hmain, List.mem_cons_of_mem _ hrest⟩
    · intro sw' hmem
      have hmem' : Task.main sw' ∈ s.book.runQueue := hmem
      rw [hq] at hmem'
      cases hmem'
  | @runHook sw n hooks rest hm hst =>
    rw [hst] at hfirst
    have hcleanup : Firsts (.cleanup sw hooks :: rest) := hfirst.tail.cons nofun
    refine h.keep (same_waiters _) (fun _ => id) (loops_below hst rfl ?_) (hcleanup.cons nofun)
    exact fun f hf => List.mem_cons_of_mem _ (List.mem_cons_of_mem _ hf)
  | exitCleanup hm hst =>
    rw [hst] at hfirst
    exact h.keep (same_waiters _) (fun _ => id) (loops_below hst rfl fun _ => id) hfirst.tail
  | _ => exact h.keep (same_waiters _) (fun _ => id) (fun _ hf _ => hf) hfirst

/-! ### Switches that exist -/

/-- The loops of runs belong to switches that have been created. -/
structure Known (s : State W) : Prop where
  stack : ∀ sw, .mainScheduler sw ∈ s.stack → sw < s.nextSwitch
  segments : ∀ sw segment, some segment ∈ s.segments → .mainScheduler sw ∈ segment →
    sw < s.nextSwitch

theorem Known.keep (h : Known s) (hn : t.nextSwitch = s.nextSwitch) (hseg : t.segments = s.segments)
    (hst : ∀ sw, .mainScheduler sw ∈ t.stack → .mainScheduler sw ∈ s.stack) : Known t :=
  ⟨fun sw hmem => hn ▸ h.stack sw (hst sw hmem),
    fun sw segment hmem hsw => hn ▸ h.segments sw segment (hseg ▸ hmem) hsw⟩

theorem not_mem_wrapper (h : Handler) (sw : ℕ) : Frame.mainScheduler sw ∉ wrapper h := by
  cases h <;> simp [wrapper]

theorem not_mem_frames (u : Task) (sw : ℕ) : Frame.mainScheduler sw ∉ u.frames := by
  cases u <;> simp [Task.frames]

theorem Shift.known {c : List Frame → Handler → List Frame → Prop} (hsh : Shift c s t)
    (h : Known s) : Known t := by
  cases hsh with
  | switchRun hs =>
    refine ⟨?_, ?_⟩
    · intro sw hmem
      rcases List.mem_cons.mp hmem with heq | hmem
      · cases heq
        exact Nat.lt_succ_self _
      · exact Nat.lt_succ_of_lt (h.stack sw hmem)
    · intro sw segment hmem hsw
      exact Nat.lt_succ_of_lt (h.segments sw segment hmem hsw)
  | @suspend b fs segment rest eff hd book w hs hsplit hc hcap =>
    obtain ⟨happ, -⟩ := splitHandler_spec hsplit
    have hrest : ∀ sw, Frame.mainScheduler sw ∈ rest → sw < s.nextSwitch := by
      intro sw hmem
      exact h.stack sw (happ ▸ List.mem_append_right _ hmem)
    have hsegs : ∀ sw segment', some segment' ∈ s.segments ++ [some segment] →
        Frame.mainScheduler sw ∈ segment' → sw < s.nextSwitch := by
      intro sw segment' hmem hsw
      rcases List.mem_append.mp hmem with hmem | hmem
      · exact h.segments sw segment' hmem hsw
      · have heq := List.mem_singleton.mp hmem
        simp only [Option.some.injEq] at heq
        subst heq
        exact h.stack sw (happ ▸ List.mem_append_left _ hsw)
    cases hd with
    | main sw => exact ⟨hrest, hsegs⟩
    | fiber sw => exact ⟨fun sw' hmem => hrest sw' (by simpa [State.leave] using hmem), hsegs⟩
    | promise sw p => exact ⟨fun sw' hmem => hrest sw' (by simpa [State.leave] using hmem), hsegs⟩
  | finish a hs =>
    exact h.keep rfl rfl fun sw hmem => hs.2 ▸ List.mem_cons_of_mem _ hmem
  | @launch f rest u q hs hq ht =>
    refine h.keep rfl rfl ?_
    intro sw hmem
    rcases List.mem_append.mp hmem with hmem | hmem
    · exact absurd hmem (not_mem_frames u sw)
    · exact hmem
  | @resume f rest segment hd k a q hs hq hk =>
    refine ⟨?_, ?_⟩
    · intro sw hmem
      rcases List.mem_append.mp hmem with hmem | hmem
      · rcases List.mem_append.mp hmem with hmem | hmem
        · exact h.segments sw segment (List.mem_iff_getElem?.mpr ⟨k, hk⟩) hmem
        · exact absurd hmem (not_mem_wrapper hd sw)
      · exact h.stack sw hmem
    · intro sw segment' hmem hsw
      rcases List.mem_or_eq_of_mem_set hmem with hmem | heq
      · exact h.segments sw segment' hmem hsw
      · cases heq
  | @resumeTwice f rest hd k a q hs hq hk =>
    refine h.keep rfl rfl ?_
    intro sw hmem
    rcases List.mem_append.mp hmem with hmem | hmem
    · exact absurd hmem (not_mem_wrapper hd sw)
    · exact hmem
  | breakLoop hs hl =>
    exact h.keep rfl rfl fun sw hmem => hs.2 ▸ List.mem_cons_of_mem _ hmem
  | @endMain a sw rest hs =>
    refine h.keep (by cases a <;> rfl) (by cases a <;> rfl) ?_
    exact fun sw' hmem => hs.2 ▸ List.mem_cons_of_mem _ hmem
  | endFiber hs =>
    exact h.keep rfl rfl fun sw hmem => by simpa [hs.2] using hmem
  | endPromise hs =>
    exact h.keep rfl rfl fun sw hmem => by simpa [hs.2] using hmem
  | endElement hs ho =>
    exact h.keep rfl rfl fun sw hmem => hs.2 ▸ List.mem_cons_of_mem _ hmem
  | exitScheduler hs hq hio hf =>
    exact h.keep rfl rfl fun sw hmem => hs.2.1 ▸ List.mem_cons_of_mem _ hmem
  | exitMain hs hq hr =>
    refine h.keep rfl rfl fun sw hmem => ?_
    rcases List.mem_cons.mp hmem with heq | hmem
    · cases heq
    · exact hs.2.1 ▸ List.mem_cons_of_mem _ hmem
  | runHook hm hst =>
    exact h.keep rfl rfl fun sw hmem => by simpa [hst] using hmem
  | exitCleanup hm hst =>
    exact h.keep rfl rfl fun sw hmem => hst ▸ List.mem_cons_of_mem _ hmem
  | _ => exact h.keep rfl rfl fun _ => id

/-! ### Runs -/

structure MainInv (s : State W) : Prop where
  sane : Sane s
  balanced : Balanced s.book
  answers : Answers s
  counted : Counted s
  known : Known s

theorem mainInv_initial (world : W) : MainInv (State.initial world) where
  sane := sane_initial world
  balanced L := Nat.le_of_eq (L.total_initial world)
  answers := answers_initial world
  counted := counted_initial world
  known := by
    constructor
    · intro sw hmem
      simp [State.initial] at hmem
    · intro sw segment hmem
      simp [State.initial] at hmem

theorem Balanced.moves {b b' : Book} (h : Balanced b) (hm : Moves b b') : Balanced b' := by
  intro L
  refine hm.keeps (p := fun b => L.total b ≤ L.due b) ?_ (h L)
  intro b b' hb hmove
  have htotal := Ledger.total_move (L := L) hmove
  omega

theorem Balanced.drop {b : Book} (h : Balanced b) (sock : ℤ) : Balanced (b.dropWaiters sock) := by
  intro L
  have hdrop := Ledger.total_drop (L := L) (b := b) sock
  have hd : L.due (b.dropWaiters sock) = L.due b := rfl
  have hL := h L
  omega

theorem Shift.mainInv (hsh : CalmShift s t) (h : MainInv s) : MainInv t := by
  have hlog := fun e => hsh.extends.log (e := e)
  have hmono : ∀ sw, s.EndedMain sw → t.EndedMain sw := fun sw ⟨a, he⟩ => ⟨a, hlog _ he⟩
  exact ⟨hsh.sane h.sane, h.balanced.moves hsh.moves,
    hsh.answers h.sane h.balanced h.answers,
    h.counted.flow (hsh.flow h.sane.agreed) h.answers hmono, hsh.known h.known⟩

theorem MainInv.closed (h : MainInv s) (sock : ℤ) (w : W) {b : Body} {rest : List Frame}
    (hs : s.Program b rest) : MainInv (s.closed sock w) where
  sane := h.sane.closed sock w hs
  balanced := h.balanced.drop sock
  answers := .toProgram (fun _ ht => h.answers.kept ht) hs.2
  counted := ⟨h.counted.main, h.counted.fibers, h.counted.fresh⟩
  known := h.known.keep rfl rfl fun _ => id

end

/-! ### Leaving the loop -/

section

variable {X : Externals W} {s t : State W} {a : Act} {sw : ℕ} {rest : List Frame}

theorem startTask_stack (u : Task) : s.stack <:+ (startTask X s u).stack := by
  cases u with
  | waker p h k =>
    simp only [startTask]
    split <;> exact List.suffix_rfl
  | resume h k a =>
    simp only [startTask]
    split
    · exact List.suffix_append ..
    · exact List.suffix_append ..
  | main sw => exact List.suffix_append [_, _] _
  | fiber sw => exact List.suffix_append [_, _] _
  | promiseFiber sw p => exact List.suffix_append [_, _] _
  | element p => exact List.suffix_append [_, _] _
  | wake op sock h k => exact List.suffix_rfl
  | onTimeout op sock h k => exact List.suffix_rfl

/-- A round that leaves its loop has found no task. -/
theorem round_left {done : State W → State W} (hleft : ¬ s.stack <:+ (round X s done).stack) :
    (s.pass X).book.runQueue = [] ∧ round X s done = done (s.pass X) := by
  simp only [round] at hleft ⊢
  split at hleft
  · rename_i u q hqueue
    refine absurd ?_ hleft
    exact startTask_stack (X := X) (s := { s.pass X with book := (s.pass X).book.take u q }) u
  · rename_i hqueue
    exact ⟨hqueue, rfl⟩

/-- The loop of a run is left by an exception, or after a pass that has found no task. -/
theorem loop_left (h : Step X s a t) (hs : s.stack = .mainScheduler sw :: rest)
    (hleft : ¬ s.stack <:+ t.stack) :
    (∃ e, s.Returns (.exn e) (.mainScheduler sw) rest) ∨
    ((s.pass X).book.runQueue = [] ∧
      ((s.switches sw).result ≠ none ∨ (s.switches sw).exnRef ≠ none ∨
        ((s.switches sw).fibers ≤ 0 ∧ (s.pass X).book.ioWaiters = [])) ∧
      t = finishMain (s.pass X) sw rest) := by
  obtain ⟨he, rfl⟩ := h
  by_cases ha : a = .go
  · subst ha
    have hmode : (∃ x, s.mode = .ret x) ∨ s.mode = .run := by cases s.mode <;> simp
    rcases hmode with ⟨x, hm⟩ | hm
    · left
      cases x with
      | exn e => exact ⟨e, hm, hs⟩
      | value v => exact absurd (by simp [next, go, hm, hs, deliver]) hleft
    · right
      have hgo : next X s .go = mainSchedulerRound X s sw rest := by simp only [next, go, hm, hs]
      rw [hgo] at hleft ⊢
      obtain ⟨hempty, heq⟩ := round_left hleft
      refine ⟨hempty, ?_⟩
      rw [mainSchedulerRound, heq] at hleft ⊢
      split at hleft
      · rename_i hr
        exact ⟨hr.elim .inl fun he => .inr (.inl he), if_pos hr⟩
      · rename_i hr
        split at hleft
        · exact absurd List.suffix_rfl hleft
        · rename_i hf
          push Not at hf
          refine ⟨.inr (.inr hf), ?_⟩
          rw [if_neg hr, if_neg (by push Not; exact hf)]
  · obtain ⟨⟨b, fs, hprog⟩, -⟩ := enabled_program he ha
    cases hs.symm.trans hprog.2

end

/-! ### The function of a run -/

/-- If the step suspends code of the program, its continuation passes the test. -/
def onSuspension (c : List Frame → Handler → List Frame → Bool) (X : Externals W) (s : State W) :
    Act → Bool
  | .perform eff =>
    match splitHandler s.stack with
    | some (segment, h, rest) => !suspends X s h eff || c segment h rest
    | none => true
  | _ => true

/-- A step that leaves the loop of a run finds the main fiber at its end and the queue empty,
and no step makes a run return a value otherwise. -/
structure CompletesMain (s t : State W) : Prop where
  leaves : ∀ sw rest, s.stack = .mainScheduler sw :: rest → ¬ s.stack <:+ t.stack →
    t.EndedMain sw ∧ t.book.runQueue = []
  returns : ∀ sw rest v, s.stack = .cleanup sw [] :: rest → t.stack = rest →
    t.mode = .ret (.value v) → t.EndedMain sw

/-- A step that leaves the loop of a top-level run leaves no continuation in `io_waiters`. -/
def LeavesNoWaiter (s t : State W) : Prop :=
  ∀ sw rest, s.stack = .mainScheduler sw :: rest → (∀ f ∈ rest, f.loop = false) →
    ¬ s.stack <:+ t.stack → t.book.ioWaiters = []

section

variable {X : Externals W} {s t : State W} {a : Act} {xs : List (Act × State W)}

theorem step_calmShifts {c : List Frame → Handler → List Frame → Bool} (h : Step X s a t)
    (hc : onSuspension c X s a = true) :
    Shifts (fun segment hd rest => c segment hd rest = true) s t ∨
      ∃ sock w, Closes s a sock ∧ t = s.closed sock w := by
  refine step_shifts h ?_
  rintro eff segment hd rest rfl hsplit hsus
  simpa [onSuspension, hsplit, hsus] using hc

theorem step_mainInv (h : Step X s a t) (hc : onSuspension calm X s a = true) (hi : MainInv s) :
    MainInv t := by
  rcases step_calmShifts h hc with hm | ⟨sock, w, hcl, rfl⟩
  · exact hm.keeps (fun _ _ hp hsh => hsh.mainInv hp) hi
  · obtain ⟨b, rest, hs⟩ := closes_program h hcl
    exact hi.closed sock w hs

/-- A run returns a value when its `result` has been set. -/
theorem returned {sw : ℕ} {rest : List Frame} {v : Val} (h : Step X s a t)
    (hs : s.stack = .cleanup sw [] :: rest) (hv : t.mode = .ret (.value v)) :
    t.book = s.book ∧ (s.switches sw).result ≠ none := by
  obtain ⟨he, rfl⟩ := h
  by_cases ha : a = .go
  · subst ha
    cases hm : s.mode with
    | ret x =>
      have hrun : (next X s .go).mode = .run := by simp [next, go, hm, hs, deliver]
      cases hrun.symm.trans hv
    | run =>
      have hgo : next X s .go = cleanupRound s sw rest [] := by simp only [next, go, hm, hs]
      rw [hgo] at hv ⊢
      refine ⟨rfl, ?_⟩
      intro hnone
      cases he : (s.switches sw).exnRef <;> simp [cleanupRound, runAnswer, hnone, he] at hv
  · obtain ⟨⟨b, fs, hprog⟩, -⟩ := enabled_program he ha
    cases hs.symm.trans hprog.2

theorem completesMain (h : Step X s a t) (hi : MainInv s) : CompletesMain s t := by
  constructor
  · intro sw rest hs hleft
    rcases loop_left h hs hleft with ⟨e, hret⟩ | ⟨hempty, hr, rfl⟩
    · -- no exception reaches a loop
      obtain ⟨v, hv⟩ := hi.answers.loop hret rfl
      cases hv
    · have hu : MainInv (s.pass X) := Shift.mainInv pass_shift hi
      have hsw : sw < s.nextSwitch := hi.known.stack sw (hs ▸ List.mem_cons_self ..)
      exact ⟨ended_of_exit hu.answers hu.counted hsw hr, hempty⟩
  · intro sw rest v hs ht hv
    obtain ⟨hbook, hresult⟩ := returned h hs hv
    have hended : s.EndedMain sw := hi.answers.kept (.inl hresult)
    simpa only [State.EndedMain, hbook] using hended

/-! ### Waiters of a top-level run -/

theorem Shift.calm (h : LooplessShift s t) : CalmShift s t := by
  refine h.imp ?_
  intro segment hd rest hc
  exact hc.1

theorem step_covers (h : Step X s a t) (hc : onSuspension calm X s a = true)
    (hl : onSuspension loopless X s a = true) (hi : MainInv s) (hcov : Covers s) :
    Covers t := by
  have hboth : onSuspension (fun segment hd rest => calm segment hd rest && loopless segment hd rest)
      X s a = true := by
    cases a with
    | perform eff =>
      simp only [onSuspension] at hc hl ⊢
      split
      · rename_i segment hd rest hsplit
        simp only [hsplit] at hc hl
        grind
      · rfl
    | _ => rfl
  rcases step_calmShifts h hboth with hm | ⟨sock, w, hcl, rfl⟩
  · refine (hm.keeps (p := fun u => MainInv u ∧ Covers u) ?_ ⟨hi, hcov⟩).2
    rintro u v ⟨hu, hcu⟩ hsh
    have hsh' : LooplessShift u v := hsh.imp fun _ _ _ => by simp
    exact ⟨hsh'.calm.mainInv hu,
      hsh'.covers hu.sane hu.balanced hu.answers hu.counted hcu⟩
  · exact hcov.keep (fun v hv => ⟨v, List.mem_of_mem_filter hv, rfl⟩) (fun _ => id)
      (fun _ hf _ => hf) hcov.first

theorem covers_initial (world : W) : Covers (State.initial world) := by
  refine ⟨by simp [State.initial, Book.empty], by simp [State.initial, Book.empty], ?_⟩
  intro sw rest hsuf
  have hlen := hsuf.length_le
  simp [State.initial] at hlen

theorem leavesNoWaiter (h : Step X s a t) (hi : MainInv s) (hcov : Covers s) :
    LeavesNoWaiter s t := by
  intro sw rest hs hrest hleft
  rcases loop_left h hs hleft with ⟨e, hret⟩ | ⟨hempty, hr, rfl⟩
  · obtain ⟨v, hv⟩ := hi.answers.loop hret rfl
    cases hv
  · have hu : MainInv (s.pass X) := Shift.mainInv pass_shift hi
    have hcu : Covers (s.pass X) :=
      Shift.covers pass_shift hi.sane hi.balanced hi.answers hi.counted hcov
    have hsw : sw < s.nextSwitch := hi.known.stack sw (hs ▸ List.mem_cons_self ..)
    have hended := ended_of_exit hu.answers hu.counted hsw hr
    refine List.eq_nil_iff_forall_not_mem.mpr ?_
    intro v hv
    -- the loop that waits for this waiter is the one that is left
    rcases hcu.waiters v hv with ⟨sw', hmem⟩ | ⟨sw', hmain, hmem⟩
    · have hmem' : Frame.scheduler sw' ∈ Frame.mainScheduler sw :: rest := hs ▸ hmem
      have hin : Frame.scheduler sw' ∈ rest := by simpa using hmem'
      cases hrest _ hin
    · have hmem' : Frame.mainScheduler sw' ∈ Frame.mainScheduler sw :: rest := hs ▸ hmem
      rcases List.mem_cons.mp hmem' with heq | hin
      · cases heq
        exact (waiter_not_ended hu.sane hu.balanced hu.counted hv hmain).2 hended
      · cases hrest _ hin

/-- In every run in which no main fiber is suspended while its handler runs inside another one
of its run, a loop is left, and a value returned, only when the main fiber has ended; if moreover
no loop is suspended with a main fiber, no waiter is left behind by a top-level run. -/
theorem main_completes {world : W} (h : Lts.Run (Step X) (State.initial world) xs)
    (hc : Lts.Run (fun s a _ => onSuspension calm X s a = true) (State.initial world) xs) :
    Lts.Run (fun s _ t => CompletesMain s t) (State.initial world) xs ∧
    (Lts.Run (fun s a _ => onSuspension loopless X s a = true) (State.initial world) xs →
      Lts.Run (fun s _ t => LeavesNoWaiter s t) (State.initial world) xs) := by
  have hboth := Lts.run_and.mpr ⟨h, hc⟩
  constructor
  · refine (hboth.keeps (mainInv_initial world) ?_).2
    rintro s a t hi ⟨hs, hcalm⟩
    exact ⟨step_mainInv hs hcalm hi, completesMain hs hi⟩
  · intro hl
    refine ((Lts.run_and.mpr ⟨hboth, hl⟩).keeps (p := fun s => MainInv s ∧ Covers s)
      ⟨mainInv_initial world, covers_initial world⟩ ?_).2
    rintro s a t ⟨hi, hcov⟩ ⟨⟨hs, hcalm⟩, hloop⟩
    exact ⟨⟨step_mainInv hs hcalm hi, step_covers hs hcalm hloop hi hcov⟩,
      leavesNoWaiter hs hi hcov⟩

/-- The main fiber connects, which suspends it once, and ends. -/
def connectOnce : List Act :=
  [.switchRun, .go, .perform (.net (.tcpConnect "10.0.0.1" 80)), .go, .go, .go, .go, .ret .unit,
    .go, .go, .go, .go, .go]

theorem main_completes_connect :
    Lts.Run (fun s _ t => CompletesMain s t) (State.initial ())
      (Lts.trace (next quiet) (State.initial ()) connectOnce) ∧
    (Lts.Run (fun s a _ => onSuspension loopless quiet s a = true) (State.initial ())
      (Lts.trace (next quiet) (State.initial ()) connectOnce) →
      Lts.Run (fun s _ t => LeavesNoWaiter s t) (State.initial ())
        (Lts.trace (next quiet) (State.initial ()) connectOnce)) :=
  main_completes (X := quiet) (Lts.run_accepts Enabled (by decide))
    ((Lts.run_accepts (onSuspension calm quiet) (by decide)).imp fun _ _ _ h => h.1)

/-- The main fiber connects and then reads: it is suspended a second time. -/
def connectAndRead : List Act :=
  [.switchRun, .go, .perform (.net (.tcpConnect "10.0.0.1" 80)), .go, .go, .go, .go,
    .perform (.net (.tcpRead 0)), .go, .go, .go, .go]

/-- The run returns unit while its main fiber waits for data. -/
theorem main_left_reading : ∃ xs, Lts.Run (Step quiet) (State.initial ()) xs ∧
    ¬ Lts.Run (fun s _ t => CompletesMain s t) (State.initial ()) xs ∧
    (Lts.last (State.initial ()) xs).stack = [.body .top] ∧
    (Lts.last (State.initial ()) xs).mode = .ret (.value .unit) ∧
    (Lts.last (State.initial ()) xs).book.ioWaiters ≠ [] := by
  refine ⟨Lts.trace (next quiet) (State.initial ()) connectAndRead,
    Lts.run_accepts Enabled (by decide), ?_, ?_, ?_, ?_⟩
  · intro hrun
    have hsplit : connectAndRead = connectAndRead.dropLast ++ [.go] := rfl
    rw [hsplit, Lts.trace_append, Lts.run_append, Lts.last_trace] at hrun
    obtain ⟨a, hlog⟩ := hrun.2.1.returns 0 [.body .top] .unit (by decide) (by decide) (by decide)
    have hnone : (connectAndRead.foldl (next quiet) (State.initial ())).book.log.all
        (fun e => !e.ends (.main 0)) = true := by decide
    have hends := List.all_eq_true.mp hnone _ hlog
    simp [Event.ends] at hends
  · rw [Lts.last_trace]
    decide
  · rw [Lts.last_trace]
    decide
  · rw [Lts.last_trace]
    decide

end

end PicoOcaml.Pio
