import PicoOcaml.Pio.Control
import PicoOcaml.Pio.Ledger

/-! Where the frames of the program are: waiting to be started, on the stack, or captured. -/
namespace PicoOcaml.Pio

/-- Frames that come and go with no code of the program: loops, hooks, handlers of main fibers. -/
def Frame.ofLibrary : Frame → Bool
  | .scheduler _ | .mainScheduler _ | .cleanup _ _ | .handler (.main _) => true
  | .body .top | .body (.hook _ _) => true
  | _ => false

/-- Weights for the frames of the program. -/
structure Census where
  frame : Frame → ℕ
  library : ∀ f, f.ofLibrary = true → frame f = 0

namespace Census

variable (w : Census)

def frames (fs : List Frame) : ℕ := (fs.map w.frame).sum

def task (t : Task) : ℕ := w.frames t.frames

def segment (o : Option (List Frame)) : ℕ := w.frames (o.getD [])

variable {W : Type*}

/-- The frames that wait in the queue, stand on the stack or are captured. -/
def load (s : State W) : ℕ :=
  (s.book.runQueue.map w.task).sum + w.frames s.stack + (s.segments.map w.segment).sum

variable {w}

@[simp] theorem frames_nil : w.frames [] = 0 := rfl

@[simp] theorem frames_cons (f : Frame) (fs : List Frame) :
    w.frames (f :: fs) = w.frame f + w.frames fs := by
  simp [frames]

@[simp] theorem frames_append (fs gs : List Frame) :
    w.frames (fs ++ gs) = w.frames fs + w.frames gs := by
  simp [frames]

theorem frame_loop {f : Frame} (h : f.loop = true) : w.frame f = 0 := by
  apply w.library
  cases f with
  | scheduler sw => rfl
  | mainScheduler sw => rfl
  | _ => cases h

theorem frames_wrapper (h : Handler) : w.frames (wrapper h) = 0 := by
  cases h with
  | main sw => simp [wrapper, w.library (.handler (.main sw)) rfl]
  | _ => rfl

theorem task_of_not_starts {t : Task} (h : t.starts = false) : w.task t = 0 := by
  cases t with
  | main sw => cases h
  | fiber sw => cases h
  | promiseFiber sw p => cases h
  | element p => cases h
  | _ => rfl

theorem sum_task_filter (q : List Task) :
    (q.map w.task).sum = ((q.filter Task.starts).map w.task).sum := by
  induction q with
  | nil => rfl
  | cons t q ih =>
    by_cases ht : t.starts = true
    · rw [List.filter_cons_of_pos ht, List.map_cons, List.map_cons, List.sum_cons, List.sum_cons, ih]
    · rw [List.filter_cons_of_neg ht, List.map_cons, List.sum_cons, ih,
        task_of_not_starts (by simpa using ht), Nat.zero_add]

theorem sum_task_same {b b' : Book} (h : SameProgram b b') :
    (b'.runQueue.map w.task).sum = (b.runQueue.map w.task).sum := by
  rw [sum_task_filter, h.queue, ← sum_task_filter]

end Census

/-- Where one frame is. -/
def Census.only (f : Frame) (hf : f.ofLibrary = false) : Census where
  frame g := if g = f then 1 else 0
  library g hg := by
    split
    · rename_i h
      rw [h, hf] at hg
      cases hg
    · rfl

variable {W : Type*}

/-- What the history says of the program. -/
def State.program (s : State W) : List Event := s.book.log.filter Event.ofProgram

def State.fibers (s : State W) (sw : ℕ) : ℤ := (s.switches sw).fibers

/-- The switch of a forked fiber. -/
def Task.switch : Task → Option ℕ
  | .fiber sw | .promiseFiber sw _ => some sw
  | _ => none

/-- The promise that is created for a task. -/
def Task.promise : Task → Option ℕ
  | .promiseFiber _ p | .element p => some p
  | _ => none

/-- The switch of the fiber that ends with the frame. -/
def Frame.switch : Frame → Option ℕ
  | .handler (.fiber sw) | .handler (.promise sw _) => some sw
  | _ => none

/-- What one shift does to the frames of the program, its history and the counts of fibers. -/
inductive Flow (s t : State W) : Prop
  | still : t.nextSwitch = s.nextSwitch → (∀ w : Census, w.load t = w.load s) →
      t.program = s.program → (∀ sw, t.fibers sw = s.fibers sw) → Flow s t
  | issue (u : Task) : t.nextSwitch = s.nextSwitch → u.starts = true → (∀ sw, u ≠ .main sw) →
      (∀ sw, u.switch = some sw → sw < s.nextSwitch) →
      (∀ p, u.promise = some p → p = s.book.promises.length ∧ p < t.book.promises.length) →
      (∀ w : Census, w.load t = w.load s + w.task u) → t.program = s.program ++ [.enqueued u] →
      (∀ sw, t.fibers sw = s.fibers sw + if u.switch = some sw then 1 else 0) → Flow s t
  | run : t.nextSwitch = s.nextSwitch + 1 →
      (∀ w : Census, w.load t = w.load s + w.task (.main s.nextSwitch)) →
      t.program = s.program ++ [.enqueued (.main s.nextSwitch)] →
      (∀ sw, t.fibers sw = if sw = s.nextSwitch then 1 else s.fibers sw) → Flow s t
  | ended (b : Body) (a : Answer) : t.nextSwitch = s.nextSwitch →
      (∀ w : Census, w.load t + w.frame (.body b) = w.load s) →
      t.program = s.program ++ [.ended b a] → (∀ sw, t.fibers sw = s.fibers sw) →
      s.Program b t.stack → Flow s t
  | done (f : Frame) (a : Answer) (rest : List Frame) : t.nextSwitch = s.nextSwitch →
      s.Returns a f rest → f.ofBody ≠ none → (∀ w : Census, w.load t + w.frame f = w.load s) →
      t.program = s.program → (∀ sw, t.fibers sw = s.fibers sw - if f.switch = some sw then 1 else 0) →
      Flow s t
  | mainDone (a : Answer) (sw : ℕ) (rest : List Frame) : t.nextSwitch = s.nextSwitch →
      s.Returns a (.handler (.main sw)) rest → (∀ w : Census, w.load t = w.load s) →
      t.program = s.program →
      (∀ sw', t.fibers sw' = s.fibers sw' - if sw' = sw then 1 else 0) → Flow s t

section

variable {s t : State W}

theorem fibers_setSwitch (sw sw' : ℕ) (f : Switch → Switch) :
    (s.setSwitch sw f).fibers sw' = if sw' = sw then (f (s.switches sw)).fibers else s.fibers sw' := by
  by_cases h : sw' = sw
  · subst h
    simp [State.fibers, State.setSwitch]
  · simp [State.fibers, State.setSwitch, h]

theorem fibers_addFibers (sw sw' : ℕ) (n : ℤ) :
    (s.addFibers sw n).fibers sw' = s.fibers sw' + if sw' = sw then n else 0 := by
  rw [State.addFibers, fibers_setSwitch]
  by_cases h : sw' = sw
  · subst h
    simp [State.fibers]
  · simp [h]

theorem fibers_fiberDone (sw sw' : ℕ) :
    (s.fiberDone sw).fibers sw' = s.fibers sw' - if sw' = sw then 1 else 0 := by
  rw [State.fiberDone, fibers_addFibers]
  split <;> omega

/-- Other data of a switch than its count changes. -/
theorem fibers_setSwitch_same {f : Switch → Switch} (hf : ∀ w, (f w).fibers = w.fibers) (sw sw' : ℕ) :
    (s.setSwitch sw f).fibers sw' = s.fibers sw' :=
  switch_update Switch.fibers (by rfl) (hf _)

theorem fibers_keepAnswer (sw sw' : ℕ) (a : Answer) :
    (s.keepAnswer sw a).fibers sw' = s.fibers sw' := by
  cases a with
  | value v =>
    unfold State.keepAnswer
    apply fibers_setSwitch_same
    exact fun _ => rfl
  | exn e =>
    unfold State.keepAnswer
    apply fibers_setSwitch_same
    exact fun _ => rfl

/-- Neither the queue nor the captured continuations change for the program. -/
theorem load_same {w : Census} (hb : SameProgram s.book t.book) (hseg : t.segments = s.segments) :
    w.load t + w.frames s.stack = w.load s + w.frames t.stack := by
  simp only [Census.load, Census.sum_task_same hb, hseg]
  omega

theorem program_same (hb : SameProgram s.book t.book) : t.program = s.program := hb.log

theorem mem_program {e : Event} (he : e.ofProgram = true) : e ∈ s.program ↔ e ∈ s.book.log := by
  simp [State.program, List.mem_filter, he]

/-- A shift of frames that belong to the library. -/
theorem Flow.quietly (hn : t.nextSwitch = s.nextSwitch) (hb : SameProgram s.book t.book)
    (hseg : t.segments = s.segments) (hstack : ∀ w : Census, w.frames t.stack = w.frames s.stack)
    (hfib : ∀ sw, t.fibers sw = s.fibers sw) : Flow s t := by
  refine .still hn ?_ (program_same hb) hfib
  intro w
  have h := load_same (w := w) hb hseg
  have hst := hstack w
  omega

theorem same_refl (b : Book) : SameProgram b b := ⟨rfl, rfl⟩

theorem queue_append {w : Census} (q : List Task) (u : Task) :
    ((q ++ [u]).map w.task).sum = (q.map w.task).sum + w.task u := by
  simp

theorem program_append {b : Book} {u : Task} (hu : u.starts = true) :
    (b.enqueue u).log.filter Event.ofProgram = b.log.filter Event.ofProgram ++ [.enqueued u] := by
  simp [Book.enqueue, Book.enqueueAll, List.filter_append, Event.ofProgram, hu]

/-- A task of the program is queued. -/
theorem Flow.queues {b : Book} {u : Task} (hb : t.book = b.enqueue u)
    (hq : b.runQueue = s.book.runQueue) (hlog : b.log = s.book.log) (hstack : t.stack = s.stack)
    (hseg : t.segments = s.segments) (hn : t.nextSwitch = s.nextSwitch) (hu : u.starts = true)
    (hmain : ∀ sw, u ≠ .main sw) (hsw : ∀ sw, u.switch = some sw → sw < s.nextSwitch)
    (hp : ∀ p, u.promise = some p → p = s.book.promises.length ∧ p < t.book.promises.length)
    (hfib : ∀ sw, t.fibers sw = s.fibers sw + if u.switch = some sw then 1 else 0) : Flow s t := by
  refine .issue u hn hu hmain hsw hp ?_ ?_ hfib
  · intro w
    simp only [Census.load, hb, Book.enqueue, Book.enqueueAll, queue_append, hq, hstack, hseg]
    omega
  · have happ := program_append (b := b) hu
    rw [hlog] at happ
    simp only [State.program, hb, happ]

theorem fibers_fork (sw sw' : ℕ) : (s.addFibers sw 1).fibers sw' =
    s.fibers sw' + if some sw = some sw' then 1 else 0 := by
  have hf := fibers_addFibers (s := s) sw sw' 1
  simp only [Option.some.injEq, eq_comm (a := sw)]
  exact hf

theorem fibers_end (sw sw' : ℕ) : (s.fiberDone sw).fibers sw' =
    s.fibers sw' - if some sw = some sw' then 1 else 0 := by
  have hf := fibers_fiberDone (s := s) sw sw'
  simp only [Option.some.injEq, eq_comm (a := sw)]
  exact hf

/-- A fiber's scheduler, which comes in its place, weighs nothing. -/
theorem frames_leave {w : Census} (hd : Handler) (rest : List Frame) :
    w.frames (s.leave hd rest).stack = w.frames rest := by
  cases hd with
  | main sw => rfl
  | fiber sw => simp [State.leave, Census.frame_loop (f := .scheduler sw) rfl]
  | promise sw p => simp [State.leave, Census.frame_loop (f := .scheduler sw) rfl]

theorem Shift.flow {c : List Frame → Handler → List Frame → Prop} (h : Shift c s t)
    (ha : Agreed s.book) : Flow s t := by
  cases h with
  | quiet w hq => exact .quietly rfl (hq.same ha) rfl (fun _ => rfl) fun _ => rfl
  | world w => exact .quietly rfl (same_refl _) rfl (fun _ => rfl) fun _ => rfl
  | onRelease sw n =>
    refine .quietly rfl (same_refl _) rfl (fun _ => rfl) ?_
    intro sw'
    apply fibers_setSwitch_same
    exact fun _ => rfl
  | @fork sw hsw =>
    refine .queues (b := s.book) (u := .fiber sw) rfl rfl rfl rfl rfl rfl rfl ?_ ?_ ?_
      fun sw' => fibers_fork sw sw'
    · rintro sw' ⟨⟩
    · rintro sw' ⟨⟩
      exact hsw
    · rintro p ⟨⟩
  | @forkPromise sw hsw =>
    refine .queues (b := s.book.createPromise) (u := .promiseFiber sw s.book.promises.length)
      rfl rfl rfl rfl rfl rfl rfl ?_ ?_ ?_ fun sw' => fibers_fork sw sw'
    · rintro sw' ⟨⟩
    · rintro sw' ⟨⟩
      exact hsw
    · rintro p ⟨⟩
      exact ⟨rfl, by simp [Book.createPromise, Book.enqueue, Book.enqueueAll]⟩
  | element =>
    refine .queues (b := s.book.createPromise) (u := .element s.book.promises.length)
      rfl rfl rfl rfl rfl rfl rfl ?_ ?_ ?_ fun _ => (Int.add_zero _).symm
    · rintro sw' ⟨⟩
    · rintro sw' ⟨⟩
    · rintro p ⟨⟩
      exact ⟨rfl, by simp [Book.createPromise, Book.enqueue, Book.enqueueAll]⟩
  | switchRun hs =>
    refine .run rfl ?_ (program_append rfl) ?_
    · intro w
      simp only [Census.load, PicoOcaml.Pio.switchRun, Book.enqueue, Book.enqueueAll, queue_append,
        Census.frames_cons, Census.frame_loop (f := .mainScheduler _) rfl]
      omega
    · intro sw
      by_cases h : sw = s.nextSwitch
      · subst h
        simp [State.fibers, PicoOcaml.Pio.switchRun]
      · simp [State.fibers, PicoOcaml.Pio.switchRun, h]
  | reply a hs => exact .quietly rfl (same_refl _) rfl (fun _ => rfl) fun _ => rfl
  | @suspend b fs segment rest eff hd book w hs hsplit hc hcap =>
    obtain ⟨happ, -⟩ := splitHandler_spec hsplit
    have hb : SameProgram s.book book := hcap.same
    refine .still (State.leave_nextSwitch ..) ?_ ?_ ?_
    · intro u
      simp only [Census.load, frames_leave, State.leave_book, State.leave_segments, happ,
        Census.sum_task_same hb, List.map_append, List.sum_append, Census.frames_append,
        List.map_cons, List.map_nil, List.sum_cons, List.sum_nil, Census.segment, Option.getD_some]
      omega
    · simp only [State.program, State.leave_book]
      exact hb.log
    · intro sw
      simp only [State.fibers, State.leave_switches]
  | @finish b rest a hs =>
    refine .ended b a rfl ?_ ?_ (fun _ => rfl) hs
    · intro w
      simp only [Census.load, Book.note, hs.2, Census.frames_cons]
      omega
    · simp [State.program, Book.note, List.filter_append, Event.ofProgram]
  | @launch f rest u q hs hq ht =>
    refine .still rfl ?_ ?_ fun _ => rfl
    · intro w
      simp only [Census.load, push, Book.take, Book.note, hq, List.map_cons, List.sum_cons,
        Census.frames_append, Census.task]
      omega
    · simp [State.program, push, Book.take, Book.note, List.filter_append, Event.ofProgram]
  | @resume f rest segment hd k a q hs hq hk =>
    have hb : SameProgram s.book (s.book.take (.resume hd k a) q) := same_take hq rfl
    refine .still rfl ?_ (program_same hb) fun _ => rfl
    intro w
    have hset := sum_map_set (f := w.segment) (y := none) hk
    simp only [Census.segment, Option.getD_some, Option.getD_none, Census.frames_nil] at hset
    simp only [Census.load, Census.sum_task_same hb, Census.frames_append, Census.frames_wrapper]
    omega
  | resumeTwice hs hq hk =>
    refine .quietly rfl (same_take hq rfl) rfl ?_ fun _ => rfl
    intro w
    simp [Census.frames_wrapper]
  | stillPending hs hq ho =>
    exact .quietly rfl ((same_take hq rfl).trans (same_note rfl)) rfl (fun _ => rfl) fun _ => rfl
  | toBody hs => exact .quietly rfl (same_refl _) rfl (fun _ => rfl) fun _ => rfl
  | toCleanup hs => exact .quietly rfl (same_refl _) rfl (fun _ => rfl) fun _ => rfl
  | toLoop hs hl => exact .quietly rfl (same_refl _) rfl (fun _ => rfl) fun _ => rfl
  | breakLoop hs hl =>
    refine .quietly rfl (same_refl _) rfl ?_ fun _ => rfl
    intro w
    rw [hs.2, Census.frames_cons, Census.frame_loop hl, Nat.zero_add]
  | @endMain a sw rest hs =>
    have hsegs : ((s.keepAnswer sw a).fiberDone sw).segments = s.segments := keepAnswer_segments sw a
    have hn : ((s.keepAnswer sw a).fiberDone sw).nextSwitch = s.nextSwitch := by cases a <;> rfl
    refine .mainDone a sw rest hn hs ?_ ?_ ?_
    · intro w
      simp only [Census.load, State.endMain_book, hsegs, hs.2, Census.frames_cons,
        w.library (.handler (.main sw)) rfl]
      omega
    · simp only [State.program, State.endMain_book]
    · intro sw'
      have hf := fibers_fiberDone (s := s.keepAnswer sw a) sw sw'
      rw [fibers_keepAnswer] at hf
      exact hf
  | @endFiber a sw rest hs =>
    refine .done _ a rest rfl hs (Option.some_ne_none _) ?_ rfl fun sw' => fibers_end sw sw'
    intro w
    simp only [Census.load, State.fiberDone, State.addFibers, State.setSwitch, hs.2,
      Census.frames_cons, Census.frame_loop (f := .scheduler _) rfl]
    omega
  | @endPromise a sw p rest hs =>
    have hb : SameProgram s.book (s.book.resolve p a.result) := same_settle ha p _
    refine .done _ a rest rfl hs (Option.some_ne_none _) ?_
      (program_same hb) fun sw' => fibers_end sw sw'
    intro w
    simp only [Census.load, Census.sum_task_same hb, State.fiberDone, State.addFibers,
      State.setSwitch, hs.2, Census.frames_cons, Census.frame_loop (f := .scheduler _) rfl]
    omega
  | @endElement a p rest o hs ho =>
    have hb : SameProgram s.book (s.book.settle p o) := same_settle ha p _
    refine .done _ a rest rfl hs (Option.some_ne_none _) ?_
      (program_same hb) fun _ => (Int.sub_zero _).symm
    intro w
    simp only [Census.load, Census.sum_task_same hb, hs.2, Census.frames_cons]
    omega
  | exitScheduler hs hq hio hf =>
    refine .quietly rfl (same_refl _) rfl ?_ fun _ => rfl
    intro w
    rw [hs.2.1, Census.frames_cons, Census.frame_loop hs.2.2, Nat.zero_add]
  | @exitMain sw rest hs hq hr =>
    refine .quietly rfl (same_refl _) rfl ?_ ?_
    · intro w
      simp only [finishMain, hs.2.1, Census.frames_cons, Census.frame_loop hs.2.2,
        w.library (.cleanup _ _) rfl]
    · intro sw'
      exact fibers_setSwitch_same (f := fun w => { w with finished := true }) (fun _ => rfl) sw sw'
  | @runHook sw n hooks rest hm hst =>
    refine .quietly rfl (same_refl _) rfl ?_ fun _ => rfl
    intro w
    simp only [hst, Census.frames_cons, w.library (.cleanup _ _) rfl,
      w.library (.body (.hook sw n)) rfl, Nat.zero_add]
  | exitCleanup hm hst =>
    refine .quietly rfl (same_refl _) rfl ?_ fun _ => rfl
    intro w
    rw [hst, Census.frames_cons, w.library (.cleanup _ _) rfl, Nat.zero_add]

end

end PicoOcaml.Pio
