import Mathlib.Algebra.Order.Group.Multiset
import PicoOcaml.Pio.MainCompletion

/-! Where a run of a switch is, which of its release hooks have ended, and what one shift makes of
both. -/
namespace PicoOcaml.Pio

/-- The frames of a run itself: its loop, the iteration over its hooks, a hook. -/
def Frame.ofRun (sw : ℕ) : Frame → Bool
  | .mainScheduler sw' | .cleanup sw' _ | .body (.hook sw' _) => sw' = sw
  | _ => false

def runFrames (sw : ℕ) (fs : List Frame) : Multiset Frame := ↑(fs.filter (Frame.ofRun sw))

/-- The event is the end of a hook of the run. -/
def Event.hook (sw : ℕ) : Event → Option ℕ
  | .ended (.hook sw' n) _ => if sw' = sw then some n else none
  | _ => none

variable {W : Type*}

namespace State

variable (s : State W) (sw : ℕ)

/-- The frames of the run in the captured continuations. -/
def captured : Multiset Frame := (s.segments.map fun o => runFrames sw (o.getD [])).sum

/-- All frames of the run. -/
def ofRun : Multiset Frame := runFrames sw s.stack + s.captured sw

/-- The hooks of the run that have ended, the first one first. -/
def executed : List ℕ := s.book.log.filterMap (Event.hook sw)

/-- The loop of the run is over. -/
def finished : Bool := (s.switches sw).finished

end State

section

variable {sw : ℕ}

@[simp] theorem runFrames_nil : runFrames sw [] = 0 := rfl

@[simp] theorem runFrames_append (fs gs : List Frame) :
    runFrames sw (fs ++ gs) = runFrames sw fs + runFrames sw gs := by
  simp [runFrames]

theorem runFrames_own {f : Frame} (fs : List Frame) (hf : f.ofRun sw = true) :
    runFrames sw (f :: fs) = f ::ₘ runFrames sw fs := by
  simp [runFrames, hf]

theorem runFrames_other {f : Frame} (fs : List Frame) (hf : f.ofRun sw = false) :
    runFrames sw (f :: fs) = runFrames sw fs := by
  simp [runFrames, hf]

@[simp] theorem runFrames_wrapper (h : Handler) : runFrames sw (wrapper h) = 0 := by
  cases h <;> rfl

@[simp] theorem runFrames_frames (u : Task) : runFrames sw u.frames = 0 := by
  cases u <;> rfl

/-- A scheduler that comes in the place of a handler belongs to no run. -/
theorem runFrames_leave (s : State W) (h : Handler) (rest : List Frame) :
    runFrames sw (s.leave h rest).stack = runFrames sw rest := by
  cases h <;> rfl

end

/-- What one shift makes of a run. -/
inductive Release (s t : State W) (sw : ℕ) : Prop
  | still : t.ofRun sw = s.ofRun sw → t.executed sw = s.executed sw →
      t.finished sw = s.finished sw → (sw < t.nextSwitch ↔ sw < s.nextSwitch) → Release s t sw
  | opens : sw = s.nextSwitch → t.nextSwitch = sw + 1 → t.segments = s.segments →
      t.stack = .mainScheduler sw :: s.stack → t.executed sw = s.executed sw →
      t.finished sw = false → (t.switches sw).onRelease = [] → Release s t sw
  | finishes (rest : List Frame) : t.nextSwitch = s.nextSwitch → t.segments = s.segments →
      s.stack = .mainScheduler sw :: rest →
      t.stack = .cleanup sw (t.switches sw).onRelease :: rest → t.executed sw = s.executed sw →
      t.finished sw = true → Release s t sw
  | calls (n : ℕ) (hooks : List ℕ) (rest : List Frame) : t.nextSwitch = s.nextSwitch →
      t.segments = s.segments → s.stack = .cleanup sw (n :: hooks) :: rest →
      t.stack = .body (.hook sw n) :: .cleanup sw hooks :: rest → t.executed sw = s.executed sw →
      t.finished sw = s.finished sw → Release s t sw
  | ends (n : ℕ) (rest : List Frame) : t.nextSwitch = s.nextSwitch → t.segments = s.segments →
      s.stack = .body (.hook sw n) :: rest → t.stack = rest →
      t.executed sw = s.executed sw ++ [n] → t.finished sw = s.finished sw → Release s t sw
  | returns (rest : List Frame) : t.nextSwitch = s.nextSwitch → t.segments = s.segments →
      s.stack = .cleanup sw [] :: rest → t.stack = rest → t.executed sw = s.executed sw →
      t.finished sw = s.finished sw → Release s t sw

section

variable {s t : State W} {sw : ℕ}

theorem executed_same (hb : SameProgram s.book t.book) : t.executed sw = s.executed sw := by
  have hprogram (b : Book) : b.log.filterMap (Event.hook sw) =
      (b.log.filter Event.ofProgram).filterMap (Event.hook sw) := by
    rw [List.filterMap_filter]
    refine List.filterMap_congr ?_
    intro e he
    cases e with
    | ended b a => rfl
    | enqueued u => simp [Event.hook]
    | _ => rfl
  simp only [State.executed]
  rw [hprogram t.book, hprogram s.book, hb.log]

theorem executed_append {l : List Event} (hlog : t.book.log = s.book.log ++ l) :
    t.executed sw = s.executed sw ++ l.filterMap (Event.hook sw) := by
  simp only [State.executed, hlog, List.filterMap_append]

/-- The frames of the run are where they were. -/
theorem Release.keep (hx : t.executed sw = s.executed sw) (hseg : t.segments = s.segments)
    (hst : runFrames sw t.stack = runFrames sw s.stack) (hf : t.finished sw = s.finished sw)
    (hn : t.nextSwitch = s.nextSwitch) : Release s t sw := by
  refine .still ?_ hx hf (by rw [hn])
  simp only [State.ofRun, State.captured, hst, hseg]

/-- A frame of another kind, or of another run, is popped. -/
theorem Release.pop {f : Frame} {rest : List Frame} (hx : t.executed sw = s.executed sw)
    (hseg : t.segments = s.segments) (hst : s.stack = f :: rest)
    (hrest : runFrames sw t.stack = runFrames sw rest) (hf : t.finished sw = s.finished sw)
    (hn : t.nextSwitch = s.nextSwitch) (hother : f.ofRun sw = false) : Release s t sw := by
  refine .keep hx hseg ?_ hf hn
  rw [hrest, hst, runFrames_other rest hother]

theorem Release.suspend {segment rest : List Frame} {hd : Handler} {book : Book} (w : W)
    (happ : s.stack = segment ++ rest) (hb : SameProgram s.book book) : Release s
      ({ s with world := w, book := book, segments := s.segments ++ [some segment] }.leave hd rest)
      sw := by
  refine .still ?_ (executed_same ?_) ?_ ?_
  · simp only [State.ofRun, State.captured, runFrames_leave, State.leave_segments, happ,
      runFrames_append, List.map_append, List.sum_append, List.map_cons, List.map_nil,
      List.sum_cons, List.sum_nil, Option.getD_some, add_zero]
    rw [add_comm (runFrames sw segment), add_assoc, add_comm (runFrames sw segment)]
  · rw [State.leave_book]
    exact hb
  · simp only [State.finished, State.leave_switches]
  · rw [State.leave_nextSwitch]

/-- What the run has captured comes back to the stack. -/
theorem Release.resume {segment : List Frame} {hd : Handler} {k : ℕ} {a : Answer} {book : Book}
    (hk : s.segments[k]? = some (some segment)) (hb : SameProgram s.book book) : Release s
      { s with
        book := book, segments := s.segments.set k none
        stack := segment ++ wrapper hd ++ s.stack, mode := .ret a } sw := by
  refine .still ?_ (executed_same hb) rfl Iff.rfl
  have hset := sum_map_set (f := fun o => runFrames sw (o.getD [])) (y := none) hk
  simp only [Option.getD_some, Option.getD_none, runFrames_nil, add_zero] at hset
  simp only [State.ofRun, State.captured, runFrames_append, runFrames_wrapper, add_zero, ← hset]
  rw [add_comm (runFrames sw segment), add_assoc, add_comm (runFrames sw segment)]

/-- A body ends: a hook of the run, or another one. -/
theorem Release.finish {b : Body} {rest : List Frame} (a : Answer) (hs : s.Program b rest) :
    Release s { s with book := s.book.note (.ended b a), stack := rest, mode := .ret a } sw := by
  have hx : State.executed { s with
      book := s.book.note (.ended b a), stack := rest, mode := .ret a } sw =
        s.executed sw ++ [Event.ended b a].filterMap (Event.hook sw) := executed_append rfl
  by_cases hown : ∃ n, b = .hook sw n
  · obtain ⟨n, rfl⟩ := hown
    exact .ends n rest rfl rfl hs.2 rfl (by simpa [Event.hook] using hx) rfl
  · have hother : (Frame.body b).ofRun sw = false ∧ Event.hook sw (.ended b a) = none := by
      cases b with
      | hook sw' n =>
        have hne : sw' ≠ sw := by
          rintro rfl
          exact hown ⟨n, rfl⟩
        simp [Frame.ofRun, Event.hook, hne]
      | _ => exact ⟨rfl, rfl⟩
    exact .pop (by simpa [hother.2] using hx) rfl hs.2 rfl rfl rfl hother.1

theorem Shift.release {c : List Frame → Handler → List Frame → Prop} (hsh : Shift c s t)
    (ha : Agreed s.book) (hl : LoopAnswers s) (sw : ℕ) : Release s t sw := by
  cases hsh with
  | quiet w hq => exact .keep (executed_same (hq.same ha)) rfl rfl rfl rfl
  | world w => exact .keep rfl rfl rfl rfl rfl
  | onRelease sw' n => exact .keep rfl rfl rfl (switch_update Switch.finished (by rfl) (by rfl)) rfl
  | @fork sw' hsw =>
    refine .keep ?_ rfl rfl (switch_update Switch.finished (by rfl) (by rfl)) rfl
    exact (executed_append rfl).trans (List.append_nil _)
  | @forkPromise sw' hsw =>
    refine .keep ?_ rfl rfl (switch_update Switch.finished (by rfl) (by rfl)) rfl
    exact (executed_append rfl).trans (List.append_nil _)
  | element =>
    refine .keep ?_ rfl rfl rfl rfl
    exact (executed_append rfl).trans (List.append_nil _)
  | switchRun hs' =>
    have hx : (PicoOcaml.Pio.switchRun s).executed sw = s.executed sw :=
      (executed_append rfl).trans (List.append_nil _)
    by_cases h : sw = s.nextSwitch
    · subst h
      exact .opens rfl rfl rfl rfl hx (by simp [State.finished, PicoOcaml.Pio.switchRun])
        (by simp [PicoOcaml.Pio.switchRun])
    · refine .still ?_ hx ?_ ?_
      · have hother : (Frame.mainScheduler s.nextSwitch).ofRun sw = false := by
          simpa [Frame.ofRun] using Ne.symm h
        simp only [State.ofRun, State.captured, PicoOcaml.Pio.switchRun, runFrames_other _ hother]
      · simp [State.finished, PicoOcaml.Pio.switchRun, h]
      · simp only [PicoOcaml.Pio.switchRun]
        omega
  | reply a hs' => exact .keep rfl rfl rfl rfl rfl
  | suspend w hs' hsplit hc hcap =>
    exact .suspend w (splitHandler_spec hsplit).1 hcap.same
  | finish a hs' => exact .finish a hs'
  | launch hs' hq ht =>
    refine .keep ?_ rfl (by simp [push]) rfl rfl
    exact (executed_append rfl).trans (List.append_nil _)
  | resume hs' hq hk => exact .resume hk (same_take hq rfl)
  | resumeTwice hs' hq hk =>
    exact .keep (executed_same (same_take hq rfl)) rfl (by simp) rfl rfl
  | stillPending hs' hq ho =>
    exact .keep (executed_same ((same_take hq rfl).trans (same_note rfl))) rfl rfl rfl rfl
  | toBody hs' => exact .keep rfl rfl rfl rfl rfl
  | toCleanup hs' => exact .keep rfl rfl rfl rfl rfl
  | toLoop hs' hl' => exact .keep rfl rfl rfl rfl rfl
  | breakLoop hs' hl' =>
    obtain ⟨v, hv⟩ := hl _ _ _ hs' hl'
    cases hv
  | @endMain a sw' rest hs' =>
    have hdone (u : State W) : (u.fiberDone sw').finished sw = u.finished sw :=
      switch_update Switch.finished (by rfl) (by rfl)
    have hkept : (s.keepAnswer sw' a).finished sw = s.finished sw := by
      cases a <;> exact switch_update Switch.finished (by rfl) (by rfl)
    have hsegs : ((s.keepAnswer sw' a).fiberDone sw').segments = s.segments :=
      keepAnswer_segments sw' a
    have hn : ((s.keepAnswer sw' a).fiberDone sw').nextSwitch = s.nextSwitch := by cases a <;> rfl
    have hbook : ((s.keepAnswer sw' a).fiberDone sw').book = s.book := State.endMain_book sw' a
    refine .pop ?_ hsegs hs'.2 rfl ((hdone _).trans hkept) hn rfl
    exact congrArg (fun b => b.log.filterMap (Event.hook sw)) hbook
  | endFiber hs' =>
    exact .pop rfl rfl hs'.2 rfl (switch_update Switch.finished (by rfl) (by rfl)) rfl rfl
  | @endPromise a sw' p rest hs' =>
    exact .pop (executed_same (same_settle ha p _)) rfl hs'.2 rfl
      (switch_update Switch.finished (by rfl) (by rfl)) rfl rfl
  | @endElement a p rest o hs' ho =>
    exact .pop (executed_same (same_settle ha p _)) rfl hs'.2 rfl rfl rfl rfl
  | exitScheduler hs' hq hio hf => exact .pop rfl rfl hs'.2.1 rfl rfl rfl rfl
  | @exitMain sw' rest hs' hq hr =>
    by_cases h : sw = sw'
    · subst h
      refine .finishes rest rfl rfl hs'.2.1 ?_ rfl ?_
      · simp [finishMain, State.setSwitch]
      · simp [State.finished, finishMain, State.setSwitch]
    · have hother (f : Frame) (hf : f = .mainScheduler sw' ∨ ∃ hooks, f = .cleanup sw' hooks) :
          f.ofRun sw = false := by
        rcases hf with rfl | ⟨hooks, rfl⟩
        · simpa [Frame.ofRun] using Ne.symm h
        · simpa [Frame.ofRun] using Ne.symm h
      refine .pop rfl rfl hs'.2.1 ?_ ?_ rfl (hother _ (.inl rfl))
      · exact runFrames_other _ (hother _ (.inr ⟨_, rfl⟩))
      · simp [State.finished, finishMain, State.setSwitch, h]
  | @runHook sw' n hooks rest hm hst =>
    by_cases h : sw = sw'
    · subst h
      exact .calls n hooks rest rfl rfl hst rfl rfl rfl
    · refine .pop rfl rfl hst ?_ rfl rfl ?_
      · rw [runFrames_other _ (by simpa [Frame.ofRun] using Ne.symm h),
          runFrames_other _ (by simpa [Frame.ofRun] using Ne.symm h)]
      · simpa [Frame.ofRun] using Ne.symm h
  | @exitCleanup sw' rest hm hst =>
    by_cases h : sw = sw'
    · subst h
      exact .returns rest rfl rfl hst rfl rfl rfl
    · exact .pop rfl rfl hst rfl rfl rfl (by simpa [Frame.ofRun] using Ne.symm h)

end

end PicoOcaml.Pio
