import PicoOcaml.Pio.FiberAll
import PicoOcaml.Pio.HookProgress
import PicoOcaml.Pio.RawCalls

/-! The release hooks along a run of the machine: each runs once, in reverse order, but no network
effect of a hook of a top-level run is carried out. -/
namespace PicoOcaml.Pio

variable {W : Type*}

/-- What the shifts of a run rest on. -/
structure Tidy (s : State W) : Prop where
  sane : Sane s
  balanced : Balanced s.book
  loop : LoopAnswers s
  grounded : Grounded s.stack

/-- The hooks that the step registers. -/
def Act.registers (sw : ℕ) : Act → List ℕ
  | .onRelease sw' n => if sw' = sw then [n] else []
  | _ => []

section

variable {X : Externals W} {s t : State W} {sw : ℕ} {a : Act} {R : List ℕ}

theorem tidy_initial (world : W) : Tidy (State.initial world) where
  sane := sane_initial world
  balanced L := Nat.le_of_eq (L.total_initial world)
  loop := loopAnswers_of_run rfl
  grounded := grounded_initial world

theorem Shift.tidy {c : List Frame → Handler → List Frame → Prop} (hsh : Shift c s t)
    (h : Tidy s) : Tidy t :=
  ⟨hsh.sane h.sane, h.balanced.moves hsh.moves, hsh.loopAnswers h.sane h.balanced h.loop,
    hsh.grounded h.grounded⟩

theorem Tidy.closed (h : Tidy s) (sock : ℤ) (w : W) {b : Body} {rest : List Frame}
    (hs : s.Program b rest) : Tidy (s.closed sock w) :=
  ⟨h.sane.closed sock w hs, h.balanced.drop sock, loopAnswers_of_unit rfl, h.grounded⟩

theorem step_tidy (h : Step X s a t) (ht : Tidy s) : Tidy t := by
  rcases step_shifts (c := fun _ _ _ => True) h (by intros; trivial) with hm | ⟨sock, w, hc, rfl⟩
  · exact hm.keeps (fun _ _ hu hsh => hsh.tidy hu) ht
  · obtain ⟨b, rest, hp⟩ := closes_program h hc
    exact ht.closed sock w hp

theorem Stride.progress {c : List Frame → Handler → List Frame → Prop} (h : Stride c s t)
    (ht : Tidy s) (hp : Progress s sw R) : ∃ R', Progress t sw R' ∧ Continues s t sw R R' := by
  cases h with
  | stay h =>
    subst h
    exact hp.still rfl rfl rfl Iff.rfl
  | one hsh => exact (hsh.release ht.sane.agreed ht.loop sw).progress ht.sane ht.grounded.rooted hp
  | @two u hsh hst hm hsh' =>
    have hu := hsh.tidy ht
    obtain ⟨R₁, hp₁, hc₁⟩ :=
      (hsh.release ht.sane.agreed ht.loop sw).progress ht.sane ht.grounded.rooted hp
    obtain ⟨R₂, hp₂, hc₂⟩ :=
      (hsh'.release hu.sane.agreed hu.loop sw).progress hu.sane hu.grounded.rooted hp₁
    obtain ⟨hf, hn⟩ := hc₁.stays hst
    refine ⟨R₂, hp₂, fun h => hc₂.created (hc₁.created h), ?_, ?_, ?_, ?_⟩
    · intro h
      obtain ⟨hfu, rfl⟩ := hc₁.finished h
      exact hc₂.finished hfu
    · intro hfs hlt
      exact hc₂.running (hf.trans hfs) (hn.mpr hlt)
    · intro hle
      exact hc₂.before (by omega)
    · intro heq
      obtain ⟨hf', hn'⟩ := hc₂.stays (heq.trans hst.symm)
      exact ⟨hf'.trans hf, hn'.trans hn⟩

theorem step_progress (h : Step X s a t) (ht : Tidy s) (hp : Progress s sw R) :
    ∃ R', Progress t sw R' ∧ Continues s t sw R R' := by
  rcases step_stride (c := fun _ _ _ => True) h (by intros; trivial) with hm | ⟨sock, w, hc, rfl⟩
  · exact hm.progress ht hp
  · exact hp.still rfl rfl rfl Iff.rfl

theorem startTask_switches (u : Task) : (startTask X s u).switches = s.switches := by
  cases u with
  | waker p h k =>
    simp only [startTask]
    split <;> rfl
  | resume h k a =>
    simp only [startTask]
    split <;> rfl
  | _ => rfl

theorem round_onRelease {done : State W → State W}
    (hdone : ((done (s.pass X)).switches sw).onRelease = (s.switches sw).onRelease) :
    ((round X s done).switches sw).onRelease = (s.switches sw).onRelease := by
  simp only [round]
  split
  · rw [startTask_switches]
  · exact hdone

theorem deliver_onRelease (x : Answer) (rest : List Frame) (f : Frame) :
    ((deliver s x rest f).switches sw).onRelease = (s.switches sw).onRelease := by
  cases f with
  | handler h =>
    cases h with
    | main sw' =>
      have hdone (u : State W) : ((u.fiberDone sw').switches sw).onRelease =
          (u.switches sw).onRelease := switch_update Switch.onRelease (by rfl) (by rfl)
      cases x <;> exact (hdone _).trans (switch_update Switch.onRelease (by rfl) (by rfl))
    | fiber sw' => exact switch_update Switch.onRelease (by rfl) (by rfl)
    | promise sw' p => exact switch_update Switch.onRelease (by rfl) (by rfl)
  | scheduler sw' => cases x <;> rfl
  | mainScheduler sw' => cases x <;> rfl
  | _ => rfl

theorem go_onRelease : ((go X s).switches sw).onRelease = (s.switches sw).onRelease := by
  simp only [go]
  split
  · exact deliver_onRelease ..
  · apply round_onRelease
    split <;> rfl
  · apply round_onRelease
    split
    · exact switch_update Switch.onRelease (by rfl) (by rfl)
    · split
      · rfl
      · exact switch_update Switch.onRelease (by rfl) (by rfl)
  · rename_i hooks rest hm hst
    cases hooks <;> rfl
  · rfl

theorem perform_onRelease (eff : Eff) :
    ((perform X s eff).switches sw).onRelease = (s.switches sw).onRelease := by
  simp only [perform]
  split
  · cases eff with
    | fork sw' => exact switch_update Switch.onRelease (by rfl) (by rfl)
    | forkPromise sw' => exact switch_update Switch.onRelease (by rfl) (by rfl)
    | await p =>
      simp only [effc]
      split
      · rfl
      · rw [State.suspend, State.leave_switches]
    | yield => rw [effc, State.suspend, State.leave_switches]
    | net e =>
      simp only [effc]
      split
      · rfl
      · rw [State.suspend, State.leave_switches]
    | other => rfl
  · rfl

/-- Hooks are added by `on_release` only. -/
theorem step_onRelease (h : Step X s a t) (hsw : sw < s.nextSwitch) :
    (t.switches sw).onRelease = a.registers sw ++ (s.switches sw).onRelease := by
  obtain ⟨-, rfl⟩ := h
  cases a with
  | go => exact go_onRelease
  | perform eff => exact perform_onRelease eff
  | onRelease sw' n =>
    by_cases h : sw = sw'
    · subst h
      simp [next, State.setSwitch, Act.registers]
    · simp [next, State.setSwitch, Act.registers, h, Ne.symm h]
  | switchRun =>
    have hne : sw ≠ s.nextSwitch := by omega
    simp [next, switchRun, hne, Act.registers]
  | ret v =>
    simp only [next, finish]
    split <;> rfl
  | raise e =>
    simp only [next, finish]
    split <;> rfl
  | _ => rfl

/-- Hooks are registered with switches that exist. -/
theorem registers_fresh (h : Step X s a t) (hn : s.nextSwitch ≤ sw) : a.registers sw = [] := by
  cases a with
  | onRelease sw' n =>
    have hlt : sw' < s.nextSwitch := by
      have he := h.1
      simp only [Enabled] at he
      split at he
      · simpa using he
      · cases he
    exact if_neg (by omega)
  | _ => rfl

/-! ### After a run -/

/-- The run has returned. -/
structure Over (s : State W) (sw : ℕ) : Prop where
  created : sw < s.nextSwitch
  gone : s.ofRun sw = 0
  finished : s.finished sw = true

theorem Release.stays (h : Release s t sw) (ho : Over s sw) :
    Over t sw ∧ t.executed sw = s.executed sw := by
  have hcreated := ho.created
  have hnot (f : Frame) (rest : List Frame) (hf : f.ofRun sw = true) : s.stack ≠ f :: rest := by
    intro hst
    exact absurd (ho.gone.symm.trans (ofRun_top hst hf)) (by simp)
  cases h with
  | still hown hx hf hn => exact ⟨⟨hn.mpr hcreated, hown.trans ho.gone, hf.trans ho.finished⟩, hx⟩
  | opens hsw hn hseg hst hx hf hreg => omega
  | finishes rest hn hseg hst hst' hx hf => exact absurd hst (hnot _ _ (by simp [Frame.ofRun]))
  | calls n hooks rest hn hseg hst hst' hx hf => exact absurd hst (hnot _ _ (by simp [Frame.ofRun]))
  | ends n rest hn hseg hst hst' hx hf => exact absurd hst (hnot _ _ (by simp [Frame.ofRun]))
  | returns rest hn hseg hst hst' hx hf => exact absurd hst (hnot _ _ (by simp [Frame.ofRun]))

theorem step_over (h : Step X s a t) (ht : Tidy s) (ho : Over s sw) :
    Over t sw ∧ t.executed sw = s.executed sw := by
  rcases step_shifts (c := fun _ _ _ => True) h (by intros; trivial) with hm | ⟨sock, w, hc, rfl⟩
  · refine (hm.keeps (p := fun u => Tidy u ∧ Over u sw ∧ u.executed sw = s.executed sw) ?_
      ⟨ht, ho, rfl⟩).2
    rintro u v ⟨hu, hou, hx⟩ hsh
    obtain ⟨hov, hx'⟩ := (hsh.release hu.sane.agreed hu.loop sw).stays hou
    exact ⟨hsh.tidy hu, hov, hx'.trans hx⟩
  · exact ⟨⟨ho.created, ho.gone, ho.finished⟩, rfl⟩

/-- A step that leaves the iteration over the hooks finds none left. -/
theorem cleanup_left {hooks : List ℕ} {rest : List Frame} (h : Step X s a t)
    (hs : s.stack = .cleanup sw hooks :: rest) (ht : t.stack = rest) :
    hooks = [] ∧ t = { s with stack := rest, mode := .ret (runAnswer (s.switches sw)) } := by
  obtain ⟨he, rfl⟩ := h
  by_cases ha : a = .go
  · subst ha
    cases hm : s.mode with
    | ret x =>
      have hst : (next X s .go).stack = s.stack := by simp [next, go, hm, hs, deliver]
      have hself : Frame.cleanup sw hooks :: rest = rest := (hst.trans hs).symm.trans ht
      exact absurd hself (List.cons_ne_self _ _)
    | run =>
      have hgo : next X s .go = cleanupRound s sw rest hooks := by simp only [next, go, hm, hs]
      rw [hgo] at ht ⊢
      cases hooks with
      | nil => exact ⟨rfl, rfl⟩
      | cons n hooks =>
        have hlen := congrArg List.length ht
        simp only [cleanupRound, List.length_cons] at hlen
        omega
  · obtain ⟨⟨b, fs, hprog⟩, -⟩ := enabled_program he ha
    cases hs.symm.trans hprog.2

/-- A run returns, or re-raises, from its iteration over the hooks, when all of them have ended. -/
theorem step_returns {rest : List Frame} (h : Step X s a t) (hti : Tidy s) (hp : Progress s sw R)
    (hs : s.stack = .mainScheduler sw :: rest ∨ ∃ hooks, s.stack = .cleanup sw hooks :: rest)
    (ht : t.stack = rest) : s.finished sw = true ∧ Over t sw ∧ t.executed sw = R := by
  rcases hs with hs | ⟨hooks, hs⟩
  · have hleft : ¬ s.stack <:+ t.stack := by
      intro hsuf
      have hlen := hsuf.length_le
      rw [hs, ht, List.length_cons] at hlen
      omega
    rcases loop_left h hs hleft with ⟨e, hret⟩ | ⟨-, -, rfl⟩
    · obtain ⟨v, hv⟩ := hti.loop _ _ _ hret rfl
      cases hv
    · exact absurd ht (List.cons_ne_self _ _)
  · obtain ⟨rfl, rfl⟩ := cleanup_left h hs ht
    obtain ⟨hn, hrest, hf, rfl⟩ := hp.on_cleanup hti.sane hti.grounded.rooted hs
    exact ⟨hf, ⟨hn, hrest, hf⟩, (List.append_nil _).symm⟩

end

/-! ### Runs -/

/-- The function of the run has ended. -/
def State.bodyEnded (s : State W) (sw : ℕ) : Bool := s.book.log.any (Event.ends (.main sw))

/-- The hooks registered along a run while the test is passed, the first one first. -/
def registered (sw : ℕ) (test : State W → Bool) : State W → List (Act × State W) → List ℕ :=
  Lts.gather fun s a => if test s then a.registers sw else []

section

variable {X : Externals W} {s t : State W} {sw : ℕ} {a : Act} {xs : List (Act × State W)}

theorem Progress.unfinished {R : List ℕ} (h : Progress s sw R) (hf : s.finished sw = false)
    (hn : sw < s.nextSwitch) : R = (s.switches sw).onRelease := by
  cases h with
  | before hn' ho hx hf' => omega
  | looping hn' ho hx hf' => rfl
  | cleaning hooks hn' ho hf' => cases hf.symm.trans hf'
  | inHook n hooks hn' ho hf' => cases hf.symm.trans hf'
  | returned hn' ho hf' => cases hf.symm.trans hf'

theorem Progress.created {R : List ℕ} (h : Progress s sw R) (hn : s.nextSwitch ≤ sw) : R = [] := by
  cases h with
  | before hn' ho hx hf => rfl
  | _ => omega

theorem registers_reverse (sw : ℕ) (a : Act) : (a.registers sw).reverse = a.registers sw := by
  cases a with
  | onRelease sw' n =>
    simp only [Act.registers]
    split <;> rfl
  | _ => rfl

/-- The hooks registered before the loop was over, step by step. -/
theorem progress_registered {l : List ℕ} (h : Step X s a t) (ht : Tidy s)
    (hp : Progress s sw l.reverse) :
    Progress t sw (l ++ if !s.finished sw then a.registers sw else []).reverse := by
  obtain ⟨R, hp', hc⟩ := step_progress h ht hp
  have hR : R = (l ++ if !s.finished sw then a.registers sw else []).reverse := by
    cases hf : s.finished sw with
    | true => simpa using (hc.finished hf).2
    | false =>
      rw [List.reverse_append]
      rcases Nat.lt_or_ge sw s.nextSwitch with hn | hn
      · rw [hc.running hf hn, step_onRelease h hn, hp.unfinished hf hn]
        simp [registers_reverse]
      · rw [hc.before hn, hp.created hn]
        simp [registers_fresh h hn]
  exact hR ▸ hp'

theorem progress_initial (world : W) (sw : ℕ) : Progress (State.initial world) sw [] :=
  .before (Nat.zero_le _) rfl rfl rfl

theorem run_tidy {world : W} (h : Lts.Run (Step X) (State.initial world) xs) :
    Tidy (Lts.last (State.initial world) xs) :=
  (h.always (tidy_initial world) fun _ _ _ hu hstep => step_tidy hstep hu).last

theorem run_progress {world : W} (h : Lts.Run (Step X) (State.initial world) xs) (sw : ℕ) :
    Progress (Lts.last (State.initial world) xs) sw
      (registered sw (fun s => !s.finished sw) (State.initial world) xs).reverse := by
  refine (Lts.Run.gathers (P := fun l s => Tidy s ∧ Progress s sw l.reverse) (l := []) h
    ⟨tidy_initial world, progress_initial world sw⟩ ?_).2
  rintro l u a v ⟨hu, hp⟩ hstep
  exact ⟨step_tidy hstep hu, progress_registered hstep hu hp⟩

theorem over_run (h : Lts.Run (Step X) s xs) (ht : Tidy s) (ho : Over s sw) :
    (Lts.last s xs).executed sw = s.executed sw ∧ registered sw (fun s => !s.finished sw) s xs = [] := by
  obtain ⟨hal, hrun⟩ := h.keeps (c := fun s _ _ => Over s sw)
    (p := fun u => Tidy u ∧ Over u sw ∧ u.executed sw = s.executed sw) ⟨ht, ho, rfl⟩ (by
      rintro u a v ⟨hu, hou, hx⟩ hstep
      obtain ⟨hov, hx'⟩ := step_over hstep hu hou
      exact ⟨⟨step_tidy hstep hu, hov, hx'.trans hx⟩, hou⟩)
  refine ⟨hal.last.2.2, Lts.gather_eq_nil (hrun.imp ?_)⟩
  intro u a v hou
  simp [hou.finished]

end

/-! ### The hooks of a top-level run -/

/-- The top-level run of the switch returns or re-raises. -/
def TopReturns (sw : ℕ) (s t : State W) : Prop :=
  (s.stack = [.mainScheduler sw, .body .top] ∨
    ∃ hooks, s.stack = [.cleanup sw hooks, .body .top]) ∧ t.stack = [.body .top]

/-- By the time it returns, in `t`, each hook that is ever registered before its function has ended
has run once, in reverse order of registration. Hooks that fibers have registered later,
but before the loop was over, have run first, and none runs afterwards. -/
structure HooksRun (sw : ℕ) (first : State W) (xs : List (Act × State W)) (t : State W) : Prop where
  once : t.executed sw = (registered sw (fun s => !s.bodyEnded sw) first xs ++
    registered sw (fun s => s.bodyEnded sw && !s.finished sw) first xs).reverse
  noLater : (Lts.last first xs).executed sw = t.executed sw

/-- The step registers no hook with a run whose loop is over and whose function goes on. -/
def Timely (sw : ℕ) (s : State W) (a : Act) : Prop :=
  ∀ n, a = .onRelease sw n → s.finished sw = true → s.bodyEnded sw = true

section

variable {X : Externals W} {s t : State W} {sw : ℕ} {a : Act} {xs : List (Act × State W)}

theorem step_bodyEnded (h : Step X s a t) (hs : s.bodyEnded sw = true) : t.bodyEnded sw = true := by
  refine step_keeps (p := fun b => b.log.any (Event.ends (.main sw)) = true) h ?_ ?_ hs
  · intro b b' hb hm
    obtain ⟨e, he, hends⟩ := List.any_eq_true.mp hb
    exact List.any_eq_true.mpr ⟨e, hm.extends.log he, hends⟩
  · intro b sock hb
    exact hb

/-- The hooks registered before the loop was over are those before and those after the end of the
function. -/
theorem registered_split (h : Lts.Run (Step X) s xs) :
    registered sw (fun s => !s.finished sw) s xs =
      registered sw (fun s => !s.bodyEnded sw && !s.finished sw) s xs ++
        registered sw (fun s => s.bodyEnded sw && !s.finished sw) s xs := by
  have hended : Lts.Run (fun s _ t => s.bodyEnded sw = true → t.bodyEnded sw = true) s xs :=
    h.imp fun _ _ _ hstep => step_bodyEnded hstep
  have hflag := Lts.gather_flag (e := fun s a => if !s.finished sw then a.registers sw else []) hended
  refine hflag.trans (congrArg₂ _ ?_ ?_)
  · refine congrArg (fun e => Lts.gather e s xs) ?_
    funext u b
    cases he : u.bodyEnded sw <;> simp [he]
  · refine congrArg (fun e => Lts.gather e s xs) ?_
    funext u b
    cases he : u.bodyEnded sw <;> simp [he]

theorem timely_iff : (if !s.bodyEnded sw && !s.finished sw then a.registers sw else []) =
    (if !s.bodyEnded sw then a.registers sw else []) ↔ Timely sw s a := by
  have hreg : [] = a.registers sw ↔ ∀ n, a ≠ .onRelease sw n := by
    refine eq_comm.trans ?_
    cases a with
    | onRelease sw' n => simp [Act.registers]
    | _ => simp [Act.registers]
  cases he : s.bodyEnded sw with
  | true => simp [Timely, he]
  | false =>
    cases hf : s.finished sw with
    | true =>
      simpa [Timely, he, hf] using hreg
    | false => simp [Timely, hf]

theorem registered_timely :
    registered sw (fun s => !s.bodyEnded sw && !s.finished sw) s xs =
      registered sw (fun s => !s.bodyEnded sw) s xs ↔ Lts.Run (fun s a _ => Timely sw s a) s xs := by
  refine (Lts.gather_eq_iff ?_).trans ?_
  · intro u b
    cases he : u.bodyEnded sw <;> cases hf : u.finished sw <;> simp [he, hf]
  · constructor
    · exact fun h => h.imp fun _ _ _ => timely_iff.mp
    · exact fun h => h.imp fun _ _ _ => timely_iff.mpr

/-- The hooks of a top-level run. -/
theorem hooksRun_iff {world : W} {pre post : List (Act × State W)}
    (h : Lts.Run (Step X) (State.initial world) (pre ++ (a, t) :: post))
    (hret : TopReturns sw (Lts.last (State.initial world) pre) t) :
    HooksRun sw (State.initial world) (pre ++ (a, t) :: post) t ↔
      Lts.Run (fun s a _ => Timely sw s a) (State.initial world) (pre ++ (a, t) :: post) := by
  obtain ⟨hpre, hstep, hpost⟩ := Lts.run_append.mp h
  have htidy := run_tidy hpre
  have hprogress := run_progress hpre sw
  obtain ⟨hs, ht⟩ := hret
  rw [← ht] at hs
  obtain ⟨hf, hover, hx⟩ := step_returns hstep htidy hprogress hs rfl
  obtain ⟨hlast, hnone⟩ := over_run hpost (step_tidy hstep htidy) hover
  have hall : t.executed sw = (registered sw (fun s => !s.finished sw) (State.initial world)
      (pre ++ (a, t) :: post)).reverse := by
    have hthis : (if !(Lts.last (State.initial world) pre).finished sw then a.registers sw
        else []) = [] := by simp [hf]
    rw [registered, Lts.gather_append, Lts.gather_cons, hthis, List.nil_append]
    rw [registered] at hnone
    rw [hnone, List.append_nil]
    exact hx
  rw [registered_split h] at hall
  rw [← registered_timely]
  constructor
  · intro hlaw
    have heq := List.reverse_injective (hall.symm.trans hlaw.once)
    exact List.append_cancel_right heq
  · intro heq
    rw [heq] at hall
    refine ⟨hall, ?_⟩
    rw [Lts.last_append, Lts.last_cons]
    exact hlast

end

/-! ### Network effects of hooks -/

/-- A hook of a top-level run is on top. -/
def State.InTopHook (s : State W) : Prop :=
  ∃ sw n hooks, s.stack = [.body (.hook sw n), .cleanup sw hooks, .body .top]

/-- The step does what a fiber's handler does with the effect: the raw calls, the change of the
waiting list, and the answer if there is one yet. -/
def CarriedOut (X : Externals W) (s t : State W) (e : NetEff) : Prop :=
  ∃ sw r, r = netEffect X s (.fiber sw) e ∧ t.world = r.world ∧ t.book.ioWaiters = r.ioWaiters ∧
    ∀ x, r.reply = some x → t.mode = .ret x

/-- The release hooks of top-level runs do what they are registered for. -/
structure HooksServed (X : Externals W) (first : State W) (xs : List (Act × State W)) : Prop where
  run : ∀ sw pre a t post, xs = pre ++ (a, t) :: post → TopReturns sw (Lts.last first pre) t →
    HooksRun sw first xs t
  carriedOut : Lts.Run (fun s a t => s.InTopHook → ∀ e, a = .perform (.net e) →
    CarriedOut X s t e) first xs

section

variable {X : Externals W} {s t : State W} {xs : List (Act × State W)}

/-- The effects of a hook of a top-level run are not carried out. -/
theorem not_carriedOut {e : NetEff} (h : Step X s (.perform (.net e)) t) (hs : s.InTopHook) :
    ¬ CarriedOut X s t e := by
  obtain ⟨-, rfl⟩ := h
  obtain ⟨sw, n, hooks, hst⟩ := hs
  have hnext : next X s (.perform (.net e)) = s.reply (.exn .unhandled) := by
    simp [next, perform, hst, splitHandler]
  rw [hnext]
  rintro ⟨sw', r, rfl, -, hws, hreply⟩
  rw [netEffect_eq] at hws hreply
  rcases handleNetEffect_waiters X (.fiber sw') s.book.konts.length s.book.ioWaiters s.world e with
    ⟨x, hr, -⟩ | ⟨sock, -, hr, -⟩ | ⟨sock, op, -, -, -, hws'⟩
  · have hmode := hreply x hr
    have hx : Answer.exn .unhandled = x := by simpa [State.reply] using hmode
    exact netReply_ne_unhandled _ _ _ _ e (hx ▸ hr)
  · have hmode := hreply _ hr
    simp [State.reply] at hmode
  · have hlen := congrArg List.length (hws.trans hws')
    simp [State.reply] at hlen

/-- In every run, the release hooks of top-level runs are served just when no hook is registered
with a returned run whose function goes on, and no hook of a top-level run performs a network
effect itself. -/
theorem hooks_served_iff {world : W} (h : Lts.Run (Step X) (State.initial world) xs) :
    HooksServed X (State.initial world) xs ↔
      (∀ sw pre a t post, xs = pre ++ (a, t) :: post →
        TopReturns sw (Lts.last (State.initial world) pre) t →
          Lts.Run (fun s a _ => Timely sw s a) (State.initial world) xs) ∧
      Lts.Run (fun s a _ => s.InTopHook → ∀ e, a ≠ .perform (.net e)) (State.initial world) xs := by
  have hhooks (sw pre a t post) (hxs : xs = pre ++ (a, t) :: post)
      (hret : TopReturns sw (Lts.last (State.initial world) pre) t) :
      HooksRun sw (State.initial world) xs t ↔
        Lts.Run (fun s a _ => Timely sw s a) (State.initial world) xs := by
    subst hxs
    exact hooksRun_iff h hret
  constructor
  · rintro ⟨hrun, hnet⟩
    refine ⟨fun sw pre a t post hxs hret => (hhooks sw pre a t post hxs hret).mp
      (hrun sw pre a t post hxs hret), ?_⟩
    refine (Lts.run_and.mpr ⟨h, hnet⟩).imp ?_
    rintro s a t ⟨hstep, hout⟩ hs e rfl
    exact not_carriedOut hstep hs (hout hs e rfl)
  · rintro ⟨hrun, hnet⟩
    refine ⟨fun sw pre a t post hxs hret => (hhooks sw pre a t post hxs hret).mpr
      (hrun sw pre a t post hxs hret), ?_⟩
    refine hnet.imp ?_
    intro s a t hnone hs e ha
    exact absurd ha (hnone hs e)

/-- The function of a run registers two hooks and raises; the hook that runs first raises too. -/
def twoHooks : List Act :=
  [.switchRun, .go, .onRelease 0 1, .onRelease 0 2, .raise (.user 0), .go, .go, .go, .go,
    .raise (.user 1), .go, .go, .ret .unit, .go, .go]

/-- The step neither registers a hook after the loop nor performs an effect. -/
def harmless (s : State W) : Act → Bool
  | .onRelease sw _ => !s.finished sw
  | .perform _ => false
  | _ => true

theorem hooks_served_twice : HooksServed quiet (State.initial ())
    (Lts.trace (next quiet) (State.initial ()) twoHooks) := by
  have hrun : Lts.Run (fun s a t => harmless s a = true ∧ t = next quiet s a) (State.initial ())
      (Lts.trace (next quiet) (State.initial ()) twoHooks) := Lts.run_accepts harmless (by decide)
  refine (hooks_served_iff (X := quiet) (Lts.run_accepts Enabled (by decide))).mpr ⟨?_, ?_⟩
  · intro sw pre a t post hxs hret
    refine hrun.imp ?_
    rintro u b v ⟨htest, -⟩ n rfl hf
    simp [harmless, hf] at htest
  · refine hrun.imp ?_
    rintro u b v ⟨htest, -⟩ - e rfl
    cases htest

/-- The function of a run connects, and registers a hook that closes the socket. -/
def closeInHook : List Act :=
  [.switchRun, .go, .perform (.net (.tcpConnect "10.0.0.1" 80)), .go, .go, .go, .go, .onRelease 0 7,
    .ret .unit, .go, .go, .go, .go, .go, .perform (.net (.tcpClose 0)), .go, .raise .unhandled, .go,
    .go]

/-- The function of a run yields twice and awaits a promise of its caller, and its run returns. -/
def returnsEarly : List Act :=
  [.createPromise, .switchRun, .go, .perform .yield, .go, .go, .go, .perform .yield, .go, .go, .go,
    .go, .perform (.await 0), .go, .go, .go]

/-- A second run resumes it, and it registers a hook with the first one. -/
def registersLate : List Act :=
  [.go, .resolve 0 .unit, .switchRun, .go, .go, .ret .unit, .go, .go, .go, .go, .onRelease 0 5]

/-- The socket is not closed by the hook; and a hook never runs. -/
theorem hooks_not_served :
    (∃ xs, Lts.Run (Step (recorded quiet)) (State.initial ⟨(), []⟩) xs ∧
      ¬ HooksServed (recorded quiet) (State.initial ⟨(), []⟩) xs ∧
      (Lts.last (State.initial ⟨(), []⟩) xs).stack = [.body .top] ∧
      (Lts.last (State.initial ⟨(), []⟩) xs).executed 0 = [7] ∧
      .tcpClose 0 ∉ (Lts.last (State.initial ⟨(), []⟩) xs).world.calls) ∧
    ∃ xs, Lts.Run (Step quiet) (State.initial ()) xs ∧ ¬ HooksServed quiet (State.initial ()) xs := by
  refine ⟨⟨Lts.trace (next (recorded quiet)) (State.initial ⟨(), []⟩) closeInHook,
    Lts.run_accepts Enabled (by decide +kernel), ?_, ?_, ?_, ?_⟩,
    Lts.trace (next quiet) (State.initial ()) (returnsEarly ++ .go :: registersLate),
    Lts.run_accepts Enabled (by decide +kernel), ?_⟩
  · intro hserved
    have hnet := hserved.carriedOut
    have hsplit : closeInHook = closeInHook.take 14 ++ closeInHook.drop 14 := rfl
    rw [hsplit, Lts.trace_append, Lts.run_append, Lts.last_trace] at hnet
    obtain ⟨sw, r, rfl, -, -, hreply⟩ :=
      hnet.2.1 ⟨0, 7, [], by decide +kernel⟩ (.tcpClose 0) rfl
    have hmode := hreply (.value .unit) rfl
    have hnot : (next (recorded quiet) ((closeInHook.take 14).foldl (next (recorded quiet))
        (State.initial ⟨(), []⟩)) (.perform (.net (.tcpClose 0)))).mode ≠ .ret (.value .unit) := by
      decide +kernel
    exact hnot hmode
  · rw [Lts.last_trace]
    decide +kernel
  · rw [Lts.last_trace]
    decide +kernel
  · rw [Lts.last_trace]
    decide +kernel
  · intro hserved
    have hlaw := (hserved.run 0 (Lts.trace (next quiet) (State.initial ()) returnsEarly) .go _ _
      (by rw [Lts.trace_append]; rfl) ⟨.inr ⟨[], ?_⟩, ?_⟩).once
    · revert hlaw
      decide +kernel
    · rw [Lts.last_trace]
      decide +kernel
    · decide +kernel

end

end PicoOcaml.Pio
