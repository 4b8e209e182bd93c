import PicoOcaml.Pio.FiberCount
import PicoOcaml.Pio.MainCompletion

/-! The calls of `Switch.fiber_done`: one for each fiber that has ended, as long as no `main_handler`
is left while it runs inside another one. -/
namespace PicoOcaml.Pio

/-- The function of a fiber. -/
def Handler.body : Handler → Body
  | .main sw => .main sw
  | .fiber sw => .fiber sw
  | .promise sw p => .promise sw p

def Handler.switch : Handler → ℕ
  | .main sw | .fiber sw | .promise sw _ => sw

variable {W : Type*}

/-- The function of a run does not end inside a second `main_handler`. -/
def endsCalmly (s : State W) : Act → Bool
  | .ret _ | .raise _ =>
    match s.stack with
    | .body (.main sw) :: .handler _ :: rest => rest.head? != some (.handler (.main sw))
    | _ => true
  | _ => true

/-- A `main_handler` is left, with a continuation that it keeps or at the end of the function, only if
it does not run inside another one of its run. -/
def LeavesOnce (X : Externals W) (s : State W) (a : Act) : Bool :=
  onSuspension calm X s a && endsCalmly s a

/-- The handler whose `retc` or `exnc` calls `Switch.fiber_done` in this step. -/
def told (s : State W) (a : Act) : List Handler :=
  match s.mode, s.stack, a with
  | .ret _, .handler h :: _, .go => [h]
  | _, _, _ => []

/-- How often the function has ended. -/
def State.ends (s : State W) (b : Body) : ℕ := s.book.log.countP (Event.ends b)

/-- `Switch.fiber_done` has been called once for each fiber that has ended, unless its answer is still
on the way to the handler. -/
structure ToldOnce (calls : List Handler) (s : State W) : Prop where
  atMost : ∀ h : Handler, calls.count h ≤ s.ends h.body
  all : s.mode = .run → ∀ h : Handler, calls.count h = s.ends h.body

/-- The counts are right, and none is 0 while a fiber of its switch is suspended. -/
structure FibersCounted (s : State W) : Prop where
  counts : CountsFibers s
  suspended : ∀ (h : Handler) (segment : List Frame), some segment ∈ s.segments →
    .handler h ∈ segment → 0 < s.fibers h.switch

/-- In each state of the run the calls of `fiber_done` so far are right. -/
def DoneOnce (s : State W) (xs : List (Act × State W)) : Prop :=
  ∀ ys zs, xs = ys ++ zs → ToldOnce (Lts.gather told s ys) (Lts.last s ys)

/-! ### Who hands an answer to a handler -/

theorem above_handler {f : Frame} {h : Handler} (hab : Above f (.handler h)) :
    f = .body h.body ∨ f = .handler h := by
  cases f with
  | body b =>
    left
    cases b with
    | top => exact hab.elim
    | element p => cases hab
    | hook sw n =>
      obtain ⟨hooks, hab⟩ := hab
      cases hab
    | _ =>
      cases hab
      rfl
  | handler h' =>
    right
    cases h' with
    | main sw =>
      rcases hab with hab | hab
      · exact hab.symm
      · cases hab
    | _ => cases hab
  | mainScheduler sw =>
    obtain ⟨b, hab⟩ := hab
    cases hab
  | cleanup sw hooks =>
    obtain ⟨b, hab⟩ := hab
    cases hab
  | _ => cases hab

variable {X : Externals W} {s t : State W} {a : Act} {b : Body} {h hd : Handler} {r : Answer}
  {f : Frame} {fs rest : List Frame} {c : List Frame → Handler → List Frame → Prop}

/-- Neither a loop nor the run over the hooks nor the `try` of an element stands on a handler. -/
theorem not_above_handler (hc : (f :: rest).IsChain Above) (hb : ∀ b, f ≠ .body b)
    (hf : f.isHandler = false) : rest.head? ≠ some (.handler hd) := by
  intro hhead
  rcases above_handler ((List.isChain_cons.mp hc).1 _ hhead) with rfl | rfl
  · exact hb hd.body rfl
  · cases hf

/-- A loop that goes on hands nothing to a handler. -/
theorem Shift.loop_returns (hsh : Shift c s t) (hl : s.Looping f fs) (hs : Sane s)
    (hb : Balanced s.book) : ¬ t.Returns r (.handler hd) rest := by
  have hprogram : ∀ b gs, ¬ s.Program b gs := by
    rintro b gs hp
    have hst := hl.2.1.symm.trans hp.2
    rw [List.cons.injEq] at hst
    have hloop := hl.2.2
    rw [hst.1] at hloop
    cases hloop
  have hreturns : ∀ a g gs, ¬ s.Returns a g gs := fun a g gs hret => by
    cases hl.1.symm.trans hret.1
  have hchain := hs.control.chain
  rw [hl.2.1] at hchain
  rintro ⟨hm, hst⟩
  have hrun : t.mode = .run → False := fun hrun => by cases hrun.symm.trans hm
  have hhead : t.stack.head? = some (.handler hd) := by rw [hst, List.head?_cons]
  have hnot : fs.head? ≠ some (.handler hd) := by
    refine not_above_handler hchain ?_ ?_
    · rintro b rfl
      cases hl.2.2
    · cases f <;> first | rfl | cases hl.2.2
  cases hsh with
  | switchRun hp => exact hprogram _ _ hp
  | reply a hp => exact hprogram _ _ hp
  | suspend w hp => exact hprogram _ _ hp
  | finish a hp => exact hprogram _ _ hp
  | launch hl' hq ht => exact hrun rfl
  | @resume g gs segment hd' k a q hl' hq hk =>
    obtain ⟨b, gs, rfl, -⟩ := (hs.control.captured_resume hs.agreed hq hk).shape
    cases hhead
  | resumeTwice hl' hq hk => exact not_resumed_twice hs hb hq hk
  | stillPending hl' hq ho => exact not_still_pending hs hq ho
  | toBody hret => exact hreturns _ _ _ hret
  | toCleanup hret => exact hreturns _ _ _ hret
  | toLoop hret => exact hreturns _ _ _ hret
  | breakLoop hret => exact hreturns _ _ _ hret
  | endMain hret => exact hreturns _ _ _ hret
  | endFiber hret => exact hreturns _ _ _ hret
  | endPromise hret => exact hreturns _ _ _ hret
  | endElement hret => exact hreturns _ _ _ hret
  | exitScheduler hl' hq hio hf =>
    obtain ⟨rfl, rfl⟩ := List.cons.inj (hl.2.1.symm.trans hl'.2.1)
    exact hnot hhead
  | exitCleanup hm' hst' =>
    obtain ⟨rfl, rfl⟩ := List.cons.inj (hl.2.1.symm.trans hst')
    cases hl.2.2
  | exitMain hl' hq hr => exact hrun hl.1
  | runHook hm' hst' => exact hrun hm'
  | _ => exact hrun hl.1

/-- The act ends the code on top. -/
def Act.answer : Act → Option Answer
  | .ret v => some (.value v)
  | .raise e => some (.exn e)
  | _ => none

theorem step_finish (hstep : Step X s a t) (ha : a.answer = some r) : ∃ b fs, s.Program b fs ∧
    t = { s with book := s.book.note (.ended b r), stack := fs, mode := .ret r } := by
  obtain ⟨he, rfl⟩ := hstep
  cases a with
  | ret v =>
    cases ha
    obtain ⟨⟨b, fs, hp⟩, -⟩ := enabled_program he (by simp)
    exact ⟨b, fs, hp, by simp [next, finish, hp.2]⟩
  | raise e =>
    cases ha
    obtain ⟨⟨b, fs, hp⟩, -⟩ := enabled_program he (by simp)
    exact ⟨b, fs, hp, by simp [next, finish, hp.2]⟩
  | _ => cases ha

/-- A handler keeps a continuation that is more than the code on top. -/
theorem split_length {segment : List Frame} (hs : s.stack = .body b :: fs)
    (hsplit : splitHandler s.stack = some (segment, h, rest)) : rest.length < fs.length ∧
      (fs = .handler h :: rest ∨ rest.length + 1 < fs.length) := by
  obtain ⟨happ, gs, rfl, -⟩ := splitHandler_spec hsplit
  rw [happ, List.append_assoc] at hs
  cases gs with
  | nil => cases hs
  | cons g gs =>
    have hfs : fs = gs ++ .handler h :: rest := by simpa using (List.cons.inj hs).2.symm
    subst hfs
    cases gs with
    | nil => exact ⟨by simp, .inl rfl⟩
    | cons g' gs =>
      simp only [List.length_append, List.length_cons]
      exact ⟨by omega, .inr (by omega)⟩

theorem perform_toHandler {eff : Eff} (hp : s.Program b fs)
    (hc : onSuspension calm X s (.perform eff) = true) (hchain : s.stack.IsChain Above) :
    ¬ (perform X s eff).Returns r (.handler hd) rest := by
  rintro ⟨hm, hst⟩
  rcases perform_control X s eff with ⟨hstack, -, -⟩ | ⟨segment, h, below, u, hsplit, hsus, hu⟩
  · cases hst.symm.trans (hstack.trans hp.2)
  · rw [hu] at hm hst
    cases h with
    | main sw =>
      have hbelow : below = .handler hd :: rest := hst
      have hcalm : calm segment (.main sw) below = true := by
        simpa [onSuspension, hsplit, hsus] using hc
      obtain ⟨happ, gs, rfl, -⟩ := splitHandler_spec hsplit
      rw [happ] at hchain
      have hab := below_handler hchain (.handler hd) (by simp [hbelow])
      rcases hab with hab | hab
      · exact calm_main hcalm (by simp [hbelow, hab])
      · cases hab
    | fiber sw => cases hm
    | promise sw p => cases hm

theorem run_toHandler (he : Enabled s .go = true) (hm : s.mode = .run) (hi : MainInv s) :
    ¬ (next X s .go).Returns r (.handler hd) rest := by
  intro hret
  have hpass : MainInv (s.pass X) := Shift.mainInv pass_shift hi
  have hloop : ∀ f fs, s.Looping f fs → False := fun f fs hl =>
    (looping_shift (c := fun _ _ _ => True) hl).loop_returns (s := s.pass X) hl hpass.sane
      hpass.balanced hret
  cases hst : s.stack with
  | nil => simp [Enabled, hm, hst] at he
  | cons f fs =>
    cases f with
    | scheduler sw => exact hloop _ _ ⟨hm, hst, rfl⟩
    | mainScheduler sw => exact hloop _ _ ⟨hm, hst, rfl⟩
    | cleanup sw hooks =>
      cases hooks with
      | nil =>
        have ht : (next X s .go).stack = fs := by simp [next, go, hm, hst, cleanupRound]
        have hchain := hi.sane.control.chain
        rw [hst] at hchain
        have hnot : fs.head? ≠ some (.handler hd) := not_above_handler hchain (by simp) rfl
        exact hnot (by rw [← ht, hret.2, List.head?_cons])
      | cons n hooks =>
        have hrun : (next X s .go).mode = .run := by simp [next, go, hm, hst, cleanupRound]
        cases hrun.symm.trans hret.1
    | _ => simp [Enabled, hm, hst] at he

theorem deliver_toHandler {x : Answer} (hs : s.Returns x f fs) (hi : MainInv s)
    (hret : (deliver s x fs f).Returns r (.handler hd) rest) :
    f = .handler hd ∧ fs = .handler hd :: rest := by
  have hchain := hi.sane.control.chain
  rw [hs.2] at hchain
  have hrun : (deliver s x fs f).mode ≠ .run := fun hrun => by cases hrun.symm.trans hret.1
  have hhead : ∀ gs, (deliver s x fs f).stack = gs → gs.head? = some (.handler hd) := by
    rintro gs rfl
    rw [hret.2, List.head?_cons]
  cases f with
  | handler h =>
    cases h with
    | main sw =>
      have hfs : fs = .handler hd :: rest := by
        rw [← hret.2]
        cases x <;> rfl
      rcases above_handler ((List.isChain_cons.mp hchain).1 (.handler hd) (by simp [hfs])) with hab | hab
      · cases hab
      · exact ⟨hab, hfs⟩
    | fiber sw => exact absurd rfl hrun
    | promise sw p => exact absurd rfl hrun
  | settles p =>
    refine absurd (hhead fs ?_) (not_above_handler hchain (by simp) rfl)
    cases x <;> rfl
  | scheduler sw =>
    obtain ⟨v, rfl⟩ := hi.answers.loop hs rfl
    exact absurd rfl hrun
  | mainScheduler sw =>
    obtain ⟨v, rfl⟩ := hi.answers.loop hs rfl
    exact absurd rfl hrun
  | _ => exact absurd rfl hrun

/-- An answer is handed to a handler by the function of its fiber, which ends, or by another handler of
the same main fiber. -/
theorem step_toHandler (hstep : Step X s a t) (hc : onSuspension calm X s a = true) (hi : MainInv s)
    (hret : t.Returns r (.handler hd) rest) :
    a.answer = some r ∧ s.Program hd.body (.handler hd :: rest) ∨
      a = .go ∧ ∃ b, s.Returns b (.handler hd) (.handler hd :: rest) := by
  obtain ⟨he, rfl⟩ := hstep
  by_cases hgo : a = .go
  · subst hgo
    cases hm : s.mode with
    | run => exact absurd hret (run_toHandler he hm hi)
    | ret x =>
      cases hst : s.stack with
      | nil => simp [Enabled, hm, hst] at he
      | cons f fs =>
        have ht : next X s .go = deliver s x fs f := by simp only [next, go, hm, hst]
        obtain ⟨rfl, rfl⟩ := deliver_toHandler ⟨hm, hst⟩ hi (ht ▸ hret)
        exact .inr ⟨rfl, x, hm, hst⟩
  · obtain ⟨⟨b, fs, hp⟩, -⟩ := enabled_program he hgo
    have hchain := hi.sane.control.chain
    cases hans : a.answer with
    | some x =>
      obtain ⟨b, fs, hp, ht⟩ := step_finish ⟨he, rfl⟩ hans
      rw [ht] at hret
      have hfs : fs = .handler hd :: rest := hret.2
      have hx : x = r := by simpa using hret.1
      subst hfs hx
      rw [hp.2] at hchain
      rcases above_handler ((List.isChain_cons.mp hchain).1 (.handler hd) rfl) with hab | hab
      · cases hab
        exact .inl ⟨rfl, hp⟩
      · cases hab
    | none =>
      exfalso
      cases a with
      | perform eff => exact perform_toHandler hp hc hchain hret
      | go => exact hgo rfl
      | ret v => cases hans
      | raise e => cases hans
      | _ => cases hp.1.symm.trans hret.1

/-! ### The ends of bodies -/

theorem not_program_tail (he : Enabled s a = true) (ha : a.answer = none) :
    ¬ s.Program b (next X s a).stack := by
  intro hp
  have hlen := congrArg List.length hp.2
  cases a with
  | go => simp [Enabled, hp.1, hp.2] at he
  | perform eff =>
    rcases perform_control X s eff with ⟨hst, -, -⟩ | ⟨segment, h, rest, u, hsplit, -, hu⟩
    · simp [next, hst] at hlen
    · have ht : (next X s (.perform eff)).stack = (u.leave h rest).stack := congrArg State.stack hu
      obtain ⟨hlt, hfs⟩ := split_length hp.2 hsplit
      rw [ht] at hlt hfs
      cases h with
      | main sw => exact absurd hlt (Nat.lt_irrefl _)
      | fiber sw => simp [State.leave] at hfs
      | promise sw p => simp [State.leave] at hfs
  | switchRun =>
    simp only [next, switchRun, List.length_cons] at hlen
    omega
  | ret v => cases ha
  | raise e => cases ha
  | _ => simp [next, State.setSwitch] at hlen

theorem ends_program (b : Body) : s.program.countP (Event.ends b) = s.ends b := by
  rw [State.program, State.ends, List.countP_filter]
  congr 1
  funext e
  cases e <;> simp [Event.ends, Event.ofProgram]

theorem Flow.ends (hf : Flow s t) (b : Body) (hno : ∀ b, ¬ s.Program b t.stack) :
    t.ends b = s.ends b := by
  rw [← ends_program, ← ends_program]
  cases hf with
  | ended b' r hn hload hprog hfib hp => exact absurd hp (hno b')
  | still hn hload hprog hfib => rw [hprog]
  | issue u hn hu hmain hsw hp hload hprog hfib =>
    rw [hprog, List.countP_append]
    rfl
  | run hn hload hprog hfib =>
    rw [hprog, List.countP_append]
    rfl
  | done f r rest hn hret hbody hload hprog hfib => rw [hprog]
  | mainDone r sw rest hn hret hload hprog hfib => rw [hprog]

/-- Only the code on top ends. -/
theorem step_ends (hstep : Step X s a t) (hs : Sane s) (ha : a.answer = none) (b : Body) :
    t.ends b = s.ends b := by
  have hno : ∀ b, ¬ s.Program b t.stack := by
    obtain ⟨he, rfl⟩ := hstep
    exact fun b => not_program_tail he ha
  rcases step_stride (c := fun _ _ _ => True) hstep (by intros; trivial) with
    hst | ⟨sock, w, -, rfl⟩
  · cases hst with
    | stay heq => rw [heq]
    | one hsh => exact (hsh.flow hs.agreed).ends b hno
    | @two u hsh hstack hmode hsh' =>
      have hfirst : u.ends b = s.ends b := by
        refine (hsh.flow hs.agreed).ends b ?_
        rintro b' ⟨-, hst⟩
        have hlen := congrArg List.length hst
        simp [hstack] at hlen
      have hsecond : t.ends b = u.ends b := by
        refine (hsh'.flow (hsh.sane hs).agreed).ends b ?_
        rintro b' ⟨hm, hst⟩
        exact hno b' ⟨hmode ▸ hm, hstack ▸ hst⟩
      exact hsecond.trans hfirst
  · rfl

theorem endedMain_ends {sw : ℕ} : s.EndedMain sw ↔ 0 < s.ends (.main sw) := by
  rw [endedMain_iff, ends_program]

/-! ### Every answer for a handler is the only one -/

/-- The handler that takes an answer does not stand on another one, and a `main_handler` has not
taken one before. -/
structure Lone (s : State W) : Prop where
  once : ∀ {r : Answer} {h : Handler} {rest : List Frame}, s.Returns r (.handler h) rest →
    rest.head? ≠ some (.handler h)
  first : ∀ {r : Answer} {sw : ℕ} {rest : List Frame}, s.Returns r (.handler (.main sw)) rest →
    ¬ s.Answered sw

theorem not_ended_of_stack (hi : MainInv s) {sw : ℕ} (hmem : .body (.main sw) ∈ s.stack) :
    sw < s.nextSwitch ∧ ¬ s.EndedMain sw := by
  have hpos : 0 < (Census.only (.body (.main sw)) rfl).load s := by
    have hone : 0 < (Census.only (.body (.main sw)) rfl).frames s.stack :=
      sum_map_pos.mpr ⟨_, hmem, by simp [Census.only]⟩
    simp only [Census.load]
    omega
  exact hi.counted.not_ended hpos

/-- Below a fiber's handler stands a loop. -/
theorem lone_fiber (hc : (.handler hd :: rest).IsChain Above) (hmain : ∀ sw, hd ≠ .main sw) :
    rest.head? ≠ some (.handler hd) := by
  intro hhead
  have hab := (List.isChain_cons.mp hc).1 _ hhead
  cases hd with
  | main sw => exact hmain sw rfl
  | fiber sw => cases hab
  | promise sw p => cases hab

theorem step_lone (hstep : Step X s a t) (hc : LeavesOnce X s a = true) (hi : MainInv s)
    (hl : Lone s) : Lone t := by
  obtain ⟨hcalm, hends⟩ := Bool.and_eq_true_iff.mp hc
  have hfrom : ∀ {r hd rest}, t.Returns r (.handler hd) rest →
      a.answer = some r ∧ s.Program hd.body (.handler hd :: rest) := by
    intro r hd rest hret
    rcases step_toHandler hstep hcalm hi hret with hfin | ⟨-, b, hret'⟩
    · exact hfin
    · exact absurd rfl (hl.once hret')
  constructor
  · intro r hd rest hret
    obtain ⟨ha, hp⟩ := hfrom hret
    have hchain := hi.sane.control.chain
    rw [hp.2] at hchain
    by_cases hmain : ∃ sw, hd = .main sw
    · obtain ⟨sw, rfl⟩ := hmain
      have hst : s.stack = .body (.main sw) :: .handler (.main sw) :: rest := hp.2
      cases a with
      | ret v => simpa [endsCalmly, hst] using hends
      | raise e => simpa [endsCalmly, hst] using hends
      | _ => cases ha
    · push Not at hmain
      exact lone_fiber hchain.tail hmain
  · intro r sw rest hret hans
    obtain ⟨ha, hp⟩ := hfrom hret
    have hmem : Frame.body (.main sw) ∈ s.stack := hp.2 ▸ List.mem_cons_self ..
    obtain ⟨b, fs, -, rfl⟩ := step_finish hstep ha
    exact (not_ended_of_stack hi hmem).2 (hi.answers.kept hans)

theorem lone_initial (world : W) : Lone (State.initial world) :=
  ⟨fun hret => (by cases hret.1), fun hret => (by cases hret.1)⟩

theorem Lone.endsMainOnce (hl : Lone s) (hi : MainInv s) : EndsMainOnce s :=
  fun _ _ _ hret _ => ⟨hi.answers.main hret, hl.first hret⟩

/-! ### Calls -/

/-- A call of `fiber_done` is on the way, or it has been made, for each end. -/
def Notified (calls : List Handler) (s : State W) : Prop :=
  ∀ h : Handler, calls.count h + (told s .go).count h = s.ends h.body

theorem Handler.body_inj {h h' : Handler} (hb : h.body = h'.body) : h = h' := by
  cases h <;> cases h' <;> simp_all [Handler.body]

theorem told_of_run (hm : s.mode = .run) : told s a = [] := by
  simp [told, hm]

theorem told_returns (hret : s.Returns r (.handler h) rest) : told s .go = [h] := by
  simp [told, hret.1, hret.2]

theorem told_nil (hno : ∀ r h rest, ¬ s.Returns r (.handler h) rest) : told s .go = [] := by
  cases hm : s.mode with
  | run => exact told_of_run hm
  | ret r =>
    simp only [told, hm]
    split
    · rename_i hst _
      exact absurd ⟨hm, hst⟩ (hno r _ _)
    · rfl

/-- The function of a fiber that ends has its handler right below. -/
theorem told_finish (hc : (.body b :: fs).IsChain Above) (hg : Grounded (.body b :: fs))
    (hm : t.mode = .ret r) (hst : t.stack = fs) (h : Handler) :
    (told t .go).count h = if b = h.body then 1 else 0 := by
  cases fs with
  | nil =>
    have htop := hg (.body b) rfl
    cases htop
    rw [told_nil fun r' h' rest hret => by cases hst.symm.trans hret.2]
    cases h <;> rfl
  | cons f fs =>
    have hab := (List.isChain_cons_cons.mp hc).1
    by_cases hf : ∃ hd, f = .handler hd
    · obtain ⟨hd, rfl⟩ := hf
      rw [told_returns ⟨hm, hst⟩]
      rcases above_handler hab with hb | hb
      · cases hb
        by_cases heq : hd = h
        · subst heq
          simp
        · rw [if_neg fun hb => heq (Handler.body_inj hb)]
          simpa [List.count_singleton] using heq
      · cases hb
    · push Not at hf
      rw [told_nil fun r' h' rest hret => hf h' (by
        have heq := hst.symm.trans hret.2
        rw [List.cons.injEq] at heq
        exact heq.1), if_neg, List.count_nil]
      rintro rfl
      cases h <;> exact hf _ hab

theorem step_notified {calls : List Handler} (hstep : Step X s a t)
    (hc : onSuspension calm X s a = true) (hi : MainInv s) (hl : Lone s) (hg : Grounded s.stack)
    (h : Notified calls s) : Notified (calls ++ told s a) t := by
  intro hd
  have hold := h hd
  rw [List.count_append]
  cases hans : a.answer with
  | some r =>
    obtain ⟨b, fs, hp, rfl⟩ := step_finish hstep hans
    have hchain := hi.sane.control.chain
    rw [hp.2] at hchain hg
    have hends : State.ends { s with book := s.book.note (.ended b r), stack := fs, mode := .ret r }
        hd.body = s.ends hd.body + if b = hd.body then 1 else 0 := by
      simp [State.ends, Book.note, Event.ends, List.countP_append, List.countP_singleton]
    rw [told_finish hchain hg rfl rfl, hends, told_of_run hp.1]
    rw [told_of_run hp.1] at hold
    simp only [List.count_nil, Nat.add_zero] at hold ⊢
    omega
  | none =>
    have hlast : told t .go = [] := by
      apply told_nil
      intro r h rest hret
      rcases step_toHandler hstep hc hi hret with ⟨ha, -⟩ | ⟨-, b, hret'⟩
      · cases hans.symm.trans ha
      · exact hl.once hret' rfl
    have hsame : told s a = told s .go := by
      by_cases hgo : a = .go
      · rw [hgo]
      · obtain ⟨⟨b, fs, hp⟩, -⟩ := enabled_program hstep.1 hgo
        rw [told_of_run hp.1, told_of_run hp.1]
    rw [step_ends hstep hi.sane hans, hlast, hsame, List.count_nil, Nat.add_zero]
    exact hold

theorem Notified.toldOnce {calls : List Handler} (h : Notified calls s) : ToldOnce calls s := by
  refine ⟨fun hd => ?_, fun hm hd => ?_⟩
  · have hold := h hd
    omega
  · have hold := h hd
    rwa [told_of_run hm] at hold

/-- What every step keeps that leaves no `main_handler` inside another one. -/
structure Square (calls : List Handler) (s : State W) : Prop where
  main : MainInv s
  tallied : Tallied s
  lone : Lone s
  grounded : Grounded s.stack
  notified : Notified calls s

theorem square_initial (world : W) : Square [] (State.initial world) where
  main := mainInv_initial world
  tallied := tallied_initial world
  lone := lone_initial world
  grounded := grounded_initial world
  notified _ := rfl

theorem step_square {calls : List Handler} (hstep : Step X s a t) (hc : LeavesOnce X s a = true)
    (h : Square calls s) : Square (calls ++ told s a) t where
  main := step_mainInv hstep (Bool.and_eq_true_iff.mp hc).1 h.main
  tallied := (step_tallied hstep h.tallied).2 (h.lone.endsMainOnce h.main)
  lone := step_lone hstep hc h.main h.lone
  grounded := step_grounded hstep h.grounded
  notified := step_notified hstep (Bool.and_eq_true_iff.mp hc).1 h.main h.lone h.grounded h.notified

/-- A suspended fiber has not ended, so its switch counts it. -/
theorem fibersCounted (hi : MainInv s) (h : Tallied s) : FibersCounted s := by
  refine ⟨h.count, ?_⟩
  intro hd segment hseg hmem
  have hload : ∀ w : Census, 0 < w.frames segment → 0 < w.load s := by
    intro w hpos
    have hone : 0 < (s.segments.map w.segment).sum := sum_map_pos.mpr ⟨_, hseg, hpos⟩
    simp only [Census.load]
    omega
  by_cases hmain : ∃ sw, hd = .main sw
  · obtain ⟨sw, rfl⟩ := hmain
    obtain ⟨k, hk⟩ := List.mem_iff_getElem?.mp hseg
    obtain ⟨eff, hd, -, hcap⟩ := hi.sane.control.segments hk
    have hbody : .body (.main sw) ∈ segment := by
      obtain ⟨b, fs, hsegment, hfs⟩ := hcap.shape
      -- its handler is the one at the bottom
      have hlast : hd = .main sw := by
        rw [hsegment] at hmem
        rcases List.mem_append.mp hmem with hmem | hmem
        · rcases List.mem_cons.mp hmem with heq | hmem
          · cases heq
          · cases hfs _ hmem
        · simpa using (List.mem_singleton.mp hmem).symm
      subst hlast
      obtain ⟨gs, hgs⟩ := hcap.body_main
      simp [hgs]
    obtain ⟨hlt, hended⟩ := hi.counted.not_ended (hload (Census.only (.body (.main sw)) rfl)
      (sum_map_pos.mpr ⟨_, hbody, by simp [Census.only]⟩))
    have hcount : s.fibers sw = 1 + (Census.ofSwitch sw).load s := hi.counted.fibers sw hlt hended
    simp only [Handler.switch]
    omega
  · have hpos := hload (Census.ofSwitch hd.switch) (sum_map_pos.mpr ⟨_, hmem, by
      cases hd with
      | main sw => exact absurd ⟨sw, rfl⟩ hmain
      | fiber sw => simp [Census.ofSwitch, Frame.switch, Handler.switch]
      | promise sw p => simp [Census.ofSwitch, Frame.switch, Handler.switch]⟩)
    have hlt : hd.switch < s.nextSwitch := by
      by_contra hge
      have hzero := h.fresh hd.switch (Nat.le_of_not_lt hge)
      omega
    have hcount := h.count hd.switch hlt
    rw [hcount, State.live]
    omega

/-! ### A `main_handler` that is left inside another one -/

/-- The handler outside takes the unit for the end of the function. -/
theorem miscounts_suspension {calls : List Handler} (hstep : Step X s a t) (h : Square calls s)
    (hc : onSuspension calm X s a = false) :
    t.mode ≠ .run ∧ ∀ a' u, Step X t a' u → ¬ CountsFibers u := by
  have htally := (step_tallied hstep h.tallied).2 (h.lone.endsMainOnce h.main)
  obtain ⟨sw, rest, hlt, hnot, hret⟩ : ∃ sw rest, sw < t.nextSwitch ∧ ¬ t.EndedMain sw ∧
      t.Returns (.value .unit) (.handler (.main sw)) rest := by
    cases a with
    | perform eff =>
      simp only [onSuspension] at hc
      split at hc
      · rename_i segment hd rest hsplit
        obtain ⟨hsus, hcalm⟩ := Bool.or_eq_false_iff.mp hc
        obtain ⟨⟨b, fs, hp⟩, -⟩ := enabled_program hstep.1 (by simp)
        have hcap := captured_of_split hp.2 h.main.sane.control.chain hsplit
        obtain ⟨happ, -⟩ := splitHandler_spec hsplit
        obtain ⟨u, hu, hn, -⟩ := perform_suspended hsplit (by simpa using hsus)
        cases hd with
        | main sw =>
          obtain ⟨gs, hgs⟩ := hcap.body_main
          have hmem : .body (.main sw) ∈ s.stack := by simp [happ, hgs]
          obtain ⟨hlt, hnot⟩ := not_ended_of_stack h.main hmem
          rw [endedMain_ends, ← step_ends hstep h.main.sane rfl, ← endedMain_ends] at hnot
          obtain ⟨below, rfl⟩ := List.head?_eq_some_iff.mp (by simpa [calm] using hcalm)
          have ht : t = u.leave (.main sw) (.handler (.main sw) :: below) := hstep.2.trans hu
          refine ⟨sw, below, ?_, hnot, ?_⟩
          · rw [ht]
            exact hn ▸ hlt
          · rw [ht]
            exact ⟨rfl, rfl⟩
        | fiber sw => simp [calm] at hcalm
        | promise sw p => simp [calm] at hcalm
      · cases hc
    | _ => cases hc
  refine ⟨fun hrun => ?_, fun a' u hnext hcounts => ?_⟩
  · cases hrun.symm.trans hret.1
  · exact hnot (((step_tallied hnext htally).1.mp hcounts _ _ _ hret hlt).1)

/-- When the function ends inside two handlers, both keep an answer. -/
theorem miscounts_end {calls : List Handler} (hstep : Step X s a t) (h : Square calls s)
    (hc : endsCalmly s a = false) : t.mode ≠ .run ∧ ∀ a' u, Step X t a' u →
      u.mode ≠ .run ∧ (CountsFibers u → ∀ a'' v, Step X u a'' v → ¬ CountsFibers v) := by
  have htally := (step_tallied hstep h.tallied).2 (h.lone.endsMainOnce h.main)
  obtain ⟨r, sw, rest, hlt, hret⟩ : ∃ r sw rest, sw < t.nextSwitch ∧
      t.Returns r (.handler (.main sw)) (.handler (.main sw) :: rest) := by
    have hans : ∃ r, a.answer = some r := by
      cases a <;> first | exact ⟨_, rfl⟩ | cases hc
    obtain ⟨r, hans⟩ := hans
    obtain ⟨b, fs, hp, rfl⟩ := step_finish hstep hans
    have hchain := h.main.sane.control.chain
    rw [hp.2] at hchain
    have hends : (match s.stack with
        | .body (.main sw) :: .handler _ :: rest => rest.head? != some (.handler (.main sw))
        | _ => true) = false := by
      cases a <;> first | exact hc | cases hans
    split at hends
    · rename_i sw hd rest hst
      obtain ⟨below, rfl⟩ := List.head?_eq_some_iff.mp (by simpa using hends)
      have hmem : .body (.main sw) ∈ s.stack := by simp [hst]
      obtain ⟨hlt, -⟩ := not_ended_of_stack h.main hmem
      obtain ⟨hb, rfl⟩ := List.cons.inj (hp.2.symm.trans hst)
      obtain rfl : b = .main sw := by simpa using hb
      obtain rfl : hd = .main sw := by simpa [Above] using (List.isChain_cons_cons.mp hchain).1
      exact ⟨r, sw, below, hlt, rfl, rfl⟩
    · cases hends
  refine ⟨fun hrun => (by cases hrun.symm.trans hret.1), fun a' u hnext => ?_⟩
  have hu := step_endMain hnext hret
  have hret' : u.Returns (.value .unit) (.handler (.main sw)) rest := by
    rw [hu]
    exact ⟨rfl, rfl⟩
  refine ⟨fun hrun => (by cases hrun.symm.trans hret'.1), fun hcounts a'' v hlast hcounts' => ?_⟩
  obtain ⟨hcount, hkeep⟩ := step_tallied hnext htally
  have hlt' : sw < u.nextSwitch := by
    rw [hu]
    cases r <;> exact hlt
  have hanswered : u.Answered sw := hu ▸ (answered_endMain r sw sw _).mpr (.inl rfl)
  have honce := (step_tallied hlast (hkeep (hcount.mp hcounts))).1.mp hcounts'
  exact (honce _ _ _ hret' hlt').2 hanswered

/-! ### Runs -/

variable {xs : List (Act × State W)}

theorem run_square {calls : List Handler} (h : Lts.Run (Step X) s xs)
    (hc : Lts.Run (fun s a _ => LeavesOnce X s a = true) s xs) (hs : Square calls s) :
    Square (calls ++ Lts.gather told s xs) (Lts.last s xs) :=
  (Lts.run_and.mpr ⟨h, hc⟩).gathers (P := Square) hs fun _ _ _ _ hu hstep =>
    step_square hstep.1 hstep.2 hu

/-- The first step that leaves a `main_handler` inside another one makes a count wrong. -/
theorem leavesOnce_of_counts {calls : List Handler} (h : Lts.Run (Step X) s xs)
    (hs : Square calls s) (hend : (Lts.last s xs).mode = .run) (hc : Lts.Always CountsFibers s xs) :
    Lts.Run (fun s a _ => LeavesOnce X s a = true) s xs := by
  induction xs generalizing s calls with
  | nil => trivial
  | cons x xs ih =>
    obtain ⟨a, t⟩ := x
    obtain ⟨hstep, hrun⟩ := h
    have htail := (Lts.always_cons.mp hc).2
    by_cases hl : LeavesOnce X s a = true
    · exact ⟨hl, ih hrun (step_square hstep hl hs) hend htail⟩
    · exfalso
      rw [LeavesOnce, Bool.and_eq_true, not_and_or, Bool.not_eq_true, Bool.not_eq_true] at hl
      cases xs with
      | nil =>
        rcases hl with hl | hl
        · exact (miscounts_suspension hstep hs hl).1 hend
        · exact (miscounts_end hstep hs hl).1 hend
      | cons y ys =>
        obtain ⟨a', u⟩ := y
        have htail' := (Lts.always_cons.mp htail).2
        rcases hl with hl | hl
        · exact (miscounts_suspension hstep hs hl).2 a' u hrun.1 htail'.first
        · cases ys with
          | nil => exact ((miscounts_end hstep hs hl).2 a' u hrun.1).1 hend
          | cons z zs =>
            obtain ⟨a'', v⟩ := z
            exact ((miscounts_end hstep hs hl).2 a' u hrun.1).2 htail'.first a'' v hrun.2.1
              (Lts.always_cons.mp htail').2.first

/-- As long as no `main_handler` is left while it runs inside another one of its run, every count
is the number of fibers that have not ended, it is positive while one of them is suspended, and
`fiber_done` has been called once for each fiber that has ended. In a run that does not stop while
an answer is handed down, no weaker condition keeps the counts right. -/
theorem fibers_counted {world : W} (h : Lts.Run (Step X) (State.initial world) xs) :
    (Lts.Run (fun s a _ => LeavesOnce X s a = true) (State.initial world) xs →
      Lts.Always FibersCounted (State.initial world) xs ∧ DoneOnce (State.initial world) xs) ∧
    ((Lts.last (State.initial world) xs).mode = .run →
      Lts.Always CountsFibers (State.initial world) xs →
        Lts.Run (fun s a _ => LeavesOnce X s a = true) (State.initial world) xs) := by
  refine ⟨fun hc => ⟨?_, ?_⟩, fun hend hcounts =>
    leavesOnce_of_counts h (square_initial world) hend hcounts⟩
  · have hal := (Lts.run_and.mpr ⟨h, hc⟩).always (p := fun s => ∃ calls, Square calls s)
      ⟨[], square_initial world⟩ fun _ _ _ ⟨_, hu⟩ hstep => ⟨_, step_square hstep.1 hstep.2 hu⟩
    exact hal.imp fun _ ⟨_, hu⟩ => fibersCounted hu.main hu.tallied
  · rintro ys zs rfl
    have hsquare := run_square (Lts.run_append.mp h).1 (Lts.run_append.mp hc).1 (square_initial world)
    exact hsquare.notified.toldOnce

/-- The main fiber forks and ends, and then the forked fiber yields and ends. -/
def forkThenEnd : List Act :=
  [.switchRun, .go, .perform (.fork 0), .go, .ret .unit, .go, .go, .go, .perform .yield, .go, .go,
    .ret .unit, .go]

theorem fibers_counted_fork :
    Lts.Always FibersCounted (State.initial ())
      (Lts.trace (next quiet) (State.initial ()) forkThenEnd) ∧
    DoneOnce (State.initial ()) (Lts.trace (next quiet) (State.initial ()) forkThenEnd) :=
  (fibers_counted (X := quiet) (Lts.run_accepts Enabled (by decide))).1
    ((Lts.run_accepts (LeavesOnce quiet) (by decide)).imp fun _ _ _ h => h.1)

/-- The main fiber forks and yields, and once the forked fiber has ended it yields again. -/
def forkAndYield : List Act :=
  [.switchRun, .go, .perform (.fork 0), .go, .perform .yield, .go, .go, .ret .unit, .go, .go, .go,
    .perform .yield, .go]

/-- The second time, the handler around the resumption counts the main fiber as ended, and the
count is 0 while it is in the queue. -/
theorem fibers_miscounted : ∃ xs, Lts.Run (Step quiet) (State.initial ()) xs ∧
    ¬ Lts.Always CountsFibers (State.initial ()) xs := by
  refine ⟨Lts.trace (next quiet) (State.initial ()) forkAndYield,
    Lts.run_accepts Enabled (by decide), ?_⟩
  intro hall
  have hlast := hall.last
  rw [Lts.last_trace] at hlast
  exact absurd (hlast 0 (by decide)) (by decide)

end PicoOcaml.Pio
