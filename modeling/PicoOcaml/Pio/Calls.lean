import PicoOcaml.Pio.FiberAll

/-! A call of `Fiber.all` from its start to its end. -/
namespace PicoOcaml.Pio

variable {W : Type*} {X : Externals W} {s t : State W} {a : Act} {xs : List (Act × State W)}
  {b b' : Book} {k p : ℕ} {L ps : List ℕ} {c : List Frame → Handler → List Frame → Prop}

/-! ### When a continuation is resumed -/

namespace Book

@[simp] theorem resumed_note (e : Event) :
    (b.note e).resumed k = (b.resumed k || e.ranTask (Task.resumes k)) := by
  simp [resumed, note]

@[simp] theorem resumed_enqueueAll (ts : List Task) : (b.enqueueAll ts).resumed k = b.resumed k := by
  have hnone : (ts.map Event.enqueued).any (Event.ranTask (Task.resumes k)) = false := by
    simp [Event.ranTask]
  simp [resumed, enqueueAll, hnone]

@[simp] theorem resumed_enqueue (u : Task) : (b.enqueue u).resumed k = b.resumed k :=
  resumed_enqueueAll [u]

@[simp] theorem resumed_settle (o : PromiseState) : (b.settle p o).resumed k = b.resumed k := by
  simp only [settle]
  split
  · exact resumed_enqueueAll _
  · rfl

@[simp] theorem resumed_addWaiter (u : Task) : (b.addWaiter p u).resumed k = b.resumed k := by
  simp only [addWaiter]
  split
  · rfl
  · exact resumed_enqueue u

@[simp] theorem resumed_take (u : Task) (q : List Task) :
    (b.take u q).resumed k = (b.resumed k || u.resumes k) := resumed_note _

end Book

theorem resumed_iff : b.resumed k = true ↔ ∃ h r, .ran (.resume h k r) ∈ b.log := by
  simp only [Book.resumed, List.any_eq_true]
  constructor
  · rintro ⟨e, he, hran⟩
    cases e with
    | ran u =>
      cases u with
      | resume h j r =>
        have hj : j = k := of_decide_eq_true hran
        exact ⟨h, r, hj ▸ he⟩
      | _ => cases hran
    | _ => cases hran
  · rintro ⟨h, r, he⟩
    exact ⟨_, he, by simp [Event.ranTask, Task.resumes]⟩

theorem resumed_quiet (hq : Quiet b b') : b'.resumed k = b.resumed k := by
  cases hq with
  | settle p ho =>
    rw [Book.resumed_settle, Book.resumed_note]
    simp [Event.ranTask]
  | poll hp => exact Book.resumed_enqueueAll _
  | waker hq ho => simp [Task.resumes]
  | wake hq ha => simp [Task.resumes]
  | onTimeout hq => simp [Task.resumes]
  | awaited ho => simp [Event.ranTask]
  | create => rfl

theorem resumed_capture {eff : Eff} {h : Handler} (hc : Capture h b eff b') :
    b'.resumed k = b.resumed k := by
  cases hc with
  | await ho hlt => exact Book.resumed_addWaiter _
  | yield => exact Book.resumed_enqueue _
  | wait he => rfl

/-- A continuation that is new has not been resumed. -/
theorem Agreed.fresh (h : Agreed b) (hk : b.konts.length ≤ k) : b.resumed k = false := by
  by_contra hne
  obtain ⟨hd, r, hran⟩ := resumed_iff.mp (eq_true_of_ne_false hne)
  obtain ⟨eff, hkont, -⟩ := h.history _ hran
  have hlt := (List.getElem?_eq_some_iff.mp hkont).1
  omega

/-- The code that has performed the effect is handed the answer, under its handler. -/
def State.Resumed (s : State W) (k : ℕ) : Prop := s.Handled ∧ ∃ h r b rest,
  s.Returns r (.body b) rest ∧ .ran (.resume h k r) ∈ s.book.log

theorem Shift.resumed (hsh : Shift c s t) (hs : Sane s) (hk : t.book.resumed k = true) :
    s.book.resumed k = true ∨ s.mode = .run ∧ t.Resumed k := by
  have hsame : t.book.resumed k = s.book.resumed k → s.book.resumed k = true ∨
      s.mode = .run ∧ t.Resumed k := fun heq => .inl (heq ▸ hk)
  cases hsh with
  | quiet w hq => exact hsame (resumed_quiet hq)
  | fork hsw => exact hsame (Book.resumed_enqueue _)
  | forkPromise hsw => exact hsame (Book.resumed_enqueue _)
  | element => exact hsame (Book.resumed_enqueue _)
  | switchRun hs => exact hsame (Book.resumed_enqueue _)
  | suspend w hs hsplit hc hcap =>
    rw [State.leave_book] at hsame
    exact hsame (resumed_capture hcap)
  | finish a hs =>
    apply hsame
    simp [Event.ranTask]
  | @launch f rest u q hl hq hu =>
    apply hsame
    cases u with
    | resume h j r => cases hu
    | _ => simp [push, Task.resumes]
  | @resume f rest segment hd j r q hl hq hseg =>
    by_cases hj : j = k
    · right
      subst hj
      obtain ⟨eff, h, -, hcap⟩ := hs.control.segments hseg
      obtain ⟨b, fs, rfl, -⟩ := hcap.shape
      refine ⟨hl.1, ?_, hd, r, b, _, ⟨rfl, rfl⟩, ?_⟩
      · simp [State.Handled, Frame.isHandler]
      · exact List.mem_append_right _ (List.mem_singleton.mpr rfl)
    · apply hsame
      simp [Task.resumes, hj]
  | @resumeTwice f rest hd j r q hl hq hseg =>
    left
    by_cases hj : j = k
    · subst hj
      obtain ⟨eff, hkont, -⟩ := hs.agreed.queued _ (hq ▸ List.mem_cons_self)
      have hlt := (List.getElem?_eq_some_iff.mp hkont).1
      rw [← hs.control.length] at hlt
      have hget := List.getElem?_eq_getElem hlt
      rw [hget] at hseg
      have hnone : s.segments[j]? = some none := hget.trans (congrArg some hseg)
      obtain ⟨h, a, hran⟩ := hs.control.opened hnone
      exact resumed_iff.mpr ⟨h, a, hran⟩
    · simpa [Task.resumes, hj] using hk
  | stillPending hl hq ho =>
    apply hsame
    simp [Event.ranTask, Task.resumes]
  | @endMain a sw rest hs =>
    simp only [State.endMain_book] at hk
    exact .inl hk
  | endPromise hs => exact hsame (Book.resumed_settle _)
  | endElement hs ho => exact hsame (Book.resumed_settle _)
  | _ => exact .inl hk

/-- The step that resumes a continuation hands over to it. -/
theorem step_resumed (h : Step X s a t) (hs : Sane s) (hk : t.book.resumed k = true)
    (hnot : s.book.resumed k = false) : t.Resumed k := by
  have hold : s.book.resumed k ≠ true := by simp [hnot]
  rcases step_stride (c := fun _ _ _ => True) h (by intros; trivial) with hst | ⟨sock, w, -, rfl⟩
  · cases hst with
    | stay heq =>
      subst heq
      exact absurd hk hold
    | one hsh =>
      rcases hsh.resumed hs hk with hk | ⟨-, hres⟩
      · exact absurd hk hold
      · exact hres
    | two hsh hstack hmode hsh' =>
      rcases hsh'.resumed (hsh.sane hs) hk with hk | ⟨-, hres⟩
      · -- the first shift of two does not resume anything
        rcases hsh.resumed hs hk with hk | ⟨hrun, -, hd, r, b, rest, hret, -⟩
        · exact absurd hk hold
        · have hret' := hret.1
          rw [hmode, hrun] at hret'
          cases hret'
      · exact hres
  · exact absurd hk hold

/-! ### A call from its start to its end -/

theorem Completes.mono {r : Answer} (h : Completes b p r) (he : Extends b b') :
    Completes b' p r := by
  rcases h with hlog | ⟨hd, k, hd', hlog, hk⟩
  · exact .inl (he.log hlog)
  · exact .inr ⟨hd, k, hd', he.log hlog, he.konts hk⟩

namespace Call

/-- Of the elements `L`, which are queued, the call has awaited all that come before `ps`. -/
structure Awaited (b : Book) (L ps : List ℕ) : Prop where
  queued : ∀ p ∈ L, .enqueued (.element p) ∈ b.log
  before : ∃ done, L = done ++ ps ∧ ∀ p ∈ done, ∃ v, Completes b p (.value v)

/-- The call of which `L` are the promises stands where its code and the state stand. -/
def Ok (s : State W) (L : List ℕ) : Call → Prop
  | queue n ps => (∃ b rest, s.Program b rest) ∧ s.Handled ∧
      (∀ p ∈ ps, .enqueued (.element p) ∈ s.book.log) ∧
      ps ++ List.range' s.book.promises.length (n + 1) = L
  | await p ps => (∃ b rest, s.Program b rest) ∧ s.Handled ∧ Awaited s.book L (p :: ps)
  | answer p ps => (∃ r b rest, s.Returns r (.body b) rest ∧ Completes s.book p r) ∧ s.Handled ∧
      Awaited s.book L (p :: ps)
  | wait k p ps => s.book.resumed k = false ∧ (∃ h, s.book.konts[k]? = some (.await p, h)) ∧
      Awaited s.book L (p :: ps)
  | ended (.value _) => Awaited s.book L []
  | ended (.exn e) => ∃ p ps, Awaited s.book L (p :: ps) ∧ Completes s.book p (.exn e)

theorem Awaited.mono (h : Awaited b L ps) (he : Extends b b') : Awaited b' L ps := by
  obtain ⟨done, hL, hdone⟩ := h.before
  refine ⟨fun p hp => he.log (h.queued p hp), done, hL, ?_⟩
  intro p hp
  obtain ⟨v, hv⟩ := hdone p hp
  exact ⟨v, hv.mono he⟩

theorem Awaited.next {v : Val} (h : Awaited b L (p :: ps)) (hp : Completes b p (.value v)) :
    Awaited b L ps := by
  obtain ⟨done, hL, hdone⟩ := h.before
  refine ⟨h.queued, done ++ [p], by simpa using hL, ?_⟩
  intro q hq
  rcases List.mem_append.mp hq with hq | hq
  · exact hdone q hq
  · rw [List.mem_singleton.mp hq]
    exact ⟨v, hp⟩

theorem ok_iter (hp : ∃ b rest, s.Program b rest) (hh : s.Handled) (h : Awaited s.book L ps) :
    (iter ps).Ok s L := by
  cases ps with
  | nil => exact h
  | cons p ps => exact ⟨hp, hh, h⟩

theorem ok_map (n : ℕ) (hp : ∃ b rest, s.Program b rest) (hh : s.Handled)
    (hq : ∀ p ∈ ps, .enqueued (.element p) ∈ s.book.log) :
    (map ps n).Ok s (ps ++ List.range' s.book.promises.length n) := by
  cases n with
  | zero =>
    apply ok_iter hp hh
    refine ⟨by simpa using hq, [], by simp, ?_⟩
    intro p hp
    cases hp
  | succ n => exact ⟨hp, hh, hq, rfl⟩

/-- The next element is queued. -/
theorem ok_element {n : ℕ} (h : Step X s .element t) (hc : (queue n ps).Ok s L) :
    (map (ps ++ [s.book.promises.length]) n).Ok t L := by
  obtain ⟨-, rfl⟩ := h
  obtain ⟨hp, hh, hq, rfl⟩ := hc
  have hnew : ∀ p ∈ ps ++ [s.book.promises.length],
      .enqueued (.element p) ∈ (Pio.next X s .element).book.log := by
    intro p hp
    rcases List.mem_append.mp hp with hp | hp
    · exact List.mem_append_left _ (hq p hp)
    · rw [List.mem_singleton.mp hp]
      exact List.mem_append_right _ (List.mem_singleton.mpr rfl)
  have hmap := ok_map n (s := Pio.next X s .element) hp hh hnew
  simpa [Pio.next, Book.createPromise, Book.enqueue, Book.enqueueAll, List.range'_succ] using hmap

/-- An await answers at once, or its continuation is captured. -/
theorem ok_await (h : Step X s (.perform (.await p)) t) (hs : Sane s) (hc : (await p ps).Ok s L) :
    (if s.book.konts.length < t.book.konts.length then wait s.book.konts.length p ps
      else answer p ps).Ok t L := by
  have hext := step_extends h
  have hknown := (enabled_program h.1 (by simp)).2 _ rfl
  obtain ⟨-, rfl⟩ := h
  obtain ⟨⟨b, rest, hm, hst⟩, hh, hw⟩ := hc
  have hsome := splitHandler_isSome.mpr hh
  obtain ⟨⟨segment, hd, below⟩, hsplit⟩ := Option.isSome_iff_exists.mp hsome
  have hnext : Pio.next X s (.perform (.await p)) = effc X s segment hd below (.await p) := by
    simp only [Pio.next, perform, hsplit]
  rw [hnext] at hext ⊢
  cases ho : s.book.outcome p with
  | some r =>
    have heff : effc X s segment hd below (.await p) =
        { s with book := s.book.note (.awaited p r) }.reply r := by
      simp only [effc, ho]
    rw [heff] at hext ⊢
    rw [if_neg (by simp [State.reply, Book.note])]
    refine ⟨⟨r, b, rest, ⟨rfl, hst⟩, .inl ?_⟩, hh, hw.mono hext⟩
    exact List.mem_append_right _ (List.mem_singleton.mpr rfl)
  | none =>
    have heff : (effc X s segment hd below (.await p)).book =
        (s.book.capture (.await p) hd).addWaiter p (.waker p hd s.book.konts.length) := by
      simp only [effc, ho, State.suspend, State.leave_book]
    have hcap : Capture hd s.book (.await p) (effc X s segment hd below (.await p)).book := by
      rw [heff]
      exact .await ho hknown
    have hkonts := capture_konts hcap
    rw [if_pos (by simp [hkonts])]
    refine ⟨?_, ⟨hd, by simp [hkonts]⟩, hw.mono hext⟩
    rw [resumed_capture hcap]
    exact hs.agreed.fresh (Nat.le_refl _)

/-- The answer of an await is a value, and the call goes on, or an exception, which ends it. -/
theorem ok_answer {call : Call} (h : Step X s a t) (hc : (answer p ps).Ok s L)
    (hn : (answer p ps).next s a t = some call) : call.Ok t L := by
  have hext := step_extends h
  obtain ⟨⟨r, b, rest, hret, hr⟩, hh, hw⟩ := hc
  simp only [next] at hn
  split at hn
  · rename_i v hm
    cases hn
    obtain ⟨-, rfl⟩ := h
    have hgo : Pio.next X s .go = { s with mode := .run } := by
      simp only [Pio.next, go, hm, hret.2, deliver]
    rw [hgo] at hext ⊢
    rw [hret.1, Mode.ret.injEq] at hm
    subst hm
    exact ok_iter ⟨b, rest, rfl, hret.2⟩ hh ((hw.next hr).mono hext)
  · rename_i e hm
    cases hn
    rw [hret.1, Mode.ret.injEq] at hm
    subst hm
    exact ⟨p, ps, hw.mono hext, hr.mono hext⟩
  · cases hn

theorem step_ok {call call' : Call} (h : Step X s a t) (hs : Sane s) (hc : call.Ok s L)
    (hn : call.next s a t = some call') : call'.Ok t L := by
  have hext := step_extends h
  cases call with
  | queue n ps =>
    simp only [next] at hn
    split at hn
    · rename_i ha
      cases hn
      exact ok_element (ha ▸ h) hc
    · cases hn
  | await p ps =>
    simp only [next] at hn
    split at hn
    · rename_i ha
      cases hn
      exact ok_await (ha ▸ h) hs hc
    · cases hn
  | answer p ps => exact ok_answer h hc hn
  | wait k p ps =>
    obtain ⟨hnot, ⟨hd, hk⟩, hw⟩ := hc
    cases hn
    split
    · rename_i hres
      obtain ⟨hh, hd', r, b, rest, hret, hran⟩ := step_resumed h hs hres hnot
      exact ⟨⟨r, b, rest, hret, .inr ⟨hd', k, hd, hran, hext.konts hk⟩⟩, hh, hw.mono hext⟩
    · rename_i hres
      exact ⟨by simpa using hres, ⟨hd, hext.konts hk⟩, hw.mono hext⟩
  | ended r =>
    cases hn
    cases r with
    | value v => exact hc.mono hext
    | exn e =>
      obtain ⟨p, ps, hw, hr⟩ := hc
      exact ⟨p, ps, hw.mono hext, hr.mono hext⟩

theorem run_ok {call call' : Call} (h : Lts.Run (Step X) s xs) (hs : Sane s) (hc : call.Ok s L)
    (hf : call.follow s xs = some call') : call'.Ok (Lts.last s xs) L := by
  induction xs generalizing s call with
  | nil =>
    cases hf
    exact hc
  | cons x xs ih =>
    obtain ⟨a, t⟩ := x
    obtain ⟨u, hn, hf⟩ := Option.bind_eq_some_iff.mp hf
    exact ih h.2 (step_sane h.1 hs) (step_ok h.1 hs hc hn) hf

end Call

/-- What an await of an element's promise returns, the element has ended with. -/
theorem Elements.completes (h : Elements s) (ha : Agreed s.book) (hp : Private s.book)
    {r : Answer} (hq : .enqueued (.element p) ∈ s.book.log) (hr : Completes s.book p r) :
    .ended (.element p) r ∈ s.book.log := by
  rcases h.settled ((mem_program rfl).mpr hq) (ha.completed hr) with hset | hended
  · exact absurd hset (hp p hq)
  · exact hended

theorem Call.Ok.correct {r : Answer} (hc : (Call.ended r).Ok s L) (hs : Joined s)
    (hp : Private s.book) : Call.Correct s.book L r := by
  have hall : ∀ {q : ℕ} {r : Answer}, .enqueued (.element q) ∈ s.book.log →
      Completes s.book q r → .ended (.element q) r ∈ s.book.log :=
    fun hq hr => hs.elements.completes hs.sane.agreed hp hq hr
  refine ⟨?_, ?_, ?_⟩
  · rintro v rfl q hq
    obtain ⟨done, hL, hdone⟩ := Call.Awaited.before hc
    rw [List.append_nil] at hL
    subst hL
    obtain ⟨w, hw⟩ := hdone q hq
    exact ⟨w, hall (hc.queued q hq) hw⟩
  · rintro e rfl
    obtain ⟨p, ps, hw, hr⟩ := hc
    obtain ⟨done, rfl, hdone⟩ := hw.before
    refine ⟨done, p, ps, rfl, hall (hw.queued p (by simp)) hr, ?_⟩
    intro q hq
    obtain ⟨v, hv⟩ := hdone q hq
    exact ⟨v, hall (hw.queued q (List.mem_append_left _ hq)) hv⟩
  · rintro q - e ⟨v, hv⟩ he
    cases hs.elements.ended_once hv he

theorem frames_only {f : Frame} {hf : f.ofLibrary = false} {fs : List Frame}
    (h : 0 < (Census.only f hf).frames fs) : f ∈ fs := by
  obtain ⟨g, hg, hpos⟩ := sum_map_pos.mp h
  simp only [Census.only] at hpos
  split at hpos
  · rename_i heq
    exact heq ▸ hg
  · omega

/-- An element that has not ended is somewhere. -/
theorem Elements.attended (h : Elements s) : Attended s := by
  intro p hq
  have hcount := h.counted p
  have hone := List.count_pos_iff.mpr ((mem_program (s := s) rfl).mpr hq)
  by_cases hended : 0 < s.program.countP (Event.ends (.element p))
  · obtain ⟨e, he, hends⟩ := List.countP_pos_iff.mp hended
    cases e with
    | ended b a =>
      have hb : b = .element p := by simpa [Event.ends] using hends
      subst hb
      exact .inr (.inr (.inr ⟨a, (mem_program rfl).mp he⟩))
    | _ => cases hends
  · have hload : 0 < (Census.only (.body (.element p)) rfl).load s := by omega
    simp only [Census.load] at hload
    by_cases hstack : 0 < (Census.only (.body (.element p)) rfl).frames s.stack
    · exact .inr (.inl (frames_only hstack))
    · by_cases hqueue : 0 < (s.book.runQueue.map (Census.only (.body (.element p)) rfl).task).sum
      · obtain ⟨u, hu, hpos⟩ := sum_map_pos.mp hqueue
        rw [task_element] at hpos
        have hmem := List.count_pos_iff.mp hpos
        simp only [List.mem_singleton, Event.enqueued.injEq] at hmem
        exact .inl (hmem ▸ hu)
      · have hseg : 0 < (s.segments.map (Census.only (.body (.element p)) rfl).segment).sum := by
          omega
        obtain ⟨o, ho, hpos⟩ := sum_map_pos.mp hseg
        cases o with
        | none => exact absurd hpos (Nat.lt_irrefl 0)
        | some segment => exact .inr (.inr (.inl ⟨segment, ho, frames_only hpos⟩))

/-! ### Elements that are never suspended -/

/-- No element is in a continuation that a handler keeps. -/
def Unsuspended (s : State W) : Prop :=
  ∀ segment, some segment ∈ s.segments → segment.any Frame.isElement = false

theorem Shift.unsuspended
    (hsh : Shift (fun segment h rest => elementless segment h rest = true) s t)
    (h : Unsuspended s) : Unsuspended t := by
  cases hsh with
  | suspend w hs hsplit hc hcap =>
    intro segment hmem
    rw [State.leave_segments] at hmem
    rcases List.mem_append.mp hmem with hmem | hmem
    · exact h segment hmem
    · obtain rfl := Option.some.inj (List.mem_singleton.mp hmem)
      simpa [elementless] using hc
  | resume hs hq hk =>
    intro segment hmem
    rcases List.mem_or_eq_of_mem_set hmem with hmem | heq
    · exact h segment hmem
    · cases heq
  | @endMain a sw rest hs =>
    have hseg : ((s.keepAnswer sw a).fiberDone sw).segments = s.segments := keepAnswer_segments sw a
    intro segment hmem
    exact h segment (hseg ▸ hmem)
  | _ => exact h

/-- What is known when a call of `Fiber.all` starts. -/
structure Callable (s : State W) : Prop where
  joined : Joined s
  grounded : Grounded s.stack
  balanced : Balanced s.book
  loop : LoopAnswers s

theorem callable_initial (world : W) : Callable (State.initial world) where
  joined := joined_initial world
  grounded := grounded_initial world
  balanced L := Nat.le_of_eq (L.total_initial world)
  loop := loopAnswers_of_run rfl

theorem Shift.callable (hsh : Shift c s t) (h : Callable s) : Callable t where
  joined := hsh.joined h.joined
  grounded := hsh.grounded h.grounded
  balanced := h.balanced.moves hsh.moves
  loop := hsh.loopAnswers h.joined.sane h.balanced h.loop

theorem Callable.closed (h : Callable s) (sock : ℤ) (w : W) {b : Body} {rest : List Frame}
    (hs : s.Program b rest) : Callable (s.closed sock w) where
  joined := h.joined.closed sock w hs
  grounded := h.grounded
  balanced := h.balanced.drop sock
  loop := loopAnswers_of_unit rfl

theorem step_callable (h : Step X s a t) (hs : Callable s) : Callable t := by
  rcases step_shifts (c := fun _ _ _ => True) h (by intros; trivial) with hm | ⟨sock, w, hc, rfl⟩
  · exact hm.keeps (fun _ _ hu hsh => hsh.callable hu) hs
  · obtain ⟨b, rest, hp⟩ := closes_program h hc
    exact hs.closed sock w hp

/-- The element has been queued, and a loop runs until its code has ended. -/
structure Looped (p : ℕ) (s : State W) : Prop where
  queued : .enqueued (.element p) ∈ s.book.log
  loop : (∃ a, .ended (.element p) a ∈ s.book.log) ∨ s.stack.any Frame.loop = true

theorem Callable.element_loop (h : Callable s) (hmem : .body (.element p) ∈ s.stack) :
    s.stack.any Frame.loop = true := by
  refine loop_below_element h.joined.sane.control.chain hmem ?_
  intro f hf
  rw [h.grounded f hf]
  exact ⟨nofun, nofun⟩

theorem Shift.looped (hsh : Shift c s t) (h : Callable s) (ht : Unsuspended t)
    (hl : Looped p s) : Looped p t := by
  have hlog := fun e => hsh.extends.log (e := e)
  have hcall := hsh.callable h
  refine ⟨hlog _ hl.queued, ?_⟩
  rcases hl.loop with ⟨a, hended⟩ | hloop
  · exact .inl ⟨a, hlog _ hended⟩
  · rcases hsh.keepsLoop h.joined.sane.control h.grounded h.loop hloop with hloop | hempty
    · exact .inr hloop
    · -- the element is not in the queue, nor in a continuation
      rcases hcall.joined.elements.attended p (hlog _ hl.queued) with hq | hst | ⟨o, ho, hseg⟩ | hended
      · rw [hempty] at hq
        cases hq
      · exact .inr (hcall.element_loop hst)
      · have hnone := List.any_eq_false.mp (ht o ho) _ hseg
        exact absurd rfl hnone
      · exact .inl hended

theorem step_unsuspended (h : Step X s a t) (hc : onSuspension elementless X s a = true)
    (hs : Unsuspended s) : Unsuspended t := by
  rcases step_calmShifts h hc with hm | ⟨sock, w, -, rfl⟩
  · exact hm.keeps (fun _ _ hu hsh => hsh.unsuspended hu) hs
  · exact hs

theorem step_looped (h : Step X s a t) (hc : onSuspension elementless X s a = true)
    (hs : Callable s) (hu : Unsuspended s) (hl : Looped p s) : Looped p t := by
  rcases step_calmShifts h hc with hm | ⟨sock, w, -, rfl⟩
  · refine (hm.keeps (p := fun u => Callable u ∧ Unsuspended u ∧ Looped p u) ?_ ⟨hs, hu, hl⟩).2.2
    rintro u v ⟨hcall, hfree, hlooped⟩ hsh
    have hfree' := hsh.unsuspended hfree
    exact ⟨hsh.callable hcall, hfree', hsh.looped hcall hfree' hlooped⟩
  · exact ⟨hl.queued, hl.loop⟩

/-- The step that queues an element for a fiber finds a loop. -/
theorem element_looped (h : Step X s .element t) (hs : Callable s) (hb : s.Nested) :
    Looped s.book.promises.length t := by
  obtain ⟨⟨b, rest, hp⟩, -⟩ := enabled_program h.1 nofun
  obtain ⟨-, rfl⟩ := h
  have hcontrol := hs.joined.sane.control
  have hloop := loop_of_handled hcontrol hs.grounded ((handled_iff hcontrol hs.grounded hp).mpr hb)
  exact ⟨List.mem_append_right _ (List.mem_singleton.mpr rfl), .inr hloop⟩

/-- In a run that suspends no element every element of a call from a fiber runs to its end. -/
theorem runs_to_end (h : Lts.Run (Step X) s xs)
    (hc : Lts.Run (fun s a _ => onSuspension elementless X s a = true) s xs) (hs : Callable s)
    (hu : Unsuspended s) : RunsToEnd s xs := by
  rintro pre t post rfl hb
  have hboth := Lts.run_and.mpr ⟨h, hc⟩
  obtain ⟨hpre, ⟨hstep, hel⟩, hpost⟩ := Lts.run_append.mp hboth
  have hkeep : ∀ u a v, Callable u ∧ Unsuspended u →
      Step X u a v ∧ onSuspension elementless X u a = true → Callable v ∧ Unsuspended v :=
    fun u a v hu hstep => ⟨step_callable hstep.1 hu.1, step_unsuspended hstep.1 hstep.2 hu.2⟩
  have hmid := (hpre.always ⟨hs, hu⟩ hkeep).last
  have hstart := element_looped hstep hmid.1 hb
  have hend := (hpost.always
    (p := fun u => (Callable u ∧ Unsuspended u) ∧ Looped (Lts.last s pre).book.promises.length u)
    ⟨hkeep _ _ _ hmid ⟨hstep, hel⟩, hstart⟩ (fun u a v hu hstep =>
      ⟨hkeep u a v hu.1 hstep, step_looped hstep.1 hstep.2 hu.1.1 hu.1.2 hu.2⟩)).last
  rw [Lts.last_append, Lts.last_cons]
  obtain ⟨⟨hcall, hfree⟩, hlooped⟩ := hend
  rcases hcall.joined.elements.attended _ hlooped.queued with hq | hst | ⟨o, ho, hseg⟩ | hended
  · rcases hlooped.loop with hended | hloop
    · exact .inl hended
    · exact .inr ⟨hloop, .inl hq⟩
  · exact .inr ⟨hcall.element_loop hst, .inr hst⟩
  · exact absurd rfl (List.any_eq_false.mp (hfree o ho) _ hseg)
  · exact .inl hended

/-! ### Runs -/

theorem unrefused_iff_within (h : Step X s a t) (hs : Callable s) :
    Unrefused s a t ↔ WithinFiber s a t := by
  rw [unrefused_iff h, WithinFiber]
  apply imp_congr_right
  intro heff
  have hp : ∃ b rest, s.Program b rest := by
    simp only [elementEffect] at heff
    split at heff
    · rename_i hm hst
      exact ⟨_, _, hm, hst⟩
    · cases heff
  obtain ⟨b, rest, hp⟩ := hp
  exact handled_iff hs.joined.sane.control hs.grounded hp

/-- Every call that has ended is correct, whatever handles the effects of its elements. -/
theorem calls_correct (h : Lts.Run (Step X) s xs) (hs : Callable s)
    (hp : Private (Lts.last s xs).book) : CallsCorrect s xs := by
  rintro pre post b rest n r rfl hprog hb hf
  rw [Lts.run_append] at h
  rw [Lts.last_append] at hp ⊢
  have hmid := (h.1.always hs fun _ _ _ hu hstep => step_callable hstep hu).last
  have hend := (h.2.always hmid fun _ _ _ hu hstep => step_callable hstep hu).last
  have hhandled := (handled_iff hmid.joined.sane.control hmid.grounded hprog).mpr hb
  have hnone : ∀ p ∈ ([] : List ℕ), .enqueued (.element p) ∈ (Lts.last s pre).book.log := by simp
  have hstart := Call.ok_map n ⟨b, rest, hprog⟩ hhandled hnone
  exact (Call.run_ok h.2 hmid.joined.sane hstart hf).correct hend.joined hp

/-- A continuation with an element in it contains the loop that has called the element. -/
theorem asForked_iff (h : Step X s a t) (hs : Callable s) : AsForked s a t ↔ ForFiber X s a t := by
  rw [AsForked, ForFiber, unrefused_iff_within h hs]
  apply and_congr_right
  intro _
  cases a with
  | perform eff =>
    obtain ⟨⟨b, fs, hp⟩, -⟩ := enabled_program h.1 nofun
    obtain ⟨-, rfl⟩ := h
    have hcap : ∀ {segment hd rest}, splitHandler s.stack = some (segment, hd, rest) →
        Captured hd segment := captured_of_split hp.2 hs.joined.sane.control.chain
    constructor
    · intro hkept
      simp only [onSuspension]
      split
      · rename_i segment hd rest hsplit
        by_cases hsus : suspends X s hd eff = true
        · obtain ⟨u, hu, -, hseg⟩ := perform_suspended hsplit hsus
          have ht : (next X s (.perform eff)).segments = s.segments ++ [some segment] := by
            simp only [next, hu, State.leave_segments, hseg]
          have hnone : segment.any Frame.isElement = false := by
            by_contra hel
            have hel' := eq_true_of_ne_false hel
            obtain ⟨f, hf, hl⟩ := List.any_eq_true.mp ((hcap hsplit).loop_of_element hel')
            have hno := List.all_eq_true.mp (hkept eff segment rfl ht hel') f hf
            simp [hl] at hno
          rw [elementless, ← List.not_any_eq_all_not, hnone]
          simp
        · simp [hsus]
      · rfl
    · rintro hc eff' segment ⟨⟩ ht hel
      exfalso
      rcases perform_control X s eff with ⟨-, -, hseg⟩ | ⟨segment', hd, rest, -, hsplit, hsus, -⟩
      · have hlen := congrArg List.length (hseg.symm.trans ht)
        simp at hlen
      · obtain ⟨u, hu, -, hseg⟩ := perform_suspended hsplit hsus
        have ht' : (next X s (.perform eff)).segments = s.segments ++ [some segment'] := by
          simp only [next, hu, State.leave_segments, hseg]
        have heq : segment' = segment := by simpa using ht'.symm.trans ht
        simp only [onSuspension, hsplit, hsus, elementless, ← List.not_any_eq_all_not] at hc
        rw [heq, hel] at hc
        simp at hc
  | _ => exact iff_of_true (fun eff segment ha => by cases ha) rfl

/-- A call of `Fiber.both` goes as a call of `Fiber.all` on two functions. -/
theorem CallsCorrect.both (hc : CallsCorrect s xs) (h : Lts.Run (Step X) s xs) :
    BothCorrect s xs := by
  rintro pre t u post b rest rfl hprog hb
  obtain ⟨-, ⟨-, ht⟩, ⟨-, hu⟩, -⟩ := Lts.run_append.mp h
  have hboth := both_elements X (Lts.last s pre)
  rw [← ht, ← hu] at hboth
  refine ⟨hboth, fun r hf => ?_⟩
  have hnext : t.book.promises.length = (Lts.last s pre).book.promises.length + 1 := by
    simp [ht, next, Book.createPromise, Book.enqueue, Book.enqueueAll]
  refine hc pre _ b rest 2 r rfl hprog hb ?_
  simp only [Call.all, Call.map, Call.follow, Call.next, if_true, Option.bind_some, List.nil_append,
    hnext, List.singleton_append, Call.iter]
  exact hf

/-- Calls of `Fiber.both` and `Fiber.all` from fibers behave as if their elements were forked just
when elements perform their effects in runs that a fiber has called, and no continuation with an
element in it is kept. -/
theorem elements_served_iff {world : W} (h : Lts.Run (Step X) (State.initial world) xs)
    (hp : Private (Lts.last (State.initial world) xs).book) :
    ElementsServed (State.initial world) xs ↔ Lts.Run (ForFiber X) (State.initial world) xs := by
  have hiff : Lts.Run AsForked (State.initial world) xs ↔
      Lts.Run (ForFiber X) (State.initial world) xs :=
    h.congr (p := Callable) (callable_initial world) (fun _ _ _ hu hstep => asForked_iff hstep hu)
      (fun _ _ _ hu hstep _ => step_callable hstep hu)
  constructor
  · intro hserved
    exact hiff.mp hserved.handled
  · intro hfor
    have hcalls := calls_correct h (callable_initial world) hp
    have hnone : Unsuspended (State.initial world) := by simp [Unsuspended, State.initial]
    exact ⟨hiff.mpr hfor, runs_to_end h (hfor.imp fun _ _ _ hstep => hstep.2)
      (callable_initial world) hnone, hcalls, hcalls.both h⟩

/-- The program has settled a promise itself. -/
def Event.settles : Event → Bool
  | .settled _ => true
  | _ => false

theorem private_of_none (h : b.log.any Event.settles = false) : Private b := by
  intro p _ hset
  exact absurd rfl (List.any_eq_false.mp h _ hset)

/-- A main fiber starts a run of its own, whose main fiber calls `Fiber.both`. The first function
sends, the second one forks a fiber, and the call returns. -/
def bothNested : List Act :=
  [.switchRun, .go, .switchRun, .go, .element, .element, .perform (.await 0), .go, .go,
    .perform (.net (.tcpWrite 0 [])), .go, .ret .unit, .go, .go, .go, .perform (.fork 1), .go,
    .ret .unit, .go, .go, .go, .go, .ret .unit, .go, .go, .go, .perform (.await 1), .go]

theorem elements_served_nested : ElementsServed (State.initial ())
    (Lts.trace (next quiet) (State.initial ()) bothNested) := by
  have hwithin : Lts.Run (ForFiber quiet) (State.initial ())
      (Lts.trace (next quiet) (State.initial ()) bothNested) := by
    refine (Lts.run_accepts (fun s a => (!elementEffect s a || s.stack.any Frame.isFiber) &&
      onSuspension elementless quiet s a) (by decide)).imp ?_
    rintro s a t ⟨htest, -⟩
    rw [Bool.and_eq_true] at htest
    refine ⟨fun heff => ?_, htest.2⟩
    rw [State.Nested]
    simpa [heff] using htest.1
  refine (elements_served_iff (X := quiet) (Lts.run_accepts Enabled (by decide)) ?_).mpr hwithin
  rw [Lts.last_trace]
  exact private_of_none (by decide)

/-- The main fiber of a run calls `Fiber.all` on one function, which yields. -/
def allYields : List Act :=
  [.switchRun, .go, .element, .perform (.await 0), .go, .go, .perform .yield, .go,
    .raise .unhandled, .go, .go, .go, .go, .go]

/-- A main fiber starts a run of its own, whose main fiber calls `Fiber.all` on one function. It
yields, and then it awaits a promise that is never resolved. -/
def allSuspended : List Act :=
  [.createPromise, .switchRun, .go, .switchRun, .go, .element, .perform (.await 1), .go, .go,
    .perform .yield, .go, .go, .go, .perform (.await 0), .go, .go, .go, .go, .go]

/-- The yield raises `Effect.Unhandled`, and the call raises it in turn. The effects of the other
element are handled, and the first run returns while the element is suspended. -/
theorem elements_refused :
    (Lts.Run (Step quiet) (State.initial ()) (Lts.trace (next quiet) (State.initial ()) allYields) ∧
      Private (Lts.last (State.initial ())
        (Lts.trace (next quiet) (State.initial ()) allYields)).book ∧
      ¬ Lts.Run Unrefused (State.initial ())
        (Lts.trace (next quiet) (State.initial ()) allYields) ∧
      let s := (allYields.take 2).foldl (next quiet) (State.initial ())
      (Call.all 1).follow s (Lts.trace (next quiet) s (allYields.drop 2)) =
        some (.ended (.exn .unhandled))) ∧
    Lts.Run (Step quiet) (State.initial ())
      (Lts.trace (next quiet) (State.initial ()) allSuspended) ∧
    (Lts.last (State.initial ())
      (Lts.trace (next quiet) (State.initial ()) allSuspended)).stack = [.body .top] ∧
    ¬ RunsToEnd (State.initial ()) (Lts.trace (next quiet) (State.initial ()) allSuspended) := by
  refine ⟨⟨Lts.run_accepts Enabled (by decide), ?_, ?_, by decide⟩,
    Lts.run_accepts Enabled (by decide), ?_, ?_⟩
  · rw [Lts.last_trace]
    exact private_of_none (by decide)
  · rintro ⟨-, -, -, -, -, -, hyield, -⟩
    exact hyield (by decide) rfl
  · rw [Lts.last_trace]
    decide
  · intro hends
    have hsplit : allSuspended = allSuspended.take 5 ++ .element :: allSuspended.drop 6 := rfl
    have hend := hends (Lts.trace (next quiet) (State.initial ()) (allSuspended.take 5)) _ _
      (by rw [hsplit, Lts.trace_append]; rfl) (by rw [Lts.last_trace, State.Nested]; decide)
    rw [Lts.last_trace, Lts.last_trace] at hend
    rcases hend with ⟨a, hlog⟩ | ⟨hloop, -⟩
    · have hp : ((allSuspended.take 5).foldl (next quiet)
          (State.initial ())).book.promises.length = 1 := by decide
      have hnone : (allSuspended.foldl (next quiet) (State.initial ())).book.log.all
          (fun e => !e.ends (.element 1)) = true := by decide
      have hno := List.all_eq_true.mp hnone _ hlog
      simp [Event.ends, hp] at hno
    · revert hloop
      decide

end PicoOcaml.Pio
