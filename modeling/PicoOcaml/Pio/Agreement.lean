import PicoOcaml.Pio.Shifts

/-! What the tasks and the history say about promises and continuations. -/
namespace PicoOcaml.Pio

variable {b b' : Book}

/-- Captured continuations, outcomes and history stay. -/
structure Extends (b b' : Book) : Prop where
  konts : ∀ {k : ℕ} {kont : Eff × Handler}, b.konts[k]? = some kont → b'.konts[k]? = some kont
  outcome : ∀ {p : ℕ} {a : Answer}, b.outcome p = some a → b'.outcome p = some a
  log : ∀ {e : Event}, e ∈ b.log → e ∈ b'.log
  promises : b.promises.length ≤ b'.promises.length

theorem Extends.refl (b : Book) : Extends b b := ⟨id, id, id, Nat.le_refl _⟩

theorem Extends.trans {b'' : Book} (h : Extends b b') (h' : Extends b' b'') : Extends b b'' :=
  ⟨fun hk => h'.konts (h.konts hk), fun ho => h'.outcome (h.outcome ho), fun he => h'.log (h.log he),
    Nat.le_trans h.promises h'.promises⟩

/-- What is known when the task is queued. -/
def Task.Sound (b : Book) : Task → Prop
  | .waker p h k => b.konts[k]? = some (.await p, h) ∧ ∃ a, b.outcome p = some a
  | .wake op sock h k | .onTimeout op sock h k =>
    ∃ e, b.konts[k]? = some (.net e, h) ∧ WaitsFor op sock e
  | .resume h k a => ∃ eff, b.konts[k]? = some (eff, h) ∧ ∀ p, eff = .await p → b.outcome p = some a
  | _ => True

def Event.Sound (b : Book) : Event → Prop
  | .enqueued t | .ran t => t.Sound b
  | .awaited p a => b.outcome p = some a
  | .stillPending _ => False
  | _ => True

/-- The task is a waker for promise `p`. -/
def Task.Waits (b : Book) (p : ℕ) (t : Task) : Prop :=
  ∃ h k, t = .waker p h k ∧ b.konts[k]? = some (.await p, h)

def IoWaiter.Sound (b : Book) (w : IoWaiter) : Prop := w.wake.Sound b

theorem Task.Sound.mono {t : Task} (h : t.Sound b) (he : Extends b b') : t.Sound b' := by
  cases t with
  | waker p hd k =>
    obtain ⟨hk, a, ha⟩ := h
    exact ⟨he.konts hk, a, he.outcome ha⟩
  | wake op sock hd k =>
    obtain ⟨e, hk, hw⟩ := h
    exact ⟨e, he.konts hk, hw⟩
  | onTimeout op sock hd k =>
    obtain ⟨e, hk, hw⟩ := h
    exact ⟨e, he.konts hk, hw⟩
  | resume hd k a =>
    obtain ⟨eff, hk, ho⟩ := h
    exact ⟨eff, he.konts hk, fun p hp => he.outcome (ho p hp)⟩
  | _ => trivial

theorem Event.Sound.mono {e : Event} (h : e.Sound b) (he : Extends b b') : e.Sound b' := by
  cases e with
  | enqueued t => exact Task.Sound.mono h he
  | ran t => exact Task.Sound.mono h he
  | awaited p a => exact he.outcome h
  | stillPending k => exact h
  | _ => trivial

theorem Task.Waits.mono {p : ℕ} {t : Task} (h : t.Waits b p) (he : Extends b b') : t.Waits b' p := by
  obtain ⟨hd, k, rfl, hk⟩ := h
  exact ⟨hd, k, rfl, he.konts hk⟩

theorem Task.Waits.sound {p : ℕ} {t : Task} {a : Answer} (h : t.Waits b p)
    (ha : b.outcome p = some a) : t.Sound b := by
  obtain ⟨hd, k, rfl, hk⟩ := h
  exact ⟨hk, a, ha⟩

structure Agreed (b : Book) : Prop where
  queued : ∀ t ∈ b.runQueue, t.Sound b
  pending : ∀ {p : ℕ} {ws : List Task}, b.promises[p]? = some (.pending ws) → ∀ t ∈ ws, t.Waits b p
  waiting : ∀ w ∈ b.ioWaiters, w.Sound b
  history : ∀ e ∈ b.log, e.Sound b

theorem agreed_empty : Agreed .empty :=
  ⟨by simp [Book.empty], by simp [Book.empty], by simp [Book.empty], by simp [Book.empty]⟩

/-! ### One operation -/

theorem extends_promises {promises : List PromiseState}
    (hlen : b.promises.length ≤ promises.length)
    (h : ∀ {p : ℕ} {o : PromiseState} {a : Answer}, b.promises[p]? = some o →
      o.outcome = some a → promises[p]? = some o) :
    Extends b { b with promises := promises } := by
  refine ⟨id, ?_, id, hlen⟩
  intro p a ha
  obtain ⟨o, ho, hoa⟩ := Option.bind_eq_some_iff.mp ha
  exact Option.bind_eq_some_iff.mpr ⟨o, h ho hoa, hoa⟩

theorem extends_set {p : ℕ} {ws : List Task} (hp : b.promises[p]? = some (.pending ws))
    (o : PromiseState) : Extends b { b with promises := b.promises.set p o } := by
  apply extends_promises (by simp)
  intro q o' a hq ha
  have hne : p ≠ q := by
    rintro rfl
    rw [hp, Option.some.injEq] at hq
    subst hq
    cases ha
  rw [List.getElem?_set_ne hne]
  exact hq

theorem outcome_set {p : ℕ} {ws : List Task} (hp : b.promises[p]? = some (.pending ws))
    (o : PromiseState) : { b with promises := b.promises.set p o }.outcome p = o.outcome := by
  have hlt := (List.getElem?_eq_some_iff.mp hp).1
  simp [Book.outcome, hlt]

theorem Agreed.enqueueAll (h : Agreed b) {ts : List Task} (ht : ∀ t ∈ ts, t.Sound b) :
    Agreed (b.enqueueAll ts) := by
  refine ⟨?_, h.pending, h.waiting, ?_⟩
  · intro t hmem
    rcases List.mem_append.mp hmem with hmem | hmem
    · exact h.queued t hmem
    · exact ht t hmem
  · intro e hmem
    rcases List.mem_append.mp hmem with hmem | hmem
    · exact h.history e hmem
    · obtain ⟨t, htm, rfl⟩ := List.mem_map.mp hmem
      exact ht t htm

theorem Agreed.enqueue (h : Agreed b) {t : Task} (ht : t.Sound b) : Agreed (b.enqueue t) := by
  apply h.enqueueAll
  rintro t hmem
  rw [List.mem_singleton.mp hmem]
  exact ht

theorem Agreed.note (h : Agreed b) {e : Event} (he : e.Sound b) : Agreed (b.note e) := by
  refine ⟨h.queued, h.pending, h.waiting, ?_⟩
  intro e' hmem
  rcases List.mem_append.mp hmem with hmem | hmem
  · exact h.history e' hmem
  · rw [List.mem_singleton.mp hmem]
    exact he

theorem Agreed.take (h : Agreed b) {t : Task} {q : List Task} (hq : b.runQueue = t :: q) :
    Agreed (b.take t q) := by
  have ht : t.Sound b := h.queued t (by simp [hq])
  have hb : Agreed { b with runQueue := q } :=
    ⟨fun t ht => h.queued t (by simp [hq, ht]), h.pending, h.waiting, h.history⟩
  exact hb.note ht

/-- Promises and continuations change, and nothing else. -/
theorem Agreed.mono (h : Agreed b) (promises : List PromiseState) (konts : List (Eff × Handler))
    (he : Extends b { b with promises := promises, konts := konts })
    (hp : ∀ {p : ℕ} {ws : List Task}, promises[p]? = some (.pending ws) → ∀ t ∈ ws,
      t.Waits { b with promises := promises, konts := konts } p) :
    Agreed { b with promises := promises, konts := konts } :=
  ⟨fun t ht => (h.queued t ht).mono he, hp, fun w hw => (h.waiting w hw).mono he,
    fun e hmem => (h.history e hmem).mono he⟩

theorem extends_create : Extends b b.createPromise := by
  apply extends_promises (by simp)
  intro p o a hp ha
  exact List.getElem?_append_left (List.getElem?_eq_some_iff.mp hp).1 ▸ hp

theorem Agreed.create (h : Agreed b) : Agreed b.createPromise := by
  refine h.mono _ b.konts extends_create ?_
  intro p ws hp t ht
  rcases Nat.lt_or_ge p b.promises.length with hlt | hge
  · rw [List.getElem?_append_left hlt] at hp
    exact (h.pending hp t ht).mono extends_create
  · rw [List.getElem?_append_right hge, List.getElem?_singleton] at hp
    split at hp
    · simp only [Option.some.injEq, PromiseState.pending.injEq] at hp
      simp [← hp] at ht
    · cases hp

theorem extends_settle (p : ℕ) (o : PromiseState) : Extends b (b.settle p o) := by
  simp only [Book.settle]
  split
  · rename_i ws hp
    have he := extends_set hp o
    exact ⟨he.konts, he.outcome, List.mem_append_left _, he.promises⟩
  · exact .refl b

theorem Agreed.settle (h : Agreed b) (p : ℕ) {o : PromiseState} {a : Answer}
    (ho : o.outcome = some a) : Agreed (b.settle p o) := by
  simp only [Book.settle]
  split
  · rename_i ws hp
    have he := extends_set hp o
    have hset : Agreed { b with promises := b.promises.set p o } := by
      refine h.mono _ b.konts he ?_
      intro q ws' hq t ht
      by_cases hqp : p = q
      · subst hqp
        rw [List.getElem?_set_self (List.getElem?_eq_some_iff.mp hp).1, Option.some.injEq] at hq
        subst hq
        cases ho
      · rw [List.getElem?_set_ne hqp] at hq
        exact (h.pending hq t ht).mono he
    apply hset.enqueueAll
    intro t ht
    exact ((h.pending hp t ht).mono he).sound (by rw [outcome_set hp, ho])
  · exact h

theorem extends_capture (eff : Eff) (h : Handler) : Extends b (b.capture eff h) := by
  refine ⟨?_, id, id, Nat.le_refl _⟩
  intro k kont hk
  exact List.getElem?_append_left (List.getElem?_eq_some_iff.mp hk).1 ▸ hk

theorem Agreed.capture (h : Agreed b) (eff : Eff) (hd : Handler) : Agreed (b.capture eff hd) :=
  h.mono b.promises _ (extends_capture eff hd)
    fun hp t ht => (h.pending hp t ht).mono (extends_capture eff hd)

theorem kont_capture (eff : Eff) (h : Handler) :
    (b.capture eff h).konts[b.konts.length]? = some (eff, h) := by
  simp [Book.capture]

theorem extends_addWaiter (p : ℕ) (t : Task) : Extends b (b.addWaiter p t) := by
  simp only [Book.addWaiter]
  split
  · rename_i ws hp
    exact extends_set hp _
  · exact ⟨id, id, List.mem_append_left _, Nat.le_refl _⟩

theorem Agreed.addWaiter (h : Agreed b) {p : ℕ} {t : Task} (ht : t.Waits b p)
    (ho : b.outcome p = none) (hlt : p < b.promises.length) : Agreed (b.addWaiter p t) := by
  simp only [Book.addWaiter]
  split
  · rename_i ws hp
    have he := extends_set hp (.pending (t :: ws))
    refine h.mono _ b.konts he ?_
    intro q ws' hq t' ht'
    by_cases hqp : p = q
    · subst hqp
      rw [List.getElem?_set_self (List.getElem?_eq_some_iff.mp hp).1, Option.some.injEq,
        PromiseState.pending.injEq] at hq
      subst hq
      rcases List.mem_cons.mp ht' with rfl | ht'
      · exact ht.mono he
      · exact (h.pending hp t' ht').mono he
    · rw [List.getElem?_set_ne hqp] at hq
      exact (h.pending hq t' ht').mono he
  · rename_i hn
    -- a promise without outcome is pending
    exfalso
    cases hp : b.promises[p]? with
    | none => exact absurd hlt (by simpa using hp)
    | some o =>
      cases o with
      | pending ws => exact hn ws hp
      | resolved v => simp [Book.outcome, hp, PromiseState.outcome] at ho
      | failed e => simp [Book.outcome, hp, PromiseState.outcome] at ho

theorem Polled.sound {ws kept : List IoWaiter} {ts : List Task} (hp : Polled ws kept ts)
    (h : ∀ w ∈ ws, w.Sound b) : (∀ w ∈ kept, w.Sound b) ∧ ∀ t ∈ ts, t.Sound b := by
  induction hp with
  | nil => simp
  | ready w _ ih =>
    obtain ⟨hk, ht⟩ := ih fun w hw => h w (List.mem_cons_of_mem _ hw)
    exact ⟨hk, List.forall_mem_cons.mpr ⟨h w (List.mem_cons_self ..), ht⟩⟩
  | expired w _ _ ih =>
    obtain ⟨hk, ht⟩ := ih fun w hw => h w (List.mem_cons_of_mem _ hw)
    exact ⟨hk, List.forall_mem_cons.mpr ⟨h w (List.mem_cons_self ..), ht⟩⟩
  | waits w _ _ ih =>
    obtain ⟨hk, ht⟩ := ih fun w hw => h w (List.mem_cons_of_mem _ hw)
    exact ⟨List.forall_mem_cons.mpr ⟨h w (List.mem_cons_self ..), hk⟩, ht⟩

theorem Agreed.poll (h : Agreed b) {kept : List IoWaiter} {ts : List Task}
    (hp : Polled b.ioWaiters kept ts) :
    Agreed ({ b with ioWaiters := kept.reverse }.enqueueAll ts.reverse) := by
  obtain ⟨hk, ht⟩ := hp.sound h.waiting
  have hb : Agreed { b with ioWaiters := kept.reverse } :=
    ⟨h.queued, h.pending, fun w hw => hk w (List.mem_reverse.mp hw), h.history⟩
  exact hb.enqueueAll fun t hmem => ht t (List.mem_reverse.mp hmem)

/-- A task that is taken and queues the resumption of the same continuation. -/
theorem Agreed.handOver (h : Agreed b) {t : Task} {q : List Task} {hd : Handler} {k : ℕ} {a : Answer}
    (hq : b.runQueue = t :: q) (ht : (Task.resume hd k a).Sound b) :
    Agreed ((b.take t q).enqueue (.resume hd k a)) :=
  (h.take hq).enqueue ht

/-! ### Moves and runs -/

theorem Quiet.agreed (hm : Quiet b b') (h : Agreed b) : Agreed b' := by
  cases hm with
  | create => exact h.create
  | settle p ho =>
    have hn : Agreed (b.note (.settled p)) := h.note trivial
    exact hn.settle p ho
  | poll hp => exact h.poll hp
  | @waker p k hd a q hq ho =>
    obtain ⟨hk, -⟩ := h.queued (.waker p hd k) (by simp [hq])
    refine h.handOver hq ⟨_, hk, ?_⟩
    rintro p' hp'
    cases hp'
    exact ho
  | @wake op sock hd k a q hq ha =>
    obtain ⟨e, hk, -⟩ := h.queued (.wake op sock hd k) (by simp [hq])
    exact h.handOver hq ⟨_, hk, nofun⟩
  | @onTimeout op sock hd k a q hq =>
    obtain ⟨e, hk, -⟩ := h.queued (.onTimeout op sock hd k) (by simp [hq])
    exact h.handOver hq ⟨_, hk, nofun⟩
  | awaited ho => exact h.note ho

theorem Capture.agreed {eff : Eff} {hd : Handler} (hm : Capture hd b eff b') (h : Agreed b) :
    Agreed b' := by
  cases hm with
  | @await p ho hlt =>
    refine (h.capture (.await p) hd).addWaiter ⟨hd, _, rfl, kont_capture _ hd⟩ ho hlt
  | yield => exact (h.capture .yield hd).enqueue ⟨_, kont_capture _ hd, nofun⟩
  | @wait e sock op he =>
    have hc := h.capture (.net e) hd
    refine ⟨hc.queued, hc.pending, ?_, hc.history⟩
    intro w hw
    rcases List.mem_cons.mp hw with rfl | hw
    · exact ⟨e, kont_capture _ hd, he⟩
    · exact hc.waiting w hw

theorem Task.sound_of_starts {t : Task} (ht : t.starts = true) : t.Sound b := by
  cases t with
  | main sw => trivial
  | fiber sw => trivial
  | promiseFiber sw p => trivial
  | element p => trivial
  | _ => cases ht

theorem Move.agreed (hm : Move b b') (h : Agreed b) : Agreed b' := by
  cases hm with
  | quiet hm => exact hm.agreed h
  | capture hm => exact hm.agreed h
  | settle p ho => exact h.settle p ho
  | start ht => exact h.enqueue (Task.sound_of_starts ht)
  | run hq ht => exact h.take hq
  | resume hq => exact h.take hq
  | @stillPending p k hd q hq ho =>
    -- a queued waker finds its promise settled
    obtain ⟨-, a, ha⟩ := h.queued (.waker p hd k) (by simp [hq])
    rw [ho] at ha
    cases ha
  | ended body a => exact h.note trivial

theorem Agreed.drop (h : Agreed b) (sock : ℤ) : Agreed (b.dropWaiters sock) :=
  ⟨h.queued, h.pending, fun w hw => h.waiting w (List.mem_of_mem_filter hw), h.history⟩

theorem Quiet.extends (hm : Quiet b b') : Extends b b' := by
  cases hm with
  | create => exact extends_create
  | @settle p o a ho =>
    have he := extends_settle (b := b.note (.settled p)) p o
    exact ⟨he.konts, he.outcome, fun h => he.log (List.mem_append_left _ h), he.promises⟩
  | poll hp => exact ⟨id, id, List.mem_append_left _, Nat.le_refl _⟩
  | awaited ho => exact ⟨id, id, List.mem_append_left _, Nat.le_refl _⟩
  | _ => exact ⟨id, id, fun h => List.mem_append_left _ (List.mem_append_left _ h), Nat.le_refl _⟩

theorem Capture.extends {eff : Eff} {hd : Handler} (hm : Capture hd b eff b') : Extends b b' := by
  cases hm with
  | @await p ho hlt => exact (extends_capture (.await p) hd).trans (extends_addWaiter p _)
  | yield =>
    have he := extends_capture (b := b) .yield hd
    exact ⟨he.konts, he.outcome, List.mem_append_left _, Nat.le_refl _⟩
  | @wait e sock op he =>
    have he := extends_capture (b := b) (.net e) hd
    exact ⟨he.konts, he.outcome, id, Nat.le_refl _⟩

theorem Move.extends (hm : Move b b') : Extends b b' := by
  cases hm with
  | quiet hm => exact hm.extends
  | capture hm => exact hm.extends
  | settle p ho => exact extends_settle p _
  | stillPending hq ho =>
    exact ⟨id, id, fun h => List.mem_append_left _ (List.mem_append_left _ h), Nat.le_refl _⟩
  | _ => exact ⟨id, id, List.mem_append_left _, Nat.le_refl _⟩

/-! ### Tasks and history of the program -/

/-- Events that tell of code of the program. -/
def Event.ofProgram : Event → Bool
  | .enqueued t => t.starts
  | .ended _ _ => true
  | _ => false

/-- The same code waits to be started, and the same has been started and has ended. -/
structure SameProgram (b b' : Book) : Prop where
  queue : b'.runQueue.filter Task.starts = b.runQueue.filter Task.starts
  log : b'.log.filter Event.ofProgram = b.log.filter Event.ofProgram

theorem SameProgram.trans {b'' : Book} (h : SameProgram b b') (h' : SameProgram b' b'') :
    SameProgram b b'' := ⟨h'.queue.trans h.queue, h'.log.trans h.log⟩

theorem same_enqueueAll {ts : List Task} (h : ∀ t ∈ ts, t.starts = false) :
    SameProgram b (b.enqueueAll ts) := by
  have hts : ts.filter Task.starts = [] := List.filter_eq_nil_iff.mpr fun t ht => by simp [h t ht]
  have hlog : (ts.map Event.enqueued).filter Event.ofProgram = [] := by
    apply List.filter_eq_nil_iff.mpr
    intro e he
    obtain ⟨t, ht, rfl⟩ := List.mem_map.mp he
    simp [Event.ofProgram, h t ht]
  constructor
  · simp only [Book.enqueueAll, List.filter_append, hts, List.append_nil]
  · simp only [Book.enqueueAll, List.filter_append, hlog, List.append_nil]

theorem same_enqueue {t : Task} (h : t.starts = false) : SameProgram b (b.enqueue t) := by
  apply same_enqueueAll
  intro t' ht'
  rw [List.mem_singleton.mp ht']
  exact h

theorem same_note {e : Event} (h : e.ofProgram = false) : SameProgram b (b.note e) := by
  refine ⟨rfl, ?_⟩
  simp [Book.note, List.filter_append, h]

theorem same_take {t : Task} {q : List Task} (hq : b.runQueue = t :: q) (h : t.starts = false) :
    SameProgram b (b.take t q) := by
  refine ⟨?_, ?_⟩
  · rw [hq, List.filter_cons_of_neg (by simp [h])]
    rfl
  · simp [Book.take, Book.note, List.filter_append, Event.ofProgram]

theorem same_settle (ha : Agreed b) (p : ℕ) (o : PromiseState) : SameProgram b (b.settle p o) := by
  simp only [Book.settle]
  split
  · rename_i ws hp
    have hws : ∀ t ∈ ws, t.starts = false := by
      intro t ht
      obtain ⟨hd, k, rfl, -⟩ := ha.pending hp t ht
      rfl
    have h := same_enqueueAll (b := { b with promises := b.promises.set p o }) hws
    exact ⟨h.queue, h.log⟩
  · exact ⟨rfl, rfl⟩

theorem Polled.starts {ws kept : List IoWaiter} {ts : List Task} (h : Polled ws kept ts) :
    ∀ t ∈ ts, t.starts = false := by
  induction h with
  | nil => nofun
  | ready w _ ih =>
    intro t ht
    rcases List.mem_cons.mp ht with rfl | ht
    · rfl
    · exact ih t ht
  | expired w _ _ ih =>
    intro t ht
    rcases List.mem_cons.mp ht with rfl | ht
    · rfl
    · exact ih t ht
  | waits w _ _ ih => exact ih

theorem Quiet.same (hm : Quiet b b') (ha : Agreed b) : SameProgram b b' := by
  cases hm with
  | create => exact ⟨rfl, rfl⟩
  | @settle p o a ho =>
    have hn : SameProgram b (b.note (.settled p)) := same_note rfl
    have hb : Agreed (b.note (.settled p)) := ha.note trivial
    exact hn.trans (same_settle hb p o)
  | @poll kept ts hp =>
    have hts : ∀ t ∈ ts.reverse, t.starts = false := fun t ht => hp.starts t (List.mem_reverse.mp ht)
    have h := same_enqueueAll (b := { b with ioWaiters := kept.reverse }) hts
    exact ⟨h.queue, h.log⟩
  | waker hq ho => exact (same_take hq rfl).trans (same_enqueue rfl)
  | wake hq ha => exact (same_take hq rfl).trans (same_enqueue rfl)
  | onTimeout hq => exact (same_take hq rfl).trans (same_enqueue rfl)
  | awaited ho => exact same_note rfl

theorem Capture.same {eff : Eff} {hd : Handler} (hm : Capture hd b eff b') : SameProgram b b' := by
  cases hm with
  | @await p ho hlt =>
    simp only [Book.addWaiter]
    split
    · exact ⟨rfl, rfl⟩
    · have h := same_enqueue (b := b.capture (.await p) hd) (t := .waker p hd b.konts.length) rfl
      exact ⟨h.queue, h.log⟩
  | yield =>
    have h := same_enqueue (b := b.capture .yield hd)
      (t := .resume hd b.konts.length (.value .unit)) rfl
    exact ⟨h.queue, h.log⟩
  | wait he => exact ⟨rfl, rfl⟩

variable {W : Type*} {X : Externals W} {s t : State W} {a : Act} {xs : List (Act × State W)}

theorem step_agreed (h : Step X s a t) (hs : Agreed s.book) : Agreed t.book :=
  step_keeps h (fun _ _ hb hm => hm.agreed hb) (fun _ sock hb => hb.drop sock) hs

theorem step_extends (h : Step X s a t) : Extends s.book t.book :=
  step_keeps (p := Extends s.book) h (fun _ _ hb hm => hb.trans hm.extends)
    (fun _ _ hb => hb.trans ⟨id, id, id, Nat.le_refl _⟩) (.refl s.book)

theorem run_agreed {world : W} (h : Lts.Run (Step X) (State.initial world) xs) :
    Lts.Always (fun s => Agreed s.book) (State.initial world) xs :=
  h.always agreed_empty fun _ _ _ hu hstep => step_agreed hstep hu

end PicoOcaml.Pio
