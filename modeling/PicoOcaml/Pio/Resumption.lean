import PicoOcaml.Pio.Calls
import PicoOcaml.Pio.Origins

/-! What one step does about a fiber that waits for the answer of a network effect. -/
namespace PicoOcaml.Pio

/-- The answer with which the task continues `k`. -/
def Task.resumption (k : ℕ) : Task → Option Answer
  | .resume _ j a => if j = k then some a else none
  | _ => none

namespace Book

variable (b : Book) (k : ℕ)

/-- The answers with which `k` is queued to be continued. -/
def pending : List Answer := b.runQueue.filterMap (Task.resumption k)

/-- Neither queues a resumption of `k` nor makes one. -/
def Skips (b' : Book) : Prop := b'.pending k = b.pending k ∧ b'.resumed k = b.resumed k

end Book

section

variable {W : Type*} (X : Externals W)

/-- The answer that the closure makes for `k`. -/
def Task.hands (k : ℕ) (w : W) : Task → Option Answer
  | .wake op sock h j => if j = k then some (h.wakeAnswer X op sock w).1 else none
  | .onTimeout op sock h j => if j = k then some (h.timeoutAnswer X op sock w).1 else none
  | _ => none

/-- The answer that the step makes for the fiber that waits as `k`. -/
def handed (k : ℕ) (s : State W) (a : Act) : List Answer :=
  if Polling s a then
    match (s.pass X).book.runQueue with
    | u :: _ => (u.hands X k (s.pass X).world).toList
    | [] => []
  else []

end

variable {W : Type*} {X : Externals W} {s t : State W} {a : Act} {b b' : Book} {k p : ℕ} {u : Task}
  {q : List Task}

namespace Book

@[simp] theorem pending_enqueueAll (ts : List Task) :
    (b.enqueueAll ts).pending k = b.pending k ++ ts.filterMap (Task.resumption k) :=
  List.filterMap_append

theorem pending_enqueue (hu : u.resumption k = none) : (b.enqueue u).pending k = b.pending k := by
  simp [enqueue, hu]

theorem pending_take (hq : b.runQueue = u :: q) :
    b.pending k = (u.resumption k).toList ++ (b.take u q).pending k := by
  have htake : (b.take u q).pending k = q.filterMap (Task.resumption k) := rfl
  rw [pending, hq, htake]
  cases hu : u.resumption k with
  | none => rw [List.filterMap_cons_none hu, Option.toList_none, List.nil_append]
  | some a => rw [List.filterMap_cons_some hu, Option.toList_some, List.singleton_append]

theorem pending_settle (ha : Agreed b) (o : PromiseState) : (b.settle p o).pending k = b.pending k := by
  simp only [settle]
  split
  · rename_i ws hp
    have hnone : ws.filterMap (Task.resumption k) = [] := by
      rw [List.filterMap_eq_nil_iff]
      intro u hu
      obtain ⟨hd, j, rfl, -⟩ := ha.pending hp u hu
      rfl
    rw [pending_enqueueAll, hnone, List.append_nil]
    rfl
  · rfl

theorem pending_addWaiter (hu : u.resumption k = none) : (b.addWaiter p u).pending k = b.pending k := by
  simp only [addWaiter]
  split
  · rfl
  · exact pending_enqueue hu

theorem Skips.refl : b.Skips k b := ⟨rfl, rfl⟩

/-- A task that starts code, or a closure. -/
theorem skips_enqueue (hu : u.resumption k = none) : b.Skips k (b.enqueue u) :=
  ⟨pending_enqueue hu, resumed_enqueue u⟩

theorem skips_settle (ha : Agreed b) (o : PromiseState) : b.Skips k (b.settle p o) :=
  ⟨pending_settle ha o, resumed_settle o⟩

end Book

/-! ### Steps without a pass -/

theorem skips_deliver (ha : Agreed s.book) {ans : Answer} {rest : List Frame} {f : Frame} :
    s.book.Skips k (deliver s ans rest f).book := by
  cases f with
  | handler hd =>
    cases hd with
    | main sw => cases ans <;> exact .refl
    | fiber sw => exact .refl
    | promise sw p => exact Book.skips_settle ha _
  | settles p => cases ans <;> exact Book.skips_settle ha _
  | scheduler sw => cases ans <;> exact .refl
  | mainScheduler sw => cases ans <;> exact .refl
  | _ => exact .refl

theorem skips_effc {segment rest : List Frame} {h : Handler} {eff : Eff}
    (hk : k < s.book.konts.length) : s.book.Skips k (effc X s segment h rest eff).book := by
  cases eff with
  | fork sw => exact Book.skips_enqueue rfl
  | forkPromise sw => exact Book.skips_enqueue (b := s.book.createPromise) rfl
  | await p =>
    simp only [effc]
    split
    · refine ⟨rfl, ?_⟩
      simp [State.reply, Event.ranTask]
    · rw [State.suspend, State.leave_book]
      exact ⟨Book.pending_addWaiter rfl, Book.resumed_addWaiter _⟩
  | yield =>
    -- the continuation of the yield is a new one
    have hnew : (Task.resume h s.book.konts.length (.value .unit)).resumption k = none :=
      if_neg (by omega)
    simp only [effc, State.suspend, State.leave_book]
    exact Book.skips_enqueue (b := s.book.capture .yield h) hnew
  | net e =>
    simp only [effc]
    split
    · exact .refl
    · rw [State.suspend, State.leave_book]
      exact .refl
  | other => exact .refl

theorem step_skips (h : Step X s a t) (ha : Agreed s.book) (hp : Polling s a = false)
    (hk : k < s.book.konts.length) : s.book.Skips k t.book := by
  obtain ⟨-, rfl⟩ := h
  cases a with
  | go =>
    have hpoll : s.polling = false := by simpa [Polling] using hp
    simp only [next, go]
    split
    · exact skips_deliver ha
    · rename_i sw rest hm hst
      simp [State.polling, hm, hst, Frame.loop] at hpoll
    · rename_i sw rest hm hst
      simp [State.polling, hm, hst, Frame.loop] at hpoll
    · rename_i sw hooks rest hm hst
      cases hooks <;> exact .refl
    · exact .refl
  | perform eff =>
    simp only [next, perform]
    split
    · exact skips_effc hk
    · exact .refl
  | resolve p v =>
    have hnote := Book.skips_settle (k := k) (p := p) (ha.note (e := .settled p) trivial) (.resolved v)
    refine ⟨hnote.1, hnote.2.trans ?_⟩
    simp [Event.ranTask]
  | fail p e =>
    have hnote := Book.skips_settle (k := k) (p := p) (ha.note (e := .settled p) trivial) (.failed e)
    refine ⟨hnote.1, hnote.2.trans ?_⟩
    simp [Event.ranTask]
  | element => exact Book.skips_enqueue (b := s.book.createPromise) rfl
  | switchRun => exact Book.skips_enqueue rfl
  | ret v =>
    simp only [next, finish]
    split
    · refine ⟨rfl, ?_⟩
      simp [Event.ranTask]
    · exact .refl
  | raise e =>
    simp only [next, finish]
    split
    · refine ⟨rfl, ?_⟩
      simp [Event.ranTask]
    · exact .refl
  | _ => exact .refl

/-! ### Rounds -/

theorem skips_pass : s.book.Skips k (s.pass X).book := by
  obtain ⟨kept, ts, hp, he⟩ := checkIoCompletions_polled X s.book s.world
  have hnone : ts.reverse.filterMap (Task.resumption k) = [] := by
    rw [List.filterMap_eq_nil_iff]
    intro u hu
    obtain ⟨v, -, rfl | rfl⟩ := hp.closure (List.mem_reverse.mp hu)
    · rfl
    · rfl
  rw [State.pass, he]
  refine ⟨?_, Book.resumed_enqueueAll _⟩
  rw [Book.pending_enqueueAll, hnone, List.append_nil]
  rfl

/-- A task that is taken off the queue and starts code, or resumes another fiber. -/
theorem skips_take (hq : b.runQueue = u :: q) (hu : u.resumption k = none) : b.Skips k (b.take u q) := by
  have htake := Book.pending_take (k := k) hq
  rw [hu, Option.toList_none, List.nil_append] at htake
  refine ⟨htake.symm, ?_⟩
  cases u with
  | resume h j r =>
    have hj : j ≠ k := by
      rintro rfl
      simp [Task.resumption] at hu
    simp [Task.resumes, hj]
  | _ => simp [Task.resumes]

/-- A closure that is taken, and the resumption that it queues. -/
theorem pending_handOver {h : Handler} {j : ℕ} {r : Answer} (hq : b.runQueue = u :: q)
    (hu : u.resumption k = none) (hr : u.resumes k = false) :
    let b' := (b.take u q).enqueue (.resume h j r)
    b'.pending k = b.pending k ++ (if j = k then [r] else []) ∧ b'.resumed k = b.resumed k := by
  have htake := Book.pending_take (k := k) hq
  rw [hu, Option.toList_none, List.nil_append] at htake
  refine ⟨?_, by simp [hr]⟩
  rw [Book.enqueue, Book.pending_enqueueAll, htake]
  by_cases hj : j = k
  · simp [Task.resumption, hj]
  · simp [Task.resumption, hj]

/-- What a task that a loop takes does about `k`. -/
inductive Fate (X : Externals W) (s t : State W) (k : ℕ) (made : List Answer) : Prop
  | waits : t.book.resumed k = s.book.resumed k → t.book.pending k = s.book.pending k ++ made →
      Fate X s t k made
  | resumed (r : Answer) : made = [] → t.book.resumed k = true → t.mode = .ret r →
      s.book.pending k = r :: t.book.pending k → Fate X s t k made

theorem fate_startTask {e : NetEff} {hd : Handler} (hs : Sane s)
    (hk : s.book.konts[k]? = some (.net e, hd)) (hnot : s.book.resumed k = false)
    (hq : s.book.runQueue = u :: q) :
    Fate X s (startTask X { s with book := s.book.take u q } u) k (u.hands X k s.world).toList := by
  have hsound : u.Sound s.book := hs.agreed.queued u (hq ▸ List.mem_cons_self)
  cases u with
  | waker p h j =>
    have hj : j ≠ k := by
      rintro rfl
      have hawait := hsound.1
      rw [hk] at hawait
      cases hawait
    simp only [startTask]
    split
    · rename_i r hr
      obtain ⟨hpending, hresumed⟩ := pending_handOver (k := k) (h := h) (j := j) (r := r) hq rfl rfl
      rw [if_neg hj] at hpending
      exact .waits hresumed hpending
    · obtain ⟨hpending, hresumed⟩ := skips_take (k := k) hq rfl
      refine .waits ?_ (hpending.trans (List.append_nil _).symm)
      rw [← hresumed]
      simp [State.reply, Event.ranTask]
  | wake op sock h j =>
    obtain ⟨hpending, hresumed⟩ := pending_handOver (k := k) (h := h) (j := j)
      (r := (h.wakeAnswer X op sock s.world).1) hq rfl rfl
    refine .waits hresumed (hpending.trans ?_)
    by_cases hj : j = k
    · simp [Task.hands, hj]
    · simp [Task.hands, hj]
  | onTimeout op sock h j =>
    obtain ⟨hpending, hresumed⟩ := pending_handOver (k := k) (h := h) (j := j)
      (r := (h.timeoutAnswer X op sock s.world).1) hq rfl rfl
    refine .waits hresumed (hpending.trans ?_)
    by_cases hj : j = k
    · simp [Task.hands, hj]
    · simp [Task.hands, hj]
  | resume h j r =>
    simp only [startTask]
    by_cases hj : j = k
    · subst hj
      -- it has not been resumed, so its frames are still there
      obtain ⟨segment, hseg⟩ : ∃ segment, s.segments[j]? = some (some segment) := by
        have hlt : j < s.segments.length := by
          rw [hs.control.length]
          exact (List.getElem?_eq_some_iff.mp hk).1
        cases hget : s.segments[j]? with
        | none =>
          have hle := List.getElem?_eq_none_iff.mp hget
          omega
        | some o =>
          cases o with
          | some segment => exact ⟨segment, rfl⟩
          | none =>
            have hran := resumed_iff.mpr (hs.control.opened hget)
            rw [hnot] at hran
            cases hran
      have htake := Book.pending_take (k := j) hq
      have hown : (Task.resume h j r).resumption j = some r := if_pos rfl
      rw [hown] at htake
      simp only [hseg, Option.join_some]
      refine .resumed r rfl ?_ rfl htake
      simp [State.reply, Task.resumes]
    · obtain ⟨hpending, hresumed⟩ := skips_take (k := k) hq (if_neg hj)
      split
      · exact .waits hresumed (hpending.trans (List.append_nil _).symm)
      · exact .waits hresumed (hpending.trans (List.append_nil _).symm)
  | _ =>
    obtain ⟨hpending, hresumed⟩ := skips_take (k := k) hq rfl
    exact .waits hresumed (hpending.trans (List.append_nil _).symm)

theorem round_eq (done : State W → State W) : round X s done =
    match (s.pass X).book.runQueue with
    | u :: q => startTask X { s.pass X with book := (s.pass X).book.take u q } u
    | [] => done (s.pass X) := rfl

/-- What follows the last task of the queue changes no queue. -/
theorem fate_round {e : NetEff} {hd : Handler} {done : State W → State W} (hs : Sane s)
    (hk : s.book.konts[k]? = some (.net e, hd)) (hnot : s.book.resumed k = false)
    (hdone : ∀ u : State W, (done u).book = u.book) (hp : s.polling = true) :
    Fate X s (round X s done) k (handed X k s .go) := by
  obtain ⟨hpending, hresumed⟩ := skips_pass (X := X) (s := s) (k := k)
  have hpolls : Polling s .go = true := by simpa [Polling] using hp
  rw [handed, if_pos hpolls, round_eq]
  cases hq : (s.pass X).book.runQueue with
  | nil =>
    refine .waits ?_ ?_
    · rw [hdone, hresumed]
    · rw [hdone, hpending, List.append_nil]
  | cons u q =>
    have hshift : Shift (fun _ _ _ => True) s (s.pass X) := pass_shift
    have hfate := fate_startTask (X := X) (hshift.sane hs) (hshift.extends.konts hk)
      (hresumed.trans hnot) hq
    cases hfate with
    | waits hres hpend => exact .waits (hres.trans hresumed) (hpend.trans (by rw [hpending]))
    | resumed r hmade hres hmode hpend => exact .resumed r hmade hres hmode (hpending.symm.trans hpend)

/-- What a step does about a fiber that waits as `k` for the answer of a network effect. -/
theorem step_fate {e : NetEff} {hd : Handler} (h : Step X s a t) (hs : Sane s)
    (hk : s.book.konts[k]? = some (.net e, hd)) (hnot : s.book.resumed k = false) :
    Fate X s t k (handed X k s a) := by
  by_cases hp : Polling s a = true
  · obtain ⟨rfl, hpoll⟩ : a = .go ∧ s.polling = true := by simpa [Polling] using hp
    obtain ⟨f, rest, hm, hst, hl⟩ := polling_looping hpoll
    obtain ⟨-, rfl⟩ := h
    simp only [next]
    cases f with
    | scheduler sw =>
      simp only [go, hm, hst]
      refine fate_round hs hk hnot ?_ hpoll
      intro u
      split <;> rfl
    | mainScheduler sw =>
      simp only [go, hm, hst]
      refine fate_round hs hk hnot ?_ hpoll
      intro u
      split
      · rfl
      · split <;> rfl
    | _ => cases hl
  · have hlt := (List.getElem?_eq_some_iff.mp hk).1
    have hskips := step_skips h hs.agreed (by simpa using hp) hlt
    rw [handed, if_neg hp]
    exact .waits hskips.2 (hskips.1.trans (List.append_nil _).symm)

/-- At most one resumption of a continuation is queued. -/
theorem Balanced.pending_le (hb : Balanced b) (k : ℕ) : (b.pending k).length ≤ 1 := by
  have hqueue : (b.pending k).length ≤ (b.runQueue.map (Ledger.references k).queued).sum := by
    rw [Book.pending, List.length_filterMap_eq_countP]
    refine Ledger.countP_le_sum ?_ _
    intro u hu
    cases u with
    | resume h j r =>
      have hj : j = k := by
        by_contra hne
        simp [Task.resumption, hne] at hu
      simp [Ledger.references, Task.kont, hj]
    | _ => cases hu
  have htotal := hb (Ledger.references k)
  have hdue := Ledger.due_le_one (b := b) (Ledger.references_grant_le k)
  simp only [Ledger.total] at htotal
  omega

end PicoOcaml.Pio
