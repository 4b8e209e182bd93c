import PicoOcaml.Pio.Timeouts

/-! Where the tasks in the run queue come from. -/
namespace PicoOcaml.Pio

variable {W : Type*} {X : Externals W} {s t : State W} {a : Act}

/-- The closure `u` was called in the world `w`, left the world `w'`, and queued a resumption of `k`
with the answer `a`. -/
inductive Handed (X : Externals W) (w w' : W) (k : ℕ) (a : Answer) : Task → Prop
  | waker (p : ℕ) (h : Handler) : Handed X w w' k a (.waker p h k)
  | wake (op : Operation) (sock : ℤ) (h : Handler) : a = (h.wakeAnswer X op sock w).1 →
      Handed X w w' k a (.wake op sock h k)
  | onTimeout (op : Operation) (sock : ℤ) (h : Handler) : w' = (h.timeoutAnswer X op sock w).2 →
      Handed X w w' k a (.onTimeout op sock h k)

/-- A task in the queue of `t` was there in `s`, is a closure of a waiter or of a promise, starts code,
or resumes a fiber that has yielded or whose closure has just been called. -/
inductive Origin (X : Externals W) (s t : State W) : Task → Prop
  | old {u : Task} : u ∈ s.book.runQueue → Origin X s t u
  | polled {v : IoWaiter} {u : Task} : v ∈ s.book.ioWaiters → u = v.wake ∨ u = v.onTimeout →
      Origin X s t u
  | waker (p : ℕ) (h : Handler) (k : ℕ) : Origin X s t (.waker p h k)
  | starts {u : Task} : u.starts = true → Origin X s t u
  | yielded (h : Handler) : Origin X s t (.resume h s.book.konts.length (.value .unit))
  | handed {u : Task} {h : Handler} {k : ℕ} {a : Answer} : u ∈ (s.pass X).book.runQueue →
      Handed X (s.pass X).world t.world k a u → Origin X s t (.resume h k a)

theorem queue_settle {b : Book} (ha : Agreed b) {p : ℕ} {o : PromiseState} {u : Task}
    (h : u ∈ (b.settle p o).runQueue) : u ∈ b.runQueue ∨ ∃ hd k, u = .waker p hd k := by
  simp only [Book.settle] at h
  split at h
  · rename_i ws hp
    rcases List.mem_append.mp h with h | h
    · exact .inl h
    · obtain ⟨hd, k, rfl, -⟩ := ha.pending hp u h
      exact .inr ⟨hd, k, rfl⟩
  · exact .inl h

theorem queue_enqueue {b : Book} {u v : Task} (h : u ∈ (b.enqueue v).runQueue) :
    u ∈ b.runQueue ∨ u = v := by
  rcases List.mem_append.mp h with h | h
  · exact .inl h
  · exact .inr (List.mem_singleton.mp h)

theorem queue_startTask {u v : Task} (h : v ∈ (startTask X s u).book.runQueue) :
    v ∈ s.book.runQueue ∨ ∃ hd k a, v = .resume hd k a ∧
      Handed X s.world (startTask X s u).world k a u := by
  cases u with
  | waker p hd k =>
    simp only [startTask] at h
    split at h
    · rcases queue_enqueue h with h | rfl
      · exact .inl h
      · exact .inr ⟨hd, k, _, rfl, .waker p hd⟩
    · exact .inl h
  | wake op sock hd k =>
    rcases queue_enqueue h with h | rfl
    · exact .inl h
    · exact .inr ⟨hd, k, _, rfl, .wake op sock hd rfl⟩
  | onTimeout op sock hd k =>
    rcases queue_enqueue h with h | rfl
    · exact .inl h
    · exact .inr ⟨hd, k, _, rfl, .onTimeout op sock hd rfl⟩
  | resume hd k a =>
    simp only [startTask] at h
    split at h <;> exact .inl h
  | _ => exact .inl h

theorem Polled.closure {ws kept : List IoWaiter} {ts : List Task} (hp : Polled ws kept ts) {u : Task}
    (hu : u ∈ ts) : ∃ v ∈ ws, u = v.wake ∨ u = v.onTimeout := by
  induction hp with
  | nil => cases hu
  | ready v hp ih =>
    rcases List.mem_cons.mp hu with rfl | hu
    · exact ⟨v, List.mem_cons_self, .inl rfl⟩
    · obtain ⟨v', hv', he⟩ := ih hu
      exact ⟨v', List.mem_cons_of_mem _ hv', he⟩
  | expired v hlimit hp ih =>
    rcases List.mem_cons.mp hu with rfl | hu
    · exact ⟨v, List.mem_cons_self, .inr rfl⟩
    · obtain ⟨v', hv', he⟩ := ih hu
      exact ⟨v', List.mem_cons_of_mem _ hv', he⟩
  | waits v hlimit hp ih =>
    obtain ⟨v', hv', he⟩ := ih hu
    exact ⟨v', List.mem_cons_of_mem _ hv', he⟩

theorem queue_pass {u : Task} (h : u ∈ (s.pass X).book.runQueue) :
    u ∈ s.book.runQueue ∨ ∃ v ∈ s.book.ioWaiters, u = v.wake ∨ u = v.onTimeout := by
  obtain ⟨kept, ts, hp, he⟩ := checkIoCompletions_polled X s.book s.world
  rw [State.pass, he] at h
  rcases List.mem_append.mp h with h | h
  · exact .inl h
  · exact .inr (hp.closure (List.mem_reverse.mp h))

theorem origin_pass {u : Task} (h : u ∈ (s.pass X).book.runQueue) : Origin X s t u := by
  rcases queue_pass h with h | ⟨v, hv, he⟩
  · exact .old h
  · exact .polled hv he

/-- The waiters of a promise are wakers. -/
theorem origin_settle {b : Book} (hb : Agreed b) (hq : b.runQueue = s.book.runQueue) {p : ℕ}
    {o : PromiseState} {u : Task} (h : u ∈ (b.settle p o).runQueue) : Origin X s t u := by
  rcases queue_settle hb h with h | ⟨hd, k, rfl⟩
  · exact .old (hq ▸ h)
  · exact .waker p hd k

theorem origin_round {done : State W → State W}
    (hdone : ∀ u : State W, (done u).book.runQueue = u.book.runQueue) {u : Task}
    (h : u ∈ (round X s done).book.runQueue) : Origin X s (round X s done) u := by
  simp only [round] at h ⊢
  split at h
  · rename_i v q hq
    have hhead : v ∈ (s.pass X).book.runQueue := by
      rw [State.pass, hq]
      exact List.mem_cons_self
    rcases queue_startTask h with h | ⟨hd, k, a, rfl, hh⟩
    · refine origin_pass ?_
      rw [State.pass, hq]
      exact List.mem_cons_of_mem _ h
    · exact .handed hhead hh
  · rename_i hq
    rw [hdone] at h
    exact origin_pass (s := s) h

theorem origin_deliver (ha : Agreed s.book) {ans : Answer} {rest : List Frame} {f : Frame} {u : Task}
    (h : u ∈ (deliver s ans rest f).book.runQueue) : Origin X s t u := by
  cases f with
  | handler hd =>
    cases hd with
    | main sw => cases ans <;> exact .old h
    | fiber sw => exact .old h
    | promise sw p => exact origin_settle ha rfl h
  | settles p => cases ans <;> exact origin_settle ha rfl h
  | scheduler sw => cases ans <;> exact .old h
  | mainScheduler sw => cases ans <;> exact .old h
  | _ => exact .old h

theorem origin_go (ha : Agreed s.book) {u : Task} (h : u ∈ (go X s).book.runQueue) :
    Origin X s (go X s) u := by
  by_cases hp : s.polling = true
  · obtain ⟨f, rest, hm, hst, hl⟩ := polling_looping hp
    cases f with
    | scheduler sw =>
      have hgo : go X s = schedulerRound X s sw rest := by simp only [go, hm, hst]
      rw [hgo] at h ⊢
      refine origin_round ?_ h
      intro v
      split <;> rfl
    | mainScheduler sw =>
      have hgo : go X s = mainSchedulerRound X s sw rest := by simp only [go, hm, hst]
      rw [hgo] at h ⊢
      refine origin_round ?_ h
      intro v
      split
      · rfl
      · split <;> rfl
    | _ => cases hl
  · simp only [go] at h ⊢
    split at h
    · exact origin_deliver ha h
    · rename_i sw rest hm hst
      simp [State.polling, hm, hst, Frame.loop] at hp
    · rename_i sw rest hm hst
      simp [State.polling, hm, hst, Frame.loop] at hp
    · rename_i sw hooks rest hm hst
      cases hooks <;> exact .old h
    · exact .old h

theorem origin_effc {segment rest : List Frame} {h : Handler} {eff : Eff} {u : Task}
    (hu : u ∈ (effc X s segment h rest eff).book.runQueue) : Origin X s t u := by
  cases eff with
  | fork sw =>
    rcases queue_enqueue hu with hu | rfl
    · exact .old hu
    · exact .starts rfl
  | forkPromise sw =>
    rcases queue_enqueue hu with hu | rfl
    · exact .old hu
    · exact .starts rfl
  | await p =>
    simp only [effc] at hu
    split at hu
    · exact .old hu
    · rw [State.suspend, State.leave_book, Book.addWaiter] at hu
      split at hu
      · exact .old hu
      · rcases queue_enqueue hu with hu | rfl
        · exact .old hu
        · exact .waker ..
  | yield =>
    simp only [effc, State.suspend, State.leave_book] at hu
    rcases queue_enqueue hu with hu | rfl
    · exact .old hu
    · exact .yielded h
  | net e =>
    simp only [effc] at hu
    split at hu
    · exact .old hu
    · rw [State.suspend, State.leave_book] at hu
      exact .old hu
  | other => exact .old hu

theorem step_origin (h : Step X s a t) (ha : Agreed s.book) {u : Task} (hu : u ∈ t.book.runQueue) :
    Origin X s t u := by
  obtain ⟨-, rfl⟩ := h
  cases a with
  | go => exact origin_go ha hu
  | perform eff =>
    simp only [next, perform] at hu ⊢
    split at hu
    · exact origin_effc hu
    · exact .old hu
  | resolve p v =>
    have hb : Agreed (s.book.note (.settled p)) := ha.note trivial
    exact origin_settle hb rfl hu
  | fail p e =>
    have hb : Agreed (s.book.note (.settled p)) := ha.note trivial
    exact origin_settle hb rfl hu
  | element =>
    rcases queue_enqueue hu with hu | rfl
    · exact .old hu
    · exact .starts rfl
  | switchRun =>
    rcases queue_enqueue hu with hu | rfl
    · exact .old hu
    · exact .starts rfl
  | ret v =>
    simp only [next, finish] at hu
    split at hu <;> exact .old hu
  | raise e =>
    simp only [next, finish] at hu
    split at hu <;> exact .old hu
  | _ => exact .old hu

end PicoOcaml.Pio
