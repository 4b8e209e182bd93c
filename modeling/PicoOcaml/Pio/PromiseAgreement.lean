import PicoOcaml.Pio.Census
import PicoOcaml.Pio.OneShot

/-! Every await of a promise yields the outcome that its first resolve or fail has fixed. -/
namespace PicoOcaml.Pio

namespace Ledger

variable {k : ℕ} {b b' : Book}

end Ledger

/-- The task that a frame belongs to, for the frames that settle a promise. -/
def Frame.task : Frame → Option Task
  | .handler (.promise sw p) => some (.promiseFiber sw p)
  | .settles p => some (.element p)
  | _ => none

section

variable {b b' : Book} {p : ℕ} {o : Answer}

theorem outcome_settle {q : ℕ} {x : PromiseState} (h : (b.settle q x).outcome p = some o) :
    b.outcome p = some o ∨ p = q ∧ x.outcome = some o := by
  simp only [Book.settle] at h
  split at h
  · rename_i ws hq
    by_cases hpq : p = q
    · subst hpq
      have hset := outcome_set hq x
      exact .inr ⟨rfl, hset.symm.trans h⟩
    · left
      simpa [Book.outcome, Book.enqueueAll, List.getElem?_set_ne (Ne.symm hpq)] using h
  · exact .inl h

theorem outcome_create (h : b.createPromise.outcome p = some o) : b.outcome p = some o := by
  simp only [Book.outcome, Book.createPromise] at h ⊢
  rcases Nat.lt_or_ge p b.promises.length with hlt | hge
  · rwa [List.getElem?_append_left hlt] at h
  · rw [List.getElem?_append_right hge, List.getElem?_singleton] at h
    split at h <;> cases h

theorem outcome_capture {eff : Eff} {hd : Handler} (hc : Capture hd b eff b')
    (h : b'.outcome p = some o) : b.outcome p = some o := by
  cases hc with
  | @await q ho hlt =>
    simp only [Book.addWaiter] at h
    split at h
    · rename_i ws hq
      by_cases hpq : p = q
      · subst hpq
        rw [outcome_set hq] at h
        cases h
      · simpa [Book.outcome, Book.capture, List.getElem?_set_ne (Ne.symm hpq)] using h
    · exact h
  | yield => exact h
  | wait he => exact h

theorem outcome_quiet (hq : Quiet b b') (h : b'.outcome p = some o) :
    b.outcome p = some o ∨ .settled p ∈ b'.log := by
  cases hq with
  | create => exact .inl (outcome_create h)
  | @settle q x a ho =>
    rcases outcome_settle h with h | ⟨rfl, -⟩
    · exact .inl h
    · right
      have he := extends_settle (b := b.note (.settled p)) p x
      exact he.log (List.mem_append_right _ (List.mem_singleton.mpr rfl))
  | _ => exact .inl h

end

variable {W : Type*} {c : List Frame → Handler → List Frame → Prop} {s t : State W}

/-- A promise is settled by the program, by its promise fiber, or by its element. -/
theorem Shift.outcome (h : Shift c s t) {p : ℕ} {o : Answer} (ho : t.book.outcome p = some o) :
    s.book.outcome p = some o ∨ .settled p ∈ t.book.log ∨ ∃ a f rest, s.Returns a f rest ∧
      ((∃ sw, f = .handler (.promise sw p) ∧ o = .value a.result) ∨ f = .settles p ∧ o = a) := by
  cases h with
  | quiet w hq =>
    rcases outcome_quiet hq ho with h | h
    · exact .inl h
    · exact .inr (.inl h)
  | forkPromise hsw => exact .inl (outcome_create ho)
  | element => exact .inl (outcome_create ho)
  | suspend w hs hsplit hc hcap =>
    rw [State.leave_book] at ho
    exact .inl (outcome_capture hcap ho)
  | @endMain a sw rest hs =>
    simp only [State.endMain_book] at ho
    exact .inl ho
  | @endPromise a sw q rest hs =>
    rcases outcome_settle ho with h | ⟨rfl, h⟩
    · exact .inl h
    · refine .inr (.inr ⟨a, _, rest, hs, .inl ⟨sw, rfl, ?_⟩⟩)
      simpa [PromiseState.outcome] using h.symm
  | @endElement a q rest x hs hx =>
    rcases outcome_settle ho with h | ⟨rfl, h⟩
    · exact .inl h
    · exact .inr (.inr ⟨a, _, rest, hs, .inr ⟨rfl, Option.some.inj (h.symm.trans hx)⟩⟩)
  | _ => exact .inl ho

structure Owned (s : State W) : Prop where
  fresh : ∀ {u : Task} {p : ℕ}, .enqueued u ∈ s.program → u.promise = some p →
    p < s.book.promises.length
  unique : ∀ {u u' : Task} {p : ℕ}, .enqueued u ∈ s.program → .enqueued u' ∈ s.program →
    u.promise = some p → u'.promise = some p → u = u'
  load : ∀ {f : Frame} {u : Task} (hf : f.ofLibrary = false), f.task = some u →
    (Census.only f hf).load s ≤ s.program.count (.enqueued u)
  settled : ∀ {sw p : ℕ} {o : Answer}, .enqueued (.promiseFiber sw p) ∈ s.program →
    s.book.outcome p = some o →
    .settled p ∈ s.book.log ∨ ∃ a, .ended (.promise sw p) a ∈ s.book.log ∧ o = .value a.result

/-- A frame on the stack comes from a task that has been queued. -/
theorem Owned.queued (h : Owned s) {a : Answer} {f : Frame} {rest : List Frame} {u : Task}
    (hs : s.Returns a f rest) (hu : f.task = some u) : .enqueued u ∈ s.program := by
  have hf : f.ofLibrary = false := by
    cases f with
    | handler hd => cases hd <;> first | rfl | cases hu
    | settles p => rfl
    | _ => cases hu
  have hload := h.load hf hu
  have hpos : 1 ≤ (Census.only f hf).load s := by
    have hone : (Census.only f hf).frame f = 1 := by simp [Census.only]
    simp only [Census.load, hs.2, Census.frames_cons, hone]
    omega
  exact List.count_pos_iff.mp (by omega)

theorem task_only {f : Frame} {u v : Task} (hf : f.ofLibrary = false) (hu : f.task = some u) :
    (Census.only f hf).task v ≤ if v = u then 1 else 0 := by
  cases f with
  | handler hd =>
    cases hd with
    | promise sw p =>
      cases hu
      cases v <;> simp [Census.task, Task.frames, Census.only]
    | _ => cases hu
  | settles p =>
    cases hu
    cases v <;> simp [Census.task, Task.frames, Census.only]
  | _ => cases hu

/-- A task with a promise that is queued now has a new promise. -/
theorem Flow.enqueued (h : Flow s t) {u : Task} {p : ℕ} (hu : .enqueued u ∈ t.program)
    (hp : u.promise = some p) : .enqueued u ∈ s.program ∨
      t.program = s.program ++ [.enqueued u] ∧ p = s.book.promises.length ∧
        p < t.book.promises.length := by
  cases h with
  | still hn hload hprog hfib => exact .inl (hprog ▸ hu)
  | issue v hn hv hm hsw hnew hload hprog hfib =>
    rw [hprog] at hu
    rcases List.mem_append.mp hu with hu | hu
    · exact .inl hu
    · have huv := List.mem_singleton.mp hu
      simp only [Event.enqueued.injEq] at huv
      subst huv
      exact .inr ⟨hprog, hnew p hp⟩
  | run hn hload hprog hfib =>
    rw [hprog] at hu
    rcases List.mem_append.mp hu with hu | hu
    · exact .inl hu
    · have huv := List.mem_singleton.mp hu
      simp only [Event.enqueued.injEq] at huv
      subst huv
      cases hp
  | ended b a hn hload hprog hfib =>
    rw [hprog] at hu
    rcases List.mem_append.mp hu with hu | hu
    · exact .inl hu
    · cases List.mem_singleton.mp hu
  | done f a rest hn hs hf hload hprog hfib => exact .inl (hprog ▸ hu)
  | mainDone a sw rest hn hs hload hprog hfib => exact .inl (hprog ▸ hu)

theorem Flow.load_only (h : Flow s t) {f : Frame} {u : Task} (hf : f.ofLibrary = false)
    (hu : f.task = some u)
    (hs : (Census.only f hf).load s ≤ s.program.count (.enqueued u)) :
    (Census.only f hf).load t ≤ t.program.count (.enqueued u) := by
  cases h with
  | still hn hload hprog hfib => rw [hload, hprog]; exact hs
  | issue v hn hv hm hsw hnew hload hprog hfib =>
    have htask := task_only (v := v) hf hu
    rw [hload, hprog, List.count_append, List.count_singleton]
    simp only [beq_iff_eq, Event.enqueued.injEq]
    omega
  | run hn hload hprog hfib =>
    have htask := task_only (v := .main s.nextSwitch) hf hu
    rw [hload, hprog, List.count_append, List.count_singleton]
    simp only [beq_iff_eq, Event.enqueued.injEq]
    omega
  | ended b a hn hload hprog hfib =>
    have hl := hload (Census.only f hf)
    rw [hprog, List.count_append]
    omega
  | done g a rest hn hret hg hload hprog hfib =>
    have hl := hload (Census.only f hf)
    rw [hprog]
    omega
  | mainDone a sw rest hn hret hload hprog hfib => rw [hload, hprog]; exact hs

theorem Owned.shift (hsh : Shift c s t) (hs : Sane s) (h : Owned s) : Owned t := by
  have hext := hsh.extends
  have hflow := hsh.flow hs.agreed
  refine ⟨?_, ?_, ?_, ?_⟩
  · intro u p hu hp
    rcases hflow.enqueued hu hp with hu | ⟨-, -, hlt⟩
    · exact Nat.lt_of_lt_of_le (h.fresh hu hp) hext.promises
    · exact hlt
  · intro u u' p hu hu' hp hp'
    rcases hflow.enqueued hu hp with hold | ⟨hprog, rfl, -⟩
    · rcases hflow.enqueued hu' hp' with hold' | ⟨-, rfl, -⟩
      · exact h.unique hold hold' hp hp'
      · exact absurd (h.fresh hold hp) (Nat.lt_irrefl _)
    · rcases hflow.enqueued hu' hp' with hold' | ⟨hprog', -, -⟩
      · exact absurd (h.fresh hold' hp') (Nat.lt_irrefl _)
      · rw [hprog] at hprog'
        simpa using hprog'
  · intro f u hf hu
    exact hflow.load_only hf hu (h.load hf hu)
  · intro sw p o hu ho
    rcases hflow.enqueued hu rfl with hold | ⟨-, hp, -⟩
    · rcases hsh.outcome ho with ho | hset | ⟨a, f, rest, hret, hf⟩
      · rcases h.settled hold ho with hset | ⟨a, ha, ho⟩
        · exact .inl (hext.log hset)
        · exact .inr ⟨a, hext.log ha, ho⟩
      · exact .inl hset
      · rcases hf with ⟨sw', rfl, ho⟩ | ⟨rfl, -⟩
        · -- the promise fiber itself has ended
          have heq := h.unique hold (h.queued hret rfl) rfl rfl
          cases heq
          exact .inr ⟨a, hext.log (hs.control.ended hret rfl), ho⟩
        · have heq := h.unique hold (h.queued hret rfl) rfl rfl
          cases heq
    · rcases hsh.outcome ho with ho | hset | ⟨a, f, rest, hret, hf⟩
      · -- a new promise has no outcome yet
        have hlt : p < s.book.promises.length := by
          obtain ⟨x, hx, -⟩ := Option.bind_eq_some_iff.mp ho
          exact (List.getElem?_eq_some_iff.mp hx).1
        omega
      · exact .inl hset
      · exfalso
        rcases hf with ⟨sw', rfl, -⟩ | ⟨rfl, -⟩
        · have hlt := h.fresh (h.queued hret rfl) (p := p) rfl
          omega
        · have hlt := h.fresh (h.queued hret rfl) (p := p) rfl
          omega

theorem Owned.closed (h : Owned s) (sock : ℤ) (w : W) : Owned (s.closed sock w) :=
  ⟨h.fresh, h.unique, h.load, h.settled⟩

theorem owned_initial (world : W) : Owned (State.initial world) where
  fresh hu := by cases hu
  unique hu := by cases hu
  load {f} {u} hf hu := by
    cases f with
    | handler hd => rfl
    | settles p => rfl
    | _ => cases hu
  settled hu := by cases hu

/-! ### Agreement along runs -/

/-- An await of the promise has ended so: at once, or by the resumption of its continuation. -/
def Completes (b : Book) (p : ℕ) (o : Answer) : Prop :=
  .awaited p o ∈ b.log ∨ ∃ h k h', .ran (.resume h k o) ∈ b.log ∧ b.konts[k]? = some (.await p, h')

theorem Agreed.completed {b : Book} (h : Agreed b) {p : ℕ} {o : Answer} (hc : Completes b p o) :
    b.outcome p = some o := by
  rcases hc with hlog | ⟨hd, k, hd', hlog, hk⟩
  · exact h.history _ hlog
  · obtain ⟨eff, hk', ho⟩ := h.history _ hlog
    rw [hk, Option.some.injEq, Prod.mk.injEq] at hk'
    exact ho p hk'.1.symm

variable {X : Externals W} {a : Act} {xs : List (Act × State W)}

end PicoOcaml.Pio
