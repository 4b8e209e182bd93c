import Mathlib.Algebra.BigOperators.Group.List.Basic
import PicoOcaml.Pio.Shifts

/-! Counting the references to one continuation over promises, waiting list, queue and history. -/
namespace PicoOcaml.Pio

theorem sum_map_set {α M : Type*} [AddCommMonoid M] {f : α → M} {x y : α} {l : List α} {i : ℕ}
    (h : l[i]? = some x) : ((l.set i y).map f).sum + f x = (l.map f).sum + f y := by
  induction l generalizing i with
  | nil => simp at h
  | cons z l ih =>
    cases i with
    | zero =>
      simp only [List.getElem?_cons_zero, Option.some.injEq] at h
      subst h
      simp only [List.set_cons_zero, List.map_cons, List.sum_cons]
      rw [add_comm (f y), add_right_comm, add_comm (List.sum _)]
    | succ i =>
      have hi := ih (i := i) (by simpa using h)
      simp only [List.set_cons_succ, List.map_cons, List.sum_cons]
      rw [add_assoc, hi, add_assoc]

theorem sum_map_pos {α : Type*} {f : α → ℕ} {l : List α} : 0 < (l.map f).sum ↔ ∃ x ∈ l, 0 < f x := by
  simp [List.sum_pos_iff_exists_pos_nat]

/-- Weights for the places that refer to continuation `k`: queued tasks, events, and what the
capture of `k` grants. A task that waits elsewhere weighs what its arrival in the queue will. -/
structure Ledger where
  k : ℕ
  queued : Task → ℕ
  event : Event → ℕ
  grant : Eff → ℕ
  starts : ∀ t, t.starts = true → queued t = 0 ∧ event (.enqueued t) = 0 ∧ event (.ran t) = 0
  awaited : ∀ p a, event (.awaited p a) = 0
  settled : ∀ p, event (.settled p) = 0
  ended : ∀ body a, event (.ended body a) = 0
  await : ∀ p h j, queued (.waker p h j) + event (.enqueued (.waker p h j)) =
    if j = k then grant (.await p) else 0
  yield : ∀ h j, queued (.resume h j (.value .unit)) + event (.enqueued (.resume h j (.value .unit))) =
    if j = k then grant .yield else 0
  wait : ∀ op sock h j e, WaitsFor op sock e →
    queued (.wake op sock h j) + event (.enqueued (.wake op sock h j)) =
      if j = k then grant (.net e) else 0
  timeout : ∀ op sock h j, queued (.onTimeout op sock h j) + event (.enqueued (.onTimeout op sock h j)) =
    queued (.wake op sock h j) + event (.enqueued (.wake op sock h j))
  resume : ∀ h j a, event (.ran (.resume h j a)) = queued (.resume h j a)
  woken : ∀ p h j a, event (.ran (.waker p h j)) + queued (.resume h j a) +
    event (.enqueued (.resume h j a)) = queued (.waker p h j)
  stillPending : ∀ p h j, event (.ran (.waker p h j)) + event (.stillPending j) =
    queued (.waker p h j)
  ready : ∀ op sock h j a, event (.ran (.wake op sock h j)) + queued (.resume h j a) +
    event (.enqueued (.resume h j a)) = queued (.wake op sock h j)
  expired : ∀ op sock h j a, event (.ran (.onTimeout op sock h j)) + queued (.resume h j a) +
    event (.enqueued (.resume h j a)) = queued (.onTimeout op sock h j)

namespace Ledger

variable (L : Ledger)

def arriving (t : Task) : ℕ := L.queued t + L.event (.enqueued t)

def held (o : PromiseState) : ℕ := (o.waiters.map L.arriving).sum

def waiting (ws : List IoWaiter) : ℕ := (ws.map fun w => L.arriving w.wake).sum

def total (b : Book) : ℕ :=
  (b.promises.map L.held).sum + L.waiting b.ioWaiters + (b.runQueue.map L.queued).sum +
    (b.log.map L.event).sum

/-- What the capture of `k` has granted so far. -/
def due (b : Book) : ℕ := ((b.konts[L.k]?).map fun kont => L.grant kont.1).getD 0

variable {L} {b b' : Book}

theorem arriving_starts {t : Task} (h : t.starts = true) : L.arriving t = 0 := by
  obtain ⟨hq, he, -⟩ := L.starts t h
  simp [arriving, hq, he]

theorem sum_arriving (ts : List Task) : (ts.map L.arriving).sum =
    (ts.map L.queued).sum + ((ts.map Event.enqueued).map L.event).sum := by
  induction ts with
  | nil => rfl
  | cons t ts ih =>
    simp only [List.map_cons, List.sum_cons, ih, arriving]
    omega

theorem total_enqueueAll (ts : List Task) :
    L.total (b.enqueueAll ts) = L.total b + (ts.map L.arriving).sum := by
  simp only [total, Book.enqueueAll, List.map_append, List.sum_append, sum_arriving]
  omega

theorem total_enqueue (t : Task) : L.total (b.enqueue t) = L.total b + L.arriving t := by
  simp [Book.enqueue, total_enqueueAll]

theorem total_note (e : Event) : L.total (b.note e) = L.total b + L.event e := by
  simp only [total, Book.note, List.map_append, List.sum_append, List.map_cons, List.map_nil,
    List.sum_cons, List.sum_nil]
  omega

theorem total_create : L.total b.createPromise = L.total b := by
  simp [total, Book.createPromise, held, PromiseState.waiters]

theorem total_take {t : Task} {q : List Task} (hq : b.runQueue = t :: q) :
    L.total (b.take t q) + L.queued t = L.total b + L.event (.ran t) := by
  rw [Book.take, total_note]
  simp only [total, hq, List.map_cons, List.sum_cons]
  omega

theorem total_settle (p : ℕ) {o : PromiseState} (ho : L.held o = 0) :
    L.total (b.settle p o) = L.total b := by
  simp only [Book.settle]
  split
  · rename_i ws hp
    have hset := sum_map_set (f := L.held) (y := o) hp
    have hws : L.held (.pending ws) = (ws.map L.arriving).sum := rfl
    rw [total_enqueueAll]
    simp only [total]
    omega
  · rfl

theorem total_addWaiter (p : ℕ) (t : Task) :
    L.total (b.addWaiter p t) = L.total b + L.arriving t := by
  simp only [Book.addWaiter]
  split
  · rename_i ws hp
    have hset := sum_map_set (f := L.held) (y := .pending (t :: ws)) hp
    have hws : L.held (.pending (t :: ws)) = L.arriving t + L.held (.pending ws) := rfl
    simp only [total]
    omega
  · exact total_enqueue t

theorem waiting_reverse (ws : List IoWaiter) : L.waiting ws.reverse = L.waiting ws := by
  simp [waiting, List.sum_reverse]

/-- A pass of the poll only moves waiters. -/
theorem waiting_polled {ws kept : List IoWaiter} {ts : List Task} (h : Polled ws kept ts) :
    L.waiting kept + (ts.map L.arriving).sum = L.waiting ws := by
  induction h with
  | nil => rfl
  | ready w _ ih =>
    simp only [waiting, List.map_cons, List.sum_cons] at ih ⊢
    omega
  | expired w _ _ ih =>
    have ht : L.arriving w.onTimeout = L.arriving w.wake := L.timeout _ _ _ _
    simp only [waiting, List.map_cons, List.sum_cons] at ih ⊢
    omega
  | waits w _ _ ih =>
    have hw : L.arriving ({ w with timeoutCount := w.timeoutCount + 1 } : IoWaiter).wake =
        L.arriving w.wake := rfl
    simp only [waiting, List.map_cons, List.sum_cons] at ih ⊢
    omega

theorem due_capture (eff : Eff) (h : Handler) : L.due (b.capture eff h) =
    L.due b + if b.konts.length = L.k then L.grant eff else 0 := by
  simp only [due, Book.capture]
  rcases Nat.lt_trichotomy L.k b.konts.length with hlt | heq | hgt
  · rw [List.getElem?_append_left hlt, if_neg (by omega)]
    omega
  · rw [← heq, List.getElem?_append_right (Nat.le_of_eq heq.symm)]
    simp [heq]
  · rw [List.getElem?_append_right (by omega), List.getElem?_eq_none (by simp; omega),
      List.getElem?_eq_none (by omega), if_neg (by omega)]
    rfl

theorem due_settle (p : ℕ) (o : PromiseState) : L.due (b.settle p o) = L.due b := by
  simp only [Book.settle]
  split <;> rfl

theorem due_addWaiter (p : ℕ) (t : Task) : L.due (b.addWaiter p t) = L.due b := by
  simp only [Book.addWaiter]
  split <;> rfl

theorem held_of_outcome {o : PromiseState} {a : Answer} (h : o.outcome = some a) :
    L.held o = 0 := by
  cases o with
  | pending ws => cases h
  | resolved v => rfl
  | failed e => rfl

theorem grant_await (p : ℕ) (h : Handler) (j : ℕ) :
    L.arriving (.waker p h j) = if j = L.k then L.grant (.await p) else 0 := L.await p h j

theorem grant_yield (h : Handler) (j : ℕ) :
    L.arriving (.resume h j (.value .unit)) = if j = L.k then L.grant .yield else 0 := L.yield h j

theorem grant_wait {op : Operation} {sock : ℤ} {e : NetEff} (h : Handler) (j : ℕ)
    (he : WaitsFor op sock e) :
    L.arriving (.wake op sock h j) = if j = L.k then L.grant (.net e) else 0 :=
  L.wait op sock h j e he

/-- A task that is taken and queues a resumption in its place. -/
theorem total_handOver {t : Task} {q : List Task} {h : Handler} {j : ℕ} {a : Answer}
    (hq : b.runQueue = t :: q)
    (ht : L.event (.ran t) + L.queued (.resume h j a) + L.event (.enqueued (.resume h j a)) =
      L.queued t) :
    L.total ((b.take t q).enqueue (.resume h j a)) = L.total b := by
  have htake := total_take (L := L) hq
  rw [total_enqueue]
  simp only [arriving]
  omega

theorem total_quiet (h : Quiet b b') : L.total b' = L.total b := by
  cases h with
  | create => exact total_create
  | settle p ho =>
    rw [total_settle p (held_of_outcome ho), total_note, L.settled p]
    rfl
  | poll hp =>
    have hw := waiting_polled (L := L) hp
    rw [total_enqueueAll, List.map_reverse, List.sum_reverse]
    simp only [total, waiting_reverse]
    omega
  | @waker p j h a q hq ho => exact total_handOver hq (L.woken p h j a)
  | @wake op sock h j a q hq ha => exact total_handOver hq (L.ready op sock h j a)
  | @onTimeout op sock h j a q hq => exact total_handOver hq (L.expired op sock h j a)
  | @awaited p a ho =>
    rw [total_note, L.awaited p a]
    rfl

theorem due_quiet (h : Quiet b b') : L.due b' = L.due b := by
  cases h with
  | settle p ho => exact due_settle p _
  | _ => rfl

/-- A capture grants its weight. -/
theorem total_capture {eff : Eff} {h : Handler} (hc : Capture h b eff b') :
    L.total b' + L.due b = L.total b + L.due b' := by
  have hd := due_capture (L := L) (b := b) eff h
  cases hc with
  | @await p ho hp =>
    have ha := grant_await (L := L) p h b.konts.length
    have ht : ∀ e h, L.total (b.capture e h) = L.total b := fun _ _ => rfl
    rw [total_addWaiter, due_addWaiter, ht]
    omega
  | yield =>
    have hy := grant_yield (L := L) h b.konts.length
    have ht : L.total (b.capture .yield h) = L.total b := rfl
    have he : L.due ((b.capture .yield h).enqueue (.resume h b.konts.length (.value .unit))) =
        L.due (b.capture .yield h) := rfl
    rw [total_enqueue, ht, he]
    omega
  | @wait e sock op he =>
    have hw := grant_wait (L := L) h b.konts.length he
    simp only [due, total, Book.capture, waiting, List.map_cons, List.sum_cons, IoWaiter.wake]
      at hd hw ⊢
    omega

/-- A move changes the total by what it grants. -/
theorem total_move (h : Move b b') : L.total b' + L.due b = L.total b + L.due b' := by
  cases h with
  | quiet h => rw [total_quiet h, due_quiet h]
  | capture h => exact total_capture h
  | settle p ho => rw [total_settle p (held_of_outcome ho), due_settle]
  | start h => rw [total_enqueue, arriving_starts h]; rfl
  | @run t q hq ht =>
    have htake := total_take (L := L) hq
    have hd : L.due (b.take t q) = L.due b := rfl
    obtain ⟨h1, -, h3⟩ := L.starts t ht
    omega
  | @resume h j a q hq =>
    have htake := total_take (L := L) hq
    have hd : L.due (b.take (.resume h j a) q) = L.due b := rfl
    have hr := L.resume h j a
    omega
  | @stillPending p j h q hq ho =>
    have htake := total_take (L := L) hq
    have hd : L.due ((b.take (.waker p h j) q).note (.stillPending j)) = L.due b := rfl
    have hs := L.stillPending p h j
    rw [total_note]
    omega
  | ended body a =>
    rw [total_note, L.ended body a]
    rfl

/-- A close gives up the references from the waiters that it drops. -/
theorem total_drop (sock : ℤ) : L.total (b.dropWaiters sock) +
    L.waiting (b.ioWaiters.filter fun w => w.sockId = sock) = L.total b := by
  have hw : L.waiting (b.ioWaiters.filter fun w => w.sockId ≠ sock) +
      L.waiting (b.ioWaiters.filter fun w => w.sockId = sock) = L.waiting b.ioWaiters := by
    induction b.ioWaiters with
    | nil => rfl
    | cons w ws ih =>
      simp only [waiting] at ih ⊢
      by_cases hw : w.sockId = sock
      · rw [List.filter_cons_of_neg (by simp [hw]), List.filter_cons_of_pos (by simp [hw])]
        simp only [List.map_cons, List.sum_cons]
        omega
      · rw [List.filter_cons_of_pos (by simp [hw]), List.filter_cons_of_neg (by simp [hw])]
        simp only [List.map_cons, List.sum_cons]
        omega
  simp only [total, Book.dropWaiters]
  omega

/-- No more references than granted: what every run keeps. -/
theorem total_le_due_step {W : Type*} {X : Externals W} {s t : State W} {a : Act}
    (h : Step X s a t) (hs : L.total s.book ≤ L.due s.book) : L.total t.book ≤ L.due t.book := by
  refine step_keeps (p := fun b => L.total b ≤ L.due b) h ?_ ?_ hs
  · intro b b' hb hm
    have hmove := total_move (L := L) hm
    omega
  · intro b sock hb
    have hdrop := total_drop (L := L) (b := b) sock
    have hd : L.due (b.dropWaiters sock) = L.due b := rfl
    omega

theorem total_initial {W : Type*} (world : W) :
    L.total (State.initial world).book = L.due (State.initial world).book := rfl

end Ledger

end PicoOcaml.Pio
