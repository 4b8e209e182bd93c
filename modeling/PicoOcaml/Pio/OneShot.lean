import PicoOcaml.Pio.Ledger

/-! A continuation is resumed at most once, and at most one closure of a waiter runs. -/
namespace PicoOcaml.Pio

/-- The continuation that a task refers to. -/
def Task.kont : Task → Option ℕ
  | .waker _ _ k | .wake _ _ _ k | .onTimeout _ _ _ k | .resume _ k _ => some k
  | _ => none

/-- The task continues or discontinues `k`. -/
def Task.resumes (k : ℕ) : Task → Bool
  | .resume _ j _ => j = k
  | _ => false

/-- The task is `wake` or `on_timeout` of the waiter with continuation `k`. -/
def Task.closure (k : ℕ) : Task → Bool
  | .wake _ _ _ j | .onTimeout _ _ _ j => j = k
  | _ => false

/-- The task has been taken from the queue. -/
def Event.ranTask (f : Task → Bool) : Event → Bool
  | .ran t => f t
  | _ => false

namespace Ledger

/-- Every reference to `k`, the task that resumes it included. -/
def references (k : ℕ) : Ledger where
  k := k
  queued t := if t.kont = some k then 1 else 0
  event
    | .ran t => if t.resumes k then 1 else 0
    | .stillPending j => if j = k then 1 else 0
    | _ => 0
  grant _ := 1
  starts t h := by cases t <;> simp_all [Task.starts, Task.kont, Task.resumes]
  awaited p a := rfl
  settled p := rfl
  ended body a := rfl
  await p h j := by simp [Task.kont]
  yield h j := by simp [Task.kont]
  wait op sock h j e _ := by simp [Task.kont]
  timeout op sock h j := rfl
  resume h j a := by simp [Task.kont, Task.resumes]
  woken p h j a := by simp [Task.kont, Task.resumes]
  stillPending p h j := by simp [Task.kont, Task.resumes]
  ready op sock h j a := by simp [Task.kont, Task.resumes]
  expired op sock h j a := by simp [Task.kont, Task.resumes]

/-- The waiter of `k`, its queued closure, and its closure that has run. -/
def closures (k : ℕ) : Ledger where
  k := k
  queued t := if t.closure k then 1 else 0
  event
    | .ran t => if t.closure k then 1 else 0
    | _ => 0
  grant
    | .net _ => 1
    | _ => 0
  starts t h := by cases t <;> simp_all [Task.starts, Task.closure]
  awaited p a := rfl
  settled p := rfl
  ended body a := rfl
  await p h j := by simp [Task.closure]
  yield h j := by simp [Task.closure]
  wait op sock h j e _ := by simp [Task.closure]
  timeout op sock h j := rfl
  resume h j a := by simp [Task.closure]
  woken p h j a := by simp [Task.closure]
  stillPending p h j := by simp [Task.closure]
  ready op sock h j a := by simp [Task.closure]
  expired op sock h j a := by simp [Task.closure]

theorem countP_le_sum {α : Type*} {f : α → Bool} {g : α → ℕ} (hfg : ∀ x, f x = true → 1 ≤ g x)
    (l : List α) : l.countP f ≤ (l.map g).sum := by
  induction l with
  | nil => exact Nat.le_refl 0
  | cons x l ih =>
    rw [List.countP_cons, List.map_cons, List.sum_cons]
    by_cases hx : f x = true
    · have := hfg x hx
      rw [if_pos hx]
      omega
    · rw [if_neg hx]
      omega

variable {L : Ledger} {b : Book}

theorem due_le_one (h : ∀ e, L.grant e ≤ 1) : L.due b ≤ 1 := by
  simp only [due]
  cases b.konts[L.k]? with
  | none => exact Nat.zero_le 1
  | some kont => exact h kont.1

/-- What happens to `k` once a unit of weight is used up happens at most once. -/
theorem count_le_one {f : Event → Bool} (hgrant : ∀ e, L.grant e ≤ 1)
    (hf : ∀ e, f e = true → 1 ≤ L.event e) (hb : L.total b ≤ L.due b) : b.log.countP f ≤ 1 := by
  have hcount := countP_le_sum hf b.log
  have hdue := due_le_one (b := b) hgrant
  simp only [total] at hb
  omega

theorem references_grant_le (k : ℕ) (e : Eff) : (references k).grant e ≤ 1 := by
  exact Nat.le_refl 1

theorem closures_grant_le (k : ℕ) (e : Eff) : (closures k).grant e ≤ 1 := by
  cases e <;> simp [closures]

end Ledger

variable {W : Type*} {X : Externals W} {s t : State W} {a : Act} {xs : List (Act × State W)}

/-- No ledger is overdrawn. -/
def Balanced (b : Book) : Prop := ∀ L : Ledger, L.total b ≤ L.due b

theorem run_balanced {world : W} (h : Lts.Run (Step X) (State.initial world) xs) :
    Lts.Always (fun s => Balanced s.book) (State.initial world) xs := by
  refine h.always (fun L => Nat.le_of_eq (L.total_initial world)) ?_
  intro u a v hu hstep L
  exact L.total_le_due_step hstep (hu L)

/-- `k` has been continued or discontinued at most once, and of the closures of its waiter at
most one has run, once. -/
def AtMostOnce (b : Book) (k : ℕ) : Prop :=
  b.log.countP (Event.ranTask (Task.resumes k)) ≤ 1 ∧
    b.log.countP (Event.ranTask (Task.closure k)) ≤ 1

theorem Balanced.atMostOnce {b : Book} (h : Balanced b) (k : ℕ) : AtMostOnce b k := by
  constructor
  · refine Ledger.count_le_one (Ledger.references_grant_le k) ?_ (h (Ledger.references k))
    intro e he
    cases e <;> simp_all [Event.ranTask, Ledger.references]
  · refine Ledger.count_le_one (Ledger.closures_grant_le k) ?_ (h (Ledger.closures k))
    intro e he
    cases e <;> simp_all [Event.ranTask, Ledger.closures]

theorem waiter_reference (w : IoWaiter) : (Ledger.references w.k).arriving w.wake = 1 := by
  simp [Ledger.arriving, Ledger.references, Task.kont, IoWaiter.wake]

/-- No task in the queue refers to the continuation of a waiter. -/
theorem Balanced.not_queued {b : Book} (h : Balanced b) {w : IoWaiter} (hw : w ∈ b.ioWaiters)
    {t : Task} (ht : t ∈ b.runQueue) : t.kont ≠ some w.k := by
  intro hk
  have hqueue : 0 < (b.runQueue.map (Ledger.references w.k).queued).sum :=
    sum_map_pos.mpr ⟨t, ht, by simp [Ledger.references, hk]⟩
  have hwait : 0 < (Ledger.references w.k).waiting b.ioWaiters :=
    sum_map_pos.mpr ⟨w, hw, by rw [waiter_reference]; exact Nat.one_pos⟩
  have htotal := h (Ledger.references w.k)
  have hdue := Ledger.due_le_one (b := b) (Ledger.references_grant_le w.k)
  simp only [Ledger.total] at htotal
  omega

theorem resumed_at_most_once {world : W} (h : Lts.Run (Step X) (State.initial world) xs) :
    Lts.Always (fun s => ∀ k, AtMostOnce s.book k) (State.initial world) xs :=
  (run_balanced h).imp fun _ hb k => hb.atMostOnce k

/-- A run in which the main fiber yields, is resumed and ends. -/
def yieldOnce : List Act :=
  [.switchRun, .go, .perform .yield, .go, .go, .go, .ret .unit, .go, .go, .go, .go, .go, .go,
    .ret .unit]

theorem resumed_at_most_once_yield :
    Lts.Always (fun s => ∀ k, AtMostOnce s.book k) (State.initial ())
      (Lts.trace (next quiet) (State.initial ()) yieldOnce) :=
  resumed_at_most_once (X := quiet) (Lts.run_accepts Enabled (by decide))

end PicoOcaml.Pio
