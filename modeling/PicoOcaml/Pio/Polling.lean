import PicoOcaml.Pio.Control
import PicoOcaml.Pio.Timeouts

/-! What a pass of the poll makes of the waiting list, and what becomes of one waiter over the
passes of a run. -/
namespace PicoOcaml.Pio

variable {W : Type*} (X : Externals W)

/-! ### One pass -/

/-- The waiters with what the raw calls say of them, in the order in which they are asked. -/
def outcomes : List IoWaiter → W → List (IoWaiter × Bool)
  | [], _ => []
  | v :: ws, w => (v, (isReady X v w).1) :: outcomes ws (isReady X v w).2

/-- The outcomes of the pass that starts in this world. -/
def Book.outcomes (b : Book) (world : W) : List (IoWaiter × Bool) :=
  Pio.outcomes X b.ioWaiters (serviceNetwork X world)

def IoWaiter.counted (v : IoWaiter) (n : ℕ) : IoWaiter := { v with timeoutCount := v.timeoutCount + n }

def expired (o : IoWaiter × Bool) : Bool := !o.2 && decide (o.1.maxTimeout ≤ o.1.timeoutCount)

def waits (o : IoWaiter × Bool) : Bool := !o.2 && decide (o.1.timeoutCount < o.1.maxTimeout)

/-- The waiters whose outcome passes the test. -/
def those (test : IoWaiter × Bool → Bool) (os : List (IoWaiter × Bool)) : List IoWaiter :=
  (os.filter test).map Prod.fst

/-- Every waiter is asked and is either ready, at its limit, or waits on; the first two have their
closures queued behind what is in the queue, and the others stay, counted once more. -/
structure Partition (b : Book) (os : List (IoWaiter × Bool)) (b' : Book) : Prop where
  asked : os.map Prod.fst = b.ioWaiters
  split : b.ioWaiters.Perm (those Prod.snd os ++ those expired os ++ those waits os)
  queued : ∃ new, b'.runQueue = b.runQueue ++ new ∧
    new.Perm ((those Prod.snd os).map IoWaiter.wake ++ (those expired os).map IoWaiter.onTimeout)
  stay : b'.ioWaiters.Perm ((those waits os).map fun v => v.counted 1)

/-- What the pass queues for an outcome, and what it keeps. -/
def closureOf (o : IoWaiter × Bool) : Option Task :=
  if o.2 then some o.1.wake else if expired o then some o.1.onTimeout else none

def keptOf (o : IoWaiter × Bool) : Option IoWaiter := if waits o then some (o.1.counted 1) else none

theorem processWaiter_eq (acc : (List IoWaiter × List Task) × W) (v : IoWaiter) :
    processWaiter X acc v =
      (((keptOf (v, (isReady X v acc.2).1)).toList ++ acc.1.1,
        (closureOf (v, (isReady X v acc.2).1)).toList ++ acc.1.2), (isReady X v acc.2).2) := by
  obtain ⟨⟨remaining, toWake⟩, world⟩ := acc
  by_cases hlimit : v.maxTimeout ≤ v.timeoutCount
  · cases hr : (isReady X v world).1 <;>
      simp [processWaiter, hr, keptOf, closureOf, waits, expired, hlimit, Nat.not_lt.mpr hlimit]
  · cases hr : (isReady X v world).1 <;>
      simp [processWaiter, hr, keptOf, closureOf, waits, expired, hlimit, Nat.not_le.mp hlimit,
        IoWaiter.counted]

theorem foldl_processWaiter_eq (ws : List IoWaiter) (acc : (List IoWaiter × List Task) × W) :
    (ws.foldl (processWaiter X) acc).1 =
      (((outcomes X ws acc.2).filterMap keptOf).reverse ++ acc.1.1,
        ((outcomes X ws acc.2).filterMap closureOf).reverse ++ acc.1.2) := by
  induction ws generalizing acc with
  | nil => rfl
  | cons v ws ih =>
    rw [List.foldl_cons, ih, processWaiter_eq]
    simp only [outcomes, List.filterMap_cons]
    cases keptOf (v, (isReady X v acc.2).1) <;> cases closureOf (v, (isReady X v acc.2).1) <;> simp

theorem map_fst_outcomes (ws : List IoWaiter) (w : W) : (outcomes X ws w).map Prod.fst = ws := by
  induction ws generalizing w with
  | nil => rfl
  | cons v ws ih => simp only [outcomes, List.map_cons, ih]

/-- The three tests exclude each other, and one of them passes. -/
theorem outcome_cases (o : IoWaiter × Bool) :
    (o.2 = true ∧ expired o = false ∧ waits o = false) ∨
    (o.2 = false ∧ expired o = true ∧ waits o = false) ∨
      (o.2 = false ∧ expired o = false ∧ waits o = true) := by
  obtain ⟨v, r⟩ := o
  cases r with
  | true => simp [expired, waits]
  | false =>
    by_cases hlimit : v.maxTimeout ≤ v.timeoutCount
    · simp [expired, waits, hlimit, Nat.not_lt.mpr hlimit]
    · simp [expired, waits, hlimit, Nat.not_le.mp hlimit]

theorem perm_those (os : List (IoWaiter × Bool)) :
    (os.map Prod.fst).Perm (those Prod.snd os ++ those expired os ++ those waits os) := by
  induction os with
  | nil => exact .nil
  | cons o os ih =>
    simp only [those, List.append_assoc] at ih ⊢
    rcases outcome_cases o with ⟨hr, he, hw⟩ | ⟨hr, he, hw⟩ | ⟨hr, he, hw⟩
    · simpa [hr, he, hw] using ih
    · simpa [hr, he, hw] using (ih.cons o.1).trans List.perm_middle.symm
    · simp only [List.map_cons, List.filter_cons, hr, he, hw, if_true, Bool.false_eq_true, if_false]
      rw [← List.append_assoc] at ih ⊢
      exact (ih.cons o.1).trans List.perm_middle.symm

theorem filterMap_closureOf (os : List (IoWaiter × Bool)) : (os.filterMap closureOf).Perm
    ((those Prod.snd os).map IoWaiter.wake ++ (those expired os).map IoWaiter.onTimeout) := by
  induction os with
  | nil => exact .nil
  | cons o os ih =>
    simp only [those] at ih ⊢
    rcases outcome_cases o with ⟨hr, he, -⟩ | ⟨hr, he, -⟩ | ⟨hr, he, -⟩
    · simpa [closureOf, hr, he] using ih
    · simpa [closureOf, hr, he] using (ih.cons o.1.onTimeout).trans List.perm_middle.symm
    · simpa [closureOf, hr, he] using ih

theorem filterMap_keptOf (os : List (IoWaiter × Bool)) :
    os.filterMap keptOf = (those waits os).map fun v => v.counted 1 := by
  induction os with
  | nil => rfl
  | cons o os ih =>
    simp only [those] at ih ⊢
    by_cases hw : waits o = true
    · simp [keptOf, hw, ih]
    · simp [keptOf, hw, ih]

theorem checkIoCompletions_eq (b : Book) (world : W) : (checkIoCompletions X b world).1 =
    { b with ioWaiters := ((b.outcomes X world).filterMap keptOf).reverse }.enqueueAll
      ((b.outcomes X world).filterMap closureOf).reverse := by
  have h := foldl_processWaiter_eq X b.ioWaiters (([], []), serviceNetwork X world)
  simp only [checkIoCompletions, h, List.append_nil, Book.outcomes]

theorem checkIoCompletions_partition (b : Book) (world : W) :
    Partition b (b.outcomes X world) (checkIoCompletions X b world).1 := by
  rw [checkIoCompletions_eq]
  have hfst : (b.outcomes X world).map Prod.fst = b.ioWaiters := map_fst_outcomes X _ _
  refine ⟨hfst, ?_, ⟨_, rfl, ?_⟩, ?_⟩
  · exact hfst ▸ perm_those _
  · exact (List.reverse_perm _).trans (filterMap_closureOf _)
  · rw [← filterMap_keptOf]
    exact List.reverse_perm _

/-! ### One waiter over the passes -/

variable {X} {s t : State W} {a : Act} {xs : List (Act × State W)} {w : IoWaiter} {n : ℕ}

/-- No pass finds the waiter of `k` ready. -/
def NeverReady (X : Externals W) (k : ℕ) (s : State W) (a : Act) (_ : State W) : Prop :=
  Polling s a = true → ∀ o ∈ s.book.outcomes X s.world, o.1.k = k → o.2 = false

/-- No `Tcp_close` takes the waiter of `k`. -/
def Unclosed (k : ℕ) (s : State W) (a : Act) (t : State W) : Prop :=
  ∀ sock, a = .perform (.net (.tcpClose sock)) → ∀ v ∈ s.book.ioWaiters, v.k = k →
    v ∈ t.book.ioWaiters

/-- After `n` passes the waiter has been counted `n` times, or the pass after the one that brought
it to its limit has given it up. -/
def CountedOut (w : IoWaiter) (n : ℕ) (s : State W) : Prop :=
  (w.timeoutCount + n ≤ w.maxTimeout ∧ w.counted n ∈ s.book.ioWaiters ∧
    .enqueued w.onTimeout ∉ s.book.log) ∨
  (w.maxTimeout < w.timeoutCount + n ∧ (∀ v ∈ s.book.ioWaiters, v.k ≠ w.k) ∧
    .enqueued w.onTimeout ∈ s.book.log)

theorem effc_stays {segment rest : List Frame} {h : Handler} {eff : Eff}
    (hw : w ∈ s.book.ioWaiters) : w ∈ (effc X s segment h rest eff).book.ioWaiters ∨
      ∃ sock, Act.perform eff = .perform (.net (.tcpClose sock)) := by
  cases eff with
  | await p =>
    left
    simp only [effc]
    split
    · exact hw
    · rw [State.suspend, State.leave_book, Book.ioWaiters_addWaiter]
      exact hw
  | yield =>
    left
    simp only [effc, State.suspend, State.leave_book]
    exact hw
  | net e =>
    simp only [effc, netEffect_eq]
    rcases handleNetEffect_waiters X h s.book.konts.length s.book.ioWaiters s.world e with
      ⟨a, hr, hws⟩ | ⟨sock, rfl, hr, hws⟩ | ⟨sock, op, -, -, hr, hws⟩
    · left
      simp only [hr, hws]
      exact hw
    · exact .inr ⟨sock, rfl⟩
    · left
      simp only [hr, hws, State.suspend, State.leave_book]
      exact List.mem_cons_of_mem _ hw
  | _ => exact .inl hw

/-- Without a pass, only `Tcp_close` takes a waiter off the list. -/
theorem step_stays (h : Step X s a t) (hp : Polling s a = false) (hw : w ∈ s.book.ioWaiters) :
    w ∈ t.book.ioWaiters ∨ ∃ sock, a = .perform (.net (.tcpClose sock)) := by
  obtain ⟨-, rfl⟩ := h
  cases a with
  | go =>
    have hpoll : s.polling = false := by simpa [Polling] using hp
    exact .inl (ioWaiters_go (X := X) hpoll ▸ hw)
  | perform eff =>
    simp only [next, perform]
    split
    · exact effc_stays hw
    · exact .inl hw
  | _ =>
    left
    rwa [ioWaiters_next (by simp) (by simp)]

/-- While a waiter is on the list, neither of its closures has been queued. -/
theorem Balanced.not_arrived {b : Book} (h : Balanced b) (hw : w ∈ b.ioWaiters) {u : Task}
    (hu : u.closure w.k = true) : .enqueued u ∉ b.log := by
  intro hlog
  have hwait : 0 < (Ledger.arrivals w.k).waiting b.ioWaiters :=
    sum_map_pos.mpr ⟨w, hw, by simp [Ledger.arriving, Ledger.arrivals, IoWaiter.wake, Task.closure]⟩
  have hevent : 0 < (b.log.map (Ledger.arrivals w.k).event).sum :=
    sum_map_pos.mpr ⟨_, hlog, by simp [Ledger.arrivals, hu]⟩
  have htotal := h (Ledger.arrivals w.k)
  have hdue := Ledger.due_le_one (b := b) (Ledger.arrivals_grant_le w.k)
  simp only [Ledger.total] at htotal
  omega

theorem closure_onTimeout (w : IoWaiter) : w.onTimeout.closure w.k = true := by
  simp [IoWaiter.onTimeout, Task.closure]

theorem CountedOut.stays (hb : Balanced t.book) (hle : w.timeoutCount + n ≤ w.maxTimeout)
    (hw : w.counted n ∈ t.book.ioWaiters) : CountedOut w n t :=
  .inl ⟨hle, hw, hb.not_arrived hw (closure_onTimeout w)⟩

theorem CountedOut.over (hb : Balanced t.book) (hlt : w.maxTimeout < w.timeoutCount + n)
    (hlog : .enqueued w.onTimeout ∈ t.book.log) : CountedOut w n t := by
  refine .inr ⟨hlt, ?_, hlog⟩
  intro v hv hk
  exact hb.not_arrived hv (hk ▸ closure_onTimeout w) hlog

/-- What a pass leaves on the list and in the log is still there when the round is over. -/
theorem polled_pass (h : Step X s a t) (hp : Polling s a = true) :
    t.book.ioWaiters = (s.pass X).book.ioWaiters ∧ Extends (s.pass X).book t.book := by
  refine ⟨step_polled h hp, ?_⟩
  obtain ⟨rfl, hpoll⟩ : a = .go ∧ s.polling = true := by simpa [Polling] using hp
  obtain ⟨f, rest, hloop⟩ := polling_looping hpoll
  rw [h.2]
  exact (looping_shift (c := fun _ _ _ => True) hloop).extends

theorem counted_counted (w : IoWaiter) (m n : ℕ) : (w.counted m).counted n = w.counted (m + n) := by
  simp [IoWaiter.counted, Nat.add_assoc]

theorem pass_enqueues {o : IoWaiter × Bool} {u : Task} (ho : o ∈ s.book.outcomes X s.world)
    (hu : closureOf o = some u) : .enqueued u ∈ (s.pass X).book.log := by
  have hmem : u ∈ ((s.book.outcomes X s.world).filterMap closureOf).reverse :=
    List.mem_reverse.mpr (List.mem_filterMap.mpr ⟨o, ho, hu⟩)
  rw [State.pass, checkIoCompletions_eq]
  exact List.mem_append_right _ (List.mem_map_of_mem hmem)

theorem countedOut_polled (h : Step X s a t) (hb : Balanced t.book) (hp : Polling s a = true)
    (hnever : NeverReady X w.k s a t) (hc : CountedOut w n s) : CountedOut w (n + 1) t := by
  obtain ⟨hlist, hext⟩ := polled_pass h hp
  rcases hc with ⟨hle, hw, -⟩ | ⟨hlt, -, hlog⟩
  · have hpart := checkIoCompletions_partition X s.book s.world
    obtain ⟨o, ho, hov⟩ := List.mem_map.mp (hpart.asked ▸ hw)
    have hready : o.2 = false := hnever hp o ho (by rw [hov]; rfl)
    by_cases hlimit : w.timeoutCount + n < w.maxTimeout
    · have hwaits : waits o = true := by simp [waits, hready, hov, IoWaiter.counted, hlimit]
      have hkept : o.1 ∈ those waits (s.book.outcomes X s.world) :=
        List.mem_map.mpr ⟨o, List.mem_filter.mpr ⟨ho, hwaits⟩, rfl⟩
      have hstay := hpart.stay.mem_iff.mpr (List.mem_map.mpr ⟨o.1, hkept, rfl⟩)
      rw [hov, counted_counted] at hstay
      exact .stays hb (by omega) (hlist ▸ hstay)
    · have hclosure : closureOf o = some w.onTimeout := by
        have hmax : w.maxTimeout ≤ w.timeoutCount + n := by omega
        simp [closureOf, expired, hready, hov, IoWaiter.counted, hmax, IoWaiter.onTimeout]
      exact .over hb (by omega) (hext.log (pass_enqueues ho hclosure))
  · exact .over hb (by omega) ((step_extends h).log hlog)

theorem countedOut_kept (h : Step X s a t) (hb : Balanced t.book) (hp : Polling s a = false)
    (hclose : Unclosed w.k s a t) (hc : CountedOut w n s) : CountedOut w n t := by
  rcases hc with ⟨hle, hw, -⟩ | ⟨hlt, -, hlog⟩
  · refine .stays hb hle ?_
    rcases step_stays h hp hw with hstay | ⟨sock, rfl⟩
    · exact hstay
    · exact hclose sock rfl _ hw rfl
  · exact .over hb hlt ((step_extends h).log hlog)

/-- Counted pass by pass from wherever it is on the list. -/
theorem countedOut_run (h : Lts.Run (Step X) s xs) (hb : Lts.Always (fun u => Balanced u.book) s xs)
    (hnever : Lts.Run (NeverReady X w.k) s xs) (hclose : Lts.Run (Unclosed w.k) s xs)
    (hc : CountedOut w n s) : CountedOut w (n + Lts.count Polling s xs) (Lts.last s xs) := by
  induction xs generalizing s n with
  | nil => exact hc
  | cons x xs ih =>
    obtain ⟨a, t⟩ := x
    obtain ⟨-, htail⟩ := Lts.always_cons.mp hb
    rw [Lts.count_cons, Lts.last_cons, ← Nat.add_assoc]
    apply ih h.2 htail hnever.2 hclose.2
    by_cases hp : Polling s a = true
    · rw [if_pos hp]
      exact countedOut_polled h.1 htail.first hp hnever.1 hc
    · rw [if_neg hp]
      exact countedOut_kept h.1 htail.first (by simpa using hp) hclose.1 hc

/-- Every pass sorts the whole list. A waiter that no pass finds ready and no `Tcp_close` takes is
on the list for as many passes as its limit says, and is given up in the next. -/
theorem poll_partition (X : Externals W) :
    (∀ (b : Book) (world : W),
      Partition b (b.outcomes X world) (checkIoCompletions X b world).1) ∧
    ∀ (world : W) (pre xs : List (Act × State W)) (w : IoWaiter),
      Lts.Run (Step X) (State.initial world) (pre ++ xs) →
      w ∈ (Lts.last (State.initial world) pre).book.ioWaiters →
      Lts.Run (NeverReady X w.k) (Lts.last (State.initial world) pre) xs →
      Lts.Run (Unclosed w.k) (Lts.last (State.initial world) pre) xs →
      CountedOut w (Lts.count Polling (Lts.last (State.initial world) pre) xs)
        (Lts.last (Lts.last (State.initial world) pre) xs) := by
  refine ⟨checkIoCompletions_partition X, ?_⟩
  intro world pre xs w h hw hnever hclose
  obtain ⟨hpre, hxs⟩ := Lts.run_append.mp h
  have hb := (run_balanced hpre).last
  have hall := hxs.always (p := fun u => Balanced u.book) hb
    fun u a v hu hstep L => L.total_le_due_step hstep (hu L)
  have hle := (counted_rounds hpre w hw).2.1
  have hrun := countedOut_run (n := 0) hxs hall hnever hclose (.stays hb hle hw)
  rwa [Nat.zero_add] at hrun

/-- The main fiber reads from a socket that never has anything. -/
def readsIdle : List (Act × State Unit) :=
  Lts.trace (next quiet) (State.initial ()) [.switchRun, .go, .perform (.net (.tcpRead 0))]

/-- Three rounds, after the step that leaves the handler. -/
def idleRounds : List (Act × State Unit) :=
  Lts.trace (next quiet) (Lts.last (State.initial ()) readsIdle) [.go, .go, .go, .go]

theorem poll_partition_idle : CountedOut ⟨0, .read, 0, 1000, .main 0, 0⟩ 3
    (Lts.last (Lts.last (State.initial ()) readsIdle) idleRounds) := by
  have htest : Lts.Run (fun s a t => (a = .go ∧ (s.book.outcomes quiet s.world).all (!·.2) = true) ∧
      t = next quiet s a) (Lts.last (State.initial ()) readsIdle) idleRounds := by
    refine (Lts.run_accepts (fun s a => a = .go ∧ (s.book.outcomes quiet s.world).all (!·.2) = true)
      (by decide)).imp fun s a t h => ⟨of_decide_eq_true h.1, h.2⟩
  have hnever : Lts.Run (NeverReady quiet 0) (Lts.last (State.initial ()) readsIdle) idleRounds := by
    refine htest.imp ?_
    rintro s a t ⟨⟨-, hall⟩, -⟩ - o ho -
    simpa using List.all_eq_true.mp hall o ho
  have hclose : Lts.Run (Unclosed 0) (Lts.last (State.initial ()) readsIdle) idleRounds := by
    refine htest.imp ?_
    rintro s a t ⟨⟨rfl, -⟩, -⟩ sock hsock
    cases hsock
  have hcount : Lts.count Polling (Lts.last (State.initial ()) readsIdle) idleRounds = 3 := by decide
  rw [← hcount]
  refine (poll_partition quiet).2 () readsIdle idleRounds _ ?_ (by decide) hnever hclose
  exact Lts.run_append.mpr ⟨Lts.run_accepts Enabled (by decide), Lts.run_accepts Enabled (by decide)⟩

end PicoOcaml.Pio
