import PicoOcaml.Pio.Network
import PicoOcaml.Pio.Agreement
import PicoOcaml.Pio.OneShot

/-! Which reads are woken when data has come. -/
namespace PicoOcaml.Pio

open NetStubs

/-! ### Where a read timeout comes from -/

/-- The closures of the waiter of `k` that have been queued, and the waiter itself. -/
def Ledger.arrivals (k : ℕ) : Ledger where
  k := k
  queued _ := 0
  event
    | .enqueued t => if t.closure k then 1 else 0
    | _ => 0
  grant
    | .net _ => 1
    | _ => 0
  starts t h := by cases t <;> simp_all [Task.starts, Task.closure]
  awaited p a := rfl
  settled p := rfl
  ended body a := rfl
  await p h j := by simp [Task.closure]
  yield h j := by simp [Task.closure]
  wait op sock h j e _ := by simp [Task.closure]
  timeout op sock h j := rfl
  resume h j a := rfl
  woken p h j a := rfl
  stillPending p h j := rfl
  ready op sock h j a := rfl
  expired op sock h j a := rfl

theorem Ledger.arrivals_grant_le (k : ℕ) (e : Eff) : (arrivals k).grant e ≤ 1 := by
  cases e <;> simp [arrivals]

theorem eq_of_countP_le_one {α : Type*} {f : α → Bool} {l : List α} (h : l.countP f ≤ 1) {x y : α}
    (hx : x ∈ l) (hy : y ∈ l) (hfx : f x = true) (hfy : f y = true) : x = y := by
  have hxf : x ∈ l.filter f := List.mem_filter.mpr ⟨hx, hfx⟩
  have hyf : y ∈ l.filter f := List.mem_filter.mpr ⟨hy, hfy⟩
  rw [List.countP_eq_length_filter] at h
  obtain ⟨z, hz⟩ : ∃ z, l.filter f = [z] :=
    List.length_eq_one_iff.mp (Nat.le_antisymm h (List.length_pos_of_mem hxf))
  rw [hz, List.mem_singleton] at hxf hyf
  exact hxf.trans hyf.symm

/-- The event is the queueing of a closure of the waiter of `k`. -/
def Event.queuesClosure (k : ℕ) : Event → Bool
  | .enqueued t => t.closure k
  | _ => false

/-- One closure of a waiter is queued, once. -/
theorem Balanced.closure_unique {b : Book} (h : Balanced b) {k : ℕ} {t u : Task}
    (ht : .enqueued t ∈ b.log) (hu : .enqueued u ∈ b.log) (htk : t.closure k = true)
    (huk : u.closure k = true) : t = u := by
  have hcount : b.log.countP (Event.queuesClosure k) ≤ 1 := by
    refine Ledger.count_le_one (Ledger.arrivals_grant_le k) ?_ (h (Ledger.arrivals k))
    intro e he
    cases e <;> simp_all [Event.queuesClosure, Ledger.arrivals]
  have heq := eq_of_countP_le_one hcount ht hu htk huk
  cases heq
  rfl

/-- The timeout of a waiter has been queued, or `k` awaits a promise. -/
def Expired (b : Book) (k : ℕ) : Prop :=
  (∃ op sock h, .enqueued (.onTimeout op sock h k) ∈ b.log) ∨
    ∃ p h, b.konts[k]? = some (.await p, h)

/-- Tasks have been queued before they run, and a read timeout for a reason. -/
structure Traced (b : Book) : Prop where
  queue : ∀ t ∈ b.runQueue, .enqueued t ∈ b.log
  ran : ∀ t, .ran t ∈ b.log → .enqueued t ∈ b.log
  timeout : ∀ h k, .enqueued (.resume h k readTimeout) ∈ b.log → Expired b k

variable {b b' : Book}

theorem traced_empty : Traced .empty :=
  ⟨by simp [Book.empty], by simp [Book.empty], by simp [Book.empty]⟩

theorem Expired.mono {k : ℕ} (h : Expired b k) (he : Extends b b') : Expired b' k := by
  rcases h with ⟨op, sock, hd, hlog⟩ | ⟨p, hd, hk⟩
  · exact .inl ⟨op, sock, hd, he.log hlog⟩
  · exact .inr ⟨p, hd, he.konts hk⟩

/-- Promises, waiters and continuations change, and nothing else. -/
theorem Traced.keep (h : Traced b) (he : Extends b b') (hq : b'.runQueue = b.runQueue)
    (hlog : b'.log = b.log) : Traced b' := by
  refine ⟨?_, ?_, ?_⟩
  · intro t ht
    rw [hlog]
    exact h.queue t (hq ▸ ht)
  · rw [hlog]
    exact h.ran
  · intro hd k hmem
    exact (h.timeout hd k (hlog ▸ hmem)).mono he

theorem Traced.enqueueAll (h : Traced b) {ts : List Task}
    (ht : ∀ hd k, .resume hd k readTimeout ∈ ts → Expired b k) : Traced (b.enqueueAll ts) := by
  have he : Extends b (b.enqueueAll ts) := ⟨id, id, List.mem_append_left _, Nat.le_refl _⟩
  refine ⟨?_, ?_, ?_⟩
  · intro t hmem
    rcases List.mem_append.mp hmem with hmem | hmem
    · exact he.log (h.queue t hmem)
    · exact List.mem_append_right _ (List.mem_map_of_mem hmem)
  · intro t hmem
    rcases List.mem_append.mp hmem with hmem | hmem
    · exact he.log (h.ran t hmem)
    · simp at hmem
  · intro hd k hmem
    rcases List.mem_append.mp hmem with hmem | hmem
    · exact (h.timeout hd k hmem).mono he
    · exact (ht hd k (by simpa using hmem)).mono he

theorem Traced.enqueue (h : Traced b) {t : Task}
    (ht : ∀ hd k, t = .resume hd k readTimeout → Expired b k) : Traced (b.enqueue t) := by
  apply h.enqueueAll
  intro hd k hmem
  exact ht hd k (List.mem_singleton.mp hmem).symm

theorem Traced.note (h : Traced b) {e : Event} (he : ∀ t, e ≠ .enqueued t)
    (hr : ∀ t, e = .ran t → .enqueued t ∈ b.log) : Traced (b.note e) := by
  have hext : Extends b (b.note e) := ⟨id, id, List.mem_append_left _, Nat.le_refl _⟩
  refine ⟨fun t hmem => hext.log (h.queue t hmem), ?_, ?_⟩
  · intro t hmem
    rcases List.mem_append.mp hmem with hmem | hmem
    · exact hext.log (h.ran t hmem)
    · exact hext.log (hr t (List.mem_singleton.mp hmem).symm)
  · intro hd k hmem
    rcases List.mem_append.mp hmem with hmem | hmem
    · exact (h.timeout hd k hmem).mono hext
    · exact absurd (List.mem_singleton.mp hmem).symm (he _)

theorem Traced.take (h : Traced b) {t : Task} {q : List Task} (hq : b.runQueue = t :: q) :
    Traced (b.take t q) := by
  have hb : Traced { b with runQueue := q } :=
    ⟨fun u hu => h.queue u (by simp [hq, hu]), h.ran, h.timeout⟩
  refine hb.note nofun ?_
  rintro u ⟨⟩
  exact h.queue t (by simp [hq])

theorem Traced.settle (h : Traced b) (ha : Agreed b) (p : ℕ) (o : PromiseState) :
    Traced (b.settle p o) := by
  simp only [Book.settle]
  split
  · rename_i ws hp
    have hset : Traced { b with promises := b.promises.set p o } :=
      h.keep (extends_set hp o) rfl rfl
    apply hset.enqueueAll
    intro hd k hmem
    obtain ⟨hd', k', heq, -⟩ := ha.pending hp _ hmem
    cases heq
  · exact h

theorem Polled.not_resume {ws kept : List IoWaiter} {ts : List Task} (h : Polled ws kept ts) :
    ∀ hd k a, .resume hd k a ∉ ts := by
  intro hd k a
  induction h with
  | nil => exact List.not_mem_nil
  | ready w _ ih => exact List.not_mem_cons_of_ne_of_not_mem nofun ih
  | expired w _ _ ih => exact List.not_mem_cons_of_ne_of_not_mem nofun ih
  | waits w _ _ ih => exact ih

theorem Quiet.traced (hm : Quiet b b') (ha : Agreed b) (h : Traced b) : Traced b' := by
  cases hm with
  | create => exact h.keep extends_create rfl rfl
  | @settle p o a ho =>
    have hn : Traced (b.note (.settled p)) := h.note nofun nofun
    have hb : Agreed (b.note (.settled p)) := ha.note trivial
    exact hn.settle hb p o
  | @poll kept ts hp =>
    have hw : Traced { b with ioWaiters := kept.reverse } :=
      h.keep ⟨id, id, id, Nat.le_refl _⟩ rfl rfl
    apply hw.enqueueAll
    intro hd k hmem
    exact absurd (List.mem_reverse.mp hmem) (hp.not_resume hd k _)
  | @waker p k hd a q hq ho =>
    apply (h.take hq).enqueue
    rintro hd' k' heq
    cases heq
    -- the waker of an await
    obtain ⟨hk, -⟩ := ha.queued (.waker p hd k) (by simp [hq])
    exact .inr ⟨p, hd, hk⟩
  | wake hq hne =>
    apply (h.take hq).enqueue
    rintro hd' k' heq
    cases heq
    exact absurd rfl hne
  | @onTimeout op sock hd k a q hq =>
    apply (h.take hq).enqueue
    rintro hd' k' heq
    cases heq
    have hlog : .enqueued (.onTimeout op sock hd k) ∈ b.log := h.queue _ (by simp [hq])
    exact .inl ⟨op, sock, hd, List.mem_append_left _ hlog⟩
  | awaited ho => exact h.note nofun nofun

theorem Capture.traced {eff : Eff} {hd : Handler} (hm : Capture hd b eff b') (h : Traced b) :
    Traced b' := by
  have hc : Traced (b.capture eff hd) := h.keep (extends_capture eff hd) rfl rfl
  cases hm with
  | @await p ho hlt =>
    have he := extends_addWaiter (b := b.capture (.await p) hd) p (.waker p hd b.konts.length)
    simp only [Book.addWaiter] at he ⊢
    split at he
    · exact hc.keep he rfl rfl
    · apply hc.enqueue
      rintro hd' k' ⟨⟩
  | yield =>
    apply hc.enqueue
    intro hd' k' heq
    cases heq
  | wait he => exact hc.keep ⟨id, id, id, Nat.le_refl _⟩ rfl rfl

theorem Move.traced (hm : Move b b') (ha : Agreed b) (h : Traced b) : Traced b' := by
  cases hm with
  | quiet hm => exact hm.traced ha h
  | capture hm => exact hm.traced h
  | settle p ho => exact h.settle ha p _
  | start ht =>
    apply h.enqueue
    rintro hd k rfl
    cases ht
  | run hq ht => exact h.take hq
  | resume hq => exact h.take hq
  | stillPending hq ho => exact (h.take hq).note nofun nofun
  | ended body a => exact h.note nofun nofun

/-! ### One pass over the waiting list -/

/-- A read with `max_len` 0 tells that the waiter is ready. -/
def readable (s : Stubs) (w : IoWaiter) : Bool :=
  !badId (stubId w.sockId) && (s.sock (stubId w.sockId)).proto = .tcp &&
    (s.sock (stubId w.sockId)).state = .closed

theorem readable_congr {s s' : Stubs} (h : s'.sockets = s.sockets) (w : IoWaiter) :
    readable s' w = readable s w := by
  unfold readable Stubs.sock
  rw [h]

theorem isReady_read {w : IoWaiter} (hw : w.operation = .read) (world : Network) :
    isReady network w world = (readable world.stubs w, world.advance world.stubs) := by
  simp only [isReady, hw, tcpReadRaw_zero, readable]
  by_cases hid : badId (stubId w.sockId)
  · simp [hid]
  · by_cases hp : (world.stubs.sock (stubId w.sockId)).proto = .tcp
    · by_cases hc : (world.stubs.sock (stubId w.sockId)).state = .closed
      · simp [hid, hp, hc]
      · simp [hid, hp, hc]
    · simp [hid, hp]

theorem picoTcpWrite_sockets (s : Stubs) (id : ℤ) (data : Bytes) (len : ℕ) (err : ℤ) :
    (picoTcpWrite s id data len err).2.sockets = s.sockets := by
  simp only [picoTcpWrite]
  repeat' split
  all_goals rfl

/-- A poll leaves the sockets alone. -/
theorem isReady_sockets (w : IoWaiter) (world : Network) :
    (isReady network w world).2.stubs.sockets = world.stubs.sockets := by
  cases hop : w.operation with
  | connect =>
    simp only [isReady, hop, network, Network.answer, Network.advance, ocamlTcpWrite]
    exact picoTcpWrite_sockets ..
  | read => rw [isReady_read hop]; rfl

theorem processWaiter_sockets (acc : (List IoWaiter × List Task) × Network) (w : IoWaiter) :
    (processWaiter network acc w).2.stubs.sockets = acc.2.stubs.sockets := by
  have h := isReady_sockets w acc.2
  simp only [processWaiter]
  split <;> exact h

/-- The pass queues the `wake` of a read when its waiter is ready. -/
theorem mem_processWaiter {acc : (List IoWaiter × List Task) × Network} {w : IoWaiter} {sock : ℤ}
    {hd : Handler} {k : ℕ} : .wake .read sock hd k ∈ (processWaiter network acc w).1.2 ↔
      .wake .read sock hd k ∈ acc.1.2 ∨
        (w.wake = .wake .read sock hd k ∧ readable acc.2.stubs w = true) := by
  have hready : w.wake = .wake .read sock hd k →
      (isReady network w acc.2).1 = readable acc.2.stubs w := by
    intro hw
    have hop : w.operation = .read := by
      injection hw
    rw [isReady_read hop]
  simp only [processWaiter]
  split
  · rename_i hr
    rw [List.mem_cons]
    constructor
    · rintro (heq | hmem)
      · exact .inr ⟨heq.symm, hready heq.symm ▸ hr⟩
      · exact .inl hmem
    · rintro (hmem | ⟨hw, -⟩)
      · exact .inr hmem
      · exact .inl hw.symm
  · rename_i hr ht
    rw [List.mem_cons]
    constructor
    · rintro (heq | hmem)
      · cases heq
      · exact .inl hmem
    · rintro (hmem | ⟨hw, hread⟩)
      · exact .inr hmem
      · rw [← hready hw, hr] at hread
        cases hread
  · rename_i hr ht
    constructor
    · exact .inl
    · rintro (hmem | ⟨hw, hread⟩)
      · exact hmem
      · rw [← hready hw, hr] at hread
        cases hread

theorem mem_foldl_processWaiter (ws : List IoWaiter)
    (acc : (List IoWaiter × List Task) × Network) (sock : ℤ) (hd : Handler) (k : ℕ) :
    .wake .read sock hd k ∈ (ws.foldl (processWaiter network) acc).1.2 ↔
      .wake .read sock hd k ∈ acc.1.2 ∨
        ∃ w ∈ ws, w.wake = .wake .read sock hd k ∧ readable acc.2.stubs w = true := by
  induction ws generalizing acc with
  | nil => simp
  | cons w ws ih =>
    have hread : ∀ v, readable (processWaiter network acc w).2.stubs v =
        readable acc.2.stubs v := readable_congr (processWaiter_sockets acc w)
    rw [List.foldl_cons, ih, mem_processWaiter]
    simp only [hread, List.mem_cons, exists_eq_or_imp, or_assoc]

theorem mem_checkIoCompletions {b : Book} {world : Network} {sock : ℤ} {hd : Handler} {k : ℕ} :
    .wake .read sock hd k ∈ (checkIoCompletions network b world).1.runQueue ↔
      .wake .read sock hd k ∈ b.runQueue ∨ ∃ w ∈ b.ioWaiters, w.wake = .wake .read sock hd k ∧
        readable (serviceNetwork network world).stubs w = true := by
  have hfold := mem_foldl_processWaiter b.ioWaiters (([], []), serviceNetwork network world)
    sock hd k
  simp only [List.not_mem_nil, false_or] at hfold
  rw [← hfold]
  exact List.mem_append

/-! ### Runs -/

/-- The waiter is for data, on a socket that is open and has some in its buffer. -/
def IoWaiter.hasData (s : Stubs) (w : IoWaiter) : Bool :=
  w.operation = .read && !badId (stubId w.sockId) && (s.sock (stubId w.sockId)).proto = .tcp &&
    (s.sock (stubId w.sockId)).pcb.isSome && 0 < (s.sock (stubId w.sockId)).recvLen

/-- The peer has closed the connection. -/
def IoWaiter.peerClosed (s : Stubs) (w : IoWaiter) : Bool :=
  (s.sock (stubId w.sockId)).state = .closed

theorem readable_of_hasData {s : Stubs} {w : IoWaiter} (h : w.hasData s = true) :
    w.operation = .read ∧ readable s w = w.peerClosed s := by
  simp only [IoWaiter.hasData, Bool.and_eq_true, decide_eq_true_eq] at h
  obtain ⟨⟨⟨⟨hop, hid⟩, hp⟩, -⟩, -⟩ := h
  refine ⟨hop, ?_⟩
  simp [readable, IoWaiter.peerClosed, hid, hp]

/-- A loop is about to look at the queue. -/
def State.polling {W : Type*} (s : State W) : Bool :=
  match s.mode, s.stack with
  | .run, f :: _ => f.loop
  | _, _ => false

/-- The stubs as a pass over the waiting list finds them. -/
def State.polled (s : State Network) : Stubs := (serviceNetwork network s.world).stubs

/-- The step polls the waiter, and finds data in the buffer of its open socket. -/
def PollsReader (s : State Network) (a : Act) (w : IoWaiter) : Prop :=
  a = .go ∧ s.polling = true ∧ w ∈ s.book.ioWaiters ∧ w.hasData s.polled = true

/-- Every reader that is polled with data has its `wake` queued in that pass. -/
def WakesReaders (s : State Network) (a : Act) : Prop :=
  ∀ w, PollsReader s a w → w.wake ∈ (s.pass network).book.runQueue

/-- Every reader that is polled with data has lost its peer. -/
def ReadersClosed (s : State Network) (a : Act) : Prop :=
  ∀ w, PollsReader s a w → w.peerClosed s.polled = true

/-- No reader that has once been polled with data is resumed with the read timeout. -/
def NeverTimesOut (s : State Network) (xs : List (Act × State Network)) : Prop :=
  ∀ pre a t post, xs = pre ++ (a, t) :: post → ∀ w, PollsReader (Lts.last s pre) a w →
    ∀ h, .ran (.resume h w.k readTimeout) ∉ (Lts.last t post).book.log

theorem polling_looping {W : Type*} {s : State W} (h : s.polling = true) :
    ∃ f rest, s.Looping f rest := by
  simp only [State.polling] at h
  split at h
  · rename_i f rest hm hst
    exact ⟨f, rest, hm, hst, h⟩
  · cases h

variable {s t : State Network} {a : Act} {xs : List (Act × State Network)}

/-- A reader that is polled with data is woken in that pass when its peer has closed, and only
then. -/
theorem wake_queued_iff (hb : Balanced s.book) {w : IoWaiter} (hw : PollsReader s a w) :
    w.wake ∈ (s.pass network).book.runQueue ↔ w.peerClosed s.polled = true := by
  obtain ⟨-, -, hmem, hdata⟩ := hw
  obtain ⟨hop, hread⟩ := readable_of_hasData hdata
  have hwake : w.wake = .wake .read w.sockId w.handler w.k := by rw [IoWaiter.wake, hop]
  rw [hwake]
  simp only [State.pass, mem_checkIoCompletions]
  constructor
  · rintro (hq | ⟨v, hv, hvw, hvr⟩)
    · -- its `wake` is not in the queue while it waits
      exact absurd rfl (hb.not_queued hmem hq)
    · have hsock : v.sockId = w.sockId := by
        rw [IoWaiter.wake] at hvw
        injection hvw
      have hsame : readable s.polled w = readable s.polled v := by
        simp only [readable, hsock]
      rw [← hread, hsame]
      exact hvr
  · intro hc
    exact .inr ⟨w, hmem, hwake, hread.trans hc⟩

theorem Moves.traced {b b' : Book} (hm : Moves b b') (ha : Agreed b) (h : Traced b) :
    Agreed b' ∧ Traced b' :=
  hm.keeps (p := fun b => Agreed b ∧ Traced b)
    (fun _ _ hb hm => ⟨hm.agreed hb.1, hm.traced hb.1 hb.2⟩) ⟨ha, h⟩

theorem Moves.extends {b b' : Book} (hm : Moves b b') : Extends b b' :=
  hm.keeps (p := Extends b) (fun _ _ hb hm => hb.trans hm.extends) (.refl b)

/-- What the pass of a step has queued is in the history after the step. -/
theorem wake_logged (h : Step network s a t) {w : IoWaiter} (hw : PollsReader s a w)
    (ha : Agreed s.book) (htr : Traced s.book)
    (hq : w.wake ∈ (s.pass network).book.runQueue) : .enqueued w.wake ∈ t.book.log := by
  obtain ⟨rfl, hp, -, -⟩ := hw
  obtain ⟨f, rest, hs⟩ := polling_looping hp
  have hpass : Traced (s.pass network).book := (pass_moves.traced ha htr).2
  have hgo : t = go network s := h.2
  have hext : Extends (s.pass network).book t.book := hgo ▸ (looping_moves hs).extends
  exact hext.log (hpass.queue _ hq)

theorem step_traced (h : Step network s a t) (ha : Agreed s.book) (htr : Traced s.book) :
    Agreed t.book ∧ Traced t.book :=
  step_keeps (p := fun b => Agreed b ∧ Traced b) h
    (fun _ _ hb hm => ⟨hm.agreed hb.1, hm.traced hb.1 hb.2⟩)
    (fun _ sock hb => ⟨hb.1.drop sock, hb.2.keep ⟨id, id, id, Nat.le_refl _⟩ rfl rfl⟩) ⟨ha, htr⟩

/-- What the runs of the scheduler keep, as far as the readers are concerned. -/
structure ReadInv (s : State Network) : Prop where
  balanced : Balanced s.book
  agreed : Agreed s.book
  traced : Traced s.book

theorem run_readInv {world : Network} (h : Lts.Run (Step network) (State.initial world) xs) :
    Lts.Always ReadInv (State.initial world) xs := by
  refine h.always ⟨?_, agreed_empty, traced_empty⟩ ?_
  · exact fun L => Nat.le_of_eq (L.total_initial world)
  · intro u a v hu hstep
    obtain ⟨hagreed, htraced⟩ := step_traced hstep hu.agreed hu.traced
    exact ⟨fun L => L.total_le_due_step hstep (hu.balanced L), hagreed, htraced⟩

theorem run_extends (h : Lts.Run (Step network) s xs) : Extends s.book (Lts.last s xs).book := by
  have hall : Lts.Always (fun u => Extends s.book u.book) s xs :=
    h.always (.refl _) fun _ _ _ hu hstep => hu.trans (step_extends hstep)
  exact hall.last

/-- Once the `wake` of a waiter has been queued, its timeout never is. -/
theorem ReadInv.not_timed_out (hi : ReadInv t) {w : IoWaiter} {e : NetEff} {hd : Handler}
    (hk : t.book.konts[w.k]? = some (.net e, hd)) (hlog : .enqueued w.wake ∈ t.book.log)
    (h : Handler) : .ran (.resume h w.k readTimeout) ∉ t.book.log := by
  intro hran
  have hqueued := hi.traced.ran _ hran
  rcases hi.traced.timeout h w.k hqueued with ⟨op, sock, hd', ht⟩ | ⟨p, hd', hk'⟩
  · have heq := hi.balanced.closure_unique hlog ht (k := w.k) (by simp [IoWaiter.wake, Task.closure])
      (by simp [Task.closure])
    cases heq
  · rw [hk] at hk'
    cases hk'

theorem never_times_out {world : Network} (h : Lts.Run (Step network) (State.initial world) xs)
    (hw : Lts.Run (fun s a _ => WakesReaders s a) (State.initial world) xs) :
    NeverTimesOut (State.initial world) xs := by
  rintro pre a t post rfl w hpoll hd
  obtain ⟨hpre, hstep, hpost⟩ := Lts.run_append.mp h
  have hwake := (Lts.run_append.mp hw).2.1 w hpoll
  have hi := (run_readInv hpre).last
  have hlast := (run_readInv h).last
  rw [Lts.last_append, Lts.last_cons] at hlast
  have hext : Extends t.book (Lts.last t post).book := run_extends hpost
  obtain ⟨e, hk, -⟩ := hi.agreed.waiting w hpoll.2.2.1
  have hk' := hext.konts ((step_extends hstep).konts hk)
  exact hlast.not_timed_out hk' (hext.log (wake_logged hstep hpoll hi.agreed hi.traced hwake)) hd

/-- In a run every reader that is polled with data is woken, and so never times out, when each
such reader has lost its peer, and only then. -/
theorem readers_woken_iff {world : Network}
    (h : Lts.Run (Step network) (State.initial world) xs) :
    (Lts.Run (fun s a _ => WakesReaders s a) (State.initial world) xs ∧
      NeverTimesOut (State.initial world) xs) ↔
    Lts.Run (fun s a _ => ReadersClosed s a) (State.initial world) xs := by
  have hinv := run_readInv h
  constructor
  · rintro ⟨hw, -⟩
    refine hw.under hinv ?_
    intro u a v hu _ hwakes w hpoll
    exact (wake_queued_iff hu.balanced hpoll).mp (hwakes w hpoll)
  · intro hc
    have hw : Lts.Run (fun s a _ => WakesReaders s a) (State.initial world) xs := by
      refine hc.under hinv ?_
      intro u a v hu _ hclosed w hpoll
      exact (wake_queued_iff hu.balanced hpoll).mpr (hclosed w hpoll)
    exact ⟨hw, never_times_out h hw⟩

/-- The connection is made at once, and data comes after the first read attempt. -/
def lateData (n : ℕ) : Turn where
  callbacks :=
    if n < 5 then [] else if n < 15 then [.tcpConnected 0 0] else [.tcpRecv 0 0 (some [42]) 0]
  mallocOk := true
  newOk := true
  pbufOk := true
  err := 0
  ip := 0
  dns := .failed
  parsed := some 0x0100000a

/-- A fiber connects and reads, and the scheduler polls it. -/
def readBeforeData : List Act :=
  [.switchRun, .go, .perform (.fork 0), .go, .ret .unit, .go, .go, .go,
    .perform (.net (.tcpConnect "10.0.0.1" 80)), .go, .go, .go, .perform (.net (.tcpRead 0)), .go]

theorem readers_woken_iff_late :
    (Lts.Run (fun s a _ => WakesReaders s a) (State.initial (Network.initial lateData))
      (Lts.trace (next network) (State.initial (Network.initial lateData)) readBeforeData) ∧
      NeverTimesOut (State.initial (Network.initial lateData))
        (Lts.trace (next network) (State.initial (Network.initial lateData)) readBeforeData)) ↔
    Lts.Run (fun s a _ => ReadersClosed s a) (State.initial (Network.initial lateData))
      (Lts.trace (next network) (State.initial (Network.initial lateData)) readBeforeData) :=
  readers_woken_iff (Lts.run_accepts Enabled (by decide))

/-- The pass finds a byte in the buffer of an open socket and leaves its reader waiting. -/
theorem reader_not_woken : ∃ xs,
    Lts.Run (Step network) (State.initial (Network.initial lateData)) xs ∧
    ¬ Lts.Run (fun s a _ => WakesReaders s a) (State.initial (Network.initial lateData)) xs := by
  refine ⟨Lts.trace (next network) (State.initial (Network.initial lateData)) readBeforeData,
    Lts.run_accepts Enabled (by decide), ?_⟩
  intro hrun
  have hsplit : readBeforeData = readBeforeData.dropLast ++ [.go] := rfl
  rw [hsplit, Lts.trace_append, Lts.run_append, Lts.last_trace] at hrun
  have hwake := hrun.2.1 ⟨0, .read, 0, 1000, .fiber 0, 1⟩
    ⟨rfl, by decide, by decide, by decide⟩
  exact absurd hwake (by decide)

end PicoOcaml.Pio
