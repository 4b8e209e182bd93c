import PicoOcaml.Pio.Origins
import PicoOcaml.Pio.OwnSlot

/-! What a connect that fails leaves behind. -/
namespace PicoOcaml.Pio

open NetStubs

/-! ### The effect -/

/-- The create of the connect finds a slot, memory and a pcb. -/
def Created (w : Chronicle) : Prop :=
  firstClosed w.net.stubs ≠ none ∧ w.net.turn.mallocOk = true ∧ w.net.turn.newOk = true

/-- Between the two worlds, the slot that the connect took has been freed, the buffer that it
allocated freed once, and the pcb that it created closed once, unless lwIP has released it. The other
slots and blocks are as before. -/
structure NoResidue (w w' : Chronicle) : Prop where
  others : ∀ n, firstClosed w.net.stubs ≠ some n →
    w'.net.stubs.sockets n = w.net.stubs.sockets n
  heap : ∀ a ≠ w.net.stubs.heapNext, w'.net.stubs.heap a = w.net.stubs.heap a
  fault : w'.net.stubs.fault = w.net.stubs.fault
  slot : ∀ n, firstClosed w.net.stubs = some n → (w'.net.stubs.sockets n).state = .closed ∧
    (w'.net.stubs.sockets n).recvBuf = none ∧ (w'.net.stubs.sockets n).pcb = none
  buffer : firstClosed w.net.stubs ≠ none → w.net.turn.mallocOk = true →
    w'.net.stubs.heap w.net.stubs.heapNext = none
  pcb : ∃ more, w'.net.stubs.lwip = w.net.stubs.lwip ++ more ∧
    ((¬ Created w ∧ closes more = []) ∨
      ∃ n : ℕ, firstClosed w.net.stubs = some n ∧ Created w ∧
        ((Errored n (w.since w') ∧ closes more = []) ∨
          (¬ Errored n (w.since w') ∧ closes more = [w.net.stubs.pcbNext])))

/-- From `w` to `w'` nothing has been worked on or called back but the socket of the connect that
`w` begins with the creation of. -/
def OnlyThis (w w' : Chronicle) : Prop := ∀ n : ℕ, firstClosed w.net.stubs = some n →
  Undisturbed n w.net.stubs.netInitialized (w.since w').tail

variable {w w' : Chronicle} {n : ℕ} {past : List Happening}

theorem tcpCreateRaw_created (h : Created w) (hn : firstClosed w.net.stubs = some n) :
    (chronicled.tcpCreateRaw w).1 = n ∧ stubId n = n ∧
      Tended w.net.stubs n [] (chronicled.tcpCreateRaw w).2.net.stubs := by
  have hid : ∀ k < maxSockets, ocamlInt (valInt (BitVec.ofInt 32 (k : ℤ))) = k ∧ stubId k = k := by
    decide
  obtain ⟨hr, ht⟩ := tended_create hn
  obtain ⟨hval, hstub⟩ := hid n (List.mem_range.mp (List.mem_of_find?_eq_some hn))
  simp only [chronicled, Chronicle.answer, Chronicle.keep, network, Network.answer, Network.advance,
    ocamlTcpCreate, h.2.1, h.2.2]
  rw [hr]
  exact ⟨hval, hstub, ht⟩

theorem tcpCreateRaw_not_created (h : ¬ Created w) :
    (chronicled.tcpCreateRaw w).1 < 0 ∧ NoResidue w (chronicled.tcpCreateRaw w).2 := by
  have hfail : ocamlInt (valInt (BitVec.ofInt 32 (-1))) < 0 := by decide
  have hcases : firstClosed w.net.stubs = none ∨ w.net.turn.mallocOk = false ∨
      w.net.turn.newOk = false := by
    by_contra hnot
    push Not at hnot
    exact h ⟨hnot.1, by simpa using hnot.2.1, by simpa using hnot.2.2⟩
  obtain ⟨hundone, hbuffer⟩ := picoTcpCreate_undone hcases
  constructor
  · simp only [chronicled, Chronicle.answer, network, Network.answer, ocamlTcpCreate]
    rw [(picoTcpCreate_failed _ _ _).mpr hcases]
    exact hfail
  · refine ⟨hundone.others, hundone.heap, hundone.fault, hundone.slot, hbuffer, [], ?_, ?_⟩
    · rw [List.append_nil]
      exact hundone.lwip
    · exact Or.inl ⟨h, rfl⟩

/-- A slot that has been tended to its close is no residue. -/
theorem Tended.noResidue (h : Tended w.net.stubs n past w'.net.stubs) (hclosed : Closed past)
    (hc : Created w) (hn : firstClosed w.net.stubs = some n)
    (hsince : w.since w' = .call .tcpCreate :: past) : NoResidue w w' := by
  have hnat : (n : ℤ).toNat = n := Int.toNat_natCast n
  obtain ⟨-, hfreed⟩ := h.slot.resolve_left fun hopen => hopen.1 hclosed
  have hslot : w'.net.stubs.sock n = w'.net.stubs.sockets n := rfl
  have herr : Errored n (w.since w') ↔ Errored n past := by
    simp [hsince, Errored]
  obtain ⟨more, hlwip, hmore⟩ := hfreed.lwip
  refine ⟨?_, h.heap, h.fault, ?_, fun _ _ => hfreed.block, more, hlwip, Or.inr ⟨n, hn, hc, ?_⟩⟩
  · intro m hm
    refine h.others m ?_
    rw [hnat]
    rintro rfl
    exact hm hn
  · intro m hm
    obtain rfl := Option.some.inj (hn.symm.trans hm)
    rw [← hslot]
    exact ⟨hfreed.state, hfreed.buffer, hfreed.pcb⟩
  · rw [herr]
    exact hmore

/-- What follows the create as far as `v` keeps the slot tended. -/
theorem created_tends {base : Stubs} {u v : Chronicle} (h : Chronicle.Tends base n u v)
    (ht : Tended base n [] u.net.stubs) (hlog : u.log = w.log ++ [.call .tcpCreate]) :
    ∃ past, v.log = w.log ++ .call .tcpCreate :: past ∧
      (Undisturbed n base.netInitialized past → Tended base n past v.net.stubs) := by
  obtain ⟨past, hpast, hstep⟩ := h
  refine ⟨past, by rw [hpast, hlog, List.append_assoc, List.singleton_append], ?_⟩
  intro hun
  exact hstep [] ht hun

theorem created_closes {base : Stubs} {u v : Chronicle} (hi : badId n = false)
    (h : Chronicle.Tends base n u v) (ht : Tended base n [] u.net.stubs)
    (hlog : u.log = w.log ++ [.call .tcpCreate]) (sock : ℤ) :
    ∃ past, (chronicled.tcpCloseRaw sock v).log = w.log ++ .call .tcpCreate :: past ∧
      (Undisturbed n base.netInitialized past →
        Tended base n past (chronicled.tcpCloseRaw sock v).net.stubs) ∧ Closed past := by
  obtain ⟨past, hpast, hstep⟩ := created_tends h ht hlog
  obtain ⟨added, hadded, hclose⟩ := Chronicle.tends_tcpCloseRaw base hi sock v
  have hone : [.call (.tcpClose sock)] = added := List.append_cancel_left hadded
  subst hone
  refine ⟨past ++ [.call (.tcpClose sock)], ?_, ?_, ?_⟩
  · rw [hadded, hpast, List.append_assoc, List.cons_append]
  · intro hun
    exact hclose past (hstep hun.left) hun
  · exact closed_append.mpr (Or.inr ⟨sock, List.mem_singleton_self _⟩)

/-- What the effect has done by the time it has an answer or its fiber waits: the create has failed,
or the slot is tended, and closed if there is an answer. -/
theorem connect_cases (h : Handler) (k : ℕ) (ws : List IoWaiter) (host : String) (port : ℤ)
    (w : Chronicle) :
    (¬ Created w ∧ (handleNetEffect chronicled h k ws w (.tcpConnect host port)).reply ≠ none ∧
      (handleNetEffect chronicled h k ws w (.tcpConnect host port)).world =
        (chronicled.tcpCreateRaw w).2) ∨
    ∃ n : ℕ, ∃ past, Created w ∧ firstClosed w.net.stubs = some n ∧
      (handleNetEffect chronicled h k ws w (.tcpConnect host port)).world.log =
        w.log ++ .call .tcpCreate :: past ∧
      (Undisturbed n w.net.stubs.netInitialized past → Tended w.net.stubs n past
        (handleNetEffect chronicled h k ws w (.tcpConnect host port)).world.net.stubs) ∧
      ((Closed past ∧ (handleNetEffect chronicled h k ws w (.tcpConnect host port)).reply ≠ none) ∨
        (handleNetEffect chronicled h k ws w (.tcpConnect host port)).reply = none ∧
          (handleNetEffect chronicled h k ws w (.tcpConnect host port)).ioWaiters =
            ⟨n, .connect, 0, 1000, h, k⟩ :: ws) := by
  by_cases hc : Created w
  · right
    obtain ⟨n, hn⟩ := Option.ne_none_iff_exists'.mp hc.1
    obtain ⟨hid, hstub, ht⟩ := tcpCreateRaw_created hc hn
    have hi := firstClosed_valid hn
    have hpos : ¬ (chronicled.tcpCreateRaw w).1 < 0 := by omega
    have hresolve := Chronicle.tends_resolveHost w.net.stubs hi host
      (chronicled.tcpCreateRaw w).2
    simp only [handleNetEffect, if_neg hpos]
    split
    · obtain ⟨past, hlog, hstep, hclosed⟩ := created_closes hi hresolve ht rfl
        (chronicled.tcpCreateRaw w).1
      exact ⟨n, past, hc, hn, hlog, hstep, Or.inl ⟨hclosed, by simp⟩⟩
    · have hconnect := hresolve.trans (Chronicle.tends_tcpConnectRaw hi
        (chronicled.tcpCreateRaw w).1
        (resolveHost chronicled host (chronicled.tcpCreateRaw w).2).1 port _)
      split
      · obtain ⟨past, hlog, hstep, hclosed⟩ := created_closes hi hconnect ht rfl
          (chronicled.tcpCreateRaw w).1
        exact ⟨n, past, hc, hn, hlog, hstep, Or.inl ⟨hclosed, by simp⟩⟩
      · obtain ⟨past, hlog, hstep⟩ := created_tends hconnect ht rfl
        exact ⟨n, past, hc, hn, hlog, hstep, Or.inr ⟨rfl, by rw [hid]⟩⟩
  · left
    obtain ⟨hneg, -⟩ := tcpCreateRaw_not_created hc
    simp only [handleNetEffect, if_pos hneg]
    exact ⟨hc, by simp, trivial⟩

/-! ### The run up to the exception -/

variable {s t v : State Chronicle} {a : Act} {host : String} {port : ℤ} {k : ℕ} {sock : ℤ}
  {xs mid : List (Act × State Chronicle)}

/-- The run begins with a connect under a handler of `Pio` and ends when the connect raises: at once,
or when its continuation is resumed with an exception. -/
inductive ConnectFails (host : String) (port : ℤ) (s : State Chronicle) :
    List (Act × State Chronicle) → Prop
  | atOnce {t : State Chronicle} {e : Exn} : splitHandler s.stack ≠ none →
      t.mode = .ret (.exn e) → ConnectFails host port s [(.perform (.net (.tcpConnect host port)), t)]
  | later {s' t : State Chronicle} {mid : List (Act × State Chronicle)} {h : Handler} {e : Exn}
      {q : List Task} : splitHandler s.stack ≠ none →
      s.book.konts.length < s'.book.konts.length → (Lts.last s' mid).polling = true →
      ((Lts.last s' mid).pass chronicled).book.runQueue =
        .resume h s.book.konts.length (.exn e) :: q →
      ConnectFails host port s
        ((.perform (.net (.tcpConnect host port)), s') :: (mid ++ [(.go, t)]))

/-- The step that performs the connect. -/
theorem connect_step (hstep : Step chronicled s (.perform (.net (.tcpConnect host port))) t)
    (hs : splitHandler s.stack ≠ none) : ∃ h,
    t.world = (handleNetEffect chronicled h s.book.konts.length s.book.ioWaiters s.world
      (.tcpConnect host port)).world ∧
    t.book.ioWaiters = (handleNetEffect chronicled h s.book.konts.length s.book.ioWaiters s.world
      (.tcpConnect host port)).ioWaiters ∧ t.book.runQueue = s.book.runQueue ∧
    ((∃ a, (handleNetEffect chronicled h s.book.konts.length s.book.ioWaiters s.world
        (.tcpConnect host port)).reply = some a ∧ t.book.konts = s.book.konts) ∨
      (handleNetEffect chronicled h s.book.konts.length s.book.ioWaiters s.world
        (.tcpConnect host port)).reply = none ∧
        t.book.konts = s.book.konts ++ [(.net (.tcpConnect host port), h)] ∧
          ∀ e, t.mode ≠ .ret (.exn e)) := by
  obtain ⟨⟨segment, h, rest⟩, hsplit⟩ := Option.ne_none_iff_exists'.mp hs
  obtain ⟨-, rfl⟩ := hstep
  refine ⟨h, ?_⟩
  simp only [next, perform, hsplit, effc, netEffect_eq]
  cases hr : (handleNetEffect chronicled h s.book.konts.length s.book.ioWaiters s.world
      (.tcpConnect host port)).reply with
  | some a => exact ⟨rfl, rfl, rfl, Or.inl ⟨a, rfl, rfl⟩⟩
  | none =>
    refine ⟨by rw [world_suspend], ?_, ?_, Or.inr ⟨rfl, ?_, ?_⟩⟩
    · rw [State.suspend, State.leave_book]
    · rw [State.suspend, State.leave_book]
      rfl
    · rw [State.suspend, State.leave_book]
      rfl
    · intro e
      cases h <;> simp [State.suspend, State.leave]

/-- A call that no socket on its own makes. -/
def RawCall.Foreign (c : RawCall) : Prop := ∀ i initialized, ¬ c.Own i initialized

/-- While the connect waits as `k` for the socket: who waits and what is queued for it, that it has
an exception only when its socket has been closed, and that others who begin to wait work on
sockets. -/
structure Underway (k : ℕ) (sock : ℤ) (w : Chronicle) (v : State Chronicle) : Prop where
  grows : ∃ added, v.world.log = w.log ++ added
  kont : ∃ e h, v.book.konts[k]? = some (.net e, h)
  waiting : ∀ x ∈ v.book.ioWaiters, x.k = k → x.operation = .connect ∧ x.sockId = sock
  queued : ∀ op sk h, .wake op sk h k ∈ v.book.runQueue ∨ .onTimeout op sk h k ∈ v.book.runQueue →
    op = .connect ∧ sk = sock
  answered : ∀ h e, .resume h k (.exn e) ∈ v.book.runQueue →
    .call (.tcpClose sock) ∈ w.since v.world
  others : (∀ x ∈ v.book.ioWaiters, x.k ≤ k) ∨ ∃ c, c.Foreign ∧ .call c ∈ w.since v.world

theorem since_eq {w w' : Chronicle} {added : List Happening} (h : w'.log = w.log ++ added) :
    w.since w' = added := by
  rw [Chronicle.since, h, List.drop_left]

theorem mem_since {u w w' : Chronicle} {x : Happening} {added more : List Happening}
    (h : w.log = u.log ++ added) (h' : w'.log = w.log ++ more) (hx : x ∈ u.since w ∨ x ∈ more) :
    x ∈ u.since w' := by
  rw [since_eq h] at hx
  rw [since_eq (h'.trans (by rw [h, List.append_assoc]))]
  exact List.mem_append.mpr hx

/-- Whoever begins to wait makes a call on a socket. -/
theorem Registered.foreign {x : IoWaiter} (h : Registered chronicled s t x) : ∃ c added,
    c.Foreign ∧ t.world.log = s.world.log ++ added ∧ .call c ∈ added := by
  have hzero : badId 0 = false := by decide
  obtain ⟨hd, e, hr, hws, hworld⟩ := h
  rcases handleNetEffect_waiters chronicled hd s.book.konts.length s.book.ioWaiters s.world e with
    ⟨ans, hr', -⟩ | ⟨sock, rfl, hr', -⟩ | ⟨sock, op, hread, hconn, -, -⟩
  · cases hr.symm.trans hr'
  · cases hr.symm.trans hr'
  · cases op with
    | read =>
      obtain rfl := hread rfl
      have hlog : t.world.log = (serviceNetwork chronicled s.world).log ++
          [.call (.tcpRead sock 4096)] := by
        rw [hworld]
        simp only [handleNetEffect]
        split
        · rfl
        · split <;> rfl
      obtain ⟨more, hmore, -⟩ := (chronicled_within s.world.net.stubs hzero).serviceNetwork s.world
      refine ⟨.tcpRead sock 4096, more ++ [.call (.tcpRead sock 4096)],
        by simp [RawCall.Foreign, RawCall.Own], ?_,
        List.mem_append_right _ (List.mem_singleton_self _)⟩
      rw [hlog, hmore, List.append_assoc]
    | connect =>
      obtain ⟨host, port, rfl⟩ := hconn rfl
      rcases connect_cases hd s.book.konts.length s.book.ioWaiters host port s.world with
        ⟨-, hnone, -⟩ | ⟨n, past, -, -, hlog, -⟩
      · exact absurd hr hnone
      · refine ⟨.tcpCreate, .call .tcpCreate :: past, by simp [RawCall.Foreign, RawCall.Own], ?_,
          List.mem_cons_self⟩
        rw [hworld, hlog]

/-- A closure for `k` is one of the connect. -/
theorem Underway.closure {w : Chronicle} (h : Underway k sock w v) {op : Operation} {sk : ℤ}
    {hd : Handler} {u : Task} (he : u = .wake op sk hd k ∨ u = .onTimeout op sk hd k)
    (hu : u ∈ v.book.runQueue ∨ ∃ x ∈ v.book.ioWaiters, u = x.wake ∨ u = x.onTimeout) :
    op = .connect ∧ sk = sock := by
  rcases hu with hq | ⟨x, hx, hxu⟩
  · rcases he with rfl | rfl
    · exact h.queued op sk hd (.inl hq)
    · exact h.queued op sk hd (.inr hq)
  · have hwait : x.k = k → x.operation = .connect ∧ x.sockId = sock := h.waiting x hx
    rcases he with rfl | rfl <;> rcases hxu with hxu | hxu
    · simp only [IoWaiter.wake, Task.wake.injEq] at hxu
      obtain ⟨rfl, rfl, -, rfl⟩ := hxu
      exact hwait rfl
    · cases hxu
    · cases hxu
    · simp only [IoWaiter.onTimeout, Task.onTimeout.injEq] at hxu
      obtain ⟨rfl, rfl, -, rfl⟩ := hxu
      exact hwait rfl

theorem Underway.origin {w : Chronicle} (h : Underway k sock w v) {op : Operation} {sk : ℤ}
    {hd : Handler} {u : Task} (he : u = .wake op sk hd k ∨ u = .onTimeout op sk hd k)
    (ho : Origin chronicled v t u) : op = .connect ∧ sk = sock := by
  cases ho with
  | old hq => exact h.closure he (.inl hq)
  | polled hx hxu => exact h.closure he (.inr ⟨_, hx, hxu⟩)
  | starts hs => rcases he with rfl | rfl <;> cases hs
  | _ => rcases he with he | he <;> cases he

/-- An exception for `k` comes from the `on_timeout` of its waiter, which closes the socket. -/
theorem Underway.closes {w : Chronicle} (h : Underway k sock w v) (ha : Agreed v.book)
    {more : List Happening} (hmore : (v.pass chronicled).world.log = v.world.log ++ more) {u : Task}
    {e : Exn} (hu : u ∈ (v.pass chronicled).book.runQueue)
    (hh : Handed chronicled (v.pass chronicled).world t.world k (.exn e) u) :
    .call (.tcpClose sock) ∈ w.since t.world := by
  obtain ⟨added, hadded⟩ := h.grows
  cases hh with
  | waker p hd =>
    exfalso
    obtain ⟨e', hd', hkont⟩ := h.kont
    rcases queue_pass hu with hq | ⟨x, -, hx | hx⟩
    · obtain ⟨hk, -⟩ := ha.queued _ hq
      rw [hkont] at hk
      cases hk
    · cases hx
    · cases hx
  | wake op sk hd hans =>
    exfalso
    obtain ⟨rfl, rfl⟩ := h.closure (.inl rfl) (queue_pass hu)
    rw [Handler.wakeAnswer_eq] at hans
    cases hans
  | onTimeout op sk hd hworld =>
    obtain ⟨rfl, rfl⟩ := h.closure (.inr rfl) (queue_pass hu)
    have hlog : t.world.log = v.world.log ++ (more ++ [.call (.tcpClose sk)]) := by
      rw [hworld, Handler.timeoutAnswer_eq, ← List.append_assoc, ← hmore]
      rfl
    exact mem_since hadded hlog (.inr (List.mem_append_right _ (List.mem_singleton_self _)))

theorem Underway.step {w : Chronicle} (h : Underway k sock w v) (ha : Agreed v.book)
    (hstep : Step chronicled v a t) : Underway k sock w t := by
  have hzero : badId 0 = false := by decide
  obtain ⟨e, hd, hkont⟩ := h.kont
  have hlt : k < v.book.konts.length := (List.getElem?_eq_some_iff.mp hkont).1
  obtain ⟨added, hadded⟩ := h.grows
  obtain ⟨more, hmore, -⟩ := (chronicled_within v.world.net.stubs hzero).step hstep
  have hkeep {x : Happening} (hx : x ∈ w.since v.world) : x ∈ w.since t.world :=
    mem_since hadded hmore (.inl hx)
  refine ⟨⟨added ++ more, by rw [hmore, hadded, List.append_assoc]⟩,
    ⟨e, hd, (step_extends hstep).konts hkont⟩, ?_, ?_, ?_, ?_⟩
  · intro x hx hk
    by_cases hp : Polling v a = true
    · obtain ⟨y, hy, -, rfl⟩ := step_kept hstep hp hx
      exact h.waiting y hy hk
    · rcases step_waiters hstep (by simpa using hp) hx with hx | hreg
      · exact h.waiting x hx hk
      · have hnew := hreg.fresh.1
        omega
  · intro op sk hd' hu
    rcases hu with hu | hu
    · exact h.origin (.inl rfl) (step_origin hstep ha hu)
    · exact h.origin (.inr rfl) (step_origin hstep ha hu)
  · intro hd' e' hu
    cases step_origin hstep ha hu with
    | old hq => exact hkeep (h.answered hd' e' hq)
    | polled hx hxu => rcases hxu with hxu | hxu <;> cases hxu
    | starts hs => cases hs
    | handed hq hh =>
      obtain ⟨more', hmore', -⟩ := (chronicled_within v.world.net.stubs hzero).checkIoCompletions
        v.book v.world
      exact h.closes ha hmore' hq hh
  · rcases h.others with hothers | ⟨c, hc, hmem⟩
    · by_cases hp : Polling v a = true
      · left
        intro x hx
        obtain ⟨y, hy, -, rfl⟩ := step_kept hstep hp hx
        exact hothers y hy
      · by_cases hreg : ∃ x ∈ t.book.ioWaiters, Registered chronicled v t x
        · obtain ⟨x, -, hreg⟩ := hreg
          obtain ⟨c, more', hc, hmore', hmem⟩ := hreg.foreign
          exact .inr ⟨c, hc, mem_since hadded hmore' (.inr hmem)⟩
        · left
          intro x hx
          rcases step_waiters hstep (by simpa using hp) hx with hx' | hr
          · exact hothers x hx'
          · exact absurd ⟨x, hx, hr⟩ hreg
    · exact .inr ⟨c, hc, hkeep hmem⟩

/-- The connect is under way when its fiber has begun to wait. -/
theorem underway_start (sock : ℤ) (ha : Agreed s.book) {hd : Handler} {e : NetEff}
    (hkont : t.book.konts = s.book.konts ++ [(.net e, hd)])
    (hws : t.book.ioWaiters = ⟨sock, .connect, 0, 1000, hd, s.book.konts.length⟩ :: s.book.ioWaiters)
    (hq : t.book.runQueue = s.book.runQueue) :
    Underway s.book.konts.length sock t.world t := by
  have hold : ∀ x ∈ s.book.ioWaiters, x.k < s.book.konts.length := fun x hx =>
    (ha.waiting x hx).captured
  have hnew (u : Task) (hu : u ∈ t.book.runQueue) : u.Sound s.book := ha.queued u (hq ▸ hu)
  refine ⟨⟨[], (List.append_nil _).symm⟩, ⟨e, hd, by simp [hkont]⟩, ?_, ?_, ?_, Or.inl ?_⟩
  · intro x hx hk
    rw [hws] at hx
    rcases List.mem_cons.mp hx with rfl | hx
    · exact ⟨rfl, rfl⟩
    · have hlt := hold x hx
      omega
  · intro op sk hd' hu
    exfalso
    rcases hu with hu | hu
    · obtain ⟨e', hk, -⟩ := hnew _ hu
      exact absurd (List.getElem?_eq_some_iff.mp hk).1 (Nat.lt_irrefl _)
    · obtain ⟨e', hk, -⟩ := hnew _ hu
      exact absurd (List.getElem?_eq_some_iff.mp hk).1 (Nat.lt_irrefl _)
  · intro hd' e' hu
    exfalso
    obtain ⟨eff, hk, -⟩ := hnew _ hu
    exact absurd (List.getElem?_eq_some_iff.mp hk).1 (Nat.lt_irrefl _)
  · intro x hx
    rw [hws] at hx
    rcases List.mem_cons.mp hx with rfl | hx
    · exact Nat.le_refl _
    · exact Nat.le_of_lt (hold x hx)

theorem Underway.run {w : Chronicle} (h : Underway k sock w v) (hrun : Lts.Run (Step chronicled) v xs)
    (ha : Lts.Always (fun u => Agreed u.book) v xs) : Underway k sock w (Lts.last v xs) := by
  induction xs generalizing v with
  | nil => exact h
  | cons x xs ih =>
    obtain ⟨a, t⟩ := x
    obtain ⟨hfirst, hrest⟩ := Lts.always_cons.mp ha
    exact ih (h.step hfirst hrun.1) hrun.2 hrest

/-- An answer at once leaves the waiting list alone. -/
theorem connect_replied {h : Handler} {ws : List IoWaiter} {w : Chronicle} {ans : Answer}
    (hr : (handleNetEffect chronicled h k ws w (.tcpConnect host port)).reply = some ans) :
    (handleNetEffect chronicled h k ws w (.tcpConnect host port)).ioWaiters = ws := by
  rcases handleNetEffect_waiters chronicled h k ws w (.tcpConnect host port) with
    ⟨b, -, hws⟩ | ⟨sk, he, -⟩ | ⟨sk, op, -, -, hnone, -⟩
  · exact hws
  · cases he
  · rw [hr] at hnone
    cases hnone

theorem noResidue_atOnce (ha : Agreed s.book) (hs : splitHandler s.stack ≠ none)
    (hstep : Step chronicled s (.perform (.net (.tcpConnect host port))) t) {e : Exn}
    (hm : t.mode = .ret (.exn e)) (hthis : OnlyThis s.world t.world) :
    NoResidue s.world t.world ∧ ∀ v ∈ t.book.ioWaiters, v.k < s.book.konts.length := by
  obtain ⟨hd, hworld, hws, -, ⟨ans, hr, -⟩ | ⟨-, -, hno⟩⟩ := connect_step hstep hs
  · refine ⟨?_, ?_⟩
    · rcases connect_cases hd s.book.konts.length s.book.ioWaiters host port s.world with
        ⟨hc, -, hcreate⟩ | ⟨n, past, hc, hn, hlog, htended, ⟨hclosed, -⟩ | ⟨hnone, -⟩⟩
      · rw [hworld, hcreate]
        exact (tcpCreateRaw_not_created hc).2
      · rw [← hworld] at hlog htended
        have hsince := since_eq hlog
        have hun := hthis n hn
        rw [hsince] at hun
        exact (htended hun).noResidue hclosed hc hn hsince
      · rw [hr] at hnone
        cases hnone
    · intro v hv
      rw [hws, connect_replied hr] at hv
      exact (ha.waiting v hv).captured
  · exact absurd hm (hno e)

theorem noResidue_later {s' : State Chronicle} (ha : Agreed s.book) (hb : Balanced s.book)
    (hs : splitHandler s.stack ≠ none)
    (hstep : Step chronicled s (.perform (.net (.tcpConnect host port))) s')
    (hlt : s.book.konts.length < s'.book.konts.length)
    (hmid : Lts.Run (Step chronicled) s' mid) (hgo : Step chronicled (Lts.last s' mid) .go t)
    (hpoll : (Lts.last s' mid).polling = true) {hd : Handler} {e : Exn} {q : List Task}
    (hq : ((Lts.last s' mid).pass chronicled).book.runQueue =
      .resume hd s.book.konts.length (.exn e) :: q)
    (hthis : OnlyThis s.world t.world) :
    NoResidue s.world t.world ∧ ∀ v ∈ t.book.ioWaiters, v.k < s.book.konts.length := by
  obtain ⟨hd', hworld, hws, hqueue, ⟨ans, -, hkonts⟩ | ⟨hr, hkonts, -⟩⟩ := connect_step hstep hs
  · rw [hkonts] at hlt
    omega
  rcases connect_cases hd' s.book.konts.length s.book.ioWaiters host port s.world with
    ⟨-, hnone, -⟩ | ⟨n, past, hc, hn, hlog, htended, ⟨-, hnone⟩ | ⟨-, hws'⟩⟩
  · exact absurd hr hnone
  · exact absurd hr hnone
  rw [← hworld] at hlog htended
  have hzero : badId 0 = false := by decide
  have hagreed := hmid.always (p := fun u => Agreed u.book) (step_agreed hstep ha)
    fun u a v hu hv => step_agreed hv hu
  have hbalanced := hmid.always (p := fun u => Balanced u.book)
    (fun L => L.total_le_due_step hstep (hb L)) fun u a v hu hv L => L.total_le_due_step hv (hu L)
  have hstart := underway_start n ha hkonts (hws.trans hws') hqueue
  have hlast := hstart.run hmid hagreed
  have hend := hlast.step hagreed.last hgo
  have hqueued : .resume hd s.book.konts.length (.exn e) ∈ (Lts.last s' mid).book.runQueue := by
    have hmem : .resume hd s.book.konts.length (.exn e) ∈
        ((Lts.last s' mid).pass chronicled).book.runQueue := hq ▸ List.mem_cons_self
    rcases queue_pass hmem with hold | ⟨x, -, hx | hx⟩
    · exact hold
    · cases hx
    · cases hx
  obtain ⟨before, hbefore⟩ := hlast.grows
  obtain ⟨more, hmore, -⟩ := (chronicled_within s.world.net.stubs hzero).step hgo
  have hclose := mem_since hbefore hmore (.inl (hlast.answered hd e hqueued))
  obtain ⟨added, hadded, hslot⟩ :=
    (chronicled_within s.world.net.stubs (firstClosed_valid hn)).run
      (Lts.run_append.mpr ⟨hmid, ⟨hgo, trivial⟩⟩ : Lts.Run (Step chronicled) s' (mid ++ [(.go, t)]))
  rw [Lts.last_append, Lts.last_cons, Lts.last_nil] at hadded hslot
  have hsince : s.world.since t.world = .call .tcpCreate :: (past ++ added) := by
    apply since_eq
    rw [hadded, hlog, List.append_assoc, List.cons_append]
  have hun := hthis n hn
  rw [hsince, List.tail_cons] at hun
  rw [since_eq hadded] at hclose
  refine ⟨?_, ?_⟩
  · have hclosed : Closed (past ++ added) :=
      closed_append.mpr (Or.inr ⟨n, hclose⟩)
    exact (hslot past (htended hun.left) hun).noResidue hclosed hc hn hsince
  · intro v hv
    have hle : v.k ≤ s.book.konts.length := by
      rcases hend.others with hothers | ⟨c, hforeign, hmem⟩
      · exact hothers v hv
      · rw [since_eq hadded] at hmem
        exact absurd (hun.calls c (List.mem_append_right _ hmem)) (hforeign _ _)
    have hpolling : Polling (Lts.last s' mid) .go = true := by simp [Polling, hpoll]
    obtain ⟨y, hy, -, rfl⟩ := step_kept hgo hpolling hv
    have hne := hbalanced.last.not_queued hy hqueued
    simp only [Task.kont, ne_eq, Option.some.injEq] at hne
    exact lt_of_le_of_ne hle fun heq => hne heq.symm

/-- A connect that fails leaves no residue, if nothing but its socket is worked on meanwhile, and no
waiter has been left by it or after it. -/
theorem connect_no_residue {w₀ : Chronicle} {pre xs : List (Act × State Chronicle)}
    (hrun : Lts.Run (Step chronicled) (State.initial w₀) (pre ++ xs))
    (hfails : ConnectFails host port (Lts.last (State.initial w₀) pre) xs)
    (hthis : OnlyThis (Lts.last (State.initial w₀) pre).world
      (Lts.last (Lts.last (State.initial w₀) pre) xs).world) :
    NoResidue (Lts.last (State.initial w₀) pre).world
      (Lts.last (Lts.last (State.initial w₀) pre) xs).world ∧
    ∀ v ∈ (Lts.last (Lts.last (State.initial w₀) pre) xs).book.ioWaiters,
      v.k < (Lts.last (State.initial w₀) pre).book.konts.length := by
  obtain ⟨hpre, hxs⟩ := Lts.run_append.mp hrun
  have ha := (run_agreed hpre).last
  have hb := (run_balanced hpre).last
  generalize Lts.last (State.initial w₀) pre = s at *
  cases hfails with
  | atOnce hs hm => exact noResidue_atOnce ha hs hxs.1 hm hthis
  | @later s' t mid hd e q hs hlt hpoll hq =>
    obtain ⟨hstep, hrest⟩ := hxs
    obtain ⟨hmid, hgo, -⟩ := Lts.run_append.mp hrest
    rw [Lts.last_cons, Lts.last_append, Lts.last_cons, Lts.last_nil] at hthis ⊢
    exact noResidue_later ha hb hs hstep hlt hmid hgo hpoll hq hthis

/-- A network that knows no name. -/
def nameless : Chronicle :=
  ⟨Network.initial fun _ => ⟨[], true, true, true, errOk, 0, .failed, none⟩, []⟩

/-- The main fiber runs, and connects. -/
def mainRuns : List (Act × State Chronicle) :=
  Lts.trace (next chronicled) (State.initial nameless) [.switchRun, .go]

def mainConnects : List (Act × State Chronicle) :=
  Lts.trace (next chronicled) (Lts.last (State.initial nameless) mainRuns)
    [.perform (.net (.tcpConnect "pico" 80))]

theorem connect_no_residue_nameless :
    NoResidue (Lts.last (State.initial nameless) mainRuns).world
      (Lts.last (Lts.last (State.initial nameless) mainRuns) mainConnects).world ∧
    ∀ v ∈ (Lts.last (Lts.last (State.initial nameless) mainRuns) mainConnects).book.ioWaiters,
      v.k < (Lts.last (State.initial nameless) mainRuns).book.konts.length := by
  refine connect_no_residue ?_ (.atOnce (e := .dnsFailed "pico") (by decide) rfl) ?_
  · rw [mainConnects, mainRuns, Lts.last_trace, ← Lts.trace_append]
    exact Lts.run_accepts Enabled (by decide)
  · intro n hn
    have hzero : firstClosed (Lts.last (State.initial nameless) mainRuns).world.net.stubs =
        some 0 := by
      decide
    obtain rfl := Option.some.inj (hzero.symm.trans hn)
    have hstub : stubId 0 = 0 := by decide
    have hlog : (Lts.last (State.initial nameless) mainRuns).world.since
        (Lts.last (Lts.last (State.initial nameless) mainRuns) mainConnects).world =
          [.call .tcpCreate, .call (.dnsResolve "pico"), .call (.tcpClose 0)] := rfl
    rw [hlog, List.tail_cons]
    refine ⟨?_, by simp, ?_⟩
    · intro c hc
      simp only [List.mem_cons, Happening.call.injEq, List.not_mem_nil, or_false] at hc
      rcases hc with rfl | rfl
      · trivial
      · exact hstub
    · intro before after sock heq c hc
      have hmem : .callback c ∈ [Happening.call (.dnsResolve "pico"), .call (.tcpClose 0)] := by
        rw [heq]
        exact List.mem_append_right _ (List.mem_cons_of_mem _ hc)
      simp at hmem

end PicoOcaml.Pio
