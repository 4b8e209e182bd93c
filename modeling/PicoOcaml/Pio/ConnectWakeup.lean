import PicoOcaml.Pio.Observed
import PicoOcaml.Pio.Timeouts

/-! Which connects are told that their connection has been made. -/
namespace PicoOcaml.Pio

open NetStubs

/-! ### One pass over the waiting list -/

section

variable {W : Type*} {X : Externals W} {P : W → Prop} {ready : IoWaiter → Bool}
  (hready : ∀ w world, P world → (isReady X w world).1 = ready w ∧ P (isReady X w world).2)

include hready

end

/-- A write of no bytes succeeds. -/
def connectable (s : Stubs) (w : IoWaiter) : Bool :=
  !badId (stubId w.sockId) && (s.sock (stubId w.sockId)).proto = .tcp &&
    (s.sock (stubId w.sockId)).pcb.isSome && (s.sock (stubId w.sockId)).state = .connected

/-- What the poll of a waiter says. -/
def IoWaiter.ready (s : Stubs) (w : IoWaiter) : Bool :=
  match w.operation with
  | .connect => connectable s w
  | .read => readable s w

theorem picoTcpWrite_empty (s : Stubs) (id : ℤ) : (picoTcpWrite s id [] 0 errOk).1 =
    if badId id = false ∧ (s.sock id).proto = .tcp ∧ (s.sock id).pcb.isSome = true ∧
      (s.sock id).state = .connected then 0 else -1 := by
  simp only [picoTcpWrite]
  by_cases hid : badId id = true
  · simp [hid]
  · by_cases hp : (s.sock id).proto = .tcp
    · cases hc : (s.sock id).pcb with
      | none => simp [hid, hp]
      | some pcb =>
        by_cases hs : (s.sock id).state = .connected
        · simp [hid, hp, hs, toCInt]
        · simp [hid, hp, hs]
    · have hu : (s.sock id).proto = .udp := by
        cases h : (s.sock id).proto with
        | tcp => exact absurd h hp
        | udp => rfl
      simp [hid, hu]

theorem isReady_observed (w : IoWaiter) (world : Observed) :
    (isReady observed w world).1 = w.ready world.net.stubs ∧
      (isReady observed w world).2.net.stubs.sockets = world.net.stubs.sockets := by
  cases hop : w.operation with
  | connect =>
    have hlen : (intVal (ofOcamlInt 0)).toNat = 0 := by decide
    have hzero : 0 ≤ ocamlInt (valInt 0#32) := by decide
    have hfail : ocamlInt (valInt (BitVec.ofInt 32 (-1))) = -1 := by decide
    simp only [isReady, hop, observed, if_true, Network.answer, ocamlTcpWrite, hlen,
      picoTcpWrite_empty, IoWaiter.ready, connectable]
    refine ⟨?_, picoTcpWrite_sockets ..⟩
    rw [← stubId]
    split
    · rename_i hc
      obtain ⟨hid, hp, hpcb, hst⟩ := hc
      simp [hzero, hid, hp, hpcb, hst]
    · rename_i hc
      simp only [hfail]
      symm
      simpa [and_assoc] using hc
  | read =>
    have h := isReady_read hop world.net
    have hr : (isReady observed w world).1 = (isReady network w world.net).1 ∧
        (isReady observed w world).2.net = (isReady network w world.net).2 := by
      simp only [isReady, hop]
      exact ⟨rfl, rfl⟩
    rw [hr.1, hr.2, h, IoWaiter.ready, hop]
    exact ⟨rfl, rfl⟩

/-! ### The registration of a connect -/

variable {s t : State Observed} {a : Act} {xs mid : List (Act × State Observed)}

/-- The world before anything has happened. -/
def Observed.initial (turns : ℕ → Turn) : Observed := ⟨Network.initial turns, []⟩

variable {turns : ℕ → Turn}

/-- The connection is made, and closed by the peer in the same poll. -/
def closingTurns (n : ℕ) : Turn where
  callbacks := if n = 5 then [.tcpConnected 0 0, .tcpRecv 0 0 none 0] else []
  mallocOk := true
  newOk := true
  pbufOk := true
  err := 0
  ip := 0
  dns := .failed
  parsed := some 0x0100000a

/-- The connection is over, and lwIP has nothing more to tell. -/
structure Shut (w : Observed) : Prop where
  turns : w.net.turns = closingTurns
  time : 5 < w.net.time
  made : w.made = [.tcpConnected 0 0, .tcpRecv 0 0 none 0]
  state : (w.net.stubs.sock 0).state = .closed
  pcb : (w.net.stubs.sock 0).pcb = some 0

theorem Shut.service {w : Observed} (h : Shut w) : Shut (serviceNetwork observed w) := by
  have hnone : ∀ n, 5 < n → (closingTurns n).callbacks = [] := by
    intro n hn
    have hne : n ≠ 5 := by omega
    simp [closingTurns, hne]
  have hpoll : ∀ v, Shut v → Shut (v.poll (v.net.advance (v.net.callbacks v.net.stubs))) := by
    intro v hv
    have hcs : v.net.turn.callbacks = [] := by
      rw [Network.turn, hv.turns]
      exact hnone _ hv.time
    have hst : v.net.callbacks v.net.stubs = v.net.stubs := by rw [Network.callbacks, hcs]; rfl
    rw [hst]
    exact ⟨hv.turns, Nat.lt_succ_of_lt hv.time, by simp [Observed.poll, hcs, hv.made], hv.state, hv.pcb⟩
  exact hpoll _ (hpoll _ h)

/-- A connect has been polled `n` times in vain. -/
structure Stuck (n : ℕ) (s : State Observed) : Prop where
  mode : s.mode = .run
  stack : s.stack = [.mainScheduler 0, .body .top]
  switch : 0 < (s.switches 0).fibers ∧ (s.switches 0).result = none ∧ (s.switches 0).exnRef = none
  queue : s.book.runQueue = []
  waiters : s.book.ioWaiters = [⟨0, .connect, n, 1000, .main 0, 0⟩]
  shut : Shut s.world

theorem Shut.polled {w : Observed} (h : Shut w) {v : IoWaiter} (hop : v.operation = .connect)
    (hsock : v.sockId = 0) : (isReady observed v w).1 = false ∧ Shut (isReady observed v w).2 := by
  have hstub : stubId 0 = 0 := by decide
  obtain ⟨hr, hs⟩ := isReady_observed v w
  constructor
  · rw [hr]
    simp [IoWaiter.ready, hop, connectable, hsock, hstub, h.state]
  · have hsame : (isReady observed v w).2.net.stubs.sock 0 = w.net.stubs.sock 0 := by
      simp only [Stubs.sock, hs]
    refine ⟨?_, ?_, ?_, hsame ▸ h.state, hsame ▸ h.pcb⟩
    · simpa [isReady, hop, observed, Observed.keep, Network.answer, Network.advance] using h.turns
    · simpa [isReady, hop, observed, Observed.keep, Network.answer, Network.advance]
        using Nat.lt_succ_of_lt h.time
    · simpa [isReady, hop, observed, Observed.keep] using h.made

theorem Stuck.pass {n : ℕ} {s : State Observed} (h : Stuck n s) (hn : n < 1000) :
    (s.pass observed).book.runQueue = [] ∧
      (s.pass observed).book.ioWaiters = [⟨0, .connect, n + 1, 1000, .main 0, 0⟩] ∧
      Shut (s.pass observed).world := by
  obtain ⟨hr, hshut⟩ := h.shut.service.polled (v := ⟨0, .connect, n, 1000, .main 0, 0⟩) rfl rfl
  have hlt : ¬ n ≥ 1000 := by omega
  simp only [State.pass, checkIoCompletions, h.waiters, List.foldl_cons, List.foldl_nil, processWaiter,
    hr, hlt, decide_false, Book.enqueueAll, h.queue, List.append_nil]
  exact ⟨trivial, trivial, hshut⟩

theorem Stuck.polling {n : ℕ} {s : State Observed} (h : Stuck n s) : s.polling = true := by
  simp [State.polling, h.mode, h.stack, Frame.loop]

theorem Stuck.enabled {n : ℕ} {s : State Observed} (h : Stuck n s) : Enabled s .go = true := by
  simp [Enabled, h.mode, h.stack]

theorem Stuck.round {n : ℕ} {s : State Observed} (h : Stuck n s) (hn : n < 1000) :
    Stuck (n + 1) (next observed s .go) := by
  obtain ⟨hq, hws, hshut⟩ := h.pass hn
  have hst : (s.pass observed).stack = [.mainScheduler 0, .body .top] := h.stack
  obtain ⟨hf, hr, he⟩ : 0 < ((s.pass observed).switches 0).fibers ∧
      ((s.pass observed).switches 0).result = none ∧
        ((s.pass observed).switches 0).exnRef = none := h.switch
  have hidle : (s.pass observed).idles = true := by
    simp [State.idles, hst, hq, hr, he, hf]
  have hgo : next observed s .go = idle observed (s.pass observed) := go_idle h.polling hidle
  rw [hgo]
  exact ⟨h.mode, h.stack, h.switch, hq, hws, hshut.service⟩

theorem Stuck.rounds {n m : ℕ} {s : State Observed} (h : Stuck n s) (hm : n + m ≤ 1000) :
    ∃ xs, Lts.Run (Step observed) s xs ∧ Stuck (n + m) (Lts.last s xs) := by
  induction m with
  | zero => exact ⟨[], trivial, h⟩
  | succ m ih =>
    obtain ⟨xs, hrun, hst⟩ := ih (by omega)
    refine ⟨xs ++ [(.go, next observed (Lts.last s xs) .go)],
      Lts.run_append.mpr ⟨hrun, ⟨hst.enabled, rfl⟩, trivial⟩, ?_⟩
    rw [Lts.last_append]
    exact hst.round (by omega)

theorem Stuck.timesOut {s : State Observed} (h : Stuck 1000 s) :
    .onTimeout .connect 0 (.main 0) 0 ∈ (s.pass observed).book.runQueue := by
  obtain ⟨hr, -⟩ := h.shut.service.polled (v := ⟨0, .connect, 1000, 1000, .main 0, 0⟩) rfl rfl
  simp [State.pass, checkIoCompletions, h.waiters, processWaiter, hr, Book.enqueueAll, h.queue,
    IoWaiter.onTimeout]

end PicoOcaml.Pio
