import PicoOcaml.NetStubs.Pipes
import PicoOcaml.Pio.Chronicle
import PicoOcaml.Pio.Probes

/-! What the readers of a TCP socket are handed, in whichever fibers they run, is what comes out of
one bounded pipe. -/
namespace PicoOcaml.Pio

open NetStubs

/-- The bytes that a callback has for the buffer of slot `i`. -/
def Callback.bytes (i : ℤ) : Callback → Option Bytes
  | .tcpRecv arg _ p err => if arg = i ∧ err = errOk then p else none
  | .udpRecv arg p _ _ => if arg = i then p else none
  | _ => none

def Happening.op (i : ℤ) : Happening → Option (Pipe.Op UInt8)
  | .callback c => (c.bytes i).map .put
  | .call (.tcpRead sock maxLen) =>
    if stubId sock = i then some (.take (intVal (ofOcamlInt maxLen)).toNat) else none
  | .call _ => none

/-- What happens to the buffer of slot `i`. -/
def pipeOps (i : ℤ) (log : List Happening) : List (Pipe.Op UInt8) := log.filterMap (Happening.op i)

def Answer.chunk : Answer → List Bytes
  | .value (.bytes b) => [b]
  | _ => []

/-- The bytes that a step hands a reader of slot `i`: in the answer to its effect, or in the one that
the closure of its waiter queues for it. -/
def answered (i : ℤ) (s : State Chronicle) : Act → List Bytes
  | .perform (.net (.tcpRead sock)) =>
    if stubId sock = i then
      match (perform chronicled s (.net (.tcpRead sock))).mode with
      | .ret a => a.chunk
      | .run => []
    else []
  | .go =>
    if s.polling then
      match (s.pass chronicled).book.runQueue with
      | .wake .read sock h _ :: _ =>
        if stubId sock = i then
          (h.wakeAnswer chronicled .read sock (s.pass chronicled).world).1.chunk
        else []
      | _ => []
    else []
  | _ => []

def State.stubs (s : State Chronicle) : Stubs := s.world.net.stubs

def State.content (i : ℤ) (s : State Chronicle) : Bytes := NetStubs.content i s.stubs

/-- Between two states of a run the buffer of slot `i` is a pipe: it holds what is left in the pipe,
the readers get what comes out of it, and they get all that arrives exactly if it all fits. -/
structure Delivered (i : ℤ) (s : State Chronicle) (xs : List (Act × State Chronicle)) : Prop where
  buffered : (Lts.last s xs).content i = Pipe.held maxRecvBuffer (s.content i)
    (pipeOps i (s.world.since (Lts.last s xs).world))
  handed : Lts.gather (answered i) s xs = (Pipe.out maxRecvBuffer (s.content i)
    (pipeOps i (s.world.since (Lts.last s xs).world))).filter (· ≠ [])
  whole_iff : (Lts.gather (answered i) s xs).flatten ++ (Lts.last s xs).content i =
      s.content i ++ (Pipe.puts (pipeOps i (s.world.since (Lts.last s xs).world))).flatten ↔
    Pipe.Fits maxRecvBuffer (s.content i) (pipeOps i (s.world.since (Lts.last s xs).world))

/-! ### What the calls do to the pipe -/

variable {i : ℤ} {a : ℕ} {w w' v : Chronicle} {log log' : List Happening}

theorem pipeOps_append : pipeOps i (log ++ log') = pipeOps i log ++ pipeOps i log' :=
  List.filterMap_append

theorem pipeOps_callbacks (c : RawCall) (hc : (Happening.call c).op i = none) (cs : List Callback) :
    pipeOps i (.call c :: cs.map .callback) = (cs.filterMap (Callback.bytes i)).map .put := by
  rw [pipeOps, List.filterMap_cons_none hc]
  induction cs with
  | nil => rfl
  | cons c cs ih =>
    cases hb : c.bytes i with
    | none =>
      rw [List.map_cons, List.filterMap_cons_none hb,
          List.filterMap_cons_none (by simp [Happening.op, hb])]
      exact ih
    | some bytes =>
      rw [List.map_cons, List.filterMap_cons_some hb, List.map_cons,
        List.filterMap_cons_some (b := .put bytes) (by simp [Happening.op, hb]), ih]

theorem pipes_callback (hi : badId i = false) (s : Stubs) (c : Callback) :
    Pipes i a ((c.bytes i).toList.map .put) s (c.run s) := by
  cases c with
  | tcpRecv arg tpcb p err =>
    have hrecv := pipes_tcpRecvCallback (a := a) (s := s) hi arg tpcb p err
    simp only [Callback.bytes]
    split
    · rwa [if_pos ‹_›] at hrecv
    · rwa [if_neg ‹_›] at hrecv
  | tcpSent arg len => exact (Still.refl.enqueue _).pipes
  | tcpErr arg err => exact (still_tcpErrCallback arg err).pipes
  | tcpConnected arg err => exact (still_tcpConnectedCallback arg err).pipes
  | udpRecv arg p addr port =>
    have hrecv := pipes_udpRecvCallback (a := a) (s := s) hi arg p addr port
    simp only [Callback.bytes]
    split
    · rwa [if_pos ‹_›] at hrecv
    · rwa [if_neg ‹_›] at hrecv

theorem pipes_callbacks (hi : badId i = false) (s : Stubs) (cs : List Callback) :
    Pipes i a ((cs.filterMap (Callback.bytes i)).map .put) s (cs.foldl Callback.run s) := by
  induction cs generalizing s with
  | nil => exact Pipes.refl
  | cons c cs ih =>
    have hone := (pipes_callback (a := a) hi s c).trans (ih (c.run s))
    cases hb : c.bytes i with
    | none =>
      rw [hb] at hone
      rw [List.filterMap_cons_none hb]
      exact hone
    | some bytes =>
      rw [hb] at hone
      rw [List.filterMap_cons_some hb]
      exact hone

theorem idle_puts (xs : List Bytes) : Pipe.Idle (xs.map Pipe.Op.put) := by
  intro n hn
  obtain ⟨x, -, hx⟩ := List.mem_map.mp hn
  cases hx

theorem idle_nil : Pipe.Idle ([] : List (Pipe.Op UInt8)) := idle_puts []

namespace Chronicle

/-- Calls that change the buffer of slot `i` as the history says, and take nothing from it. -/
def Untapped (i : ℤ) (a : ℕ) (w w' : Chronicle) : Prop :=
  ∃ more, w'.log = w.log ++ more ∧ Pipes i a (pipeOps i more) w.net.stubs w'.net.stubs ∧
    Pipe.Idle (pipeOps i more)

theorem Untapped.refl : Untapped i a w w := ⟨[], (List.append_nil _).symm, Pipes.refl, idle_nil⟩

theorem Untapped.trans (h : Untapped i a w w') (h' : Untapped i a w' v) : Untapped i a w v := by
  obtain ⟨more, hlog, hpipes, hidle⟩ := h
  obtain ⟨more', hlog', hpipes', hidle'⟩ := h'
  refine ⟨more ++ more', by rw [hlog', hlog, List.append_assoc], ?_⟩
  rw [pipeOps_append]
  exact ⟨hpipes.trans hpipes', hidle.append hidle'⟩

theorem untapped_keep {c : RawCall} (hc : (Happening.call c).op i = none) {net : Network}
    (hp : Pipes i a [] w.net.stubs net.stubs) : Untapped i a w (w.keep c net) := by
  refine ⟨[.call c], rfl, ?_⟩
  have hops : pipeOps i [.call c] = [] := by
    rw [pipeOps, List.filterMap_cons_none hc, List.filterMap_nil]
  rw [hops]
  exact ⟨hp, idle_nil⟩

/-- A call that makes its callbacks last, or first and nothing to the buffer after them. -/
theorem untapped_poll {c : RawCall} (hc : (Happening.call c).op i = none) {net : Network}
    (hp : Pipes i a ((w.net.turn.callbacks.filterMap (Callback.bytes i)).map .put)
      w.net.stubs net.stubs) :
    Untapped i a w (w.poll c net) := by
  refine ⟨.call c :: w.net.turn.callbacks.map .callback, rfl, ?_⟩
  rw [pipeOps_callbacks c hc]
  exact ⟨hp, idle_puts _⟩

theorem untapped_dnsResolveRaw (hi : badId i = false) (host : String) (w : Chronicle) :
    Untapped i a w (chronicled.dnsResolveRaw host w).2 := by
  simp only [chronicled, network, Network.answer]
  cases w.net.turn.dns with
  | inProgress ip => exact untapped_poll rfl (pipes_callbacks hi _ _)
  | cached ip => exact untapped_keep rfl Pipes.refl
  | failed => exact untapped_keep rfl Pipes.refl

theorem untapped_resolveHost (hi : badId i = false) (host : String) (w : Chronicle) :
    Untapped i a w (resolveHost chronicled host w).2 := by
  have hip : Untapped i a w (chronicled.ipFromStringRaw host w).2 := untapped_keep rfl Pipes.refl
  simp only [resolveHost]
  split
  · split
    · exact hip
    · exact untapped_dnsResolveRaw hi host w
  · exact untapped_dnsResolveRaw hi host w

theorem untapped_tcpCloseRaw (hi : badId i = false) (sock : ℤ) (w : Chronicle) :
    Untapped i a w (chronicled.tcpCloseRaw sock w) :=
  untapped_keep rfl ((picoTcpClose_closedBy _ _).pipes hi)

theorem untapped_tcpConnect (hi : badId i = false) (h : Handler) (k : ℕ) (ws : List IoWaiter)
    (host : String) (port : ℤ) (w : Chronicle) :
    Untapped i a w (handleNetEffect chronicled h k ws w (.tcpConnect host port)).world := by
  have hcreate : Untapped i a w (chronicled.tcpCreateRaw w).2 :=
    untapped_keep rfl (pipes_picoTcpCreate hi _ _)
  simp only [handleNetEffect]
  split
  · exact hcreate
  · have hresolve := hcreate.trans (untapped_resolveHost hi host _)
    split
    · exact hresolve.trans (untapped_tcpCloseRaw hi _ _)
    · have hconnect : Untapped i a w (chronicled.tcpConnectRaw (chronicled.tcpCreateRaw w).1
          (resolveHost chronicled host (chronicled.tcpCreateRaw w).2).1 port
          (resolveHost chronicled host (chronicled.tcpCreateRaw w).2).2).2 :=
        hresolve.trans (untapped_keep rfl (still_picoTcpConnect _ _ _ _).pipes)
      split
      · exact hconnect.trans (untapped_tcpCloseRaw hi _ _)
      · exact hconnect

/-- A read changes the buffer of its slot only. -/
theorem pipes_tcpReadRaw (hi : badId i = false) (sock maxLen : ℤ) (w : Chronicle) :
    Pipes i a (pipeOps i [.call (.tcpRead sock maxLen)]) w.net.stubs
      (chronicled.tcpReadRaw sock maxLen w).2.net.stubs := by
  have hread := pipes_picoTcpRead (a := a) (s := w.net.stubs) hi (stubId sock)
    (intVal (ofOcamlInt maxLen)).toNat
  have hops : pipeOps i [.call (.tcpRead sock maxLen)] =
      if stubId sock = i then [.take (intVal (ofOcamlInt maxLen)).toNat] else [] := by
    by_cases hsock : stubId sock = i <;> simp [pipeOps, Happening.op, hsock]
  rw [hops]
  exact hread

theorem untapped_probe (hi : badId i = false) (sock : ℤ) (w : Chronicle) :
    Untapped i a w (chronicled.tcpReadRaw sock 0 w).2 := by
  refine ⟨[.call (.tcpRead sock 0)], rfl, pipes_tcpReadRaw hi sock 0 w, ?_⟩
  intro n hn
  by_cases hsock : stubId sock = i
  · have hzero : n = (intVal (ofOcamlInt 0)).toNat := by simpa [pipeOps, Happening.op, hsock] using hn
    exact hzero
  · simp [pipeOps, Happening.op, hsock] at hn

end Chronicle

open Chronicle in
/-- Without the reads everything leaves the pipe untapped. -/
theorem unread_within (a : ℕ) (hi : badId i = false) :
    (curbed chronicled false true).Within (Untapped i a) where
  refl _ := .refl
  trans := .trans
  sleepMs _ _ := untapped_keep rfl Pipes.refl
  wifiConnectRaw ssid password timeout w := by
    have hcalls := pipes_netInit.trans (pipes_callbacks (a := a) hi
        (netInit w.net.stubs) w.net.turn.callbacks)
    have hall := hcalls.trans (pipes_wifiConnect w.net.turn.err)
    rw [List.append_nil, List.nil_append] at hall
    exact untapped_poll rfl hall
  wifiDisconnectRaw _ := untapped_keep rfl (Still.refl.enqueue _).pipes
  wifiGetIpRaw _ := untapped_keep rfl Pipes.refl
  tcpConnect h k ws host port w := untapped_tcpConnect hi h k ws host port w
  tcpWriteRaw sock data len w := untapped_keep rfl (still_picoTcpWrite _ _ _ _).pipes
  tcpReadRaw sock maxLen w := by
    by_cases hz : maxLen = 0
    · subst hz
      exact untapped_probe hi sock w
    · simp only [curbed, Bool.false_or, decide_eq_true_eq, if_neg hz]
      exact .refl
  tcpCloseRaw sock w := untapped_tcpCloseRaw hi sock w
  udpCreateRaw _ := untapped_keep rfl (pipes_picoUdpCreate hi _ _)
  udpBindRaw _ _ _ := untapped_keep rfl (still_picoUdpBind _ _ _).pipes
  udpSendtoRaw _ _ _ _ _ _ := untapped_keep rfl (still_picoUdpSendto _ _ _ _ _ _ _).pipes
  udpRecvfromRaw _ _ _ := untapped_keep rfl (pipes_picoUdpRecvfrom hi _ _)
  udpCloseRaw _ _ := untapped_keep rfl ((picoUdpClose_closedBy _ _).pipes hi)
  dnsResolveRaw host w := untapped_dnsResolveRaw hi host w
  netPollRaw _ := untapped_poll rfl (pipes_callbacks hi _ _)
  lwipServiceRaw _ := untapped_poll rfl (pipes_callbacks hi _ _)
  ipFromStringRaw _ _ := untapped_keep rfl Pipes.refl

/-! ### What the readers are handed -/

namespace Chronicle

/-- The calls change the buffer of slot `i` as the history says, and `chunks` comes out. -/
def Yields (i : ℤ) (a : ℕ) (chunks : List Bytes) (w w' : Chronicle) : Prop :=
  ∃ more, w'.log = w.log ++ more ∧ Pipes i a (pipeOps i more) w.net.stubs w'.net.stubs ∧
    (Blocks w.net.stubs → a < w.net.stubs.heapNext → Holds i a w'.net.stubs → chunks =
      (Pipe.out maxRecvBuffer (content i w.net.stubs) (pipeOps i more)).filter (· ≠ []))

variable {chunks chunks' : List Bytes}

theorem Untapped.yields (h : Untapped i a w w') : Yields i a [] w w' := by
  obtain ⟨more, hlog, hpipes, hidle⟩ := h
  refine ⟨more, hlog, hpipes, fun _ _ _ => ?_⟩
  symm
  rw [List.filter_eq_nil_iff]
  intro xs hxs
  simpa using hidle.out xs hxs

theorem Yields.trans (h : Yields i a chunks w w') (h' : Yields i a chunks' w' v) :
    Yields i a (chunks ++ chunks') w v := by
  obtain ⟨more, hlog, hpipes, hout⟩ := h
  obtain ⟨more', hlog', hpipes', hout'⟩ := h'
  refine ⟨more ++ more', by rw [hlog', hlog, List.append_assoc], ?_⟩
  rw [pipeOps_append]
  refine ⟨hpipes.trans hpipes', fun hb ha hv => ?_⟩
  have hb' := hpipes.blocks hb
  have ha' := Nat.lt_of_lt_of_le ha hpipes.heapNext
  obtain ⟨hw', -⟩ := hpipes'.slot hb' ha' hv
  obtain ⟨-, hcontent⟩ := hpipes.slot hb ha hw'
  rw [hout hb ha hw', hout' hb' ha' hv, hcontent, Pipe.out_append, List.filter_append]

/-- A read of the library: whatever is in the buffer, if there is something. -/
theorem tcpReadRaw_chunk {sock : ℤ} (hb : Buffered (stubId sock) w.net.stubs) :
    let r := (chronicled.tcpReadRaw sock 4096 w).1
    (if r.1 > 0 then [r.2.take r.1.toNat] else []) =
      [(content (stubId sock) w.net.stubs).take maxRecvBuffer].filter (· ≠ []) := by
  intro r
  have hlen : (intVal (ofOcamlInt 4096)).toNat = maxRecvBuffer := by decide
  have hfits := hb.fits
  have hcount := picoTcpRead_count hb maxRecvBuffer
  have hspec := (picoTcpRead_spec hb (show 1 ≤ maxRecvBuffer by decide)).2.2.1
  have hclen := content_length hb
  have hr : r = (ocamlInt (valInt (BitVec.ofInt 32 (picoTcpRead w.net.stubs (stubId sock) maxRecvBuffer).1.1)),
      (picoTcpRead w.net.stubs (stubId sock) maxRecvBuffer).1.2) := by
    simp only [r, ← hlen]
    rfl
  rw [Nat.min_eq_left hfits] at hcount
  have hback : r.1 = (picoTcpRead w.net.stubs (stubId sock) maxRecvBuffer).1.1 := by
    rw [hr, hcount]
    simp only [maxRecvBuffer] at hfits
    split
    · exact ocamlInt_valInt_ofInt (by omega) (by omega)
    · exact ocamlInt_valInt_ofInt (by omega) (by omega)
  have hbytes : r.2.take r.1.toNat = (content (stubId sock) w.net.stubs).take maxRecvBuffer := by
    rw [hback, hr]
    exact hspec
  by_cases hz : (w.net.stubs.sock (stubId sock)).recvLen = 0
  · have hnil : content (stubId sock) w.net.stubs = [] :=
      List.eq_nil_of_length_eq_zero (hclen.trans hz)
    have hneg : ¬ r.1 > 0 := by
      rw [hback, hcount, hz]
      split <;> omega
    rw [if_neg hneg, hnil]
    rfl
  · have hpos : r.1 > 0 := by
      rw [hback, hcount, if_neg fun h => hz h.1]
      omega
    have hne : (content (stubId sock) w.net.stubs).take maxRecvBuffer ≠ [] := by
      rw [List.take_of_length_le (by omega)]
      intro hnil
      rw [hnil] at hclen
      exact hz hclen.symm
    rw [if_pos hpos, hbytes, List.filter_cons_of_pos (by simpa using hne), List.filter_nil]

theorem yields_tcpReadRaw (hi : badId i = false) (sock : ℤ) (w : Chronicle) :
    let r := (chronicled.tcpReadRaw sock 4096 w).1
    Yields i a (if stubId sock = i then (if r.1 > 0 then [r.2.take r.1.toNat] else []) else []) w
      (chronicled.tcpReadRaw sock 4096 w).2 := by
  intro r
  have hpipes := pipes_tcpReadRaw (a := a) hi sock 4096 w
  refine ⟨[.call (.tcpRead sock 4096)], rfl, hpipes, fun hb ha hv => ?_⟩
  obtain ⟨hw, -⟩ := hpipes.slot hb ha hv
  by_cases hsock : stubId sock = i
  · subst hsock
    have hops : pipeOps (stubId sock) [.call (.tcpRead sock 4096)] = [.take maxRecvBuffer] := by
      simp only [pipeOps, Happening.op, List.filterMap_cons, if_true, List.filterMap_nil]
      rfl
    rw [if_pos rfl, hops, tcpReadRaw_chunk (hw.buffered hb hi)]
    rfl
  · have hops : pipeOps i [.call (.tcpRead sock 4096)] = [] := by
      simp [pipeOps, Happening.op, hsock]
    rw [if_neg hsock, hops]
    rfl

end Chronicle

theorem chunk_readResult (n : ℤ) (buf : Bytes) :
    (readResult n buf).chunk = if n > 0 then [buf.take n.toNat] else [] := by
  simp only [readResult]
  split
  · rfl
  · split <;> rfl

open Chronicle

variable {s t : State Chronicle} {act : Act} {xs : List (Act × State Chronicle)}

/-- A round that runs the closure of a reader. -/
theorem go_reads {sock : ℤ} {h : Handler} {k : ℕ} {q : List Task} (hp : s.polling = true)
    (hq : (s.pass chronicled).book.runQueue = .wake .read sock h k :: q) :
    (go chronicled s).world = (chronicled.tcpReadRaw sock 4096 (s.pass chronicled).world).2 := by
  have hround : ∀ done : State Chronicle → State Chronicle, (round chronicled s done).world =
      (chronicled.tcpReadRaw sock 4096 (s.pass chronicled).world).2 := by
    intro done
    have hq' : (checkIoCompletions chronicled s.book s.world).1.runQueue =
        .wake .read sock h k :: q := hq
    simp only [round, hq', startTask, Handler.wakeAnswer_eq]
    rfl
  obtain ⟨f, rest, hm, hst, hloop⟩ := polling_looping hp
  cases f with
  | scheduler sw =>
    simp only [go, hm, hst]
    exact hround _
  | mainScheduler sw =>
    simp only [go, hm, hst]
    exact hround _
  | _ => cases hloop

theorem answered_go_reads {sock : ℤ} {h : Handler} {k : ℕ} {q : List Task} (hp : s.polling = true)
    (hq : (s.pass chronicled).book.runQueue = .wake .read sock h k :: q) :
    answered i s .go =
      let r := (chronicled.tcpReadRaw sock 4096 (s.pass chronicled).world).1
      if stubId sock = i then (if r.1 > 0 then [r.2.take r.1.toNat] else []) else [] := by
  simp only [answered, hp, if_true, hq]
  split
  · rw [Handler.wakeAnswer_eq]
    exact chunk_readResult _ _
  · rfl

theorem answered_go_other
    (h : s.polling = true → ∀ t q, (s.pass chronicled).book.runQueue = t :: q → t.reads = none) :
    answered i s .go = [] := by
  simp only [answered]
  split
  · rename_i hp
    split
    · rename_i sock hd k q hq
      cases h hp _ _ hq
    · rfl
  · rfl

theorem yields_go (a : ℕ) (hi : badId i = false) :
    Yields i a (answered i s .go) s.world (go chronicled s).world := by
  by_cases hread : ∃ sock h k q, s.polling = true ∧
      (s.pass chronicled).book.runQueue = .wake .read sock h k :: q
  · obtain ⟨sock, h, k, q, hp, hq⟩ := hread
    have hpass : Untapped i a s.world (s.pass chronicled).world := by
      have hcurbed : s.pass (curbed chronicled false true) = s.pass chronicled := pass_curbed
      rw [← hcurbed]
      exact (unread_within a hi).checkIoCompletions s.book s.world
    rw [answered_go_reads hp hq, go_reads hp hq]
    exact hpass.yields.trans (yields_tcpReadRaw hi sock _)
  · have hnone : s.polling = true → ∀ t q, (s.pass chronicled).book.runQueue = t :: q →
        t.reads = none := by
      intro hp t q hq
      cases t with
      | wake op sock h k =>
        cases op with
        | connect => rfl
        | read => exact absurd ⟨sock, h, k, q, hp, hq⟩ hread
      | _ => rfl
    have hcurbed : go (curbed chronicled false true) s = go chronicled s :=
      go_curbed fun hp t q hq hreads => absurd (hnone hp t q hq) hreads
    rw [answered_go_other hnone, ← hcurbed]
    exact ((unread_within a hi).go).yields

/-- A read that is answered at once, or leaves a waiter. -/
theorem perform_reads (i sock : ℤ) {cut : List Frame × Handler × List Frame}
    (hsplit : splitHandler s.stack = some cut) :
    (perform chronicled s (.net (.tcpRead sock))).world =
        (chronicled.tcpReadRaw sock 4096 (serviceNetwork chronicled s.world)).2 ∧
      answered i s (.perform (.net (.tcpRead sock))) =
        let r := (chronicled.tcpReadRaw sock 4096 (serviceNetwork chronicled s.world)).1
        if stubId sock = i then (if r.1 > 0 then [r.2.take r.1.toNat] else []) else [] := by
  obtain ⟨segment, h, rest⟩ := cut
  simp only [answered, perform, hsplit, effc, netEffect_eq, handleNetEffect]
  by_cases hpos : (chronicled.tcpReadRaw sock 4096 (serviceNetwork chronicled s.world)).1.1 > 0
  · simp only [if_pos hpos, State.reply, Answer.chunk]
    exact ⟨trivial, trivial⟩
  · by_cases hclosed : (chronicled.tcpReadRaw sock 4096 (serviceNetwork chronicled s.world)).1.1 = -2
    · simp only [if_neg hpos, if_pos hclosed, State.reply, Answer.chunk]
      exact ⟨trivial, trivial⟩
    · simp only [if_neg hpos, if_neg hclosed, world_suspend]
      cases h <;> exact ⟨trivial, rfl⟩

theorem yields_perform (a : ℕ) (hi : badId i = false) (eff : Eff) :
    Yields i a (answered i s (.perform eff)) s.world (perform chronicled s eff).world := by
  by_cases hread : ∃ sock, eff = .net (.tcpRead sock)
  · obtain ⟨sock, rfl⟩ := hread
    cases hsplit : splitHandler s.stack with
    | none =>
      have hnothing : answered i s (.perform (.net (.tcpRead sock))) = [] := by
        simp [answered, perform, hsplit, State.reply, Answer.chunk]
      rw [hnothing]
      simp only [perform, hsplit]
      exact Untapped.refl.yields
    | some cut =>
      obtain ⟨hworld, hanswered⟩ := perform_reads i sock hsplit
      rw [hworld, hanswered]
      exact ((unread_within a hi).serviceNetwork s.world).yields.trans (yields_tcpReadRaw hi sock _)
  · have hne : ∀ sock, eff ≠ .net (.tcpRead sock) := fun sock heq => hread ⟨sock, heq⟩
    have hnothing : answered i s (.perform eff) = [] := by
      cases eff with
      | net e =>
        cases e with
        | tcpRead sock => exact absurd rfl (hne sock)
        | _ => rfl
      | _ => rfl
    have hcurbed : perform (curbed chronicled false true) s eff = perform chronicled s eff :=
      perform_curbed (fun sock heq => absurd heq (hne sock)) fun _ _ _ => rfl
    rw [hnothing, ← hcurbed]
    exact ((unread_within a hi).perform eff).yields

theorem step_yields (a : ℕ) (hi : badId i = false) (h : Step chronicled s act t) :
    Yields i a (answered i s act) s.world t.world := by
  cases act with
  | go =>
    rw [h.2]
    exact yields_go a hi
  | perform eff =>
    rw [h.2]
    exact yields_perform a hi eff
  | _ => exact ((unread_within a hi).step ⟨h.1, h.2⟩).yields

theorem run_yields (a : ℕ) (hi : badId i = false) (h : Lts.Run (Step chronicled) s xs) :
    Yields i a (Lts.gather (answered i) s xs) s.world (Lts.last s xs).world := by
  have hall := h.gathers (P := fun chunks u => Yields i a chunks s.world u.world) (l := [])
    (e := answered i) Untapped.refl.yields fun _ _ _ _ hu hstep => hu.trans (step_yields a hi hstep)
  rwa [List.nil_append] at hall

/-- Whichever fibers read from a TCP socket, and whatever else the program and the network do, as long
as the slot keeps its buffer. -/
theorem stream_delivered {turns : ℕ → Turn} {pre : List (Act × State Chronicle)}
    (hpre : Lts.Run (Step chronicled) (State.initial ⟨.initial turns, []⟩) pre)
    (hrun : Lts.Run (Step chronicled) (Lts.last (State.initial ⟨.initial turns, []⟩) pre) xs)
    (hi : badId i = false)
    (hfirst : Holds i a (Lts.last (State.initial ⟨.initial turns, []⟩) pre).stubs)
    (hlast : Holds i a (Lts.last (Lts.last (State.initial ⟨.initial turns, []⟩) pre) xs).stubs) :
    Delivered i (Lts.last (State.initial ⟨.initial turns, []⟩) pre) xs := by
  obtain ⟨_, _, hbefore, _⟩ := run_yields a hi hpre
  have hb := hbefore.blocks initial_blocks
  have ha : a < (Lts.last (State.initial ⟨.initial turns, []⟩) pre).stubs.heapNext :=
    (hb.block _ a hfirst.buffer).1
  obtain ⟨more, hlog, hpipes, hout⟩ := run_yields a hi hrun
  obtain ⟨-, hheld⟩ := hpipes.slot hb ha hlast
  have hhanded := hout hb ha hlast
  have hroom : (State.content i (Lts.last (State.initial ⟨.initial turns, []⟩) pre)).length ≤
      maxRecvBuffer := by
    have hbuf := hfirst.buffered hb hi
    rw [State.content, content_length hbuf]
    exact hbuf.fits
  have hsince : (Lts.last (State.initial ⟨.initial turns, []⟩) pre).world.since
      (Lts.last (Lts.last (State.initial ⟨.initial turns, []⟩) pre) xs).world = more := by
    rw [since, hlog, List.drop_left]
  refine ⟨?_, ?_, ?_⟩
  · rw [hsince]
    exact hheld
  · rw [hsince]
    exact hhanded
  · have hflat : (Lts.gather (answered i) (Lts.last (State.initial ⟨.initial turns, []⟩) pre) xs).flatten =
        (Pipe.out maxRecvBuffer (State.content i (Lts.last (State.initial ⟨.initial turns, []⟩) pre))
          (pipeOps i more)).flatten := by
      rw [hhanded, List.flatten_filter_ne_nil]
      rfl
    have hleft : State.content i (Lts.last (Lts.last (State.initial ⟨.initial turns, []⟩) pre) xs) =
        Pipe.held maxRecvBuffer (State.content i (Lts.last (State.initial ⟨.initial turns, []⟩) pre))
          (pipeOps i more) := hheld
    rw [hsince, hflat, hleft]
    exact Pipe.whole_iff hroom

/-- A peer that sends five bytes at once, and two more between the two reads. -/
def talking (n : ℕ) : Turn :=
  ⟨if n = 5 then [.tcpConnected 0 errOk, .tcpRecv 0 0 (some [1, 2, 3, 4, 5]) errOk]
    else if n = 14 then [.tcpRecv 0 0 (some [6, 7]) errOk] else [],
    true, true, true, errOk, 0, .failed, some 16777343⟩

/-- The main fiber connects. -/
def connects : List (Act × State Chronicle) :=
  Lts.trace (next chronicled) (State.initial ⟨.initial talking, []⟩)
    [.switchRun, .go, .perform (.net (.tcpConnect "127.0.0.1" 80))]

/-- It goes on when it has been woken, and reads twice. -/
def readsTwice : List (Act × State Chronicle) :=
  Lts.trace (next chronicled) (Lts.last (State.initial ⟨.initial talking, []⟩) connects)
    [.go, .go, .go, .go, .perform (.net (.tcpRead 0)), .go, .perform (.net (.tcpRead 0))]

theorem stream_delivered_talking :
    Delivered 0 (Lts.last (State.initial ⟨.initial talking, []⟩) connects) readsTwice ∧
      Lts.gather (answered 0) (Lts.last (State.initial ⟨.initial talking, []⟩) connects) readsTwice =
        [[1, 2, 3, 4, 5], [6, 7]] :=
  ⟨stream_delivered (a := 0) (Lts.run_accepts Enabled (by decide)) (Lts.run_accepts Enabled (by decide))
    (by decide) ⟨by decide, by decide⟩ ⟨by decide, by decide⟩, by decide⟩

end PicoOcaml.Pio
