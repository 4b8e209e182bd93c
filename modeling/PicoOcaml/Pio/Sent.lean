import PicoOcaml.NetStubs.Frame
import PicoOcaml.NetStubs.Send
import PicoOcaml.OcamlBytes
import PicoOcaml.Pio.Probes
import PicoOcaml.Pio.World

/-! What lwIP is given to send over a connection, in whichever fibers it is written. -/
namespace PicoOcaml.Pio

open NetStubs

/-- The bytes that lwIP has been given for the pcb. -/
def written (pcb : ℕ) (calls : List LwipCall) : Bytes :=
  calls.flatMap fun
    | .tcpWrite p data => if p = pcb then data else []
    | _ => []

/-- What a step writes to the socket with the pcb, if the answer is a count. -/
def accepted (pcb : ℕ) (s : State Network) : Act → List Bytes
  | .perform (.net (.tcpWrite sock data)) =>
    if (s.world.stubs.sock (stubId sock)).pcb = some pcb then
      match (perform network s (.net (.tcpWrite sock data))).mode with
      | .ret (.value _) => [data]
      | _ => []
    else []
  | _ => []

/-- No buffer is longer than OCaml has them. -/
def Act.short : Act → Bool
  | .perform (.net (.tcpWrite _ data)) => data.length ≤ OcamlBytes.maxStringLength
  | _ => true

/-- The part of a buffer that the 16-bit length of `tcp_write` covers. -/
def cut (data : Bytes) : Bytes := data.take (data.length % 2 ^ 16)

/-- What lwIP is given to send by the pcb is the writes that are answered with a count, in their
order, each up to its 16-bit length; nothing is missing exactly if none has more than 65535 bytes. -/
structure Sent (pcb : ℕ) (s : State Network) (xs : List (Act × State Network)) : Prop where
  parts : written pcb (Lts.last s xs).world.stubs.lwip = (Lts.gather (accepted pcb) s xs).flatMap cut
  whole_iff : written pcb (Lts.last s xs).world.stubs.lwip = (Lts.gather (accepted pcb) s xs).flatten ↔
    ∀ data ∈ Lts.gather (accepted pcb) s xs, data.length < 2 ^ 16

/-! ### Calls that write nothing -/

variable {pcb : ℕ} {s t r : Stubs}

theorem written_append (calls calls' : List LwipCall) :
    written pcb (calls ++ calls') = written pcb calls ++ written pcb calls' :=
  List.flatMap_append

/-- lwIP is given nothing more. -/
def Silent (pcb : ℕ) (s t : Stubs) : Prop := written pcb t.lwip = written pcb s.lwip

theorem Silent.refl : Silent pcb s s := rfl

theorem Silent.trans (h : Silent pcb s t) (h' : Silent pcb t r) : Silent pcb s r := Eq.trans h' h

theorem silent_of_eq (h : t.lwip = s.lwip) : Silent pcb s t := congrArg (written pcb) h

theorem Silent.call (h : Silent pcb s t) {c : LwipCall} (hc : written pcb [c] = []) :
    Silent pcb s (t.call c) := by
  rw [Silent, lwip_call, written_append, hc, List.append_nil]
  exact h

theorem lwip_copyToRecvBuf (arg : ℤ) (bytes : Bytes) (mark : Socket → Socket) :
    (copyToRecvBuf s arg bytes mark).2.lwip = s.lwip := by
  simp only [copyToRecvBuf]
  generalize (if bytes.length < _ then _ else _) = c
  split
  · simp
  · rfl

theorem silent_tcpRecvCallback (arg : ℤ) (tpcb : ℕ) (p : Option Bytes) (err : ℤ) :
    Silent pcb s (tcpRecvCallback s arg tpcb p err).2 := by
  cases hid : badId arg with
  | true => exact silent_of_eq (by simp [tcpRecvCallback, hid])
  | false =>
    cases p with
    | none => exact silent_of_eq (by simp [tcpRecvCallback, hid])
    | some bytes =>
      by_cases he : err = errOk
      · have hcopy : Silent pcb s (copyToRecvBuf s arg bytes id).2 :=
          silent_of_eq (lwip_copyToRecvBuf arg bytes id)
        have hcall := hcopy.call (c := .tcpRecved tpcb bytes.length) rfl
        simpa [Silent, tcpRecvCallback, hid, he] using hcall
      · exact silent_of_eq (by simp [tcpRecvCallback, hid, he])

theorem silent_udpRecvCallback (arg : ℤ) (p : Option Bytes) (addr : Word) (port : BitVec 16) :
    Silent pcb s (udpRecvCallback s arg p addr port) := by
  apply silent_of_eq
  cases p with
  | none => rfl
  | some bytes =>
    simp only [udpRecvCallback]
    split
    · rfl
    · exact lwip_copyToRecvBuf arg bytes _

theorem silent_callback (s : Stubs) (c : Callback) : Silent pcb s (c.run s) := by
  cases c with
  | tcpRecv arg tpcb p err => exact silent_tcpRecvCallback arg tpcb p err
  | tcpSent arg len => exact Silent.refl
  | tcpErr arg err =>
    apply silent_of_eq
    simp only [Callback.run, tcpErrCallback, lwip_enqueue]
    split <;> rfl
  | tcpConnected arg err =>
    apply silent_of_eq
    simp only [Callback.run, tcpConnectedCallback, lwip_enqueue]
    split <;> rfl
  | udpRecv arg p addr port => exact silent_udpRecvCallback arg p addr port

theorem silent_callbacks (s : Stubs) (cs : List Callback) : Silent pcb s (cs.foldl Callback.run s) := by
  induction cs generalizing s with
  | nil => exact Silent.refl
  | cons c cs ih => exact (silent_callback s c).trans (ih _)

theorem silent_socketFree (id : ℤ) : Silent pcb s (socketFree s id) := by
  apply silent_of_eq
  simp only [socketFree]
  split
  · rfl
  · cases (s.sock id).recvBuf <;> rfl

theorem silent_picoTcpClose (id : ℤ) : Silent pcb s (picoTcpClose s id) := by
  simp only [picoTcpClose]
  split
  · exact Silent.refl
  · split
    · exact Silent.refl
    · refine Silent.trans ?_ (silent_socketFree id)
      cases (s.sock id).pcb with
      | none => exact Silent.refl
      | some p => exact (Silent.refl.call rfl).call rfl

theorem silent_picoUdpClose (id : ℤ) : Silent pcb s (picoUdpClose s id) := by
  simp only [picoUdpClose]
  split
  · exact Silent.refl
  · split
    · exact Silent.refl
    · refine Silent.trans ?_ (silent_socketFree id)
      cases (s.sock id).pcb with
      | none => exact Silent.refl
      | some p => exact Silent.refl.call rfl

theorem silent_socketAlloc (proto : SocketProto) (mallocOk : Bool) :
    Silent pcb s (socketAlloc s proto mallocOk).2 := by
  apply silent_of_eq
  cases hk : firstClosed s with
  | none => simp [socketAlloc, hk]
  | some k => cases mallocOk <;> simp [socketAlloc, hk, Stubs.malloc]

theorem silent_attachPcb {r : ℤ × Stubs} {f : Socket → Socket} (newOk : Bool) {c : LwipCall}
    (hc : written pcb [c] = []) (hr : Silent pcb s r.2) :
    Silent pcb s (attachPcb r newOk f c).2 := by
  unfold attachPcb
  split
  · exact hr
  · split
    · exact hr.trans (silent_socketFree _)
    · exact Silent.call (t := { r.2 with pcbNext := r.2.pcbNext + 1 }.setSock r.1
        (f (r.2.sock r.1))) hr hc

theorem silent_picoTcpCreate (mallocOk tcpNewOk : Bool) :
    Silent pcb s (picoTcpCreate s mallocOk tcpNewOk).2 := by
  rw [picoTcpCreate_eq]
  exact silent_attachPcb tcpNewOk rfl (silent_socketAlloc .tcp mallocOk)

theorem silent_picoUdpCreate (mallocOk udpNewOk : Bool) :
    Silent pcb s (picoUdpCreate s mallocOk udpNewOk).2 := by
  rw [picoUdpCreate_eq]
  exact silent_attachPcb udpNewOk rfl (silent_socketAlloc .udp mallocOk)

theorem silent_wifiConnect (result : ℤ) : Silent pcb s (wifiConnect s result).2 := by
  apply silent_of_eq
  simp only [wifiConnect, netInit]
  split <;> split <;> rfl

theorem silent_picoTcpConnect (id : ℤ) (ip : Word) (port : BitVec 16) (err : ℤ) :
    Silent pcb s (picoTcpConnect s id ip port err).2 := by
  simp only [picoTcpConnect]
  split
  · exact Silent.refl
  · split
    · exact Silent.call (t := s.setSock id _) Silent.refl rfl
    · exact Silent.refl

theorem silent_picoUdpBind (id : ℤ) (port : BitVec 16) (err : ℤ) :
    Silent pcb s (picoUdpBind s id port err).2 := by
  simp only [picoUdpBind]
  split
  · exact Silent.refl
  · split
    · exact Silent.refl.call rfl
    · exact Silent.refl

theorem silent_picoUdpSendto (id : ℤ) (ip : Word) (port : BitVec 16) (data : Bytes) (len : ℕ)
    (pbufOk : Bool) (err : ℤ) : Silent pcb s (picoUdpSendto s id ip port data len pbufOk err).2 := by
  simp only [picoUdpSendto]
  split
  · exact Silent.refl
  · split
    · split
      · exact Silent.refl
      · split
        · exact Silent.call (t := { s with fault := _ }) Silent.refl rfl
        · exact Silent.refl
    · exact Silent.refl

theorem silent_picoTcpRead (id : ℤ) (maxLen : ℕ) : Silent pcb s (picoTcpRead s id maxLen).2 := by
  apply silent_of_eq
  simp only [picoTcpRead]
  generalize (if (s.sock id).recvLen < maxLen then _ else _) = c
  split
  · rfl
  · split
    · rfl
    · rw [apply_ite Prod.snd, ite_id]
      by_cases hc : c > 0
      · simp only [if_pos hc, lwip_setSock]
        split <;> simp
      · simp only [if_neg hc]

theorem silent_picoUdpRecvfrom (id : ℤ) (maxLen : ℕ) :
    Silent pcb s (picoUdpRecvfrom s id maxLen).2 := by
  apply silent_of_eq
  simp only [picoUdpRecvfrom]
  generalize (if (s.sock id).recvLen < maxLen then _ else _) = c
  repeat' split
  all_goals simp

/-- A write either hands lwIP what its 16-bit length covers, or nothing. -/
theorem picoTcpWrite_cases (s : Stubs) (id : ℤ) (data : Bytes) (len : ℕ) (err : ℤ) :
    (∃ p, (s.sock id).pcb = some p ∧ picoTcpWrite s id data len err =
      (toCInt len, s.call (.tcpWrite p (data.take (len % 2 ^ 16))))) ∨
      picoTcpWrite s id data len err = (-1, s) := by
  by_cases h : ∃ p, TcpReady s id p
  · obtain ⟨p, hp⟩ := h
    rw [picoTcpWrite_ready hp]
    by_cases he : err = errOk
    · rw [if_pos he]
      exact .inl ⟨p, hp.pcb, rfl⟩
    · rw [if_neg he]
      exact .inr rfl
  · exact .inr (picoTcpWrite_guarded (fun p hp => h ⟨p, hp⟩) len err)

/-! ### Steps -/

/-- A call of the network that gives lwIP nothing to send. -/
def Network.Silent (pcb : ℕ) (w w' : Network) : Prop := Pio.Silent pcb w.stubs w'.stubs

theorem silent_dnsResolveRaw (host : String) (w : Network) :
    w.Silent pcb (network.dnsResolveRaw host w).2 := by
  simp only [network, Network.answer]
  cases w.turn.dns with
  | inProgress ip => exact silent_callbacks w.stubs w.turn.callbacks
  | cached ip => exact Silent.refl
  | failed => exact Silent.refl

theorem silent_resolveHost (host : String) (w : Network) :
    w.Silent pcb (resolveHost network host w).2 := by
  have hip : w.Silent pcb (network.ipFromStringRaw host w).2 := Silent.refl
  simp only [resolveHost]
  split
  · split
    · exact hip
    · exact silent_dnsResolveRaw host w
  · exact silent_dnsResolveRaw host w

theorem silent_tcpConnect (h : Handler) (k : ℕ) (ws : List IoWaiter) (host : String) (port : ℤ)
    (w : Network) : w.Silent pcb (handleNetEffect network h k ws w (.tcpConnect host port)).world := by
  have hclose : ∀ sock w, Network.Silent pcb w (network.tcpCloseRaw sock w) :=
    fun _ _ => silent_picoTcpClose _
  have hcreate : w.Silent pcb (network.tcpCreateRaw w).2 := silent_picoTcpCreate _ _
  simp only [handleNetEffect]
  split
  · exact hcreate
  · have hresolve : w.Silent pcb (resolveHost network host (network.tcpCreateRaw w).2).2 :=
      hcreate.trans (silent_resolveHost host _)
    split
    · exact hresolve.trans (hclose _ _)
    · have hconnect : w.Silent pcb (network.tcpConnectRaw (network.tcpCreateRaw w).1
          (resolveHost network host (network.tcpCreateRaw w).2).1 port
          (resolveHost network host (network.tcpCreateRaw w).2).2).2 :=
        hresolve.trans (silent_picoTcpConnect _ _ _ _)
      split
      · exact hconnect.trans (hclose _ _)
      · exact hconnect

/-- A write of no bytes, with which a waiter is polled. -/
theorem silent_probe (sock : ℤ) (data : Bytes) (w : Network) :
    w.Silent pcb (network.tcpWriteRaw sock data 0 w).2 := by
  have hzero : (intVal (ofOcamlInt 0)).toNat = 0 := by decide
  have hstubs : (network.tcpWriteRaw sock data 0 w).2.stubs =
      (picoTcpWrite w.stubs (stubId sock) data 0 w.turn.err).2 := by
    simp only [network, ocamlTcpWrite, hzero]
    rfl
  rw [Network.Silent, Silent, hstubs]
  rcases picoTcpWrite_cases w.stubs (stubId sock) data 0 w.turn.err with ⟨p, -, hw⟩ | hw
  · have hnone : written pcb [.tcpWrite p (data.take (0 % 2 ^ 16))] = [] := by simp [written]
    rw [hw]
    exact Silent.refl.call hnone
  · rw [hw]

/-- Without the writes nothing is sent. -/
theorem unwritten_within (pcb : ℕ) : (curbed network true false).Within (Network.Silent pcb) where
  refl _ := Silent.refl
  trans := Silent.trans
  sleepMs _ _ := Silent.refl
  wifiConnectRaw ssid password timeout w := by
    have hinit : Silent pcb w.stubs (netInit w.stubs) := by
      apply silent_of_eq
      simp only [netInit]
      split <;> rfl
    exact (hinit.trans (silent_callbacks _ w.turn.callbacks)).trans (silent_wifiConnect w.turn.err)
  wifiDisconnectRaw _ := Silent.refl
  wifiGetIpRaw _ := Silent.refl
  tcpConnect h k ws host port w := silent_tcpConnect h k ws host port w
  tcpWriteRaw sock data len w := by
    by_cases hz : len = 0
    · subst hz
      exact silent_probe sock data w
    · simp only [curbed, Bool.false_or, decide_eq_true_eq, if_neg hz]
      exact Silent.refl
  tcpReadRaw _ _ _ := silent_picoTcpRead _ _
  tcpCloseRaw _ _ := silent_picoTcpClose _
  udpCreateRaw _ := silent_picoUdpCreate _ _
  udpBindRaw _ _ _ := silent_picoUdpBind _ _ _
  udpSendtoRaw _ _ _ _ _ _ := silent_picoUdpSendto _ _ _ _ _ _ _
  udpRecvfromRaw _ _ _ := silent_picoUdpRecvfrom _ _
  udpCloseRaw _ _ := silent_picoUdpClose _
  dnsResolveRaw host w := silent_dnsResolveRaw host w
  netPollRaw w := silent_callbacks w.stubs w.turn.callbacks
  lwipServiceRaw w := silent_callbacks w.stubs w.turn.callbacks
  ipFromStringRaw _ _ := Silent.refl

theorem toNat_length {n : ℕ} (h : n ≤ OcamlBytes.maxStringLength) :
    (intVal (ofOcamlInt n)).toNat = n := by
  simp only [OcamlBytes.maxStringLength] at h
  have hint : (intVal (ofOcamlInt n)).toInt = n := by
    rw [toInt_intVal, ofOcamlInt, BitVec.toInt_eq_toNat_cond, BitVec.toNat_ofInt]
    split <;> omega
  rw [BitVec.toInt_eq_toNat_cond] at hint
  split at hint <;> omega

/-- What `Tcp_write` hands to lwIP, and whether its answer is a count. -/
theorem tcpWriteRaw_cases {data : Bytes} (h : data.length ≤ OcamlBytes.maxStringLength) (sock : ℤ)
    (w : Network) :
    let r := network.tcpWriteRaw sock data data.length w
    (r.1 ≥ 0 ∧ ∃ p, (w.stubs.sock (stubId sock)).pcb = some p ∧
      r.2.stubs.lwip = w.stubs.lwip ++ [.tcpWrite p (cut data)]) ∨
    (¬ r.1 ≥ 0 ∧ r.2.stubs.lwip = w.stubs.lwip) := by
  intro r
  have hr : r = w.answer
      (valInt (BitVec.ofInt 32 (picoTcpWrite w.stubs (stubId sock) data data.length w.turn.err).1),
        (picoTcpWrite w.stubs (stubId sock) data data.length w.turn.err).2) := by
    simp only [r, network, ocamlTcpWrite, toNat_length h]
    rfl
  simp only [OcamlBytes.maxStringLength] at h
  rcases picoTcpWrite_cases w.stubs (stubId sock) data data.length w.turn.err with ⟨p, hp, hw⟩ | hw
  · left
    have hint : toCInt data.length = data.length := by
      rcases toCInt_cases data.length with ⟨-, hn⟩ | ⟨hn, -⟩ <;> omega
    have hback : ocamlInt (valInt (BitVec.ofInt 32 (data.length : ℤ))) = data.length :=
      ocamlInt_valInt_ofInt (by omega) (by omega)
    rw [hw, hint] at hr
    rw [hr]
    refine ⟨?_, p, hp, rfl⟩
    simp only [Network.answer, hback]
    omega
  · right
    have hfail : ¬ ocamlInt (valInt (BitVec.ofInt 32 (-1))) ≥ 0 := by decide
    rw [hw] at hr
    rw [hr]
    exact ⟨hfail, rfl⟩

variable {u v : State Network} {a : Act} {xs : List (Act × State Network)}

theorem sent_perform {sock : ℤ} {data : Bytes} (h : data.length ≤ OcamlBytes.maxStringLength) :
    written pcb (perform network u (.net (.tcpWrite sock data))).world.stubs.lwip =
      written pcb u.world.stubs.lwip ++
        (accepted pcb u (.perform (.net (.tcpWrite sock data)))).flatMap cut := by
  cases hsplit : splitHandler u.stack with
  | none =>
    have hnothing : accepted pcb u (.perform (.net (.tcpWrite sock data))) = [] := by
      simp [accepted, perform, hsplit, State.reply]
    rw [hnothing]
    simp [perform, hsplit, State.reply]
  | some split =>
    obtain ⟨segment, hd, rest⟩ := split
    have hservice : ∀ w : Network, written pcb (serviceNetwork network w).stubs.lwip =
        written pcb w.stubs.lwip := fun w => (unwritten_within pcb).serviceNetwork w
    rcases tcpWriteRaw_cases h sock u.world with ⟨hpos, p, hp, hlwip⟩ | ⟨hneg, hlwip⟩
    · simp only [accepted, perform, hsplit, effc, netEffect_eq, handleNetEffect, if_pos hpos,
        State.reply, hservice, hlwip, hp, written_append]
      by_cases hpcb : p = pcb
      · subst hpcb
        simp [written]
      · have hne : ¬ some p = some pcb := fun heq => hpcb (Option.some.inj heq)
        simp [written, hpcb]
    · simp only [accepted, perform, hsplit, effc, netEffect_eq, handleNetEffect, if_neg hneg,
        State.reply, hservice, hlwip]
      simp

theorem sent_step (h : Step network u a v) (hshort : a.short = true) :
    written pcb v.world.stubs.lwip =
      written pcb u.world.stubs.lwip ++ (accepted pcb u a).flatMap cut := by
  by_cases hwrite : ∃ sock data, a = .perform (.net (.tcpWrite sock data))
  · obtain ⟨sock, data, rfl⟩ := hwrite
    rw [h.2]
    exact sent_perform (of_decide_eq_true hshort)
  · have hnothing : accepted pcb u a = [] := by
      cases a with
      | perform eff =>
        cases eff with
        | net e =>
          cases e with
          | tcpWrite sock data => exact absurd ⟨sock, data, rfl⟩ hwrite
          | _ => rfl
        | _ => rfl
      | _ => rfl
    have hcurbed : next (curbed network true false) u a = next network u a := by
      cases a with
      | go => exact go_curbed fun _ _ _ _ _ => rfl
      | perform eff =>
        refine perform_curbed (fun _ _ => rfl) fun sock data heq => ?_
        exact absurd ⟨sock, data, by rw [heq]⟩ hwrite
      | _ => rfl
    have hsilent : u.world.Silent pcb v.world := (unwritten_within pcb).step ⟨h.1, by rw [hcurbed, h.2]⟩
    rw [hnothing, List.flatMap_nil, List.append_nil]
    exact hsilent

/-- The parts together are the whole only if every buffer is covered. -/
theorem flatMap_cut_iff (chunks : List Bytes) :
    chunks.flatMap cut = chunks.flatten ↔ ∀ data ∈ chunks, data.length < 2 ^ 16 := by
  have hle : ∀ chunks : List Bytes, (chunks.flatMap cut).length ≤ chunks.flatten.length := by
    intro chunks
    induction chunks with
    | nil => exact Nat.le_refl 0
    | cons data chunks ih =>
      rw [List.flatMap_cons, List.flatten_cons, List.length_append, List.length_append, cut,
        List.length_take]
      omega
  induction chunks with
  | nil => simp
  | cons data chunks ih =>
    rw [List.flatMap_cons, List.flatten_cons, List.forall_mem_cons]
    constructor
    · intro heq
      have hlen := congrArg List.length heq
      have hrest := hle chunks
      rw [List.length_append, List.length_append, cut, List.length_take] at hlen
      have hshort : data.length < 2 ^ 16 := by omega
      rw [cut, Nat.mod_eq_of_lt hshort, List.take_length] at heq
      exact ⟨hshort, ih.mp (List.append_cancel_left heq)⟩
    · rintro ⟨hshort, hrest⟩
      rw [cut, Nat.mod_eq_of_lt hshort, List.take_length, ih.mpr hrest]

/-- For every connection since power-on, by the pcb that lwIP has for it. -/
theorem stream_sent {turns : ℕ → Turn} (pcb : ℕ)
    (hrun : Lts.Run (Step network) (State.initial (.initial turns)) xs)
    (hshort : Lts.Run (fun _ a _ => a.short = true) (State.initial (Network.initial turns)) xs) :
    Sent pcb (State.initial (.initial turns)) xs := by
  have hall := (Lts.run_and.mpr ⟨hrun, hshort⟩).gathers
    (P := fun chunks u => written pcb u.world.stubs.lwip = chunks.flatMap cut) (l := [])
    (e := accepted pcb) rfl ?_
  · rw [List.nil_append] at hall
    refine ⟨hall, ?_⟩
    rw [hall]
    exact flatMap_cut_iff _
  · intro chunks u a v hu hstep
    rw [sent_step hstep.1 hstep.2, hu, List.flatMap_append]

/-- A peer that is connected at the first poll. -/
def listening (n : ℕ) : Turn :=
  ⟨if n = 5 then [.tcpConnected 0 errOk] else [], true, true, true, errOk, 0, .failed, some 16777343⟩

/-- The main fiber connects, goes on when it has been woken, and writes twice. -/
def writesTwice : List (Act × State Network) :=
  Lts.trace (next network) (State.initial (.initial listening))
    [.switchRun, .go, .perform (.net (.tcpConnect "127.0.0.1" 80)), .go, .go, .go, .go,
      .perform (.net (.tcpWrite 0 [1, 2])), .go, .perform (.net (.tcpWrite 0 [3]))]

theorem stream_sent_writesTwice : Sent 0 (State.initial (.initial listening)) writesTwice ∧
    Lts.gather (accepted 0) (State.initial (.initial listening)) writesTwice = [[1, 2], [3]] :=
  ⟨stream_sent 0 (Lts.run_accepts Enabled (by decide))
    ((Lts.run_accepts (fun _ a => a.short) (by decide)).imp fun _ _ _ h => h.1), by decide⟩

end PicoOcaml.Pio
