import PicoOcaml.NetStubs.SlotStates
import PicoOcaml.Pio.Chronicle

/-! What becomes of a slot that is worked on alone, from its creation to its release. -/
namespace PicoOcaml.Pio

open NetStubs

/-- The pcbs that the calls hand to `tcp_close`. -/
def closes (calls : List LwipCall) : List ℕ :=
  calls.filterMap fun
    | .tcpClose pcb => some pcb
    | _ => none

/-- lwIP has released the pcb of slot `i`. -/
def Errored (i : ℤ) (past : List Happening) : Prop := ∃ err, .callback (.tcpErr i err) ∈ past

def Closed (past : List Happening) : Prop := ∃ sock, .call (.tcpClose sock) ∈ past

variable {base s t : Stubs} {i : ℤ} {past added : List Happening}

/-- The slot has the buffer and the pcb that were new in `base`, unless lwIP has released the pcb. -/
structure Opened (base : Stubs) (i : ℤ) (past : List Happening) (s : Stubs) : Prop where
  buffer : (s.sock i).recvBuf = some base.heapNext
  block : ∃ bytes, s.heap base.heapNext = some bytes ∧ (s.sock i).recvCapacity ≤ bytes.length
  room : (s.sock i).recvLen ≤ (s.sock i).recvCapacity
  pcb : (Errored i past ∧ (s.sock i).pcb = none) ∨
    (¬ Errored i past ∧ (s.sock i).pcb = some base.pcbNext)
  lwip : ∃ more, s.lwip = base.lwip ++ more ∧ closes more = []

/-- Since `base`, lwIP has been asked to close the new pcb, once, and no other, or nothing if it had
released the pcb itself. -/
def Released (base : Stubs) (i : ℤ) (past : List Happening) (calls : List LwipCall) : Prop :=
  ∃ more, calls = base.lwip ++ more ∧
    ((Errored i past ∧ closes more = []) ∨ (¬ Errored i past ∧ closes more = [base.pcbNext]))

/-- The slot is free, its buffer is no longer live, and lwIP was asked to close the pcb that it had
not released itself. -/
structure Freed (base : Stubs) (i : ℤ) (past : List Happening) (s : Stubs) : Prop where
  state : (s.sock i).state = .closed
  buffer : (s.sock i).recvBuf = none
  pcb : (s.sock i).pcb = none
  block : s.heap base.heapNext = none
  lwip : Released base i past s.lwip

/-- What holds after the happenings `past` that followed the creation of the socket over `base`. -/
structure Tended (base : Stubs) (i : ℤ) (past : List Happening) (s : Stubs) : Prop where
  others : ∀ n ≠ i.toNat, s.sockets n = base.sockets n
  heap : ∀ a ≠ base.heapNext, s.heap a = base.heap a
  fault : s.fault = base.fault
  initialized : base.netInitialized = true → s.netInitialized = true
  proto : (s.sock i).proto = .tcp
  slot : (¬ Closed past ∧ Opened base i past s) ∨ (Closed past ∧ Freed base i past s)

/-! ### Steps that leave the slot -/

theorem closes_append (l l' : List LwipCall) : closes (l ++ l') = closes l ++ closes l' :=
  List.filterMap_append

/-- The table and the heap are as before, and lwIP has not been asked to close anything. -/
structure Untouched (s t : Stubs) : Prop where
  sockets : t.sockets = s.sockets
  heap : t.heap = s.heap
  fault : t.fault = s.fault
  initialized : s.netInitialized = true → t.netInitialized = true
  lwip : ∃ more, t.lwip = s.lwip ++ more ∧ closes more = []

theorem Untouched.refl : Untouched s s := ⟨rfl, rfl, rfl, id, [], (List.append_nil _).symm, rfl⟩

theorem untouched_call {c : LwipCall} (hc : closes [c] = []) : Untouched s (s.call c) :=
  ⟨rfl, rfl, rfl, id, [c], rfl, hc⟩

theorem Untouched.enqueue (h : Untouched s t) (e : NetEvent) : Untouched s (t.enqueue e) :=
  ⟨h.sockets, h.heap, h.fault, h.initialized, h.lwip⟩

theorem Untouched.extend (h : Untouched s t) {calls : List LwipCall}
    (hlwip : ∃ more, s.lwip = calls ++ more ∧ closes more = []) :
    ∃ more, t.lwip = calls ++ more ∧ closes more = [] := by
  obtain ⟨more, hs, hnone⟩ := hlwip
  obtain ⟨more', ht, hnone'⟩ := h.lwip
  exact ⟨more ++ more', by rw [ht, hs, List.append_assoc], by rw [closes_append, hnone, hnone']; rfl⟩

theorem Untouched.sock (h : Untouched s t) : t.sock i = s.sock i := congrFun h.sockets i.toNat

theorem Opened.untouched (h : Opened base i past s) (hu : Untouched s t) : Opened base i past t := by
  refine ⟨?_, ?_, ?_, ?_, hu.extend h.lwip⟩
  · rw [hu.sock]
    exact h.buffer
  · rw [hu.sock, hu.heap]
    exact h.block
  · rw [hu.sock]
    exact h.room
  · rw [hu.sock]
    exact h.pcb

theorem Freed.untouched (h : Freed base i past s) (hu : Untouched s t) : Freed base i past t := by
  obtain ⟨more, hs, hmore⟩ := h.lwip
  obtain ⟨more', ht, hnone⟩ := hu.lwip
  refine ⟨?_, ?_, ?_, ?_, more ++ more', ?_, ?_⟩
  · rw [hu.sock]
    exact h.state
  · rw [hu.sock]
    exact h.buffer
  · rw [hu.sock]
    exact h.pcb
  · rw [hu.heap]
    exact h.block
  · rw [ht, hs, List.append_assoc]
  · rw [closes_append, hnone, List.append_nil]
    exact hmore

theorem Tended.untouched (h : Tended base i past s) (hu : Untouched s t) : Tended base i past t := by
  refine ⟨?_, ?_, hu.fault.trans h.fault, fun hb => hu.initialized (h.initialized hb), ?_, ?_⟩
  · rw [hu.sockets]
    exact h.others
  · rw [hu.heap]
    exact h.heap
  · rw [hu.sock]
    exact h.proto
  · rcases h.slot with ⟨hopen, hslot⟩ | ⟨hclosed, hslot⟩
    · exact Or.inl ⟨hopen, hslot.untouched hu⟩
    · exact Or.inr ⟨hclosed, hslot.untouched hu⟩

theorem Released.congr {past' : List Happening} {calls : List LwipCall}
    (h : Released base i past calls) (herr : Errored i past' ↔ Errored i past) :
    Released base i past' calls := by
  obtain ⟨more, hlwip, hmore⟩ := h
  exact ⟨more, hlwip, by rw [herr]; exact hmore⟩

/-- Nothing that closes the slot or releases its pcb. -/
def Neutral (i : ℤ) (added : List Happening) : Prop := ¬ Errored i added ∧ ¬ Closed added

theorem errored_append : Errored i (past ++ added) ↔ Errored i past ∨ Errored i added := by
  simp only [Errored, List.mem_append, exists_or]

theorem closed_append : Closed (past ++ added) ↔ Closed past ∨ Closed added := by
  simp only [Closed, List.mem_append, exists_or]

theorem Tended.later (h : Tended base i past s) (hn : Neutral i added) :
    Tended base i (past ++ added) s := by
  have herr : Errored i (past ++ added) ↔ Errored i past := by
    rw [errored_append, or_iff_left hn.1]
  have hclosed : Closed (past ++ added) ↔ Closed past := by
    rw [closed_append, or_iff_left hn.2]
  refine ⟨h.others, h.heap, h.fault, h.initialized, h.proto, ?_⟩
  rw [hclosed]
  rcases h.slot with ⟨hopen, hslot⟩ | ⟨hc, hslot⟩
  · refine Or.inl ⟨hopen, hslot.buffer, hslot.block, hslot.room, ?_, hslot.lwip⟩
    rw [herr]
    exact hslot.pcb
  · exact Or.inr ⟨hc, hslot.state, hslot.buffer, hslot.pcb, hslot.block, hslot.lwip.congr herr⟩

/-! ### Callbacks for the slot -/

/-- A change of the slot that keeps its buffer. -/
theorem Tended.setSock (h : Tended base i past s) (hopen : Opened base i past s)
    (hnot : ¬ Closed past) (sock : Socket) (added : List Happening)
    (hproto : sock.proto = (s.sock i).proto)
    (hbuf : sock.recvBuf = (s.sock i).recvBuf) (hcap : sock.recvCapacity = (s.sock i).recvCapacity)
    (hroom : sock.recvLen ≤ sock.recvCapacity)
    (hpcb : (Errored i added ∧ sock.pcb = none) ∨ (¬ Errored i added ∧ sock.pcb = (s.sock i).pcb))
    (hclose : ¬ Closed added) : Tended base i (past ++ added) (s.setSock i sock) := by
  have hself := sock_setSock_self s i sock
  have herr : Errored i (past ++ added) ↔ Errored i past ∨ Errored i added := errored_append
  refine ⟨?_, h.heap, h.fault, h.initialized, ?_, Or.inl ⟨?_, ?_, ?_, ?_, ?_, hopen.lwip⟩⟩
  · intro n hn
    rw [← h.others n hn]
    exact Function.update_of_ne hn _ _
  · rw [hself, hproto]
    exact h.proto
  · rw [closed_append]
    exact not_or.mpr ⟨hnot, hclose⟩
  · rw [hself, hbuf]
    exact hopen.buffer
  · rw [hself, hcap]
    exact hopen.block
  · rw [hself]
    exact hroom
  · rw [hself, herr]
    rcases hpcb with ⟨he, hp⟩ | ⟨he, hp⟩
    · exact Or.inl ⟨Or.inr he, hp⟩
    · rw [or_iff_left he, hp]
      exact hopen.pcb

theorem Tended.opened (h : Tended base i past s) (hnot : ¬ Closed past) : Opened base i past s := by
  rcases h.slot with ⟨-, hslot⟩ | ⟨hc, -⟩
  · exact hslot
  · exact absurd hc hnot

theorem not_errored_callback {c : Callback} (hc : ∀ arg err, c ≠ .tcpErr arg err) :
    ¬ Errored i [.callback c] := by
  rintro ⟨err, hmem⟩
  rw [List.mem_singleton, Happening.callback.injEq] at hmem
  exact hc i err hmem.symm

theorem not_closed_callback {c : Callback} : ¬ Closed [.callback c] := by
  rintro ⟨sock, hmem⟩
  cases List.mem_singleton.mp hmem

theorem neutral_callback {c : Callback} (hc : ∀ arg err, c ≠ .tcpErr arg err) :
    Neutral i [.callback c] := ⟨not_errored_callback hc, not_closed_callback⟩

theorem touch_of_inBlock {p : Option ℕ} {off len : ℕ} (h : s.inBlock p off len = true) :
    s.touch p off len = s := by
  simp [Stubs.touch, h]

theorem Tended.store (h : Tended base i past s) (hnot : ¬ Closed past) (off : ℕ)
    (data : NetStubs.Bytes) {block : NetStubs.Bytes} (hblock : s.heap base.heapNext = some block)
    (hfit : off + data.length ≤ block.length)
    (hcap : (s.sock i).recvCapacity ≤ block.length) :
    Tended base i past (s.store (some base.heapNext) off data) := by
  have hopen := h.opened hnot
  refine ⟨h.others, ?_, h.fault, h.initialized, h.proto,
    Or.inl ⟨hnot, hopen.buffer, ?_, hopen.room, hopen.pcb, hopen.lwip⟩⟩
  · intro a ha
    rw [← h.heap a ha]
    exact Function.update_of_ne ha _ _
  · refine ⟨_, heap_store s off data hblock, ?_⟩
    simp only [sock_store, List.length_append, List.length_take, List.length_drop]
    omega

/-- Received bytes go to the buffer, as far as there is room. -/
theorem Tended.copyToRecvBuf (h : Tended base i past s) (hnot : ¬ Closed past)
    (bytes : NetStubs.Bytes) : Tended base i past (copyToRecvBuf s i bytes id).2 := by
  have hopen := h.opened hnot
  obtain ⟨block, hblock, hcap⟩ := hopen.block
  have hroom := hopen.room
  have hfit : (if bytes.length < (s.sock i).recvCapacity - (s.sock i).recvLen then bytes.length
      else (s.sock i).recvCapacity - (s.sock i).recvLen) ≤
        (s.sock i).recvCapacity - (s.sock i).recvLen := by
    split <;> omega
  simp only [NetStubs.copyToRecvBuf]
  generalize (if bytes.length < (s.sock i).recvCapacity - (s.sock i).recvLen then bytes.length
      else (s.sock i).recvCapacity - (s.sock i).recvLen) = toCopy at hfit ⊢
  by_cases hpos : toCopy > 0
  · rw [if_pos hpos]
    have hin : s.inBlock (some base.heapNext) (s.sock i).recvLen toCopy = true := by
      simp only [Stubs.inBlock, Option.bind_some, hblock, decide_eq_true_eq]
      omega
    have hstored := h.store hnot (s.sock i).recvLen (bytes.take toCopy) hblock
      (by simp only [List.length_take]; omega) hcap
    have hset := hstored.setSock (hstored.opened hnot) hnot
      { s.sock i with recvLen := (s.sock i).recvLen + toCopy } []
      (by simp) (by simp) (by simp) (by simp only; omega) (Or.inr ⟨by simp [Errored], by simp⟩)
      (by simp [Closed])
    have heq : (s.touch (s.sock i).recvBuf (s.sock i).recvLen toCopy).store (s.sock i).recvBuf
        (s.sock i).recvLen (bytes.take toCopy) =
          s.store (some base.heapNext) (s.sock i).recvLen (bytes.take toCopy) := by
      rw [hopen.buffer, touch_of_inBlock hin]
    rw [heq]
    rw [List.append_nil] at hset
    exact hset
  · rw [if_neg hpos]
    exact h

theorem Tended.callback (h : Tended base i past s) (hnot : ¬ Closed past) (hi : badId i = false)
    {c : Callback} (hc : c.Own i) : Tended base i (past ++ [.callback c]) (c.run s) := by
  have hopen := h.opened hnot
  cases c with
  | tcpRecv arg tpcb p err =>
    obtain rfl : arg = i := hc
    have hn : Neutral arg [.callback (.tcpRecv arg tpcb p err)] := neutral_callback (by simp)
    simp only [Callback.run, tcpRecvCallback, hi, Bool.false_eq_true, if_false]
    cases p with
    | none =>
      have hset := h.setSock hopen hnot { s.sock arg with state := .closed }
        [.callback (.tcpRecv arg tpcb none err)] rfl rfl rfl hopen.room
        (Or.inr ⟨hn.1, rfl⟩) hn.2
      exact hset.untouched (Untouched.refl.enqueue _)
    | some bytes =>
      simp only
      split
      · exact h.later hn
      · have hcopy := (h.copyToRecvBuf hnot bytes).later hn
        exact hcopy.untouched ((untouched_call rfl).enqueue _)
  | tcpSent arg len =>
    exact (h.later (neutral_callback (by simp))).untouched (Untouched.refl.enqueue _)
  | tcpErr arg err =>
    obtain rfl : arg = i := hc
    simp only [Callback.run, tcpErrCallback, hi, Bool.false_eq_true, if_false]
    have hset := h.setSock hopen hnot { s.sock arg with state := .error, pcb := none }
      [.callback (.tcpErr arg err)] rfl rfl rfl hopen.room
      (Or.inl ⟨⟨err, List.mem_singleton_self _⟩, rfl⟩) not_closed_callback
    exact hset.untouched (Untouched.refl.enqueue _)
  | tcpConnected arg err =>
    obtain rfl : arg = i := hc
    have hn : Neutral arg [.callback (.tcpConnected arg err)] := neutral_callback (by simp)
    simp only [Callback.run, tcpConnectedCallback, hi, Bool.false_eq_true, if_false]
    have hset := h.setSock hopen hnot
      { s.sock arg with state := if err = errOk then .connected else .error }
      [.callback (.tcpConnected arg err)] rfl rfl rfl hopen.room
      (Or.inr ⟨hn.1, rfl⟩) hn.2
    exact hset.untouched (Untouched.refl.enqueue _)
  | udpRecv arg p addr port => cases hc

theorem Tended.callbacks (h : Tended base i past s) (hnot : ¬ Closed past) (hi : badId i = false)
    {cs : List Callback} (hcs : ∀ c ∈ cs, c.Own i) :
    Tended base i (past ++ cs.map .callback) (cs.foldl Callback.run s) := by
  induction cs generalizing past s with
  | nil => simpa using h
  | cons c cs ih =>
    have hstep := h.callback hnot hi (hcs c List.mem_cons_self)
    have hnot' : ¬ Closed (past ++ [.callback c]) := by
      rw [closed_append]
      exact not_or.mpr ⟨hnot, not_closed_callback⟩
    have hrest := ih hstep hnot' fun c' hc' => hcs c' (List.mem_cons_of_mem _ hc')
    rw [List.append_assoc, List.singleton_append] at hrest
    exact hrest

/-! ### Calls for the slot -/

theorem neutral_call {c : RawCall} (hc : ∀ sock, c ≠ .tcpClose sock) : Neutral i [.call c] := by
  constructor
  · rintro ⟨err, hmem⟩
    cases List.mem_singleton.mp hmem
  · rintro ⟨sock, hmem⟩
    rw [List.mem_singleton, Happening.call.injEq] at hmem
    exact hc sock hmem.symm

theorem untouched_picoTcpWrite (id : ℤ) (data : NetStubs.Bytes) (len : ℕ) (err : ℤ) :
    Untouched s (picoTcpWrite s id data len err).2 := by
  simp only [picoTcpWrite]
  repeat' split
  all_goals first | exact .refl | exact untouched_call rfl

theorem untouched_wifiConnect (h : s.netInitialized = true) (result : ℤ) :
    Untouched s (wifiConnect s result).2 := by
  have hdone : netInit s = s := if_pos h
  simp only [wifiConnect, hdone]
  split
  · exact Untouched.refl.enqueue _
  · exact .refl

theorem Tended.connect (h : Tended base i past s) (hi : badId i = false) (ip : Word)
    (port : BitVec 16) (err : ℤ) : Tended base i past (picoTcpConnect s i ip port err).2 := by
  simp only [picoTcpConnect, hi, Bool.false_eq_true, if_false]
  split
  · next pcb _ hpcb =>
    rcases h.slot with ⟨hnot, hopen⟩ | ⟨-, hfreed⟩
    · have hset := h.setSock hopen hnot { s.sock i with state := .connecting } [] rfl rfl rfl
        hopen.room (Or.inr ⟨by simp [Errored], rfl⟩) (by simp [Closed])
      rw [List.append_nil] at hset
      exact hset.untouched (untouched_call rfl)
    · rw [hfreed.pcb] at hpcb
      cases hpcb
  · exact h

theorem Tended.buffer (h : Tended base i past s) :
    ((s.sock i).recvBuf = some base.heapNext ∧ ∃ bytes, s.heap base.heapNext = some bytes) ∨
      ((s.sock i).recvBuf = none ∧ s.heap base.heapNext = none) := by
  rcases h.slot with ⟨-, hopen⟩ | ⟨-, hfreed⟩
  · obtain ⟨bytes, hbytes, -⟩ := hopen.block
    exact Or.inl ⟨hopen.buffer, bytes, hbytes⟩
  · exact Or.inr ⟨hfreed.buffer, hfreed.block⟩

/-- `socket_free` frees the buffer if the slot still has it. -/
theorem Tended.free (h : Tended base i past s) (hi : badId i = false) {calls : List LwipCall}
    {past' : List Happening} (hclosed : Closed past') (hcalls : Released base i past' calls) :
    Tended base i past' (socketFree { s with lwip := calls } i) := by
  have hother (u : Stubs) (sock : Socket) (hu : u.sockets = s.sockets) :
      ∀ n ≠ i.toNat, (u.setSock i sock).sockets n = base.sockets n := by
    intro n hn
    rw [← h.others n hn, ← hu]
    exact Function.update_of_ne hn _ _
  have hfreed (u : Stubs) (hu : u.lwip = calls) (hgone : u.heap base.heapNext = none) :
      Freed base i past' (u.setSock i
        { s.sock i with recvBuf := none, state := .closed, pcb := none }) := by
    refine ⟨?_, ?_, ?_, hgone, hu.symm ▸ hcalls⟩
    · rw [sock_setSock_self]
    · rw [sock_setSock_self]
    · rw [sock_setSock_self]
  have hproto (u : Stubs) : ((u.setSock i
      { s.sock i with recvBuf := none, state := .closed, pcb := none }).sock i).proto = .tcp := by
    rw [sock_setSock_self]
    exact h.proto
  have hsock : ({ s with lwip := calls } : Stubs).sock i = s.sock i := rfl
  simp only [socketFree, hi, Bool.false_eq_true, if_false, hsock]
  rcases h.buffer with ⟨hbuf, bytes, hbytes⟩ | ⟨hbuf, hgone⟩
  · rw [hbuf]
    refine ⟨hother _ _ rfl, ?_, ?_, h.initialized, hproto _, Or.inr ⟨hclosed, hfreed _ rfl ?_⟩⟩
    · intro a ha
      rw [← h.heap a ha]
      exact Function.update_of_ne ha _ _
    · simp [Stubs.setSock, Stubs.free, hbytes, h.fault]
    · simp [Stubs.free]
  · rw [hbuf]
    exact ⟨hother _ _ rfl, h.heap, h.fault, h.initialized, hproto _,
      Or.inr ⟨hclosed, hfreed _ rfl hgone⟩⟩

/-- The calls with which `pico_tcp_close` lets the pcb of a slot go. -/
def pcbCalls : Option ℕ → List LwipCall
  | some pcb => [.tcpArg pcb none, .tcpClose pcb]
  | none => []

theorem picoTcpClose_eq (hi : badId i = false) (hproto : (s.sock i).proto = .tcp) :
    picoTcpClose s i = socketFree { s with lwip := s.lwip ++ pcbCalls (s.sock i).pcb } i := by
  have hp : ¬ (s.sock i).proto ≠ .tcp := not_not.mpr hproto
  simp only [picoTcpClose, hi, Bool.false_eq_true, if_false, if_neg hp]
  cases (s.sock i).pcb with
  | none => simp only [pcbCalls, List.append_nil]
  | some pcb => simp only [pcbCalls, Stubs.call, List.append_assoc, List.singleton_append]

/-- Together the calls of lwIP so far and those of the close have closed the new pcb, unless lwIP has
released it. -/
theorem Tended.closes (h : Tended base i past s) :
    Released base i past (s.lwip ++ pcbCalls (s.sock i).pcb) := by
  rcases h.slot with ⟨-, hopen⟩ | ⟨-, hfreed⟩
  · obtain ⟨more, hlwip, hnone⟩ := hopen.lwip
    refine ⟨more ++ pcbCalls (s.sock i).pcb, by rw [hlwip, List.append_assoc], ?_⟩
    rw [closes_append, hnone, List.nil_append]
    rcases hopen.pcb with ⟨he, hp⟩ | ⟨he, hp⟩
    · exact Or.inl ⟨he, by rw [hp]; rfl⟩
    · exact Or.inr ⟨he, by rw [hp]; rfl⟩
  · obtain ⟨more, hlwip, hmore⟩ := hfreed.lwip
    refine ⟨more, ?_, hmore⟩
    rw [hfreed.pcb, pcbCalls, List.append_nil, hlwip]

/-- The close frees the slot, whatever has become of the connection. -/
theorem Tended.close (h : Tended base i past s) (hi : badId i = false) (sock : ℤ) :
    Tended base i (past ++ [.call (.tcpClose sock)]) (picoTcpClose s i) := by
  have herr : Errored i (past ++ [.call (.tcpClose sock)]) ↔ Errored i past := by
    rw [errored_append, or_iff_left]
    rintro ⟨err, hmem⟩
    cases List.mem_singleton.mp hmem
  have hclosed : Closed (past ++ [.call (.tcpClose sock)]) :=
    closed_append.mpr (Or.inr ⟨sock, List.mem_singleton_self _⟩)
  rw [picoTcpClose_eq hi h.proto]
  exact h.free hi hclosed (h.closes.congr herr)

/-! ### The creation -/

variable {k : ℕ}

/-- A slot, a buffer and a pcb. -/
theorem tended_create (hk : firstClosed s = some k) :
    (picoTcpCreate s true true).1 = k ∧ Tended s k [] (picoTcpCreate s true true).2 := by
  have hpos : ¬ ((k : ℤ) < 0) := by omega
  have hslot : ((picoTcpCreate s true true).2.sock k) = { Socket.zero with
      recvBuf := some s.heapNext, recvCapacity := maxRecvBuffer, pcb := some s.pcbNext } := by
    simp [picoTcpCreate, socketAlloc, hk, Stubs.malloc, hpos, Stubs.setSock, Stubs.sock, Stubs.call,
      Socket.zero]
  have hheap : (picoTcpCreate s true true).2.heap =
      Function.update s.heap s.heapNext (some (List.replicate maxRecvBuffer 0)) := by
    simp [picoTcpCreate, socketAlloc, hk, Stubs.malloc, hpos]
  have hlwip : (picoTcpCreate s true true).2.lwip = s.lwip ++ [.tcpArg s.pcbNext (some (k : ℤ))] := by
    simp [picoTcpCreate, socketAlloc, hk, Stubs.malloc, hpos, Stubs.setSock]
  refine ⟨by simp [picoTcpCreate, socketAlloc, hk, Stubs.malloc, hpos], ?_, ?_, ?_, ?_, ?_,
    Or.inl ⟨by simp [Closed], ?_, ?_, ?_, Or.inr ⟨by simp [Errored], ?_⟩, ?_⟩⟩
  · intro n hn
    have hne : n ≠ k := by simpa using hn
    simp [picoTcpCreate, socketAlloc, hk, Stubs.malloc, hpos, Stubs.setSock, Stubs.call, hne]
  · intro a ha
    rw [hheap]
    exact Function.update_of_ne ha _ _
  · simp [picoTcpCreate, socketAlloc, hk, Stubs.malloc, hpos, Stubs.setSock, Stubs.call]
  · simp [picoTcpCreate, socketAlloc, hk, Stubs.malloc, hpos, Stubs.setSock, Stubs.call]
  · rw [hslot]
    rfl
  · rw [hslot]
  · exact ⟨_, by rw [hheap, Function.update_self], by rw [hslot, List.length_replicate]⟩
  · rw [hslot]
    exact Nat.zero_le _
  · rw [hslot]
  · exact ⟨_, hlwip, rfl⟩

/-- What a create that fails leaves of the table and of the heap. -/
structure Undone (s t : Stubs) : Prop where
  others : ∀ n, firstClosed s ≠ some n → t.sockets n = s.sockets n
  heap : ∀ a ≠ s.heapNext, t.heap a = s.heap a
  fault : t.fault = s.fault
  slot : ∀ n, firstClosed s = some n → (t.sockets n).state = .closed ∧
    (t.sockets n).recvBuf = none ∧ (t.sockets n).pcb = none
  lwip : t.lwip = s.lwip

/-- Without a slot, without memory or without a pcb, a create gives back what it took. -/
theorem picoTcpCreate_undone {mallocOk newOk : Bool}
    (h : firstClosed s = none ∨ mallocOk = false ∨ newOk = false) :
    Undone s (picoTcpCreate s mallocOk newOk).2 ∧
      (firstClosed s ≠ none → mallocOk = true →
        (picoTcpCreate s mallocOk newOk).2.heap s.heapNext = none) := by
  cases hk : firstClosed s with
  | none =>
    rw [picoTcpCreate_full hk]
    exact ⟨⟨by simp, by simp, rfl, by simp [hk], rfl⟩, by simp⟩
  | some k =>
    have hpos : ¬ ((k : ℤ) < 0) := by omega
    have hvalid := firstClosed_valid hk
    cases mallocOk with
    | false =>
      have hcreate : (picoTcpCreate s false newOk).2 = s.setSock k { Socket.zero with
          recvCapacity := maxRecvBuffer } := by
        simp [picoTcpCreate, socketAlloc, hk, Stubs.malloc, Socket.zero]
      rw [hcreate]
      refine ⟨⟨?_, by simp, rfl, ?_, rfl⟩, by simp⟩
      · intro n hn
        have hne : n ≠ k := fun he => hn (he ▸ hk)
        exact Function.update_of_ne (by simpa using hne) _ _
      · intro n hn
        obtain rfl := Option.some.inj (hk.symm.trans hn)
        simp [Stubs.setSock, Socket.zero]
    | true =>
      have hnew : newOk = false := by simpa [hk] using h
      subst hnew
      have hcreate : (picoTcpCreate s true false).2 = socketFree
          (({ s with
            heap := Function.update s.heap s.heapNext (some (List.replicate maxRecvBuffer 0))
            heapNext := s.heapNext + 1 } : Stubs).setSock k { Socket.zero with
              recvBuf := some s.heapNext, recvCapacity := maxRecvBuffer }) k := by
        simp [picoTcpCreate, socketAlloc, hk, Stubs.malloc, hpos, Socket.zero]
      rw [hcreate]
      simp only [socketFree, hvalid, Bool.false_eq_true, if_false, sock_setSock_self]
      refine ⟨⟨?_, ?_, ?_, ?_, rfl⟩, ?_⟩
      · intro n hn
        have hne : n ≠ k := fun he => hn (he ▸ hk)
        simp [Stubs.setSock, Stubs.free, hne]
      · intro a ha
        simp [Stubs.setSock, Stubs.free, ha]
      · simp [Stubs.setSock, Stubs.free]
      · intro n hn
        obtain rfl := Option.some.inj (hk.symm.trans hn)
        simp [Stubs.setSock]
      · intro _ _
        simp [Stubs.setSock, Stubs.free]

/-! ### The externals -/

/-- What happens between the two worlds keeps the slot tended, if nothing else is worked on. -/
def Chronicle.Tends (base : Stubs) (i : ℤ) (w w' : Chronicle) : Prop :=
  ∃ added, w'.log = w.log ++ added ∧ ∀ past, Tended base i past w.net.stubs →
    Undisturbed i base.netInitialized (past ++ added) → Tended base i (past ++ added) w'.net.stubs

namespace Chronicle

variable {u v w : Chronicle} {c : RawCall} {net : Network}

theorem Tends.refl : Tends base i w w := by
  refine ⟨[], (List.append_nil _).symm, ?_⟩
  intro past h _
  rwa [List.append_nil]

theorem Tends.trans (h : Tends base i u v) (h' : Tends base i v w) : Tends base i u w := by
  obtain ⟨added, hlog, hstep⟩ := h
  obtain ⟨added', hlog', hstep'⟩ := h'
  refine ⟨added ++ added', by rw [hlog', hlog, List.append_assoc], ?_⟩
  intro past hpast hun
  rw [← List.append_assoc] at hun ⊢
  exact hstep' _ (hstep past hpast hun.left) hun

theorem tends_keep (hu : Untouched w.net.stubs net.stubs) (hc : ∀ sock, c ≠ .tcpClose sock) :
    Tends base i w (w.keep c net) := by
  refine ⟨[.call c], rfl, ?_⟩
  intro past h _
  exact (h.later (neutral_call hc)).untouched hu

/-- A call that is not one for the slot. -/
theorem tends_foreign (hc : ¬ c.Own i base.netInitialized) : Tends base i w (w.keep c net) := by
  refine ⟨[.call c], rfl, ?_⟩
  intro past _ hun
  exact absurd (hun.calls c (List.mem_append_right _ (List.mem_singleton_self _))) hc

theorem tends_poll (hi : badId i = false) (hc : ∀ sock, c ≠ .tcpClose sock)
    (hnet : c.Own i base.netInitialized →
      (base.netInitialized = true → w.net.stubs.netInitialized = true) →
      (base.netInitialized = true → (w.net.callbacks w.net.stubs).netInitialized = true) →
      Untouched (w.net.callbacks w.net.stubs) net.stubs) :
    Tends base i w (w.poll c net) := by
  refine ⟨.call c :: w.net.turn.callbacks.map .callback, rfl, ?_⟩
  intro past h hun
  have hown := hun.calls c (List.mem_append_right _ List.mem_cons_self)
  have hlater := h.later (neutral_call hc)
  have hcs : ∀ d ∈ w.net.turn.callbacks, d.Own i := fun d hd =>
    hun.callbacks d (List.mem_append_right _ (List.mem_cons_of_mem _ (List.mem_map_of_mem hd)))
  have hall : Tended base i ((past ++ [.call c]) ++ w.net.turn.callbacks.map .callback)
      (w.net.callbacks w.net.stubs) := by
    by_cases hclosed : Closed past
    · -- no callback is left for a slot that has been closed
      have hnil : w.net.turn.callbacks = [] := by
        obtain ⟨sock, hsock⟩ := hclosed
        obtain ⟨before, after, rfl⟩ := List.append_of_mem hsock
        apply List.eq_nil_iff_forall_not_mem.mpr
        intro d hd
        refine hun.closed before (after ++ .call c :: w.net.turn.callbacks.map .callback) sock
          (by simp) d ?_
        exact List.mem_append_right _ (List.mem_cons_of_mem _ (List.mem_map_of_mem hd))
      simpa [hnil, Network.callbacks] using hlater
    · refine hlater.callbacks ?_ hi hcs
      rw [closed_append]
      exact not_or.mpr ⟨hclosed, (neutral_call (i := i) hc).2⟩
  rw [List.append_assoc, List.singleton_append] at hall
  exact hall.untouched (hnet hown h.initialized hall.initialized)

theorem tends_service (hi : badId i = false) (hc : ∀ sock, c ≠ .tcpClose sock)
    (hnet : net.stubs = w.net.callbacks w.net.stubs) : Tends base i w (w.poll c net) := by
  refine tends_poll hi hc ?_
  intro _ _ _
  rw [hnet]
  exact .refl

theorem tends_tcpConnectRaw (hi : badId i = false) (sock ip port : ℤ) (w : Chronicle) :
    Tends base i w (chronicled.tcpConnectRaw sock ip port w).2 := by
  refine ⟨[.call (.tcpConnect sock ip port)], rfl, ?_⟩
  intro past h hun
  obtain rfl : stubId sock = i :=
    hun.calls _ (List.mem_append_right _ (List.mem_singleton_self _))
  exact (h.later (neutral_call (by simp))).connect hi _ _ _

theorem tends_tcpCloseRaw (base : Stubs) (hi : badId i = false) (sock : ℤ) (w : Chronicle) :
    Tends base i w (chronicled.tcpCloseRaw sock w) := by
  refine ⟨[.call (.tcpClose sock)], rfl, ?_⟩
  intro past h hun
  obtain rfl : stubId sock = i :=
    hun.calls _ (List.mem_append_right _ (List.mem_singleton_self _))
  exact h.close hi sock

theorem tends_dnsResolveRaw (hi : badId i = false) (host : String) (w : Chronicle) :
    Tends base i w (chronicled.dnsResolveRaw host w).2 := by
  simp only [chronicled, network, Network.answer]
  cases w.net.turn.dns with
  | inProgress ip => exact tends_service hi (by simp) rfl
  | cached ip => exact tends_keep .refl (by simp)
  | failed => exact tends_keep .refl (by simp)

theorem tends_resolveHost (base : Stubs) (hi : badId i = false) (host : String) (w : Chronicle) :
    Tends base i w (resolveHost chronicled host w).2 := by
  have hip : Tends base i w (chronicled.ipFromStringRaw host w).2 := tends_keep .refl (by simp)
  simp only [resolveHost]
  split
  · split
    · exact hip
    · exact tends_dnsResolveRaw hi host w
  · exact tends_dnsResolveRaw hi host w

/-- A connect by someone else creates another socket. -/
theorem tends_tcpConnect (hi : badId i = false) (h : Handler) (k : ℕ) (ws : List IoWaiter)
    (host : String) (port : ℤ) (w : Chronicle) :
    Tends base i w (handleNetEffect chronicled h k ws w (.tcpConnect host port)).world := by
  have hcreate : Tends base i w (chronicled.tcpCreateRaw w).2 :=
    tends_foreign (by simp [RawCall.Own])
  simp only [handleNetEffect]
  split
  · exact hcreate
  · have hresolve := hcreate.trans (tends_resolveHost base hi host _)
    split
    · exact hresolve.trans (tends_tcpCloseRaw base hi _ _)
    · have hconnect := hresolve.trans (tends_tcpConnectRaw hi (chronicled.tcpCreateRaw w).1
        (resolveHost chronicled host (chronicled.tcpCreateRaw w).2).1 port _)
      split
      · exact hconnect.trans (tends_tcpCloseRaw base hi _ _)
      · exact hconnect

end Chronicle

theorem chronicled_within (base : Stubs) (hi : badId i = false) :
    chronicled.Within (Chronicle.Tends base i) where
  refl _ := .refl
  trans := .trans
  sleepMs _ _ := Chronicle.tends_keep .refl (by simp)
  wifiConnectRaw ssid password timeout w := by
    refine Chronicle.tends_poll hi (by simp) ?_
    intro hown hinit hkept
    have hbefore : netInit w.net.stubs = w.net.stubs := if_pos (hinit hown)
    simp only [Network.advance, ocamlWifiConnect, hbefore]
    exact untouched_wifiConnect (hkept hown) _
  wifiDisconnectRaw _ := Chronicle.tends_keep (Untouched.refl.enqueue _) (by simp)
  wifiGetIpRaw _ := Chronicle.tends_keep .refl (by simp)
  tcpConnect h k ws host port w := Chronicle.tends_tcpConnect hi h k ws host port w
  tcpWriteRaw sock data len w := Chronicle.tends_keep (untouched_picoTcpWrite ..) (by simp)
  tcpReadRaw _ _ _ := Chronicle.tends_foreign (by simp [RawCall.Own])
  tcpCloseRaw sock w := Chronicle.tends_tcpCloseRaw base hi sock w
  udpCreateRaw _ := Chronicle.tends_foreign (by simp [RawCall.Own])
  udpBindRaw _ _ _ := Chronicle.tends_foreign (by simp [RawCall.Own])
  udpSendtoRaw _ _ _ _ _ _ := Chronicle.tends_foreign (by simp [RawCall.Own])
  udpRecvfromRaw _ _ _ := Chronicle.tends_foreign (by simp [RawCall.Own])
  udpCloseRaw _ _ := Chronicle.tends_foreign (by simp [RawCall.Own])
  dnsResolveRaw host w := Chronicle.tends_dnsResolveRaw hi host w
  netPollRaw _ := Chronicle.tends_service hi (by simp) rfl
  lwipServiceRaw _ := Chronicle.tends_service hi (by simp) rfl
  ipFromStringRaw _ _ := Chronicle.tends_keep .refl (by simp)

end PicoOcaml.Pio
