import PicoOcaml.NetStubs

/-! What each function of the network stubs leaves of a socket slot. -/
namespace PicoOcaml.NetStubs

/-- The slot keeps its protocol and both pointers. -/
structure Same (n : ℕ) (s t : Stubs) : Prop where
  proto : (t.sockets n).proto = (s.sockets n).proto
  pcb : (t.sockets n).pcb = (s.sockets n).pcb
  buffer : (t.sockets n).recvBuf = (s.sockets n).recvBuf
  heapNext : s.heapNext ≤ t.heapNext

variable {s t r : Stubs} {n : ℕ} {i : ℤ} {sock : Socket}

theorem Same.refl : Same n s s := ⟨rfl, rfl, rfl, le_rfl⟩

theorem Same.trans (h : Same n s t) (h' : Same n t r) : Same n s r :=
  ⟨h'.proto.trans h.proto, h'.pcb.trans h.pcb, h'.buffer.trans h.buffer,
    h.heapNext.trans h'.heapNext⟩

theorem Same.setSock_ne (h : Same n s t) (hi : n ≠ i.toNat) : Same n s (t.setSock i sock) := by
  obtain ⟨hp, hc, hb, hn⟩ := h
  constructor <;> simpa [Stubs.setSock, hi]

theorem Same.setSock (h : Same n s t) (hp : sock.proto = (t.sock i).proto)
    (hc : sock.pcb = (t.sock i).pcb) (hb : sock.recvBuf = (t.sock i).recvBuf) :
    Same n s (t.setSock i sock) := by
  by_cases hi : n = i.toNat
  · subst hi
    obtain ⟨hp', hc', hb', hn⟩ := h
    constructor <;> simp_all [Stubs.setSock, Stubs.sock]
  · exact h.setSock_ne hi

theorem Same.call (h : Same n s t) (c : LwipCall) : Same n s (t.call c) :=
  ⟨h.proto, h.pcb, h.buffer, h.heapNext⟩

theorem Same.enqueue (h : Same n s t) (e : NetEvent) : Same n s (t.enqueue e) :=
  ⟨h.proto, h.pcb, h.buffer, h.heapNext⟩

theorem Same.touch (h : Same n s t) (p : Option ℕ) (off len : ℕ) : Same n s (t.touch p off len) :=
  ⟨h.proto, h.pcb, h.buffer, h.heapNext⟩

theorem Same.store (h : Same n s t) (p : Option ℕ) (off : ℕ) (bytes : Bytes) :
    Same n s (t.store p off bytes) := by
  cases p <;> exact ⟨h.proto, h.pcb, h.buffer, h.heapNext⟩

theorem same_copyToRecvBuf (arg : ℤ) (bytes : Bytes) {mark : Socket → Socket}
    (hm : ∀ k, (mark k).proto = k.proto ∧ (mark k).pcb = k.pcb ∧ (mark k).recvBuf = k.recvBuf) :
    Same n s (copyToRecvBuf s arg bytes mark).2 := by
  simp only [copyToRecvBuf]
  generalize (if bytes.length < _ then _ else _) = c
  split
  · apply Same.setSock
    · apply Same.store
      exact Same.refl.touch _ _ _
    · simp [(hm _).1]
    · simp [(hm _).2.1]
    · simp [(hm _).2.2]
  · exact Same.refl

theorem same_tcpRecvCallback (arg : ℤ) (tpcb : ℕ) (p : Option Bytes) (err : ℤ) :
    Same n s (tcpRecvCallback s arg tpcb p err).2 := by
  simp only [tcpRecvCallback]
  split
  · exact Same.refl
  · cases p with
    | none =>
      apply Same.enqueue
      exact Same.refl.setSock rfl rfl rfl
    | some bytes =>
      by_cases he : err ≠ errOk
      · simp only [if_pos he]
        exact Same.refl
      · simp only [if_neg he]
        apply Same.enqueue
        apply Same.call
        exact same_copyToRecvBuf arg bytes fun _ => ⟨rfl, rfl, rfl⟩

theorem same_udpRecvCallback (arg : ℤ) (p : Option Bytes) (addr : Word) (port : BitVec 16) :
    Same n s (udpRecvCallback s arg p addr port) := by
  cases p with
  | none => exact Same.refl
  | some bytes =>
    simp only [udpRecvCallback]
    split
    · exact Same.refl
    · apply Same.enqueue
      exact same_copyToRecvBuf arg bytes fun _ => ⟨rfl, rfl, rfl⟩

theorem same_tcpConnectedCallback (arg err : ℤ) :
    Same n s (tcpConnectedCallback s arg err).2 := by
  simp only [tcpConnectedCallback]
  apply Same.enqueue
  split
  · exact Same.refl
  · exact Same.refl.setSock rfl rfl rfl

theorem same_picoTcpConnect (id : ℤ) (ip : Word) (port : BitVec 16) (err : ℤ) :
    Same n s (picoTcpConnect s id ip port err).2 := by
  simp only [picoTcpConnect]
  split
  · exact Same.refl
  · split
    · apply Same.call
      exact Same.refl.setSock rfl rfl rfl
    · exact Same.refl

theorem same_picoTcpWrite (id : ℤ) (data : Bytes) (len : ℕ) (err : ℤ) :
    Same n s (picoTcpWrite s id data len err).2 := by
  simp only [picoTcpWrite]
  repeat' split
  all_goals exact ⟨rfl, rfl, rfl, le_rfl⟩

theorem same_picoTcpRead (id : ℤ) (maxLen : ℕ) : Same n s (picoTcpRead s id maxLen).2 := by
  simp only [picoTcpRead]
  generalize (if (s.sock id).recvLen < maxLen then _ else _) = c
  split
  · exact Same.refl
  · split
    · exact Same.refl
    · rw [apply_ite Prod.snd, ite_id]
      by_cases hc : c > 0
      · simp only [if_pos hc]
        split
        · apply Same.setSock
          · apply Same.store
            exact (Same.refl.touch _ _ _).touch _ _ _
          · simp
          · simp
          · simp
        · exact (Same.refl.touch _ _ _).setSock rfl rfl rfl
      · simp only [if_neg hc]
        exact Same.refl

theorem same_picoUdpBind (id : ℤ) (port : BitVec 16) (err : ℤ) :
    Same n s (picoUdpBind s id port err).2 := by
  simp only [picoUdpBind]
  repeat' split
  all_goals exact ⟨rfl, rfl, rfl, le_rfl⟩

theorem same_picoUdpSendto (id : ℤ) (ip : Word) (port : BitVec 16) (data : Bytes) (len : ℕ)
    (pbufOk : Bool) (err : ℤ) : Same n s (picoUdpSendto s id ip port data len pbufOk err).2 := by
  simp only [picoUdpSendto]
  repeat' split
  all_goals exact ⟨rfl, rfl, rfl, le_rfl⟩

theorem same_picoUdpRecvfrom (id : ℤ) (maxLen : ℕ) :
    Same n s (picoUdpRecvfrom s id maxLen).2 := by
  simp only [picoUdpRecvfrom]
  generalize (if (s.sock id).recvLen < maxLen then _ else _) = c
  split
  · exact Same.refl
  · split
    · exact Same.refl
    · split
      · exact (Same.refl.touch _ _ _).setSock rfl rfl rfl
      · exact Same.refl

/-! ### What takes or frees a slot -/

/-- Slot `k` is taken for `proto`, with a new buffer, or else ends up without one. -/
structure Taken (proto : SocketProto) (k : ℕ) (s : Stubs) (r : ℤ × Stubs) : Prop where
  other : ∀ n, n ≠ k → Same n s r.2
  outcome : (r.1 = k ∧ (r.2.sockets k).proto = proto ∧ r.2.heapNext = s.heapNext + 1 ∧
      (r.2.sockets k).recvBuf = some s.heapNext) ∨ (r.1 = -1 ∧ (r.2.sockets k).recvBuf = none)

theorem nonneg_of_valid {j : ℤ} (hj : badId j = false) : 0 ≤ j := by
  simp only [badId, Bool.or_eq_false_iff, decide_eq_false_iff_not] at hj
  omega

theorem Taken.same {proto : SocketProto} {k : ℕ} {p : ℤ × Stubs} (h : Taken proto k s p) {j : ℤ}
    (hj : badId j = false) (hkj : j ≠ k) : Same j.toNat s p.2 := by
  have h0 := nonneg_of_valid hj
  exact h.other _ (by omega)

theorem socketAlloc_taken {k : ℕ} (hk : firstClosed s = some k) (proto : SocketProto)
    (mallocOk : Bool) : Taken proto k s (socketAlloc s proto mallocOk) := by
  simp only [socketAlloc, hk]
  cases mallocOk with
  | true =>
    refine ⟨fun n hn => ?_, Or.inl ?_⟩
    · apply Same.setSock_ne
      · exact ⟨rfl, rfl, rfl, Nat.le_succ _⟩
      · simpa using hn
    · simp [Stubs.malloc, Stubs.setSock]
  | false =>
    refine ⟨fun n hn => ?_, Or.inr ?_⟩
    · exact Same.refl.setSock_ne (by simpa using hn)
    · simp [Stubs.malloc, Stubs.setSock]

theorem same_socketFree (hn : n ≠ i.toNat) : Same n s (socketFree s i) := by
  simp only [socketFree]
  split
  · exact Same.refl
  · apply Same.setSock_ne
    · cases (s.sock i).recvBuf with
      | none => exact Same.refl
      | some a => exact ⟨rfl, rfl, rfl, le_rfl⟩
    · exact hn

theorem socketFree_recvBuf (hi : badId i = false) : ((socketFree s i).sock i).recvBuf = none := by
  simp [socketFree, hi]

/-- What both create functions do with what `socket_alloc` returns: `newOk` says whether lwIP has a
pcb, `f` puts it into the slot, and `c` is the call that registers the callback. -/
def attachPcb (a : ℤ × Stubs) (newOk : Bool) (f : Socket → Socket) (c : LwipCall) : ℤ × Stubs :=
  if a.1 < 0 then (-1, a.2) else
  if !newOk then (-1, socketFree a.2 a.1) else
  (a.1, ({ a.2 with pcbNext := a.2.pcbNext + 1 }.setSock a.1 (f (a.2.sock a.1))).call c)

theorem picoTcpCreate_eq (mallocOk tcpNewOk : Bool) :
    picoTcpCreate s mallocOk tcpNewOk = attachPcb (socketAlloc s .tcp mallocOk) tcpNewOk
      (fun x => { x with pcb := some (socketAlloc s .tcp mallocOk).2.pcbNext })
      (.tcpArg (socketAlloc s .tcp mallocOk).2.pcbNext (some (socketAlloc s .tcp mallocOk).1)) := rfl

theorem picoUdpCreate_eq (mallocOk udpNewOk : Bool) :
    picoUdpCreate s mallocOk udpNewOk = attachPcb (socketAlloc s .udp mallocOk) udpNewOk
      (fun x => { x with pcb := some (socketAlloc s .udp mallocOk).2.pcbNext, state := .connected })
      (.udpRecv (socketAlloc s .udp mallocOk).2.pcbNext (socketAlloc s .udp mallocOk).1) := rfl

theorem attachPcb_taken {k : ℕ} {proto : SocketProto} {a : ℤ × Stubs} (hk : badId k = false)
    (ha : Taken proto k s a) (newOk : Bool) {f : Socket → Socket} (c : LwipCall)
    (hf : ∀ x, (f x).proto = x.proto ∧ (f x).recvBuf = x.recvBuf) :
    Taken proto k s (attachPcb a newOk f c) := by
  unfold attachPcb
  obtain ⟨r, t⟩ := a
  obtain ⟨hother, ⟨rfl, hp, hh, hb⟩ | ⟨rfl, hb⟩⟩ := ha
  · have hpos : ¬ ((k : ℤ) < 0) := by omega
    simp only [if_neg hpos]
    cases newOk with
    | true =>
      refine ⟨fun n hn => ?_, Or.inl ⟨rfl, ?_, hh, ?_⟩⟩
      · apply Same.call
        apply Same.setSock_ne
        · obtain ⟨h1, h2, h3, h4⟩ := hother n hn
          exact ⟨h1, h2, h3, h4⟩
        · simpa using hn
      · simpa [Stubs.call, Stubs.setSock, hf, Stubs.sock] using hp
      · simpa [Stubs.call, Stubs.setSock, hf, Stubs.sock] using hb
    | false =>
      refine ⟨fun n hn => (hother n hn).trans (same_socketFree (by simpa using hn)), Or.inr ?_⟩
      exact ⟨rfl, by simpa [Stubs.sock] using socketFree_recvBuf hk⟩
  · exact ⟨hother, Or.inr ⟨rfl, hb⟩⟩

theorem firstClosed_valid {k : ℕ} (h : firstClosed s = some k) : badId k = false := by
  have hk := List.mem_range.mp (List.mem_of_find?_eq_some h)
  simp only [badId, Bool.or_eq_false_iff, decide_eq_false_iff_not]
  omega

theorem picoTcpCreate_taken {k : ℕ} (hk : firstClosed s = some k) (mallocOk tcpNewOk : Bool) :
    Taken .tcp k s (picoTcpCreate s mallocOk tcpNewOk) := by
  rw [picoTcpCreate_eq]
  exact attachPcb_taken (firstClosed_valid hk) (socketAlloc_taken hk .tcp mallocOk) tcpNewOk _
    fun _ => ⟨rfl, rfl⟩

theorem picoUdpCreate_taken {k : ℕ} (hk : firstClosed s = some k) (mallocOk udpNewOk : Bool) :
    Taken .udp k s (picoUdpCreate s mallocOk udpNewOk) := by
  rw [picoUdpCreate_eq]
  exact attachPcb_taken (firstClosed_valid hk) (socketAlloc_taken hk .udp mallocOk) udpNewOk _
    fun _ => ⟨rfl, rfl⟩

theorem picoTcpCreate_full (hk : firstClosed s = none) (mallocOk tcpNewOk : Bool) :
    picoTcpCreate s mallocOk tcpNewOk = (-1, s) := by
  simp [picoTcpCreate, socketAlloc, hk]

theorem picoUdpCreate_full (hk : firstClosed s = none) (mallocOk udpNewOk : Bool) :
    picoUdpCreate s mallocOk udpNewOk = (-1, s) := by
  simp [picoUdpCreate, socketAlloc, hk]

/-- What the two closes share: a bad id or a socket of the other protocol is left alone, and the slot
of any other is freed after the calls of lwIP. -/
def ClosedBy (proto : SocketProto) (s : Stubs) (id : ℤ) (t : Stubs) : Prop :=
  t = s ∨ badId id = false ∧ (s.sock id).proto = proto ∧
    ∃ lwip, t = socketFree { s with lwip := lwip } id

theorem closedBy_guarded {proto : SocketProto} {id : ℤ}
    (h : ∃ lwip, t = socketFree { s with lwip := lwip } id) :
    ClosedBy proto s id (if badId id then s else if (s.sock id).proto ≠ proto then s else t) := by
  split
  · exact .inl rfl
  · split
    · exact .inl rfl
    · rename_i hid hp
      exact .inr ⟨by simpa using hid, by simpa using hp, h⟩

theorem picoTcpClose_closedBy (s : Stubs) (id : ℤ) : ClosedBy .tcp s id (picoTcpClose s id) := by
  apply closedBy_guarded
  cases (s.sock id).pcb with
  | none => exact ⟨s.lwip, rfl⟩
  | some pcb => exact ⟨_, rfl⟩

theorem picoUdpClose_closedBy (s : Stubs) (id : ℤ) : ClosedBy .udp s id (picoUdpClose s id) := by
  apply closedBy_guarded
  cases (s.sock id).pcb with
  | none => exact ⟨s.lwip, rfl⟩
  | some pcb => exact ⟨_, rfl⟩

theorem ClosedBy.same {proto : SocketProto} {j id : ℤ} (h : ClosedBy proto s id t)
    (hj : badId j = false) (hother : j ≠ id ∨ (s.sock j).proto ≠ proto) : Same j.toNat s t := by
  rcases h with rfl | ⟨hid, hp, lwip, rfl⟩
  · exact Same.refl
  · have hne : j ≠ id := by
      rintro rfl
      exact hother.elim (fun hj => hj rfl) fun hp' => hp' hp
    simp only [badId, Bool.or_eq_false_iff, decide_eq_false_iff_not] at hj hid
    have hslot : j.toNat ≠ id.toNat := by omega
    have hlwip : Same j.toNat s { s with lwip := lwip } := ⟨rfl, rfl, rfl, le_rfl⟩
    exact hlwip.trans (same_socketFree hslot)

theorem same_picoTcpClose {j id : ℤ} (hj : badId j = false)
    (h : j ≠ id ∨ (s.sock j).proto ≠ .tcp) : Same j.toNat s (picoTcpClose s id) :=
  (picoTcpClose_closedBy s id).same hj h

theorem same_picoUdpClose {j id : ℤ} (hj : badId j = false)
    (h : j ≠ id ∨ (s.sock j).proto ≠ .udp) : Same j.toNat s (picoUdpClose s id) :=
  (picoUdpClose_closedBy s id).same hj h

/-- The error callback only takes the pcb away. -/
theorem tcpErrCallback_slot {j : ℤ} (hj : badId j = false) (arg err : ℤ) :
    Same j.toNat s (tcpErrCallback s arg err) ∨
      (j = arg ∧ tcpErrCallback s arg err =
        (s.setSock j { s.sock j with state := .error, pcb := none }).enqueue (.tcpError j err)) := by
  by_cases hja : j = arg
  · subst hja
    exact Or.inr ⟨rfl, by simp [tcpErrCallback, hj]⟩
  · left
    simp only [tcpErrCallback]
    apply Same.enqueue
    split
    · exact Same.refl
    · rename_i hid
      apply Same.refl.setSock_ne
      simp only [badId, Bool.or_eq_true, Bool.or_eq_false_iff, decide_eq_true_eq,
        decide_eq_false_iff_not] at hj hid
      omega

end PicoOcaml.NetStubs
