import PicoOcaml.Lts
import PicoOcaml.NetStubs.Frame
import PicoOcaml.NetStubs.RecvBuffer

/-! The byte stream of one open TCP socket: what is acknowledged, buffered and returned. -/
namespace PicoOcaml.NetStubs

variable {i : ℤ} {s : Stubs}

/-- A TCP slot whose receive buffer is a live block of full size. -/
structure Buffered (i : ℤ) (s : Stubs) : Prop where
  valid : badId i = false
  proto : (s.sock i).proto = .tcp
  capacity : (s.sock i).recvCapacity = maxRecvBuffer
  fits : (s.sock i).recvLen ≤ maxRecvBuffer
  block : ∃ a b, (s.sock i).recvBuf = some a ∧ s.heap a = some b ∧ b.length = maxRecvBuffer

theorem Buffered.filled (h : Buffered i s) : Filled i s := ⟨h.valid, h.capacity, h.fits, h.block⟩

theorem Filled.buffered (h : Filled i s) (hp : (s.sock i).proto = .tcp) : Buffered i s :=
  ⟨h.valid, hp, h.capacity, h.fits, h.block⟩

theorem content_length (h : Buffered i s) : (content i s).length = (s.sock i).recvLen :=
  h.filled.content_length

/-- The TCP callback appends what there is room for and leaves the rest of the slot. -/
theorem copyToRecvBuf_id (h : Buffered i s) (bytes : Bytes) :
    let t := (copyToRecvBuf s i bytes id).2
    Buffered i t ∧ (t.sock i).state = (s.sock i).state ∧ t.lwip = s.lwip ∧
      content i t = content i s ++ bytes.take (maxRecvBuffer - (s.sock i).recvLen) := by
  obtain ⟨-, hfill, hlwip, hcont, hsock⟩ :=
    copyToRecvBuf_spec h.filled bytes id fun _ => ⟨rfl, rfl, rfl⟩
  refine ⟨hfill.buffered ?_, ?_, hlwip, hcont⟩
  · rw [hsock]
    split <;> exact h.proto
  · rw [hsock]
    split <;> rfl

/-- The callback appends what there is room for and acknowledges the whole segment. -/
theorem tcpRecvCallback_segment (h : Buffered i s) (tpcb : ℕ) (bytes : Bytes) :
    let t := (tcpRecvCallback s i tpcb (some bytes) errOk).2
    Buffered i t ∧ (t.sock i).state = (s.sock i).state ∧
      t.lwip = s.lwip ++ [.tcpRecved tpcb bytes.length] ∧
      content i t = content i s ++ bytes.take (maxRecvBuffer - (s.sock i).recvLen) := by
  obtain ⟨hb, hst, hl, hc⟩ := copyToRecvBuf_id h bytes
  simp only [tcpRecvCallback, h.valid, ne_eq, not_true_eq_false, Bool.false_eq_true, if_false]
  refine ⟨⟨hb.valid, hb.proto, hb.capacity, hb.fits, hb.block⟩, hst, ?_, hc⟩
  simp [hl]

theorem tcpRecvCallback_closed (h : Buffered i s) (tpcb : ℕ) (err : ℤ) :
    let t := (tcpRecvCallback s i tpcb none err).2
    Buffered i t ∧ (t.sock i).state = .closed ∧ t.lwip = s.lwip ∧ content i t = content i s := by
  have hs : (tcpRecvCallback s i tpcb none err).2 =
      (s.setSock i { s.sock i with state := .closed }).enqueue (.tcpClosed i) := by
    simp [tcpRecvCallback, h.valid]
  obtain ⟨a, b, ha, hb, hl⟩ := h.block
  rw [hs]
  refine ⟨⟨h.valid, ?_, ?_, ?_, a, b, ?_, hb, hl⟩, ?_, rfl, ?_⟩
  · simpa using h.proto
  · simpa using h.capacity
  · simpa using h.fits
  · simpa using ha
  · simp
  · simp [content, Stubs.load]

theorem tcpRecvCallback_refused (h : Buffered i s) (tpcb : ℕ)
    (bytes : Bytes) {err : ℤ} (he : err ≠ errOk) :
    (tcpRecvCallback s i tpcb (some bytes) err).2 = s := by
  simp [tcpRecvCallback, h.valid, he]

/-- The bytes and the socket table that a read leaves when it takes `c` bytes. -/
theorem content_read (h : Buffered i s) {c : ℕ} (hc : c ≤ (s.sock i).recvLen) (hpos : c > 0) :
    let u := if c < (s.sock i).recvLen then
        ((s.touch (s.sock i).recvBuf 0 c).touch (s.sock i).recvBuf 0 (s.sock i).recvLen).store
          (s.sock i).recvBuf 0
          ((s.touch (s.sock i).recvBuf 0 c).load (s.sock i).recvBuf c ((s.sock i).recvLen - c))
      else s.touch (s.sock i).recvBuf 0 c
    let t := u.setSock i { s.sock i with recvLen := (s.sock i).recvLen - c }
    Buffered i t ∧ content i t = (content i s).drop c := by
  intro u t
  obtain ⟨a, b, ha, hb, hl⟩ := h.block
  have hf := h.fits
  have hlen : (t.sock i).recvLen = (s.sock i).recvLen - c := by simp [t]
  have hbuf : (t.sock i).recvBuf = some a := by simpa [t] using ha
  have hproto : (t.sock i).proto = .tcp := by simpa [t] using h.proto
  have hcap : (t.sock i).recvCapacity = maxRecvBuffer := by simpa [t] using h.capacity
  by_cases hlt : c < (s.sock i).recvLen
  · have hload : (s.touch (s.sock i).recvBuf 0 c).load (s.sock i).recvBuf c
        ((s.sock i).recvLen - c) = (b.take (s.sock i).recvLen).drop c := by
      simp [Stubs.load, ha, hb, List.drop_take]
    have hmoved : ((b.take (s.sock i).recvLen).drop c).length = (s.sock i).recvLen - c := by
      rw [List.length_drop, List.length_take]
      omega
    have hheap : t.heap a = some (b.take 0 ++ (b.take (s.sock i).recvLen).drop c ++
        b.drop (0 + ((b.take (s.sock i).recvLen).drop c).length)) := by
      simp only [t, u, if_pos hlt, heap_setSock, hload]
      rw [ha]
      exact heap_store _ _ _ hb
    refine ⟨⟨h.valid, hproto, hcap, by omega, a, _, hbuf, hheap, ?_⟩, ?_⟩
    · simp only [List.length_append, hmoved, List.length_drop, List.take_zero, List.length_nil]
      omega
    · rw [content_eq ha hb, content_eq hbuf hheap, hlen, ← hmoved]
      simp only [List.take_zero, List.nil_append, List.take_left]
  · have hheap : t.heap a = some b := by
      simpa [t, u, if_neg hlt] using hb
    refine ⟨⟨h.valid, hproto, hcap, by omega, a, b, hbuf, hheap, hl⟩, ?_⟩
    rw [content_eq ha hb, content_eq hbuf hheap, hlen, show (s.sock i).recvLen - c = 0 by omega,
      List.take_zero, List.drop_of_length_le]
    rw [List.length_take]
    omega

/-- A read takes the front of the content, and the answer -2 means closed and drained. -/
theorem picoTcpRead_spec (h : Buffered i s) {maxLen : ℕ} (hm : 1 ≤ maxLen) :
    let r := picoTcpRead s i maxLen
    Buffered i r.2 ∧ (r.2.sock i).state = (s.sock i).state ∧
      r.1.2.take r.1.1.toNat = (content i s).take maxLen ∧
      content i r.2 = (content i s).drop maxLen ∧
      (r.1.1 = -2 → (s.sock i).state = .closed ∧ content i s = []) := by
  have hf := h.fits
  have hclen := content_length h
  have hnil : (s.sock i).recvLen = 0 → content i s = [] := by
    intro h0
    exact List.eq_nil_of_length_eq_zero (by omega)
  have hproto : ¬ (s.sock i).proto ≠ .tcp := by simp [h.proto]
  simp only [picoTcpRead, h.valid, if_neg hproto, Bool.false_eq_true, if_false]
  set c := if (s.sock i).recvLen < maxLen then (s.sock i).recvLen else maxLen with hc
  have hle : c ≤ (s.sock i).recvLen ∧ c ≤ maxLen := by
    rw [hc]
    split <;> omega
  by_cases hpos : c > 0
  · obtain ⟨hb, hcont⟩ := content_read h hle.1 hpos
    have hcint : toCInt c = c := toCInt_of_le (by omega)
    have htake : s.load (s.sock i).recvBuf 0 c = (content i s).take c := by
      obtain ⟨a, b, ha, hb, -⟩ := h.block
      simp only [content, Stubs.load, ha, hb, Option.bind_some, List.drop_zero, List.take_take]
      rw [Nat.min_eq_left hle.1]
    have hcm : (content i s).take c = (content i s).take maxLen ∧
        (content i s).drop c = (content i s).drop maxLen := by
      rw [hc]
      split
      · rw [List.take_of_length_le (by omega), List.take_of_length_le (by omega),
          List.drop_of_length_le (by omega), List.drop_of_length_le (by omega)]
        exact ⟨rfl, rfl⟩
      · exact ⟨rfl, rfl⟩
    have hne : ¬ (c = 0 ∧ (s.sock i).state = .closed) := by omega
    simp only [if_pos hpos, if_neg hne]
    refine ⟨hb, by simp, ?_, hcont.trans hcm.2, ?_⟩
    · rw [hcint, Int.toNat_natCast, htake, List.take_take, Nat.min_self]
      exact hcm.1
    · rw [hcint]
      omega
  · have h0 : (s.sock i).recvLen = 0 := by
      rw [hc] at hpos
      split at hpos <;> omega
    have hc0 : c = 0 := by omega
    simp only [if_neg hpos, hnil h0, List.take_nil, List.drop_nil]
    by_cases hst : (s.sock i).state = .closed
    · rw [if_pos ⟨hc0, hst⟩]
      exact ⟨h, rfl, List.take_nil, hnil h0, fun _ => ⟨hst, trivial⟩⟩
    · rw [if_neg fun hh => hst hh.2, hc0]
      exact ⟨h, rfl, List.take_nil, hnil h0,
        fun hn => absurd (show toCInt 0 = -2 from hn) (by decide)⟩

/-! ### Sessions -/

/-- The stubs together with what the peer was told it delivered, what the program has read, and
whether the peer has closed. -/
structure Session where
  stubs : Stubs
  acked : Bytes
  returned : Bytes
  peerClosed : Bool

inductive Op
  | recv (tpcb : ℕ) (p : Option Bytes) (err : ℤ)
  | read (maxLen : ℕ)

/-- The window update that a list of calls adds up to. -/
def recvedLen : List LwipCall → ℕ
  | [] => 0
  | .tcpRecved _ len :: calls => len + recvedLen calls
  | _ :: calls => recvedLen calls

def Session.next (i : ℤ) (u : Session) : Op → Session
  | .recv tpcb p err =>
    let t := (tcpRecvCallback u.stubs i tpcb p err).2
    let len := recvedLen (t.lwip.drop u.stubs.lwip.length)
    ⟨t, u.acked ++ (p.getD []).take len, u.returned, u.peerClosed || p.isNone⟩
  | .read maxLen =>
    let ((n, bytes), t) := picoTcpRead u.stubs i maxLen
    ⟨t, u.acked, u.returned ++ bytes.take n.toNat, u.peerClosed⟩

def Session.Step (i : ℤ) (u : Session) (o : Op) (v : Session) : Prop :=
  v = u.next i o ∧ ∀ maxLen, o = .read maxLen → 1 ≤ maxLen

/-- A socket that has just been connected. -/
structure Session.Fresh (i : ℤ) (u : Session) : Prop where
  buffered : Buffered i u.stubs
  empty : (u.stubs.sock i).recvLen = 0
  connected : (u.stubs.sock i).state = .connected
  acked : u.acked = []
  returned : u.returned = []

/-- Nothing acknowledged is dropped, duplicated or reordered. -/
def Session.Intact (i : ℤ) (u : Session) : Prop := u.returned ++ content i u.stubs = u.acked

/-- A read that reports the end of the stream has nothing left to return. -/
def Session.EofOk (i : ℤ) (u : Session) (o : Op) (_ : Session) : Prop :=
  ∀ maxLen, o = .read maxLen → (picoTcpRead u.stubs i maxLen).1.1 = -2 →
    u.peerClosed = true ∧ u.returned = u.acked

/-- An accepted segment is no longer than the free space. -/
def Session.Fits (i : ℤ) (u : Session) (o : Op) (_ : Session) : Prop :=
  ∀ tpcb bytes, o = .recv tpcb (some bytes) errOk →
    (u.stubs.sock i).recvLen + bytes.length ≤ maxRecvBuffer

structure Session.Inv (i : ℤ) (u : Session) : Prop where
  buffered : Buffered i u.stubs
  closed : (u.stubs.sock i).state = .closed → u.peerClosed = true

/-- What `pico_tcp_create`, `pico_tcp_connect` and the connected callback make of the table. -/
def opened (s : Stubs) (ip : Word) (port : BitVec 16) : ℤ × Stubs :=
  let (i, s) := picoTcpCreate s true true
  let s := (picoTcpConnect s i ip port errOk).2
  (i, (tcpConnectedCallback s i errOk).2)

variable {u v : Session} {o : Op} {xs : List (Op × Session)}

/-- A successful create leaves an empty buffer in the slot it returns. -/
theorem picoTcpCreate_spec {k : ℕ} (h : firstClosed s = some k) :
    let r := picoTcpCreate s true true
    r.1 = k ∧ r.2.heap s.heapNext = some (List.replicate maxRecvBuffer 0) ∧
      r.2.sock k = ⟨.tcp, .closed, some s.pcbNext, some s.heapNext, 0, maxRecvBuffer, 0, 0⟩ := by
  have hpos : ¬ ((k : ℤ) < 0) := by omega
  simp only [picoTcpCreate, socketAlloc, h, Stubs.malloc, if_true, if_neg hpos, Bool.not_true,
    Bool.false_eq_true, if_false]
  refine ⟨trivial, ?_, ?_⟩
  · simp [Stubs.setSock, Stubs.call]
  · simp [Stubs.setSock, Stubs.sock, Stubs.call, Socket.zero]

theorem opened_fresh {k : ℕ} (h : firstClosed s = some k) (ip : Word) (port : BitVec 16) :
    (opened s ip port).1 = k ∧ Session.Fresh k ⟨(opened s ip port).2, [], [], false⟩ := by
  have hk := firstClosed_valid h
  obtain ⟨hid, hheap, hsock⟩ := picoTcpCreate_spec h
  have hopen : (opened s ip port).2.sock k =
        ⟨.tcp, .connected, some s.pcbNext, some s.heapNext, 0, maxRecvBuffer, 0, 0⟩ ∧
      (opened s ip port).2.heap s.heapNext = some (List.replicate maxRecvBuffer 0) := by
    simp only [opened, hid, picoTcpConnect, hk, hsock, tcpConnectedCallback, Bool.false_eq_true,
      if_false]
    simp [hheap]
  refine ⟨hid, ⟨hk, ?_, ?_, ?_, _, _, ?_, hopen.2, List.length_replicate⟩, ?_, ?_, rfl, rfl⟩ <;>
    simp [hopen.1]

/-- A delivered segment is acknowledged in full and buffered as far as there is room. -/
theorem next_segment (h : Buffered i u.stubs) (tpcb : ℕ) (bytes : Bytes) :
    let v := u.next i (.recv tpcb (some bytes) errOk)
    Buffered i v.stubs ∧ (v.stubs.sock i).state = (u.stubs.sock i).state ∧
      v.acked = u.acked ++ bytes ∧ v.returned = u.returned ∧ v.peerClosed = u.peerClosed ∧
      content i v.stubs =
        content i u.stubs ++ bytes.take (maxRecvBuffer - (u.stubs.sock i).recvLen) := by
  obtain ⟨hb, hst, hl, hc⟩ := tcpRecvCallback_segment h tpcb bytes
  refine ⟨hb, hst, ?_, rfl, by simp [Session.next], hc⟩
  simp only [Session.next, hl, List.drop_left, recvedLen, Option.getD_some]
  rw [Nat.add_zero, List.take_length]

/-- A segment keeps the stream intact exactly when it fits. -/
theorem intact_segment_iff (h : Buffered i u.stubs) (hi : u.Intact i) (tpcb : ℕ) (bytes : Bytes) :
    (u.next i (.recv tpcb (some bytes) errOk)).Intact i ↔
      (u.stubs.sock i).recvLen + bytes.length ≤ maxRecvBuffer := by
  obtain ⟨-, -, ha, hr, -, hc⟩ := next_segment h tpcb bytes
  have hf := h.fits
  rw [Session.Intact, ha, hr, hc, ← List.append_assoc, hi, List.append_cancel_left_eq,
    List.take_eq_self_iff]
  omega

theorem next_inv (h : u.Inv i) (ho : ∀ maxLen, o = .read maxLen → 1 ≤ maxLen) :
    (u.next i o).Inv i := by
  cases o with
  | recv tpcb p err =>
    cases p with
    | none =>
      obtain ⟨hb, -⟩ := tcpRecvCallback_closed h.buffered tpcb err
      exact ⟨hb, fun _ => by simp [Session.next]⟩
    | some bytes =>
      by_cases he : err = errOk
      · subst he
        obtain ⟨hb, hst, -, -, hp, -⟩ := next_segment h.buffered tpcb bytes
        exact ⟨hb, fun hc => hp.trans (h.closed (hst.symm.trans hc))⟩
      · have hs := tcpRecvCallback_refused h.buffered tpcb bytes he
        constructor
        · simpa only [Session.next, hs] using h.buffered
        · intro hc
          simp only [Session.next, hs] at hc
          simp [Session.next, h.closed hc]
  | read maxLen =>
    obtain ⟨hb, hst, -⟩ := picoTcpRead_spec h.buffered (ho maxLen rfl)
    exact ⟨hb, fun hc => h.closed (hst.symm.trans hc)⟩

/-- Reads and refused or final deliveries lose nothing. -/
theorem next_intact (h : u.Inv i) (hi : u.Intact i) (ho : ∀ maxLen, o = .read maxLen → 1 ≤ maxLen)
    (hfit : u.Fits i o v) : (u.next i o).Intact i := by
  cases o with
  | recv tpcb p err =>
    cases p with
    | none =>
      obtain ⟨-, -, hl, hc⟩ := tcpRecvCallback_closed h.buffered tpcb err
      simp only [Session.Intact, Session.next, hc, Option.getD_none, List.take_nil,
        List.append_nil]
      exact hi
    | some bytes =>
      by_cases he : err = errOk
      · subst he
        exact (intact_segment_iff h.buffered hi tpcb bytes).mpr (hfit tpcb bytes rfl)
      · have hs := tcpRecvCallback_refused h.buffered tpcb bytes he
        simp only [Session.Intact, Session.next, hs, List.drop_length, recvedLen, List.take_zero,
          List.append_nil]
        exact hi
  | read maxLen =>
    obtain ⟨-, -, hbytes, hc, -⟩ := picoTcpRead_spec h.buffered (ho maxLen rfl)
    simp only [Session.Intact, Session.next]
    rw [hbytes, hc, List.append_assoc, List.take_append_drop]
    exact hi

theorem eofOk_of_intact (h : u.Inv i) (hi : u.Intact i)
    (ho : ∀ maxLen, o = .read maxLen → 1 ≤ maxLen) : u.EofOk i o v := by
  rintro maxLen rfl heof
  obtain ⟨-, -, -, -, hend⟩ := picoTcpRead_spec h.buffered (ho maxLen rfl)
  obtain ⟨hst, hnil⟩ := hend heof
  refine ⟨h.closed hst, ?_⟩
  rw [Session.Intact, hnil, List.append_nil] at hi
  exact hi

theorem fresh_inv (h : u.Fresh i) : u.Inv i ∧ u.Intact i := by
  refine ⟨⟨h.buffered, fun hc => ?_⟩, ?_⟩
  · rw [h.connected] at hc
    cases hc
  · have hnil : content i u.stubs = [] :=
      List.eq_nil_of_length_eq_zero ((content_length h.buffered).trans h.empty)
    rw [Session.Intact, h.acked, h.returned, hnil]
    rfl

theorem fits_iff (h : u.Inv i) (hi : u.Intact i) (hstep : u.Step i o v) :
    u.Fits i o v ↔ v.Intact i ∧ u.EofOk i o v := by
  obtain ⟨rfl, ho⟩ := hstep
  constructor
  · intro hfit
    exact ⟨next_intact h hi ho hfit, eofOk_of_intact h hi ho⟩
  · rintro ⟨hv, -⟩ tpcb bytes rfl
    exact (intact_segment_iff h.buffered hi tpcb bytes).mp hv

/-- The stream of a socket stays intact along a run exactly when every segment that arrives
fits into the free space of the receive buffer. -/
theorem stream_intact_iff (h : u.Fresh i) (hrun : Lts.Run (Session.Step i) u xs) :
    Lts.Run (Session.Fits i) u xs ↔
      Lts.Always (Session.Intact i) u xs ∧ Lts.Run (Session.EofOk i) u xs := by
  obtain ⟨hinv, hint⟩ := fresh_inv h
  have hcongr : Lts.Run (Session.Fits i) u xs ↔
      Lts.Run (fun u o v => Session.Intact i v ∧ Session.EofOk i u o v) u xs := by
    refine hrun.congr (p := fun u => u.Inv i ∧ u.Intact i) ⟨hinv, hint⟩ ?_ ?_
    · intro u o v hu hstep
      exact fits_iff hu.1 hu.2 hstep
    · intro u o v hu hstep hd
      obtain ⟨rfl, ho⟩ := hstep
      exact ⟨next_inv hu.1 ho, hd.1⟩
  have hand : Lts.Run (fun u o v => Session.Intact i v ∧ Session.EofOk i u o v) u xs ↔
      Lts.Run (fun _ _ v => Session.Intact i v) u xs ∧ Lts.Run (Session.EofOk i) u xs :=
    Lts.run_and
  rw [hcongr, hand, Lts.always_iff]
  constructor
  · rintro ⟨hv, he⟩
    exact ⟨⟨hint, hv⟩, he⟩
  · rintro ⟨⟨-, hv⟩, he⟩
    exact ⟨hv, he⟩

/-- A socket opened in an empty table. -/
def openedSession : Session := ⟨(opened Stubs.initial 0x0100A8C0 80).2, [], [], false⟩

theorem openedSession_slot : firstClosed Stubs.initial = some 0 := rfl

theorem openedSession_fresh : openedSession.Fresh 0 :=
  (opened_fresh openedSession_slot 0x0100A8C0 80).2

/-- Two short segments, read in two pieces, and then the end of the stream. -/
theorem stream_intact_short :
    let ops := [Op.recv 0 (some [1, 2, 3]) errOk, .read 2, .recv 0 (some [4]) errOk,
      .recv 0 none errOk, .read 9, .read 9]
    let xs := Lts.trace (Session.next 0) openedSession ops
    Lts.Always (Session.Intact 0) openedSession xs ∧
      Lts.Run (Session.EofOk 0) openedSession xs := by
  intro ops xs
  refine (stream_intact_iff openedSession_fresh ?_).mp ?_
  · simp [xs, ops, Lts.trace, Session.Step]
  · refine ⟨?_, ?_, ?_, ?_, ?_, ?_, trivial⟩
    all_goals
      intro tpcb bytes ho
      cases ho
    · decide
    · decide

def segment : Bytes := List.replicate 1460 0

/-- Three full segments, which the window allows, before the first read: 4380 bytes are
acknowledged and 4096 kept. -/
theorem stream_loses :
    ¬ ∀ (i : ℤ) (u : Session) (xs : List (Op × Session)), u.Fresh i →
      Lts.Run (Session.Step i) u xs → Lts.Always (Session.Intact i) u xs ∧
        Lts.Run (Session.EofOk i) u xs := by
  intro h
  let o := Op.recv 0 (some segment) errOk
  let xs := Lts.trace (Session.next 0) openedSession [o, o, o]
  have hrun : Lts.Run (Session.Step 0) openedSession xs := by
    simp [xs, o, Lts.trace, Session.Step]
  have hlast := (h 0 openedSession xs openedSession_fresh hrun).1.last
  obtain ⟨hb1, -, ha1, hr1, -, -⟩ :=
    next_segment openedSession_fresh.buffered 0 segment
  obtain ⟨hb2, -, ha2, hr2, -, -⟩ := next_segment hb1 0 segment
  obtain ⟨hb3, -, ha3, hr3, -, -⟩ := next_segment hb2 0 segment
  have hseg : segment.length = 1460 := List.length_replicate
  have hlen := congrArg List.length hlast
  simp only [xs, o, Lts.trace, Lts.last_cons, Lts.last_nil, List.length_append, ha3, ha2, ha1,
    hr3, hr2, hr1, content_length hb3, hseg, openedSession_fresh.acked,
    openedSession_fresh.returned, List.length_nil] at hlen
  have hle := hb3.fits
  simp only [maxRecvBuffer] at hle
  omega

end PicoOcaml.NetStubs
