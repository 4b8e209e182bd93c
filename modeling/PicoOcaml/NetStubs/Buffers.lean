import PicoOcaml.NetStubs.Slots

/-! Receive buffers: which fill levels a live block of the C heap stands behind. -/
namespace PicoOcaml.NetStubs

/-- Slot `n` is filled within its capacity, and bytes in it lie in a live block. -/
structure Backed (n : ℕ) (s : Stubs) : Prop where
  fits : (s.sockets n).recvLen ≤ (s.sockets n).recvCapacity
  bound : (s.sockets n).recvCapacity ≤ maxRecvBuffer
  live : 0 < (s.sockets n).recvLen → ∃ a b, (s.sockets n).recvBuf = some a ∧ s.heap a = some b

def Table.Sound (u : Table) : Prop := ∀ n < maxSockets, Backed n u.stubs

/-- The call copies to and from live blocks only, within their bounds, and frees no block twice.
`pico_udp_sendto` is left out: it copies into a pbuf and no receive buffer. -/
def Table.InBounds (u : Table) (o : Call) (v : Table) : Prop :=
  match o with
  | .udpSendto _ _ _ _ _ _ _ => True
  | _ => v.stubs.fault = u.stubs.fault

/-- A data callback finds bytes to copy and room for them. -/
def Copies (s : Stubs) (arg : ℤ) (bytes : Bytes) : Prop :=
  badId arg = false ∧ bytes ≠ [] ∧ (s.sock arg).recvLen < (s.sock arg).recvCapacity

/-- A close finds no bytes left to read, and a data callback that copies finds a buffer. -/
def Table.Drained (u : Table) (o : Call) (_ : Table) : Prop :=
  match o with
  | .tcpClose id =>
    badId id = false → (u.stubs.sock id).proto = .tcp → (u.stubs.sock id).recvLen = 0
  | .udpClose id =>
    badId id = false → (u.stubs.sock id).proto = .udp → (u.stubs.sock id).recvLen = 0
  | .tcpRecvCallback arg _ (some bytes) err =>
    err = errOk → Copies u.stubs arg bytes → (u.stubs.sock arg).recvBuf ≠ none
  | .udpRecvCallback arg (some bytes) _ _ =>
    Copies u.stubs arg bytes → (u.stubs.sock arg).recvBuf ≠ none
  | _ => True

/-! ### The heap under the table -/

/-- What `malloc` and `free` leave: a slot without a buffer is empty, a buffer is a whole block
of its own. `f` is the value of the fault flag. -/
structure Clean (f : Bool) (s : Stubs) : Prop where
  fits : ∀ n, (s.sockets n).recvLen ≤ (s.sockets n).recvCapacity
  bound : ∀ n, (s.sockets n).recvCapacity ≤ maxRecvBuffer
  null : ∀ n, (s.sockets n).recvBuf = none → (s.sockets n).recvLen = 0
  block : ∀ n a, (s.sockets n).recvBuf = some a → a < s.heapNext ∧
    ∃ b, s.heap a = some b ∧ b.length = maxRecvBuffer
  distinct : ∀ m n a, (s.sockets m).recvBuf = some a → (s.sockets n).recvBuf = some a → m = n
  fault : s.fault = f

variable {f : Bool} {s t : Stubs} {i : ℤ} {sock : Socket} {u v : Table} {o : Call}

theorem Clean.backed (h : Clean f s) (n : ℕ) : Backed n s := by
  refine ⟨h.fits n, h.bound n, fun hpos => ?_⟩
  cases hb : (s.sockets n).recvBuf with
  | none =>
    have := h.null n hb
    omega
  | some a =>
    obtain ⟨-, b, hb', -⟩ := h.block n a hb
    exact ⟨a, b, rfl, hb'⟩

theorem Clean.buffer (h : Clean f s) (hl : (s.sock i).recvLen ≠ 0) : (s.sock i).recvBuf ≠ none :=
  fun hn => hl (h.null i.toNat hn)

theorem Clean.call (h : Clean f s) (c : LwipCall) : Clean f (s.call c) := { h with }

theorem Clean.enqueue (h : Clean f s) (e : NetEvent) : Clean f (s.enqueue e) := { h with }

/-- What holds of every slot holds after a change if it holds of the slot that is stored. -/
theorem forall_setSock (P : Socket → Prop) (h : ∀ n, P (s.sockets n)) (hp : P sock) (n : ℕ) :
    P ((s.setSock i sock).sockets n) := by
  by_cases hn : n = i.toNat
  · simpa [Stubs.setSock, hn] using hp
  · simpa [Stubs.setSock, hn] using h n

/-- A slot may change as long as its buffer stays and it is filled within bounds. -/
theorem Clean.setSock (h : Clean f s) (hb : sock.recvBuf = (s.sock i).recvBuf)
    (hfits : sock.recvLen ≤ sock.recvCapacity) (hbound : sock.recvCapacity ≤ maxRecvBuffer)
    (hnull : sock.recvBuf = none → sock.recvLen = 0) : Clean f (s.setSock i sock) := by
  have hbuf : ∀ n, ((s.setSock i sock).sockets n).recvBuf = (s.sockets n).recvBuf := by
    intro n
    by_cases hn : n = i.toNat
    · subst hn
      simpa [Stubs.setSock, Stubs.sock] using hb
    · simp [Stubs.setSock, hn]
  constructor
  · exact forall_setSock (fun x => x.recvLen ≤ x.recvCapacity) h.fits hfits
  · exact forall_setSock (fun x => x.recvCapacity ≤ maxRecvBuffer) h.bound hbound
  · exact forall_setSock (fun x => x.recvBuf = none → x.recvLen = 0) h.null hnull
  · intro n a
    rw [hbuf n]
    exact h.block n a
  · intro m n a
    rw [hbuf m, hbuf n]
    exact h.distinct m n a
  · exact h.fault

/-- Fields other than the buffer's may change freely. -/
theorem Clean.mark (h : Clean f s) (hb : sock.recvBuf = (s.sock i).recvBuf)
    (hl : sock.recvLen = (s.sock i).recvLen) (hc : sock.recvCapacity = (s.sock i).recvCapacity) :
    Clean f (s.setSock i sock) := by
  apply h.setSock hb
  · simp only [hl, hc]
    exact h.fits i.toNat
  · simp only [hc]
    exact h.bound i.toNat
  · simp only [hb, hl]
    exact h.null i.toNat

theorem Clean.touch (h : Clean f s) {n : ℕ} (off len : ℕ) (hb : (s.sockets n).recvBuf ≠ none)
    (hlen : off + len ≤ maxRecvBuffer) : Clean f (s.touch (s.sockets n).recvBuf off len) := by
  obtain ⟨a, ha⟩ := Option.ne_none_iff_exists'.mp hb
  obtain ⟨-, b, hab, hl⟩ := h.block n a ha
  have hin : s.inBlock (s.sockets n).recvBuf off len = true := by
    simpa [Stubs.inBlock, ha, hab, hl] using hlen
  have hf : (s.touch (s.sockets n).recvBuf off len).fault = f := by
    simp [Stubs.touch, hin, h.fault]
  exact { h with fault := hf }

/-- A write within a block leaves its length. -/
theorem Clean.store (h : Clean f s) (n off : ℕ) {bytes : Bytes}
    (hlen : off + bytes.length ≤ maxRecvBuffer) :
    Clean f (s.store (s.sockets n).recvBuf off bytes) := by
  cases ha : (s.sockets n).recvBuf with
  | none => exact h
  | some a =>
    obtain ⟨-, b, hab, hl⟩ := h.block n a ha
    refine ⟨h.fits, h.bound, h.null, fun k c hc => ?_, h.distinct, h.fault⟩
    obtain ⟨hlt, b', hb', hl'⟩ := h.block k c hc
    refine ⟨hlt, ?_⟩
    by_cases hca : c = a
    · subst hca
      refine ⟨_, heap_store s off bytes hab, ?_⟩
      simp only [List.length_append, List.length_take, List.length_drop]
      omega
    · exact ⟨b', by simpa [Stubs.store, hca] using hb', hl'⟩

/-- A slot may lose its buffer together with what was in it. -/
theorem Clean.drop (h : Clean f s) (hb : sock.recvBuf = none) (hl : sock.recvLen = 0)
    (hc : sock.recvCapacity ≤ maxRecvBuffer) : Clean f (s.setSock i sock) := by
  have hbuf : ∀ n a, ((s.setSock i sock).sockets n).recvBuf = some a →
      (s.sockets n).recvBuf = some a := by
    intro n a
    by_cases hn : n = i.toNat
    · simp [Stubs.setSock, hn, hb]
    · simp [Stubs.setSock, hn]
  constructor
  · exact forall_setSock (fun x => x.recvLen ≤ x.recvCapacity) h.fits (by omega)
  · exact forall_setSock (fun x => x.recvCapacity ≤ maxRecvBuffer) h.bound hc
  · exact forall_setSock (fun x => x.recvBuf = none → x.recvLen = 0) h.null fun _ => hl
  · intro n a ha
    exact h.block n a (hbuf n a ha)
  · intro m n a hm hn
    exact h.distinct m n a (hbuf m a hm) (hbuf n a hn)
  · exact h.fault

/-- The block just returned by `malloc` belongs to no slot yet. -/
theorem Clean.take (h : Clean f s) (hb : sock.recvBuf = some s.heapNext) (hl : sock.recvLen = 0)
    (hc : sock.recvCapacity ≤ maxRecvBuffer) :
    Clean f ((s.malloc maxRecvBuffer true).2.setSock i sock) := by
  have hold : ∀ n a, (s.sockets n).recvBuf = some a → a ≠ s.heapNext := by
    intro n a ha
    have := (h.block n a ha).1
    omega
  constructor
  · exact forall_setSock (fun x => x.recvLen ≤ x.recvCapacity) h.fits (by omega)
  · exact forall_setSock (fun x => x.recvCapacity ≤ maxRecvBuffer) h.bound hc
  · exact forall_setSock (fun x => x.recvBuf = none → x.recvLen = 0) h.null fun _ => hl
  · intro n a ha
    by_cases hn : n = i.toNat
    · simp only [Stubs.setSock, hn, Function.update_self, hb, Option.some.injEq] at ha
      subst ha
      simp [Stubs.setSock, Stubs.malloc]
    · simp only [Stubs.setSock, Stubs.malloc, if_true, Function.update_of_ne hn] at ha ⊢
      obtain ⟨hlt, b, hab, hlen⟩ := h.block n a ha
      exact ⟨by omega, b, by simpa [hold n a ha] using hab, hlen⟩
  · intro m n a hm hn
    by_cases hmi : m = i.toNat <;> by_cases hni : n = i.toNat
    · exact hmi.trans hni.symm
    · simp only [Stubs.setSock, Stubs.malloc, if_true, hmi, Function.update_self, hb,
        Option.some.injEq, Function.update_of_ne hni] at hm hn
      exact absurd hm.symm (hold n a hn)
    · simp only [Stubs.setSock, Stubs.malloc, if_true, hni, Function.update_self, hb,
        Option.some.injEq, Function.update_of_ne hmi] at hm hn
      exact absurd hn.symm (hold m a hm)
    · simp only [Stubs.setSock, Stubs.malloc, if_true, Function.update_of_ne hmi,
        Function.update_of_ne hni] at hm hn
      exact h.distinct m n a hm hn
  · exact h.fault

/-- Freeing the buffer of an empty slot takes nothing from the other slots. -/
theorem Clean.release (h : Clean f s) {a : ℕ} (ha : (s.sock i).recvBuf = some a)
    (hb : sock.recvBuf = none) (hl : sock.recvLen = 0) (hc : sock.recvCapacity ≤ maxRecvBuffer) :
    Clean f ((s.free a).setSock i sock) := by
  obtain ⟨-, b, hab, -⟩ := h.block i.toNat a ha
  have hd : Clean f (s.setSock i sock) := h.drop hb hl hc
  refine ⟨hd.fits, hd.bound, hd.null, fun n c hn => ?_, hd.distinct, ?_⟩
  · have hni : n ≠ i.toNat := by
      rintro rfl
      simp [Stubs.setSock, Stubs.free, hb] at hn
    have hn' : (s.sockets n).recvBuf = some c := by
      simpa [Stubs.setSock, Stubs.free, hni] using hn
    have hca : c ≠ a := by
      rintro rfl
      exact hni (h.distinct n i.toNat c hn' ha)
    obtain ⟨hlt, b', hb', hl'⟩ := hd.block n c hn
    exact ⟨hlt, b', by simpa [Stubs.free, hca] using hb', hl'⟩
  · simp [Stubs.setSock, Stubs.free, hab, h.fault]

/-! ### One lemma for each function -/

theorem Clean.socketAlloc (h : Clean f s) (proto : SocketProto) (mallocOk : Bool) :
    Clean f (socketAlloc s proto mallocOk).2 := by
  simp only [NetStubs.socketAlloc]
  cases firstClosed s with
  | none => exact h
  | some k =>
    cases mallocOk with
    | true => exact h.take rfl rfl le_rfl
    | false => exact h.drop rfl rfl le_rfl

theorem Clean.socketFree (h : Clean f s) (hl : badId i = false → (s.sock i).recvLen = 0) :
    Clean f (socketFree s i) := by
  simp only [NetStubs.socketFree]
  split
  · exact h
  · rename_i hi
    have hl0 := hl (by simpa using hi)
    cases ha : (s.sock i).recvBuf with
    | none => exact h.drop rfl hl0 (h.bound _)
    | some a => exact h.release ha rfl hl0 (h.bound _)

/-- Neither answer of `socket_alloc` leaves anything in the slot it names. -/
theorem socketAlloc_empty (proto : SocketProto) (mallocOk : Bool) :
    let r := NetStubs.socketAlloc s proto mallocOk
    ¬ r.1 < 0 → (r.2.sock r.1).recvLen = 0 := by
  simp only [NetStubs.socketAlloc]
  cases firstClosed s with
  | none => simp
  | some k => cases mallocOk <;> simp [Stubs.malloc, Socket.zero]

theorem Clean.attachPcb {a : ℤ × Stubs} (ha : Clean f a.2)
    (h0 : ¬ a.1 < 0 → (a.2.sock a.1).recvLen = 0) (newOk : Bool) {g : Socket → Socket}
    (c : LwipCall) (hg : ∀ x, (g x).recvBuf = x.recvBuf ∧ (g x).recvLen = x.recvLen ∧
      (g x).recvCapacity = x.recvCapacity) :
    Clean f (attachPcb a newOk g c).2 := by
  unfold NetStubs.attachPcb
  by_cases hneg : a.1 < 0
  · simpa [hneg] using ha
  · cases newOk with
    | false =>
      simp only [if_neg hneg]
      exact ha.socketFree fun _ => h0 hneg
    | true =>
      simp only [if_neg hneg]
      obtain ⟨h1, h2, h3⟩ := hg (a.2.sock a.1)
      have hnext : Clean f { a.2 with pcbNext := a.2.pcbNext + 1 } := { ha with }
      exact (hnext.mark h1 h2 h3).call c

theorem Clean.picoTcpCreate (h : Clean f s) (mallocOk tcpNewOk : Bool) :
    Clean f (picoTcpCreate s mallocOk tcpNewOk).2 := by
  rw [picoTcpCreate_eq]
  exact .attachPcb (h.socketAlloc .tcp mallocOk) (socketAlloc_empty .tcp mallocOk) tcpNewOk _
    fun _ => ⟨rfl, rfl, rfl⟩

theorem Clean.picoUdpCreate (h : Clean f s) (mallocOk udpNewOk : Bool) :
    Clean f (picoUdpCreate s mallocOk udpNewOk).2 := by
  rw [picoUdpCreate_eq]
  exact .attachPcb (h.socketAlloc .udp mallocOk) (socketAlloc_empty .udp mallocOk) udpNewOk _
    fun _ => ⟨rfl, rfl, rfl⟩

theorem Clean.closedBy {proto : SocketProto} {id : ℤ} (h : Clean f s) (hc : ClosedBy proto s id t)
    (hl : badId id = false → (s.sock id).proto = proto → (s.sock id).recvLen = 0) : Clean f t := by
  rcases hc with rfl | ⟨hid, hp, lwip, rfl⟩
  · exact h
  · have hlwip : Clean f { s with lwip := lwip } := { h with }
    exact hlwip.socketFree fun _ => hl hid hp

theorem Clean.picoTcpClose {id : ℤ} (h : Clean f s)
    (hl : badId id = false → (s.sock id).proto = .tcp → (s.sock id).recvLen = 0) :
    Clean f (picoTcpClose s id) :=
  h.closedBy (picoTcpClose_closedBy s id) hl

theorem Clean.picoUdpClose {id : ℤ} (h : Clean f s)
    (hl : badId id = false → (s.sock id).proto = .udp → (s.sock id).recvLen = 0) :
    Clean f (picoUdpClose s id) :=
  h.closedBy (picoUdpClose_closedBy s id) hl

/-- The copy stays inside the block because `space` is what the capacity leaves. -/
theorem Clean.copyToRecvBuf {arg : ℤ} {bytes : Bytes} {mark : Socket → Socket} (h : Clean f s)
    (hm : ∀ x, (mark x).recvBuf = x.recvBuf ∧ (mark x).recvLen = x.recvLen ∧
      (mark x).recvCapacity = x.recvCapacity)
    (hb : bytes ≠ [] → (s.sock arg).recvLen < (s.sock arg).recvCapacity →
      (s.sock arg).recvBuf ≠ none) : Clean f (copyToRecvBuf s arg bytes mark).2 := by
  have hfits := h.fits arg.toNat
  have hbound := h.bound arg.toNat
  simp only [NetStubs.copyToRecvBuf]
  set c := if bytes.length < (s.sock arg).recvCapacity - (s.sock arg).recvLen then bytes.length
    else (s.sock arg).recvCapacity - (s.sock arg).recvLen with hc
  have hle : (s.sock arg).recvLen + c ≤ (s.sock arg).recvCapacity ∧ c ≤ bytes.length := by
    change (s.sock arg).recvLen ≤ (s.sock arg).recvCapacity at hfits
    rw [hc]
    split <;> omega
  by_cases hpos : c > 0
  · simp only [if_pos hpos]
    have hbytes : bytes ≠ [] := by
      rintro rfl
      simp only [List.length_nil] at hle
      omega
    have hbuf := hb hbytes (by omega)
    have hlen : (bytes.take c).length = c := by
      rw [List.length_take]
      omega
    obtain ⟨h1, h2, h3⟩ := hm { s.sock arg with recvLen := (s.sock arg).recvLen + c }
    have hroom : (s.sock arg).recvLen + c ≤ maxRecvBuffer := hle.1.trans hbound
    have ht : Clean f (s.touch (s.sock arg).recvBuf (s.sock arg).recvLen c) := h.touch _ _ hbuf hroom
    have htake : (s.sock arg).recvLen + (bytes.take c).length ≤ maxRecvBuffer := by omega
    have hst := ht.store arg.toNat (s.sock arg).recvLen htake
    apply Clean.setSock hst
    · rw [h1]
      simp
    · rw [h2, h3]
      exact hle.1
    · rw [h3]
      exact hbound
    · rw [h1]
      exact fun hn => absurd hn hbuf
  · simp only [if_neg hpos]
    exact h

theorem Clean.tcpRecvCallback {arg : ℤ} {p : Option Bytes} {err : ℤ} (h : Clean f s) (tpcb : ℕ)
    (hb : ∀ bytes, p = some bytes → err = errOk → Copies s arg bytes →
      (s.sock arg).recvBuf ≠ none) : Clean f (tcpRecvCallback s arg tpcb p err).2 := by
  simp only [NetStubs.tcpRecvCallback]
  split
  · exact h
  · rename_i hid
    cases p with
    | none =>
      apply Clean.enqueue
      exact h.mark rfl rfl rfl
    | some bytes =>
      by_cases he : err ≠ errOk
      · simp only [if_pos he]
        exact h
      · simp only [if_neg he]
        apply Clean.enqueue
        apply Clean.call
        refine Clean.copyToRecvBuf h (fun _ => ⟨rfl, rfl, rfl⟩) ?_
        intro hne hroom
        exact hb bytes rfl (not_not.mp he) ⟨by simpa using hid, hne, hroom⟩

theorem Clean.udpRecvCallback {arg : ℤ} {p : Option Bytes} (h : Clean f s) (addr : Word)
    (port : BitVec 16) (hb : ∀ bytes, p = some bytes → Copies s arg bytes →
      (s.sock arg).recvBuf ≠ none) : Clean f (udpRecvCallback s arg p addr port) := by
  cases p with
  | none => exact h
  | some bytes =>
    simp only [NetStubs.udpRecvCallback]
    split
    · exact h
    · rename_i hid
      apply Clean.enqueue
      refine Clean.copyToRecvBuf h (fun _ => ⟨rfl, rfl, rfl⟩) ?_
      intro hne hroom
      exact hb bytes rfl ⟨by simpa using hid, hne, hroom⟩

theorem taken_le (len maxLen : ℕ) : (if len < maxLen then len else maxLen) ≤ len := by
  split <;> omega

/-- A read leaves what it did not take at the front of the block. -/
theorem Clean.picoTcpRead (h : Clean f s) (id : ℤ) (maxLen : ℕ) :
    Clean f (picoTcpRead s id maxLen).2 := by
  have hfits : (s.sock id).recvLen ≤ (s.sock id).recvCapacity := h.fits id.toNat
  have hbound : (s.sock id).recvCapacity ≤ maxRecvBuffer := h.bound id.toNat
  simp only [NetStubs.picoTcpRead]
  set c := if (s.sock id).recvLen < maxLen then (s.sock id).recvLen else maxLen
  have hle : c ≤ (s.sock id).recvLen := taken_le _ _
  split
  · exact h
  · split
    · exact h
    · rw [apply_ite Prod.snd, ite_id]
      by_cases hpos : c > 0
      · simp only [if_pos hpos]
        have hbuf := h.buffer (i := id) (by omega)
        have ht : Clean f (s.touch (s.sock id).recvBuf 0 c) := h.touch _ _ hbuf (by omega)
        have hkeep : ∀ t : Stubs, Clean f t → t.sock id = s.sock id →
            Clean f (t.setSock id { s.sock id with recvLen := (s.sock id).recvLen - c }) := by
          intro t ht hs
          apply ht.setSock
          · rw [hs]
          · simp only
            omega
          · exact hbound
          · exact fun hn => absurd hn hbuf
        split
        · apply hkeep
          · have ht' := ht.touch 0 (s.sock id).recvLen hbuf (by omega)
            refine ht'.store id.toNat 0 ?_
            simp only [Stubs.load]
            split
            · simp only [List.length_take, List.length_drop]
              omega
            · simp only [List.length_replicate]
              omega
          · simp
        · exact hkeep _ ht (by simp)
      · simp only [if_neg hpos]
        exact h

theorem Clean.picoUdpRecvfrom (h : Clean f s) (id : ℤ) (maxLen : ℕ) :
    Clean f (picoUdpRecvfrom s id maxLen).2 := by
  have hfits : (s.sock id).recvLen ≤ (s.sock id).recvCapacity := h.fits id.toNat
  have hbound : (s.sock id).recvCapacity ≤ maxRecvBuffer := h.bound id.toNat
  simp only [NetStubs.picoUdpRecvfrom]
  set c := if (s.sock id).recvLen < maxLen then (s.sock id).recvLen else maxLen
  have hle : c ≤ (s.sock id).recvLen := taken_le _ _
  split
  · exact h
  · split
    · exact h
    · split
      · have hbuf := h.buffer (i := id) (by omega)
        have ht : Clean f (s.touch (s.sock id).recvBuf 0 c) := h.touch _ _ hbuf (by omega)
        exact ht.setSock (by simp) (Nat.zero_le _) hbound fun _ => rfl
      · exact h

theorem Clean.picoTcpConnect (h : Clean f s) (id : ℤ) (ip : Word) (port : BitVec 16) (err : ℤ) :
    Clean f (picoTcpConnect s id ip port err).2 := by
  simp only [NetStubs.picoTcpConnect]
  split
  · exact h
  · split
    · apply Clean.call
      exact h.mark rfl rfl rfl
    · exact h

theorem Clean.picoTcpWrite (h : Clean f s) (id : ℤ) (data : Bytes) (len : ℕ) (err : ℤ) :
    Clean f (picoTcpWrite s id data len err).2 := by
  simp only [NetStubs.picoTcpWrite]
  repeat' split
  all_goals first | exact h | exact h.call _

theorem Clean.picoUdpBind (h : Clean f s) (id : ℤ) (port : BitVec 16) (err : ℤ) :
    Clean f (picoUdpBind s id port err).2 := by
  simp only [NetStubs.picoUdpBind]
  repeat' split
  all_goals first | exact h | exact h.call _

/-- The one function that may set the flag does not look at the receive buffers. -/
theorem Clean.picoUdpSendto (h : Clean f s) (id : ℤ) (ip : Word) (port : BitVec 16) (data : Bytes)
    (len : ℕ) (pbufOk : Bool) (err : ℤ) :
    ∃ g, Clean g (picoUdpSendto s id ip port data len pbufOk err).2 := by
  have hflag : ∀ b, Clean b { s with fault := b } := fun b => { h with fault := rfl }
  simp only [NetStubs.picoUdpSendto]
  repeat' split
  · exact ⟨f, h⟩
  · exact ⟨f, h⟩
  · exact ⟨_, (hflag _).call _⟩
  · exact ⟨_, hflag _⟩
  · exact ⟨f, h⟩

theorem Clean.tcpErrCallback (h : Clean f s) (arg err : ℤ) :
    Clean f (tcpErrCallback s arg err) := by
  simp only [NetStubs.tcpErrCallback]
  apply Clean.enqueue
  split
  · exact h
  · exact h.mark rfl rfl rfl

theorem Clean.tcpConnectedCallback (h : Clean f s) (arg err : ℤ) :
    Clean f (tcpConnectedCallback s arg err).2 := by
  simp only [NetStubs.tcpConnectedCallback]
  apply Clean.enqueue
  split
  · exact h
  · exact h.mark rfl rfl rfl

theorem Clean.netInit (h : Clean f s) : Clean f (netInit s) := by
  simp only [NetStubs.netInit]
  split
  · exact h
  · refine ⟨fun _ => le_rfl, fun _ => Nat.zero_le _, fun _ _ => rfl, ?_, ?_, h.fault⟩
    · rintro n a ⟨⟩
    · rintro m n a ⟨⟩

theorem Clean.wifiConnect (h : Clean f s) (result : ℤ) : Clean f (wifiConnect s result).2 := by
  simp only [NetStubs.wifiConnect]
  split
  · exact h.netInit.enqueue _
  · exact h.netInit

/-! ### Steps and runs -/

theorem initial_clean : Clean false Stubs.initial := by
  refine ⟨fun _ => le_rfl, fun _ => Nat.zero_le _, fun _ _ => rfl, ?_, ?_, rfl⟩
  · rintro n a ⟨⟩
  · rintro m n a ⟨⟩

/-- A drained call keeps the heap clean, and only a datagram may move the flag. -/
theorem next_clean (h : Clean f u.stubs) (hd : u.Drained o v) :
    ∃ g, Clean g (u.next o).stubs ∧ u.InBounds o (u.next o) := by
  have hsame : Clean f (u.next o).stubs →
      ∃ g, Clean g (u.next o).stubs ∧ u.InBounds o (u.next o) := by
    intro hn
    refine ⟨f, hn, ?_⟩
    cases o <;> first | trivial | exact hn.fault.trans h.fault.symm
  cases o with
  | wifiConnect result => exact hsame (h.wifiConnect result)
  | wifiDisconnect => exact hsame (h.enqueue _)
  | tcpCreate mallocOk tcpNewOk => exact hsame (h.picoTcpCreate mallocOk tcpNewOk)
  | tcpConnect id ip port err => exact hsame (h.picoTcpConnect id ip port err)
  | tcpWrite id data len err => exact hsame (h.picoTcpWrite id data len err)
  | tcpRead id maxLen => exact hsame (h.picoTcpRead id maxLen)
  | tcpClose id => exact hsame (h.picoTcpClose hd)
  | udpCreate mallocOk udpNewOk => exact hsame (h.picoUdpCreate mallocOk udpNewOk)
  | udpBind id port err => exact hsame (h.picoUdpBind id port err)
  | udpSendto id ip port data len pbufOk err =>
    obtain ⟨g, hg⟩ := h.picoUdpSendto id ip port data len pbufOk err
    exact ⟨g, hg, trivial⟩
  | udpRecvfrom id maxLen => exact hsame (h.picoUdpRecvfrom id maxLen)
  | udpClose id => exact hsame (h.picoUdpClose hd)
  | tcpRecvCallback arg tpcb p err =>
    refine hsame (h.tcpRecvCallback tpcb ?_)
    rintro bytes rfl
    exact hd
  | tcpSentCallback arg len => exact hsame (h.enqueue _)
  | tcpErrCallback arg err => exact hsame (h.tcpErrCallback arg err)
  | tcpConnectedCallback arg err => exact hsame (h.tcpConnectedCallback arg err)
  | udpRecvCallback arg p addr port =>
    refine hsame (h.udpRecvCallback addr port ?_)
    rintro bytes rfl
    exact hd

/-- Closing a slot with bytes in it leaves them without a block. -/
theorem socketFree_not_backed {id : ℤ} (hid : badId id = false) (hl : (s.sock id).recvLen ≠ 0) :
    ¬ Backed id.toNat (socketFree s id) := by
  rintro ⟨-, -, hlive⟩
  have hsock : (socketFree s id).sockets id.toNat =
      { s.sock id with recvBuf := none, state := .closed, pcb := none } := by
    simp [socketFree, hid, Stubs.setSock]
  rw [hsock] at hlive
  obtain ⟨a, b, ha, -⟩ := hlive (by simp only; omega)
  cases ha

/-- So does copying into a slot without a buffer. -/
theorem copyToRecvBuf_not_backed {arg : ℤ} {bytes : Bytes} (mark : Socket → Socket)
    (hm : ∀ x, (mark x).recvBuf = x.recvBuf ∧ (mark x).recvLen = x.recvLen)
    (hc : Copies s arg bytes) (hn : (s.sock arg).recvBuf = none) :
    ¬ Backed arg.toNat (copyToRecvBuf s arg bytes mark).2 := by
  obtain ⟨-, hne, hroom⟩ := hc
  have hlen : 0 < bytes.length := List.length_pos_iff.mpr hne
  rintro ⟨-, -, hlive⟩
  simp only [copyToRecvBuf] at hlive
  rw [if_pos (by split <;> omega)] at hlive
  simp only [Stubs.setSock, Function.update_self, hm, hn] at hlive
  obtain ⟨a, b, ha, -⟩ := hlive (by split <;> omega)
  cases ha

theorem valid_toNat {id : ℤ} (hid : badId id = false) : id.toNat < maxSockets := by
  simp only [badId, Bool.or_eq_false_iff, decide_eq_false_iff_not] at hid
  omega

theorem drained_of_sound (hs : (u.next o).Sound) : u.Drained o v := by
  cases o with
  | tcpClose id =>
    intro hid hp
    by_contra hl
    have hb := hs id.toNat (valid_toNat hid)
    simp only [Table.next, picoTcpClose, hid, hp] at hb
    cases hpcb : (u.stubs.sock id).pcb with
    | none => exact socketFree_not_backed hid hl (by simpa [hpcb] using hb)
    | some pcb =>
      refine socketFree_not_backed
        (s := (u.stubs.call (.tcpArg pcb none)).call (.tcpClose pcb)) hid hl ?_
      simpa [hpcb] using hb
  | udpClose id =>
    intro hid hp
    by_contra hl
    have hb := hs id.toNat (valid_toNat hid)
    simp only [Table.next, picoUdpClose, hid, hp] at hb
    cases hpcb : (u.stubs.sock id).pcb with
    | none => exact socketFree_not_backed hid hl (by simpa [hpcb] using hb)
    | some pcb =>
      refine socketFree_not_backed (s := u.stubs.call (.udpRemove pcb)) hid hl ?_
      simpa [hpcb] using hb
  | tcpRecvCallback arg tpcb p err =>
    cases p with
    | none => trivial
    | some bytes =>
      intro he hc hn
      have hb := hs arg.toNat (valid_toNat hc.1)
      simp only [Table.next, tcpRecvCallback, hc.1, he] at hb
      exact copyToRecvBuf_not_backed id (fun _ => ⟨rfl, rfl⟩) hc hn
        ⟨hb.fits, hb.bound, hb.live⟩
  | udpRecvCallback arg p addr port =>
    cases p with
    | none => trivial
    | some bytes =>
      intro hc hn
      have hb := hs arg.toNat (valid_toNat hc.1)
      simp only [Table.next, udpRecvCallback, hc.1, Bool.false_eq_true, if_false] at hb
      refine copyToRecvBuf_not_backed
        (fun sock => { sock with udpSrcIp := addr, udpSrcPort := port }) (fun _ => ⟨rfl, rfl⟩) hc hn ?_
      exact ⟨hb.fits, hb.bound, hb.live⟩
  | _ => trivial

/-- Whatever is called, every receive buffer stays sound, and no copy leaves one, exactly when
every close comes after the last byte is read and no data reaches a slot without a buffer. -/
theorem buffers_sound_iff (calls : List Call) :
    let xs := Lts.trace Table.next Table.initial calls
    Lts.Run Table.Drained Table.initial xs ↔
      Lts.Always Table.Sound Table.initial xs ∧ Lts.Run Table.InBounds Table.initial xs := by
  intro xs
  have hinit : ∃ g, Clean g Table.initial.stubs := ⟨false, initial_clean⟩
  have hcongr : Lts.Run Table.Drained Table.initial xs ↔
      Lts.Run (fun u o v => Table.Sound v ∧ Table.InBounds u o v) Table.initial xs := by
    refine Lts.run_trace.congr (p := fun u => ∃ g, Clean g u.stubs) hinit ?_ ?_
    · rintro u o v ⟨f, hf⟩ rfl
      constructor
      · intro hd
        obtain ⟨g, hg, hin⟩ := next_clean hf hd
        exact ⟨fun n _ => hg.backed n, hin⟩
      · rintro ⟨hs, -⟩
        exact drained_of_sound hs
    · rintro u o v ⟨f, hf⟩ rfl ⟨hs, -⟩
      obtain ⟨g, hg, -⟩ := next_clean hf (drained_of_sound (v := u.next o) hs)
      exact ⟨g, hg⟩
  have hand : Lts.Run (fun u o v => Table.Sound v ∧ Table.InBounds u o v) Table.initial xs ↔
      Lts.Run (fun _ _ v => Table.Sound v) Table.initial xs ∧
        Lts.Run Table.InBounds Table.initial xs := Lts.run_and
  have hfirst : Table.Sound Table.initial := fun n _ => initial_clean.backed n
  rw [hcongr, hand, Lts.always_iff, and_iff_right hfirst]

/-- A socket is closed with one byte unread, and the read that follows copies from `NULL`. -/
theorem buffers_unsound :
    ¬ ∀ calls, let xs := Lts.trace Table.next Table.initial calls
      Lts.Always Table.Sound Table.initial xs ∧ Lts.Run Table.InBounds Table.initial xs := by
  intro h
  let unread : List Call := [.tcpCreate true true, .tcpConnect 0 0 80 0,
    .tcpConnectedCallback 0 0, .tcpRecvCallback 0 0 (some [65]) 0, .tcpClose 0]
  obtain ⟨-, -, -, -, -, -, hread, -⟩ := h (unread ++ [.tcpRead 0 16])
  have hfault : ((unread.foldl Table.next Table.initial).next (.tcpRead 0 16)).stubs.fault =
      (unread.foldl Table.next Table.initial).stubs.fault := hread
  exact absurd hfault (by decide +kernel)

end PicoOcaml.NetStubs
