import PicoOcaml.NetStubs.Stream
import PicoOcaml.Pipe

/-! The receive buffer of a TCP slot is a bounded pipe, whatever becomes of the other slots. -/
namespace PicoOcaml.NetStubs

/-- Every buffer is a whole block that no other slot has. -/
structure Blocks (s : Stubs) : Prop where
  block : ∀ n a, (s.sockets n).recvBuf = some a → a < s.heapNext ∧
    (s.sockets n).recvCapacity = maxRecvBuffer ∧ (s.sockets n).recvLen ≤ maxRecvBuffer ∧
    ∃ b, s.heap a = some b ∧ b.length = maxRecvBuffer
  distinct : ∀ m n a, (s.sockets m).recvBuf = some a → (s.sockets n).recvBuf = some a → m = n

/-- The slot is a TCP socket with the buffer `a`. -/
structure Holds (i : ℤ) (a : ℕ) (s : Stubs) : Prop where
  proto : (s.sock i).proto = .tcp
  buffer : (s.sock i).recvBuf = some a

/-- If the slot still has its buffer in the end, that has changed as a pipe does by `ops`. -/
structure Pipes (i : ℤ) (a : ℕ) (ops : List (Pipe.Op UInt8)) (s t : Stubs) : Prop where
  heapNext : s.heapNext ≤ t.heapNext
  blocks : Blocks s → Blocks t
  slot : Blocks s → a < s.heapNext → Holds i a t →
    Holds i a s ∧ content i t = Pipe.held maxRecvBuffer (content i s) ops

variable {i j : ℤ} {a : ℕ} {s t r : Stubs} {ops ops' : List (Pipe.Op UInt8)} {sock : Socket}

theorem initial_blocks : Blocks Stubs.initial := by
  constructor
  · intro n a h
    cases h
  · intro m n a h
    cases h

theorem Holds.buffered (h : Holds i a s) (hb : Blocks s) (hi : badId i = false) : Buffered i s := by
  obtain ⟨-, hcap, hlen, b, hab, hbl⟩ := hb.block _ _ h.buffer
  exact ⟨hi, h.proto, hcap, hlen, a, b, h.buffer, hab, hbl⟩

theorem Pipes.refl : Pipes i a [] s s := ⟨Nat.le_refl _, id, fun _ _ h => ⟨h, rfl⟩⟩

theorem Pipes.trans (h : Pipes i a ops s t) (h' : Pipes i a ops' t r) : Pipes i a (ops ++ ops') s r := by
  refine ⟨h.heapNext.trans h'.heapNext, fun hs => h'.blocks (h.blocks hs), ?_⟩
  intro hs ha hr
  obtain ⟨ht, hrt⟩ := h'.slot (h.blocks hs) (Nat.lt_of_lt_of_le ha h.heapNext) hr
  obtain ⟨hholds, hts⟩ := h.slot hs ha ht
  exact ⟨hholds, by rw [hrt, hts, Pipe.held_append]⟩

/-! ### What leaves the buffers alone -/

/-- The fields that a buffer depends on. -/
def Socket.view (sock : Socket) : SocketProto × Option ℕ × ℕ × ℕ :=
  (sock.proto, sock.recvBuf, sock.recvLen, sock.recvCapacity)

structure Still (s t : Stubs) : Prop where
  view : ∀ n, (t.sockets n).view = (s.sockets n).view
  heap : t.heap = s.heap
  heapNext : t.heapNext = s.heapNext

theorem Still.refl : Still s s := ⟨fun _ => rfl, rfl, rfl⟩

theorem Still.call (h : Still s t) (c : LwipCall) : Still s (t.call c) := ⟨h.view, h.heap, h.heapNext⟩

theorem Still.enqueue (h : Still s t) (e : NetEvent) : Still s (t.enqueue e) :=
  ⟨h.view, h.heap, h.heapNext⟩

theorem Still.setSock (h : Still s t) (hv : sock.view = (t.sock j).view) :
    Still s (t.setSock j sock) := by
  refine ⟨fun n => ?_, h.heap, h.heapNext⟩
  by_cases hn : n = j.toNat
  · subst hn
    rw [← h.view]
    simpa [Stubs.setSock, Stubs.sock] using hv
  · simpa [Stubs.setSock, hn] using h.view n

theorem Still.pipes (h : Still s t) : Pipes i a [] s t := by
  have hview : ∀ n, (t.sockets n).proto = (s.sockets n).proto ∧
      (t.sockets n).recvBuf = (s.sockets n).recvBuf ∧ (t.sockets n).recvLen = (s.sockets n).recvLen ∧
      (t.sockets n).recvCapacity = (s.sockets n).recvCapacity := by
    intro n
    have hn := h.view n
    simp only [Socket.view, Prod.mk.injEq] at hn
    exact hn
  refine ⟨Nat.le_of_eq h.heapNext.symm, fun hs => ⟨?_, ?_⟩, ?_⟩
  · intro n b hb
    obtain ⟨-, hbuf, hlen, hcap⟩ := hview n
    rw [h.heapNext, h.heap, hlen, hcap]
    exact hs.block n b (hbuf.symm.trans hb)
  · intro m n b hm hn
    exact hs.distinct m n b ((hview m).2.1.symm.trans hm) ((hview n).2.1.symm.trans hn)
  · intro _ _ ht
    obtain ⟨hproto, hbuf, hlen, -⟩ := hview i.toNat
    refine ⟨⟨hproto.symm.trans ht.proto, hbuf.symm.trans ht.buffer⟩, ?_⟩
    have hbuf' : (t.sock i).recvBuf = (s.sock i).recvBuf := hbuf
    have hlen' : (t.sock i).recvLen = (s.sock i).recvLen := hlen
    simp only [content, Stubs.load, hbuf', hlen', h.heap, Pipe.held_nil]

theorem still_picoTcpConnect (id : ℤ) (ip : Word) (port : BitVec 16) (err : ℤ) :
    Still s (picoTcpConnect s id ip port err).2 := by
  simp only [picoTcpConnect]
  split
  · exact Still.refl
  · split
    · apply Still.call
      exact Still.refl.setSock rfl
    · exact Still.refl

theorem still_picoTcpWrite (id : ℤ) (data : Bytes) (len : ℕ) (err : ℤ) :
    Still s (picoTcpWrite s id data len err).2 := by
  simp only [picoTcpWrite]
  repeat' split
  all_goals exact ⟨fun _ => rfl, rfl, rfl⟩

theorem still_picoUdpBind (id : ℤ) (port : BitVec 16) (err : ℤ) :
    Still s (picoUdpBind s id port err).2 := by
  simp only [picoUdpBind]
  repeat' split
  all_goals exact ⟨fun _ => rfl, rfl, rfl⟩

theorem still_picoUdpSendto (id : ℤ) (ip : Word) (port : BitVec 16) (data : Bytes) (len : ℕ)
    (pbufOk : Bool) (err : ℤ) : Still s (picoUdpSendto s id ip port data len pbufOk err).2 := by
  simp only [picoUdpSendto]
  repeat' split
  all_goals exact ⟨fun _ => rfl, rfl, rfl⟩

theorem still_tcpErrCallback (arg err : ℤ) : Still s (tcpErrCallback s arg err) := by
  simp only [tcpErrCallback]
  apply Still.enqueue
  split
  · exact Still.refl
  · exact Still.refl.setSock rfl

theorem still_tcpConnectedCallback (arg err : ℤ) : Still s (tcpConnectedCallback s arg err).2 := by
  simp only [tcpConnectedCallback]
  apply Still.enqueue
  split
  · exact Still.refl
  · exact Still.refl.setSock rfl

theorem Pipes.still (h : Pipes i a ops s t) (h' : Still t r) : Pipes i a ops s r := by
  have htrans := h.trans h'.pipes
  rwa [List.append_nil] at htrans

/-! ### What works on one slot -/

/-- Only slot `j` changes, and its block. -/
structure Near (j : ℤ) (s t : Stubs) : Prop where
  others : ∀ n, n ≠ j.toNat → t.sockets n = s.sockets n
  heap : ∀ a, (s.sock j).recvBuf ≠ some a → t.heap a = s.heap a
  heapNext : t.heapNext = s.heapNext

theorem Near.refl : Near j s s := ⟨fun _ _ => rfl, fun _ _ => rfl, rfl⟩

theorem Near.touch (h : Near j s t) (p : Option ℕ) (off len : ℕ) : Near j s (t.touch p off len) :=
  ⟨h.others, h.heap, h.heapNext⟩

theorem Near.setSock (h : Near j s t) (sock : Socket) : Near j s (t.setSock j sock) := by
  refine ⟨fun n hn => ?_, h.heap, h.heapNext⟩
  rw [← h.others n hn]
  simp [Stubs.setSock, hn]

theorem Near.store (h : Near j s t) (off : ℕ) (bytes : Bytes) :
    Near j s (t.store (s.sock j).recvBuf off bytes) := by
  cases hb : (s.sock j).recvBuf with
  | none => exact h
  | some b =>
    refine ⟨h.others, fun c hc => ?_, h.heapNext⟩
    have hne : c ≠ b := by
      rintro rfl
      exact hc hb
    rw [← h.heap c hc]
    simp [Stubs.store, hne]

/-- The buffer that slot `j` has after the step is the one it had, and whole. -/
structure Local (j : ℤ) (s t : Stubs) : Prop where
  near : Near j s t
  own : Blocks s → ∀ a, (t.sock j).recvBuf = some a → (s.sock j).recvBuf = some a ∧
    (t.sock j).recvCapacity = maxRecvBuffer ∧ (t.sock j).recvLen ≤ maxRecvBuffer ∧
    ∃ b, t.heap a = some b ∧ b.length = maxRecvBuffer

theorem Local.refl : Local j s s := ⟨Near.refl, fun hs a ha => ⟨ha, (hs.block _ a ha).2⟩⟩

theorem Local.blocks (h : Local j s t) (hs : Blocks s) : Blocks t := by
  have hold : ∀ n a, (t.sockets n).recvBuf = some a → (s.sockets n).recvBuf = some a := by
    intro n a ha
    by_cases hn : n = j.toNat
    · subst hn
      exact (h.own hs a ha).1
    · rw [← h.near.others n hn]
      exact ha
  refine ⟨fun n a ha => ?_, fun m n a hm hn => hs.distinct m n a (hold m a hm) (hold n a hn)⟩
  obtain ⟨hlt, hcap, hlen, hblock⟩ := hs.block n a (hold n a ha)
  rw [h.near.heapNext]
  by_cases hn : n = j.toNat
  · subst hn
    exact ⟨hlt, (h.own hs a ha).2⟩
  · have hne : (s.sock j).recvBuf ≠ some a := fun hj => hn (hs.distinct n _ a (hold n a ha) hj)
    rw [h.near.others n hn, h.near.heap a hne]
    exact ⟨hlt, hcap, hlen, hblock⟩

theorem toNat_ne (hi : badId i = false) (hj : badId j = false) (hij : j ≠ i) : i.toNat ≠ j.toNat := by
  have hi0 := nonneg_of_valid hi
  have hj0 := nonneg_of_valid hj
  omega

/-- Another slot keeps its buffer and what is in it. -/
theorem Local.pipes_ne (h : Local j s t) (hij : i.toNat ≠ j.toNat) : Pipes i a [] s t := by
  have hsock : t.sock i = s.sock i := h.near.others _ hij
  refine ⟨Nat.le_of_eq h.near.heapNext.symm, h.blocks, fun hs _ ht => ?_⟩
  have hbuf : (s.sock i).recvBuf = some a := hsock ▸ ht.buffer
  have hne : (s.sock j).recvBuf ≠ some a := fun hj => hij (hs.distinct _ _ a hbuf hj)
  refine ⟨⟨hsock ▸ ht.proto, hbuf⟩, ?_⟩
  simp only [content, Stubs.load, hsock, hbuf, Option.bind_some, h.near.heap a hne, Pipe.held_nil]

theorem Local.pipes (h : Local i s t) (hsame : Same i.toNat s t)
    (hcontent : Buffered i s → content i t = Pipe.held maxRecvBuffer (content i s) ops)
    (hi : badId i = false) : Pipes i a ops s t := by
  refine ⟨Nat.le_of_eq h.near.heapNext.symm, h.blocks, fun hs _ ht => ?_⟩
  have hold : Holds i a s := ⟨hsame.proto.symm.trans ht.proto, hsame.buffer.symm.trans ht.buffer⟩
  exact ⟨hold, hcontent (hold.buffered hs hi)⟩

theorem Blocks.filled (hs : Blocks s) (hj : badId j = false) (ha : (s.sock j).recvBuf = some a) :
    Filled j s := by
  obtain ⟨-, hcap, hlen, b, hab, hbl⟩ := hs.block _ _ ha
  exact ⟨hj, hcap, hlen, a, b, ha, hab, hbl⟩

theorem Filled.own (h : Filled j t) (ha : (t.sock j).recvBuf = some a) :
    (t.sock j).recvCapacity = maxRecvBuffer ∧ (t.sock j).recvLen ≤ maxRecvBuffer ∧
      ∃ b, t.heap a = some b ∧ b.length = maxRecvBuffer := by
  obtain ⟨a', b, ha', hab, hbl⟩ := h.block
  have heq : a' = a := Option.some.inj (ha'.symm.trans ha)
  subst heq
  exact ⟨h.capacity, h.fits, b, hab, hbl⟩

/-! ### The functions -/

theorem local_copyToRecvBuf (hj : badId j = false) (bytes : Bytes) (mark : Socket → Socket)
    (hm : ∀ k, (mark k).recvBuf = k.recvBuf ∧ (mark k).recvCapacity = k.recvCapacity ∧
      (mark k).recvLen = k.recvLen)
    (hp : ∀ k, (mark k).proto = k.proto ∧ (mark k).pcb = k.pcb ∧ (mark k).recvBuf = k.recvBuf) :
    Local j s (copyToRecvBuf s j bytes mark).2 := by
  constructor
  · simp only [copyToRecvBuf]
    generalize (if bytes.length < _ then _ else _) = c
    split
    · apply Near.setSock
      apply Near.store
      exact Near.refl.touch _ _ _
    · exact Near.refl
  · intro hs a ha
    have hsame : Same j.toNat s (copyToRecvBuf s j bytes mark).2 := same_copyToRecvBuf j bytes hp
    have hold : (s.sock j).recvBuf = some a := hsame.buffer.symm.trans ha
    obtain ⟨-, hfill, -⟩ := copyToRecvBuf_spec (hs.filled hj hold) bytes mark hm
    exact ⟨hold, hfill.own ha⟩

theorem pipes_copyToRecvBuf (hi : badId i = false) (hj : badId j = false) (bytes : Bytes)
    (mark : Socket → Socket)
    (hm : ∀ k, (mark k).recvBuf = k.recvBuf ∧ (mark k).recvCapacity = k.recvCapacity ∧
      (mark k).recvLen = k.recvLen)
    (hp : ∀ k, (mark k).proto = k.proto ∧ (mark k).pcb = k.pcb ∧ (mark k).recvBuf = k.recvBuf) :
    Pipes i a (if j = i then [.put bytes] else []) s (copyToRecvBuf s j bytes mark).2 := by
  have hlocal := local_copyToRecvBuf (s := s) hj bytes mark hm hp
  by_cases hij : j = i
  · subst hij
    rw [if_pos rfl]
    refine hlocal.pipes (same_copyToRecvBuf j bytes hp) (fun hbuf => ?_) hj
    obtain ⟨-, -, -, hcontent, -⟩ := copyToRecvBuf_spec hbuf.filled bytes mark hm
    rw [hcontent, Pipe.held_cons, Pipe.held_nil, Pipe.next, content_length hbuf]
  · rw [if_neg hij]
    exact hlocal.pipes_ne (toNat_ne hi hj hij)

theorem pipes_tcpRecvCallback (hi : badId i = false) (arg : ℤ) (tpcb : ℕ) (p : Option Bytes) (err : ℤ) :
    Pipes i a (if arg = i ∧ err = errOk then p.toList.map .put else []) s
      (tcpRecvCallback s arg tpcb p err).2 := by
  cases hj : badId arg with
  | true =>
    rw [if_neg fun h => ne_of_badId hi hj h.1]
    simpa [tcpRecvCallback, hj] using Pipes.refl
  | false =>
    cases p with
    | none =>
      have hclosed : Still s (s.setSock arg { s.sock arg with state := .closed }) :=
        Still.refl.setSock rfl
      simpa [tcpRecvCallback, hj] using (hclosed.enqueue (.tcpClosed arg)).pipes
    | some bytes =>
      by_cases he : err = errOk
      · subst he
        have hcopy := pipes_copyToRecvBuf (a := a) (s := s) hi hj bytes id
          (fun _ => ⟨rfl, rfl, rfl⟩) fun _ => ⟨rfl, rfl, rfl⟩
        simpa [tcpRecvCallback, hj] using
          hcopy.still ((Still.refl.call (.tcpRecved tpcb bytes.length)).enqueue _)
      · simpa [tcpRecvCallback, hj, he] using Pipes.refl

theorem pipes_udpRecvCallback (hi : badId i = false) (arg : ℤ) (p : Option Bytes) (addr : Word)
    (port : BitVec 16) : Pipes i a (if arg = i then p.toList.map .put else []) s
      (udpRecvCallback s arg p addr port) := by
  cases p with
  | none => simpa [udpRecvCallback] using Pipes.refl
  | some bytes =>
    cases hj : badId arg with
    | true =>
      rw [if_neg (ne_of_badId hi hj)]
      simpa [udpRecvCallback, hj] using Pipes.refl
    | false =>
      have hcopy := pipes_copyToRecvBuf (a := a) (s := s) hi hj bytes
        (fun sock => { sock with udpSrcIp := addr, udpSrcPort := port }) (fun _ => ⟨rfl, rfl, rfl⟩)
        fun _ => ⟨rfl, rfl, rfl⟩
      simpa [udpRecvCallback, hj] using hcopy.still (Still.refl.enqueue _)

theorem picoTcpRead_guarded (h : ¬ (badId j = false ∧ (s.sock j).proto = .tcp)) (n : ℕ) :
    (picoTcpRead s j n).2 = s := by
  simp only [picoTcpRead]
  split
  · rfl
  · split
    · rfl
    · rename_i hid hp
      exact absurd ⟨by simpa using hid, by simpa using hp⟩ h

theorem picoTcpRead_none (s : Stubs) (j : ℤ) : (picoTcpRead s j 0).2 = s := by
  simp only [picoTcpRead, Nat.not_lt_zero, if_false, gt_iff_lt]
  repeat' split
  all_goals rfl

theorem local_picoTcpRead (j : ℤ) (n : ℕ) : Local j s (picoTcpRead s j n).2 := by
  by_cases h : badId j = false ∧ (s.sock j).proto = .tcp
  · constructor
    · have hp : ¬ (s.sock j).proto ≠ .tcp := by simp [h.2]
      simp only [picoTcpRead, h.1, Bool.false_eq_true, if_false, if_neg hp]
      generalize (if (s.sock j).recvLen < n then _ else _) = c
      rw [apply_ite Prod.snd, ite_id]
      by_cases hc : c > 0
      · simp only [if_pos hc]
        apply Near.setSock
        split
        · apply Near.store
          exact (Near.refl.touch _ _ _).touch _ _ _
        · exact Near.refl.touch _ _ _
      · simp only [if_neg hc]
        exact Near.refl
    · intro hs a ha
      have hsame : Same j.toNat s (picoTcpRead s j n).2 := same_picoTcpRead j n
      have hold : (s.sock j).recvBuf = some a := hsame.buffer.symm.trans ha
      have hbuf : Buffered j s := (hs.filled h.1 hold).buffered h.2
      cases n with
      | zero =>
        rw [picoTcpRead_none] at ha ⊢
        exact ⟨hold, hbuf.filled.own ha⟩
      | succ n =>
        exact ⟨hold, (picoTcpRead_spec hbuf (by omega)).1.filled.own ha⟩
  · rw [picoTcpRead_guarded h]
    exact Local.refl

theorem picoTcpRead_count (h : Buffered i s) (n : ℕ) : (picoTcpRead s i n).1.1 =
    if min (s.sock i).recvLen n = 0 ∧ (s.sock i).state = .closed then (-2 : ℤ)
    else ((min (s.sock i).recvLen n : ℕ) : ℤ) := by
  have hf := h.fits
  have hc : (if (s.sock i).recvLen < n then (s.sock i).recvLen else n) = min (s.sock i).recvLen n := by
    split <;> omega
  have hint : toCInt (min (s.sock i).recvLen n) = (min (s.sock i).recvLen n : ℕ) :=
    toCInt_of_le (by omega)
  have hproto : ¬ (s.sock i).proto ≠ .tcp := by simp [h.proto]
  simp only [picoTcpRead, h.valid, if_neg hproto, Bool.false_eq_true, if_false, hc, hint]
  split <;> rfl

theorem pipes_picoTcpRead (hi : badId i = false) (j : ℤ) (n : ℕ) :
    Pipes i a (if j = i then [.take n] else []) s (picoTcpRead s j n).2 := by
  by_cases hij : j = i
  · subst hij
    rw [if_pos rfl]
    refine (local_picoTcpRead j n).pipes (same_picoTcpRead j n) (fun hbuf => ?_) hi
    cases n with
    | zero =>
      rw [picoTcpRead_none]
      rfl
    | succ n => exact (picoTcpRead_spec hbuf (by omega)).2.2.2.1
  · rw [if_neg hij]
    cases hj : badId j with
    | true =>
      rw [picoTcpRead_guarded (by simp [hj])]
      exact Pipes.refl
    | false => exact (local_picoTcpRead j n).pipes_ne (toNat_ne hi hj hij)

theorem pipes_picoUdpRecvfrom (hi : badId i = false) (j : ℤ) (maxLen : ℕ) :
    Pipes i a [] s (picoUdpRecvfrom s j maxLen).2 := by
  simp only [picoUdpRecvfrom]
  split
  · exact Pipes.refl
  · rename_i hid
    split
    · exact Pipes.refl
    · rename_i hp
      generalize (if (s.sock j).recvLen < maxLen then _ else _) = c
      split
      · have hj : badId j = false := by simpa using hid
        have hlocal : Local j s ((s.touch (s.sock j).recvBuf 0 c).setSock j
            { s.sock j with recvLen := 0 }) := by
          refine ⟨(Near.refl.touch _ _ _).setSock _, fun hs b hb => ?_⟩
          have hold : (s.sock j).recvBuf = some b := by simpa using hb
          obtain ⟨-, hcap, -, hblock⟩ := hs.block _ b hold
          exact ⟨hold, by rw [sock_setSock_self]; exact hcap, by simp, hblock⟩
        by_cases hij : j = i
        · subst hij
          refine ⟨Nat.le_refl _, hlocal.blocks, fun _ _ ht => absurd ht.proto ?_⟩
          have hudp : (s.sock j).proto = .udp := by simpa using hp
          simp [hudp]
        · exact hlocal.pipes_ne (toNat_ne hi hj hij)
      · exact Pipes.refl

/-- A slot that is left without a buffer. -/
theorem Near.pipes (h : Near j s t) (hi : badId i = false) (hj : badId j = false)
    (hnone : (t.sock j).recvBuf = none) : Pipes i a [] s t := by
  have hlocal : Local j s t := by
    refine ⟨h, fun _ b hb => ?_⟩
    rw [hnone] at hb
    cases hb
  by_cases hij : j = i
  · subst hij
    refine ⟨Nat.le_of_eq h.heapNext.symm, hlocal.blocks, fun _ _ ht => ?_⟩
    have hbuf := ht.buffer
    rw [hnone] at hbuf
    cases hbuf
  · exact hlocal.pipes_ne (toNat_ne hi hj hij)

theorem pipes_socketFree (hi : badId i = false) (j : ℤ) : Pipes i a [] s (socketFree s j) := by
  cases hj : badId j with
  | true => simpa [socketFree, hj] using Pipes.refl
  | false =>
    refine Near.pipes ?_ hi hj (socketFree_recvBuf hj)
    simp only [socketFree, hj, Bool.false_eq_true, if_false]
    apply Near.setSock
    cases hb : (s.sock j).recvBuf with
    | none => exact Near.refl
    | some b =>
      refine ⟨fun _ _ => rfl, fun c hc => ?_, rfl⟩
      have hne : c ≠ b := by
        rintro rfl
        exact hc hb
      simp [Stubs.free, hne]

theorem ClosedBy.pipes {proto : SocketProto} {id : ℤ} (h : ClosedBy proto s id t)
    (hi : badId i = false) :
    Pipes i a [] s t := by
  rcases h with rfl | ⟨-, -, lwip, rfl⟩
  · exact Pipes.refl
  · have hstill : Still s { s with lwip := lwip } := ⟨fun _ => rfl, rfl, rfl⟩
    exact hstill.pipes.trans (pipes_socketFree hi id)

/-- Slot `k` gets a block that no slot has. -/
theorem pipes_fresh {k : ℕ} {b : Bytes} {x : Socket}
    (hsock : t.sockets = Function.update s.sockets k x) (hbuf : x.recvBuf = some s.heapNext)
    (hcap : x.recvCapacity = maxRecvBuffer) (hlen : x.recvLen = 0)
    (hheap : t.heap = Function.update s.heap s.heapNext (some b)) (hb : b.length = maxRecvBuffer)
    (hnext : t.heapNext = s.heapNext + 1) : Pipes i a [] s t := by
  have hk : t.sockets k = x := by rw [hsock, Function.update_self]
  have hother : ∀ n, n ≠ k → t.sockets n = s.sockets n := by
    intro n hn
    rw [hsock, Function.update_of_ne hn]
  have hold : ∀ c, c ≠ s.heapNext → t.heap c = s.heap c := by
    intro c hc
    rw [hheap, Function.update_of_ne hc]
  refine ⟨by omega, fun hs => ⟨?_, ?_⟩, ?_⟩
  · intro n c hc
    by_cases hn : n = k
    · subst hn
      rw [hk, hbuf] at hc
      cases hc
      rw [hk]
      exact ⟨by omega, hcap, by omega, b, by rw [hheap, Function.update_self], hb⟩
    · rw [hother n hn] at hc ⊢
      obtain ⟨hlt, hrest⟩ := hs.block n c hc
      rw [hold c (by omega)]
      exact ⟨by omega, hrest⟩
  · intro m n c hm hn
    have hfresh : ∀ n, n ≠ k → (t.sockets n).recvBuf ≠ some s.heapNext := by
      intro n hn hc
      rw [hother n hn] at hc
      exact absurd (hs.block n _ hc).1 (Nat.lt_irrefl _)
    by_cases hmk : m = k
    · by_cases hnk : n = k
      · rw [hmk, hnk]
      · rw [hmk, hk, hbuf] at hm
        exact absurd (hn.trans hm.symm) (hfresh n hnk)
    · by_cases hnk : n = k
      · rw [hnk, hk, hbuf] at hn
        exact absurd (hm.trans hn.symm) (hfresh m hmk)
      · rw [hother m hmk] at hm
        rw [hother n hnk] at hn
        exact hs.distinct m n c hm hn
  · intro _ ha ht
    have hne : i.toNat ≠ k := by
      intro hik
      have hc : (t.sockets i.toNat).recvBuf = some a := ht.buffer
      rw [hik, hk, hbuf] at hc
      exact absurd (Option.some.inj hc) (by omega)
    have hsame : t.sock i = s.sock i := hother _ hne
    have hbuf' : (s.sock i).recvBuf = some a := hsame ▸ ht.buffer
    refine ⟨⟨hsame ▸ ht.proto, hbuf'⟩, ?_⟩
    simp only [content, Stubs.load, hsame, hbuf', Option.bind_some, hold a (by omega), Pipe.held_nil]

theorem pipes_socketAlloc (hi : badId i = false) (proto : SocketProto) (mallocOk : Bool) :
    Pipes i a [] s (socketAlloc s proto mallocOk).2 := by
  cases hk : firstClosed s with
  | none => simpa [socketAlloc, hk] using Pipes.refl
  | some k =>
    cases mallocOk with
    | true =>
      refine pipes_fresh (b := List.replicate maxRecvBuffer 0) (k := k) (x := { Socket.zero with
        proto := proto, state := .closed, recvCapacity := maxRecvBuffer, recvBuf := some s.heapNext })
        ?_ rfl rfl rfl ?_ List.length_replicate ?_
      all_goals simp [socketAlloc, hk, Stubs.malloc, Stubs.setSock]
    | false =>
      refine Near.pipes ?_ hi (firstClosed_valid hk) ?_
      · simp only [socketAlloc, hk, Stubs.malloc, Bool.false_eq_true, if_false]
        exact Near.refl.setSock _
      · simp [socketAlloc, hk, Stubs.malloc]

theorem pipes_attachPcb (hi : badId i = false) {r : ℤ × Stubs} {f : Socket → Socket} (newOk : Bool)
    (c : LwipCall) (hr : Pipes i a [] s r.2) (hf : ∀ x, (f x).view = x.view) :
    Pipes i a [] s (attachPcb r newOk f c).2 := by
  unfold attachPcb
  split
  · exact hr
  · split
    · exact hr.trans (pipes_socketFree hi r.1)
    · have hnext : Still r.2 { r.2 with pcbNext := r.2.pcbNext + 1 } := ⟨fun _ => rfl, rfl, rfl⟩
      exact hr.still ((hnext.setSock (hf _)).call c)

theorem pipes_picoTcpCreate (hi : badId i = false) (mallocOk tcpNewOk : Bool) :
    Pipes i a [] s (picoTcpCreate s mallocOk tcpNewOk).2 := by
  rw [picoTcpCreate_eq]
  exact pipes_attachPcb hi tcpNewOk _ (pipes_socketAlloc hi .tcp mallocOk) fun _ => rfl

theorem pipes_picoUdpCreate (hi : badId i = false) (mallocOk udpNewOk : Bool) :
    Pipes i a [] s (picoUdpCreate s mallocOk udpNewOk).2 := by
  rw [picoUdpCreate_eq]
  exact pipes_attachPcb hi udpNewOk _ (pipes_socketAlloc hi .udp mallocOk) fun _ => rfl

/-- The first `net_init` takes every slot its buffer. -/
theorem pipes_netInit : Pipes i a [] s (netInit s) := by
  simp only [netInit]
  split
  · exact Pipes.refl
  · refine ⟨Nat.le_refl _, fun _ => ⟨?_, ?_⟩, ?_⟩
    · intro n b hb
      cases hb
    · intro m n b hb
      cases hb
    · intro _ _ ht
      cases ht.buffer

theorem pipes_wifiConnect (result : ℤ) : Pipes i a [] s (wifiConnect s result).2 := by
  simp only [wifiConnect]
  split
  · exact pipes_netInit.still (Still.refl.enqueue _)
  · exact pipes_netInit

end PicoOcaml.NetStubs
