import PicoOcaml.Clock
import PicoOcaml.NetStubs.Datagrams

/-! `ntp_query`: the first bytes that arrive on its socket are taken for the reply. -/
namespace PicoOcaml.Clock

open NetStubs

/-- What the calls of a query are answered, and the datagrams that arrive on its socket: before
`udp_bind`, during the lookup, after the request, and then before each poll. -/
structure Answers where
  mallocOk : Bool
  udpNewOk : Bool
  bindErr : ℤ
  packetOk : Bool
  dns : DnsAnswer
  pbufOk : Bool
  sendErr : ℤ
  bufOk : Bool
  arrive : ℕ → List Datagram

/-- Bytes 40 to 43, which the time is computed from. -/
abbrev Timestamp := UInt8 × UInt8 × UInt8 × UInt8

/-- `none` is the exception of an access outside of the buffer. -/
def timestamp (buf : Bytes) : Option Timestamp := do
  let b0 ← buf[40]?
  let b1 ← buf[41]?
  let b2 ← buf[42]?
  let b3 ← buf[43]?
  return (b0, b1, b2, b3)

def ntpPacket : Bytes := 0x1B :: List.replicate 47 0

/-- `service_network` and `udp_recvfrom`: what it returns, with `buf` after it. -/
def poll (sock : Word) (dgs : List Datagram) (buf : Bytes) (u : Inbox) : (ℤ × Bytes) × Inbox :=
  let id := (intVal sock).toInt
  let u := u.arrive id dgs
  let (n, bytes) := (ocamlUdpRecvfrom u.stubs sock buf.length).1
  ((ocamlInt n, bytes ++ buf.drop bytes.length), u.next id (.recvfrom buf.length))

/-- The first argument is what `timeout` lacks to 1000, and the second numbers the polls. Returns
`buf` as well. -/
def recvLoop (sock : Word) (arrive : ℕ → List Datagram) :
    ℕ → ℕ → Bytes → Inbox → (Bool × Bytes) × Inbox
  | 0, k, buf, u =>
    let ((n, buf), u) := poll sock (arrive k) buf u
    if 0 < n then ((true, buf), u) else ((false, buf), u)
  | left + 1, k, buf, u =>
    let ((n, buf), u) := poll sock (arrive k) buf u
    if 0 < n then ((true, buf), u) else recvLoop sock arrive left (k + 1) buf u

/-- The body of the `try`, an exception in which makes the result `None`. The allocations of the
two buffers may raise one. -/
def exchange (net : Answers) (sock : Word) (u : Inbox) : Option Timestamp × Inbox :=
  let id := (intVal sock).toInt
  if !net.packetOk then (none, u) else
  let u := u.arrive id (net.arrive 1)
  let ip := ocamlDnsResolve net.dns
  if ocamlInt ip = 0 then (none, u) else
  let sent := ocamlUdpSendto u.stubs sock ip (ofOcamlInt 123) ntpPacket (ofOcamlInt 48)
    net.pbufOk net.sendErr
  let u := { u with stubs := sent.2 }
  let u := u.arrive id (net.arrive 2)
  if !net.bufOk then (none, u) else
  let ((received, buf), u) := recvLoop sock net.arrive 1000 3 (List.replicate 48 0) u
  (if received then timestamp buf else none, u)

/-- `ntp_query` with the bytes that it decodes, and the history of its socket. -/
def ntpReply (net : Answers) (s : Stubs) : Option Timestamp × Inbox :=
  let (sock, s) := ocamlUdpCreate s net.mallocOk net.udpNewOk
  let u : Inbox := ⟨s, [], [], []⟩
  if ocamlInt sock < 0 then (none, u) else
  let u := u.arrive (intVal sock).toInt (net.arrive 0)
  let u := { u with stubs := (ocamlUdpBind u.stubs sock (ofOcamlInt 0) net.bindErr).2 }
  let (result, u) := exchange net sock u
  (result, { u with stubs := ocamlUdpClose u.stubs sock })

def decode (utcOffsetHours : ℤ) (b : Timestamp) : ℤ × ℤ × ℤ :=
  ntpTime utcOffsetHours b.1 b.2.1 b.2.2.1 b.2.2.2

def ntpQuery (utcOffsetHours : ℤ) (net : Answers) (s : Stubs) : Option (ℤ × ℤ × ℤ) × Inbox :=
  let (reply, u) := ntpReply net s
  (reply.map (decode utcOffsetHours), u)

/-- The pcbs that are closed, in order. -/
def udpRemoves : List LwipCall → List ℕ
  | [] => []
  | .udpRemove pcb :: calls => pcb :: udpRemoves calls
  | _ :: calls => udpRemoves calls

def Created (net : Answers) (s : Stubs) : Prop :=
  0 ≤ ocamlInt (ocamlUdpCreate s net.mallocOk net.udpNewOk).1

/-- A time is decoded from one datagram with all four bytes, and the buffer has held no shorter
one; the socket is closed once if it was created. -/
structure OneReply (utcOffsetHours : ℤ) (net : Answers) (s : Stubs)
    (r : Option (ℤ × ℤ × ℤ) × Inbox) : Prop where
  single : r.1 ≠ none → ∃ k ∈ r.2.delivered, ∃ dg, r.2.arrived[k]? = some dg ∧
    44 ≤ dg.bytes.length ∧ r.1 = (timestamp dg.bytes).map (decode utcOffsetHours)
  short : ∀ k ∈ r.2.delivered, ∀ dg, r.2.arrived[k]? = some dg → dg.bytes.length < 44 → r.1 = none
  created : Created net s → udpRemoves r.2.stubs.lwip = udpRemoves s.lwip ++ [s.pcbNext]
  failed : ¬ Created net s → udpRemoves r.2.stubs.lwip = udpRemoves s.lwip

/-- The query gets as far as its first poll. -/
structure Polls (net : Answers) (s : Stubs) : Prop where
  created : Created net s
  packet : net.packetOk = true
  resolved : ocamlInt (ocamlDnsResolve net.dns) ≠ 0
  buf : net.bufOk = true

def arrivals (arrive : ℕ → List Datagram) (n : ℕ) : List Datagram := (List.range n).flatMap arrive

/-- The datagrams that have arrived by poll `j`. -/
def Answers.by (net : Answers) (j : ℕ) : List Datagram := arrivals net.arrive (3 + j + 1)

/-- The first poll that finds any bytes finds none of a datagram shorter than 44 bytes. -/
def LongReplies (net : Answers) (s : Stubs) : Prop :=
  Polls net s → ∀ j ≤ 1000, (∀ m < j, kept (net.by m) = []) →
    ∀ dg ∈ kept (net.by j), 44 ≤ dg.bytes.length

variable {net : Answers} {s t : Stubs} {u v : Inbox} {sock : Word} {id : ℤ}

/-! ### The stubs -/

theorem udpRemoves_append (a b : List LwipCall) :
    udpRemoves (a ++ b) = udpRemoves a ++ udpRemoves b := by
  induction a with
  | nil => rfl
  | cons c a ih => cases c <;> simp [udpRemoves, ih]

/-- Every slot and block is as it was, and nothing has been closed. -/
structure Steady (s t : Stubs) : Prop where
  sockets : t.sockets = s.sockets
  heap : t.heap = s.heap
  removes : udpRemoves t.lwip = udpRemoves s.lwip

theorem Steady.refl : Steady s s := ⟨rfl, rfl, rfl⟩

theorem Steady.call (h : Steady s t) (c : LwipCall) (hc : udpRemoves [c] = []) :
    Steady s (t.call c) := by
  refine ⟨h.sockets, h.heap, ?_⟩
  rw [lwip_call, udpRemoves_append, hc, List.append_nil, h.removes]

theorem steady_ocamlUdpBind (port : Word) (err : ℤ) :
    Steady s (ocamlUdpBind s sock port err).2 := by
  simp only [ocamlUdpBind, picoUdpBind]
  split
  · exact Steady.refl
  · split
    · exact Steady.refl.call _ rfl
    · exact Steady.refl

theorem steady_ocamlUdpSendto (ip port : Word) (data : Bytes) (len : Word) (pbufOk : Bool)
    (err : ℤ) : Steady s (ocamlUdpSendto s sock ip port data len pbufOk err).2 := by
  have hfault : ∀ b, Steady s { s with fault := b } := fun _ => ⟨rfl, rfl, rfl⟩
  simp only [ocamlUdpSendto, picoUdpSendto]
  split
  · exact Steady.refl
  · split
    · split
      · exact Steady.refl
      · split
        · exact (hfault _).call _ rfl
        · exact hfault _
    · exact Steady.refl

/-- The socket is open with its pcb, and nothing has been closed since `s`. -/
structure Open (k : ℕ) (s t : Stubs) : Prop where
  valid : badId k = false
  proto : (t.sock k).proto = .udp
  pcb : (t.sock k).pcb = some s.pcbNext
  removes : udpRemoves t.lwip = udpRemoves s.lwip

theorem Open.steady {k : ℕ} {r : Stubs} (h : Open k s t) (hs : Steady t r) : Open k s r := by
  have hsock : r.sock k = t.sock k := congrFun hs.sockets _
  exact ⟨h.valid, by rw [hsock]; exact h.proto, by rw [hsock]; exact h.pcb,
    hs.removes.trans h.removes⟩

/-- Bytes that come and go leave the socket open. -/
theorem Open.next {k : ℕ} (h : Open k s u.stubs) (hf : Filled k u.stubs) (o : InboxOp) :
    Open k s (u.next k o).stubs := by
  have hsame : Same (k : ℤ).toNat u.stubs (u.next k o).stubs ∧
      (u.next k o).stubs.lwip = u.stubs.lwip := by
    cases o with
    | datagram dg =>
      have hsame : Same (k : ℤ).toNat u.stubs (u.received k dg) := same_udpRecvCallback _ _ _ _
      exact ⟨hsame, (udpRecvCallback_spec hf dg).2.1⟩
    | recvfrom maxLen =>
      have hlwip := (picoUdpRecvfrom_spec hf h.proto maxLen).2.2.1
      have hsame : Same (k : ℤ).toNat u.stubs (picoUdpRecvfrom u.stubs k maxLen).2 :=
        same_picoUdpRecvfrom _ _
      simp only [Inbox.next]
      split
      · exact ⟨hsame, hlwip⟩
      · exact ⟨hsame, hlwip⟩
  refine ⟨h.valid, hsame.1.proto.trans h.proto, hsame.1.pcb.trans h.pcb, ?_⟩
  rw [hsame.2]
  exact h.removes

theorem unread_steady {k : ℕ} (h : u.Unread k) (hs : Steady u.stubs t) :
    Inbox.Unread k { u with stubs := t } := by
  have hsock : t.sock k = u.stubs.sock k := congrFun hs.sockets _
  have hcont : content k t = content k u.stubs := by
    simp only [content, Stubs.load, hsock, hs.heap]
  obtain ⟨hv, hcap, hfits, hblock⟩ := h.inv.filled
  refine ⟨⟨⟨hv, ?_, ?_, ?_⟩, ?_, ?_, h.inv.order, h.inv.bound, ?_, ?_⟩, h.delivered, ?_, h.stored⟩
  · rwa [hsock]
  · rwa [hsock]
  · rwa [hsock, hs.heap]
  · rw [hsock]
    exact h.inv.proto
  · rw [hsock]
    exact h.inv.stored_iff
  · rw [hsock, hcont]
    exact h.inv.single
  · rw [hcont]
    exact h.inv.first
  · rw [hsock]
    exact h.room

/-! ### The loop -/

theorem Open.arrive {k : ℕ} (h : Open k s u.stubs) (hu : u.Unread k) (dgs : List Datagram) :
    Open k s (u.arrive k dgs).stubs := by
  induction dgs generalizing u with
  | nil => exact h
  | cons dg dgs ih => exact ih (h.next hu.inv.filled _) (datagram_unread hu dg)

/-- `udp_recvfrom` as OCaml sees it. -/
theorem ocamlUdpRecvfrom_spec {k : ℕ} (hk : (intVal sock).toInt = k) (h : u.Inv k) (bufLen : ℕ) :
    let r := (ocamlUdpRecvfrom u.stubs sock bufLen).1
    ocamlInt r.1 = (min (u.stubs.sock k).recvLen bufLen : ℕ) ∧
      r.2 = (content k u.stubs).take bufLen := by
  intro r
  obtain ⟨hn, hbytes, -⟩ := picoUdpRecvfrom_spec h.filled h.proto bufLen
  have hfits := h.filled.fits
  simp only [maxRecvBuffer] at hfits
  have hr : r = (valInt (BitVec.ofInt 32 (picoUdpRecvfrom u.stubs k bufLen).1.1),
      (picoUdpRecvfrom u.stubs k bufLen).1.2.1) := by
    simp only [r, ocamlUdpRecvfrom, hk]
  rw [hr]
  constructor
  · simp only [hn]
    exact ocamlInt_valInt_ofInt (by omega) (by omega)
  · simp only [hbytes]
    rw [← h.filled.content_length, min_comm, ← List.take_eq_take_min]

theorem poll_spec {k : ℕ} (hk : (intVal sock).toInt = k) (h : u.Unread k) (dgs : List Datagram)
    {buf : Bytes} (hbuf : buf.length = 48) :
    let w := u.arrive k dgs
    let bytes := (content k w.stubs).take 48
    let r := poll sock dgs buf u
    (w.stored = [] ∧ r = ((0, buf), w)) ∨
      (w.stored ≠ [] ∧ 0 < r.1.1 ∧ r.1.2 = bytes ++ buf.drop bytes.length ∧
        r.2 = w.next k (.recvfrom 48) ∧ r.2.arrived = w.arrived ∧ r.2.delivered = w.stored) := by
  intro w bytes r
  have hw : w.Unread k := (arrive_unread h dgs).1
  obtain ⟨hint, hbytes⟩ := ocamlUdpRecvfrom_spec hk hw.inv 48
  have hr : r = ((ocamlInt (ocamlUdpRecvfrom w.stubs sock 48).1.1, bytes ++ buf.drop bytes.length),
      w.next k (.recvfrom 48)) := by
    simp only [r, poll, hk, hbuf]
    rw [hbytes]
  rw [hint] at hr
  by_cases hst : w.stored = []
  · left
    have hzero : (w.stubs.sock k).recvLen = 0 := hw.inv.stored_iff.mp hst
    have hnil : bytes = [] := by
      have hcont : content k w.stubs = [] :=
        List.eq_nil_of_length_eq_zero (hw.inv.filled.content_length.trans hzero)
      simp only [bytes, hcont, List.take_nil]
    rw [hzero, hnil, (recvfrom_empty hw.inv hst 48).2] at hr
    exact ⟨hst, hr⟩
  · right
    have hne : (w.stubs.sock k).recvLen ≠ 0 := fun h0 => hst (hw.inv.stored_iff.mpr h0)
    have hpos : 0 < (picoUdpRecvfrom w.stubs k 48).1.1 := by
      have hn := (picoUdpRecvfrom_spec hw.inv.filled hw.inv.proto 48).1
      omega
    rw [hr]
    refine ⟨hst, ?_, rfl, rfl, ?_, ?_⟩
    · simp only
      omega
    · simp only [Inbox.next, if_pos hpos]
    · simp only [Inbox.next, if_pos hpos, hw.delivered, List.nil_append]

theorem arrivals_succ (arrive : ℕ → List Datagram) (n : ℕ) :
    arrivals arrive (n + 1) = arrivals arrive n ++ arrive n := by
  simp [arrivals, List.range_succ]

theorem kept_eq_nil_iff {k : ℕ} (h : u.Unread k) : kept u.arrived = [] ↔ u.stored = [] := by
  rw [← List.map_eq_nil_iff (f := some), ← h.stored, List.map_eq_nil_iff]

/-- The loop ends with nothing, all polls having been empty, or with what the first poll that is
not empty finds in `w`. -/
structure Looped (k left n : ℕ) (arrive : ℕ → List Datagram) (buf : Bytes)
    (r : (Bool × Bytes) × Inbox) : Prop where
  empty : r.1.1 = false →
    r.2.delivered = [] ∧ ∀ m ≤ left, kept (arrivals arrive (n + m + 1)) = []
  found : r.1.1 = true → ∃ m ≤ left, (∀ j < m, kept (arrivals arrive (n + j + 1)) = []) ∧
    ∃ w : Inbox, w.Unread k ∧ w.arrived = arrivals arrive (n + m + 1) ∧ w.stored ≠ [] ∧
      r.1.2 = (content k w.stubs).take 48 ++ buf.drop ((content k w.stubs).take 48).length ∧
      r.2.arrived = w.arrived ∧ r.2.delivered = w.stored

theorem recvLoop_pos {arrive : ℕ → List Datagram} {n : ℕ} {buf : Bytes} {r : (ℤ × Bytes) × Inbox}
    (hr : poll sock (arrive n) buf u = r) (hpos : 0 < r.1.1) (left : ℕ) :
    recvLoop sock arrive left n buf u = ((true, r.1.2), r.2) := by
  cases left with
  | zero =>
    rw [recvLoop, hr]
    exact if_pos hpos
  | succ left =>
    rw [recvLoop, hr]
    exact if_pos hpos

/-- What a poll that finds bytes makes of the loop. -/
theorem looped_found {k left n : ℕ} {arrive : ℕ → List Datagram} {buf buf' : Bytes} {w : Inbox}
    (hw : w.Unread k) (harr : w.arrived = arrivals arrive (n + 1)) (hst : w.stored ≠ [])
    (hbuf : buf' = (content k w.stubs).take 48 ++ buf.drop ((content k w.stubs).take 48).length)
    (hv : v.arrived = w.arrived) (hd : v.delivered = w.stored) :
    Looped k left n arrive buf ((true, buf'), v) := by
  constructor
  · rintro ⟨⟩
  · intro _
    refine ⟨0, Nat.zero_le _, ?_, w, hw, harr, hst, hbuf, hv, hd⟩
    intro j hj
    omega

/-- An empty poll before the loop ends as `r`. -/
theorem Looped.succ {k left n : ℕ} {arrive : ℕ → List Datagram} {buf : Bytes}
    {r : (Bool × Bytes) × Inbox} (h : Looped k left (n + 1) arrive buf r)
    (hempty : kept (arrivals arrive (n + 1)) = []) : Looped k (left + 1) n arrive buf r := by
  have hshift : ∀ m, n + 1 + m + 1 = n + (m + 1) + 1 := by omega
  constructor
  · intro hr
    obtain ⟨hd, hall⟩ := h.empty hr
    refine ⟨hd, fun m hm => ?_⟩
    cases m with
    | zero => exact hempty
    | succ m => exact hshift m ▸ hall m (by omega)
  · intro hr
    obtain ⟨m, hm, hall, w, hw, harr, hrest⟩ := h.found hr
    refine ⟨m + 1, by omega, fun j hj => ?_, w, hw, hshift m ▸ harr, hrest⟩
    cases j with
    | zero => exact hempty
    | succ j => exact hshift j ▸ hall j (by omega)

theorem recvLoop_spec {k : ℕ} (hk : (intVal sock).toInt = k) (arrive : ℕ → List Datagram)
    {buf : Bytes} (hbuf : buf.length = 48) (left n : ℕ) (h : u.Unread k)
    (harr : u.arrived = arrivals arrive n) (hopen : Open k s u.stubs) :
    Looped k left n arrive buf (recvLoop sock arrive left n buf u) ∧
      Open k s (recvLoop sock arrive left n buf u).2.stubs := by
  induction left generalizing n u with
  | zero =>
    obtain ⟨hw, hwarr⟩ := arrive_unread h (arrive n)
    have hwopen := hopen.arrive h (arrive n)
    rw [harr, ← arrivals_succ] at hwarr
    rcases poll_spec hk h (arrive n) hbuf with ⟨hst, hr⟩ | ⟨hst, hpos, hbytes, hnext, hv, hd⟩
    · rw [recvLoop, hr]
      refine ⟨⟨fun _ => ⟨hw.delivered, fun m hm => ?_⟩, by rintro ⟨⟩⟩, hwopen⟩
      rw [Nat.le_zero.mp hm, Nat.add_zero, ← hwarr]
      exact (kept_eq_nil_iff hw).mpr hst
    · rw [recvLoop_pos rfl hpos]
      refine ⟨looped_found hw hwarr hst hbytes hv hd, ?_⟩
      simp only [hnext]
      exact hwopen.next hw.inv.filled _
  | succ left ih =>
    obtain ⟨hw, hwarr⟩ := arrive_unread h (arrive n)
    have hwopen := hopen.arrive h (arrive n)
    rw [harr, ← arrivals_succ] at hwarr
    rcases poll_spec hk h (arrive n) hbuf with ⟨hst, hr⟩ | ⟨hst, hpos, hbytes, hnext, hv, hd⟩
    · obtain ⟨hloop, hlopen⟩ := ih (n + 1) hw hwarr hwopen
      rw [recvLoop, hr]
      refine ⟨hloop.succ ?_, hlopen⟩
      rw [← hwarr]
      exact (kept_eq_nil_iff hw).mpr hst
    · rw [recvLoop_pos rfl hpos]
      refine ⟨looped_found hw hwarr hst hbytes hv hd, ?_⟩
      simp only [hnext]
      exact hwopen.next hw.inv.filled _

/-! ### The query -/

theorem lwip_socketFree (id : ℤ) : (socketFree s id).lwip = s.lwip := by
  simp only [socketFree]
  split
  · rfl
  · cases (s.sock id).recvBuf <;> rfl

theorem lwip_socketAlloc (proto : SocketProto) (mallocOk : Bool) :
    (socketAlloc s proto mallocOk).2.lwip = s.lwip := by
  simp only [socketAlloc]
  split
  · rfl
  · cases mallocOk <;> rfl

/-- A create that lacks memory or a pcb fails and tells lwIP nothing. -/
theorem picoUdpCreate_failed {k : ℕ} (hk : firstClosed s = some k) {mallocOk udpNewOk : Bool}
    (hfail : mallocOk = false ∨ udpNewOk = false) :
    (picoUdpCreate s mallocOk udpNewOk).1 = -1 ∧
      (picoUdpCreate s mallocOk udpNewOk).2.lwip = s.lwip := by
  have halloc := lwip_socketAlloc (s := s) .udp mallocOk
  have hpos : ¬ ((k : ℤ) < 0) := by omega
  cases mallocOk with
  | false =>
    simp only [picoUdpCreate, socketAlloc, hk, Stubs.malloc, Bool.false_eq_true, if_false] at halloc ⊢
    exact ⟨rfl, halloc⟩
  | true =>
    obtain rfl : udpNewOk = false := hfail.resolve_left (by simp)
    simp only [socketAlloc, hk, Stubs.malloc, if_true] at halloc
    simp only [picoUdpCreate, socketAlloc, hk, Stubs.malloc, if_true, if_neg hpos,
      Bool.not_false]
    exact ⟨trivial, (lwip_socketFree _).trans halloc⟩

theorem ocamlUdpCreate_cases (mallocOk udpNewOk : Bool) :
    let r := ocamlUdpCreate s mallocOk udpNewOk
    (ocamlInt r.1 = -1 ∧ r.2.lwip = s.lwip) ∨
      ∃ k, firstClosed s = some k ∧ ocamlInt r.1 = k ∧ (intVal r.1).toInt = k ∧
        r.2 = (picoUdpCreate s true true).2 := by
  intro r
  have hr : r = (valInt (BitVec.ofInt 32 (picoUdpCreate s mallocOk udpNewOk).1),
    (picoUdpCreate s mallocOk udpNewOk).2) := rfl
  have hfail : ocamlInt (valInt (BitVec.ofInt 32 (-1))) = -1 := by decide
  cases hk : firstClosed s with
  | none =>
    rw [picoUdpCreate_full hk] at hr
    rw [hr]
    exact Or.inl ⟨hfail, rfl⟩
  | some k =>
    by_cases hok : mallocOk = false ∨ udpNewOk = false
    · obtain ⟨hid, hlwip⟩ := picoUdpCreate_failed hk hok
      rw [hid] at hr
      rw [hr]
      exact Or.inl ⟨hfail, hlwip⟩
    · simp only [not_or, Bool.not_eq_false] at hok
      obtain ⟨rfl, rfl⟩ := hok
      have hlt := List.mem_range.mp (List.mem_of_find?_eq_some hk)
      simp only [maxSockets] at hlt
      have hint : ocamlInt (valInt (BitVec.ofInt 32 k)) = k :=
        ocamlInt_valInt_ofInt (by omega) (by omega)
      rw [(picoUdpCreate_spec hk).1] at hr
      rw [hr]
      exact Or.inr ⟨k, rfl, hint, (toInt_intVal _).trans hint, rfl⟩

/-- The body of the `try` runs the loop, or returns `None` before it. -/
theorem exchange_spec (net : Answers) {k : ℕ} (hk : (intVal sock).toInt = k) (h : u.Unread k)
    (harr : u.arrived = arrivals net.arrive 1) (hopen : Open k s u.stubs) :
    let r := exchange net sock u
    let asked := net.packetOk = true ∧ ocamlInt (ocamlDnsResolve net.dns) ≠ 0 ∧ net.bufOk = true
    Open k s r.2.stubs ∧
      ((¬ asked ∧ r.1 = none ∧ r.2.delivered = []) ∨
        (asked ∧ ∃ l, Looped k 1000 3 net.arrive (List.replicate 48 0) l ∧
          r = (if l.1.1 then timestamp l.1.2 else none, l.2))) := by
  intro r asked
  have hr : r = exchange net sock u := rfl
  simp only [exchange, hk] at hr
  by_cases hpacket : net.packetOk = true
  case neg =>
    rw [if_pos (by simpa using hpacket)] at hr
    rw [hr]
    exact ⟨hopen, Or.inl ⟨fun h' => hpacket h'.1, rfl, h.delivered⟩⟩
  obtain ⟨h1, harr1⟩ := arrive_unread h (net.arrive 1)
  have hopen1 := hopen.arrive h (net.arrive 1)
  rw [harr, ← arrivals_succ] at harr1
  rw [if_neg (by simpa using hpacket)] at hr
  by_cases hip : ocamlInt (ocamlDnsResolve net.dns) = 0
  case pos =>
    rw [if_pos hip] at hr
    rw [hr]
    exact ⟨hopen1, Or.inl ⟨fun h' => h'.2.1 hip, rfl, h1.delivered⟩⟩
  rw [if_neg hip] at hr
  generalize hsent : (ocamlUdpSendto (u.arrive k (net.arrive 1)).stubs sock
    (ocamlDnsResolve net.dns) (ofOcamlInt 123) ntpPacket (ofOcamlInt 48) net.pbufOk
    net.sendErr).2 = t at hr
  have hst : Steady (u.arrive k (net.arrive 1)).stubs t := hsent ▸ steady_ocamlUdpSendto _ _ _ _ _ _
  have h2 := unread_steady h1 hst
  have hopen2 := hopen1.steady hst
  obtain ⟨h3, happ3⟩ := arrive_unread h2 (net.arrive 2)
  have harr3 := happ3.trans ((congrArg (· ++ net.arrive 2) harr1).trans (arrivals_succ _ 2).symm)
  have hopen3 := Open.arrive (u := { u.arrive k (net.arrive 1) with stubs := t }) hopen2 h2
    (net.arrive 2)
  by_cases hbuf : net.bufOk = true
  case neg =>
    rw [if_pos (by simpa using hbuf)] at hr
    rw [hr]
    exact ⟨hopen3, Or.inl ⟨fun h' => hbuf h'.2.2, rfl, h3.delivered⟩⟩
  rw [if_neg (by simpa using hbuf)] at hr
  obtain ⟨hloop, hopenl⟩ := recvLoop_spec hk net.arrive List.length_replicate 1000 3 h3 harr3 hopen3
  rw [hr]
  exact ⟨hopenl, Or.inr ⟨⟨hpacket, hip, hbuf⟩, _, hloop, rfl⟩⟩

theorem Open.close {k : ℕ} (hk : (intVal sock).toInt = k) (h : Open k s t) :
    udpRemoves (ocamlUdpClose t sock).lwip = udpRemoves s.lwip ++ [s.pcbNext] := by
  have hp : ¬ (t.sock k).proto ≠ .udp := by simp [h.proto]
  simp only [ocamlUdpClose, picoUdpClose, hk, h.valid, h.pcb, if_neg hp, Bool.false_eq_true,
    if_false, lwip_socketFree, lwip_call, udpRemoves_append, h.removes]
  rfl

/-- The reply and the history of a query that gets its socket, which it closes. -/
theorem ntpReply_created {k : ℕ} (hk : firstClosed s = some k)
    (hid : ocamlInt (ocamlUdpCreate s net.mallocOk net.udpNewOk).1 = k)
    (hsock : (intVal (ocamlUdpCreate s net.mallocOk net.udpNewOk).1).toInt = k)
    (hs : (ocamlUdpCreate s net.mallocOk net.udpNewOk).2 = (picoUdpCreate s true true).2) :
    let r := ntpReply net s
    let asked := net.packetOk = true ∧ ocamlInt (ocamlDnsResolve net.dns) ≠ 0 ∧ net.bufOk = true
    udpRemoves r.2.stubs.lwip = udpRemoves s.lwip ++ [s.pcbNext] ∧
      ((¬ asked ∧ r.1 = none ∧ r.2.delivered = []) ∨
        (asked ∧ ∃ l, Looped k 1000 3 net.arrive (List.replicate 48 0) l ∧
          r.1 = (if l.1.1 then timestamp l.1.2 else none) ∧ r.2.arrived = l.2.arrived ∧
          r.2.delivered = l.2.delivered)) := by
  intro r asked
  have hr : r = ntpReply net s := rfl
  simp only [ntpReply] at hr
  generalize ocamlUdpCreate s net.mallocOk net.udpNewOk = c at hr hid hsock hs
  obtain ⟨sock, t⟩ := c
  obtain rfl : t = (picoUdpCreate s true true).2 := hs
  simp only at hr hid hsock
  rw [if_neg (by omega), hsock] at hr
  obtain ⟨-, hlwip, -, hslot⟩ := picoUdpCreate_spec hk
  have h0 := fresh_unread (udpOpened_fresh hk)
  have hopen0 : Open k s (picoUdpCreate s true true).2 := by
    refine ⟨firstClosed_valid hk, by rw [hslot], by rw [hslot], ?_⟩
    rw [hlwip, udpRemoves_append]
    exact List.append_nil _
  obtain ⟨h1, harr1⟩ := arrive_unread h0 (net.arrive 0)
  have hopen1 := Open.arrive (u := ⟨_, [], [], []⟩) hopen0 h0 (net.arrive 0)
  rw [List.nil_append] at harr1
  generalize Inbox.arrive k ⟨(picoUdpCreate s true true).2, [], [], []⟩ (net.arrive 0) = u at *
  have hbind : Steady u.stubs (ocamlUdpBind u.stubs sock (ofOcamlInt 0) net.bindErr).2 :=
    steady_ocamlUdpBind _ _
  have harr : u.arrived = arrivals net.arrive 1 := by simpa [arrivals] using harr1
  obtain ⟨hopen, hcase⟩ := exchange_spec net hsock (unread_steady h1 hbind) harr
    (hopen1.steady hbind)
  generalize exchange net sock _ = e at *
  rw [hr]
  refine ⟨hopen.close hsock, ?_⟩
  rcases hcase with ⟨hno, hnone, hdel⟩ | ⟨hasked, l, hl, rfl⟩
  · exact Or.inl ⟨hno, hnone, hdel⟩
  · exact Or.inr ⟨hasked, l, hl, rfl, rfl, rfl⟩

/-! ### The bytes -/

theorem timestamp_isSome {buf : Bytes} (h : 44 ≤ buf.length) : timestamp buf ≠ none := by
  have h0 : buf[40]? = some buf[40] := List.getElem?_eq_getElem (by omega)
  have h1 : buf[41]? = some buf[41] := List.getElem?_eq_getElem (by omega)
  have h2 : buf[42]? = some buf[42] := List.getElem?_eq_getElem (by omega)
  have h3 : buf[43]? = some buf[43] := List.getElem?_eq_getElem (by omega)
  simp [timestamp, h0, h1, h2, h3]

/-- A long enough datagram at the front of the receive buffer provides all four bytes. -/
theorem timestamp_front {bytes content rest : Bytes} (hlen : 44 ≤ bytes.length)
    (hpre : bytes.take maxRecvBuffer <+: content) :
    timestamp (content.take 48 ++ rest) = timestamp bytes := by
  have hle := hpre.length_le
  obtain ⟨tail, rfl⟩ := hpre
  have hbyte : ∀ j < 44, ((bytes.take maxRecvBuffer ++ tail).take 48 ++ rest)[j]? = bytes[j]? := by
    intro j hj
    have hj' : j < (bytes.take maxRecvBuffer).length := by
      rw [List.length_take, maxRecvBuffer]
      omega
    rw [List.getElem?_append_left (by rw [List.length_take]; omega),
      List.getElem?_take_of_lt (by omega), List.getElem?_append_left hj',
      List.getElem?_take_of_lt (by rw [maxRecvBuffer]; omega)]
  simp only [timestamp, hbyte 40 (by omega), hbyte 41 (by omega), hbyte 42 (by omega),
    hbyte 43 (by omega)]

/-- The datagrams in an unread buffer are those it has kept. -/
theorem mem_kept_iff {k : ℕ} (h : u.Unread k) (dg : Datagram) :
    dg ∈ kept u.arrived ↔ ∃ n ∈ u.stored, u.arrived[n]? = some dg := by
  have hmem : some dg ∈ (kept u.arrived).map some ↔ dg ∈ kept u.arrived :=
    List.mem_map_of_injective (Option.some_injective _)
  rw [← hmem, ← h.stored, List.mem_map]

/-- A query that asks its server. -/
theorem oneReply_asked {utcOffsetHours : ℤ} {k : ℕ} {l : (Bool × Bytes) × Inbox}
    {r : Option Timestamp × Inbox} (hp : Polls net s)
    (hl : Looped k 1000 3 net.arrive (List.replicate 48 0) l)
    (hreply : r.1 = if l.1.1 then timestamp l.1.2 else none) (harr : r.2.arrived = l.2.arrived)
    (hdel : r.2.delivered = l.2.delivered)
    (hremoves : udpRemoves r.2.stubs.lwip = udpRemoves s.lwip ++ [s.pcbNext]) :
    OneReply utcOffsetHours net s (r.1.map (decode utcOffsetHours), r.2) ↔ LongReplies net s := by
  cases hgot : l.1.1 with
  | false =>
    obtain ⟨hnone, hempty⟩ := hl.empty hgot
    rw [hgot] at hreply
    refine iff_of_true ⟨?_, ?_, fun _ => hremoves, fun hc => absurd hp.created hc⟩ ?_
    · intro h
      simp [hreply] at h
    · intro n hn
      simp [hdel, hnone] at hn
    · intro _ j hj _ dg hdg
      rw [Answers.by, hempty j hj] at hdg
      cases hdg
  | true =>
    obtain ⟨m, hm, hbefore, w, hw, hwarr, hst, hbuf, hlarr, hldel⟩ := hl.found hgot
    rw [hgot, if_pos rfl] at hreply
    rw [hlarr] at harr
    rw [hldel] at hdel
    have hkept : kept (net.by m) ≠ [] := by
      rw [Answers.by, ← hwarr]
      exact fun hnil => hst ((kept_eq_nil_iff hw).mp hnil)
    have hlong : 44 ≤ l.1.2.length := by
      rw [hbuf, List.length_append, List.length_drop, List.length_replicate]
      omega
    constructor
    · intro h hp' j hj hfirst dg hdg
      have hjm : j = m := by
        rcases Nat.lt_trichotomy j m with hlt | heq | hgt
        · rw [Answers.by, hbefore j hlt] at hdg
          cases hdg
        · exact heq
        · exact absurd (hfirst m hgt) hkept
      subst hjm
      rw [Answers.by, ← hwarr] at hdg
      obtain ⟨n, hn, hndg⟩ := (mem_kept_iff hw dg).mp hdg
      by_contra hshort
      have hnone := h.short n (hdel ▸ hn) dg (harr ▸ hndg) (by omega)
      simp only [Option.map_eq_none_iff, hreply] at hnone
      exact timestamp_isSome hlong hnone
    · intro h
      have hall : ∀ n ∈ w.stored, ∀ dg, w.arrived[n]? = some dg → 44 ≤ dg.bytes.length := by
        intro n hn dg hdg
        refine h hp m hm hbefore dg ?_
        rw [Answers.by, ← hwarr]
        exact (mem_kept_iff hw dg).mpr ⟨n, hn, hdg⟩
      refine ⟨fun _ => ?_, ?_, fun _ => hremoves, fun hc => absurd hp.created hc⟩
      · obtain ⟨n, ns, hns⟩ := List.exists_cons_of_ne_nil hst
        obtain ⟨dg, hdg, hpre⟩ := hw.inv.first n ns hns
        have hn : n ∈ w.stored := hns ▸ List.mem_cons_self
        refine ⟨n, hdel ▸ hn, dg, harr ▸ hdg, hall n hn dg hdg, ?_⟩
        simp only [hreply, hbuf, timestamp_front (hall n hn dg hdg) hpre]
      · intro n hn dg hdg hlt
        have hle := hall n (hdel ▸ hn) dg (harr ▸ hdg)
        omega

/-- A query decodes four bytes of one datagram exactly when the first poll that finds any bytes
finds none of a shorter one. -/
theorem ntp_one_reply_iff (utcOffsetHours : ℤ) (net : Answers) (s : Stubs) :
    OneReply utcOffsetHours net s (ntpQuery utcOffsetHours net s) ↔ LongReplies net s := by
  have hq : ntpQuery utcOffsetHours net s =
    ((ntpReply net s).1.map (decode utcOffsetHours), (ntpReply net s).2) := rfl
  rw [hq]
  rcases ocamlUdpCreate_cases (s := s) net.mallocOk net.udpNewOk with
    ⟨hfail, hlwip⟩ | ⟨k, hk, hid, hsock, hs⟩
  · have hno : ¬ Created net s := by
      rw [Created, hfail]
      decide
    have hr : ntpReply net s =
        (none, ⟨(ocamlUdpCreate s net.mallocOk net.udpNewOk).2, [], [], []⟩) := by
      simp only [ntpReply]
      rw [if_pos (by rw [hfail]; decide)]
    rw [hr]
    refine iff_of_true ⟨fun h => absurd rfl h, by rintro _ ⟨⟩, fun hc => absurd hc hno,
      fun _ => congrArg udpRemoves hlwip⟩ ?_
    intro hp
    exact absurd hp.created hno
  · have hcreated : Created net s := by
      rw [Created, hid]
      omega
    obtain ⟨hremoves, ⟨hno, hnone, hdel⟩ | ⟨hasked, l, hl, hreply, harr, hdel⟩⟩ :=
      ntpReply_created hk hid hsock hs
    · refine iff_of_true ⟨?_, ?_, fun _ => hremoves, fun hc => absurd hcreated hc⟩ ?_
      · intro h
        simp [hnone] at h
      · intro n hn
        simp [hdel] at hn
      · intro hp
        exact absurd ⟨hp.packet, hp.resolved, hp.buf⟩ hno
    · exact oneReply_asked ⟨hcreated, hasked.1, hasked.2.1, hasked.2.2⟩ hl hreply harr hdel hremoves

/-- One byte from the server sets the clock to midnight UTC. -/
theorem ntp_short_reply :
    ¬ ∀ (utcOffsetHours : ℤ) (net : Answers) (s : Stubs),
      OneReply utcOffsetHours net s (ntpQuery utcOffsetHours net s) := by
  intro h
  let net : Answers := ⟨true, true, errOk, true, .cached 0x0100007F, true, errOk, true,
    fun k => if k = 3 then [⟨[0x24], 0x0100007F, 123⟩] else []⟩
  have hshort := (h 1 net Stubs.initial).short 0 (by decide +kernel) ⟨[0x24], 0x0100007F, 123⟩
    (by decide +kernel) (by decide)
  exact absurd hshort (by decide +kernel)

end PicoOcaml.Clock
