import PicoOcaml.EventQueue

/-! The socket table of the network stubs and every function that works on it. What lwIP and
`malloc` answer is an argument; what they are told is kept in a history. -/
namespace PicoOcaml.NetStubs

abbrev Bytes := List UInt8

inductive SocketProto | tcp | udp
deriving DecidableEq

inductive SocketState | closed | connecting | connected | listening | error
deriving DecidableEq

def maxSockets : ℕ := 8
def maxRecvBuffer : ℕ := 4096

def errOk : ℤ := 0
def errVal : ℤ := -6

/-- `socket_t`. A pointer is a block number, `none` being `NULL`; the `pcb` union holds one
pointer that `proto` tells how to read. -/
structure Socket where
  proto : SocketProto
  state : SocketState
  pcb : Option ℕ
  recvBuf : Option ℕ
  recvLen : ℕ
  recvCapacity : ℕ
  udpSrcIp : Word
  udpSrcPort : BitVec 16
deriving DecidableEq

/-- What `memset` to zero leaves in a slot. -/
def Socket.zero : Socket := ⟨.tcp, .closed, none, none, 0, 0, 0, 0⟩

/-- The calls made to lwIP, with the bytes they hand over. A refused write or datagram leaves
no entry. -/
inductive LwipCall
  | tcpArg (pcb : ℕ) (arg : Option ℤ)
  | tcpConnect (pcb : ℕ) (ip : Word) (port : BitVec 16)
  | tcpWrite (pcb : ℕ) (data : Bytes)
  | tcpRecved (pcb len : ℕ)
  | tcpClose (pcb : ℕ)
  | udpRecv (pcb : ℕ) (arg : ℤ)
  | udpBind (pcb : ℕ) (port : BitVec 16)
  | udpSendto (pcb : ℕ) (data : Bytes) (ip : Word) (port : BitVec 16)
  | udpRemove (pcb : ℕ)
deriving DecidableEq

/-- The statics of the file, the C heap they point into, and two history variables that no
function reads: the lwIP calls made, and whether some access left its live block. -/
structure Stubs where
  sockets : ℕ → Socket
  netInitialized : Bool
  eventQueue : EventQueue
  heap : ℕ → Option Bytes
  heapNext : ℕ
  pcbNext : ℕ
  lwip : List LwipCall
  fault : Bool

def Stubs.initial : Stubs :=
  ⟨fun _ => .zero, false, .empty, fun _ => none, 0, 0, [], false⟩

variable (s : Stubs)

def Stubs.sock (id : ℤ) : Socket := s.sockets id.toNat

def Stubs.setSock (id : ℤ) (sock : Socket) : Stubs :=
  { s with sockets := Function.update s.sockets id.toNat sock }

def Stubs.call (c : LwipCall) : Stubs := { s with lwip := s.lwip ++ [c] }

def Stubs.enqueue (e : NetEvent) : Stubs := { s with eventQueue := (eventEnqueue e s.eventQueue).2 }

def Stubs.malloc (n : ℕ) (ok : Bool) : Option ℕ × Stubs :=
  if ok then
    (some s.heapNext, { s with
      heap := Function.update s.heap s.heapNext (some (List.replicate n 0))
      heapNext := s.heapNext + 1 })
  else (none, s)

def Stubs.free (a : ℕ) : Stubs :=
  { s with heap := Function.update s.heap a none, fault := s.fault || (s.heap a).isNone }

/-- `len` bytes from `off` lie inside the live block that `p` points to. -/
def Stubs.inBlock (p : Option ℕ) (off len : ℕ) : Bool :=
  match p.bind s.heap with
  | some b => off + len ≤ b.length
  | none => false

def Stubs.touch (p : Option ℕ) (off len : ℕ) : Stubs :=
  { s with fault := s.fault || !s.inBlock p off len }

def Stubs.load (p : Option ℕ) (off len : ℕ) : Bytes :=
  match p.bind s.heap with
  | some b => (b.drop off).take len
  | none => List.replicate len 0

def Stubs.store (p : Option ℕ) (off : ℕ) (bytes : Bytes) : Stubs :=
  match p with
  | none => s
  | some a =>
    let block := (s.heap a).map fun b => b.take off ++ bytes ++ b.drop (off + bytes.length)
    { s with heap := Function.update s.heap a block }

@[simp] theorem sock_setSock_self (id : ℤ) (sock : Socket) : (s.setSock id sock).sock id = sock := by
  simp [Stubs.sock, Stubs.setSock]

@[simp] theorem sock_call (c : LwipCall) (id : ℤ) : (s.call c).sock id = s.sock id := rfl
@[simp] theorem sock_enqueue (e : NetEvent) (id : ℤ) : (s.enqueue e).sock id = s.sock id := rfl
@[simp] theorem sock_touch (p : Option ℕ) (off len : ℕ) (id : ℤ) :
    (s.touch p off len).sock id = s.sock id := rfl
@[simp] theorem sock_free (a : ℕ) (id : ℤ) : (s.free a).sock id = s.sock id := rfl
@[simp] theorem sock_store (p : Option ℕ) (off : ℕ) (bytes : Bytes) (id : ℤ) :
    (s.store p off bytes).sock id = s.sock id := by
  cases p <;> rfl

@[simp] theorem heap_setSock (id : ℤ) (sock : Socket) : (s.setSock id sock).heap = s.heap := rfl
@[simp] theorem heap_call (c : LwipCall) : (s.call c).heap = s.heap := rfl
@[simp] theorem heap_enqueue (e : NetEvent) : (s.enqueue e).heap = s.heap := rfl
@[simp] theorem heap_touch (p : Option ℕ) (off len : ℕ) : (s.touch p off len).heap = s.heap := rfl

@[simp] theorem lwip_setSock (id : ℤ) (sock : Socket) : (s.setSock id sock).lwip = s.lwip := rfl
@[simp] theorem lwip_call (c : LwipCall) : (s.call c).lwip = s.lwip ++ [c] := rfl
@[simp] theorem lwip_enqueue (e : NetEvent) : (s.enqueue e).lwip = s.lwip := rfl
@[simp] theorem lwip_touch (p : Option ℕ) (off len : ℕ) : (s.touch p off len).lwip = s.lwip := rfl
@[simp] theorem lwip_store (p : Option ℕ) (off : ℕ) (bytes : Bytes) :
    (s.store p off bytes).lwip = s.lwip := by
  cases p <;> rfl

theorem heap_store {a : ℕ} {b : Bytes} (off : ℕ) (bytes : Bytes) (h : s.heap a = some b) :
    (s.store (some a) off bytes).heap a =
      some (b.take off ++ bytes ++ b.drop (off + bytes.length)) := by
  simp [Stubs.store, h]

/-- The guard every function opens with. -/
def badId (id : ℤ) : Bool := id < 0 || id ≥ maxSockets

theorem ne_of_badId {i j : ℤ} (hi : badId i = false) (hj : badId j = true) : j ≠ i := by
  rintro rfl
  rw [hi] at hj
  cases hj

/-- `(int)len` of a `size_t`. -/
def toCInt (n : ℕ) : ℤ := (BitVec.ofNat 32 n).toInt

theorem toCInt_cases (n : ℕ) : (n % 2 ^ 32 < 2 ^ 31 ∧ toCInt n = (n % 2 ^ 32 : ℕ)) ∨
    (2 ^ 31 ≤ n % 2 ^ 32 ∧ toCInt n = (n % 2 ^ 32 : ℕ) - 2 ^ 32) := by
  simp only [toCInt, BitVec.toInt_eq_toNat_cond, BitVec.toNat_ofNat]
  split <;> omega

theorem toCInt_short {n : ℕ} (h : n < 2 ^ 16) : toCInt n = n := by
  rcases toCInt_cases n with ⟨-, hn⟩ | ⟨hn, -⟩ <;> omega

/-! ### Slots -/

/-- The loop of `socket_alloc` stops at the first slot in this state. -/
def firstClosed : Option ℕ :=
  (List.range maxSockets).find? fun i => (s.sockets i).state = .closed

def socketAlloc (proto : SocketProto) (mallocOk : Bool) : ℤ × Stubs :=
  match firstClosed s with
  | none => (-1, s)
  | some i =>
    let (buf, s') := s.malloc maxRecvBuffer mallocOk
    let s' := s'.setSock i { Socket.zero with
      proto := proto, state := .closed, recvCapacity := maxRecvBuffer, recvBuf := buf }
    match buf with
    | none => (-1, s')
    | some _ => (i, s')

def socketFree (id : ℤ) : Stubs :=
  if badId id then s else
  let sock := s.sock id
  let s := match sock.recvBuf with
    | some a => s.free a
    | none => s
  s.setSock id { sock with recvBuf := none, state := .closed, pcb := none }

/-! ### WiFi -/

def netInit : Stubs :=
  if s.netInitialized then s
  else { s with sockets := fun _ => .zero, netInitialized := true }

/-- `result` is the answer of `cyw43_arch_wifi_connect_timeout_ms`. -/
def wifiConnect (result : ℤ) : ℤ × Stubs :=
  let s := netInit s
  (result, if result = 0 then s.enqueue .wifiConnected else s)

def wifiDisconnect : Stubs := s.enqueue .wifiDisconnected

/-- "Copy data to receive buffer": the locked section of both receive callbacks, which returns
`to_copy`. Only the UDP callback also notes the sender, through `mark`. -/
def copyToRecvBuf (arg : ℤ) (bytes : Bytes) (mark : Socket → Socket) : ℕ × Stubs :=
  let sock := s.sock arg
  let space := sock.recvCapacity - sock.recvLen
  let toCopy := if bytes.length < space then bytes.length else space
  if toCopy > 0 then
    let s := (s.touch sock.recvBuf sock.recvLen toCopy).store sock.recvBuf sock.recvLen
      (bytes.take toCopy)
    (toCopy, s.setSock arg (mark { sock with recvLen := sock.recvLen + toCopy }))
  else (toCopy, s)

/-! ### TCP callbacks -/

/-- `p` is the payload of the pbuf chain, its length being `tot_len`. -/
def tcpRecvCallback (arg : ℤ) (tpcb : ℕ) (p : Option Bytes) (err : ℤ) : ℤ × Stubs :=
  if badId arg then (errVal, s) else
  let sock := s.sock arg
  match p with
  | none =>
    (errOk, (s.setSock arg { sock with state := .closed }).enqueue (.tcpClosed arg))
  | some bytes =>
    if err ≠ errOk then (err, s) else
    let (toCopy, s) := copyToRecvBuf s arg bytes id
    -- the whole segment is acknowledged, whatever was copied
    let s := s.call (.tcpRecved tpcb bytes.length)
    (errOk, s.enqueue (.tcpReceived arg toCopy))

def tcpSentCallback (arg : ℤ) (len : ℕ) : ℤ × Stubs := (errOk, s.enqueue (.tcpSent arg len))

def tcpErrCallback (arg err : ℤ) : Stubs :=
  let s := if badId arg then s else s.setSock arg { s.sock arg with state := .error, pcb := none }
  s.enqueue (.tcpError arg err)

def tcpConnectedCallback (arg err : ℤ) : ℤ × Stubs :=
  let s := if badId arg then s else
    s.setSock arg { s.sock arg with state := if err = errOk then .connected else .error }
  (errOk, s.enqueue (.tcpConnected arg err))

/-! ### TCP functions -/

def picoTcpCreate (mallocOk tcpNewOk : Bool) : ℤ × Stubs :=
  let (id, s) := socketAlloc s .tcp mallocOk
  if id < 0 then (-1, s) else
  if !tcpNewOk then (-1, socketFree s id) else
  let pcb := s.pcbNext
  let s := { s with pcbNext := pcb + 1 }
  let s := s.setSock id { s.sock id with pcb := some pcb }
  (id, s.call (.tcpArg pcb (some id)))

/-- `err` is the answer of `tcp_connect`. -/
def picoTcpConnect (id : ℤ) (ip : Word) (port : BitVec 16) (err : ℤ) : ℤ × Stubs :=
  if badId id then (-1, s) else
  let sock := s.sock id
  match sock.proto, sock.pcb with
  | .tcp, some pcb =>
    let s := (s.setSock id { sock with state := .connecting }).call (.tcpConnect pcb ip port)
    (if err = errOk then 0 else -1, s)
  | _, _ => (-1, s)

/-- `err` is the answer of `tcp_write`, which takes its length in 16 bits. -/
def picoTcpWrite (id : ℤ) (data : Bytes) (len : ℕ) (err : ℤ) : ℤ × Stubs :=
  if badId id then (-1, s) else
  let sock := s.sock id
  match sock.proto, sock.pcb with
  | .tcp, some pcb =>
    if sock.state ≠ .connected then (-1, s)
    else if err = errOk then
      (toCInt len, s.call (.tcpWrite pcb (data.take (len % 2 ^ 16))))
    else (-1, s)
  | _, _ => (-1, s)

/-- The bytes are what the call stores at the start of its buffer. -/
def picoTcpRead (id : ℤ) (maxLen : ℕ) : (ℤ × Bytes) × Stubs :=
  if badId id then ((-1, []), s) else
  let sock := s.sock id
  if sock.proto ≠ .tcp then ((-1, []), s) else
  let toRead := if sock.recvLen < maxLen then sock.recvLen else maxLen
  let (bytes, s) := if toRead > 0 then
      let bytes := s.load sock.recvBuf 0 toRead
      let s := s.touch sock.recvBuf 0 toRead
      let s := if toRead < sock.recvLen then
          (s.touch sock.recvBuf 0 sock.recvLen).store sock.recvBuf 0
            (s.load sock.recvBuf toRead (sock.recvLen - toRead))
        else s
      (bytes, s.setSock id { sock with recvLen := sock.recvLen - toRead })
    else ([], s)
  if toRead = 0 ∧ sock.state = .closed then ((-2, []), s)
  else ((toCInt toRead, bytes), s)

def picoTcpClose (id : ℤ) : Stubs :=
  if badId id then s else
  let sock := s.sock id
  if sock.proto ≠ .tcp then s else
  let s := match sock.pcb with
    | some pcb => (s.call (.tcpArg pcb none)).call (.tcpClose pcb)
    | none => s
  socketFree s id

/-! ### UDP -/

def udpRecvCallback (arg : ℤ) (p : Option Bytes) (addr : Word) (port : BitVec 16) : Stubs :=
  match p with
  | none => s
  | some bytes =>
    if badId arg then s else
    let (toCopy, s) := copyToRecvBuf s arg bytes fun sock =>
      { sock with udpSrcIp := addr, udpSrcPort := port }
    s.enqueue (.udpReceived arg toCopy addr port)

def picoUdpCreate (mallocOk udpNewOk : Bool) : ℤ × Stubs :=
  let (id, s) := socketAlloc s .udp mallocOk
  if id < 0 then (-1, s) else
  if !udpNewOk then (-1, socketFree s id) else
  let pcb := s.pcbNext
  let s := { s with pcbNext := pcb + 1 }
  let s := s.setSock id { s.sock id with pcb := some pcb, state := .connected }
  (id, s.call (.udpRecv pcb id))

def picoUdpBind (id : ℤ) (port : BitVec 16) (err : ℤ) : ℤ × Stubs :=
  if badId id then (-1, s) else
  let sock := s.sock id
  match sock.proto, sock.pcb with
  | .udp, some pcb => (if err = errOk then 0 else -1, s.call (.udpBind pcb port))
  | _, _ => (-1, s)

/-- `pbufOk` says whether `pbuf_alloc` found memory, `err` is the answer of `udp_sendto`. The
datagram is the part of the copy that the 16-bit length of the pbuf covers. -/
def picoUdpSendto (id : ℤ) (ip : Word) (port : BitVec 16) (data : Bytes) (len : ℕ)
    (pbufOk : Bool) (err : ℤ) : ℤ × Stubs :=
  if badId id then (-1, s) else
  let sock := s.sock id
  match sock.proto, sock.pcb with
  | .udp, some pcb =>
    if !pbufOk then (-1, s) else
    let payload := len % 2 ^ 16
    let s := { s with fault := s.fault || decide (payload < len) }
    if err = errOk then (toCInt len, s.call (.udpSendto pcb (data.take payload) ip port))
    else (-1, s)
  | _, _ => (-1, s)

/-- Returns the bytes stored in the buffer and the source address it reports. -/
def picoUdpRecvfrom (id : ℤ) (maxLen : ℕ) : (ℤ × Bytes × Word × BitVec 16) × Stubs :=
  if badId id then ((-1, [], 0, 0), s) else
  let sock := s.sock id
  if sock.proto ≠ .udp then ((-1, [], 0, 0), s) else
  let toRead := if sock.recvLen < maxLen then sock.recvLen else maxLen
  if toRead > 0 then
    let bytes := s.load sock.recvBuf 0 toRead
    let s := (s.touch sock.recvBuf 0 toRead).setSock id { sock with recvLen := 0 }
    ((toCInt toRead, bytes, sock.udpSrcIp, sock.udpSrcPort), s)
  else ((0, [], 0, 0), s)

def picoUdpClose (id : ℤ) : Stubs :=
  if badId id then s else
  let sock := s.sock id
  if sock.proto ≠ .udp then s else
  let s := match sock.pcb with
    | some pcb => s.call (.udpRemove pcb)
    | none => s
  socketFree s id

/-! ### Names and addresses -/

/-- How `dns_gethostbyname` answers: from its cache, through `dns_callback`, or not at all. -/
inductive DnsAnswer
  | cached (ip : Word)
  | inProgress (callback : Option Word)
  | failed
deriving DecidableEq

/-- `none` is the return value -1. -/
def dnsResolve : DnsAnswer → Option Word
  | .cached ip => some ip
  | .inProgress callback =>
    let dnsResultIp := callback.getD 0
    if dnsResultIp ≠ 0 then some dnsResultIp else none
  | .failed => none

/-- `parsed` is what `ip4addr_aton` stored, if it accepted the string. -/
def ipFromString (parsed : Option Word) : Word := parsed.getD 0

/-! ### OCaml stubs -/

def ocamlWifiConnect (result : ℤ) : Word × Stubs :=
  let (r, s) := wifiConnect s result
  (valInt (BitVec.ofInt 32 r), s)

def ocamlTcpCreate (mallocOk tcpNewOk : Bool) : Word × Stubs :=
  let (r, s) := picoTcpCreate s mallocOk tcpNewOk
  (valInt (BitVec.ofInt 32 r), s)

def ocamlTcpConnect (sock ip port : Word) (err : ℤ) : Word × Stubs :=
  let (r, s) := picoTcpConnect s (intVal sock).toInt (intVal ip) ((intVal port).setWidth 16) err
  (valInt (BitVec.ofInt 32 r), s)

def ocamlTcpWrite (sock : Word) (data : Bytes) (len : Word) (err : ℤ) : Word × Stubs :=
  let (r, s) := picoTcpWrite s (intVal sock).toInt data (intVal len).toNat err
  (valInt (BitVec.ofInt 32 r), s)

def ocamlTcpRead (sock maxLen : Word) : (Word × Bytes) × Stubs :=
  let ((got, bytes), s) := picoTcpRead s (intVal sock).toInt (intVal maxLen).toNat
  ((valInt (BitVec.ofInt 32 got), bytes), s)

def ocamlTcpClose (sock : Word) : Stubs := picoTcpClose s (intVal sock).toInt

def ocamlUdpCreate (mallocOk udpNewOk : Bool) : Word × Stubs :=
  let (r, s) := picoUdpCreate s mallocOk udpNewOk
  (valInt (BitVec.ofInt 32 r), s)

def ocamlUdpBind (sock port : Word) (err : ℤ) : Word × Stubs :=
  let (r, s) := picoUdpBind s (intVal sock).toInt ((intVal port).setWidth 16) err
  (valInt (BitVec.ofInt 32 r), s)

def ocamlUdpSendto (sock ip port : Word) (data : Bytes) (len : Word) (pbufOk : Bool) (err : ℤ) :
    Word × Stubs :=
  let (r, s) := picoUdpSendto s (intVal sock).toInt (intVal ip) ((intVal port).setWidth 16) data
    (intVal len).toNat pbufOk err
  (valInt (BitVec.ofInt 32 r), s)

/-- `bufLen` is `caml_string_length(buf)`; the source address stays in the stub. -/
def ocamlUdpRecvfrom (sock : Word) (bufLen : ℕ) : (Word × Bytes) × Stubs :=
  let ((got, bytes, _, _), s) := picoUdpRecvfrom s (intVal sock).toInt bufLen
  ((valInt (BitVec.ofInt 32 got), bytes), s)

def ocamlUdpClose (sock : Word) : Stubs := picoUdpClose s (intVal sock).toInt

def ocamlDnsResolve (answer : DnsAnswer) : Word :=
  match dnsResolve answer with
  | some ip => valInt ip
  | none => valInt 0

def ocamlIpFromString (parsed : Option Word) : Word := valInt (ipFromString parsed)

end PicoOcaml.NetStubs
