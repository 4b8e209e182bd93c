import PicoOcaml.NetStubs
import PicoOcaml.Pio.Book

/-! The externals of the scheduler are the network stubs. -/
namespace PicoOcaml.Pio

open NetStubs

/-- A callback that lwIP makes. -/
inductive Callback
  | tcpRecv (arg : ℤ) (tpcb : ℕ) (p : Option Bytes) (err : ℤ)
  | tcpSent (arg : ℤ) (len : ℕ)
  | tcpErr (arg err : ℤ)
  | tcpConnected (arg err : ℤ)
  | udpRecv (arg : ℤ) (p : Option Bytes) (addr : Word) (port : BitVec 16)

def Callback.run (s : Stubs) : Callback → Stubs
  | .tcpRecv arg tpcb p err => (tcpRecvCallback s arg tpcb p err).2
  | .tcpSent arg len => (tcpSentCallback s arg len).2
  | .tcpErr arg err => tcpErrCallback s arg err
  | .tcpConnected arg err => (tcpConnectedCallback s arg err).2
  | .udpRecv arg p addr port => udpRecvCallback s arg p addr port

/-- What lwIP, `malloc` and the WiFi chip do in one call: the callbacks made while the call
polls, and the answers. -/
structure Turn where
  callbacks : List Callback
  mallocOk : Bool
  newOk : Bool
  pbufOk : Bool
  err : ℤ
  ip : Word
  dns : DnsAnswer
  parsed : Option Word

/-- The statics of the stubs, and what is still to come. -/
structure Network where
  stubs : Stubs
  turns : ℕ → Turn
  time : ℕ

namespace Network

def initial (turns : ℕ → Turn) : Network := ⟨.initial, turns, 0⟩

variable (w : Network)

def turn : Turn := w.turns w.time

def advance (s : Stubs) : Network := { w with stubs := s, time := w.time + 1 }

/-- `cyw43_arch_poll` makes the callbacks of its turn. -/
def callbacks (s : Stubs) : Stubs := w.turn.callbacks.foldl Callback.run s

/-- An OCaml integer comes back with the stubs as the call leaves them. -/
def answer (r : Word × Stubs) : ℤ × Network := (ocamlInt r.1, w.advance r.2)

end Network

/-- The stubs that the externals are bound to. Integers cross as tagged words. -/
def network : Externals Network where
  sleepMs _ w := w
  wifiConnectRaw _ _ _ w :=
    w.answer (ocamlWifiConnect (w.callbacks (netInit w.stubs)) w.turn.err)
  wifiDisconnectRaw w := w.advance (wifiDisconnect w.stubs)
  wifiGetIpRaw w := w.answer (valInt w.turn.ip, w.stubs)
  tcpCreateRaw w := w.answer (ocamlTcpCreate w.stubs w.turn.mallocOk w.turn.newOk)
  tcpConnectRaw sock ip port w := w.answer
    (ocamlTcpConnect w.stubs (ofOcamlInt sock) (ofOcamlInt ip) (ofOcamlInt port) w.turn.err)
  tcpWriteRaw sock data len w := w.answer
    (ocamlTcpWrite w.stubs (ofOcamlInt sock) data (ofOcamlInt len) w.turn.err)
  tcpReadRaw sock maxLen w :=
    let ((r, bytes), s) := ocamlTcpRead w.stubs (ofOcamlInt sock) (ofOcamlInt maxLen)
    ((ocamlInt r, bytes), w.advance s)
  tcpCloseRaw sock w := w.advance (ocamlTcpClose w.stubs (ofOcamlInt sock))
  udpCreateRaw w := w.answer (ocamlUdpCreate w.stubs w.turn.mallocOk w.turn.newOk)
  udpBindRaw sock port w := w.answer
    (ocamlUdpBind w.stubs (ofOcamlInt sock) (ofOcamlInt port) w.turn.err)
  udpSendtoRaw sock ip port data len w := w.answer
    (ocamlUdpSendto w.stubs (ofOcamlInt sock) (ofOcamlInt ip) (ofOcamlInt port) data
      (ofOcamlInt len) w.turn.pbufOk w.turn.err)
  udpRecvfromRaw sock bufLen w :=
    let ((r, bytes), s) := ocamlUdpRecvfrom w.stubs (ofOcamlInt sock) bufLen.toNat
    ((ocamlInt r, bytes), w.advance s)
  udpCloseRaw sock w := w.advance (ocamlUdpClose w.stubs (ofOcamlInt sock))
  dnsResolveRaw _ w :=
    let s := match w.turn.dns with
      | .inProgress _ => w.callbacks w.stubs
      | _ => w.stubs
    w.answer (ocamlDnsResolve w.turn.dns, s)
  netPollRaw w := w.advance (w.callbacks w.stubs)
  lwipServiceRaw w := w.advance (w.callbacks w.stubs)
  ipFromStringRaw _ w := w.answer (ocamlIpFromString w.turn.parsed, w.stubs)

/-- The number that the stubs make of a socket number. -/
def stubId (sock : ℤ) : ℤ := (intVal (ofOcamlInt sock)).toInt

/-- A read with `max_len` 0, which is how a waiter is polled, reads nothing; what it returns
says only whether the connection has been closed. -/
theorem picoTcpRead_zero (s : Stubs) (id : ℤ) : picoTcpRead s id 0 =
    ((if badId id ∨ (s.sock id).proto ≠ .tcp then -1
      else if (s.sock id).state = .closed then -2 else 0, []), s) := by
  simp only [picoTcpRead]
  by_cases hid : badId id
  · simp [hid]
  · by_cases hp : (s.sock id).proto = .tcp
    · by_cases hc : (s.sock id).state = .closed
      · simp [hid, hp, hc]
      · simp [hid, hp, hc, toCInt]
    · simp [hid, hp]

theorem tcpReadRaw_zero (sock : ℤ) (w : Network) : network.tcpReadRaw sock 0 w =
    ((if badId (stubId sock) ∨ (w.stubs.sock (stubId sock)).proto ≠ .tcp then -1
      else if (w.stubs.sock (stubId sock)).state = .closed then -2 else 0, []),
      w.advance w.stubs) := by
  have hzero : (intVal (ofOcamlInt 0)).toNat = 0 := by decide
  have hbad : ocamlInt (valInt (BitVec.ofInt 32 (-1))) = -1 := by decide
  have hclosed : ocamlInt (valInt (BitVec.ofInt 32 (-2))) = -2 := by decide
  have hopen : ocamlInt (valInt (BitVec.ofInt 32 0)) = 0 := by decide
  simp only [network, ocamlTcpRead, hzero, picoTcpRead_zero]
  rw [← stubId]
  split
  · rw [hbad]
  · split
    · rw [hclosed]
    · rw [hopen]

end PicoOcaml.Pio
