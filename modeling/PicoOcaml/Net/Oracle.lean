import PicoOcaml.Net
import PicoOcaml.Pio.SingleFiber
import Mathlib.Logic.Relation

/-! One network for two runs that poll it differently: what it answers does not depend on how often
it has been polled, except for the polls that wait. -/
namespace PicoOcaml.Net

open Pio

variable {W : Type*} (X : Externals W)

/-- The raw calls, besides those that a wait is made of. -/
inductive RawCall
  | wifiConnect (ssid password : String) (timeout : ℤ)
  | wifiDisconnect
  | wifiGetIp
  | tcpCreate
  | tcpWrite (sock : ℤ) (data : Bytes)
  | tcpClose (sock : ℤ)
  | udpCreate
  | udpBind (sock port : ℤ)
  | udpSendto (sock ip port : ℤ) (data : Bytes)
  | udpClose (sock : ℤ)
  | dnsResolve (hostname : String)
  | ipFromString (s : String)

def RawCall.run (w : W) : RawCall → ℤ × W
  | .wifiConnect ssid password timeout => X.wifiConnectRaw ssid password timeout w
  | .wifiDisconnect => (0, X.wifiDisconnectRaw w)
  | .wifiGetIp => X.wifiGetIpRaw w
  | .tcpCreate => X.tcpCreateRaw w
  | .tcpWrite sock data => X.tcpWriteRaw sock data data.length w
  | .tcpClose sock => (0, X.tcpCloseRaw sock w)
  | .udpCreate => X.udpCreateRaw w
  | .udpBind sock port => X.udpBindRaw sock port w
  | .udpSendto sock ip port data => X.udpSendtoRaw sock ip port data data.length w
  | .udpClose sock => (0, X.udpCloseRaw sock w)
  | .dnsResolve hostname => X.dnsResolveRaw hostname w
  | .ipFromString s => X.ipFromStringRaw s w

/-- A read that ends a wait: data, or a close. -/
def Arrived (n : ℤ) : Prop := n > 0 ∨ n = -2

/-- The calls that leave the network as it is but for the time. -/
inductive Idle : W → W → Prop
  | sleepMs (n : ℤ) (w : W) : Idle w (X.sleepMs n w)
  | netPoll (w : W) : Idle w (X.netPollRaw w)
  | lwipService (w : W) : Idle w (X.lwipServiceRaw w)
  | probeWrite (sock : ℤ) (w : W) : Idle w (X.tcpWriteRaw sock [] 0 w).2
  | probeRead (sock : ℤ) (w : W) : Idle w (X.tcpReadRaw sock 0 w).2
  | noData (sock : ℤ) (w : W) (h : ¬ Arrived (X.tcpReadRaw sock 4096 w).1.1) :
    Idle w (X.tcpReadRaw sock 4096 w).2
  | noDatagram (sock : ℤ) (w : W) (h : ¬ (X.udpRecvfromRaw sock 4096 w).1.1 > 0) :
    Idle w (X.udpRecvfromRaw sock 4096 w).2

/-- `same` relates the worlds of the two runs where their programs act, `connecting` those in which
both wait for a connection. -/
structure SameOracle (same : W → W → Prop) (connecting : ℤ → W → W → Prop) : Prop where
  symm : ∀ {w w'}, same w w' → same w' w
  symmConnecting : ∀ {sock w w'}, connecting sock w w' → connecting sock w' w
  idle : ∀ {w w' v}, same w w' → Idle X w v → same v w'
  idleConnecting : ∀ {sock w w' v}, connecting sock w w' → Idle X w v → connecting sock v w'
  call : ∀ {w w'}, same w w' → ∀ c : RawCall,
    (c.run X w).1 = (c.run X w').1 ∧ same (c.run X w).2 (c.run X w').2
  connect : ∀ {w w'}, same w w' → ∀ sock ip port,
    (X.tcpConnectRaw sock ip port w).1 = (X.tcpConnectRaw sock ip port w').1 ∧
      ((X.tcpConnectRaw sock ip port w).1 < 0 →
        same (X.tcpConnectRaw sock ip port w).2 (X.tcpConnectRaw sock ip port w').2) ∧
      (¬ (X.tcpConnectRaw sock ip port w).1 < 0 →
        connecting sock (X.tcpConnectRaw sock ip port w).2 (X.tcpConnectRaw sock ip port w').2)
  connected : ∀ {sock w w'}, connecting sock w w' →
    (X.tcpWriteRaw sock [] 0 w).1 ≥ 0 → (X.tcpWriteRaw sock [] 0 w').1 ≥ 0 →
      same (X.tcpWriteRaw sock [] 0 w).2 (X.tcpWriteRaw sock [] 0 w').2
  read : ∀ {w w'}, same w w' → ∀ sock,
    Arrived (X.tcpReadRaw sock 4096 w).1.1 → Arrived (X.tcpReadRaw sock 4096 w').1.1 →
      (X.tcpReadRaw sock 4096 w).1 = (X.tcpReadRaw sock 4096 w').1 ∧
      same (X.tcpReadRaw sock 4096 w).2 (X.tcpReadRaw sock 4096 w').2
  probe : ∀ sock w, Arrived (X.tcpReadRaw sock 0 w).1.1 →
    Arrived (X.tcpReadRaw sock 4096 (X.tcpReadRaw sock 0 w).2).1.1
  recv : ∀ {w w'}, same w w' → ∀ sock,
    (X.udpRecvfromRaw sock 4096 w).1.1 > 0 → (X.udpRecvfromRaw sock 4096 w').1.1 > 0 →
      (X.udpRecvfromRaw sock 4096 w).1 = (X.udpRecvfromRaw sock 4096 w').1 ∧
      same (X.udpRecvfromRaw sock 4096 w).2 (X.udpRecvfromRaw sock 4096 w').2

/-- The socket that is being connected, if the connection is not refused at once. -/
def accepted (host : String) (port : ℤ) (w : W) : Option (ℤ × W) :=
  let (sockId, w) := X.tcpCreateRaw w
  if sockId < 0 then none
  else
    let (ip, w) := resolveHost X host w
    if ip = 0 then none
    else
      let (result, w) := X.tcpConnectRaw sockId ip port w
      if result < 0 then none else some (sockId, w)

/-- The waiter of the main fiber, which is the only one of its run. -/
def waiter (op : Operation) (sock : ℤ) : IoWaiter := ⟨sock, op, 0, 1000, .main 0, 0⟩

/-- At one of the passes that a reader waits for in `Pio.run`, data or a close is there. -/
def arrivesWithin (sock : ℤ) : ℕ → W → Prop
  | triesLeft, w =>
    let w := serviceNetwork X w
    Arrived (X.tcpReadRaw sock 4096 w).1.1 ∨ match triesLeft with
      | tries + 1 => arrivesWithin sock tries
          (X.sleepMs 1 (serviceNetwork X (X.tcpReadRaw sock 0 w).2))
      | 0 => False

/-- An accepted connection completes, and data or a close arrives for a reader, within the limits of
both runs; a datagram arrives within those of both or of neither. -/
def InTime (w w' : W) : NetEff → Prop
  | .tcpConnect host port => ∀ sock v v',
    accepted X host port w = some (sock, v) → accepted X host port w' = some (sock, v') →
      (waitConnect X sock 1000 v).1 = .value (.tcpSocket sock) ∧
      readyWithin X (waiter .connect sock) 1000 v' = true
  | .tcpRead sock =>
    (tcpRecvLoop X sock 1000 w).1 ≠ readTimeout ∧
    (Arrived (X.tcpReadRaw sock 4096 (serviceNetwork X w')).1.1 ∨
      arrivesWithin X sock 1000 (X.tcpReadRaw sock 4096 (serviceNetwork X w')).2)
  | .udpRecvfrom sock =>
    (udpRecvLoop X sock 1000 w).1 = .exn (.networkError "UDP receive timeout") ↔
      (recvLoop X sock 1000 w').1 = .exn (.networkError "UDP receive timeout")
  | _ => True

end PicoOcaml.Net
