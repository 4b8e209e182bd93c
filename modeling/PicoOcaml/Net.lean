import Mathlib.Logic.Function.Iterate
import PicoOcaml.Pio.Book

/-! `Net.run`: the network effects with handlers that wait in a loop of their own. -/
namespace PicoOcaml.Net

open Pio

/-- What a program does next. -/
inductive Command
  | perform (e : NetEff)
  | ret
  | raise (e : Exn)
deriving DecidableEq

/-- A program of one fiber, by its next move after the answers of its effects so far. -/
abbrev Prog := List Answer → Command

def Command.outcome : Command → Option Answer
  | .perform _ => none
  | .ret => some (.value .unit)
  | .raise e => some (.exn e)

variable {W : Type*} (X : Externals W)

/-- `wait_connect` with so many tries left before the last. -/
def waitConnect (sockId : ℤ) : ℕ → W → Answer × W
  | triesLeft, w =>
    let w := X.sleepMs 10 (serviceNetwork X w)
    let (writeResult, w) := X.tcpWriteRaw sockId [] 0 w
    if writeResult ≥ 0 then (.value (.tcpSocket sockId), w)
    else match triesLeft with
      | tries + 1 => waitConnect sockId tries w
      | 0 => (.exn .connectionTimeout, X.tcpCloseRaw sockId w)

/-- `recv_loop` of `Tcp_read`. -/
def tcpRecvLoop (sock : ℤ) : ℕ → W → Answer × W
  | triesLeft, w =>
    let w := serviceNetwork X w
    let ((n, buf), w) := X.tcpReadRaw sock 4096 w
    if n > 0 then (.value (.bytes (buf.take n.toNat)), w)
    else if n = -2 then (.exn .socketClosed, w)
    else match triesLeft with
      | tries + 1 => tcpRecvLoop sock tries (X.sleepMs 10 w)
      | 0 => (.exn (.networkError "TCP read timeout"), w)

/-- `recv_loop` of `Udp_recvfrom`. -/
def udpRecvLoop (sock : ℤ) : ℕ → W → Answer × W
  | triesLeft, w =>
    let w := serviceNetwork X w
    let ((n, buf), w) := X.udpRecvfromRaw sock 4096 w
    if n > 0 then (.value (.datagram (buf.take n.toNat) "0.0.0.0" 0), w)
    else match triesLeft with
      | tries + 1 => udpRecvLoop sock tries (X.sleepMs 10 w)
      | 0 => (.exn (.networkError "UDP receive timeout"), w)

/-- The cases of `effc`: what the effect is answered with. -/
def effc (w : W) : NetEff → Answer × W
  | .wifiConnect ssid password timeout =>
    let (result, w) := X.wifiConnectRaw ssid password timeout w
    if result = 0 then (.value .unit, w)
    else (.exn (.networkError "WiFi connection failed"), w)
  | .wifiGetIp =>
    let (ip, w) := X.wifiGetIpRaw w
    (.value (.string (ipToString ip)), w)
  | .wifiDisconnect => (.value .unit, X.wifiDisconnectRaw w)
  | .tcpConnect host port =>
    let (sockId, w) := X.tcpCreateRaw w
    if sockId < 0 then (.exn (.networkError "Failed to create TCP socket"), w)
    else
      let (ip, w) := resolveHost X host w
      if ip = 0 then (.exn (.dnsFailed host), X.tcpCloseRaw sockId w)
      else
        let (result, w) := X.tcpConnectRaw sockId ip port w
        if result < 0 then (.exn (.networkError "TCP connect failed"), X.tcpCloseRaw sockId w)
        else waitConnect X sockId 1000 w
  | .tcpWrite sock data =>
    let (result, w) := X.tcpWriteRaw sock data data.length w
    let w := serviceNetwork X w
    if result ≥ 0 then (.value (.int result), w)
    else (.exn (.networkError "TCP write failed"), w)
  | .tcpRead sock => tcpRecvLoop X sock 1000 w
  | .tcpClose sock => (.value .unit, X.tcpCloseRaw sock w)
  | .udpCreate =>
    let (sockId, w) := X.udpCreateRaw w
    if sockId ≥ 0 then (.value (.udpSocket sockId), w)
    else (.exn (.networkError "Failed to create UDP socket"), w)
  | .udpBind sock port =>
    let (result, w) := X.udpBindRaw sock port w
    if result = 0 then (.value .unit, w)
    else (.exn (.networkError "Bind failed"), w)
  | .udpSendto sock host port data =>
    let (ip, w) := resolveHost X host w
    if ip = 0 then (.exn (.dnsFailed host), w)
    else
      let (result, w) := X.udpSendtoRaw sock ip port data data.length w
      let w := serviceNetwork X w
      if result ≥ 0 then (.value (.int result), w)
      else (.exn (.networkError "UDP send failed"), w)
  | .udpRecvfrom sock => udpRecvLoop X sock 1000 w
  | .udpClose sock => (.value .unit, X.udpCloseRaw sock w)
  | .dnsResolve hostname =>
    let (ip, w) := X.dnsResolveRaw hostname w
    if ip = 0 then (.exn (.dnsFailed hostname), w)
    else (.value (.string (ipToString ip)), w)

/-- The answers so far, and the world after them. -/
structure Point (W : Type*) where
  answers : List Answer
  world : W

def Point.next (prog : Prog) (p : Point W) : Point W :=
  match prog p.answers with
  | .perform e =>
    let (a, w) := effc X p.world e
    ⟨p.answers ++ [a], w⟩
  | .ret | .raise _ => p

/-- `Net.run` up to the answer of the `n`-th effect. -/
def run (prog : Prog) (w : W) (n : ℕ) : Point W := (Point.next X prog)^[n] ⟨[], w⟩

theorem udpRecvLoop_eq (sock : ℤ) (tries : ℕ) (w : W) :
    udpRecvLoop X sock tries w = recvLoop X sock tries w := by
  induction tries generalizing w with
  | zero => rfl
  | succ tries ih =>
    rw [udpRecvLoop, recvLoop]
    simp only [ih]

end PicoOcaml.Net
