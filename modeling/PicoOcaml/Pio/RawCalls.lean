import PicoOcaml.Pio.Effects

/-! The raw calls that a handler issues, in their order. -/
namespace PicoOcaml.Pio

/-- A call of an external, with its arguments. -/
inductive RawCall
  | sleepMs (ms : ℤ)
  | wifiConnect (ssid password : String) (timeout : ℤ)
  | wifiDisconnect
  | wifiGetIp
  | tcpCreate
  | tcpConnect (sock ip port : ℤ)
  | tcpWrite (sock : ℤ) (data : Bytes) (len : ℤ)
  | tcpRead (sock maxLen : ℤ)
  | tcpClose (sock : ℤ)
  | udpCreate
  | udpBind (sock port : ℤ)
  | udpSendto (sock ip port : ℤ) (data : Bytes) (len : ℤ)
  | udpRecvfrom (sock bufLen : ℤ)
  | udpClose (sock : ℤ)
  | dnsResolve (hostname : String)
  | netPoll
  | lwipService
  | ipFromString (host : String)
deriving DecidableEq

/-- A world with the calls that have been made of it. -/
structure Recorded (W : Type*) where
  world : W
  calls : List RawCall

variable {W R : Type*}

namespace Recorded

def note (w : Recorded W) (c : RawCall) (world : W) : Recorded W := ⟨world, w.calls ++ [c]⟩

def answer (w : Recorded W) (c : RawCall) (r : R × W) : R × Recorded W := (r.1, w.note c r.2)

end Recorded

/-- The same externals, which note each call. -/
def recorded (X : Externals W) : Externals (Recorded W) where
  sleepMs ms w := w.note (.sleepMs ms) (X.sleepMs ms w.world)
  wifiConnectRaw ssid password timeout w :=
    w.answer (.wifiConnect ssid password timeout) (X.wifiConnectRaw ssid password timeout w.world)
  wifiDisconnectRaw w := w.note .wifiDisconnect (X.wifiDisconnectRaw w.world)
  wifiGetIpRaw w := w.answer .wifiGetIp (X.wifiGetIpRaw w.world)
  tcpCreateRaw w := w.answer .tcpCreate (X.tcpCreateRaw w.world)
  tcpConnectRaw sock ip port w :=
    w.answer (.tcpConnect sock ip port) (X.tcpConnectRaw sock ip port w.world)
  tcpWriteRaw sock data len w :=
    w.answer (.tcpWrite sock data len) (X.tcpWriteRaw sock data len w.world)
  tcpReadRaw sock maxLen w := w.answer (.tcpRead sock maxLen) (X.tcpReadRaw sock maxLen w.world)
  tcpCloseRaw sock w := w.note (.tcpClose sock) (X.tcpCloseRaw sock w.world)
  udpCreateRaw w := w.answer .udpCreate (X.udpCreateRaw w.world)
  udpBindRaw sock port w := w.answer (.udpBind sock port) (X.udpBindRaw sock port w.world)
  udpSendtoRaw sock ip port data len w :=
    w.answer (.udpSendto sock ip port data len) (X.udpSendtoRaw sock ip port data len w.world)
  udpRecvfromRaw sock bufLen w :=
    w.answer (.udpRecvfrom sock bufLen) (X.udpRecvfromRaw sock bufLen w.world)
  udpCloseRaw sock w := w.note (.udpClose sock) (X.udpCloseRaw sock w.world)
  dnsResolveRaw hostname w := w.answer (.dnsResolve hostname) (X.dnsResolveRaw hostname w.world)
  netPollRaw w := w.note .netPoll (X.netPollRaw w.world)
  lwipServiceRaw w := w.note .lwipService (X.lwipServiceRaw w.world)
  ipFromStringRaw host w := w.answer (.ipFromString host) (X.ipFromStringRaw host w.world)

end PicoOcaml.Pio
