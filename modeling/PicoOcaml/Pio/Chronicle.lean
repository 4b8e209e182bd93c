import PicoOcaml.Pio.Network
import PicoOcaml.Pio.RawCalls
import PicoOcaml.Pio.World

/-! The network with the calls and the callbacks that have been made, in one order. -/
namespace PicoOcaml.Pio

open NetStubs

inductive Happening
  | call (c : RawCall)
  | callback (c : Callback)

/-- The network and a history. -/
structure Chronicle where
  net : Network
  log : List Happening

namespace Chronicle

variable (w : Chronicle)

/-- A call during which lwIP makes no callback. -/
def keep (c : RawCall) (net : Network) : Chronicle := ⟨net, w.log ++ [.call c]⟩

/-- A call that polls. -/
def poll (c : RawCall) (net : Network) : Chronicle :=
  ⟨net, w.log ++ .call c :: w.net.turn.callbacks.map .callback⟩

def answer {R : Type*} (c : RawCall) (r : R × Network) : R × Chronicle := (r.1, w.keep c r.2)

/-- What has happened since `w`. -/
def since (w w' : Chronicle) : List Happening := w'.log.drop w.log.length

end Chronicle

/-- The stubs once more, with that history. -/
def chronicled : Externals Chronicle where
  sleepMs ms w := w.keep (.sleepMs ms) (network.sleepMs ms w.net)
  wifiConnectRaw ssid password timeout w :=
    let (r, net) := network.wifiConnectRaw ssid password timeout w.net
    (r, w.poll (.wifiConnect ssid password timeout) net)
  wifiDisconnectRaw w := w.keep .wifiDisconnect (network.wifiDisconnectRaw w.net)
  wifiGetIpRaw w := w.answer .wifiGetIp (network.wifiGetIpRaw w.net)
  tcpCreateRaw w := w.answer .tcpCreate (network.tcpCreateRaw w.net)
  tcpConnectRaw sock ip port w :=
    w.answer (.tcpConnect sock ip port) (network.tcpConnectRaw sock ip port w.net)
  tcpWriteRaw sock data len w :=
    w.answer (.tcpWrite sock data len) (network.tcpWriteRaw sock data len w.net)
  tcpReadRaw sock maxLen w := w.answer (.tcpRead sock maxLen) (network.tcpReadRaw sock maxLen w.net)
  tcpCloseRaw sock w := w.keep (.tcpClose sock) (network.tcpCloseRaw sock w.net)
  udpCreateRaw w := w.answer .udpCreate (network.udpCreateRaw w.net)
  udpBindRaw sock port w := w.answer (.udpBind sock port) (network.udpBindRaw sock port w.net)
  udpSendtoRaw sock ip port data len w :=
    w.answer (.udpSendto sock ip port data len) (network.udpSendtoRaw sock ip port data len w.net)
  udpRecvfromRaw sock bufLen w :=
    w.answer (.udpRecvfrom sock bufLen) (network.udpRecvfromRaw sock bufLen w.net)
  udpCloseRaw sock w := w.keep (.udpClose sock) (network.udpCloseRaw sock w.net)
  dnsResolveRaw host w :=
    let (r, net) := network.dnsResolveRaw host w.net
    match w.net.turn.dns with
    | .inProgress _ => (r, w.poll (.dnsResolve host) net)
    | _ => (r, w.keep (.dnsResolve host) net)
  netPollRaw w := w.poll .netPoll (network.netPollRaw w.net)
  lwipServiceRaw w := w.poll .lwipService (network.lwipServiceRaw w.net)
  ipFromStringRaw host w := w.answer (.ipFromString host) (network.ipFromStringRaw host w.net)

/-! ### One socket on its own -/

/-- A call that a connect makes for its socket in slot `i`, or one that works on no socket. The
first `wifi_connect` works on all of them, because it clears the table. -/
def RawCall.Own (i : ℤ) (initialized : Bool) : RawCall → Prop
  | .tcpWrite sock _ _ | .tcpConnect sock _ _ | .tcpClose sock => stubId sock = i
  | .wifiConnect _ _ _ => initialized = true
  | .sleepMs _ | .wifiDisconnect | .wifiGetIp | .dnsResolve _ | .netPoll | .lwipService
  | .ipFromString _ => True
  | .tcpCreate | .tcpRead _ _ | .udpCreate | .udpBind _ _ | .udpSendto _ _ _ _ _
  | .udpRecvfrom _ _ | .udpClose _ => False

/-- A callback for the TCP socket in slot `i`. -/
def Callback.Own (i : ℤ) : Callback → Prop
  | .tcpRecv arg _ _ _ | .tcpSent arg _ | .tcpErr arg _ | .tcpConnected arg _ => arg = i
  | .udpRecv _ _ _ _ => False

/-- No other socket is worked on or called back. Once the slot is closed, a callback with its number
would be one of a socket that had the slot before. -/
structure Undisturbed (i : ℤ) (initialized : Bool) (log : List Happening) : Prop where
  calls : ∀ c, .call c ∈ log → c.Own i initialized
  callbacks : ∀ c, .callback c ∈ log → c.Own i
  closed : ∀ before after sock, log = before ++ .call (.tcpClose sock) :: after →
    ∀ c, .callback c ∉ after

variable {i : ℤ} {initialized : Bool} {log log' : List Happening}

theorem Undisturbed.left (h : Undisturbed i initialized (log ++ log')) :
    Undisturbed i initialized log := by
  refine ⟨fun c hc => h.calls c (List.mem_append_left _ hc),
    fun c hc => h.callbacks c (List.mem_append_left _ hc), ?_⟩
  rintro before after sock rfl c hc
  exact h.closed before (after ++ log') sock (by simp) c (List.mem_append_left _ hc)

end PicoOcaml.Pio
