import PicoOcaml.NetStubs.SlotStates
import PicoOcaml.Pio.Network
import PicoOcaml.Pio.World

/-! The network with the callbacks that lwIP has made, and the state they leave a socket in. -/
namespace PicoOcaml.Pio

open NetStubs

/-- The state that the callback puts the slot in. -/
def Callback.report (i : ℤ) : Callback → Option SocketState
  | .tcpRecv arg _ none _ => if arg = i then some .closed else none
  | .tcpErr arg _ => if arg = i then some .error else none
  | .tcpConnected arg err => if arg = i then some (if err = errOk then .connected else .error) else none
  | _ => none

/-- The last of those states. -/
def lastReport (i : ℤ) (cs : List Callback) : Option SocketState :=
  (cs.filterMap (Callback.report i)).getLast?

theorem lastReport_append (i : ℤ) (cs ds : List Callback) :
    lastReport i (cs ++ ds) = (lastReport i ds).or (lastReport i cs) := by
  simp [lastReport, List.filterMap_append, List.getLast?_append]

/-- Every pcb in use has been handed out. -/
def Bounded (s : Stubs) : Prop := ∀ n p, (s.sockets n).pcb = some p → p < s.pcbNext

/-- What becomes of the slot while lwIP makes the callbacks: as long as it has its old pcb, only
they have changed its state. -/
structure Drift (i : ℤ) (cs : List Callback) (s t : Stubs) : Prop where
  next : s.pcbNext ≤ t.pcbNext
  bounded : Bounded s → Bounded t
  kept : ∀ p < s.pcbNext, (t.sock i).pcb = some p → (s.sock i).pcb = some p ∧
    (t.sock i).proto = (s.sock i).proto ∧
      (t.sock i).state = (lastReport i cs).getD (s.sock i).state

variable {i : ℤ} {cs ds : List Callback} {s t r : Stubs}

theorem Drift.refl : Drift i [] s s := ⟨Nat.le_refl _, id, fun _ _ hp => ⟨hp, rfl, rfl⟩⟩

theorem Drift.trans (h : Drift i cs s t) (h' : Drift i ds t r) : Drift i (cs ++ ds) s r := by
  refine ⟨h.next.trans h'.next, h'.bounded ∘ h.bounded, ?_⟩
  intro p hp hr
  obtain ⟨ht, hproto', hstate'⟩ := h'.kept p (hp.trans_le h.next) hr
  obtain ⟨hs, hproto, hstate⟩ := h.kept p hp ht
  refine ⟨hs, hproto'.trans hproto, ?_⟩
  rw [hstate', hstate, lastReport_append]
  cases lastReport i ds <;> rfl

theorem drift_of_steady (h : Steady s t) : Drift i [] s t := by
  refine ⟨h.next, ?_, ?_⟩
  · intro hb n p hp
    have hn := h.next
    rcases h.slot n with hu | hgone | ⟨q, hq, hlo, hhi⟩
    · have hlt := hb n p (hu.pcb.symm.trans hp)
      omega
    · rw [hgone] at hp
      cases hp
    · rw [hq, Option.some.injEq] at hp
      omega
  · intro p hlt hp
    rcases h.slot i.toNat with hu | hgone | ⟨q, hq, hlo, hhi⟩
    · exact ⟨hu.pcb.symm.trans hp, hu.proto, hu.state⟩
    · cases hgone.symm.trans hp
    · have heq := Option.some.inj (hq.symm.trans hp)
      omega

theorem Drift.enqueue (h : Drift i cs s t) (e : NetEvent) : Drift i cs s (t.enqueue e) := by
  have hd : Drift i [] t (t.enqueue e) := drift_of_steady (Steady.refl.enqueue e)
  simpa using h.trans hd

/-- A connect sets the state of its own slot only. -/
theorem Drift.connect {id : ℤ} (hi : badId i = false) (h : Drift i cs s t)
    (hfresh : id = i → ∀ p < s.pcbNext, (t.sock i).pcb ≠ some p) (ip : Word) (port : BitVec 16)
    (err : ℤ) : Drift i cs s (picoTcpConnect t id ip port err).2 := by
  have hpcb : ∀ n, ((picoTcpConnect t id ip port err).2.sockets n).pcb = (t.sockets n).pcb :=
    fun n => (same_picoTcpConnect id ip port err).pcb
  have hnext : (picoTcpConnect t id ip port err).2.pcbNext = t.pcbNext := by
    simp only [picoTcpConnect]
    repeat' split
    all_goals rfl
  refine ⟨hnext ▸ h.next, ?_, ?_⟩
  · intro hb n p hp
    rw [hnext]
    exact h.bounded hb n p (hpcb n ▸ hp)
  · intro p hlt hp
    have hp' : (t.sock i).pcb = some p := (hpcb i.toNat).symm.trans hp
    have hne : id ≠ i := fun heq => hfresh heq p hlt hp'
    have hsame : (picoTcpConnect t id ip port err).2.sock i = t.sock i := by
      simp only [picoTcpConnect]
      split
      · rfl
      · rename_i hid
        have hne' : i.toNat ≠ id.toNat := by
          have h0 := nonneg_of_valid hi
          have h1 := nonneg_of_valid (j := id) (by simpa using hid)
          omega
        split
        · simp [Stubs.setSock, Stubs.sock, Stubs.call, hne']
        · rfl
    rw [hsame]
    exact h.kept p hlt hp'

/-- The network and a history: the callbacks made so far. -/
structure Observed where
  net : Network
  made : List Callback

namespace Observed

variable (w : Observed)

/-- A call during which lwIP makes no callback. -/
def keep (net : Network) : Observed := { w with net := net }

/-- A call that polls. -/
def poll (net : Network) : Observed := ⟨net, w.made ++ w.net.turn.callbacks⟩

end Observed

/-- The stubs once more, with that history. lwIP takes every write of no bytes. -/
def observed : Externals Observed where
  sleepMs ms w := w.keep (network.sleepMs ms w.net)
  wifiConnectRaw ssid password timeout w :=
    let (r, net) := network.wifiConnectRaw ssid password timeout w.net
    (r, w.poll net)
  wifiDisconnectRaw w := w.keep (network.wifiDisconnectRaw w.net)
  wifiGetIpRaw w :=
    let (r, net) := network.wifiGetIpRaw w.net
    (r, w.keep net)
  tcpCreateRaw w :=
    let (r, net) := network.tcpCreateRaw w.net
    (r, w.keep net)
  tcpConnectRaw sock ip port w :=
    let (r, net) := network.tcpConnectRaw sock ip port w.net
    (r, w.keep net)
  tcpWriteRaw sock data len w :=
    let (r, net) := if len = 0 then
        w.net.answer (ocamlTcpWrite w.net.stubs (ofOcamlInt sock) data (ofOcamlInt len) errOk)
      else network.tcpWriteRaw sock data len w.net
    (r, w.keep net)
  tcpReadRaw sock maxLen w :=
    let (r, net) := network.tcpReadRaw sock maxLen w.net
    (r, w.keep net)
  tcpCloseRaw sock w := w.keep (network.tcpCloseRaw sock w.net)
  udpCreateRaw w :=
    let (r, net) := network.udpCreateRaw w.net
    (r, w.keep net)
  udpBindRaw sock port w :=
    let (r, net) := network.udpBindRaw sock port w.net
    (r, w.keep net)
  udpSendtoRaw sock ip port data len w :=
    let (r, net) := network.udpSendtoRaw sock ip port data len w.net
    (r, w.keep net)
  udpRecvfromRaw sock bufLen w :=
    let (r, net) := network.udpRecvfromRaw sock bufLen w.net
    (r, w.keep net)
  udpCloseRaw sock w := w.keep (network.udpCloseRaw sock w.net)
  dnsResolveRaw host w :=
    let (r, net) := network.dnsResolveRaw host w.net
    match w.net.turn.dns with
    | .inProgress _ => (r, w.poll net)
    | _ => (r, w.keep net)
  netPollRaw w := w.poll (network.netPollRaw w.net)
  lwipServiceRaw w := w.poll (network.lwipServiceRaw w.net)
  ipFromStringRaw host w :=
    let (r, net) := network.ipFromStringRaw host w.net
    (r, w.keep net)

/-- Between the two worlds lwIP has made some callbacks, and nothing else has moved the slot. -/
def Observed.Drifts (i : ℤ) (w w' : Observed) : Prop :=
  ∃ cs, w'.made = w.made ++ cs ∧ Drift i cs w.net.stubs w'.net.stubs

namespace Observed

variable {u v w : Observed}

theorem Drifts.refl : Drifts i w w := ⟨[], (List.append_nil _).symm, .refl⟩

theorem Drifts.trans (h : Drifts i u v) (h' : Drifts i v w) : Drifts i u w := by
  obtain ⟨cs, hmade, hd⟩ := h
  obtain ⟨ds, hmade', hd'⟩ := h'
  exact ⟨cs ++ ds, by rw [hmade', hmade, List.append_assoc], hd.trans hd'⟩

end Observed

end PicoOcaml.Pio
