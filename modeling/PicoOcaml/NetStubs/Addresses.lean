import PicoOcaml.NetStubs

/-! IPv4 addresses on their way from lwIP through an OCaml integer and back. -/
namespace PicoOcaml.NetStubs

/-- `v` is the OCaml value that a lookup or the parser makes of the address `a`. -/
inductive Resolves (a : Word) : Word → Prop
  | dns {answer : DnsAnswer} : dnsResolve answer = some a → Resolves a (ocamlDnsResolve answer)
  | parsed : Resolves a (ocamlIpFromString (some a))

theorem resolves_eq {a v : Word} (h : Resolves a v) : v = valInt a := by
  cases h with
  | dns h => simp [ocamlDnsResolve, h]
  | parsed => rfl

/-- Whatever value stands for `a`, OCaml hands `a` itself to the connect and send functions,
and reads the value as the failure 0 only for 0.0.0.0. -/
def AddressSurvives (a : Word) : Prop :=
  ∀ v, Resolves a v →
    (∀ s sock port err, ocamlTcpConnect s sock (ofOcamlInt (ocamlInt v)) port err =
      let (r, s') := picoTcpConnect s (intVal sock).toInt a ((intVal port).setWidth 16) err
      (valInt (BitVec.ofInt 32 r), s')) ∧
    (∀ s sock port data len pbufOk err,
      ocamlUdpSendto s sock (ofOcamlInt (ocamlInt v)) port data len pbufOk err =
        let (r, s') := picoUdpSendto s (intVal sock).toInt a ((intVal port).setWidth 16) data
          (intVal len).toNat pbufOk err
        (valInt (BitVec.ofInt 32 r), s')) ∧
    (ocamlInt v = 0 → a = 0)

/-- A table whose slot 0 holds a connected TCP socket. -/
def oneSocket : Stubs :=
  Stubs.initial.setSock 0 { Socket.zero with state := .connected, pcb := some 0 }

theorem ocamlTcpConnect_oneSocket (ip : Word) :
    (ocamlTcpConnect oneSocket (valInt 0) ip (valInt 80) errOk).2.lwip =
      [.tcpConnect 0 (intVal ip) 80] := rfl

theorem picoTcpConnect_oneSocket (ip : Word) :
    (picoTcpConnect oneSocket 0 ip 80 errOk).2.lwip = [.tcpConnect 0 ip 80] := rfl

theorem valInt_of_ocamlInt_zero {a : Word} (h : ocamlInt (valInt a) = 0) :
    valInt a = valInt 0 := by
  rw [← ofOcamlInt_ocamlInt_valInt a, h]
  rfl

/-- An address survives exactly when the top two bits of its last octet agree. -/
theorem addressSurvives_iff (a : Word) : AddressSurvives a ↔ a.getLsbD 31 = a.getLsbD 30 := by
  constructor
  · intro h
    obtain ⟨hc, _, _⟩ := h _ .parsed
    have hc := congrArg (fun r => r.2.lwip) (hc oneSocket (valInt 0) (valInt 80) errOk)
    have hv : ofOcamlInt (ocamlInt (ocamlIpFromString (some a))) = valInt a :=
      ofOcamlInt_ocamlInt_valInt a
    rw [hv, ocamlTcpConnect_oneSocket] at hc
    have hp : [LwipCall.tcpConnect 0 (intVal (valInt a)) 80] = [LwipCall.tcpConnect 0 a 80] :=
      hc.trans (picoTcpConnect_oneSocket a)
    exact (intVal_valInt_iff a).mp (by simpa using hp)
  · intro h v hv
    obtain rfl := resolves_eq hv
    have hr := (intVal_valInt_iff a).mpr h
    refine ⟨?_, ?_, ?_⟩
    · intro s sock port err
      rw [ofOcamlInt_ocamlInt_valInt, ocamlTcpConnect, hr]
    · intro s sock port data len pbufOk err
      rw [ofOcamlInt_ocamlInt_valInt, ocamlUdpSendto, hr]
    · intro h0
      rcases (valInt_eq_zero_iff a).mp (valInt_of_ocamlInt_zero h0) with ha | ha
      · exact ha
      · subst ha
        exact absurd h (by decide)

/-- 192.168.1.100 reaches lwIP as 192.168.1.228. -/
theorem address_altered : ¬ AddressSurvives 0x6401A8C0 := by
  intro h
  obtain ⟨hc, _, _⟩ := h _ .parsed
  have hc := congrArg (fun r => r.2.lwip) (hc oneSocket (valInt 0) (valInt 80) errOk)
  exact absurd hc (by decide)

end PicoOcaml.NetStubs
