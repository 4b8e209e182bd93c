import PicoOcaml.Net.AddressText
import PicoOcaml.NetStubs.Addresses
import PicoOcaml.NetStubs.SlotStates
import PicoOcaml.Pio.RawCalls

/-! The address that a host string stands for, and the one that the network effects use for it. -/
namespace PicoOcaml.Net

open NetStubs Pio

/-- `host` is the address `a` in dotted decimal. -/
def Literal (host : String) (a : Word) : Prop :=
  ∃ b0 b1 b2 b3 : UInt8, host = dotted b0.toNat b1.toNat b2.toNat b3.toNat ∧
    a = networkWord b0 b1 b2 b3

/-- A connect looks its host up after it has created the socket. -/
def lookupTurn (w : Network) : NetEff → Turn
  | .tcpConnect _ _ => w.turns (w.time + 1)
  | _ => w.turn

/-- The socket of a connect cannot be created. -/
def NoSocket (w : Network) : NetEff → Prop
  | .tcpConnect _ _ => firstClosed w.stubs = none ∨ w.turn.mallocOk = false ∨ w.turn.newOk = false
  | _ => False

/-- The address that a call hands to lwIP, as OCaml has it. -/
def address : RawCall → Option ℤ
  | .tcpConnect _ ip _ | .udpSendto _ ip _ _ _ => some ip
  | _ => none

/-- The host that a call looks up. -/
def hostname : RawCall → Option String
  | .dnsResolve hostname => some hostname
  | .ipFromString host => some host
  | _ => none

/-- The externals over `network`, with a log of the calls that starts empty. -/
abbrev logged : Externals (Recorded Network) := recorded network

/-- The calls made for the effect `e` and the answer to it, at once or by its waiter, in a fiber of
`Pio`, in a main fiber, and under `Net.run`. -/
inductive Outcome (w : Network) (e : NetEff) : List RawCall → Answer → Prop
  | fiber {h k ws a} : (handleNetEffect logged h k ws ⟨w, []⟩ e).reply = some a →
      Outcome w e (handleNetEffect logged h k ws ⟨w, []⟩ e).world.calls a
  | main {h k ws a} : (mainNetEffect logged h k ws ⟨w, []⟩ e).reply = some a →
      Outcome w e (mainNetEffect logged h k ws ⟨w, []⟩ e).world.calls a
  | woken {h k ws v calls} (later : Network) :
      (handleNetEffect logged h k ws ⟨w, []⟩ e).reply = none →
      (handleNetEffect logged h k ws ⟨w, []⟩ e).ioWaiters = v :: ws →
      (handleNetEffect logged h k ws ⟨w, []⟩ e).world.calls = calls →
      Outcome w e (v.handler.wakeAnswer logged v.operation v.sockId ⟨later, calls⟩).2.calls
        (v.handler.wakeAnswer logged v.operation v.sockId ⟨later, calls⟩).1
  | timedOut {h k ws v calls} (later : Network) :
      (handleNetEffect logged h k ws ⟨w, []⟩ e).reply = none →
      (handleNetEffect logged h k ws ⟨w, []⟩ e).ioWaiters = v :: ws →
      (handleNetEffect logged h k ws ⟨w, []⟩ e).world.calls = calls →
      Outcome w e (v.handler.timeoutAnswer logged v.operation v.sockId ⟨later, calls⟩).2.calls
        (v.handler.timeoutAnswer logged v.operation v.sockId ⟨later, calls⟩).1
  | run : Outcome w e (effc logged ⟨w, []⟩ e).2.calls (effc logged ⟨w, []⟩ e).1

/-- The test that chooses the parser. -/
def startsWithDigit (host : String) : Bool :=
  match host.toList with
  | c :: _ => '0' ≤ c ∧ c ≤ '9'
  | [] => false

/-- What the code finds for the host. -/
def looked (host : String) (t : Turn) : Option Word :=
  if startsWithDigit host then t.parsed else dnsResolve t.dns

variable {host : String} {w : Network} {e : NetEff} {a : Answer} {calls : List RawCall}

/-- The parser is asked for every literal. -/
theorem Literal.startsWithDigit {b : Word} (h : Literal host b) : startsWithDigit host = true := by
  obtain ⟨b0, b1, b2, b3, rfl, -⟩ := h
  have hlist := toList_dotted b0.toNat b1.toNat b2.toNat b3.toNat
  cases hdigits : Nat.toDigits 10 b0.toNat with
  | nil => exact absurd hdigits Nat.toDigits_ne_nil
  | cons c cs =>
    have hc : c.isDigit = true :=
      Nat.isDigit_of_mem_toDigits (by omega) (by omega) (hdigits ▸ List.mem_cons_self)
    rw [hdigits] at hlist
    simp only [Net.startsWithDigit, hlist, List.cons_append]
    simpa [Char.isDigit, Char.le_def] using hc

/-- A call that looks up no other host and uses no other address than the one found. -/
def Fits (host : String) (found : Option Word) (c : RawCall) : Prop :=
  (∀ ip, address c = some ip → ∃ b, found = some b ∧ ip = ocamlInt (valInt b)) ∧
    ∀ name, hostname c = some name → name = host

theorem fits_of_none {found : Option Word} {c : RawCall} (h : address c = none)
    (h' : hostname c = none) : Fits host found c := by
  simp [Fits, h, h']

/-- A sequence of calls with the answer they lead to, if there is one yet. -/
structure Answered (host : String) (w : Network) (e : NetEff) (calls : List RawCall)
    (reply : Option Answer) : Prop where
  fits : ∀ c ∈ calls, Fits host (looked host (lookupTurn w e)) c
  failed : (∃ name, reply = some (.exn (.dnsFailed name))) ↔
    looked host (lookupTurn w e) = none ∧ ¬ NoSocket w e

/-- A wait hands no address to lwIP, looks up no host and does not end with `Dns_failed`. -/
structure Quiet (before after : List RawCall) (a : Answer) : Prop where
  calls : ∃ more, after = before ++ more ∧ ∀ c ∈ more, address c = none ∧ hostname c = none
  answer : ∀ name, a ≠ .exn (.dnsFailed name)

theorem Answered.later (h : Answered host w e calls none) {after : List RawCall}
    (hq : Quiet calls after a) : Answered host w e after (some a) := by
  obtain ⟨⟨more, rfl, hmore⟩, hanswer⟩ := hq
  refine ⟨?_, ?_⟩
  · intro c hc
    rcases List.mem_append.mp hc with hc | hc
    · exact h.fits c hc
    · obtain ⟨haddr, hname⟩ := hmore c hc
      exact fits_of_none haddr hname
  · constructor
    · rintro ⟨name, hname⟩
      exact absurd (Option.some.inj hname) (hanswer name)
    · intro hnone
      obtain ⟨name, hname⟩ := h.failed.mpr hnone
      exact absurd hname (by simp)

theorem Quiet.after {before first calls : List RawCall} (h : Quiet (before ++ first) calls a)
    (hfirst : ∀ c ∈ first, address c = none ∧ hostname c = none) : Quiet before calls a := by
  obtain ⟨⟨more, rfl, hmore⟩, hanswer⟩ := h
  refine ⟨⟨first ++ more, List.append_assoc .., ?_⟩, hanswer⟩
  intro c hc
  rcases List.mem_append.mp hc with hc | hc
  · exact hfirst c hc
  · exact hmore c hc

end PicoOcaml.Net
