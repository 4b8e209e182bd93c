import PicoOcaml.NetStubs

/-! Lengths of what is sent: `size_t` in the stubs, 16 bits in lwIP, `int` in the result. -/
namespace PicoOcaml.NetStubs

variable {s : Stubs} {id : ℤ} {data : Bytes} {err : ℤ}

/-- `pico_tcp_write` gets past its guards. -/
structure TcpReady (s : Stubs) (id : ℤ) (pcb : ℕ) : Prop where
  valid : badId id = false
  proto : (s.sock id).proto = .tcp
  pcb : (s.sock id).pcb = some pcb
  state : (s.sock id).state = .connected

/-- `pico_udp_sendto` gets past its guards. -/
structure UdpReady (s : Stubs) (id : ℤ) (pcb : ℕ) : Prop where
  valid : badId id = false
  proto : (s.sock id).proto = .udp
  pcb : (s.sock id).pcb = some pcb

/-- A result that is not negative is the length, and says that one write got the whole buffer;
after -1 nothing has been handed over. -/
def TcpExact (s : Stubs) (id : ℤ) (data : Bytes) (err : ℤ) : Prop :=
  let r := picoTcpWrite s id data data.length err
  (0 ≤ r.1 → r.1 = data.length ∧
    ∃ pcb, (s.sock id).pcb = some pcb ∧ r.2.lwip = s.lwip ++ [.tcpWrite pcb data]) ∧
  (r.1 = -1 → r.2.lwip = s.lwip)

/-- The stubs with no overrun on record. -/
def Stubs.clean (s : Stubs) : Stubs := { s with fault := false }

@[simp] theorem fault_clean : s.clean.fault = false := rfl
@[simp] theorem lwip_clean : s.clean.lwip = s.lwip := rfl
@[simp] theorem sock_clean : s.clean.sock id = s.sock id := rfl

/-- The same of one datagram, and the copy into the pbuf stays inside of it. -/
def UdpExact (s : Stubs) (id : ℤ) (ip : Word) (port : BitVec 16) (data : Bytes) (pbufOk : Bool)
    (err : ℤ) : Prop :=
  let r := picoUdpSendto s.clean id ip port data data.length pbufOk err
  (0 ≤ r.1 → r.1 = data.length ∧
    ∃ pcb, (s.sock id).pcb = some pcb ∧ r.2.lwip = s.lwip ++ [.udpSendto pcb data ip port]) ∧
  (r.1 = -1 → r.2.lwip = s.lwip) ∧ r.2.fault = false

/-- Lengths for which the three widths agree, or whose `int` is neither a length nor -1. -/
def Sendable (len : ℕ) : Prop :=
  len < 2 ^ 16 ∨ (2 ^ 31 ≤ len % 2 ^ 32 ∧ len % 2 ^ 32 ≠ 2 ^ 32 - 1)

/-- lwIP gets all of a buffer exactly when its length fits 16 bits. -/
theorem le_low_iff (n : ℕ) : n ≤ n % 65536 ↔ n < 65536 := by omega

/-! ### TCP -/

theorem picoTcpWrite_ready {pcb : ℕ} (h : TcpReady s id pcb) (data : Bytes) (len : ℕ) (err : ℤ) :
    picoTcpWrite s id data len err = if err = errOk then
      (toCInt len, s.call (.tcpWrite pcb (data.take (len % 2 ^ 16)))) else (-1, s) := by
  simp [picoTcpWrite, h.valid, h.proto, h.pcb, h.state]

theorem picoTcpWrite_guarded (h : ∀ pcb, ¬ TcpReady s id pcb) (len : ℕ) (err : ℤ) :
    picoTcpWrite s id data len err = (-1, s) := by
  simp only [picoTcpWrite]
  split
  case isTrue hid => rfl
  case isFalse hid =>
    have hvalid : badId id = false := by simpa using hid
    split
    case h_1 pcb hproto hpcb =>
      have hstate : (s.sock id).state ≠ .connected := fun hs => h pcb ⟨hvalid, hproto, hpcb, hs⟩
      rw [if_pos hstate]
    case h_2 => rfl

theorem tcpExact_refused (h : picoTcpWrite s id data data.length err = (-1, s)) :
    TcpExact s id data err := by
  simp [TcpExact, h]

/-- What is handed over is the buffer up to its 16-bit length. -/
theorem tcpExact_written {pcb : ℕ} (h : TcpReady s id pcb) : TcpExact s id data errOk ↔
    (0 ≤ toCInt data.length → toCInt data.length = data.length ∧ data.length < 2 ^ 16) ∧
      toCInt data.length ≠ -1 := by
  have hready := picoTcpWrite_ready h data data.length errOk
  rw [if_pos rfl] at hready
  simp only [TcpExact, hready]
  simp [h.pcb, le_low_iff, and_comm]

theorem tcpExact_iff : TcpExact s id data err ↔
    ∀ pcb, TcpReady s id pcb → err = errOk → Sendable data.length := by
  by_cases hr : ∃ pcb, TcpReady s id pcb
  case neg =>
    rw [not_exists] at hr
    have hexact := tcpExact_refused (picoTcpWrite_guarded hr data.length err)
    exact iff_of_true hexact fun pcb hp => absurd hp (hr pcb)
  case pos =>
    obtain ⟨pcb, hp⟩ := hr
    by_cases he : err = errOk
    case neg =>
      have hready := picoTcpWrite_ready hp data data.length err
      rw [if_neg he] at hready
      exact iff_of_true (tcpExact_refused hready) fun _ _ h => absurd h he
    case pos =>
      subst he
      rw [tcpExact_written hp]
      constructor
      · rintro ⟨hlen, hneg⟩ - - -
        rcases toCInt_cases data.length with ⟨h1, h2⟩ | ⟨h1, h2⟩
        · exact Or.inl (hlen (by omega)).2
        · exact Or.inr ⟨h1, by omega⟩
      · intro h
        rcases toCInt_cases data.length with ⟨h1, h2⟩ | ⟨h1, h2⟩ <;>
          rcases h pcb hp rfl with h3 | ⟨h3, h4⟩ <;> omega

/-! ### UDP -/

theorem picoUdpSendto_ready {pcb : ℕ} (h : UdpReady s id pcb) (ip : Word) (port : BitVec 16)
    (data : Bytes) (len : ℕ) (err : ℤ) :
    let r := picoUdpSendto s id ip port data len true err
    r.1 = (if err = errOk then toCInt len else -1) ∧
      r.2.lwip = s.lwip ++
        (if err = errOk then [.udpSendto pcb (data.take (len % 2 ^ 16)) ip port] else []) ∧
      r.2.fault = (s.fault || decide (len % 2 ^ 16 < len)) := by
  by_cases he : err = errOk <;>
    simp [picoUdpSendto, h.valid, h.proto, h.pcb, he, Stubs.call]

theorem picoUdpSendto_guarded (ip : Word) (port : BitVec 16) {pbufOk : Bool}
    (h : ∀ pcb, UdpReady s id pcb → pbufOk = false) (len : ℕ) (err : ℤ) :
    picoUdpSendto s id ip port data len pbufOk err = (-1, s) := by
  simp only [picoUdpSendto]
  split
  case isTrue hid => rfl
  case isFalse hid =>
    have hvalid : badId id = false := by simpa using hid
    split
    case h_1 pcb hproto hpcb => simp [h pcb ⟨hvalid, hproto, hpcb⟩]
    case h_2 => rfl

/-- The copy overruns the pbuf exactly when its length does not fit, whatever lwIP answers. -/
theorem udpExact_sent {pcb : ℕ} (h : UdpReady s id pcb) (ip : Word) (port : BitVec 16) :
    UdpExact s id ip port data true err ↔ data.length < 2 ^ 16 := by
  have hclean : UdpReady s.clean id pcb := ⟨h.valid, h.proto, h.pcb⟩
  obtain ⟨hresult, hlwip, hfault⟩ :=
    picoUdpSendto_ready hclean ip port data data.length err
  simp only [UdpExact, hresult, hlwip, hfault, h.pcb]
  constructor
  · rintro ⟨-, -, hin⟩
    simpa [le_low_iff] using hin
  · intro hlen
    have hlen' : data.length < 65536 := hlen
    by_cases he : err = errOk
    · simp [he, le_low_iff, toCInt_short hlen, hlen']
    · simp [he, le_low_iff, hlen']

theorem udpExact_iff (ip : Word) (port : BitVec 16) {pbufOk : Bool} :
    UdpExact s id ip port data pbufOk err ↔
      ∀ pcb, UdpReady s id pcb → pbufOk = true → data.length < 2 ^ 16 := by
  by_cases hr : ∃ pcb, UdpReady s id pcb ∧ pbufOk = true
  case neg =>
    have hrefused : ∀ pcb, UdpReady s.clean id pcb → pbufOk = false := by
      intro pcb hp
      by_contra hok
      exact hr ⟨pcb, ⟨hp.valid, hp.proto, hp.pcb⟩, by simpa using hok⟩
    have hexact : UdpExact s id ip port data pbufOk err := by
      simp [UdpExact, picoUdpSendto_guarded ip port hrefused data.length err]
    exact iff_of_true hexact fun pcb hp hok => absurd ⟨pcb, hp, hok⟩ hr
  case pos =>
    obtain ⟨pcb, hp, rfl⟩ := hr
    rw [udpExact_sent hp]
    exact ⟨fun h _ _ _ => h, fun h => h pcb hp rfl⟩

/-- A write or a datagram is handed over whole, or refused, exactly when its length fits 16 bits
or the call does not get as far as lwIP taking it. -/
theorem send_exact_iff (s : Stubs) (id : ℤ) (data : Bytes) (err : ℤ) :
    (TcpExact s id data err ↔
      ∀ pcb, TcpReady s id pcb → err = errOk → Sendable data.length) ∧
    ∀ (ip : Word) (port : BitVec 16) (pbufOk : Bool), UdpExact s id ip port data pbufOk err ↔
      ∀ pcb, UdpReady s id pcb → pbufOk = true → data.length < 2 ^ 16 :=
  ⟨tcpExact_iff, fun ip port _ => udpExact_iff ip port⟩

/-- 70000 bytes on a connected socket: lwIP gets 4464 of them, and all are reported as sent. -/
theorem send_truncated :
    ¬ ∀ (s : Stubs) (id : ℤ) (data : Bytes) (err : ℤ), TcpExact s id data err ∧
      ∀ (ip : Word) (port : BitVec 16) (pbufOk : Bool), UdpExact s id ip port data pbufOk err := by
  intro h
  let s := (tcpConnectedCallback (picoTcpCreate Stubs.initial true true).2 0 errOk).2
  have hready : TcpReady s 0 0 := ⟨rfl, by decide, by decide, by decide⟩
  have hexact := tcpExact_iff.mp (h s 0 (List.replicate 70000 0) errOk).1 0 hready rfl
  rw [List.length_replicate] at hexact
  rcases hexact with hlen | ⟨hlen, -⟩ <;> omega

end PicoOcaml.NetStubs
