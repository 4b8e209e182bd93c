import PicoOcaml.Value

/-! The effects of fibers and of the network, the externals behind them, and what the two
effect handlers make of a network effect. -/
namespace PicoOcaml.Pio

abbrev Bytes := List UInt8

/-- `user` stands for the exceptions of the program. -/
inductive Exn
  | networkError (msg : String)
  | connectionTimeout
  | socketClosed
  | dnsFailed (host : String)
  | failure (msg : String)
  | unhandled
  | continuationAlreadyResumed
  | user (n : ℕ)
deriving DecidableEq

/-- `user` stands for the values of the program, `ok` and `error` for those of type `result`. -/
inductive Val
  | unit
  | int (n : ℤ)
  | bytes (b : Bytes)
  | string (s : String)
  | datagram (b : Bytes) (host : String) (port : ℤ)
  | tcpSocket (id : ℤ)
  | udpSocket (id : ℤ)
  | promise (p : ℕ)
  | ok (v : Val)
  | error (e : Exn)
  | user (n : ℕ)
deriving DecidableEq

/-- How a computation ends, and how it is continued. -/
inductive Answer
  | value (v : Val)
  | exn (e : Exn)
deriving DecidableEq

/-- The argument of the last resolve of `run_promise_fiber`. -/
def Answer.result : Answer → Val
  | .value v => .ok v
  | .exn e => .error e

inductive NetEff
  | wifiConnect (ssid password : String) (timeout : ℤ)
  | wifiGetIp
  | wifiDisconnect
  | tcpConnect (host : String) (port : ℤ)
  | tcpWrite (sock : ℤ) (data : Bytes)
  | tcpRead (sock : ℤ)
  | tcpClose (sock : ℤ)
  | udpCreate
  | udpBind (sock port : ℤ)
  | udpSendto (sock : ℤ) (host : String) (port : ℤ) (data : Bytes)
  | udpRecvfrom (sock : ℤ)
  | udpClose (sock : ℤ)
  | dnsResolve (hostname : String)
deriving DecidableEq

/-- Functions passed along are not part of an effect: what a forked function does is up to the
program. `other` is an effect that no handler of the library knows. -/
inductive Eff
  | fork (sw : ℕ)
  | forkPromise (sw : ℕ)
  | await (p : ℕ)
  | yield
  | net (e : NetEff)
  | other
deriving DecidableEq

/-- The external functions, as functions of a world `W`. A read returns, with its result, the
bytes that it stores at the start of the buffer. -/
structure Externals (W : Type*) where
  sleepMs : ℤ → W → W
  wifiConnectRaw : String → String → ℤ → W → ℤ × W
  wifiDisconnectRaw : W → W
  wifiGetIpRaw : W → ℤ × W
  tcpCreateRaw : W → ℤ × W
  tcpConnectRaw : ℤ → ℤ → ℤ → W → ℤ × W
  tcpWriteRaw : ℤ → Bytes → ℤ → W → ℤ × W
  tcpReadRaw : ℤ → ℤ → W → (ℤ × Bytes) × W
  tcpCloseRaw : ℤ → W → W
  udpCreateRaw : W → ℤ × W
  udpBindRaw : ℤ → ℤ → W → ℤ × W
  udpSendtoRaw : ℤ → ℤ → ℤ → Bytes → ℤ → W → ℤ × W
  udpRecvfromRaw : ℤ → ℤ → W → (ℤ × Bytes) × W
  udpCloseRaw : ℤ → W → W
  dnsResolveRaw : String → W → ℤ × W
  netPollRaw : W → W
  lwipServiceRaw : W → W
  ipFromStringRaw : String → W → ℤ × W

/-- Which handler caught an effect: `main_handler` of a switch, or that of `run_fiber` or
`run_promise_fiber`. -/
inductive Handler
  | main (sw : ℕ)
  | fiber (sw : ℕ)
  | promise (sw p : ℕ)
deriving DecidableEq

inductive Operation | connect | read
deriving DecidableEq

/-- `io_waiter`. The closures `wake` and `on_timeout` are given by what they capture: the
operation, the socket, the continuation `k` and the handler that made them. -/
structure IoWaiter where
  sockId : ℤ
  operation : Operation
  timeoutCount : ℕ
  maxTimeout : ℕ
  handler : Handler
  k : ℕ
deriving DecidableEq

variable {W : Type*} (X : Externals W)

/-- One octet of an OCaml integer of 31 bits. -/
def octet (ip : ℤ) (shift : ℕ) : ℕ := ((BitVec.ofInt 31 ip >>> shift) &&& 0xff#31).toNat

def ipToString (ip : ℤ) : String :=
  toString (octet ip 0) ++ "." ++ toString (octet ip 8) ++ "." ++ toString (octet ip 16) ++ "." ++
    toString (octet ip 24)

def serviceNetwork (w : W) : W := X.netPollRaw (X.lwipServiceRaw w)

def resolveHost (host : String) (w : W) : ℤ × W :=
  match host.toList with
  | c :: _ => if '0' ≤ c ∧ c ≤ '9' then X.ipFromStringRaw host w else X.dnsResolveRaw host w
  | [] => X.dnsResolveRaw host w

/-- The `recv_loop` of `handle_net_effect` with so many tries left before the last. -/
def recvLoop (sock : ℤ) : ℕ → W → Answer × W
  | triesLeft, w =>
    let w := serviceNetwork X w
    let ((n, buf), w) := X.udpRecvfromRaw sock 4096 w
    if n > 0 then (.value (.datagram (buf.take n.toNat) "0.0.0.0" 0), w)
    else match triesLeft with
      | tries + 1 => recvLoop sock tries (X.sleepMs 10 w)
      | 0 => (.exn (.networkError "UDP receive timeout"), w)

/-- The `recv_loop` of `main_handler`. -/
def mainRecvLoop (sock : ℤ) : ℕ → W → Answer × W
  | triesLeft, w =>
    let w := serviceNetwork X w
    let ((n, buf), w) := X.udpRecvfromRaw sock 4096 w
    if n > 0 then (.value (.datagram (buf.take n.toNat) "0.0.0.0" 0), w)
    else match triesLeft with
      | tries + 1 => mainRecvLoop sock tries (X.sleepMs 10 w)
      | 0 => (.exn (.networkError "UDP receive timeout"), w)

/-- What a handler has done with a network effect: the continuation is continued with `reply`,
or a waiter for it has been registered. -/
structure NetStep (W : Type*) where
  world : W
  ioWaiters : List IoWaiter
  reply : Option Answer

variable (h : Handler) (k : ℕ) (ws : List IoWaiter) (w : W)

def handleNetEffect : NetEff → NetStep W
  | .wifiConnect ssid password timeout =>
    let (result, w) := X.wifiConnectRaw ssid password timeout w
    if result = 0 then ⟨w, ws, some (.value .unit)⟩
    else ⟨w, ws, some (.exn (.networkError "WiFi connection failed"))⟩
  | .wifiGetIp =>
    let (ip, w) := X.wifiGetIpRaw w
    ⟨w, ws, some (.value (.string (ipToString ip)))⟩
  | .wifiDisconnect => ⟨X.wifiDisconnectRaw w, ws, some (.value .unit)⟩
  | .tcpConnect host port =>
    let (sockId, w) := X.tcpCreateRaw w
    if sockId < 0 then ⟨w, ws, some (.exn (.networkError "Failed to create TCP socket"))⟩
    else
      let (ip, w) := resolveHost X host w
      if ip = 0 then ⟨X.tcpCloseRaw sockId w, ws, some (.exn (.dnsFailed host))⟩
      else
        let (result, w) := X.tcpConnectRaw sockId ip port w
        if result < 0 then
          ⟨X.tcpCloseRaw sockId w, ws, some (.exn (.networkError "TCP connect failed"))⟩
        else ⟨w, ⟨sockId, .connect, 0, 1000, h, k⟩ :: ws, none⟩
  | .tcpWrite sock data =>
    let (result, w) := X.tcpWriteRaw sock data data.length w
    let w := serviceNetwork X w
    if result ≥ 0 then ⟨w, ws, some (.value (.int result))⟩
    else ⟨w, ws, some (.exn (.networkError "TCP write failed"))⟩
  | .tcpRead sock =>
    let w := serviceNetwork X w
    let ((n, buf), w) := X.tcpReadRaw sock 4096 w
    if n > 0 then ⟨w, ws, some (.value (.bytes (buf.take n.toNat)))⟩
    else if n = -2 then ⟨w, ws, some (.exn .socketClosed)⟩
    else ⟨w, ⟨sock, .read, 0, 1000, h, k⟩ :: ws, none⟩
  | .tcpClose sock =>
    ⟨X.tcpCloseRaw sock w, ws.filter (fun w => w.sockId ≠ sock), some (.value .unit)⟩
  | .udpCreate =>
    let (sockId, w) := X.udpCreateRaw w
    if sockId ≥ 0 then ⟨w, ws, some (.value (.udpSocket sockId))⟩
    else ⟨w, ws, some (.exn (.networkError "Failed to create UDP socket"))⟩
  | .udpBind sock port =>
    let (result, w) := X.udpBindRaw sock port w
    if result = 0 then ⟨w, ws, some (.value .unit)⟩
    else ⟨w, ws, some (.exn (.networkError "Bind failed"))⟩
  | .udpSendto sock host port data =>
    let (ip, w) := resolveHost X host w
    if ip = 0 then ⟨w, ws, some (.exn (.dnsFailed host))⟩
    else
      let (result, w) := X.udpSendtoRaw sock ip port data data.length w
      let w := serviceNetwork X w
      if result ≥ 0 then ⟨w, ws, some (.value (.int result))⟩
      else ⟨w, ws, some (.exn (.networkError "UDP send failed"))⟩
  | .udpRecvfrom sock =>
    let (answer, w) := recvLoop X sock 1000 w
    ⟨w, ws, some answer⟩
  | .udpClose sock => ⟨X.udpCloseRaw sock w, ws, some (.value .unit)⟩
  | .dnsResolve hostname =>
    let (ip, w) := X.dnsResolveRaw hostname w
    if ip = 0 then ⟨w, ws, some (.exn (.dnsFailed hostname))⟩
    else ⟨w, ws, some (.value (.string (ipToString ip)))⟩

/-- The same effects in `main_handler`, which has its own code for them. -/
def mainNetEffect : NetEff → NetStep W
  | .wifiConnect ssid password timeout =>
    let (r, w) := X.wifiConnectRaw ssid password timeout w
    if r = 0 then ⟨w, ws, some (.value .unit)⟩
    else ⟨w, ws, some (.exn (.networkError "WiFi connection failed"))⟩
  | .wifiGetIp =>
    let (ip, w) := X.wifiGetIpRaw w
    ⟨w, ws, some (.value (.string (ipToString ip)))⟩
  | .wifiDisconnect => ⟨X.wifiDisconnectRaw w, ws, some (.value .unit)⟩
  | .tcpConnect host port =>
    let (sockId, w) := X.tcpCreateRaw w
    if sockId < 0 then ⟨w, ws, some (.exn (.networkError "Failed to create TCP socket"))⟩
    else
      let (ip, w) := resolveHost X host w
      if ip = 0 then ⟨X.tcpCloseRaw sockId w, ws, some (.exn (.dnsFailed host))⟩
      else
        let (r, w) := X.tcpConnectRaw sockId ip port w
        if r < 0 then
          ⟨X.tcpCloseRaw sockId w, ws, some (.exn (.networkError "TCP connect failed"))⟩
        else ⟨w, ⟨sockId, .connect, 0, 1000, h, k⟩ :: ws, none⟩
  | .tcpWrite sock data =>
    let (r, w) := X.tcpWriteRaw sock data data.length w
    let w := serviceNetwork X w
    if r ≥ 0 then ⟨w, ws, some (.value (.int r))⟩
    else ⟨w, ws, some (.exn (.networkError "TCP write failed"))⟩
  | .tcpRead sock =>
    let w := serviceNetwork X w
    let ((n, buf), w) := X.tcpReadRaw sock 4096 w
    if n > 0 then ⟨w, ws, some (.value (.bytes (buf.take n.toNat)))⟩
    else if n = -2 then ⟨w, ws, some (.exn .socketClosed)⟩
    else ⟨w, ⟨sock, .read, 0, 1000, h, k⟩ :: ws, none⟩
  | .tcpClose sock =>
    ⟨X.tcpCloseRaw sock w, ws.filter (fun w => w.sockId ≠ sock), some (.value .unit)⟩
  | .udpCreate =>
    let (sockId, w) := X.udpCreateRaw w
    if sockId ≥ 0 then ⟨w, ws, some (.value (.udpSocket sockId))⟩
    else ⟨w, ws, some (.exn (.networkError "Failed to create UDP socket"))⟩
  | .udpBind sock port =>
    let (r, w) := X.udpBindRaw sock port w
    if r = 0 then ⟨w, ws, some (.value .unit)⟩
    else ⟨w, ws, some (.exn (.networkError "Bind failed"))⟩
  | .udpSendto sock host port data =>
    let (ip, w) := resolveHost X host w
    if ip = 0 then ⟨w, ws, some (.exn (.dnsFailed host))⟩
    else
      let (r, w) := X.udpSendtoRaw sock ip port data data.length w
      let w := serviceNetwork X w
      if r ≥ 0 then ⟨w, ws, some (.value (.int r))⟩
      else ⟨w, ws, some (.exn (.networkError "UDP send failed"))⟩
  | .udpRecvfrom sock =>
    let (answer, w) := mainRecvLoop X sock 1000 w
    ⟨w, ws, some answer⟩
  | .udpClose sock => ⟨X.udpCloseRaw sock w, ws, some (.value .unit)⟩
  | .dnsResolve hostname =>
    let (ip, w) := X.dnsResolveRaw hostname w
    if ip = 0 then ⟨w, ws, some (.exn (.dnsFailed hostname))⟩
    else ⟨w, ws, some (.value (.string (ipToString ip)))⟩

theorem mainRecvLoop_eq (sock : ℤ) (tries : ℕ) (w : W) :
    mainRecvLoop X sock tries w = recvLoop X sock tries w := by
  induction tries generalizing w with
  | zero => rw [mainRecvLoop, recvLoop]
  | succ tries ih =>
    rw [mainRecvLoop, recvLoop]
    simp only [ih]

theorem mainNetEffect_eq (e : NetEff) :
    mainNetEffect X h k ws w e = handleNetEffect X h k ws w e := by
  cases e with
  | udpRecvfrom sock => simp only [mainNetEffect, handleNetEffect, mainRecvLoop_eq]
  | _ => rfl

/-- The handlers change the list of waiters in three ways only. -/
theorem handleNetEffect_waiters (e : NetEff) :
    (∃ a, (handleNetEffect X h k ws w e).reply = some a ∧
      (handleNetEffect X h k ws w e).ioWaiters = ws) ∨
    (∃ sock, e = .tcpClose sock ∧ (handleNetEffect X h k ws w e).reply = some (.value .unit) ∧
      (handleNetEffect X h k ws w e).ioWaiters = ws.filter fun w => w.sockId ≠ sock) ∨
    (∃ sock op, (op = .read → e = .tcpRead sock) ∧
      (op = .connect → ∃ host port, e = .tcpConnect host port) ∧
      (handleNetEffect X h k ws w e).reply = none ∧
      (handleNetEffect X h k ws w e).ioWaiters = ⟨sock, op, 0, 1000, h, k⟩ :: ws) := by
  cases e with
  | tcpClose sock => exact Or.inr (Or.inl ⟨sock, rfl, rfl, rfl⟩)
  | tcpRead sock =>
    simp only [handleNetEffect]
    split
    · exact Or.inl ⟨_, rfl, rfl⟩
    · split
      · exact Or.inl ⟨_, rfl, rfl⟩
      · exact Or.inr (Or.inr ⟨sock, .read, fun _ => rfl, nofun, rfl, rfl⟩)
  | tcpConnect host port =>
    simp only [handleNetEffect]
    split
    · exact Or.inl ⟨_, rfl, rfl⟩
    · split
      · exact Or.inl ⟨_, rfl, rfl⟩
      · split
        · exact Or.inl ⟨_, rfl, rfl⟩
        · exact Or.inr (Or.inr ⟨_, .connect, nofun, fun _ => ⟨host, port, rfl⟩, rfl, rfl⟩)
  | _ =>
    left
    simp only [handleNetEffect]
    repeat' split
    all_goals exact ⟨_, rfl, by trivial⟩

end PicoOcaml.Pio
