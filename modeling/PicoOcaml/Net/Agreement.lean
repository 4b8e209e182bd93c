import PicoOcaml.Net.Oracle
import PicoOcaml.Pio.Stages

/-! `Net.run` and `Pio.run` give a program the same answers. -/
namespace PicoOcaml.Net

open Pio

variable {W : Type*} {X : Externals W} {same : W → W → Prop} {connecting : ℤ → W → W → Prop}
  {w w' v v' : W} {sock : ℤ} {x : IoWaiter} {a : Answer} {prog : Prog} {tries : ℕ}

/-! ### Time passes -/

theorem SameOracle.idleR (ho : SameOracle X same connecting) (h : same w w') (hi : Idle X w' v') :
    same w v' :=
  ho.symm (ho.idle (ho.symm h) hi)

theorem SameOracle.service (ho : SameOracle X same connecting) (h : same w w') :
    same (serviceNetwork X w) w' :=
  ho.idle (ho.idle h (.lwipService w)) (.netPoll _)

theorem SameOracle.serviceR (ho : SameOracle X same connecting) (h : same w w') :
    same w (serviceNetwork X w') :=
  ho.symm (ho.service (ho.symm h))

theorem SameOracle.serviceConnecting (ho : SameOracle X same connecting) (h : connecting sock w w') :
    connecting sock (serviceNetwork X w) w' :=
  ho.idleConnecting (ho.idleConnecting h (.lwipService w)) (.netPoll _)

/-- Two worlds of the same network give the same raw answer, and stay the same. -/
theorem SameOracle.resolveHost (ho : SameOracle X same connecting) (h : same w w') (host : String) :
    (resolveHost X host w).1 = (resolveHost X host w').1 ∧
      same (resolveHost X host w).2 (resolveHost X host w').2 := by
  unfold Pio.resolveHost
  split
  · split
    · exact ho.call h (.ipFromString host)
    · exact ho.call h (.dnsResolve host)
  · exact ho.call h (.dnsResolve host)

/-! ### Waiting in a loop -/

theorem waitConnect_zero : waitConnect X sock 0 w =
    let u := X.sleepMs 10 (serviceNetwork X w)
    if (X.tcpWriteRaw sock [] 0 u).1 ≥ 0 then
      (.value (.tcpSocket sock), (X.tcpWriteRaw sock [] 0 u).2)
    else (.exn .connectionTimeout, X.tcpCloseRaw sock (X.tcpWriteRaw sock [] 0 u).2) := rfl

theorem waitConnect_succ : waitConnect X sock (tries + 1) w =
    let u := X.sleepMs 10 (serviceNetwork X w)
    if (X.tcpWriteRaw sock [] 0 u).1 ≥ 0 then
      (.value (.tcpSocket sock), (X.tcpWriteRaw sock [] 0 u).2)
    else waitConnect X sock tries (X.tcpWriteRaw sock [] 0 u).2 := rfl

/-- A connection that completes in the loop of `Net.run`. -/
theorem waitConnect_completes (ho : SameOracle X same connecting) (h : connecting sock w w')
    (hc : (waitConnect X sock tries w).1 = .value (.tcpSocket sock)) :
    ∃ u, connecting sock u w' ∧ (X.tcpWriteRaw sock [] 0 u).1 ≥ 0 ∧
      waitConnect X sock tries w = (.value (.tcpSocket sock), (X.tcpWriteRaw sock [] 0 u).2) := by
  induction tries generalizing w with
  | zero =>
    have hu := ho.idleConnecting (ho.serviceConnecting h) (.sleepMs 10 _)
    rw [waitConnect_zero] at hc ⊢
    by_cases hr : (X.tcpWriteRaw sock [] 0 (X.sleepMs 10 (serviceNetwork X w))).1 ≥ 0
    · exact ⟨_, hu, hr, if_pos hr⟩
    · simp [hr] at hc
  | succ tries ih =>
    have hu := ho.idleConnecting (ho.serviceConnecting h) (.sleepMs 10 _)
    rw [waitConnect_succ] at hc ⊢
    by_cases hr : (X.tcpWriteRaw sock [] 0 (X.sleepMs 10 (serviceNetwork X w))).1 ≥ 0
    · exact ⟨_, hu, hr, if_pos hr⟩
    · simp only [if_neg hr] at hc ⊢
      exact ih (ho.idleConnecting hu (.probeWrite sock _)) hc

/-- The answer of a read that has found something. -/
def readAnswer (X : Externals W) (sock : ℤ) (w : W) : Answer × W :=
  (readResult (X.tcpReadRaw sock 4096 w).1.1 (X.tcpReadRaw sock 4096 w).1.2,
    (X.tcpReadRaw sock 4096 w).2)

theorem readAnswer_arrived (h : Arrived (X.tcpReadRaw sock 4096 w).1.1) : readAnswer X sock w =
    if (X.tcpReadRaw sock 4096 w).1.1 > 0 then
      (.value (.bytes ((X.tcpReadRaw sock 4096 w).1.2.take (X.tcpReadRaw sock 4096 w).1.1.toNat)),
        (X.tcpReadRaw sock 4096 w).2)
    else (.exn .socketClosed, (X.tcpReadRaw sock 4096 w).2) := by
  rw [readAnswer, readResult]
  rcases h with h | h
  · simp [h]
  · simp [h]

theorem readAnswer_ne_timeout : (readAnswer X sock w).1 ≠ readTimeout := by
  simp only [readAnswer, readResult, readTimeout]
  repeat' split
  all_goals simp

theorem tcpRecvLoop_of_arrived (h : Arrived (X.tcpReadRaw sock 4096 (serviceNetwork X w)).1.1) :
    tcpRecvLoop X sock tries w = readAnswer X sock (serviceNetwork X w) := by
  rw [readAnswer_arrived h]
  rcases h with h | h <;> cases tries <;> simp [tcpRecvLoop, h]

theorem tcpRecvLoop_of_not_arrived
    (h : ¬ Arrived (X.tcpReadRaw sock 4096 (serviceNetwork X w)).1.1) :
    tcpRecvLoop X sock tries w = match tries with
      | tries + 1 =>
        tcpRecvLoop X sock tries (X.sleepMs 10 (X.tcpReadRaw sock 4096 (serviceNetwork X w)).2)
      | 0 => (readTimeout, (X.tcpReadRaw sock 4096 (serviceNetwork X w)).2) := by
  obtain ⟨hpos, hclosed⟩ := not_or.mp h
  cases tries <;> rw [tcpRecvLoop] <;> simp [hpos, hclosed, readTimeout]

/-- A read that ends in the loop of `Net.run`. -/
theorem tcpRecvLoop_arrives (ho : SameOracle X same connecting) (h : same w w')
    (hc : (tcpRecvLoop X sock tries w).1 ≠ readTimeout) :
    ∃ u, same u w' ∧ Arrived (X.tcpReadRaw sock 4096 u).1.1 ∧
      tcpRecvLoop X sock tries w = readAnswer X sock u := by
  induction tries generalizing w with
  | zero =>
    by_cases hr : Arrived (X.tcpReadRaw sock 4096 (serviceNetwork X w)).1.1
    · exact ⟨_, ho.service h, hr, tcpRecvLoop_of_arrived hr⟩
    · rw [tcpRecvLoop_of_not_arrived hr] at hc
      exact absurd rfl hc
  | succ tries ih =>
    by_cases hr : Arrived (X.tcpReadRaw sock 4096 (serviceNetwork X w)).1.1
    · exact ⟨_, ho.service h, hr, tcpRecvLoop_of_arrived hr⟩
    · rw [tcpRecvLoop_of_not_arrived hr] at hc ⊢
      exact ih (ho.idle (ho.idle (ho.service h) (.noData sock _ hr)) (.sleepMs 10 _)) hc

/-- A receive loop ends with the datagram of some world, or with none. -/
theorem recvLoop_ends (ho : SameOracle X same connecting) (h : same w w') (sock : ℤ) (tries : ℕ) :
    (recvLoop X sock tries w).1 = .exn (.networkError "UDP receive timeout") ∧
        same (recvLoop X sock tries w).2 w' ∨
      ∃ u, same u w' ∧ (X.udpRecvfromRaw sock 4096 u).1.1 > 0 ∧ recvLoop X sock tries w =
        (.value (.datagram ((X.udpRecvfromRaw sock 4096 u).1.2.take
          (X.udpRecvfromRaw sock 4096 u).1.1.toNat) "0.0.0.0" 0),
          (X.udpRecvfromRaw sock 4096 u).2) := by
  induction tries generalizing w with
  | zero =>
    rw [recvLoop]
    by_cases hr : (X.udpRecvfromRaw sock 4096 (serviceNetwork X w)).1.1 > 0
    · exact Or.inr ⟨_, ho.service h, hr, if_pos hr⟩
    · left
      simp only [if_neg hr]
      exact ⟨trivial, ho.idle (ho.service h) (.noDatagram sock _ hr)⟩
  | succ tries ih =>
    rw [recvLoop]
    by_cases hr : (X.udpRecvfromRaw sock 4096 (serviceNetwork X w)).1.1 > 0
    · exact Or.inr ⟨_, ho.service h, hr, if_pos hr⟩
    · simp only [if_neg hr]
      exact ih (ho.idle (ho.idle (ho.service h) (.noDatagram sock _ hr)) (.sleepMs 10 _))

theorem recvLoop_same (ho : SameOracle X same connecting) (h : same w w')
    (ht : (recvLoop X sock tries w).1 = .exn (.networkError "UDP receive timeout") ↔
      (recvLoop X sock tries w').1 = .exn (.networkError "UDP receive timeout")) :
    (recvLoop X sock tries w).1 = (recvLoop X sock tries w').1 ∧
      same (recvLoop X sock tries w).2 (recvLoop X sock tries w').2 := by
  rcases recvLoop_ends ho h sock tries with ⟨hnone, hs⟩ | ⟨u, hu, hpos, heq⟩
  · rcases recvLoop_ends ho (ho.symm hs) sock tries with ⟨hnone', hs'⟩ | ⟨u', -, -, heq'⟩
    · exact ⟨hnone.trans hnone'.symm, ho.symm hs'⟩
    · rw [heq'] at ht
      cases ht.mp hnone
  · rcases recvLoop_ends ho (ho.symm hu) sock tries with ⟨hnone', -⟩ | ⟨u', hu', hpos', heq'⟩
    · rw [heq] at ht
      cases ht.mpr hnone'
    · obtain ⟨h1, h2⟩ := ho.recv (ho.symm hu') sock hpos hpos'
      rw [heq, heq', h1]
      exact ⟨rfl, h2⟩

/-! ### Waiting in the scheduler -/

/-- The waiter `x`, found ready at any later time, gets the answer `a`, and the world is then the
same as `v`. -/
def Resolves (X : Externals W) (same : W → W → Prop) (connecting : ℤ → W → W → Prop)
    (x : IoWaiter) (r : Answer × W) (w : W) : Prop :=
  match x.operation with
  | .connect => ∃ u, connecting x.sockId u w ∧ (X.tcpWriteRaw x.sockId [] 0 u).1 ≥ 0 ∧
      r = (.value (.tcpSocket x.sockId), (X.tcpWriteRaw x.sockId [] 0 u).2)
  | .read => ∃ u, same u w ∧ Arrived (X.tcpReadRaw x.sockId 4096 u).1.1 ∧
      r = readAnswer X x.sockId u

variable {r : Answer × W}

theorem Resolves.idle (ho : SameOracle X same connecting) (h : Resolves X same connecting x r w)
    (hi : Idle X w v) : Resolves X same connecting x r v := by
  unfold Resolves at h ⊢
  split at h
  · obtain ⟨u, hu, hr⟩ := h
    exact ⟨u, ho.symmConnecting (ho.idleConnecting (ho.symmConnecting hu) hi), hr⟩
  · obtain ⟨u, hu, hr⟩ := h
    exact ⟨u, ho.idleR hu hi, hr⟩

theorem Resolves.service (ho : SameOracle X same connecting)
    (h : Resolves X same connecting x r w) :
    Resolves X same connecting x r (serviceNetwork X w) :=
  (h.idle ho (.lwipService w)).idle ho (.netPoll _)

theorem idle_isReady (x : IoWaiter) (w : W) : Idle X w (isReady X x w).2 := by
  cases hop : x.operation with
  | connect =>
    simp only [isReady, hop]
    exact .probeWrite x.sockId w
  | read =>
    simp only [isReady, hop]
    exact .probeRead x.sockId w

theorem Resolves.ready (ho : SameOracle X same connecting) (h : Resolves X same connecting x r w)
    (hr : (isReady X x w).1 = true) :
    (wakeAnswer X x.operation x.sockId (isReady X x w).2).1 = r.1 ∧
      same r.2 (wakeAnswer X x.operation x.sockId (isReady X x w).2).2 := by
  cases hop : x.operation with
  | connect =>
    simp only [Resolves, hop] at h
    obtain ⟨u, hu, hpos, rfl⟩ := h
    simp only [isReady, hop, decide_eq_true_eq] at hr ⊢
    exact ⟨rfl, ho.connected hu hpos hr⟩
  | read =>
    simp only [Resolves, hop] at h
    obtain ⟨u, hu, harr, rfl⟩ := h
    simp only [isReady, hop, decide_eq_true_eq] at hr ⊢
    obtain ⟨heq, hsame⟩ := ho.read (ho.idleR hu (.probeRead x.sockId w)) x.sockId harr
      (ho.probe x.sockId w hr)
    simp only [wakeAnswer, readAnswer, heq]
    exact ⟨trivial, hsame⟩

theorem awaitReady_eq (x : IoWaiter) (tries : ℕ) (w : W) : awaitReady X x tries w =
    if (isReady X x (serviceNetwork X w)).1 then
      wakeAnswer X x.operation x.sockId (isReady X x (serviceNetwork X w)).2
    else match tries with
      | tries + 1 => awaitReady X x tries
          (X.sleepMs 1 (serviceNetwork X (isReady X x (serviceNetwork X w)).2))
      | 0 => timeoutAnswer X x.operation x.sockId (isReady X x (serviceNetwork X w)).2 := by
  cases tries <;> rfl

theorem readyWithin_eq (x : IoWaiter) (tries : ℕ) (w : W) : readyWithin X x tries w =
    ((isReady X x (serviceNetwork X w)).1 || match tries with
      | tries + 1 => readyWithin X x tries
          (X.sleepMs 1 (serviceNetwork X (isReady X x (serviceNetwork X w)).2))
      | 0 => false) := by
  cases tries <;> rfl

/-- A wait that ends in time gives the answer that `Net.run` gives. -/
theorem Resolves.awaitReady (ho : SameOracle X same connecting)
    (h : Resolves X same connecting x r w) (hr : readyWithin X x tries w = true) :
    (Pio.awaitReady X x tries w).1 = r.1 ∧ same r.2 (Pio.awaitReady X x tries w).2 := by
  induction tries generalizing w with
  | zero =>
    rw [readyWithin_eq, Bool.or_false] at hr
    rw [awaitReady_eq, if_pos hr]
    exact (h.service ho).ready ho hr
  | succ tries ih =>
    rw [readyWithin_eq] at hr
    rw [awaitReady_eq]
    by_cases hfirst : (isReady X x (serviceNetwork X w)).1 = true
    · rw [if_pos hfirst]
      exact (h.service ho).ready ho hfirst
    · rw [Bool.eq_false_of_not_eq_true hfirst, Bool.false_or] at hr
      rw [if_neg hfirst]
      exact ih ((((h.service ho).idle ho (idle_isReady x _)).service ho).idle ho (.sleepMs 1 _)) hr

/-- One that does not ends with a timeout. -/
theorem awaitReady_late (hr : ¬ readyWithin X x tries w = true) (hop : x.operation = .read) :
    (Pio.awaitReady X x tries w).1 = readTimeout := by
  induction tries generalizing w with
  | zero =>
    rw [readyWithin_eq, Bool.or_false] at hr
    rw [awaitReady_eq, if_neg hr, hop]
    rfl
  | succ tries ih =>
    rw [readyWithin_eq, Bool.or_eq_true, not_or] at hr
    rw [awaitReady_eq, if_neg hr.1]
    exact ih hr.2

/-! ### Effects -/

/-- `main_handler` answers the effect at once. -/
def Replies (X : Externals W) (e : NetEff) (w : W) (a : Answer) (v : W) : Prop :=
  ∀ h k, mainNetEffect X h k [] w e = ⟨v, [], some a⟩

/-- `main_handler` puts a waiter on the list. -/
def Suspends (X : Externals W) (e : NetEff) (w : W) (op : Operation) (sock : ℤ) (v : W) : Prop :=
  ∀ h k, mainNetEffect X h k [] w e = ⟨v, [⟨sock, op, 0, 1000, h, k⟩], none⟩

theorem tcpRead_replied (harr : Arrived (X.tcpReadRaw sock 4096 (serviceNetwork X w)).1.1) :
    Replies X (.tcpRead sock) w (readAnswer X sock (serviceNetwork X w)).1
      (readAnswer X sock (serviceNetwork X w)).2 := by
  intro h k
  rw [readAnswer_arrived harr]
  rcases harr with hr | hr <;> simp [mainNetEffect, hr]

theorem tcpRead_suspends (harr : ¬ Arrived (X.tcpReadRaw sock 4096 (serviceNetwork X w)).1.1) :
    Suspends X (.tcpRead sock) w .read sock (X.tcpReadRaw sock 4096 (serviceNetwork X w)).2 := by
  intro h k
  obtain ⟨hpos, hclosed⟩ := not_or.mp harr
  simp [mainNetEffect, hpos, hclosed]

/-- `main_handler` answers an effect as `Net.run` has, or it registers a waiter for what `Net.run`
has waited for. -/
def Corresponds (X : Externals W) (same : W → W → Prop) (connecting : ℤ → W → W → Prop) (e : NetEff)
    (r : Answer × W) (w' : W) : Prop :=
  (∃ v, Replies X e w' r.1 v ∧ same r.2 v) ∨
  ∃ op sock v, Suspends X e w' op sock v ∧ Resolves X same connecting (waiter op sock) r v ∧
    (op = .connect → readyWithin X (waiter op sock) 1000 v = true)

/-- A connection is refused by both, or accepted by both, which then wait for it. -/
theorem corresponds_tcpConnect (ho : SameOracle X same connecting) (h : same w w') {host : String}
    {port : ℤ} (ht : InTime X w w' (.tcpConnect host port)) :
    Corresponds X same connecting (.tcpConnect host port) (effc X w (.tcpConnect host port)) w' := by
  obtain ⟨hid, hcreated⟩ := ho.call h .tcpCreate
  simp only [RawCall.run] at hid hcreated
  obtain ⟨hip, hresolved⟩ := ho.resolveHost hcreated host
  obtain ⟨hres, hrefused, haccepted⟩ :=
    ho.connect hresolved (X.tcpCreateRaw w).1 (Pio.resolveHost X host (X.tcpCreateRaw w).2).1 port
  simp only [Corresponds, Replies, Suspends, mainNetEffect, effc, ← hid, ← hip, ← hres]
  split
  · exact Or.inl ⟨_, fun _ _ => rfl, hcreated⟩
  · split
    · exact Or.inl ⟨_, fun _ _ => rfl, (ho.call hresolved (.tcpClose _)).2⟩
    · split
      · rename_i hneg
        exact Or.inl ⟨_, fun _ _ => rfl, (ho.call (hrefused hneg) (.tcpClose _)).2⟩
      · rename_i hsock hip0 hneg
        right
        have hacc : accepted X host port w = some ((X.tcpCreateRaw w).1, (X.tcpConnectRaw
            (X.tcpCreateRaw w).1 (Pio.resolveHost X host (X.tcpCreateRaw w).2).1 port
            (Pio.resolveHost X host (X.tcpCreateRaw w).2).2).2) := by
          simp only [accepted, if_neg hsock, if_neg hip0, if_neg hneg]
        have hacc' : accepted X host port w' = some ((X.tcpCreateRaw w).1, (X.tcpConnectRaw
            (X.tcpCreateRaw w).1 (Pio.resolveHost X host (X.tcpCreateRaw w).2).1 port
            (Pio.resolveHost X host (X.tcpCreateRaw w').2).2).2) := by
          simp only [accepted, ← hid, ← hip, ← hres, if_neg hsock, if_neg hip0, if_neg hneg]
        obtain ⟨hnet, hpio⟩ := ht _ _ _ hacc hacc'
        obtain ⟨u, hu, hpos, heq⟩ := waitConnect_completes ho (haccepted hneg) hnet
        exact ⟨.connect, _, _, fun _ _ => rfl, ⟨u, hu, hpos, heq⟩, fun _ => hpio⟩

/-- A read finds the same in both, or `Net.run` has found it on a later poll. -/
theorem corresponds_tcpRead (ho : SameOracle X same connecting) (h : same w w')
    (ht : InTime X w w' (.tcpRead sock)) :
    Corresponds X same connecting (.tcpRead sock) (effc X w (.tcpRead sock)) w' := by
  obtain ⟨u, hu, harr, heq⟩ := tcpRecvLoop_arrives ho h ht.1
  have hw' := ho.serviceR hu
  by_cases hr : Arrived (X.tcpReadRaw sock 4096 (serviceNetwork X w')).1.1
  · left
    obtain ⟨h1, h2⟩ := ho.read hw' sock harr hr
    have hans : (effc X w (.tcpRead sock)).1 = (readAnswer X sock (serviceNetwork X w')).1 := by
      rw [effc, heq, readAnswer, readAnswer, h1]
    rw [hans]
    refine ⟨_, tcpRead_replied hr, ?_⟩
    rw [effc, heq]
    exact h2
  · right
    exact ⟨.read, sock, _, tcpRead_suspends hr, ⟨u, ho.idleR hw' (.noData sock _ hr), harr, heq⟩,
      by simp⟩

/-- Both handlers make the same of an effect, or one has waited for what the other waits for. -/
theorem effect_corresponds (ho : SameOracle X same connecting) (h : same w w') (e : NetEff)
    (ht : InTime X w w' e) : Corresponds X same connecting e (effc X w e) w' := by
  cases e with
  | wifiConnect ssid password timeout =>
    obtain ⟨h1, h2⟩ := ho.call h (.wifiConnect ssid password timeout)
    simp only [RawCall.run] at h1 h2
    left
    simp only [Replies, mainNetEffect, effc, h1]
    split <;> exact ⟨_, fun _ _ => rfl, h2⟩
  | wifiGetIp =>
    obtain ⟨h1, h2⟩ := ho.call h .wifiGetIp
    simp only [RawCall.run] at h1 h2
    left
    simp only [Replies, mainNetEffect, effc, h1]
    exact ⟨_, fun _ _ => rfl, h2⟩
  | wifiDisconnect => exact Or.inl ⟨_, fun _ _ => rfl, (ho.call h .wifiDisconnect).2⟩
  | tcpConnect host port => exact corresponds_tcpConnect ho h ht
  | tcpWrite sock data =>
    obtain ⟨h1, h2⟩ := ho.call h (.tcpWrite sock data)
    simp only [RawCall.run] at h1 h2
    left
    simp only [Replies, mainNetEffect, effc, h1]
    split <;> exact ⟨_, fun _ _ => rfl, ho.serviceR (ho.service h2)⟩
  | tcpRead sock => exact corresponds_tcpRead ho h ht
  | tcpClose sock => exact Or.inl ⟨_, fun _ _ => rfl, (ho.call h (.tcpClose sock)).2⟩
  | udpCreate =>
    obtain ⟨h1, h2⟩ := ho.call h .udpCreate
    simp only [RawCall.run] at h1 h2
    left
    simp only [Replies, mainNetEffect, effc, h1]
    split <;> exact ⟨_, fun _ _ => rfl, h2⟩
  | udpBind sock port =>
    obtain ⟨h1, h2⟩ := ho.call h (.udpBind sock port)
    simp only [RawCall.run] at h1 h2
    left
    simp only [Replies, mainNetEffect, effc, h1]
    split <;> exact ⟨_, fun _ _ => rfl, h2⟩
  | udpSendto sock host port data =>
    obtain ⟨hip, hresolved⟩ := ho.resolveHost h host
    obtain ⟨h1, h2⟩ := ho.call hresolved
      (.udpSendto sock (Pio.resolveHost X host w).1 port data)
    simp only [RawCall.run] at h1 h2
    left
    simp only [Replies, mainNetEffect, effc, ← hip, h1]
    split
    · exact ⟨_, fun _ _ => rfl, hresolved⟩
    · split <;> exact ⟨_, fun _ _ => rfl, ho.serviceR (ho.service h2)⟩
  | udpRecvfrom sock =>
    left
    simp only [InTime, udpRecvLoop_eq] at ht
    simp only [Replies, mainNetEffect, effc, udpRecvLoop_eq, mainRecvLoop_eq]
    obtain ⟨h1, h2⟩ := recvLoop_same ho h ht
    rw [h1]
    exact ⟨_, fun _ _ => rfl, h2⟩
  | udpClose sock => exact Or.inl ⟨_, fun _ _ => rfl, (ho.call h (.udpClose sock)).2⟩
  | dnsResolve hostname =>
    obtain ⟨h1, h2⟩ := ho.call h (.dnsResolve hostname)
    simp only [RawCall.run] at h1 h2
    left
    simp only [Replies, mainNetEffect, effc, h1]
    split <;> exact ⟨_, fun _ _ => rfl, h2⟩

/-! ### Runs -/

/-- The program is given the same answers by both, and where one ends with an outcome and returns it,
so does the other. -/
def Agree (X : Externals W) (prog : Prog) (w : W) : Prop :=
  (∀ as, (∃ n, (run X prog w n).answers = as) ↔ ∃ m, (Pio.run X prog w m).answers = as) ∧
  ∀ a, (∃ n, (prog (run X prog w n).answers).outcome = some a) ↔
    ∃ m, (Pio.run X prog w m).Returns a

/-- The waiter that the next step of `Pio.run` puts on the list, and the world after it. -/
def registers (X : Externals W) (prog : Prog) (c : Config W) : Option (IoWaiter × W) :=
  match c.state.mode, c.state.stack, prog c.answers with
  | .run, .body (.main _) :: _, .perform e =>
    let r := mainNetEffect X (.main 0) c.state.book.konts.length c.state.book.ioWaiters c.state.world e
    match r.reply, r.ioWaiters with
    | none, x :: _ => some (x, r.world)
    | _, _ => none
  | _, _, _ => none

/-- A waiter is ready at the next pass, unless it is the first one; a read that waits is found
ready by one of the passes. -/
def WokenInTime (X : Externals W) (prog : Prog) (c : Config W) : Prop :=
  ∀ x w, registers X prog c = some (x, w) →
    (c.state.book.konts ≠ [] → (isReady X x (serviceNetwork X w)).1 = true) ∧
    (x.operation = .read → readyWithin X x 1000 w = true)

/-- The effects of a run come within the limits of both. -/
def RunInTime (X : Externals W) (same : W → W → Prop) (prog : Prog) (w : W) : Prop :=
  ∀ n e, prog (run X prog w n).answers = .perform e →
    ∀ w', same (run X prog w n).world w' → InTime X (run X prog w n).world w' e

theorem readyWithin_congr {y : IoWaiter} (hop : x.operation = y.operation)
    (hs : x.sockId = y.sockId) (tries : ℕ) (w : W) :
    readyWithin X x tries w = readyWithin X y tries w := by
  induction tries generalizing w with
  | zero => rw [readyWithin_eq, readyWithin_eq, isReady_eq hop hs]
  | succ tries ih =>
    rw [readyWithin_eq, readyWithin_eq, isReady_eq hop hs]
    simp only [ih]

/-- The next effect of `Pio.run` at `p` is answered as by `Net.run` from `w`. -/
def AnswersAlike (X : Externals W) (same : W → W → Prop) (p : Pio.Point W) (e : NetEff) (w : W) : Prop :=
  ∃ v waited, Pio.effect X p.waited e p.world = some ((effc X w e).1, v, waited) ∧
    same (effc X w e).2 v

/-- Where the program is on top, the waiter it registers is that of its effect. -/
theorem registers_eq {c : Config W} {p : Pio.Point W} {e : NetEff} {op : Operation}
    (h : OnTop p c.state) (hp : prog c.answers = .perform e)
    (hs : Suspends X e p.world op sock v) :
    registers X prog c =
      some (⟨sock, op, 0, 1000, .main 0, c.state.book.konts.length⟩, v) := by
  simp only [registers, h.mode, h.stack, hp, h.alone.waiters, h.alone.world, hs _ _]

theorem registers_replied {c : Config W} {p : Pio.Point W} {e : NetEff}
    (h : OnTop p c.state) (hp : prog c.answers = .perform e) (hr : Replies X e p.world a v) :
    registers X prog c = none := by
  simp only [registers, h.mode, h.stack, hp, h.alone.waiters, h.alone.world, hr _ _]

theorem wokenInTime_iff {c : Config W} {p : Pio.Point W} {e : NetEff} {op : Operation}
    (h : OnTop p c.state) (hp : prog c.answers = .perform e)
    (hs : Suspends X e p.world op sock v) : WokenInTime X prog c ↔
      (p.waited = true → (isReady X (waiter op sock) (serviceNetwork X v)).1 = true) ∧
      (op = .read → readyWithin X (waiter op sock) 1000 v = true) := by
  have hreg := registers_eq h hp hs
  have hready := isReady_eq (X := X) (x := ⟨sock, op, 0, 1000, .main 0, c.state.book.konts.length⟩)
    (y := waiter op sock) rfl rfl (serviceNetwork X v)
  have hwithin := readyWithin_congr (X := X)
    (x := ⟨sock, op, 0, 1000, .main 0, c.state.book.konts.length⟩) (y := waiter op sock) rfl rfl 1000 v
  constructor
  · intro hc
    have hx := hc _ _ hreg
    rw [hready, hwithin, ← h.waited.konts] at hx
    exact hx
  · intro hc x w hx
    rw [hreg] at hx
    cases hx
    rw [hready, hwithin, ← h.waited.konts]
    exact hc

/-- A wait that ends is followed by another pass. -/
theorem Suspends.effect {e : NetEff} {op : Operation} {waited : Bool} (h : Suspends X e w op sock v)
    (hw : wait X waited (waiter op sock) v = some r) :
    Pio.effect X waited e w = some (r.1, serviceNetwork X r.2, true) := by
  rw [effect_waits h (x := waiter op sock) rfl rfl, hw]
  rfl

theorem Suspends.left {e : NetEff} {op : Operation} {waited : Bool} (h : Suspends X e w op sock v)
    (hw : wait X waited (waiter op sock) v = none) : Pio.effect X waited e w = none := by
  rw [effect_waits h (x := waiter op sock) rfl rfl, hw]
  rfl

theorem Resolves.ne_timeout (h : Resolves X same connecting (waiter .read sock) r w) :
    r.1 ≠ readTimeout := by
  obtain ⟨u, -, -, rfl⟩ := h
  exact readAnswer_ne_timeout

/-- An effect is answered alike, and leaves the same network, if its waiter is woken in time, and
is not answered alike if it is not. -/
theorem answers_or_late (ho : SameOracle X same connecting) {c : Config W} {p : Pio.Point W}
    {e : NetEff} (h : OnTop p c.state) (hp : prog c.answers = .perform e) (hs : same w p.world)
    (ht : InTime X w p.world e) :
    WokenInTime X prog c ∧ AnswersAlike X same p e w ∨
    ¬ WokenInTime X prog c ∧ ∀ v waited,
      Pio.effect X p.waited e p.world ≠ some ((effc X w e).1, v, waited) := by
  rcases effect_corresponds ho hs e ht with ⟨v, hr, hsame⟩ | ⟨op, sock, v, hsus, hres, hcon⟩
  · refine Or.inl ⟨?_, v, p.waited, effect_replied hr, hsame⟩
    intro x w hx
    rw [registers_replied h hp hr] at hx
    cases hx
  · rw [wokenInTime_iff h hp hsus, AnswersAlike]
    cases p.waited with
    | true =>
      by_cases hready : (isReady X (waiter op sock) (serviceNetwork X v)).1 = true
      · obtain ⟨hans, hsame⟩ := (hres.service ho).ready ho hready
        have hwait : wait X true (waiter op sock) v = some (wakeAnswer X (waiter op sock).operation
            (waiter op sock).sockId (isReady X (waiter op sock) (serviceNetwork X v)).2) := by
          simp only [wait, if_true, hready]
        refine Or.inl ⟨⟨fun _ => hready, fun _ => ?_⟩, _, true, ?_, ho.serviceR hsame⟩
        · rw [readyWithin_eq, hready, Bool.true_or]
        · rw [hsus.effect hwait, ← hans]
      · refine Or.inr ⟨fun hc => hready (hc.1 rfl), ?_⟩
        intro u waited hsome
        rw [hsus.left (by simp [wait, hready])] at hsome
        cases hsome
    | false =>
      by_cases hready : readyWithin X (waiter op sock) 1000 v = true
      · obtain ⟨hans, hsame⟩ := hres.awaitReady ho hready
        refine Or.inl ⟨⟨by simp, fun _ => hready⟩, _, true, ?_, ho.serviceR hsame⟩
        rw [hsus.effect rfl, hans]
      · have hop : op = .read := by
          cases op with
          | connect => exact absurd (hcon rfl) hready
          | read => rfl
        subst hop
        refine Or.inr ⟨fun hc => hready (hc.2 rfl), ?_⟩
        intro u waited hsome
        rw [hsus.effect rfl, awaitReady_late hready rfl] at hsome
        simp only [Option.some.injEq, Prod.mk.injEq] at hsome
        exact hres.ne_timeout hsome.1.symm

/-! ### The answers of a run -/

theorem run_succ (prog : Prog) (w : W) (n : ℕ) :
    run X prog w (n + 1) = (run X prog w n).next X prog := by
  rw [run, Function.iterate_succ_apply', ← run]

theorem point_succ (prog : Prog) (w : W) (n : ℕ) :
    Pio.point X prog w (n + 1) = (Pio.point X prog w n).next X prog := by
  rw [Pio.point, Function.iterate_succ_apply', ← Pio.point]

theorem Point.next_of_perform {q : Point W} {e : NetEff} (h : prog q.answers = .perform e) :
    q.next X prog = ⟨q.answers ++ [(effc X q.world e).1], (effc X q.world e).2⟩ := by
  rw [Point.next, h]

theorem point_mono (prog : Prog) (w : W) {k l : ℕ} (h : k ≤ l) :
    (Pio.point X prog w k).answers <+: (Pio.point X prog w l).answers := by
  induction l, h using Nat.le_induction with
  | base => exact List.prefix_rfl
  | succ l _ ih =>
    refine ih.trans ?_
    rw [point_succ, Pio.Point.next]
    split
    · exact List.prefix_append _ _
    · exact List.prefix_rfl

theorem point_stays {n : ℕ} (h : (Pio.point X prog w n).effect X prog = none) {k : ℕ} (hk : n ≤ k) :
    Pio.point X prog w k = Pio.point X prog w n := by
  induction k, hk using Nat.le_induction with
  | base => rfl
  | succ k _ ih => rw [point_succ, ih, Pio.Point.next_of_none h]

/-- After `n` effects both programs have been given the same, by networks that are the same. -/
structure Matched (X : Externals W) (same : W → W → Prop) (prog : Prog) (w : W) (n : ℕ) : Prop where
  answers : (Pio.point X prog w n).answers = (run X prog w n).answers
  world : same (run X prog w n).world (Pio.point X prog w n).world

theorem effect_at {p : Pio.Point W} {e : NetEff} (hp : prog p.answers = .perform e) :
    p.effect X prog = Pio.effect X p.waited e p.world := by
  rw [Pio.Point.effect, hp]

theorem Matched.succ {n : ℕ} (h : Matched X same prog w n)
    (hans : ∀ e, prog (run X prog w n).answers = .perform e →
      AnswersAlike X same (Pio.point X prog w n) e (run X prog w n).world) :
    Matched X same prog w (n + 1) := by
  cases hp : prog (run X prog w n).answers with
  | perform e =>
    obtain ⟨v, waited, heff, hsame⟩ := hans e hp
    have hp' : prog (Pio.point X prog w n).answers = .perform e := by rw [h.answers, hp]
    rw [← effect_at hp'] at heff
    refine ⟨?_, ?_⟩
    · rw [point_succ, run_succ, Pio.Point.next_of_effect heff, Point.next_of_perform hp, h.answers]
    · rw [point_succ, run_succ, Pio.Point.next_of_effect heff, Point.next_of_perform hp]
      exact hsame
  | ret | raise e =>
    have hstay : (run X prog w n).next X prog = run X prog w n := by rw [Point.next, hp]
    have hnone : (Pio.point X prog w n).effect X prog = none := by
      rw [Pio.Point.effect, h.answers, hp]
    exact ⟨by rw [point_succ, run_succ, hstay, Pio.Point.next_of_none hnone, h.answers],
      by rw [point_succ, run_succ, hstay, Pio.Point.next_of_none hnone]; exact h.world⟩

theorem agree_of_matched (h : ∀ n, Matched X same prog w n) : Agree X prog w := by
  constructor
  · intro as
    rw [Pio.received_iff]
    exact exists_congr fun n => by rw [(h n).answers]
  · intro a
    rw [Pio.returns_iff]
    exact exists_congr fun n => by rw [(h n).answers]

/-- Where a waiter is registered, the program is on top and performs an effect. -/
theorem of_registers {c : Config W} {y : IoWaiter × W} (h : registers X prog c = some y) :
    c.state.mode = .run ∧ (∃ b rest, c.state.stack = .body (.main b) :: rest) ∧
      ∃ e, prog c.answers = .perform e := by
  unfold registers at h
  split at h
  · rename_i hm hs hp
    exact ⟨hm, ⟨_, _, hs⟩, _, hp⟩
  · cases h

/-- The runs stay together if `Pio.run` answers each effect it comes to as `Net.run` does. -/
theorem matched_of_alike (ho : SameOracle X same connecting) (hw : same w w)
    (halike : ∀ n m e, Matched X same prog w n →
      OnTop (Pio.point X prog w n) (Pio.run X prog w m).state →
      (Pio.run X prog w m).answers = (Pio.point X prog w n).answers →
      prog (run X prog w n).answers = .perform e →
      AnswersAlike X same (Pio.point X prog w n) e (run X prog w n).world) (n : ℕ) :
    Matched X same prog w n := by
  induction n with
  | zero => exact ⟨rfl, ho.serviceR hw⟩
  | succ n ih =>
    obtain ⟨m, htop, hans⟩ := Pio.point_reached (X := X) prog w n
    exact ih.succ fun e hp => halike n m e ih htop hans hp

/-- If every waiter is woken in time, the two runs stay together. -/
theorem matched_of_woken (ho : SameOracle X same connecting) (hw : same w w)
    (ht : RunInTime X same prog w) (hc : ∀ m, WokenInTime X prog (Pio.run X prog w m)) (n : ℕ) :
    Matched X same prog w n := by
  apply matched_of_alike ho hw
  intro n m e hm htop hans hp
  have hp' : prog (Pio.run X prog w m).answers = .perform e := by rw [hans, hm.answers, hp]
  rcases answers_or_late ho htop hp' hm.world (ht n e hp _ hm.world) with ⟨-, halike⟩ | ⟨hlate, -⟩
  · exact halike
  · exact absurd (hc m) hlate

/-- If the program is given the same answers, the next one does not come late. -/
theorem woken_of_agree (ho : SameOracle X same connecting) (ht : RunInTime X same prog w)
    (ha : Agree X prog w) {n : ℕ} (hm : Matched X same prog w n) {c : Config W} {e : NetEff}
    (htop : OnTop (Pio.point X prog w n) c.state)
    (hc : c.answers = (Pio.point X prog w n).answers)
    (hp : prog (run X prog w n).answers = .perform e) :
    WokenInTime X prog c ∧
      AnswersAlike X same (Pio.point X prog w n) e (run X prog w n).world := by
  have hp' : prog c.answers = .perform e := by rw [hc, hm.answers, hp]
  rcases answers_or_late ho htop hp' hm.world (ht n e hp _ hm.world) with hwoken | ⟨-, hlate⟩
  · exact hwoken
  · exfalso
    have hnext : (run X prog w (n + 1)).answers =
        (run X prog w n).answers ++ [(effc X (run X prog w n).world e).1] := by
      rw [run_succ, Point.next_of_perform hp]
    obtain ⟨k, hk⟩ := Pio.received_iff.mp ((ha.1 _).mp ⟨n + 1, hnext⟩)
    by_cases hkn : k ≤ n
    · -- fewer answers than `Net.run` has given
      have hlen := (point_mono (X := X) prog w hkn).length_le
      rw [hk, hm.answers, List.length_append, List.length_singleton] at hlen
      omega
    · cases heff : (Pio.point X prog w n).effect X prog with
      | none =>
        rw [point_stays heff (by omega), hm.answers] at hk
        simp at hk
      | some r =>
        obtain ⟨a, v, waited⟩ := r
        have hle := point_mono (X := X) prog w (show n + 1 ≤ k by omega)
        rw [hk, point_succ, Pio.Point.next_of_effect heff, hm.answers,
          List.prefix_append_right_inj, List.singleton_prefix_cons_iff] at hle
        subst hle
        rw [effect_at (by rw [hm.answers, hp])] at heff
        exact hlate v waited heff

theorem matched_of_agree (ho : SameOracle X same connecting) (hw : same w w)
    (ht : RunInTime X same prog w) (ha : Agree X prog w) (n : ℕ) : Matched X same prog w n := by
  apply matched_of_alike ho hw
  intro n m e hm htop hans hp
  exact (woken_of_agree ho ht ha hm htop hans hp).2

/-- On a network that is the same for both and answers both in time, `Net.run` and `Pio.run` give a
program the same answers up to the same end exactly when every waiter of `Pio.run` is woken in
time. -/
theorem runs_agree_iff (ho : SameOracle X same connecting) (hw : same w w)
    (ht : RunInTime X same prog w) :
    Agree X prog w ↔ ∀ m, WokenInTime X prog (Pio.run X prog w m) := by
  constructor
  · intro ha m y v hreg
    obtain ⟨n, ⟨r, hphase⟩, hans⟩ := Pio.run_within (X := X) prog w m
    obtain ⟨hmode, ⟨b, rest, hstack⟩, e, hp⟩ := of_registers hreg
    have hm := matched_of_agree ho hw ht ha n
    have hp' : prog (run X prog w n).answers = .perform e := by rw [← hm.answers, ← hans, hp]
    exact (woken_of_agree ho ht ha hm (hphase.onTop hmode hstack) hans hp').1 y v hreg
  · intro hc
    exact agree_of_matched fun n => matched_of_woken ho hw ht hc n

/-- The world counts the polls: connections complete at the first, and every peer has closed from the
sixth on. -/
def closing : Externals ℕ where
  sleepMs _ w := w
  wifiConnectRaw _ _ _ w := (0, w)
  wifiDisconnectRaw w := w
  wifiGetIpRaw w := (0, w)
  tcpCreateRaw w := (0, w)
  tcpConnectRaw _ _ _ w := (0, w)
  tcpWriteRaw _ _ len w := (len, w)
  tcpReadRaw _ _ w := ((if 6 ≤ w then -2 else 0, []), w)
  tcpCloseRaw _ w := w
  udpCreateRaw w := (0, w)
  udpBindRaw _ _ w := (0, w)
  udpSendtoRaw _ _ _ _ len w := (len, w)
  udpRecvfromRaw _ _ w := ((1, [0]), w)
  udpCloseRaw _ w := w
  dnsResolveRaw _ w := (1, w)
  netPollRaw w := w
  lwipServiceRaw w := w + 1
  ipFromStringRaw _ w := (1, w)

theorem closing_sameOracle : SameOracle closing (fun _ _ => True) (fun _ _ _ => True) where
  symm _ := trivial
  symmConnecting _ := trivial
  idle _ _ := trivial
  idleConnecting _ _ := trivial
  call _ c := by cases c <;> exact ⟨rfl, trivial⟩
  connect _ _ _ _ := ⟨rfl, fun _ => trivial, fun _ => trivial⟩
  connected _ _ _ := trivial
  read _ sock h h' := by
    refine ⟨?_, trivial⟩
    simp only [closing, Arrived] at h h' ⊢
    grind
  probe _ _ h := h
  recv _ _ _ _ := ⟨rfl, trivial⟩

theorem closing_read (w : ℕ) : Arrived (closing.tcpReadRaw sock 4096 (serviceNetwork closing w)).1.1 ↔
    6 ≤ w + 1 := by
  simp only [closing, serviceNetwork, Arrived]
  split <;> simp_all

theorem closing_arrivesWithin {w : ℕ} (h : 6 ≤ w + 1 + tries) : arrivesWithin closing sock tries w := by
  induction tries generalizing w with
  | zero => exact Or.inl ((closing_read w).mpr h)
  | succ tries ih =>
    by_cases hw : 6 ≤ w + 1
    · exact Or.inl ((closing_read w).mpr hw)
    · right
      apply ih
      change 6 ≤ w + 1 + 1 + 1 + tries
      omega

theorem closing_tcpRecvLoop {w : ℕ} (h : 6 ≤ w + 1 + tries) :
    (tcpRecvLoop closing sock tries w).1 ≠ readTimeout := by
  induction tries generalizing w with
  | zero =>
    rw [tcpRecvLoop_of_arrived ((closing_read w).mpr h)]
    exact readAnswer_ne_timeout
  | succ tries ih =>
    by_cases hw : 6 ≤ w + 1
    · rw [tcpRecvLoop_of_arrived ((closing_read w).mpr hw)]
      exact readAnswer_ne_timeout
    · rw [tcpRecvLoop_of_not_arrived fun harr => hw ((closing_read w).mp harr)]
      apply ih
      change 6 ≤ w + 1 + 1 + tries
      omega

/-- It answers every effect within the limits. -/
theorem closing_runInTime (prog : Prog) (w : ℕ) :
    RunInTime closing (fun _ _ => True) prog w := by
  intro n e _ w' _
  cases e with
  | tcpConnect host port => exact fun sock v v' _ _ => ⟨rfl, rfl⟩
  | tcpRead sock => exact ⟨closing_tcpRecvLoop (by omega), Or.inr (closing_arrivesWithin (by omega))⟩
  | udpRecvfrom sock => constructor <;> rintro ⟨⟩
  | _ => trivial

/-- Connect, and end. -/
def connectFirst : Prog
  | [] => .perform (.tcpConnect "10.0.0.1" 80)
  | _ => .ret

theorem runs_agree_iff_connect : Agree closing connectFirst 0 ↔
    ∀ m, WokenInTime closing connectFirst (Pio.run closing connectFirst 0 m) :=
  runs_agree_iff closing_sameOracle trivial (closing_runInTime connectFirst 0)

/-- Connect, read, and end. -/
def connectAndRead : Prog
  | [] => .perform (.tcpConnect "10.0.0.1" 80)
  | [_] => .perform (.tcpRead 0)
  | _ => .ret

/-- `Net.run` gives the program its connection and the close and lets it end. `Pio.run` returns while
the read waits, which is the program's second wait. -/
theorem runs_disagree : ¬ ∀ (X : Externals ℕ) (same : ℕ → ℕ → Prop) (connecting : ℤ → ℕ → ℕ → Prop)
    (prog : Prog) (w : ℕ), SameOracle X same connecting → same w w → RunInTime X same prog w →
      Agree X prog w := by
  intro h
  have hagree := h closing _ _ connectAndRead 0 closing_sameOracle trivial
    (closing_runInTime connectAndRead 0)
  have hnet : ∃ n, (connectAndRead (run closing connectAndRead 0 n).answers).outcome =
      some (.value .unit) := ⟨2, by decide +kernel⟩
  obtain ⟨n, hn⟩ := Pio.returns_iff.mp ((hagree.2 _).mp hnet)
  have hleft : (Pio.point closing connectAndRead 0 1).effect closing connectAndRead = none := by
    decide +kernel
  cases n with
  | zero => simp [Pio.point, connectAndRead, Command.outcome] at hn
  | succ n =>
    rw [point_stays hleft (by omega)] at hn
    exact absurd hn (by decide +kernel)

end PicoOcaml.Net
