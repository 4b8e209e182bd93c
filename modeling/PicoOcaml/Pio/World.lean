import PicoOcaml.Pio.Shifts

/-! What the externals can do to the world, carried over to the steps of the machine. -/
namespace PicoOcaml.Pio

variable {W : Type*}

/-- Every call changes the world within `R`. The calls of a connect count as one. -/
structure Externals.Within (X : Externals W) (R : W → W → Prop) : Prop where
  refl : ∀ w, R w w
  trans : ∀ {u v w}, R u v → R v w → R u w
  sleepMs : ∀ n w, R w (X.sleepMs n w)
  wifiConnectRaw : ∀ ssid password timeout w, R w (X.wifiConnectRaw ssid password timeout w).2
  wifiDisconnectRaw : ∀ w, R w (X.wifiDisconnectRaw w)
  wifiGetIpRaw : ∀ w, R w (X.wifiGetIpRaw w).2
  tcpConnect : ∀ h k ws host port w, R w (handleNetEffect X h k ws w (.tcpConnect host port)).world
  tcpWriteRaw : ∀ sock data len w, R w (X.tcpWriteRaw sock data len w).2
  tcpReadRaw : ∀ sock maxLen w, R w (X.tcpReadRaw sock maxLen w).2
  tcpCloseRaw : ∀ sock w, R w (X.tcpCloseRaw sock w)
  udpCreateRaw : ∀ w, R w (X.udpCreateRaw w).2
  udpBindRaw : ∀ sock port w, R w (X.udpBindRaw sock port w).2
  udpSendtoRaw : ∀ sock ip port data len w, R w (X.udpSendtoRaw sock ip port data len w).2
  udpRecvfromRaw : ∀ sock len w, R w (X.udpRecvfromRaw sock len w).2
  udpCloseRaw : ∀ sock w, R w (X.udpCloseRaw sock w)
  dnsResolveRaw : ∀ host w, R w (X.dnsResolveRaw host w).2
  netPollRaw : ∀ w, R w (X.netPollRaw w)
  lwipServiceRaw : ∀ w, R w (X.lwipServiceRaw w)
  ipFromStringRaw : ∀ host w, R w (X.ipFromStringRaw host w).2

section

variable {X : Externals W} {s : State W}

theorem world_deliver (a : Answer) (rest : List Frame) (f : Frame) :
    (deliver s a rest f).world = s.world := by
  cases f with
  | handler h =>
    cases h with
    | main sw => cases a <;> rfl
    | _ => rfl
  | scheduler sw => cases a <;> rfl
  | mainScheduler sw => cases a <;> rfl
  | _ => rfl

theorem world_suspend (eff : Eff) (h : Handler) (segment rest : List Frame) (refer : Book → Book) :
    (s.suspend eff h segment rest refer).world = s.world := by
  cases h <;> rfl

end

namespace Externals.Within

variable {X : Externals W} {R : W → W → Prop} (hX : X.Within R)

include hX

theorem serviceNetwork (w : W) : R w (serviceNetwork X w) :=
  hX.trans (hX.lwipServiceRaw w) (hX.netPollRaw _)

theorem resolveHost (host : String) (w : W) : R w (resolveHost X host w).2 := by
  simp only [Pio.resolveHost]
  split
  · split
    · exact hX.ipFromStringRaw host w
    · exact hX.dnsResolveRaw host w
  · exact hX.dnsResolveRaw host w

theorem recvLoop (sock : ℤ) (tries : ℕ) (w : W) : R w (recvLoop X sock tries w).2 := by
  induction tries generalizing w with
  | zero =>
    have hpoll := hX.trans (hX.serviceNetwork w) (hX.udpRecvfromRaw sock 4096 _)
    rw [Pio.recvLoop]
    simp only
    split <;> exact hpoll
  | succ tries ih =>
    have hpoll := hX.trans (hX.serviceNetwork w) (hX.udpRecvfromRaw sock 4096 _)
    rw [Pio.recvLoop]
    simp only
    split
    · exact hpoll
    · exact hX.trans hpoll (hX.trans (hX.sleepMs 10 _) (ih _))

theorem handleNetEffect (h : Handler) (k : ℕ) (ws : List IoWaiter) (w : W) (e : NetEff) :
    R w (handleNetEffect X h k ws w e).world := by
  cases e with
  | wifiConnect ssid password timeout =>
    simp only [Pio.handleNetEffect]
    split <;> exact hX.wifiConnectRaw ssid password timeout w
  | wifiGetIp => exact hX.wifiGetIpRaw w
  | wifiDisconnect => exact hX.wifiDisconnectRaw w
  | tcpConnect host port => exact hX.tcpConnect h k ws host port w
  | tcpWrite sock data =>
    have hw := hX.trans (hX.tcpWriteRaw sock data data.length w) (hX.serviceNetwork _)
    simp only [Pio.handleNetEffect]
    split <;> exact hw
  | tcpRead sock =>
    have hr := hX.trans (hX.serviceNetwork w) (hX.tcpReadRaw sock 4096 _)
    simp only [Pio.handleNetEffect]
    repeat' split
    all_goals exact hr
  | tcpClose sock => exact hX.tcpCloseRaw sock w
  | udpCreate =>
    simp only [Pio.handleNetEffect]
    split <;> exact hX.udpCreateRaw w
  | udpBind sock port =>
    simp only [Pio.handleNetEffect]
    split <;> exact hX.udpBindRaw sock port w
  | udpSendto sock host port data =>
    have hres := hX.resolveHost host w
    simp only [Pio.handleNetEffect]
    split
    · exact hres
    · have hsend := hX.trans hres (hX.trans
        (hX.udpSendtoRaw sock (Pio.resolveHost X host w).1 port data data.length _)
        (hX.serviceNetwork _))
      split <;> exact hsend
  | udpRecvfrom sock => exact hX.recvLoop sock 1000 w
  | udpClose sock => exact hX.udpCloseRaw sock w
  | dnsResolve hostname =>
    simp only [Pio.handleNetEffect]
    split <;> exact hX.dnsResolveRaw hostname w

theorem isReady (w : IoWaiter) (world : W) : R world (isReady X w world).2 := by
  simp only [Pio.isReady]
  split
  · exact hX.tcpWriteRaw ..
  · exact hX.tcpReadRaw ..

theorem foldl_processWaiter (ws : List IoWaiter) (acc : (List IoWaiter × List Task) × W) :
    R acc.2 (ws.foldl (processWaiter X) acc).2 := by
  induction ws generalizing acc with
  | nil => exact hX.refl _
  | cons w ws ih =>
    have hone : R acc.2 (processWaiter X acc w).2 := by
      have hr := hX.isReady w acc.2
      simp only [processWaiter]
      split <;> exact hr
    exact hX.trans hone (ih _)

theorem checkIoCompletions (b : Book) (w : W) : R w (checkIoCompletions X b w).2 :=
  hX.trans (hX.serviceNetwork w) (hX.foldl_processWaiter b.ioWaiters (([], []), _))

variable {s t : State W} {a : Act}

theorem startTask (u : Task) : R s.world (startTask X s u).world := by
  cases u with
  | waker p h k =>
    simp only [Pio.startTask]
    split <;> exact hX.refl _
  | wake op sock h k =>
    simp only [Pio.startTask, Handler.wakeAnswer_eq]
    cases op with
    | connect => exact hX.refl _
    | read => exact hX.tcpReadRaw sock 4096 s.world
  | onTimeout op sock h k =>
    simp only [Pio.startTask, Handler.timeoutAnswer_eq]
    cases op with
    | connect => exact hX.tcpCloseRaw sock s.world
    | read => exact hX.refl _
  | resume h k a =>
    simp only [Pio.startTask]
    split <;> exact hX.refl _
  | _ => exact hX.refl _

theorem idle : R s.world (idle X s).world := hX.trans (hX.serviceNetwork _) (hX.sleepMs 1 _)

theorem round {done : State W → State W} (hdone : ∀ u : State W, R u.world (done u).world) :
    R s.world (round X s done).world := by
  have hpass := hX.checkIoCompletions s.book s.world
  simp only [Pio.round]
  split
  · exact hX.trans hpass (hX.startTask (s := { s with
      book := (Pio.checkIoCompletions X s.book s.world).1.take _ _
      world := (Pio.checkIoCompletions X s.book s.world).2 }) _)
  · exact hX.trans hpass (hdone (s.pass X))

theorem go : R s.world (go X s).world := by
  simp only [Pio.go]
  split
  · rw [world_deliver]
    exact hX.refl _
  · simp only [schedulerRound]
    apply hX.round
    intro u
    split
    · exact hX.idle
    · exact hX.refl _
  · simp only [mainSchedulerRound]
    apply hX.round
    intro u
    split
    · exact hX.refl _
    · split
      · exact hX.idle
      · exact hX.refl _
  · rename_i sw hooks rest hm hst
    cases hooks <;> exact hX.refl _
  · exact hX.refl _

theorem perform (eff : Eff) : R s.world (perform X s eff).world := by
  simp only [Pio.perform]
  split
  · rename_i segment h rest hsplit
    cases eff with
    | await p =>
      simp only [effc]
      split
      · exact hX.refl _
      · rw [world_suspend]
        exact hX.refl _
    | yield =>
      simp only [effc]
      rw [world_suspend]
      exact hX.refl _
    | net e =>
      have hnet := hX.handleNetEffect h s.book.konts.length s.book.ioWaiters s.world e
      simp only [effc, netEffect_eq]
      split
      · exact hnet
      · rw [world_suspend]
        exact hnet
    | _ => exact hX.refl _
  · exact hX.refl _

/-- A step changes the world as its calls do. -/
theorem step (h : Step X s a t) : R s.world t.world := by
  obtain ⟨-, rfl⟩ := h
  cases a with
  | go => exact hX.go
  | perform eff => exact hX.perform eff
  | ret v =>
    simp only [next, finish]
    split <;> exact hX.refl _
  | raise e =>
    simp only [next, finish]
    split <;> exact hX.refl _
  | _ => exact hX.refl _

theorem run {xs : List (Act × State W)} (h : Lts.Run (Step X) s xs) :
    R s.world (Lts.last s xs).world := by
  have hall : Lts.Always (fun u => R s.world u.world) s xs :=
    h.always (hX.refl _) fun _ _ _ hu hstep => hX.trans hu (hX.step hstep)
  exact hall.last

end Externals.Within

end PicoOcaml.Pio
