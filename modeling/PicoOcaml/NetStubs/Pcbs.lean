import PicoOcaml.Handles
import PicoOcaml.NetStubs.Slots

/-! The pcbs of lwIP: what the stubs do with them, and that they never touch one that has been
freed. -/
namespace PicoOcaml.NetStubs

open Handles (Heap Kept)

/-- A call of lwIP as an operation on the pcb it names. The registration that follows `tcp_new` and
`udp_new` tells which slot the pcb is for. -/
def LwipCall.op : LwipCall → Handles.Op SocketProto ℤ
  | .tcpArg pcb (some arg) => .new .tcp arg pcb
  | .tcpArg pcb none | .tcpConnect pcb _ _ | .tcpWrite pcb _ | .tcpRecved pcb _ => .use .tcp pcb
  | .tcpClose pcb => .release .tcp pcb
  | .udpRecv pcb arg => .new .udp arg pcb
  | .udpBind pcb _ | .udpSendto pcb _ _ _ => .use .udp pcb
  | .udpRemove pcb => .release .udp pcb

/-- The pcb in a slot, with the member of the union that the slot's protocol selects. -/
def Stubs.cell (s : Stubs) (id : ℤ) : Option (SocketProto × ℕ) :=
  if badId id then none else (s.sock id).pcb.map fun pcb => ((s.sock id).proto, pcb)

/-- The stubs, and the pcbs that lwIP has given out and not freed. -/
structure Pcbs where
  stubs : Stubs
  heap : Heap SocketProto ℤ

def Pcbs.initial : Pcbs := ⟨.initial, .empty⟩

/-- A call of the program or a callback of lwIP; `tcp_err_callback`, which lwIP makes when it has
freed the pcb, comes with the pcb. -/
inductive PcbAct
  | call (o : Call)
  | tcpErr (pcb : ℕ) (err : ℤ)

/-- The calls of lwIP that a call makes. -/
def Call.lwip (s : Stubs) (o : Call) : List LwipCall :=
  (Table.next ⟨s, []⟩ o).stubs.lwip.drop s.lwip.length

/-- The argument of a callback is the one its pcb was registered with. -/
def Pcbs.next (u : Pcbs) : PcbAct → Pcbs
  | .call o => ⟨(Table.next ⟨u.stubs, []⟩ o).stubs,
    (u.heap.run ((o.lwip u.stubs).map LwipCall.op)).getD u.heap⟩
  | .tcpErr pcb err =>
    ⟨((u.heap.out pcb).elim u.stubs fun reg => tcpErrCallback u.stubs reg.2 err), u.heap.drop pcb⟩

/-- lwIP makes the callbacks of a TCP pcb only while it is there. -/
def Pcbs.Contract (u : Pcbs) : PcbAct → Prop
  | .call (.tcpErrCallback _ _) => False
  | .call (.tcpRecvCallback arg tpcb _ _) => u.heap.out tpcb = some (.tcp, arg)
  | .tcpErr pcb _ => ∃ arg, u.heap.out pcb = some (.tcp, arg)
  | .call _ => True

def Pcbs.Step (u : Pcbs) (a : PcbAct) (v : Pcbs) : Prop := u.Contract a ∧ v = u.next a

/-- Each call of lwIP that the step makes is on a pcb of its protocol that has not been freed. -/
def Pcbs.Sound (u : Pcbs) (a : PcbAct) (_ : Pcbs) : Prop :=
  match a with
  | .call o => (u.heap.run ((o.lwip u.stubs).map LwipCall.op)).isSome
  | .tcpErr _ _ => True

/-- A slot has only a pcb of its protocol that was registered with it and has not been freed. -/
structure Pcbs.Owned (u : Pcbs) : Prop where
  held : Handles.Held u.heap u.stubs.cell
  next : u.heap.next = u.stubs.pcbNext

/-- No pcb of lwIP is out of the program's reach. -/
def Pcbs.Reached (u : Pcbs) : Prop := Kept u.heap u.stubs.cell

/-- A create finds no pcb in the slot that it takes, and the first WiFi connect none at all. -/
def Call.Vacant (s : Stubs) : Call → Prop
  | .tcpCreate _ _ | .udpCreate _ _ => ∀ k, firstClosed s = some k → s.cell k = none
  | .wifiConnect _ => s.netInitialized = true ∨ ∀ id, s.cell id = none
  | _ => True

def Pcbs.Vacant (u : Pcbs) (a : PcbAct) (_ : Pcbs) : Prop :=
  match a with
  | .call o => o.Vacant u.stubs
  | .tcpErr _ _ => True

variable {s t r : Stubs} {id : ℤ} {sock : Socket} {calls calls' : List LwipCall}
  {c : LwipCall} {o : Call}

/-! ### What one function does -/

/-- The calls made, when no pcb is created. -/
structure Makes (s t : Stubs) (calls : List LwipCall) : Prop where
  lwip : t.lwip = s.lwip ++ calls
  pcbNext : t.pcbNext = s.pcbNext

theorem Makes.refl : Makes s s [] := ⟨(List.append_nil _).symm, rfl⟩

theorem Makes.trans (h : Makes s t calls) (h' : Makes t r calls') : Makes s r (calls ++ calls') :=
  ⟨by rw [h'.lwip, h.lwip, List.append_assoc], h'.pcbNext.trans h.pcbNext⟩

theorem Makes.call (h : Makes s t calls) (c : LwipCall) : Makes s (t.call c) (calls ++ [c]) :=
  h.trans ⟨rfl, rfl⟩

theorem Makes.quiet (h : Makes s t calls) (hl : r.lwip = t.lwip) (hn : r.pcbNext = t.pcbNext) :
    Makes s r calls := by
  have hsame : Makes t r [] := ⟨by rw [hl, List.append_nil], hn⟩
  have h' := h.trans hsame
  rwa [List.append_nil] at h'

theorem makes_touch_store (p p' : Option ℕ) (off len off' : ℕ) (bytes : Bytes) :
    Makes s ((s.touch p off len).store p' off' bytes) [] := by
  cases p' <;> exact Makes.refl.quiet rfl rfl

theorem makes_copyToRecvBuf (arg : ℤ) (bytes : Bytes) (mark : Socket → Socket) :
    Makes s (copyToRecvBuf s arg bytes mark).2 [] := by
  simp only [copyToRecvBuf]
  generalize (if bytes.length < _ then _ else _) = n
  split
  · exact (makes_touch_store ..).quiet rfl rfl
  · exact .refl

/-- The pcb that lwIP hands to a callback. -/
def Call.given : Call → Option ℕ
  | .tcpRecvCallback _ tpcb _ _ => some tpcb
  | _ => none

/-- What a call does to the pcbs and to the slots that hold them. -/
inductive Deed (s : Stubs) (o : Call) (t : Stubs) : Prop
  | uses (calls : List LwipCall) : o.Vacant s → Makes s t calls → (∀ id, t.cell id = s.cell id) →
      (∀ c ∈ calls, ∃ proto pcb, c.op = .use proto pcb ∧
        ((∃ id, s.cell id = some (proto, pcb)) ∨ proto = .tcp ∧ o.given = some pcb)) → Deed s o t
  | clears : Makes s t [] → (∀ id, t.cell id = none ∨ t.cell id = s.cell id) →
      (t.cell = s.cell ↔ o.Vacant s) → Deed s o t
  | creates (proto : SocketProto) (k : ℕ) (c : LwipCall) : firstClosed s = some k →
      c.op = .new proto k s.pcbNext → t.lwip = s.lwip ++ [c] → t.pcbNext = s.pcbNext + 1 →
      t.cell = Function.update s.cell k (some (proto, s.pcbNext)) →
      (o.Vacant s ↔ s.cell k = none) → Deed s o t
  | closes (proto : SocketProto) (pcb : ℕ) (id : ℤ) (calls : List LwipCall) : o.Vacant s →
      Makes s t calls → s.cell id = some (proto, pcb) →
      (∃ ops, calls.map LwipCall.op = ops ++ [.release proto pcb] ∧ ∀ op ∈ ops, op = .use proto pcb) →
      t.cell id = none → (∀ j, j ≠ id → t.cell j = s.cell j) → Deed s o t

theorem cell_of_same (h : ∀ n, Same n s t) (id : ℤ) : t.cell id = s.cell id := by
  obtain ⟨hproto, hpcb, -, -⟩ := h id.toNat
  simp only [Stubs.cell, Stubs.sock, hproto, hpcb]

theorem cell_of_sock (hid : badId id = false) {proto : SocketProto} {pcb : ℕ}
    (hproto : (s.sock id).proto = proto) (hpcb : (s.sock id).pcb = some pcb) :
    s.cell id = some (proto, pcb) := by
  simp [Stubs.cell, hid, hproto, hpcb]

/-- A function that leaves every slot its pcb, and calls lwIP for the pcb in `id` at most. -/
theorem deed_uses (id : ℤ) (hv : o.Vacant s) (h : ∀ n, Same n s t) (hm : Makes s t calls)
    (hc : ∀ c ∈ calls, ∃ proto pcb, c.op = .use proto pcb ∧ s.cell id = some (proto, pcb)) :
    Deed s o t := by
  refine .uses calls hv hm (cell_of_same h) fun c hmem => ?_
  obtain ⟨proto, pcb, hop, hcell⟩ := hc c hmem
  exact ⟨proto, pcb, hop, .inl ⟨id, hcell⟩⟩

theorem deed_quiet (hv : o.Vacant s) (h : ∀ n, Same n s t) (hm : Makes s t []) : Deed s o t :=
  deed_uses 0 hv h hm (by simp)

theorem makes_picoTcpRead (maxLen : ℕ) : Makes s (picoTcpRead s id maxLen).2 [] := by
  simp only [picoTcpRead]
  generalize (if (s.sock id).recvLen < maxLen then _ else _) = n
  split
  · exact .refl
  · split
    · exact .refl
    · rw [apply_ite Prod.snd, ite_id]
      by_cases hn : n > 0
      · simp only [if_pos hn]
        have ht : Makes s (s.touch (s.sock id).recvBuf 0 n) [] := Makes.refl.quiet rfl rfl
        split
        · exact (ht.trans (makes_touch_store ..)).quiet rfl rfl
        · exact ht.quiet rfl rfl
      · simp only [if_neg hn]
        exact .refl

theorem makes_picoUdpRecvfrom (maxLen : ℕ) : Makes s (picoUdpRecvfrom s id maxLen).2 [] := by
  simp only [picoUdpRecvfrom]
  generalize (if (s.sock id).recvLen < maxLen then _ else _) = n
  split
  · exact .refl
  · split
    · exact .refl
    · split
      · exact Makes.refl.quiet rfl rfl
      · exact .refl

/-- The functions that need a pcb of their protocol call lwIP for it once, or not at all. -/
theorem deed_guarded (proto : SocketProto) (hv : o.Vacant s) (h : ∀ n, Same n s t)
    (hquiet : (∀ pcb, s.cell id ≠ some (proto, pcb)) → Makes s t [])
    (huse : ∀ pcb, s.cell id = some (proto, pcb) →
      Makes s t [] ∨ ∃ c, Makes s t [c] ∧ c.op = .use proto pcb) : Deed s o t := by
  by_cases hcell : ∃ pcb, s.cell id = some (proto, pcb)
  · obtain ⟨pcb, hcell⟩ := hcell
    rcases huse pcb hcell with hm | ⟨c, hm, hop⟩
    · exact deed_quiet hv h hm
    · refine deed_uses id hv h hm fun c' hc' => ?_
      rw [List.mem_singleton.mp hc']
      exact ⟨proto, pcb, hop, hcell⟩
  · exact deed_quiet hv h (hquiet fun pcb hpcb => hcell ⟨pcb, hpcb⟩)

/-- Whether a slot holds a pcb of the protocol, as the functions test it. -/
theorem cell_eq_some {proto : SocketProto} {pcb : ℕ} : s.cell id = some (proto, pcb) ↔
    badId id = false ∧ (s.sock id).proto = proto ∧ (s.sock id).pcb = some pcb := by
  by_cases hid : badId id = true
  · simp [Stubs.cell, hid]
  · simp only [Stubs.cell, hid]
    simp [Option.map_eq_some_iff, and_comm]

theorem deed_picoTcpConnect (ip : Word) (port : BitVec 16) (err : ℤ) :
    Deed s (.tcpConnect id ip port err) (picoTcpConnect s id ip port err).2 := by
  have hv : Call.Vacant s (.tcpConnect id ip port err) := trivial
  apply deed_guarded .tcp hv fun n => same_picoTcpConnect id ip port err
  · intro hnone
    simp only [picoTcpConnect]
    split
    · exact .refl
    · split
      · next hid _ _ pcb hproto hpcb =>
        exact absurd (cell_eq_some.mpr ⟨by simpa using hid, hproto, hpcb⟩) (hnone pcb)
      · exact .refl
  · intro pcb hcell
    obtain ⟨hid, hproto, hpcb⟩ := cell_eq_some.mp hcell
    simp only [picoTcpConnect, hid, hproto, hpcb]
    exact .inr ⟨.tcpConnect pcb ip port, ⟨rfl, rfl⟩, rfl⟩

theorem deed_picoTcpWrite (data : Bytes) (len : ℕ) (err : ℤ) :
    Deed s (.tcpWrite id data len err) (picoTcpWrite s id data len err).2 := by
  have hv : Call.Vacant s (.tcpWrite id data len err) := trivial
  apply deed_guarded .tcp hv fun n => same_picoTcpWrite id data len err
  · intro hnone
    simp only [picoTcpWrite]
    split
    · exact .refl
    · split
      · next hid _ _ pcb hproto hpcb =>
        exact absurd (cell_eq_some.mpr ⟨by simpa using hid, hproto, hpcb⟩) (hnone pcb)
      · exact .refl
  · intro pcb hcell
    obtain ⟨hid, hproto, hpcb⟩ := cell_eq_some.mp hcell
    simp only [picoTcpWrite, hid, hproto, hpcb]
    by_cases hstate : (s.sock id).state ≠ .connected
    · exact .inl (by simpa [hstate] using Makes.refl)
    · by_cases herr : err = errOk
      · exact .inr ⟨_, by simpa [hstate, herr] using Makes.refl.call _, rfl⟩
      · exact .inl (by simpa [hstate, herr] using Makes.refl)

theorem deed_picoUdpBind (port : BitVec 16) (err : ℤ) :
    Deed s (.udpBind id port err) (picoUdpBind s id port err).2 := by
  have hv : Call.Vacant s (.udpBind id port err) := trivial
  apply deed_guarded .udp hv fun n => same_picoUdpBind id port err
  · intro hnone
    simp only [picoUdpBind]
    split
    · exact .refl
    · split
      · next hid _ _ pcb hproto hpcb =>
        exact absurd (cell_eq_some.mpr ⟨by simpa using hid, hproto, hpcb⟩) (hnone pcb)
      · exact .refl
  · intro pcb hcell
    obtain ⟨hid, hproto, hpcb⟩ := cell_eq_some.mp hcell
    simp only [picoUdpBind, hid, hproto, hpcb]
    exact .inr ⟨.udpBind pcb port, ⟨rfl, rfl⟩, rfl⟩

theorem deed_picoUdpSendto (ip : Word) (port : BitVec 16) (data : Bytes) (len : ℕ) (pbufOk : Bool)
    (err : ℤ) : Deed s (.udpSendto id ip port data len pbufOk err)
      (picoUdpSendto s id ip port data len pbufOk err).2 := by
  have hv : Call.Vacant s (.udpSendto id ip port data len pbufOk err) := trivial
  apply deed_guarded .udp hv fun n => same_picoUdpSendto id ip port data len pbufOk err
  · intro hnone
    simp only [picoUdpSendto]
    split
    · exact .refl
    · split
      · next hid _ _ pcb hproto hpcb =>
        exact absurd (cell_eq_some.mpr ⟨by simpa using hid, hproto, hpcb⟩) (hnone pcb)
      · exact .refl
  · intro pcb hcell
    obtain ⟨hid, hproto, hpcb⟩ := cell_eq_some.mp hcell
    simp only [picoUdpSendto, hid, hproto, hpcb]
    cases pbufOk with
    | false => exact .inl Makes.refl
    | true =>
      by_cases herr : err = errOk
      · exact .inr ⟨_, by simpa [herr] using ⟨rfl, rfl⟩, rfl⟩
      · exact .inl (by simpa [herr] using ⟨(List.append_nil _).symm, rfl⟩)

theorem deed_tcpRecvCallback (arg : ℤ) (tpcb : ℕ) (p : Option Bytes) (err : ℤ) :
    Deed s (.tcpRecvCallback arg tpcb p err) (tcpRecvCallback s arg tpcb p err).2 := by
  have hv : Call.Vacant s (.tcpRecvCallback arg tpcb p err) := trivial
  have hsame := fun n => same_tcpRecvCallback (n := n) (s := s) arg tpcb p err
  by_cases hid : badId arg = true
  · simp only [tcpRecvCallback, hid, if_true] at hsame ⊢
    exact deed_quiet hv hsame .refl
  · cases p with
    | none =>
      apply deed_quiet hv hsame
      simp only [tcpRecvCallback, hid]
      exact Makes.refl.quiet rfl rfl
    | some bytes =>
      by_cases herr : err ≠ errOk
      · exact deed_quiet hv hsame (by simpa [tcpRecvCallback, hid, herr] using Makes.refl)
      · have hcopy := (makes_copyToRecvBuf (s := s) arg bytes fun x => x).call
          (.tcpRecved tpcb bytes.length)
        refine .uses [.tcpRecved tpcb bytes.length] hv ?_ (cell_of_same hsame) ?_
        · simp only [tcpRecvCallback, hid, herr]
          exact hcopy.quiet rfl rfl
        · intro c hc
          rw [List.mem_singleton.mp hc]
          exact ⟨.tcp, tpcb, rfl, .inr ⟨rfl, rfl⟩⟩

theorem deed_udpRecvCallback (arg : ℤ) (p : Option Bytes) (addr : Word) (port : BitVec 16) :
    Deed s (.udpRecvCallback arg p addr port) (udpRecvCallback s arg p addr port) := by
  have hv : Call.Vacant s (.udpRecvCallback arg p addr port) := trivial
  apply deed_quiet hv fun n => same_udpRecvCallback arg p addr port
  cases p with
  | none => exact .refl
  | some bytes =>
    simp only [udpRecvCallback]
    split
    · exact .refl
    · exact (makes_copyToRecvBuf ..).quiet rfl rfl

theorem deed_tcpConnectedCallback (arg err : ℤ) :
    Deed s (.tcpConnectedCallback arg err) (tcpConnectedCallback s arg err).2 := by
  have hv : Call.Vacant s (.tcpConnectedCallback arg err) := trivial
  apply deed_quiet hv fun n => same_tcpConnectedCallback arg err
  simp only [tcpConnectedCallback]
  split <;> exact Makes.refl.quiet rfl rfl

theorem deed_wifiConnect (result : ℤ) : Deed s (.wifiConnect result) (wifiConnect s result).2 := by
  have hm : Makes s (wifiConnect s result).2 [] := by
    simp only [wifiConnect, netInit]
    split <;> split <;> exact Makes.refl.quiet rfl rfl
  by_cases hinit : s.netInitialized = true
  · refine deed_quiet (.inl hinit) (fun n => ?_) hm
    simp only [wifiConnect, netInit, hinit, if_true]
    split
    · exact Same.refl.enqueue _
    · exact Same.refl
  · have hcell : ∀ id, (wifiConnect s result).2.cell id = none := by
      intro id
      simp only [wifiConnect, netInit, hinit]
      split <;> simp [Stubs.cell, Stubs.sock, Stubs.enqueue, Socket.zero]
    refine .clears hm (fun id => .inl (hcell id)) ?_
    constructor
    · intro heq
      exact .inr fun id => (congrFun heq id).symm.trans (hcell id)
    · rintro (h | h)
      · exact absurd h hinit
      · exact funext fun id => (hcell id).trans (h id).symm

/-! ### Creates and closes -/

theorem cell_of_same_ne {k j : ℤ} (hk : badId k = false) (h : ∀ n, n ≠ k.toNat → Same n s t)
    (hj : j ≠ k) : t.cell j = s.cell j := by
  by_cases hid : badId j = true
  · simp [Stubs.cell, hid]
  · have hid' : badId j = false := by simpa using hid
    have hj0 := nonneg_of_valid hid'
    have hk0 := nonneg_of_valid hk
    obtain ⟨hproto, hpcb, -, -⟩ := h j.toNat (by omega)
    simp only [Stubs.cell, Stubs.sock, hproto, hpcb]

/-- A create that fails, or that fills its slot with a new pcb. -/
theorem deed_created {proto : SocketProto} {k : ℕ} {r : ℤ × Stubs} (hk : firstClosed s = some k)
    (ht : Taken proto k s r)
    (hv : o.Vacant s ↔ s.cell k = none)
    (hout : Makes s r.2 [] ∧ (r.2.sock k).pcb = none ∨
      r.2.lwip = s.lwip ++ [c] ∧ r.2.pcbNext = s.pcbNext + 1 ∧ (r.2.sock k).proto = proto ∧
        (r.2.sock k).pcb = some s.pcbNext ∧ c.op = .new proto k s.pcbNext) : Deed s o r.2 := by
  have hid := firstClosed_valid hk
  have hother : ∀ j, j ≠ (k : ℤ) → r.2.cell j = s.cell j :=
    fun j => cell_of_same_ne hid fun n hn => ht.other n (by simpa using hn)
  rcases hout with ⟨hm, hpcb⟩ | ⟨hl, hn, hproto, hpcb, hop⟩
  · have hnone : r.2.cell k = none := by simp [Stubs.cell, hpcb]
    refine .clears hm (fun j => ?_) ?_
    · by_cases hj : j = k
      · exact .inl (hj ▸ hnone)
      · exact .inr (hother j hj)
    · rw [hv]
      constructor
      · intro heq
        rw [← heq, hnone]
      · intro hcell
        funext j
        by_cases hj : j = k
        · rw [hj, hnone, hcell]
        · exact hother j hj
  · refine .creates proto k c hk hop hl hn ?_ hv
    funext j
    by_cases hj : j = k
    · subst hj
      rw [Function.update_self]
      exact cell_of_sock hid hproto hpcb
    · rw [Function.update_of_ne hj]
      exact hother j hj

theorem makes_socketFree : Makes s (socketFree s id) [] := by
  simp only [socketFree]
  split
  · exact .refl
  · cases (s.sock id).recvBuf with
    | none => exact Makes.refl.quiet rfl rfl
    | some a => exact Makes.refl.quiet rfl rfl

theorem socketFree_pcb (hid : badId id = false) : ((socketFree s id).sock id).pcb = none := by
  simp [socketFree, hid]

theorem vacant_iff {k : ℕ} (hk : firstClosed s = some k) :
    (∀ j, firstClosed s = some j → s.cell j = none) ↔ s.cell k = none := by
  rw [hk]
  simp

theorem makes_socketAlloc (proto : SocketProto) (mallocOk : Bool) :
    Makes s (socketAlloc s proto mallocOk).2 [] := by
  cases hk : firstClosed s with
  | none =>
    simp only [socketAlloc, hk]
    exact .refl
  | some k =>
    simp only [socketAlloc, hk]
    cases mallocOk <;> exact Makes.refl.quiet rfl rfl

theorem deed_attachPcb {proto : SocketProto} {k : ℕ} {mallocOk : Bool} {a : ℤ × Stubs}
    (hk : firstClosed s = some k) (ha : a = socketAlloc s proto mallocOk)
    (hv : o.Vacant s ↔ s.cell k = none) (newOk : Bool)
    {f : Socket → Socket} (hf : ∀ x, (f x).proto = x.proto ∧ (f x).recvBuf = x.recvBuf ∧
      (f x).pcb = some s.pcbNext) (hop : a.1 = k → c.op = .new proto k s.pcbNext) :
    Deed s o (attachPcb a newOk f c).2 := by
  have hid := firstClosed_valid hk
  have hm := makes_socketAlloc (s := s) proto mallocOk
  have htaken := socketAlloc_taken hk proto mallocOk
  rw [← ha] at hm htaken
  refine deed_created (c := c) hk (attachPcb_taken hid htaken newOk c fun x => ⟨(hf x).1, (hf x).2.1⟩) hv
    ?_
  unfold attachPcb
  obtain ⟨r, t⟩ := a
  obtain ⟨-, ⟨rfl, hproto, -, -⟩ | ⟨rfl, -⟩⟩ := htaken
  · have hpos : ¬ ((k : ℤ) < 0) := by omega
    simp only [if_neg hpos]
    cases newOk with
    | false => exact .inl ⟨hm.trans makes_socketFree, socketFree_pcb hid⟩
    | true =>
      right
      refine ⟨?_, ?_, ?_, ?_, hop rfl⟩
      · exact congrArg (· ++ [c]) (hm.lwip.trans (List.append_nil _))
      · exact congrArg (· + 1) hm.pcbNext
      · have hsock : (t.sock k).proto = proto := hproto
        simpa [hf] using hsock
      · simp [hf]
  · refine .inl ⟨hm, ?_⟩
    simp only [socketAlloc, hk, Stubs.malloc] at ha
    cases mallocOk with
    | false =>
      rw [(Prod.mk.inj ha).2]
      simp [Stubs.setSock, Stubs.sock, Socket.zero]
    | true =>
      have h := (Prod.mk.inj ha).1
      omega

theorem deed_picoTcpCreate (mallocOk tcpNewOk : Bool) :
    Deed s (.tcpCreate mallocOk tcpNewOk) (picoTcpCreate s mallocOk tcpNewOk).2 := by
  cases hk : firstClosed s with
  | none =>
    rw [picoTcpCreate_full hk]
    exact deed_quiet (by simp [Call.Vacant, hk]) (fun _ => .refl) .refl
  | some k =>
    have hnext : (socketAlloc s .tcp mallocOk).2.pcbNext = s.pcbNext :=
      (makes_socketAlloc .tcp mallocOk).pcbNext
    rw [picoTcpCreate_eq]
    refine deed_attachPcb (o := .tcpCreate mallocOk tcpNewOk) hk rfl (vacant_iff hk) tcpNewOk ?_ ?_
    · exact fun x => ⟨rfl, rfl, congrArg some hnext⟩
    · exact fun hid => congrArg₂ (Handles.Op.new SocketProto.tcp) hid hnext

theorem deed_picoUdpCreate (mallocOk udpNewOk : Bool) :
    Deed s (.udpCreate mallocOk udpNewOk) (picoUdpCreate s mallocOk udpNewOk).2 := by
  cases hk : firstClosed s with
  | none =>
    rw [picoUdpCreate_full hk]
    exact deed_quiet (by simp [Call.Vacant, hk]) (fun _ => .refl) .refl
  | some k =>
    have hnext : (socketAlloc s .udp mallocOk).2.pcbNext = s.pcbNext :=
      (makes_socketAlloc .udp mallocOk).pcbNext
    rw [picoUdpCreate_eq]
    refine deed_attachPcb (o := .udpCreate mallocOk udpNewOk) hk rfl (vacant_iff hk) udpNewOk ?_ ?_
    · exact fun x => ⟨rfl, rfl, congrArg some hnext⟩
    · exact fun hid => congrArg₂ (Handles.Op.new SocketProto.udp) hid hnext

theorem makes_free (hm : Makes s t calls) : Makes s (socketFree t id) calls := by
  have hfree : Makes t (socketFree t id) [] := makes_socketFree
  have h := hm.trans hfree
  rwa [List.append_nil] at h

theorem cell_socketFree_ne {j : ℤ} (hid : badId id = false) (ht : t.sockets = s.sockets)
    (hj : j ≠ id) : (socketFree t id).cell j = s.cell j := by
  have hsame : t.cell j = s.cell j := by simp only [Stubs.cell, Stubs.sock, ht]
  exact (cell_of_same_ne hid (fun n hn => same_socketFree hn) hj).trans hsame

/-- What the two closes do once they have got past their guards. -/
theorem deed_socketFree {proto : SocketProto} {pcb : ℕ} (hv : o.Vacant s) (hid : badId id = false)
    (hcell : s.cell id = some (proto, pcb)) (hm : Makes s t calls) (ht : t.sockets = s.sockets)
    (hops : ∃ ops, calls.map LwipCall.op = ops ++ [.release proto pcb] ∧
      ∀ op ∈ ops, op = .use proto pcb) : Deed s o (socketFree t id) := by
  refine .closes proto pcb id calls hv (makes_free hm) hcell hops ?_ ?_
  · simp [Stubs.cell, socketFree_pcb hid]
  · exact fun j hj => cell_socketFree_ne hid ht hj

theorem deed_socketFree_empty (hv : o.Vacant s) (hid : badId id = false)
    (hpcb : (s.sock id).pcb = none) :
    Deed s o (socketFree s id) := by
  refine .uses [] hv makes_socketFree (fun j => ?_) (by simp)
  by_cases hj : j = id
  · subst hj
    simp [Stubs.cell, hpcb, socketFree_pcb hid]
  · exact cell_socketFree_ne hid rfl hj

theorem deed_picoTcpClose (id : ℤ) : Deed s (.tcpClose id) (picoTcpClose s id) := by
  have hv : Call.Vacant s (.tcpClose id) := trivial
  by_cases hid : badId id = false
  · by_cases hproto : (s.sock id).proto = .tcp
    · cases hpcb : (s.sock id).pcb with
      | none =>
        simp only [picoTcpClose, hid, hproto, hpcb]
        exact deed_socketFree_empty hv hid hpcb
      | some pcb =>
        have hcell := cell_of_sock hid hproto hpcb
        simp only [picoTcpClose, hid, hproto, hpcb]
        exact deed_socketFree hv hid hcell ((Makes.refl.call (.tcpArg pcb none)).call (.tcpClose pcb))
          rfl ⟨[.use .tcp pcb], rfl, by simp⟩
    · rw [picoTcpClose, if_neg (by simp [hid]), if_pos hproto]
      exact deed_quiet hv (fun _ => .refl) .refl
  · simp only [picoTcpClose, hid]
    exact deed_quiet hv (fun _ => .refl) .refl

theorem deed_picoUdpClose (id : ℤ) : Deed s (.udpClose id) (picoUdpClose s id) := by
  have hv : Call.Vacant s (.udpClose id) := trivial
  by_cases hid : badId id = false
  · by_cases hproto : (s.sock id).proto = .udp
    · cases hpcb : (s.sock id).pcb with
      | none =>
        simp only [picoUdpClose, hid, hproto, hpcb]
        exact deed_socketFree_empty hv hid hpcb
      | some pcb =>
        have hcell := cell_of_sock hid hproto hpcb
        simp only [picoUdpClose, hid, hproto, hpcb]
        exact deed_socketFree hv hid hcell (Makes.refl.call (.udpRemove pcb)) rfl ⟨[], rfl, by simp⟩
    · rw [picoUdpClose, if_neg (by simp [hid]), if_pos hproto]
      exact deed_quiet hv (fun _ => .refl) .refl
  · simp only [picoUdpClose, hid]
    exact deed_quiet hv (fun _ => .refl) .refl

theorem deed_next (s : Stubs) (herr : ∀ arg err, o ≠ .tcpErrCallback arg err) :
    Deed s o (Table.next ⟨s, []⟩ o).stubs := by
  cases o with
  | wifiConnect result => exact deed_wifiConnect result
  | wifiDisconnect => exact deed_quiet ⟨⟩ (fun _ => Same.refl.enqueue _) (Makes.refl.quiet rfl rfl)
  | tcpCreate mallocOk tcpNewOk => exact deed_picoTcpCreate mallocOk tcpNewOk
  | tcpConnect id ip port err => exact deed_picoTcpConnect ip port err
  | tcpWrite id data len err => exact deed_picoTcpWrite data len err
  | tcpRead id maxLen =>
    exact deed_quiet ⟨⟩ (fun _ => same_picoTcpRead id maxLen) (makes_picoTcpRead maxLen)
  | tcpClose id => exact deed_picoTcpClose id
  | udpCreate mallocOk udpNewOk => exact deed_picoUdpCreate mallocOk udpNewOk
  | udpBind id port err => exact deed_picoUdpBind port err
  | udpSendto id ip port data len pbufOk err => exact deed_picoUdpSendto ip port data len pbufOk err
  | udpRecvfrom id maxLen =>
    exact deed_quiet ⟨⟩ (fun _ => same_picoUdpRecvfrom id maxLen) (makes_picoUdpRecvfrom maxLen)
  | udpClose id => exact deed_picoUdpClose id
  | tcpRecvCallback arg tpcb p err => exact deed_tcpRecvCallback arg tpcb p err
  | tcpSentCallback arg len =>
    exact deed_quiet ⟨⟩ (fun _ => Same.refl.enqueue _) (Makes.refl.quiet rfl rfl)
  | tcpErrCallback arg err => exact absurd rfl (herr arg err)
  | tcpConnectedCallback arg err => exact deed_tcpConnectedCallback arg err
  | udpRecvCallback arg p addr port => exact deed_udpRecvCallback arg p addr port

theorem cell_tcpErrCallback (arg err : ℤ) : (tcpErrCallback s arg err).cell arg = none ∧
    ∀ j, j ≠ arg → (tcpErrCallback s arg err).cell j = s.cell j := by
  constructor
  · by_cases hid : badId arg = true
    · simp [Stubs.cell, hid]
    · simp [Stubs.cell, tcpErrCallback, hid]
  · intro j hj
    by_cases hid : badId j = true
    · simp [Stubs.cell, hid]
    · rcases tcpErrCallback_slot (s := s) (by simpa using hid) arg err with hs | ⟨rfl, -⟩
      · simp only [Stubs.cell, Stubs.sock, hs.proto, hs.pcb]
      · exact absurd rfl hj

/-! ### Steps and runs -/

variable {u v : Pcbs} {a : PcbAct}

theorem lwip_of_append (h : (Table.next ⟨s, []⟩ o).stubs.lwip = s.lwip ++ calls) :
    o.lwip s = calls := by
  rw [Call.lwip, h, List.drop_left]

/-- A step whose calls of lwIP succeed, with the pcbs they leave. -/
theorem next_call {h : Handles.Heap SocketProto ℤ}
    (hr : u.heap.run ((o.lwip u.stubs).map LwipCall.op) = some h) :
    u.Sound (.call o) v ∧ u.next (.call o) = ⟨(Table.next ⟨u.stubs, []⟩ o).stubs, h⟩ := by
  simp [Pcbs.Sound, Pcbs.next, hr]

theorem given_out {pcb : ℕ} (hc : u.Contract (.call o)) (hg : o.given = some pcb) :
    ∃ arg, u.heap.out pcb = some (.tcp, arg) := by
  cases o with
  | tcpRecvCallback arg tpcb p err =>
    obtain rfl : tpcb = pcb := by simpa [Call.given] using hg
    exact ⟨arg, hc⟩
  | _ => cases hg

/-- What one step does: it touches no pcb that has been freed, and as long as every pcb is within
reach, only the creates and the connects can put one out of it. -/
theorem step_owned (ho : u.Owned) (hs : u.Step a v) :
    u.Sound a v ∧ v.Owned ∧ (u.Reached → (u.Vacant a v ↔ v.Reached)) := by
  obtain ⟨hheld, hnext⟩ := ho
  obtain ⟨hcontract, rfl⟩ := hs
  cases a with
  | tcpErr pcb err =>
    obtain ⟨arg, hout⟩ := hcontract
    obtain ⟨hnone, hother⟩ := cell_tcpErrCallback (s := u.stubs) arg err
    have hstubs : (u.next (.tcpErr pcb err)).stubs = tcpErrCallback u.stubs arg err := by
      simp [Pcbs.next, hout]
    refine ⟨trivial, ⟨?_, ?_⟩, fun hr => ?_⟩
    · rw [hstubs]
      exact hheld.drop hout hnone hother
    · rw [hstubs]
      simp only [tcpErrCallback]
      split <;> exact hnext
    · rw [Pcbs.Reached, hstubs]
      exact iff_of_true trivial ((Kept.drop_iff hheld (hr _ _ _ hout) hnone hother).mpr hr)
  | call o =>
    have herr : ∀ arg err, o ≠ .tcpErrCallback arg err := by
      rintro arg err rfl
      exact hcontract
    generalize ht : (Table.next ⟨u.stubs, []⟩ o).stubs = t
    have hdeed : Deed u.stubs o t := ht ▸ deed_next u.stubs herr
    cases hdeed with
    | uses calls hv hm hcell hops =>
      have hr : u.heap.run ((o.lwip u.stubs).map LwipCall.op) = some u.heap := by
        rw [lwip_of_append (ht ▸ hm.lwip)]
        apply Handles.run_uses
        intro op hop
        obtain ⟨c, hc, rfl⟩ := List.mem_map.mp hop
        obtain ⟨proto, pcb, hcop, ⟨id, hid⟩ | ⟨rfl, hgiven⟩⟩ := hops c hc
        · exact ⟨proto, pcb, id, hcop, hheld.out id proto pcb hid⟩
        · obtain ⟨arg, hout⟩ := given_out hcontract hgiven
          exact ⟨.tcp, pcb, arg, hcop, hout⟩
      obtain ⟨hsound, hn⟩ := next_call (v := u.next (.call o)) hr
      have hcell : t.cell = u.stubs.cell := funext hcell
      refine ⟨hsound, ?_, fun hreach => ?_⟩
      · rw [hn, ht]
        exact ⟨by rwa [hcell], hnext.trans hm.pcbNext.symm⟩
      · refine iff_of_true hv ?_
        rw [hn, ht, Pcbs.Reached, hcell]
        exact hreach
    | clears hm hcell hv =>
      have hr : u.heap.run ((o.lwip u.stubs).map LwipCall.op) = some u.heap := by
        rw [lwip_of_append (ht ▸ hm.lwip)]
        rfl
      obtain ⟨hsound, hn⟩ := next_call (v := u.next (.call o)) hr
      refine ⟨hsound, ?_, fun hreach => ?_⟩
      · rw [hn, ht]
        exact ⟨hheld.clear hcell, hnext.trans hm.pcbNext.symm⟩
      · rw [hn, ht, Pcbs.Reached, Kept.clear_iff hheld hcell, hv]
        exact (and_iff_right hreach).symm
    | creates proto k c hk hop hl hn' hcell hv =>
      have hr : u.heap.run ((o.lwip u.stubs).map LwipCall.op) = some (u.heap.give proto k) := by
        rw [lwip_of_append (ht ▸ hl), List.map_singleton, hop, ← hnext]
        exact Handles.run_give u.heap proto k
      obtain ⟨hsound, hn⟩ := next_call (v := u.next (.call o)) hr
      rw [← hnext] at hcell
      refine ⟨hsound, ?_, fun hreach => ?_⟩
      · rw [hn, ht]
        exact ⟨by rw [hcell]; exact hheld.give proto k, by rw [hn', ← hnext]; rfl⟩
      · rw [hn, ht, Pcbs.Reached, hcell, Kept.give_iff hheld]
        exact hv.trans (and_iff_right hreach).symm
    | closes proto pcb id calls hv hm hpcb hops hnone hother =>
      obtain ⟨ops, hmap, hops⟩ := hops
      have hout := hheld.out id proto pcb hpcb
      have hr : u.heap.run ((o.lwip u.stubs).map LwipCall.op) = some (u.heap.drop pcb) := by
        rw [lwip_of_append (ht ▸ hm.lwip), hmap]
        exact Handles.run_release hout hops
      obtain ⟨hsound, hn⟩ := next_call (v := u.next (.call o)) hr
      refine ⟨hsound, ?_, fun hreach => ?_⟩
      · rw [hn, ht]
        exact ⟨hheld.drop hout hnone hother, hnext.trans hm.pcbNext.symm⟩
      · rw [hn, ht]
        exact iff_of_true hv ((Kept.drop_iff hheld hpcb hnone hother).mpr hreach)

theorem initial_owned : Pcbs.initial.Owned ∧ Pcbs.initial.Reached := by
  have hcell : Stubs.initial.cell = fun _ => none := by
    funext id
    simp [Stubs.cell, Stubs.initial, Stubs.sock, Socket.zero]
  refine ⟨⟨?_, rfl⟩, ?_⟩
  · simp only [Pcbs.initial, hcell]
    exact Handles.held_empty
  · simp only [Pcbs.Reached, Pcbs.initial, hcell]
    exact Handles.kept_empty

variable {xs : List (PcbAct × Pcbs)}

/-- Whatever is called and whatever lwIP calls back, a freed pcb is never touched, none is freed
twice, and none is used as one of the other protocol. -/
theorem pcbs_sound (h : Lts.Run Pcbs.Step .initial xs) :
    Lts.Run Pcbs.Sound .initial xs ∧ Lts.Always Pcbs.Owned .initial xs := by
  have hkeeps := h.keeps (p := Pcbs.Owned) (c := Pcbs.Sound) initial_owned.1 fun u a v ho hs => by
    obtain ⟨hsound, ho', -⟩ := step_owned ho hs
    exact ⟨ho', hsound⟩
  exact hkeeps.symm

/-- A pcb is lost exactly when a create takes a slot that still has one, or when the first WiFi
connect clears the table. -/
theorem pcbs_reached_iff (h : Lts.Run Pcbs.Step .initial xs) :
    Lts.Run Pcbs.Vacant .initial xs ↔ Lts.Always Pcbs.Reached .initial xs := by
  rw [Lts.always_iff, and_iff_right initial_owned.2]
  refine h.congr (p := fun u => u.Owned ∧ u.Reached) initial_owned ?_ ?_
  · rintro u a v ⟨ho, hr⟩ hs
    exact (step_owned ho hs).2.2 hr
  · rintro u a v ⟨ho, -⟩ hs hr
    exact ⟨(step_owned ho hs).2.1, hr⟩

/-- The remote side closes a connection, the slot is taken again, and the error of the old pcb costs
the new socket its own. -/
def reusedSlot : List PcbAct :=
  [.call (.tcpCreate true true), .call (.tcpConnect 0 0 80 errOk),
    .call (.tcpRecvCallback 0 0 none errOk), .call (.tcpCreate true true), .tcpErr 0 (-14),
    .call (.tcpClose 0)]

theorem reusedSlot_run : Lts.Run Pcbs.Step .initial (Lts.trace Pcbs.next .initial reusedSlot) :=
  ⟨⟨trivial, rfl⟩, ⟨trivial, rfl⟩, ⟨by rfl, rfl⟩, ⟨trivial, rfl⟩, ⟨⟨0, rfl⟩, rfl⟩, ⟨trivial, rfl⟩,
    trivial⟩

theorem reusedSlot_sound :
    Lts.Run Pcbs.Sound .initial (Lts.trace Pcbs.next .initial reusedSlot) ∧
      Lts.Always Pcbs.Owned .initial (Lts.trace Pcbs.next .initial reusedSlot) :=
  pcbs_sound reusedSlot_run

theorem reusedSlot_lost :
    ¬ Lts.Always Pcbs.Reached .initial (Lts.trace Pcbs.next .initial reusedSlot) := by
  rw [← pcbs_reached_iff reusedSlot_run]
  rintro ⟨-, -, -, hvacant, -⟩
  have hcell := hvacant 0 rfl
  exact absurd hcell (by decide)

end PicoOcaml.NetStubs
