import PicoOcaml.Lts
import PicoOcaml.NetStubs.Frame

/-! Handles and slots: which sockets the program holds, and who overwrites what they refer to. -/
namespace PicoOcaml.NetStubs

/-- The calls of the program and the callbacks of lwIP, with the answers of what they call. -/
inductive Call
  | wifiConnect (result : ℤ)
  | wifiDisconnect
  | tcpCreate (mallocOk tcpNewOk : Bool)
  | tcpConnect (id : ℤ) (ip : Word) (port : BitVec 16) (err : ℤ)
  | tcpWrite (id : ℤ) (data : Bytes) (len : ℕ) (err : ℤ)
  | tcpRead (id : ℤ) (maxLen : ℕ)
  | tcpClose (id : ℤ)
  | udpCreate (mallocOk udpNewOk : Bool)
  | udpBind (id : ℤ) (port : BitVec 16) (err : ℤ)
  | udpSendto (id : ℤ) (ip : Word) (port : BitVec 16) (data : Bytes) (len : ℕ) (pbufOk : Bool)
      (err : ℤ)
  | udpRecvfrom (id : ℤ) (maxLen : ℕ)
  | udpClose (id : ℤ)
  | tcpRecvCallback (arg : ℤ) (tpcb : ℕ) (p : Option Bytes) (err : ℤ)
  | tcpSentCallback (arg : ℤ) (len : ℕ)
  | tcpErrCallback (arg err : ℤ)
  | tcpConnectedCallback (arg err : ℤ)
  | udpRecvCallback (arg : ℤ) (p : Option Bytes) (addr : Word) (port : BitVec 16)

/-- The stubs and the sockets the program has created and not yet closed. -/
structure Table where
  stubs : Stubs
  live : List (SocketProto × ℤ)

def Table.initial : Table := ⟨Stubs.initial, []⟩

/-- A create that does not fail adds the handle it returns. -/
def Table.created (u : Table) (proto : SocketProto) (r : ℤ × Stubs) : Table :=
  ⟨r.2, if r.1 < 0 then u.live else u.live ++ [(proto, r.1)]⟩

def Table.next (u : Table) : Call → Table
  | .wifiConnect result => { u with stubs := (wifiConnect u.stubs result).2 }
  | .wifiDisconnect => { u with stubs := wifiDisconnect u.stubs }
  | .tcpCreate mallocOk tcpNewOk => u.created .tcp (picoTcpCreate u.stubs mallocOk tcpNewOk)
  | .tcpConnect id ip port err => { u with stubs := (picoTcpConnect u.stubs id ip port err).2 }
  | .tcpWrite id data len err => { u with stubs := (picoTcpWrite u.stubs id data len err).2 }
  | .tcpRead id maxLen => { u with stubs := (picoTcpRead u.stubs id maxLen).2 }
  | .tcpClose id => ⟨picoTcpClose u.stubs id, u.live.erase (.tcp, id)⟩
  | .udpCreate mallocOk udpNewOk => u.created .udp (picoUdpCreate u.stubs mallocOk udpNewOk)
  | .udpBind id port err => { u with stubs := (picoUdpBind u.stubs id port err).2 }
  | .udpSendto id ip port data len pbufOk err =>
    { u with stubs := (picoUdpSendto u.stubs id ip port data len pbufOk err).2 }
  | .udpRecvfrom id maxLen => { u with stubs := (picoUdpRecvfrom u.stubs id maxLen).2 }
  | .udpClose id => ⟨picoUdpClose u.stubs id, u.live.erase (.udp, id)⟩
  | .tcpRecvCallback arg tpcb p err =>
    { u with stubs := (tcpRecvCallback u.stubs arg tpcb p err).2 }
  | .tcpSentCallback arg len => { u with stubs := (tcpSentCallback u.stubs arg len).2 }
  | .tcpErrCallback arg err => { u with stubs := tcpErrCallback u.stubs arg err }
  | .tcpConnectedCallback arg err => { u with stubs := (tcpConnectedCallback u.stubs arg err).2 }
  | .udpRecvCallback arg p addr port => { u with stubs := udpRecvCallback u.stubs arg p addr port }

/-- No two live sockets share a `sock_id`. -/
def Table.Unique (u : Table) : Prop := (u.live.map Prod.snd).Nodup

instance (u : Table) : Decidable u.Unique := inferInstanceAs (Decidable (List.Nodup _))

def Call.Closes : Call → SocketProto × ℤ → Prop
  | .tcpClose id, h => h = (.tcp, id)
  | .udpClose id, h => h = (.udp, id)
  | _, _ => False

/-- The pointers of a live socket stay as they are unless it is closed, or lwIP reports that it
has freed the pcb. -/
def Table.KeepsLive (u : Table) (o : Call) (v : Table) : Prop :=
  ∀ h ∈ u.live, o.Closes h ∨
    ((v.stubs.sock h.2).recvBuf = (u.stubs.sock h.2).recvBuf ∧
      ((v.stubs.sock h.2).pcb = (u.stubs.sock h.2).pcb ∨
        ∃ err, o = .tcpErrCallback h.2 err ∧ (v.stubs.sock h.2).pcb = none))

/-- A create takes a slot that no live socket has, and nothing is live when the table is
cleared. -/
def Table.Safe (u : Table) (o : Call) (_ : Table) : Prop :=
  match o with
  | .tcpCreate _ _ | .udpCreate _ _ =>
    ∀ k, firstClosed u.stubs = some k → (k : ℤ) ∉ u.live.map Prod.snd
  | .wifiConnect _ => u.stubs.netInitialized = true ∨ u.live = []
  | _ => True

/-- A live handle refers to a slot of its protocol that owns a buffer. -/
structure Table.Owns (s : Stubs) (h : SocketProto × ℤ) : Prop where
  valid : badId h.2 = false
  proto : (s.sock h.2).proto = h.1
  buffer : ∃ a < s.heapNext, (s.sock h.2).recvBuf = some a

structure Table.Inv (u : Table) : Prop where
  unique : u.Unique
  owns : ∀ h ∈ u.live, Table.Owns u.stubs h

/-! ### Steps and runs -/

variable {s t : Stubs} {u v : Table} {o : Call}

/-- What every step but a close leaves of a live socket. -/
structure Held (o : Call) (h : SocketProto × ℤ) (s t : Stubs) : Prop where
  proto : (t.sock h.2).proto = (s.sock h.2).proto
  buffer : (t.sock h.2).recvBuf = (s.sock h.2).recvBuf
  heapNext : s.heapNext ≤ t.heapNext
  pcb : (t.sock h.2).pcb = (s.sock h.2).pcb ∨
    ∃ err, o = .tcpErrCallback h.2 err ∧ (t.sock h.2).pcb = none

theorem Same.held {h : SocketProto × ℤ} (hs : Same h.2.toNat s t) : Held o h s t :=
  ⟨hs.proto, hs.buffer, hs.heapNext, Or.inl hs.pcb⟩

/-- One safe step does to a live socket only what its own close may do. -/
theorem next_held (hi : u.Inv) (hs : u.Safe o v) {h : SocketProto × ℤ} (hh : h ∈ u.live) :
    o.Closes h ∨ Held o h u.stubs (u.next o).stubs := by
  obtain ⟨proto, j⟩ := h
  obtain ⟨hj, hproto, -⟩ := hi.owns _ hh
  have hmem : j ∈ u.live.map Prod.snd := List.mem_map_of_mem (f := Prod.snd) hh
  simp only at hj hproto
  cases o with
  | wifiConnect result =>
    rcases hs with hs | hs
    · refine Or.inr (Same.held ?_)
      simp only [Table.next, wifiConnect, netInit, hs, if_true]
      split
      · exact Same.refl.enqueue _
      · exact Same.refl
    · rw [hs] at hh
      cases hh
  | wifiDisconnect => exact Or.inr (Same.held (Same.refl.enqueue _))
  | tcpCreate mallocOk tcpNewOk =>
    refine Or.inr (Same.held ?_)
    cases hk : firstClosed u.stubs with
    | none =>
      simp only [Table.next, Table.created, picoTcpCreate_full hk]
      exact Same.refl
    | some k =>
      exact (picoTcpCreate_taken hk mallocOk tcpNewOk).same hj fun hkj => hs k hk (hkj ▸ hmem)
  | udpCreate mallocOk udpNewOk =>
    refine Or.inr (Same.held ?_)
    cases hk : firstClosed u.stubs with
    | none =>
      simp only [Table.next, Table.created, picoUdpCreate_full hk]
      exact Same.refl
    | some k =>
      exact (picoUdpCreate_taken hk mallocOk udpNewOk).same hj fun hkj => hs k hk (hkj ▸ hmem)
  | tcpConnect id ip port err => exact Or.inr (Same.held (same_picoTcpConnect _ _ _ _))
  | tcpWrite id data len err => exact Or.inr (Same.held (same_picoTcpWrite _ _ _ _))
  | tcpRead id maxLen => exact Or.inr (Same.held (same_picoTcpRead _ _))
  | udpBind id port err => exact Or.inr (Same.held (same_picoUdpBind _ _ _))
  | udpSendto id ip port data len pbufOk err =>
    exact Or.inr (Same.held (same_picoUdpSendto _ _ _ _ _ _ _))
  | udpRecvfrom id maxLen => exact Or.inr (Same.held (same_picoUdpRecvfrom _ _))
  | tcpClose id =>
    by_cases hc : (proto, j) = (.tcp, id)
    · exact Or.inl hc
    · refine Or.inr (Same.held (same_picoTcpClose hj ?_))
      rw [Prod.mk.injEq] at hc
      rw [hproto]
      tauto
  | udpClose id =>
    by_cases hc : (proto, j) = (.udp, id)
    · exact Or.inl hc
    · refine Or.inr (Same.held (same_picoUdpClose hj ?_))
      rw [Prod.mk.injEq] at hc
      rw [hproto]
      tauto
  | tcpRecvCallback arg tpcb p err => exact Or.inr (Same.held (same_tcpRecvCallback _ _ _ _))
  | tcpSentCallback arg len => exact Or.inr (Same.held (Same.refl.enqueue _))
  | tcpConnectedCallback arg err => exact Or.inr (Same.held (same_tcpConnectedCallback _ _))
  | udpRecvCallback arg p addr port => exact Or.inr (Same.held (same_udpRecvCallback _ _ _ _))
  | tcpErrCallback arg err =>
    right
    rcases tcpErrCallback_slot (s := u.stubs) hj arg err with hs | ⟨rfl, hs⟩
    · exact Same.held hs
    · simp only [Table.next, hs]
      exact ⟨by simp, by simp, le_rfl, Or.inr ⟨err, rfl, by simp⟩⟩

theorem Held.owns {h : SocketProto × ℤ} (hh : Held o h s t) (ho : Table.Owns s h) :
    Table.Owns t h := by
  obtain ⟨a, ha, hb⟩ := ho.buffer
  exact ⟨ho.valid, hh.proto.trans ho.proto, a, ha.trans_le hh.heapNext, hh.buffer.trans hb⟩

theorem Taken.owns {proto : SocketProto} {k : ℕ} {p : ℤ × Stubs} (h : Taken proto k s p)
    (hk : badId k = false) (hp : ¬ p.1 < 0) : Table.Owns p.2 (proto, p.1) := by
  rcases h.outcome with ⟨h1, hproto, hheap, hbuf⟩ | ⟨h1, -⟩
  · rw [h1]
    exact ⟨hk, hproto, s.heapNext, by omega, hbuf⟩
  · omega

/-- A live socket after a step was live before it and not closed by it, or has just been
created. -/
theorem mem_next_live (hu : u.Unique) {h : SocketProto × ℤ} (hh : h ∈ (u.next o).live) :
    (h ∈ u.live ∧ ¬ o.Closes h) ∨ Table.Owns (u.next o).stubs h := by
  have hnd : u.live.Nodup := List.Nodup.of_map _ hu
  have hcreated : ∀ (proto : SocketProto) (p : ℤ × Stubs), h ∈ (u.created proto p).live →
      h ∈ u.live ∨ (¬ p.1 < 0 ∧ h = (proto, p.1)) := by
    intro proto p hm
    simp only [Table.created] at hm
    split at hm
    · exact Or.inl hm
    · rcases List.mem_append.mp hm with hm | hm
      · exact Or.inl hm
      · exact Or.inr ⟨by assumption, List.mem_singleton.mp hm⟩
  cases o with
  | tcpCreate mallocOk tcpNewOk =>
    rcases hcreated _ _ hh with hm | ⟨hp, rfl⟩
    · exact Or.inl ⟨hm, id⟩
    · right
      cases hk : firstClosed u.stubs with
      | none => simp [picoTcpCreate_full hk] at hp
      | some k => exact (picoTcpCreate_taken hk _ _).owns (firstClosed_valid hk) hp
  | udpCreate mallocOk udpNewOk =>
    rcases hcreated _ _ hh with hm | ⟨hp, rfl⟩
    · exact Or.inl ⟨hm, id⟩
    · right
      cases hk : firstClosed u.stubs with
      | none => simp [picoUdpCreate_full hk] at hp
      | some k => exact (picoUdpCreate_taken hk _ _).owns (firstClosed_valid hk) hp
  | tcpClose id =>
    obtain ⟨hne, hm⟩ := hnd.mem_erase_iff.mp hh
    exact Or.inl ⟨hm, hne⟩
  | udpClose id =>
    obtain ⟨hne, hm⟩ := hnd.mem_erase_iff.mp hh
    exact Or.inl ⟨hm, hne⟩
  | _ => exact Or.inl ⟨hh, id⟩

theorem created_unique {proto : SocketProto} {p : ℤ × Stubs} (hu : u.Unique)
    (hp : ¬ p.1 < 0 → p.1 ∉ u.live.map Prod.snd) : (u.created proto p).Unique := by
  simp only [Table.Unique, Table.created]
  split
  · exact hu
  · rename_i h
    rw [List.map_append, List.nodup_append]
    refine ⟨hu, by simp, ?_⟩
    rintro a ha b hb rfl
    simp only [List.map_cons, List.map_nil, List.mem_singleton] at hb
    exact hp h (hb ▸ ha)

theorem erase_unique (hu : u.Unique) (h : SocketProto × ℤ) :
    ((u.live.erase h).map Prod.snd).Nodup :=
  List.Nodup.sublist (List.Sublist.map _ List.erase_sublist) hu

theorem next_unique (hu : u.Unique) (hs : u.Safe o v) : (u.next o).Unique := by
  cases o with
  | tcpCreate mallocOk tcpNewOk =>
    apply created_unique hu
    intro hp
    cases hk : firstClosed u.stubs with
    | none => simp [picoTcpCreate_full hk] at hp
    | some k =>
      rcases (picoTcpCreate_taken hk mallocOk tcpNewOk).outcome with ⟨h1, -⟩ | ⟨h1, -⟩
      · rw [h1]
        exact hs k hk
      · omega
  | udpCreate mallocOk udpNewOk =>
    apply created_unique hu
    intro hp
    cases hk : firstClosed u.stubs with
    | none => simp [picoUdpCreate_full hk] at hp
    | some k =>
      rcases (picoUdpCreate_taken hk mallocOk udpNewOk).outcome with ⟨h1, -⟩ | ⟨h1, -⟩
      · rw [h1]
        exact hs k hk
      · omega
  | tcpClose id => exact erase_unique hu _
  | udpClose id => exact erase_unique hu _
  | _ => exact hu

theorem next_tableInv (hi : u.Inv) (hs : u.Safe o v) : (u.next o).Inv := by
  refine ⟨next_unique hi.unique hs, fun h hh => ?_⟩
  rcases mem_next_live hi.unique hh with ⟨hm, hc⟩ | ho
  · rcases next_held hi hs hm with hcl | hheld
    · exact absurd hcl hc
    · exact hheld.owns (hi.owns h hm)
  · exact ho

/-- Taking the slot of a live socket changes its buffer pointer. -/
theorem Taken.overwrites {proto : SocketProto} {k : ℕ} {p : ℤ × Stubs} (ht : Taken proto k s p)
    {h : SocketProto × ℤ} (ho : Table.Owns s h) (hk : h.2 = k) :
    (p.2.sock h.2).recvBuf ≠ (s.sock h.2).recvBuf := by
  obtain ⟨a, ha, hb⟩ := ho.buffer
  intro heq
  rw [hb, hk] at heq
  simp only [Stubs.sock, Int.toNat_natCast] at heq
  rcases ht.outcome with ⟨-, -, -, h1⟩ | ⟨-, h1⟩
  · rw [h1, Option.some.injEq] at heq
    omega
  · rw [h1] at heq
    cases heq

theorem safe_of_keepsLive (hi : u.Inv) (hk : u.KeepsLive o (u.next o)) : u.Safe o v := by
  cases o with
  | tcpCreate mallocOk tcpNewOk =>
    intro k hfirst hmem
    obtain ⟨h, hh, hhk⟩ := List.mem_map.mp hmem
    rcases hk h hh with hc | ⟨hb, -⟩
    · exact hc
    · exact (picoTcpCreate_taken hfirst mallocOk tcpNewOk).overwrites (hi.owns h hh) hhk hb
  | udpCreate mallocOk udpNewOk =>
    intro k hfirst hmem
    obtain ⟨h, hh, hhk⟩ := List.mem_map.mp hmem
    rcases hk h hh with hc | ⟨hb, -⟩
    · exact hc
    · exact (picoUdpCreate_taken hfirst mallocOk udpNewOk).overwrites (hi.owns h hh) hhk hb
  | wifiConnect result =>
    by_cases hinit : u.stubs.netInitialized = true
    · exact Or.inl hinit
    · right
      apply List.eq_nil_iff_forall_not_mem.mpr
      intro h hh
      obtain ⟨a, -, ha⟩ := (hi.owns h hh).buffer
      rcases hk h hh with hc | ⟨hb, -⟩
      · exact hc
      · have hzero : ((u.next (.wifiConnect result)).stubs.sock h.2).recvBuf = none := by
          simp only [Table.next, wifiConnect, netInit, if_neg hinit]
          split <;> rfl
        rw [hzero, ha] at hb
        cases hb
  | _ => trivial

theorem safe_iff (hi : u.Inv) : u.Safe o (u.next o) ↔
    (u.next o).Unique ∧ u.KeepsLive o (u.next o) := by
  constructor
  · intro hs
    refine ⟨next_unique hi.unique hs, fun h hh => ?_⟩
    rcases next_held hi hs hh with hc | hheld
    · exact Or.inl hc
    · exact Or.inr ⟨hheld.buffer, hheld.pcb⟩
  · rintro ⟨-, hk⟩
    exact safe_of_keepsLive hi hk

theorem initial_inv : Table.initial.Inv := by
  constructor
  · exact List.nodup_nil
  · intro h hh
    cases hh

/-- Whatever is called, sockets stay apart exactly when every create finds its first closed slot
unused and the first WiFi connect finds no socket. -/
theorem slots_unique_iff (calls : List Call) :
    let xs := Lts.trace Table.next Table.initial calls
    Lts.Run Table.Safe Table.initial xs ↔
      Lts.Always Table.Unique Table.initial xs ∧ Lts.Run Table.KeepsLive Table.initial xs := by
  intro xs
  have hcongr : Lts.Run Table.Safe Table.initial xs ↔
      Lts.Run (fun u o v => Table.Unique v ∧ Table.KeepsLive u o v) Table.initial xs := by
    refine Lts.run_trace.congr (p := Table.Inv) initial_inv ?_ ?_
    · rintro u o v hi rfl
      exact safe_iff hi
    · rintro u o v hi rfl hd
      exact next_tableInv hi ((safe_iff hi).mpr hd)
  have hand : Lts.Run (fun u o v => Table.Unique v ∧ Table.KeepsLive u o v) Table.initial xs ↔
      Lts.Run (fun _ _ v => Table.Unique v) Table.initial xs ∧
        Lts.Run Table.KeepsLive Table.initial xs := Lts.run_and
  rw [hcongr, hand, Lts.always_iff, and_iff_right initial_inv.unique]

/-- Two creates in a row return the same slot. -/
theorem slots_shared :
    ¬ ∀ calls, let xs := Lts.trace Table.next Table.initial calls
      Lts.Always Table.Unique Table.initial xs ∧ Lts.Run Table.KeepsLive Table.initial xs := by
  intro h
  obtain ⟨⟨-, hu⟩, -⟩ := h [.tcpCreate true true, .tcpCreate true true]
  have hlast := hu _ (List.mem_cons_of_mem _ (List.mem_singleton_self _))
  exact absurd hlast (by decide)

end PicoOcaml.NetStubs
