import PicoOcaml.NetStubs.Frame

/-! The pcb and the state of a slot: which functions of the stubs change them, callbacks and
connects apart. -/
namespace PicoOcaml.NetStubs

/-- The slot keeps its protocol, its pcb and its state. -/
structure Unmoved (n : ℕ) (s t : Stubs) : Prop where
  proto : (t.sockets n).proto = (s.sockets n).proto
  pcb : (t.sockets n).pcb = (s.sockets n).pcb
  state : (t.sockets n).state = (s.sockets n).state

/-- Each slot stays as it is, or its pcb is gone, or it has a new one. -/
structure Steady (s t : Stubs) : Prop where
  next : s.pcbNext ≤ t.pcbNext
  slot : ∀ n, Unmoved n s t ∨ (t.sockets n).pcb = none ∨
    ∃ p, (t.sockets n).pcb = some p ∧ s.pcbNext ≤ p ∧ p < t.pcbNext

variable {s t r : Stubs} {i : ℤ} {sock : Socket}

theorem Unmoved.trans {n : ℕ} (h : Unmoved n s t) (h' : Unmoved n t r) : Unmoved n s r :=
  ⟨h'.proto.trans h.proto, h'.pcb.trans h.pcb, h'.state.trans h.state⟩

theorem Steady.of_sockets (hs : t.sockets = s.sockets) (hn : t.pcbNext = s.pcbNext) : Steady s t :=
  ⟨hn.ge, fun n => .inl ⟨by rw [hs], by rw [hs], by rw [hs]⟩⟩

theorem Steady.refl : Steady s s := .of_sockets rfl rfl

theorem Steady.trans (h : Steady s t) (h' : Steady t r) : Steady s r := by
  have hn := h.next
  have hn' := h'.next
  refine ⟨hn.trans hn', fun n => ?_⟩
  rcases h'.slot n with hu' | hgone | ⟨p, hp, hlo, hhi⟩
  · rcases h.slot n with hu | hgone | ⟨p, hp, hlo, hhi⟩
    · exact .inl (hu.trans hu')
    · exact .inr (.inl (hu'.pcb.trans hgone))
    · exact .inr (.inr ⟨p, hu'.pcb.trans hp, hlo, by omega⟩)
  · exact .inr (.inl hgone)
  · exact .inr (.inr ⟨p, hp, by omega, hhi⟩)

theorem Steady.setSock (h : (sock.proto = (s.sock i).proto ∧ sock.pcb = (s.sock i).pcb ∧
    sock.state = (s.sock i).state) ∨ sock.pcb = none) : Steady s (s.setSock i sock) := by
  refine ⟨Nat.le_refl _, fun n => ?_⟩
  by_cases hn : n = i.toNat
  · subst hn
    rcases h with ⟨hp, hc, hs⟩ | hgone
    · exact .inl ⟨by simpa [Stubs.setSock, Stubs.sock] using hp,
        by simpa [Stubs.setSock, Stubs.sock] using hc,
        by simpa [Stubs.setSock, Stubs.sock] using hs⟩
    · exact .inr (.inl (by simpa [Stubs.setSock] using hgone))
  · exact .inl ⟨by simp [Stubs.setSock, hn], by simp [Stubs.setSock, hn], by simp [Stubs.setSock, hn]⟩

theorem Steady.enqueue (h : Steady s t) (e : NetEvent) : Steady s (t.enqueue e) :=
  h.trans (.of_sockets rfl rfl)

theorem Steady.call (h : Steady s t) (c : LwipCall) : Steady s (t.call c) :=
  h.trans (.of_sockets rfl rfl)

theorem steady_socketFree (id : ℤ) : Steady s (socketFree s id) := by
  simp only [socketFree]
  split
  · exact .refl
  · cases (s.sock id).recvBuf with
    | none => exact .setSock (.inr rfl)
    | some a => exact Steady.trans (t := s.free a) (.of_sockets rfl rfl) (.setSock (.inr rfl))

/-- A create fails for want of a slot, of memory or of a pcb. -/
theorem picoTcpCreate_failed (s : Stubs) (mallocOk newOk : Bool) :
    (picoTcpCreate s mallocOk newOk).1 = -1 ↔
      firstClosed s = none ∨ mallocOk = false ∨ newOk = false := by
  cases hk : firstClosed s with
  | none => simp [picoTcpCreate_full hk]
  | some k =>
    have hpos : ¬ ((k : ℤ) < 0) := by omega
    have hne : ¬ ((k : ℤ) = -1) := by omega
    cases mallocOk with
    | false => simp [picoTcpCreate, socketAlloc, hk, Stubs.malloc]
    | true =>
      cases newOk with
      | false => simp [picoTcpCreate, socketAlloc, hk, Stubs.malloc, hpos]
      | true => simp [picoTcpCreate, socketAlloc, hk, Stubs.malloc, hpos, hne]

theorem ClosedBy.steady {proto : SocketProto} {id : ℤ} (h : ClosedBy proto s id t) : Steady s t := by
  rcases h with rfl | ⟨hid, hp, lwip, rfl⟩
  · exact .refl
  · exact Steady.trans (t := { s with lwip := lwip }) (.of_sockets rfl rfl) (steady_socketFree id)

end PicoOcaml.NetStubs
