import PicoOcaml.NetStubs

/-! The receive buffer of one slot, which the callbacks of both protocols fill. -/
namespace PicoOcaml.NetStubs

variable {i : ℤ} {s : Stubs} {sock : Socket}

/-- The first `recv_len` bytes of `recv_buf`. -/
def content (i : ℤ) (s : Stubs) : Bytes := s.load (s.sock i).recvBuf 0 (s.sock i).recvLen

/-- A slot whose receive buffer is a live block of full size. -/
structure Filled (i : ℤ) (s : Stubs) : Prop where
  valid : badId i = false
  capacity : (s.sock i).recvCapacity = maxRecvBuffer
  fits : (s.sock i).recvLen ≤ maxRecvBuffer
  block : ∃ a b, (s.sock i).recvBuf = some a ∧ s.heap a = some b ∧ b.length = maxRecvBuffer

theorem content_eq {a : ℕ} {b : Bytes} (ha : (s.sock i).recvBuf = some a)
    (hb : s.heap a = some b) : content i s = b.take (s.sock i).recvLen := by
  simp [content, Stubs.load, ha, hb]

theorem Filled.content_length (h : Filled i s) : (content i s).length = (s.sock i).recvLen := by
  obtain ⟨a, b, ha, hb, hl⟩ := h.block
  have hf := h.fits
  rw [content_eq ha hb, List.length_take, hl]
  omega

/-- Writing `bytes` behind the content of the block and moving `recv_len` past them. -/
theorem Filled.store (h : Filled i s) (bytes : Bytes)
    (hfit : (s.sock i).recvLen + bytes.length ≤ maxRecvBuffer)
    (hbuf : sock.recvBuf = (s.sock i).recvBuf) (hcap : sock.recvCapacity = maxRecvBuffer)
    (hlen : sock.recvLen = (s.sock i).recvLen + bytes.length) :
    let t := ((s.touch (s.sock i).recvBuf (s.sock i).recvLen bytes.length).store
      (s.sock i).recvBuf (s.sock i).recvLen bytes).setSock i sock
    Filled i t ∧ content i t = content i s ++ bytes := by
  intro t
  obtain ⟨a, b, ha, hb, hl⟩ := h.block
  have hf := h.fits
  have htake : (b.take (s.sock i).recvLen).length = (s.sock i).recvLen := by
    rw [List.length_take]
    omega
  have hsock : t.sock i = sock := by simp [t]
  have hheap : t.heap a = some (b.take (s.sock i).recvLen ++ bytes ++
      b.drop ((s.sock i).recvLen + bytes.length)) := by
    simp only [t, ha, heap_setSock]
    exact heap_store _ _ bytes hb
  have hta : (t.sock i).recvBuf = some a := by rw [hsock, hbuf, ha]
  refine ⟨⟨h.valid, by rw [hsock, hcap], by rw [hsock, hlen]; exact hfit, a, _, hta, hheap, ?_⟩, ?_⟩
  · simp only [List.length_append, htake, List.length_drop]
    omega
  · have hcut : (s.sock i).recvLen + bytes.length = (b.take (s.sock i).recvLen ++ bytes).length := by
      rw [List.length_append, htake]
    rw [content_eq ha hb, content_eq hta hheap, hsock, hlen, hcut, List.take_left]

/-- The copy appends what there is room for. -/
theorem copyToRecvBuf_spec (h : Filled i s) (bytes : Bytes) (mark : Socket → Socket)
    (hm : ∀ k, (mark k).recvBuf = k.recvBuf ∧ (mark k).recvCapacity = k.recvCapacity ∧
      (mark k).recvLen = k.recvLen) :
    let r := copyToRecvBuf s i bytes mark
    let c := min bytes.length (maxRecvBuffer - (s.sock i).recvLen)
    r.1 = c ∧ Filled i r.2 ∧ r.2.lwip = s.lwip ∧
      content i r.2 = content i s ++ bytes.take (maxRecvBuffer - (s.sock i).recvLen) ∧
      r.2.sock i = if 0 < c then mark { s.sock i with recvLen := (s.sock i).recvLen + c }
        else s.sock i := by
  intro r c
  have hf := h.fits
  have hr : r = copyToRecvBuf s i bytes mark := rfl
  have hc : (if bytes.length < (s.sock i).recvCapacity - (s.sock i).recvLen then bytes.length
      else (s.sock i).recvCapacity - (s.sock i).recvLen) = c := by
    rw [h.capacity]
    split <;> omega
  simp only [copyToRecvBuf, hc] at hr
  have hcl : (bytes.take c).length = c := by
    rw [List.length_take]
    omega
  have htake : bytes.take (maxRecvBuffer - (s.sock i).recvLen) = bytes.take c := by
    rw [List.take_eq_take_min, min_comm]
  rw [htake]
  by_cases hpos : 0 < c
  · rw [if_pos hpos] at hr
    obtain ⟨hbuf, hcap, hlen⟩ := hm { s.sock i with recvLen := (s.sock i).recvLen + c }
    have hst := h.store (bytes.take c) (by omega) hbuf (hcap.trans h.capacity)
      (hlen.trans (by rw [hcl]))
    rw [hcl] at hst
    rw [if_pos hpos]
    rw [hr]
    exact ⟨rfl, hst.1, by simp, hst.2, by simp⟩
  · have hz : bytes.take c = [] := by
      rw [show c = 0 by omega, List.take_zero]
    rw [if_neg hpos] at hr
    rw [if_neg hpos, hz, List.append_nil, hr]
    exact ⟨rfl, h, rfl, rfl, rfl⟩

theorem toCInt_of_le {n : ℕ} (h : n ≤ maxRecvBuffer) : toCInt n = n :=
  toCInt_short (Nat.lt_of_le_of_lt h (by decide))

end PicoOcaml.NetStubs
