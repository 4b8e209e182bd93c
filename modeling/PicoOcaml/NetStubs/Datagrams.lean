import PicoOcaml.Lts
import PicoOcaml.NetStubs.Frame
import PicoOcaml.NetStubs.RecvBuffer

/-! The datagrams of one open UDP socket: `udp_recv_callback` appends them to one buffer under one
source address, and `pico_udp_recvfrom` empties the buffer. -/
namespace PicoOcaml.NetStubs

structure Datagram where
  bytes : Bytes
  ip : Word
  port : BitVec 16
deriving DecidableEq

/-- The stubs and three histories: the datagrams the callback has been given, the numbers of those
with bytes in the buffer, and the numbers of those whose bytes a call has taken from it. -/
structure Inbox where
  stubs : Stubs
  arrived : List Datagram
  stored : List ℕ
  delivered : List ℕ

inductive InboxOp
  | datagram (dg : Datagram)
  | recvfrom (maxLen : ℕ)

variable {i : ℤ} {s : Stubs} {u v : Inbox} {o : InboxOp} {maxLen : ℕ} {dg : Datagram}

def Inbox.received (i : ℤ) (u : Inbox) (dg : Datagram) : Stubs :=
  udpRecvCallback u.stubs i (some dg.bytes) dg.ip dg.port

def Inbox.next (i : ℤ) (u : Inbox) : InboxOp → Inbox
  | .datagram dg =>
    { u with
      stubs := u.received i dg
      arrived := u.arrived ++ [dg]
      stored := if ((u.received i dg).sock i).recvLen = (u.stubs.sock i).recvLen then u.stored
        else u.stored ++ [u.arrived.length] }
  | .recvfrom maxLen =>
    let r := picoUdpRecvfrom u.stubs i maxLen
    if 0 < r.1.1 then ⟨r.2, u.arrived, [], u.delivered ++ u.stored⟩ else { u with stubs := r.2 }

/-- A call that returns something returns the first bytes of one datagram with its own source,
later than all datagrams returned before, and no other datagram leaves the buffer with it. -/
def Inbox.Delivers (i : ℤ) (u : Inbox) (o : InboxOp) (_ : Inbox) : Prop :=
  ∀ maxLen, o = .recvfrom maxLen →
    let r := (picoUdpRecvfrom u.stubs i maxLen).1
    0 < r.1 → ∃ k dg, u.arrived[k]? = some dg ∧ r.2.1 = dg.bytes.take r.1.toNat ∧
      r.1.toNat ≤ dg.bytes.length ∧ r.2.2 = (dg.ip, dg.port) ∧ (∀ j ∈ u.delivered, j < k) ∧
      ∀ j ∈ u.stored, j = k

/-- A call finds bytes of one datagram at most. -/
def Inbox.Alone (u : Inbox) (o : InboxOp) (_ : Inbox) : Prop :=
  ∀ maxLen, o = .recvfrom maxLen → 0 < maxLen → u.stored.length ≤ 1

/-- An open socket that has received nothing. -/
structure Inbox.Fresh (i : ℤ) (u : Inbox) : Prop where
  filled : Filled i u.stubs
  proto : (u.stubs.sock i).proto = .udp
  empty : (u.stubs.sock i).recvLen = 0
  arrived : u.arrived = []
  stored : u.stored = []
  delivered : u.delivered = []

/-- The buffer is empty when no datagram is stored, begins with the first one, and holds the only
one. -/
structure Inbox.Inv (i : ℤ) (u : Inbox) : Prop where
  filled : Filled i u.stubs
  proto : (u.stubs.sock i).proto = .udp
  stored_iff : u.stored = [] ↔ (u.stubs.sock i).recvLen = 0
  order : (u.delivered ++ u.stored).Pairwise (· < ·)
  bound : ∀ j ∈ u.delivered ++ u.stored, j < u.arrived.length
  single : ∀ k, u.stored = [k] → ∃ dg, u.arrived[k]? = some dg ∧
    content i u.stubs = dg.bytes.take maxRecvBuffer ∧
    ((u.stubs.sock i).udpSrcIp, (u.stubs.sock i).udpSrcPort) = (dg.ip, dg.port)
  first : ∀ k ks, u.stored = k :: ks → ∃ dg, u.arrived[k]? = some dg ∧
    dg.bytes.take maxRecvBuffer <+: content i u.stubs

/-! ### The two functions -/

theorem udpRecvCallback_spec (h : Filled i s) (dg : Datagram) :
    let t := udpRecvCallback s i (some dg.bytes) dg.ip dg.port
    let c := min dg.bytes.length (maxRecvBuffer - (s.sock i).recvLen)
    Filled i t ∧ t.lwip = s.lwip ∧
      content i t = content i s ++ dg.bytes.take (maxRecvBuffer - (s.sock i).recvLen) ∧
      t.sock i = if 0 < c then
          { s.sock i with
            recvLen := (s.sock i).recvLen + c, udpSrcIp := dg.ip, udpSrcPort := dg.port }
        else s.sock i := by
  obtain ⟨-, hfill, hlwip, hcont, hsock⟩ := copyToRecvBuf_spec h dg.bytes
    (fun sock => { sock with udpSrcIp := dg.ip, udpSrcPort := dg.port }) fun _ => ⟨rfl, rfl, rfl⟩
  simp only [udpRecvCallback, h.valid, Bool.false_eq_true, if_false]
  exact ⟨⟨hfill.valid, hfill.capacity, hfill.fits, hfill.block⟩, hlwip, hcont, hsock⟩

/-- A call that finds bytes takes the first ones and empties the buffer. -/
theorem picoUdpRecvfrom_spec (h : Filled i s) (hp : (s.sock i).proto = .udp) (maxLen : ℕ) :
    let r := picoUdpRecvfrom s i maxLen
    let n := min (s.sock i).recvLen maxLen
    r.1.1 = n ∧ r.1.2.1 = (content i s).take n ∧ r.2.lwip = s.lwip ∧
      (0 < n → r.1.2.2 = ((s.sock i).udpSrcIp, (s.sock i).udpSrcPort) ∧
        Filled i r.2 ∧ r.2.sock i = { s.sock i with recvLen := 0 }) ∧
      (n = 0 → r.2 = s) := by
  intro r n
  have hf := h.fits
  have hr : r = picoUdpRecvfrom s i maxLen := rfl
  have hn : (if (s.sock i).recvLen < maxLen then (s.sock i).recvLen else maxLen) = n := by
    split <;> omega
  simp only [picoUdpRecvfrom, h.valid, hp, hn, ne_eq, not_true_eq_false, Bool.false_eq_true,
    if_false] at hr
  by_cases hpos : 0 < n
  · rw [if_pos hpos] at hr
    obtain ⟨a, b, ha, hb, hl⟩ := h.block
    have hint : toCInt n = n := toCInt_of_le (le_trans (min_le_left _ _) hf)
    have hload : s.load (s.sock i).recvBuf 0 n = (content i s).take n := by
      simp only [content, Stubs.load, ha, hb, Option.bind_some, List.drop_zero, List.take_take]
      rw [min_eq_left (min_le_left _ _)]
    rw [hr]
    refine ⟨hint, hload, rfl, fun _ => ⟨rfl, ?_, by simp [hp]⟩, fun h0 => by omega⟩
    exact ⟨h.valid, by simpa using h.capacity, by simp, a, b, by simpa using ha, hb, hl⟩
  · rw [if_neg hpos] at hr
    have h0 : n = 0 := by omega
    rw [hr, h0]
    exact ⟨rfl, rfl, rfl, fun h0 => absurd h0 (lt_irrefl 0), fun _ => rfl⟩

/-! ### Runs -/

theorem next_datagram (h : Filled i u.stubs) (dg : Datagram) :
    let v := u.next i (.datagram dg)
    let c := min dg.bytes.length (maxRecvBuffer - (u.stubs.sock i).recvLen)
    Filled i v.stubs ∧ v.arrived = u.arrived ++ [dg] ∧ v.delivered = u.delivered ∧
      ((c = 0 ∧ v.stubs.sock i = u.stubs.sock i ∧ content i v.stubs = content i u.stubs ∧
          v.stored = u.stored) ∨
        (0 < c ∧ v.stored = u.stored ++ [u.arrived.length] ∧
          v.stubs.sock i = { u.stubs.sock i with
            recvLen := (u.stubs.sock i).recvLen + c, udpSrcIp := dg.ip, udpSrcPort := dg.port } ∧
          content i v.stubs = content i u.stubs ++
            dg.bytes.take (maxRecvBuffer - (u.stubs.sock i).recvLen))) := by
  intro v c
  obtain ⟨hfill, -, hcont, hsock⟩ := udpRecvCallback_spec h dg
  refine ⟨hfill, rfl, rfl, ?_⟩
  by_cases hpos : 0 < c
  · right
    rw [if_pos hpos] at hsock
    have hne : ¬ ((u.received i dg).sock i).recvLen = (u.stubs.sock i).recvLen := by
      simp only [Inbox.received, hsock]
      omega
    exact ⟨hpos, if_neg hne, hsock, hcont⟩
  · left
    rw [if_neg hpos] at hsock
    have heq : ((u.received i dg).sock i).recvLen = (u.stubs.sock i).recvLen := by
      simp only [Inbox.received, hsock]
    have hnil : dg.bytes.take (maxRecvBuffer - (u.stubs.sock i).recvLen) = [] := by
      rw [List.take_eq_nil_iff, ← List.length_eq_zero_iff]
      omega
    rw [hnil, List.append_nil] at hcont
    exact ⟨by omega, hsock, hcont, if_pos heq⟩

theorem datagram_inv (h : u.Inv i) (dg : Datagram) : (u.next i (.datagram dg)).Inv i := by
  obtain ⟨hfill, harr, hdel, hcase⟩ := next_datagram h.filled dg
  have hbound : ∀ j ∈ u.delivered ++ u.stored, j < (u.arrived ++ [dg]).length := by
    intro j hj
    rw [List.length_append]
    exact Nat.lt_add_right _ (h.bound j hj)
  have hkeep : ∀ {k : ℕ} {d : Datagram}, u.arrived[k]? = some d →
      (u.next i (.datagram dg)).arrived[k]? = some d := by
    intro k d hd
    rw [harr]
    exact List.getElem?_append_left (List.getElem?_eq_some_iff.mp hd).1 ▸ hd
  have hempty : u.stored = [] → (u.stubs.sock i).recvLen = 0 ∧ content i u.stubs = [] := by
    intro hnil
    have hlen := h.stored_iff.mp hnil
    exact ⟨hlen, List.eq_nil_of_length_eq_zero (h.filled.content_length.trans hlen)⟩
  have hnew : (u.next i (.datagram dg)).arrived[u.arrived.length]? = some dg := by
    rw [harr, List.getElem?_concat_length]
  rcases hcase with ⟨-, hsock, hcont, hst⟩ | ⟨hpos, hst, hsock, hcont⟩
  · refine ⟨hfill, by rw [hsock]; exact h.proto, by rw [hst, hsock]; exact h.stored_iff,
      by rw [hst, hdel]; exact h.order, by rw [hst, hdel, harr]; exact hbound, ?_, ?_⟩
    · intro k hk
      obtain ⟨d, hd, hc, hsrc⟩ := h.single k (hst ▸ hk)
      exact ⟨d, hkeep hd, by rw [hcont, hc], by rw [hsock, hsrc]⟩
    · intro k ks hk
      obtain ⟨d, hd, hpre⟩ := h.first k ks (hst ▸ hk)
      exact ⟨d, hkeep hd, by rwa [hcont]⟩
  · refine ⟨hfill, by rw [hsock]; exact h.proto, ?_, ?_, ?_, ?_, ?_⟩
    · rw [hst, hsock]
      exact iff_of_false (by simp) (Nat.ne_of_gt (Nat.add_pos_right _ hpos))
    · rw [hst, hdel, ← List.append_assoc, List.pairwise_append]
      refine ⟨h.order, List.pairwise_singleton _ _, ?_⟩
      intro a ha b hb
      rw [List.mem_singleton.mp hb]
      exact h.bound a ha
    · rw [hst, hdel, harr, ← List.append_assoc]
      intro j hj
      rcases List.mem_append.mp hj with hj | hj
      · exact hbound j hj
      · rw [List.mem_singleton.mp hj]
        simp
    · intro k hk
      rw [hst] at hk
      rcases List.append_eq_singleton_iff.mp hk with ⟨hnil, hks⟩ | ⟨-, hks⟩
      · obtain ⟨hlen, hcnil⟩ := hempty hnil
        obtain ⟨rfl, -⟩ := List.cons.inj hks
        refine ⟨dg, hnew, ?_, by rw [hsock]⟩
        rw [hcont, hcnil, hlen, List.nil_append, Nat.sub_zero]
      · cases hks
    · intro k ks hk
      rw [hst] at hk
      rcases List.append_eq_cons_iff.mp hk with ⟨hnil, hks⟩ | ⟨as, has, -⟩
      · obtain ⟨hlen, hcnil⟩ := hempty hnil
        obtain ⟨rfl, -⟩ := List.cons.inj hks
        refine ⟨dg, hnew, ?_⟩
        rw [hcont, hcnil, hlen]
        exact List.prefix_rfl
      · obtain ⟨d, hd, hpre⟩ := h.first k as has
        refine ⟨d, hkeep hd, ?_⟩
        rw [hcont]
        exact hpre.trans (List.prefix_append _ _)

theorem recvfrom_inv (h : u.Inv i) (maxLen : ℕ) : (u.next i (.recvfrom maxLen)).Inv i := by
  obtain ⟨hn, -, -, htake, hsame⟩ := picoUdpRecvfrom_spec h.filled h.proto maxLen
  by_cases hpos : 0 < min (u.stubs.sock i).recvLen maxLen
  · obtain ⟨-, hfill, hsock⟩ := htake hpos
    have hpos' : 0 < (picoUdpRecvfrom u.stubs i maxLen).1.1 := by omega
    simp only [Inbox.next, if_pos hpos']
    refine ⟨hfill, by rw [hsock]; exact h.proto, by simp [hsock], by simpa using h.order,
      by simpa using h.bound, by simp, by simp⟩
  · have hpos' : ¬ 0 < (picoUdpRecvfrom u.stubs i maxLen).1.1 := by omega
    simp only [Inbox.next, if_neg hpos', hsame (by omega)]
    exact h

theorem inbox_inv (h : u.Inv i) (o : InboxOp) : (u.next i o).Inv i := by
  cases o with
  | datagram dg => exact datagram_inv h dg
  | recvfrom maxLen => exact recvfrom_inv h maxLen

/-- With bytes of one datagram in the buffer, a call returns the front of that datagram. -/
theorem delivers_of_single (h : u.Inv i) {k : ℕ} (hk : u.stored = [k]) : u.Delivers i o v := by
  rintro maxLen rfl r hpos
  obtain ⟨hn, hbytes, -, htake, -⟩ := picoUdpRecvfrom_spec h.filled h.proto maxLen
  obtain ⟨dg, hdg, hcont, hsrc⟩ := h.single k hk
  have hmin : r.1 = min (u.stubs.sock i).recvLen maxLen := hn
  obtain ⟨hsource, -⟩ := htake (by omega)
  have hlen := h.filled.content_length
  rw [hcont, List.length_take] at hlen
  have hle : r.1.toNat ≤ min maxRecvBuffer dg.bytes.length := by omega
  refine ⟨k, dg, hdg, ?_, hle.trans (min_le_right _ _), ?_, ?_, ?_⟩
  · have hr : r.2.1 = (content i u.stubs).take r.1.toNat := by
      rw [hmin, Int.toNat_natCast]
      exact hbytes
    rw [hr, hcont, List.take_take, min_eq_left (hle.trans (min_le_left _ _))]
  · exact hsource.trans hsrc
  · intro j hj
    have hord := (List.pairwise_append.mp h.order).2.2 j hj k
    exact hord (hk ▸ List.mem_singleton_self k)
  · intro j hj
    rw [hk] at hj
    exact List.mem_singleton.mp hj

theorem alone_iff (h : u.Inv i) : u.Alone o v ↔ u.Delivers i o v := by
  constructor
  · rintro ha maxLen rfl r hpos
    obtain ⟨hn, -, -⟩ := picoUdpRecvfrom_spec h.filled h.proto maxLen
    have hmin : r.1 = min (u.stubs.sock i).recvLen maxLen := hn
    have hone := ha maxLen rfl (by omega)
    have hne : u.stored ≠ [] := by
      intro hnil
      have h0 := h.stored_iff.mp hnil
      omega
    obtain ⟨k, hk⟩ := List.length_eq_one_iff.mp
      (le_antisymm hone (List.length_pos_iff.mpr hne))
    exact delivers_of_single (v := v) h hk maxLen rfl hpos
  · rintro hd maxLen rfl hmax
    by_contra hlong
    obtain ⟨hn, -, -⟩ := picoUdpRecvfrom_spec h.filled h.proto maxLen
    have hne : u.stored ≠ [] := by
      rintro hnil
      simp [hnil] at hlong
    have hpos : (u.stubs.sock i).recvLen ≠ 0 := fun h0 => hne (h.stored_iff.mpr h0)
    obtain ⟨k, -, -, -, -, -, -, hall⟩ := hd maxLen rfl (by omega)
    -- two stored datagrams have two numbers
    have hord := (List.pairwise_append.mp h.order).2.1
    obtain ⟨a, as, hs⟩ := List.exists_cons_of_ne_nil hne
    rw [hs] at hord hall hlong
    cases as with
    | nil => simp at hlong
    | cons b rest =>
      have hab := List.rel_of_pairwise_cons hord (List.mem_cons_self (l := rest) (a := b))
      have ha := hall a (by simp)
      have hb := hall b (by simp)
      omega

theorem fresh_inbox (h : u.Fresh i) : u.Inv i := by
  refine ⟨h.filled, h.proto, iff_of_true h.stored h.empty, ?_, ?_, ?_, ?_⟩
  · rw [h.delivered, h.stored]
    exact List.Pairwise.nil
  · rw [h.delivered, h.stored]
    simp
  · intro k hk
    rw [h.stored] at hk
    cases hk
  · intro k ks hk
    rw [h.stored] at hk
    cases hk

/-- The calls of a run return one datagram each, in order and with its source, exactly when each
of them finds bytes of one datagram at most. -/
theorem datagrams_iff (h : u.Fresh i) (ops : List InboxOp) :
    let xs := Lts.trace (Inbox.next i) u ops
    Lts.Run Inbox.Alone u xs ↔ Lts.Run (Inbox.Delivers i) u xs := by
  intro xs
  refine Lts.run_trace.congr (p := Inbox.Inv i) (fresh_inbox h) ?_ ?_
  · rintro u o v hu rfl
    exact alone_iff hu
  · rintro u o v hu rfl -
    exact inbox_inv hu o

/-- A successful create leaves an empty buffer in the slot it returns. -/
theorem picoUdpCreate_spec {k : ℕ} (h : firstClosed s = some k) :
    let r := picoUdpCreate s true true
    r.1 = k ∧ r.2.lwip = s.lwip ++ [.udpRecv s.pcbNext k] ∧
      r.2.heap s.heapNext = some (List.replicate maxRecvBuffer 0) ∧
      r.2.sock k = ⟨.udp, .connected, some s.pcbNext, some s.heapNext, 0, maxRecvBuffer, 0, 0⟩ := by
  have hpos : ¬ ((k : ℤ) < 0) := by omega
  simp only [picoUdpCreate, socketAlloc, h, Stubs.malloc, if_true, if_neg hpos, Bool.not_true,
    Bool.false_eq_true, if_false]
  refine ⟨trivial, rfl, ?_, ?_⟩
  · simp [Stubs.setSock, Stubs.call]
  · simp [Stubs.setSock, Stubs.sock, Stubs.call, Socket.zero]

/-- A socket that `pico_udp_create` has just opened. -/
theorem udpOpened_fresh {k : ℕ} (h : firstClosed s = some k) :
    Inbox.Fresh k ⟨(picoUdpCreate s true true).2, [], [], []⟩ := by
  obtain ⟨-, -, hheap, hsock⟩ := picoUdpCreate_spec h
  refine ⟨⟨firstClosed_valid h, ?_, ?_, _, _, ?_, hheap, List.length_replicate⟩, ?_, ?_, rfl, rfl,
    rfl⟩ <;> simp [hsock]

/-- A socket opened in an empty table. -/
def openedInbox : Inbox := ⟨(picoUdpCreate Stubs.initial true true).2, [], [], []⟩

theorem openedInbox_fresh : openedInbox.Fresh 0 := udpOpened_fresh (k := 0) rfl

/-- Two datagrams, with a call after each. -/
theorem datagrams_apart :
    Lts.Run (Inbox.Delivers 0) openedInbox (Lts.trace (Inbox.next 0) openedInbox
      [.datagram ⟨[1, 2, 3], 7, 8⟩, .recvfrom 2, .datagram ⟨[4], 9, 10⟩, .recvfrom 48]) := by
  refine (datagrams_iff openedInbox_fresh _).mp ⟨?_, ?_, ?_, ?_, trivial⟩
  all_goals
    rintro maxLen ho -
    cases ho
  · decide
  · decide

/-- Two datagrams before the first call are returned as one, under the second one's source. -/
theorem datagrams_merged :
    ¬ ∀ (i : ℤ) (u : Inbox) (ops : List InboxOp), u.Fresh i →
      Lts.Run (Inbox.Delivers i) u (Lts.trace (Inbox.next i) u ops) := by
  intro h
  obtain ⟨-, -, hcall, -⟩ := h 0 openedInbox
    [.datagram ⟨[1, 2], 7, 8⟩, .datagram ⟨[3], 9, 10⟩, .recvfrom 48] openedInbox_fresh
  obtain ⟨k, dg, hdg, -, hle, -⟩ := hcall 48 rfl (by decide)
  have hmem : dg ∈ [⟨[1, 2], 7, 8⟩, ⟨[3], 9, 10⟩] := List.mem_of_getElem? hdg
  rcases List.mem_pair.mp hmem with rfl | rfl
  · exact absurd hle (by decide)
  · exact absurd hle (by decide)

/-! ### Up to the first call that returns something -/

def Inbox.arrive (i : ℤ) (u : Inbox) (dgs : List Datagram) : Inbox :=
  dgs.foldl (fun u dg => u.next i (.datagram dg)) u

/-- What one datagram makes of the room in the buffer and of the datagrams it has bytes of. -/
def keep (b : ℕ × List Datagram) (dg : Datagram) : ℕ × List Datagram :=
  let c := min dg.bytes.length b.1
  if 0 < c then (b.1 - c, b.2 ++ [dg]) else b

/-- The datagrams that an empty buffer keeps bytes of. -/
def kept (dgs : List Datagram) : List Datagram := (dgs.foldl keep (maxRecvBuffer, [])).2

theorem kept_concat (dgs : List Datagram) (dg : Datagram) :
    kept (dgs ++ [dg]) = (keep (dgs.foldl keep (maxRecvBuffer, [])) dg).2 := by
  rw [kept, List.foldl_concat]

/-- Nothing has been taken from the buffer yet. -/
structure Inbox.Unread (i : ℤ) (u : Inbox) : Prop where
  inv : u.Inv i
  delivered : u.delivered = []
  room : (u.arrived.foldl keep (maxRecvBuffer, [])).1 = maxRecvBuffer - (u.stubs.sock i).recvLen
  stored : u.stored.map (u.arrived[·]?) = (kept u.arrived).map some

theorem fresh_unread (h : u.Fresh i) : u.Unread i := by
  refine ⟨fresh_inbox h, h.delivered, ?_, ?_⟩
  · rw [h.arrived, h.empty]
    rfl
  · rw [h.arrived, h.stored]
    rfl

theorem datagram_unread (h : u.Unread i) (dg : Datagram) :
    (u.next i (.datagram dg)).Unread i := by
  obtain ⟨-, harr, hdel, hcase⟩ := next_datagram h.inv.filled dg
  have hinv := datagram_inv h.inv dg
  have hold : u.stored.map ((u.arrived ++ [dg])[·]?) = (kept u.arrived).map some := by
    rw [← h.stored]
    apply List.map_congr_left
    intro j hj
    exact List.getElem?_append_left (h.inv.bound j (List.mem_append_right _ hj))
  have hroom := h.room
  rcases hcase with ⟨hzero, hsock, -, hst⟩ | ⟨hpos, hst, hsock, -⟩
  · have hkeep : keep (u.arrived.foldl keep (maxRecvBuffer, [])) dg =
        u.arrived.foldl keep (maxRecvBuffer, []) := by
      rw [keep, hroom, hzero]
      rfl
    refine ⟨hinv, hdel.trans h.delivered, ?_, ?_⟩
    · rw [harr, hsock, List.foldl_concat, hkeep, hroom]
    · rw [harr, hst, hold, kept_concat, hkeep]
      rfl
  · have hkeep : keep (u.arrived.foldl keep (maxRecvBuffer, [])) dg =
        (maxRecvBuffer - (u.stubs.sock i).recvLen -
          min dg.bytes.length (maxRecvBuffer - (u.stubs.sock i).recvLen),
          kept u.arrived ++ [dg]) := by
      rw [keep, hroom, if_pos hpos]
      rfl
    refine ⟨hinv, hdel.trans h.delivered, ?_, ?_⟩
    · rw [harr, hsock, List.foldl_concat, hkeep]
      exact Nat.sub_sub _ _ _
    · rw [harr, hst, List.map_append, hold, kept_concat, hkeep]
      simp

theorem arrive_unread (h : u.Unread i) (dgs : List Datagram) :
    (u.arrive i dgs).Unread i ∧ (u.arrive i dgs).arrived = u.arrived ++ dgs := by
  induction dgs generalizing u with
  | nil => exact ⟨h, (List.append_nil _).symm⟩
  | cons dg dgs ih =>
    obtain ⟨hu, harr⟩ := ih (datagram_unread h dg)
    refine ⟨hu, harr.trans ?_⟩
    exact List.append_assoc _ _ _

/-- A call on an empty buffer changes nothing. -/
theorem recvfrom_empty (h : u.Inv i) (hst : u.stored = []) (maxLen : ℕ) :
    (picoUdpRecvfrom u.stubs i maxLen).1.1 = 0 ∧ u.next i (.recvfrom maxLen) = u := by
  obtain ⟨hn, -, -, -, hsame⟩ := picoUdpRecvfrom_spec h.filled h.proto maxLen
  have h0 := h.stored_iff.mp hst
  have hzero : (picoUdpRecvfrom u.stubs i maxLen).1.1 = 0 := by omega
  refine ⟨hzero, ?_⟩
  simp only [Inbox.next, hzero, lt_irrefl, if_false, hsame (by omega)]

end PicoOcaml.NetStubs
