import PicoOcaml.Locked
import PicoOcaml.NetStubs.Stream
import PicoOcaml.OcamlStubs.Mutex

/-! The sections under `net_lock`, a byte at a time: what the receive callbacks store and what the
reads take. -/
namespace PicoOcaml.NetStubs.NetLock

/-- The section of a callback or of a read, on one of the open sockets; `kind` says which these are
and of which protocol. -/
inductive Job (kind : ℤ → Option SocketProto)
  | tcpRecv (i : {i // kind i = some .tcp}) (bytes : Bytes)
  | udpRecv (i : {i // kind i = some .udp}) (bytes : Bytes) (addr : Word) (port : BitVec 16)
  | tcpRead (i : {i // kind i = some .tcp}) (maxLen : ℕ)
  | udpRecvfrom (i : {i // kind i = some .udp}) (maxLen : ℕ)

/-- The next access of a section; `k` counts the bytes that have been copied. -/
inductive Place
  | start
  | copy (k : ℕ)
  | load (k : ℕ)
  | shift (k : ℕ)
  | source
  | shrink
  | state
  | done

variable {kind : ℤ → Option SocketProto}

/-- The locals of a call: `count` is `to_copy` or `to_read`, `buf` what the caller's buffer got, and
`state`, `ip` and `port` what has been read of the socket. -/
structure Own (kind : ℤ → Option SocketProto) where
  job : Option (Job kind)
  place : Place
  count : ℕ
  buf : Bytes
  state : SocketState
  ip : Word
  port : BitVec 16

def Own.idle : Own kind := ⟨none, .done, 0, [], .closed, 0, 0⟩

def Own.goto (o : Own kind) (place : Place) : Own kind := { o with place := place }

def enter (job : Job kind) (_ : Own kind) : Own kind := ⟨some job, .start, 0, [], .closed, 0, 0⟩

/-- One byte of `pbuf_copy_partial` or of `memmove`. -/
def storeByte (s : Stubs) (p : Option ℕ) (off : ℕ) (byte : Bytes) : Stubs :=
  (s.touch p off 1).store p off byte

/-- `"Copy data to receive buffer"`. -/
def recvBody (i : ℤ) (bytes : Bytes) (mark : Socket → Socket) (o : Own kind) (s : Stubs) :
    Option (Own kind × Stubs) :=
  let sock := s.sock i
  match o.place with
  | .start =>
    let space := sock.recvCapacity - sock.recvLen
    let toCopy := if bytes.length < space then bytes.length else space
    some ({ o with count := toCopy, place := if toCopy > 0 then .copy 0 else .done }, s)
  | .copy k =>
    if k < o.count then
      some (o.goto (.copy (k + 1)),
        storeByte s sock.recvBuf (sock.recvLen + k) ((bytes.drop k).take 1))
    else
      some (o.goto .done,
        s.setSock i (mark { sock with recvLen := sock.recvLen + o.count }))
  | _ => none

def tcpReadBody (i : ℤ) (maxLen : ℕ) (o : Own kind) (s : Stubs) : Option (Own kind × Stubs) :=
  let sock := s.sock i
  match o.place with
  | .start =>
    let toRead := if sock.recvLen < maxLen then sock.recvLen else maxLen
    some ({ o with count := toRead, place := if toRead > 0 then .load 0 else .state }, s)
  | .load k =>
    if k < o.count then
      some ({ o with buf := o.buf ++ s.load sock.recvBuf k 1, place := .load (k + 1) },
        s.touch sock.recvBuf k 1)
    else some (o.goto (if o.count < sock.recvLen then .shift 0 else .shrink), s)
  | .shift k =>
    if k < sock.recvLen - o.count then
      some (o.goto (.shift (k + 1)),
        storeByte (s.touch sock.recvBuf (o.count + k) 1) sock.recvBuf k
          (s.load sock.recvBuf (o.count + k) 1))
    else some (o.goto .shrink, s)
  | .shrink =>
    some (o.goto .state, s.setSock i { sock with recvLen := sock.recvLen - o.count })
  | .state => some ({ o with state := sock.state, place := .done }, s)
  | _ => none

def udpRecvfromBody (i : ℤ) (maxLen : ℕ) (o : Own kind) (s : Stubs) : Option (Own kind × Stubs) :=
  let sock := s.sock i
  match o.place with
  | .start =>
    let toRead := if sock.recvLen < maxLen then sock.recvLen else maxLen
    some ({ o with count := toRead, place := if toRead > 0 then .load 0 else .done }, s)
  | .load k =>
    if k < o.count then
      some ({ o with buf := o.buf ++ s.load sock.recvBuf k 1, place := .load (k + 1) },
        s.touch sock.recvBuf k 1)
    else some (o.goto .source, s)
  | .source => some ({ o with ip := sock.udpSrcIp, port := sock.udpSrcPort, place := .shrink }, s)
  | .shrink => some (o.goto .done, s.setSock i { sock with recvLen := 0 })
  | _ => none

/-- The UDP callback notes the sender. -/
def mark (addr : Word) (port : BitVec 16) (sock : Socket) : Socket :=
  { sock with udpSrcIp := addr, udpSrcPort := port }

def body (o : Own kind) (s : Stubs) : Option (Own kind × Stubs) :=
  match o.job with
  | none => none
  | some (.tcpRecv i bytes) => recvBody i bytes id o s
  | some (.udpRecv i bytes addr port) => recvBody i bytes (mark addr port) o s
  | some (.tcpRead i maxLen) => tcpReadBody i maxLen o s
  | some (.udpRecvfrom i maxLen) => udpRecvfromBody i maxLen o s

def code (kind : ℤ → Option SocketProto) : Locked.Code (Job kind) (Own kind) Stubs := ⟨enter, body⟩

/-! ### Sections at once -/

/-- What the functions of the stubs make of a job, and the values they find. -/
def outcome (job : Job kind) (_ : Own kind) (s : Stubs) : Own kind × Stubs :=
  match job with
  | .tcpRecv i bytes =>
    let r := copyToRecvBuf s i bytes id
    (⟨some job, .done, r.1, [], .closed, 0, 0⟩, r.2)
  | .udpRecv i bytes addr port =>
    let r := copyToRecvBuf s i bytes (mark addr port)
    (⟨some job, .done, r.1, [], .closed, 0, 0⟩, r.2)
  | .tcpRead i maxLen =>
    let toRead := if (s.sock i).recvLen < maxLen then (s.sock i).recvLen else maxLen
    (⟨some job, .done, toRead, s.load (s.sock i).recvBuf 0 toRead, (s.sock i).state, 0, 0⟩,
      (picoTcpRead s i maxLen).2)
  | .udpRecvfrom i maxLen =>
    let r := picoUdpRecvfrom s i maxLen
    let toRead := if (s.sock i).recvLen < maxLen then (s.sock i).recvLen else maxLen
    (⟨some job, .done, toRead, r.1.2.1, .closed, r.1.2.2.1, r.1.2.2.2⟩, r.2)

/-- The open sockets have their buffers. -/
def Open (kind : ℤ → Option SocketProto) (s : Stubs) : Prop :=
  ∀ i proto, kind i = some proto → Filled i s ∧ (s.sock i).proto = proto

abbrev Reaches (x y : Own kind × Stubs) : Prop :=
  Relation.ReflTransGen (fun x y => (code kind).body x.1 x.2 = some y) x y

variable {s : Stubs} {i : ℤ} {a off n : ℕ} {b : Bytes} {o : Own kind}

theorem touch_inBlock {p : Option ℕ} {len : ℕ} (h : s.inBlock p off len = true) :
    s.touch p off len = s := by
  simp [Stubs.touch, h]

theorem store_nil {p : Option ℕ} : s.store p off [] = s := by
  cases p with
  | none => rfl
  | some a =>
    have hmap : (s.heap a).map (fun b => b.take off ++ [] ++ b.drop (off + ([] : Bytes).length)) =
        s.heap a := by
      cases s.heap a <;> simp
    simp only [Stubs.store, hmap, Function.update_eq_self]

/-- Storing the next byte behind those that are already there. -/
theorem store_snoc (hb : s.heap a = some b) (off : ℕ) (bytes byte : Bytes)
    (hoff : off + bytes.length ≤ b.length) :
    (s.store (some a) off bytes).store (some a) (off + bytes.length) byte =
      s.store (some a) off (bytes ++ byte) := by
  have hlen : (b.take off ++ bytes).length = off + bytes.length := by
    rw [List.length_append, List.length_take]
    omega
  simp only [Stubs.store, hb, Option.map_some, Function.update_self, Function.update_idem]
  rw [List.take_left' hlen, ← hlen, List.drop_append, List.drop_of_length_le (by omega), hlen,
    List.drop_drop, List.length_append, List.append_assoc, List.append_assoc, List.append_assoc,
    List.append_assoc, List.nil_append, Nat.add_sub_cancel_left, Nat.add_assoc]

/-- A load takes what the store in front of it has not touched. -/
theorem load_store (hb : s.heap a = some b) {bytes : Bytes} (off n : ℕ) (hlen : bytes.length ≤ off)
    (hoff : off ≤ b.length) :
    (s.store (some a) 0 bytes).load (some a) off n = s.load (some a) off n := by
  obtain ⟨k, rfl⟩ := Nat.exists_eq_add_of_le hlen
  have hdrop : (b.take 0 ++ bytes ++ b.drop (0 + bytes.length)).drop (bytes.length + k) =
      b.drop (bytes.length + k) := by
    rw [List.take_zero, List.nil_append, Nat.zero_add, List.drop_append,
      List.drop_of_length_le (by omega), Nat.add_sub_cancel_left, List.drop_drop, List.nil_append]
  simp only [Stubs.load, Stubs.store, hb, Option.map_some, Option.bind_some, Function.update_self,
    hdrop]

theorem load_snoc (hb : s.heap a = some b) (off k : ℕ) :
    s.load (some a) off k ++ s.load (some a) (off + k) 1 = s.load (some a) off (k + 1) := by
  simp only [Stubs.load, hb, Option.bind_some]
  rw [← List.drop_drop, List.take_add]

theorem load_length (hb : s.heap a = some b) (off n : ℕ) (h : off + n ≤ b.length) :
    (s.load (some a) off n).length = n := by
  simp only [Stubs.load, hb, Option.bind_some, List.length_take, List.length_drop]
  omega

theorem inBlock_of_le (hb : s.heap a = some b) (off n : ℕ) (h : off + n ≤ b.length) :
    s.inBlock (some a) off n = true := by
  simp [Stubs.inBlock, hb, h]

/-- The heap after a store that stays in its block. -/
theorem heap_store_length (hb : s.heap a = some b) (off : ℕ) (bytes : Bytes)
    (h : off + bytes.length ≤ b.length) : ∃ b', (s.store (some a) off bytes).heap a = some b' ∧
      b'.length = b.length := by
  refine ⟨_, heap_store s off bytes hb, ?_⟩
  rw [List.length_append, List.length_append, List.length_take, List.length_drop]
  omega

/-! ### The loops -/

/-- The bytes of a segment go into the buffer one by one. -/
theorem reaches_copy (bytes : Bytes) (hbody : ∀ k s, k < o.count → body (o.goto (.copy k)) s =
      some (o.goto (.copy (k + 1)),
        storeByte s (s.sock i).recvBuf ((s.sock i).recvLen + k) ((bytes.drop k).take 1)))
    (ha : (s.sock i).recvBuf = some a) (hb : s.heap a = some b)
    (hfit : (s.sock i).recvLen + o.count ≤ b.length) (hcount : o.count ≤ bytes.length)
    {k : ℕ} (hk : k ≤ o.count) :
    Reaches (o.goto (.copy 0), s)
      (o.goto (.copy k), s.store (some a) (s.sock i).recvLen (bytes.take k)) := by
  induction k with
  | zero =>
    rw [List.take_zero, store_nil]
  | succ k ih =>
    refine (ih (by omega)).tail ?_
    have htake : (bytes.take k).length = k := by
      rw [List.length_take]
      omega
    obtain ⟨b', hb', hlen⟩ :=
      heap_store_length hb (s.sock i).recvLen (bytes.take k) (by omega)
    have hin := inBlock_of_le hb' ((s.sock i).recvLen + k) 1 (by omega)
    have hstore := store_snoc hb (s.sock i).recvLen (bytes.take k) ((bytes.drop k).take 1)
      (by omega)
    rw [htake, ← List.take_add] at hstore
    refine (hbody k _ (by omega)).trans ?_
    simp only [sock_store, ha, storeByte, touch_inBlock hin, hstore]

/-- The bytes of the buffer go to the caller one by one. -/
theorem reaches_load (hbody : ∀ buf k, k < o.count → body ({ o with buf := buf }.goto (.load k)) s =
      some ({ o with buf := buf ++ s.load (s.sock i).recvBuf k 1 }.goto (.load (k + 1)),
        s.touch (s.sock i).recvBuf k 1))
    (ha : (s.sock i).recvBuf = some a) (hb : s.heap a = some b) (hfit : o.count ≤ b.length)
    {k : ℕ} (hk : k ≤ o.count) :
    Reaches ({ o with buf := [] }.goto (.load 0), s)
      ({ o with buf := s.load (some a) 0 k }.goto (.load k), s) := by
  induction k with
  | zero =>
    have hzero : s.load (some a) 0 0 = [] := by simp [Stubs.load, hb]
    rw [hzero]
  | succ k ih =>
    refine (ih (by omega)).tail ?_
    have hin := inBlock_of_le hb k 1 (by omega)
    have hload := load_snoc hb 0 k
    rw [Nat.zero_add] at hload
    refine (hbody _ k (by omega)).trans ?_
    rw [ha, hload, touch_inBlock hin]

/-- The bytes that stay move to the front one by one. -/
theorem reaches_shift (hbody : ∀ k s, k < (s.sock i).recvLen - o.count →
      body (o.goto (.shift k)) s = some (o.goto (.shift (k + 1)),
        storeByte (s.touch (s.sock i).recvBuf (o.count + k) 1) (s.sock i).recvBuf k
          (s.load (s.sock i).recvBuf (o.count + k) 1)))
    (ha : (s.sock i).recvBuf = some a) (hb : s.heap a = some b) (hfit : (s.sock i).recvLen ≤ b.length)
    {k : ℕ} (hk : k ≤ (s.sock i).recvLen - o.count) :
    Reaches (o.goto (.shift 0), s)
      (o.goto (.shift k), s.store (some a) 0 (s.load (some a) o.count k)) := by
  induction k with
  | zero =>
    have hzero : s.load (some a) o.count 0 = [] := by simp [Stubs.load, hb]
    rw [hzero, store_nil]
  | succ k ih =>
    refine (ih (by omega)).tail ?_
    have hlen := load_length hb o.count k (by omega)
    obtain ⟨b', hb', hlen'⟩ :=
      heap_store_length hb 0 (s.load (some a) o.count k) (by omega)
    have hload := load_store hb (o.count + k) 1 (show (s.load (some a) o.count k).length ≤ _ by omega)
      (by omega)
    have hstore := store_snoc hb 0 (s.load (some a) o.count k)
      (s.load (some a) (o.count + k) 1) (by omega)
    rw [hlen, load_snoc hb, Nat.zero_add] at hstore
    refine (hbody k _ (by rw [sock_store]; exact hk)).trans ?_
    have hin := inBlock_of_le hb' (o.count + k) 1 (by omega)
    have hin' := inBlock_of_le hb' k 1 (by omega)
    simp only [sock_store, ha, storeByte, touch_inBlock hin, touch_inBlock hin', hload, hstore]

/-! ### The sections -/

/-- The buffer that a copy of `c` bytes leaves, before `recv_len` is raised. -/
def copied (s : Stubs) (i : ℤ) (bytes : Bytes) (c : ℕ) : Stubs :=
  s.store (s.sock i).recvBuf (s.sock i).recvLen (bytes.take c)

theorem copyToRecvBuf_eq (h : Filled i s) {bytes : Bytes} {f : Socket → Socket} {c : ℕ}
    (hc : c = if bytes.length < (s.sock i).recvCapacity - (s.sock i).recvLen then bytes.length
      else (s.sock i).recvCapacity - (s.sock i).recvLen) :
    copyToRecvBuf s i bytes f = (c, if c > 0 then (copied s i bytes c).setSock i
      (f { s.sock i with recvLen := (s.sock i).recvLen + c }) else s) := by
  obtain ⟨a, b, ha, hb, hl⟩ := h.block
  have hfits := h.fits
  have hcap := h.capacity
  have hle : (s.sock i).recvLen + c ≤ maxRecvBuffer := by
    rw [hc]
    split <;> omega
  have hin := inBlock_of_le hb (s.sock i).recvLen c (by omega)
  simp only [copyToRecvBuf, ← hc, copied, ha, touch_inBlock hin]
  by_cases hpos : c > 0
  · rw [if_pos hpos, if_pos hpos]
  · rw [if_neg hpos, if_neg hpos]

theorem ends_recv {job : Job kind} {bytes : Bytes} {f : Socket → Socket}
    (hjob : ∀ (o : Own kind) (s : Stubs), o.job = some job → body o s = recvBody i bytes f o s)
    (h : Filled i s) :
    Locked.Ends (code kind) ⟨some job, .start, 0, [], .closed, 0, 0⟩ s
      ⟨some job, .done, (copyToRecvBuf s i bytes f).1, [], .closed, 0, 0⟩
      (copyToRecvBuf s i bytes f).2 := by
  obtain ⟨a, b, ha, hb, hl⟩ := h.block
  have hfits := h.fits
  have hcap := h.capacity
  generalize hc : (if bytes.length < (s.sock i).recvCapacity - (s.sock i).recvLen then bytes.length
    else (s.sock i).recvCapacity - (s.sock i).recvLen) = c
  have hle : c ≤ bytes.length ∧ (s.sock i).recvLen + c ≤ maxRecvBuffer := by
    rw [← hc]
    split <;> omega
  have hdone : ∀ (n : ℕ) (t : Stubs),
      (code kind).body ⟨some job, .done, n, [], .closed, 0, 0⟩ t = none := fun n t => hjob _ t rfl
  have hstart : (code kind).body ⟨some job, .start, 0, [], .closed, 0, 0⟩ s =
      some (⟨some job, if c > 0 then .copy 0 else .done, c, [], .closed, 0, 0⟩, s) := by
    rw [← hc]
    exact hjob _ s rfl
  rw [copyToRecvBuf_eq h hc.symm]
  by_cases hpos : c > 0
  · rw [if_pos hpos] at hstart ⊢
    have hloop := reaches_copy (o := ⟨some job, .done, c, [], .closed, 0, 0⟩) (s := s) (i := i)
      bytes (fun k t hk => (hjob _ t rfl).trans (if_pos hk)) ha hb (by simp only; omega)
      hle.1 (Nat.le_refl c)
    have hgrow : (code kind).body ⟨some job, .copy c, c, [], .closed, 0, 0⟩ (copied s i bytes c) =
        some (⟨some job, .done, c, [], .closed, 0, 0⟩, (copied s i bytes c).setSock i
          (f { s.sock i with recvLen := (s.sock i).recvLen + c })) := by
      refine (hjob _ _ rfl).trans ?_
      simp only [recvBody, copied, Nat.lt_irrefl, if_false, sock_store]
      rfl
    rw [copied, ha] at hgrow ⊢
    exact .step hstart (.trans hloop (.step hgrow (.done (hdone c _))))
  · rw [if_neg hpos] at hstart ⊢
    exact .step hstart (.done (hdone c s))

/-- The buffer that a read of `c` bytes leaves, before `recv_len` is lowered. -/
def shifted (s : Stubs) (i : ℤ) (c : ℕ) : Stubs :=
  if c < (s.sock i).recvLen then
    s.store (s.sock i).recvBuf 0 (s.load (s.sock i).recvBuf c ((s.sock i).recvLen - c))
  else s

theorem sock_shifted (c : ℕ) (j : ℤ) : (shifted s i c).sock j = s.sock j := by
  rw [shifted]
  split
  · exact sock_store ..
  · rfl

theorem picoTcpRead_eq (h : Buffered i s) {maxLen c : ℕ}
    (hc : c = if (s.sock i).recvLen < maxLen then (s.sock i).recvLen else maxLen) :
    (picoTcpRead s i maxLen).2 = if c > 0 then
      (shifted s i c).setSock i { s.sock i with recvLen := (s.sock i).recvLen - c } else s := by
  obtain ⟨a, b, ha, hb, hl⟩ := h.block
  have hfits := h.fits
  have hle : c ≤ (s.sock i).recvLen := by
    rw [hc]
    split <;> omega
  have hproto : ¬ (s.sock i).proto ≠ .tcp := by simp [h.proto]
  have hin := inBlock_of_le hb 0 c (by omega)
  have hin' := inBlock_of_le hb 0 (s.sock i).recvLen (by omega)
  simp only [picoTcpRead, h.valid, if_neg hproto, Bool.false_eq_true, if_false, ← hc, shifted, ha,
    touch_inBlock hin, touch_inBlock hin']
  rw [apply_ite Prod.snd, ite_id]
  by_cases hpos : c > 0
  · rw [if_pos hpos, if_pos hpos]
  · rw [if_neg hpos, if_neg hpos]

theorem ends_tcpRead {job : Job kind} {maxLen c : ℕ}
    (hjob : ∀ (o : Own kind) (s : Stubs), o.job = some job → body o s = tcpReadBody i maxLen o s)
    (h : Buffered i s)
    (hc : c = if (s.sock i).recvLen < maxLen then (s.sock i).recvLen else maxLen) :
    Locked.Ends (code kind) ⟨some job, .start, 0, [], .closed, 0, 0⟩ s
      ⟨some job, .done, c, s.load (s.sock i).recvBuf 0 c, (s.sock i).state, 0, 0⟩
      (picoTcpRead s i maxLen).2 := by
  obtain ⟨a, b, ha, hb, hl⟩ := h.block
  have hfits := h.fits
  have hle : c ≤ (s.sock i).recvLen := by
    rw [hc]
    split <;> omega
  have hend : ∀ (buf : Bytes) (t : Stubs), (t.sock i).state = (s.sock i).state →
      Locked.Ends (code kind) ⟨some job, .state, c, buf, .closed, 0, 0⟩ t
        ⟨some job, .done, c, buf, (s.sock i).state, 0, 0⟩ t := by
    intro buf t hstate
    have hread : (code kind).body ⟨some job, .state, c, buf, .closed, 0, 0⟩ t =
        some (⟨some job, .done, c, buf, (s.sock i).state, 0, 0⟩, t) := by
      rw [← hstate]
      exact hjob _ t rfl
    exact .step hread (.done (hjob _ t rfl))
  have hstart : (code kind).body ⟨some job, .start, 0, [], .closed, 0, 0⟩ s =
      some (⟨some job, if c > 0 then .load 0 else .state, c, [], .closed, 0, 0⟩, s) := by
    rw [hc]
    exact hjob _ s rfl
  rw [picoTcpRead_eq h hc, ha]
  by_cases hpos : c > 0
  · rw [if_pos hpos] at hstart ⊢
    have hload := reaches_load (o := ⟨some job, .done, c, [], .closed, 0, 0⟩) (s := s) (i := i)
      (fun buf k hk => (hjob _ s rfl).trans (if_pos hk)) ha hb (by simp only; omega) (Nat.le_refl c)
    have hshrink : Locked.Ends (code kind)
        ⟨some job, .shrink, c, s.load (some a) 0 c, .closed, 0, 0⟩ (shifted s i c)
        ⟨some job, .done, c, s.load (some a) 0 c, (s.sock i).state, 0, 0⟩
        ((shifted s i c).setSock i { s.sock i with recvLen := (s.sock i).recvLen - c }) := by
      refine .step ?_ (hend _ _ (by simp))
      refine (hjob _ _ rfl).trans ?_
      simp only [tcpReadBody, sock_shifted]
      rfl
    refine .step hstart (.trans hload ?_)
    have hafter : (code kind).body ⟨some job, .load c, c, s.load (some a) 0 c, .closed, 0, 0⟩ s =
        some (⟨some job, if c < (s.sock i).recvLen then .shift 0 else .shrink, c,
          s.load (some a) 0 c, .closed, 0, 0⟩, s) :=
      (hjob _ s rfl).trans (if_neg (Nat.lt_irrefl c))
    refine .step hafter ?_
    by_cases hlt : c < (s.sock i).recvLen
    · have hshift := reaches_shift (s := s) (i := i)
        (o := ⟨some job, .done, c, s.load (some a) 0 c, .closed, 0, 0⟩)
        (fun k t hk => (hjob _ t rfl).trans (if_pos hk)) ha hb (by omega)
        (Nat.le_refl ((s.sock i).recvLen - c))
      have hshifted : shifted s i c =
          s.store (some a) 0 (s.load (some a) c ((s.sock i).recvLen - c)) := by
        rw [shifted, if_pos hlt, ha]
      rw [if_pos hlt]
      refine .trans hshift (.step ?_ hshrink)
      rw [hshifted]
      refine (hjob _ _ rfl).trans ?_
      simp only [tcpReadBody, Own.goto, sock_store, Nat.lt_irrefl, if_false]
    · have hshifted : shifted s i c = s := by rw [shifted, if_neg hlt]
      rw [if_neg hlt]
      rwa [hshifted] at hshrink ⊢
  · have hzero : s.load (some a) 0 c = [] := by
      have hc0 : c = 0 := by omega
      simp [Stubs.load, hb, hc0]
    rw [if_neg hpos] at hstart ⊢
    rw [hzero]
    exact .step hstart (hend [] s rfl)

theorem picoUdpRecvfrom_eq (h : Filled i s) (hproto : (s.sock i).proto = .udp) {maxLen c : ℕ}
    (hc : c = if (s.sock i).recvLen < maxLen then (s.sock i).recvLen else maxLen) :
    picoUdpRecvfrom s i maxLen = if c > 0 then
      ((toCInt c, s.load (s.sock i).recvBuf 0 c, (s.sock i).udpSrcIp, (s.sock i).udpSrcPort),
        s.setSock i { s.sock i with recvLen := 0 }) else ((0, [], 0, 0), s) := by
  obtain ⟨a, b, ha, hb, hl⟩ := h.block
  have hfits := h.fits
  have hle : c ≤ (s.sock i).recvLen := by
    rw [hc]
    split <;> omega
  have hne : ¬ (s.sock i).proto ≠ .udp := by simp [hproto]
  have hin := inBlock_of_le hb 0 c (by omega)
  simp only [picoUdpRecvfrom, h.valid, if_neg hne, Bool.false_eq_true, if_false, ← hc, ha,
    touch_inBlock hin]

theorem ends_udpRecvfrom {job : Job kind} {maxLen c : ℕ}
    (hjob : ∀ (o : Own kind) (s : Stubs), o.job = some job → body o s = udpRecvfromBody i maxLen o s)
    (h : Filled i s) (hproto : (s.sock i).proto = .udp)
    (hc : c = if (s.sock i).recvLen < maxLen then (s.sock i).recvLen else maxLen) :
    let r := picoUdpRecvfrom s i maxLen
    Locked.Ends (code kind) ⟨some job, .start, 0, [], .closed, 0, 0⟩ s
      ⟨some job, .done, c, r.1.2.1, .closed, r.1.2.2.1, r.1.2.2.2⟩ r.2 := by
  intro r
  obtain ⟨a, b, ha, hb, hl⟩ := h.block
  have hfits := h.fits
  have hle : c ≤ (s.sock i).recvLen := by
    rw [hc]
    split <;> omega
  have hstart : (code kind).body ⟨some job, .start, 0, [], .closed, 0, 0⟩ s =
      some (⟨some job, if c > 0 then .load 0 else .done, c, [], .closed, 0, 0⟩, s) := by
    rw [hc]
    exact hjob _ s rfl
  have hr : r = picoUdpRecvfrom s i maxLen := rfl
  rw [picoUdpRecvfrom_eq h hproto hc] at hr
  by_cases hpos : c > 0
  · rw [if_pos hpos] at hstart hr
    have hload := reaches_load (o := ⟨some job, .done, c, [], .closed, 0, 0⟩) (s := s) (i := i)
      (fun buf k hk => (hjob _ s rfl).trans (if_pos hk)) ha hb (by simp only; omega) (Nat.le_refl c)
    have hafter : (code kind).body ⟨some job, .load c, c, s.load (some a) 0 c, .closed, 0, 0⟩ s =
        some (⟨some job, .source, c, s.load (some a) 0 c, .closed, 0, 0⟩, s) :=
      (hjob _ s rfl).trans (if_neg (Nat.lt_irrefl c))
    have hsource : (code kind).body ⟨some job, .source, c, s.load (some a) 0 c, .closed, 0, 0⟩ s =
        some (⟨some job, .shrink, c, s.load (some a) 0 c, .closed, (s.sock i).udpSrcIp,
          (s.sock i).udpSrcPort⟩, s) := hjob _ s rfl
    have hshrink : (code kind).body ⟨some job, .shrink, c, s.load (some a) 0 c, .closed,
          (s.sock i).udpSrcIp, (s.sock i).udpSrcPort⟩ s =
        some (⟨some job, .done, c, s.load (some a) 0 c, .closed, (s.sock i).udpSrcIp,
          (s.sock i).udpSrcPort⟩, s.setSock i { s.sock i with recvLen := 0 }) := hjob _ s rfl
    rw [hr, ha]
    exact .step hstart (.trans hload (.step hafter (.step hsource (.step hshrink
      (.done (hjob _ _ rfl))))))
  · rw [if_neg hpos] at hstart hr
    rw [hr]
    exact .step hstart (.done (hjob _ _ rfl))

/-! ### The open sockets -/

/-- Blocks keep their lengths. -/
def Blocks (s t : Stubs) : Prop :=
  ∀ a b, s.heap a = some b → ∃ b', t.heap a = some b' ∧ b'.length = b.length

theorem blocks_store {p : Option ℕ} {bytes : Bytes}
    (hp : p = some a) (hb : s.heap a = some b) (h : off + bytes.length ≤ b.length) :
    Blocks s (s.store p off bytes) := by
  subst hp
  intro a' b' hb'
  by_cases haa : a' = a
  · subst haa
    rw [hb] at hb'
    cases hb'
    exact heap_store_length hb off bytes h
  · exact ⟨b', by simpa [Stubs.store, haa] using hb', rfl⟩

theorem open_setSock {proto : SocketProto} {u : Stubs} {sock : Socket} (h : Open kind s)
    (hi : kind i = some proto) (hu : ∀ j, u.sock j = s.sock j) (hblocks : Blocks s u)
    (hproto : sock.proto = (s.sock i).proto) (hbuf : sock.recvBuf = (s.sock i).recvBuf)
    (hcap : sock.recvCapacity = (s.sock i).recvCapacity) (hfits : sock.recvLen ≤ maxRecvBuffer) :
    Open kind (u.setSock i sock) := by
  intro j proto' hj
  obtain ⟨hfill, hp⟩ := h j proto' hj
  obtain ⟨a, b, ha, hb, hl⟩ := hfill.block
  obtain ⟨b', hb', hl'⟩ := hblocks a b hb
  by_cases hji : j = i
  · subst hji
    refine ⟨⟨hfill.valid, ?_, ?_, a, b', ?_, hb', hl'.trans hl⟩, ?_⟩
    · rw [sock_setSock_self, hcap, hfill.capacity]
    · rw [sock_setSock_self]
      exact hfits
    · rw [sock_setSock_self, hbuf, ha]
    · rw [sock_setSock_self, hproto, hp]
  · have hsock : (u.setSock i sock).sock j = s.sock j := by
      have hjv := nonneg_of_valid hfill.valid
      have hiv := nonneg_of_valid (h i proto hi).1.valid
      have hne : j.toNat ≠ i.toNat := by omega
      rw [← hu j]
      simp [Stubs.sock, Stubs.setSock, hne]
    exact ⟨⟨hfill.valid, by rw [hsock, hfill.capacity], by rw [hsock]; exact hfill.fits, a, b',
      by rw [hsock, ha], hb', hl'.trans hl⟩, by rw [hsock, hp]⟩

theorem open_recv {proto : SocketProto} {bytes : Bytes} {f : Socket → Socket} (h : Open kind s)
    (hi : kind i = some proto) (hf : ∀ k, (f k).proto = k.proto ∧ (f k).recvBuf = k.recvBuf ∧
      (f k).recvCapacity = k.recvCapacity ∧ (f k).recvLen = k.recvLen) :
    Open kind (copyToRecvBuf s i bytes f).2 := by
  have hfill := (h i proto hi).1
  obtain ⟨a, b, ha, hb, hl⟩ := hfill.block
  have hfits := hfill.fits
  have hcap := hfill.capacity
  generalize hc : (if bytes.length < (s.sock i).recvCapacity - (s.sock i).recvLen then bytes.length
    else (s.sock i).recvCapacity - (s.sock i).recvLen) = c
  have hle : (s.sock i).recvLen + c ≤ maxRecvBuffer := by
    rw [← hc]
    split <;> omega
  rw [copyToRecvBuf_eq hfill hc.symm]
  by_cases hpos : c > 0
  · obtain ⟨hproto, hbuf, hcap', hlen⟩ := hf { s.sock i with recvLen := (s.sock i).recvLen + c }
    simp only [if_pos hpos]
    refine open_setSock h hi (fun j => sock_store ..) ?_ hproto hbuf hcap' (hlen.trans_le hle)
    refine blocks_store ha hb ?_
    rw [List.length_take]
    omega
  · simpa only [if_neg hpos] using h

theorem open_tcpRead {maxLen : ℕ} (h : Open kind s) (hi : kind i = some .tcp) :
    Open kind (picoTcpRead s i maxLen).2 := by
  obtain ⟨hfill, hproto⟩ := h i .tcp hi
  obtain ⟨a, b, ha, hb, hl⟩ := hfill.block
  have hfits := hfill.fits
  generalize hc : (if (s.sock i).recvLen < maxLen then (s.sock i).recvLen else maxLen) = c
  have hle : c ≤ (s.sock i).recvLen := by
    rw [← hc]
    split <;> omega
  rw [picoTcpRead_eq (hfill.buffered hproto) hc.symm]
  by_cases hpos : c > 0
  · rw [if_pos hpos]
    refine open_setSock h hi (sock_shifted c) ?_ rfl rfl rfl (by simp only; omega)
    rw [shifted]
    split
    · refine blocks_store ha hb ?_
      rw [ha, load_length hb c _ (by omega)]
      omega
    · exact fun a b hab => ⟨b, hab, rfl⟩
  · rwa [if_neg hpos]

theorem open_udpRecvfrom {maxLen : ℕ} (h : Open kind s) (hi : kind i = some .udp) :
    Open kind (picoUdpRecvfrom s i maxLen).2 := by
  obtain ⟨hfill, hproto⟩ := h i .udp hi
  generalize hc : (if (s.sock i).recvLen < maxLen then (s.sock i).recvLen else maxLen) = c
  rw [picoUdpRecvfrom_eq hfill hproto hc.symm]
  by_cases hpos : c > 0
  · rw [if_pos hpos]
    exact open_setSock h hi (fun j => rfl) (fun a b hab => ⟨b, hab, rfl⟩) rfl rfl rfl (Nat.zero_le _)
  · rwa [if_neg hpos]

theorem computes : Locked.Computes (code kind) outcome (Open kind) := by
  constructor
  · intro job o s h
    cases job with
    | tcpRecv i bytes => exact ends_recv (fun o s ho => by rw [body, ho]) (h i .tcp i.2).1
    | udpRecv i bytes addr port => exact ends_recv (fun o s ho => by rw [body, ho]) (h i .udp i.2).1
    | tcpRead i maxLen =>
      obtain ⟨hfill, hproto⟩ := h i .tcp i.2
      exact ends_tcpRead (fun o s ho => by rw [body, ho]) (hfill.buffered hproto) rfl
    | udpRecvfrom i maxLen =>
      obtain ⟨hfill, hproto⟩ := h i .udp i.2
      exact ends_udpRecvfrom (fun o s ho => by rw [body, ho]) hfill hproto rfl
  · intro job o s h
    cases job with
    | tcpRecv i bytes => exact open_recv h i.2 fun k => ⟨rfl, rfl, rfl, rfl⟩
    | udpRecv i bytes addr port => exact open_recv h i.2 fun k => ⟨rfl, rfl, rfl, rfl⟩
    | tcpRead i maxLen => exact open_tcpRead h i.2
    | udpRecvfrom i maxLen => exact open_udpRecvfrom h i.2

/-! ### Any order of accesses -/

/-- What a call answers with the bytes and the source: it works the value out when it has left the
lock. -/
def Own.answer (o : Own kind) : ℤ × Bytes × Word × BitVec 16 :=
  match o.job with
  | some (.tcpRead _ _) =>
    if o.count = 0 ∧ o.state = .closed then (-2, [], 0, 0) else (toCInt o.count, o.buf, 0, 0)
  | _ => (toCInt o.count, o.buf, o.ip, o.port)

/-- What the functions answer; the callbacks report `to_copy`. -/
def Job.returns (s : Stubs) : Job kind → ℤ × Bytes × Word × BitVec 16
  | .tcpRecv i bytes => (toCInt (copyToRecvBuf s i bytes id).1, [], 0, 0)
  | .udpRecv i bytes addr port => (toCInt (copyToRecvBuf s i bytes (mark addr port)).1, [], 0, 0)
  | .tcpRead i maxLen => ((picoTcpRead s i maxLen).1.1, (picoTcpRead s i maxLen).1.2, 0, 0)
  | .udpRecvfrom i maxLen => (picoUdpRecvfrom s i maxLen).1

theorem answer_outcome (h : Open kind s) (job : Job kind) :
    (outcome job o s).1.answer = job.returns s := by
  cases job with
  | tcpRecv i bytes => rfl
  | udpRecv i bytes addr port => rfl
  | tcpRead i maxLen =>
    obtain ⟨hfill, hproto⟩ := h i .tcp i.2
    obtain ⟨a, b, ha, hb, hl⟩ := hfill.block
    have hne : ¬ (s.sock i).proto ≠ .tcp := by simp [hproto]
    simp only [outcome, Own.answer, Job.returns, picoTcpRead, hfill.valid, if_neg hne,
      Bool.false_eq_true, if_false]
    generalize hc : (if (s.sock i).recvLen < maxLen then (s.sock i).recvLen else maxLen) = c
    by_cases hpos : c > 0
    · have hc0 : ¬ (c = 0 ∧ (s.sock i).state = .closed) := by omega
      simp only [if_neg hc0, if_pos hpos]
    · have hc0 : c = 0 := by omega
      subst hc0
      have hload : s.load (s.sock i).recvBuf 0 0 = [] := by simp [Stubs.load, ha, hb]
      simp only [hload]
      split <;> rfl
  | udpRecvfrom i maxLen =>
    obtain ⟨hfill, hproto⟩ := h i .udp i.2
    simp only [outcome, Own.answer, Job.returns]
    generalize hc : (if (s.sock i).recvLen < maxLen then (s.sock i).recvLen else maxLen) = c
    rw [picoUdpRecvfrom_eq hfill hproto hc.symm]
    by_cases hpos : c > 0
    · rw [if_pos hpos]
    · have hc0 : c = 0 := by omega
      subst hc0
      rfl

variable {ι : Type*} [DecidableEq ι] {s₀ : Stubs}
  {xs : List (Locked.Act ι (Job kind) × Locked.State ι (Job kind) (Own kind) Stubs)}

/-- Callbacks and reads may touch the buffers in any order a byte at a time: the tables they leave,
and the answers they get, are those of whole calls one after the other, in the order in which they
leave the lock. -/
theorem netLock_atomic (hopen : Open kind s₀)
    (h : Lts.Run (Locked.Step (code kind)) (.initial s₀ fun _ => .idle) xs) :
    let t := Lts.last (.initial s₀ fun _ => .idle) xs
    let u := t.log.foldl (Locked.run outcome) (s₀, fun _ => .idle)
    Open kind u.1 ∧ (t.flag = false → t.data = u.1) ∧ (∀ i, t.pc i = .out → t.own i = u.2 i) ∧
      (∀ i, t.jobs i = Lts.gather (Locked.begun i) (.initial s₀ fun _ => .idle) xs) ∧
      (t.flag = true → ∃ i n,
        ((List.replicate n (.step i)).foldl (Locked.State.next (code kind)) t).flag = false) ∧
      ∀ i job before after, t.log = before ++ (i, job) :: after → (∀ x ∈ after, x.1 ≠ i) →
        t.pc i = .out →
          (t.own i).answer = job.returns (before.foldl (Locked.run outcome) (s₀, fun _ => .idle)).1 := by
  intro t u
  obtain ⟨hu, hdata, hown, hjobs, hleaves⟩ := Locked.serialized h computes hopen
  refine ⟨hu, hdata, hown, hjobs, hleaves, ?_⟩
  intro i job before after hlog hafter hout
  have hlast : ((before ++ (i, job) :: after).foldl (Locked.run outcome) (s₀, fun _ => .idle)).2 i = _ :=
    Locked.foldl_run_last hafter _
  rw [← hlog, ← hown i hout] at hlast
  rw [hlast]
  exact answer_outcome (computes.keeps_fold hopen) job

/-- A socket that has just been connected, in slot 0. -/
def connectedOnly (i : ℤ) : Option SocketProto := if i = 0 then some .tcp else none

theorem opened_open : Open connectedOnly (opened .initial 0 80).2 := by
  have hfresh := (opened_fresh (s := .initial) (k := 0) rfl 0 80).2.buffered
  intro i proto hi
  simp only [connectedOnly] at hi
  split at hi
  · subst i
    cases hi
    exact ⟨hfresh.filled, hfresh.proto⟩
  · cases hi

/-- Core 1 reads while core 0 is copying a segment. -/
def readWhileCopying : List (Locked.Act OcamlStubs.Core (Job connectedOnly)) :=
  [.begin .zero (.tcpRecv ⟨0, rfl⟩ [104, 105]), .begin .one (.tcpRead ⟨0, rfl⟩ 1), .step .zero,
    .step .zero, .step .one, .step .zero, .step .zero, .step .zero, .step .zero, .step .one]

theorem netLock_atomic_read :
    let s₀ := (opened .initial 0 80).2
    let start := Locked.State.initial s₀ fun _ => Own.idle
    let xs := Lts.trace (Locked.State.next (code connectedOnly)) start readWhileCopying
    let t := Lts.last start xs
    let u := t.log.foldl (Locked.run outcome) (s₀, fun _ => .idle)
    Open connectedOnly u.1 ∧ (t.flag = false → t.data = u.1) ∧
      (∀ i, t.pc i = .out → t.own i = u.2 i) ∧
      (∀ i, t.jobs i = Lts.gather (Locked.begun i) start xs) ∧
      (t.flag = true → ∃ i n, ((List.replicate n (.step i)).foldl
        (Locked.State.next (code connectedOnly)) t).flag = false) ∧
      ∀ i job before after, t.log = before ++ (i, job) :: after → (∀ x ∈ after, x.1 ≠ i) →
        t.pc i = .out →
          (t.own i).answer = job.returns (before.foldl (Locked.run outcome) (s₀, fun _ => .idle)).1 :=
  netLock_atomic opened_open (Locked.run_of_allowed (by decide))

end PicoOcaml.NetStubs.NetLock
