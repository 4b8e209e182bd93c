import PicoOcaml.EventQueue
import PicoOcaml.Fifo
import PicoOcaml.Lts

/-! The event ring with its two sides running against each other. Each step is one access to the
head, the tail or one word of a slot; the barriers keep the accesses of a side in this order. -/
namespace PicoOcaml.EventRing

/-- How far `event_enqueue` has come; `copying` has stored the first `k` words of the event. -/
inductive Producer (n : ℕ) (W : Type*)
  | idle
  | readTail (event : Fin n → W) (head nextHead : ℕ)
  | copying (event : Fin n → W) (head nextHead k : ℕ)

/-- How far `net_event_get` has come; `copying` has loaded the first `k` words. -/
inductive Consumer (n : ℕ) (W : Type*)
  | idle
  | readHead (event : Fin n → W) (tail : ℕ)
  | copying (event : Fin n → W) (tail k : ℕ)

/-- The statics, the two callers, and a log of the answers they got: `push` and `full` are the
answers 0 and -1 of `event_enqueue`, `pop` and `empty` the answers 1 and 0 of `net_event_get`. -/
structure State (n : ℕ) (W : Type*) where
  slots : ℕ → Fin n → W
  head : ℕ
  tail : ℕ
  producer : Producer n W
  consumer : Consumer n W
  log : List (Fifo.Op (Fin n → W))

variable {n : ℕ} {W : Type*}

/-- An empty queue; what the slots hold does not matter. -/
def State.initial (slots : ℕ → Fin n → W) : State n W := ⟨slots, 0, 0, .idle, .idle, []⟩

def advance (i : ℕ) : ℕ := (i + 1) &&& netEventQueueMask

/-- `event` is what the callback passes when this step opens a call. -/
def State.produce (s : State n W) (event : Fin n → W) : State n W :=
  match s.producer with
  | .idle => { s with producer := .readTail event s.head (advance s.head) }
  | .readTail event head nextHead =>
    if nextHead = s.tail then { s with producer := .idle, log := s.log ++ [.full] }
    else { s with producer := .copying event head nextHead 0 }
  | .copying event head nextHead k =>
    if h : k < n then
      { s with
        slots := Function.update s.slots head (Function.update (s.slots head) ⟨k, h⟩ (event ⟨k, h⟩))
        producer := .copying event head nextHead (k + 1) }
    else { s with head := nextHead, producer := .idle, log := s.log ++ [.push event] }

/-- `event` is what the buffer of the caller holds when this step opens a call. -/
def State.consume (s : State n W) (event : Fin n → W) : State n W :=
  match s.consumer with
  | .idle => { s with consumer := .readHead event s.tail }
  | .readHead event tail =>
    if tail = s.head then { s with consumer := .idle, log := s.log ++ [.empty] }
    else { s with consumer := .copying event tail 0 }
  | .copying event tail k =>
    if h : k < n then
      { s with consumer := .copying (Function.update event ⟨k, h⟩ (s.slots tail ⟨k, h⟩)) tail (k + 1) }
    else { s with tail := advance tail, consumer := .idle, log := s.log ++ [.pop event] }

inductive Label (n : ℕ) (W : Type*)
  | produce (event : Fin n → W)
  | consume (event : Fin n → W)

def State.next (s : State n W) : Label n W → State n W
  | .produce event => s.produce event
  | .consume event => s.consume event

/-! ### The queue in the ring -/

/-- The number of slots from the tail up to the head. -/
def State.count (s : State n W) : ℕ := (s.head + netEventQueueSize - s.tail) % netEventQueueSize

def State.slot (s : State n W) (i : ℕ) : Fin n → W := s.slots ((s.tail + i) % netEventQueueSize)

/-- The events enqueued and not yet got, the oldest first. -/
def State.pending (s : State n W) : List (Fin n → W) := (List.range s.count).map s.slot

theorem advance_eq (i : ℕ) : advance i = (i + 1) % 32 := by
  simp only [advance, netEventQueueMask, netEventQueueSize]
  exact Nat.and_two_pow_sub_one_eq_mod (i + 1) 5

/-- Where the producer stands; the slot at the head is not pending, so nobody else uses it. -/
def ProducerInv (s : State n W) : Prop :=
  match s.producer with
  | .idle => True
  | .readTail _ head nextHead => head = s.head ∧ nextHead = advance s.head
  | .copying event head nextHead k =>
    head = s.head ∧ nextHead = advance s.head ∧ nextHead ≠ s.tail ∧ k ≤ n ∧
      ∀ j : Fin n, j < k → s.slots head j = event j

/-- Where the consumer stands; the slot at the tail stays pending until the tail moves. -/
def ConsumerInv (s : State n W) : Prop :=
  match s.consumer with
  | .idle => True
  | .readHead _ tail => tail = s.tail
  | .copying event tail k =>
    tail = s.tail ∧ tail ≠ s.head ∧ k ≤ n ∧ ∀ j : Fin n, j < k → event j = s.slots tail j

structure Inv (s : State n W) : Prop where
  head : s.head < netEventQueueSize
  tail : s.tail < netEventQueueSize
  producer : ProducerInv s
  consumer : ConsumerInv s

variable {s t : State n W}

/-- Storing the next word adds it to the words that are already there. -/
theorem copied_succ {x e : Fin n → W} {k : ℕ} (hlt : k < n) (h : ∀ j : Fin n, j < k → x j = e j)
    (j : Fin n) (hj : j < k + 1) : Function.update x ⟨k, hlt⟩ (e ⟨k, hlt⟩) j = e j := by
  by_cases hjk : j = ⟨k, hlt⟩
  · subst hjk
    simp
  · have hj' : (j : ℕ) ≠ k := fun h => hjk (Fin.ext h)
    simpa [hjk] using h j (by omega)

theorem initial_inv (slots : ℕ → Fin n → W) : Inv (State.initial slots) :=
  ⟨Nat.zero_lt_succ _, Nat.zero_lt_succ _, trivial, trivial⟩

/-- The slot at the head is none of the pending ones. -/
theorem slot_ne_head (hi : Inv s) {i : ℕ} (h : i < s.count) :
    (s.tail + i) % netEventQueueSize ≠ s.head := by
  have hh := hi.head
  have ht := hi.tail
  simp only [State.count, netEventQueueSize] at *
  omega

/-- Storing a word of the slot at the head changes no pending event. -/
theorem pending_store (hi : Inv s) (w : Fin n → W) (p : Producer n W) :
    ({ s with slots := Function.update s.slots s.head w, producer := p } : State n W).pending =
      s.pending := by
  apply List.map_congr_left
  intro i h
  exact Function.update_of_ne (slot_ne_head hi (List.mem_range.mp h)) _ _

/-- Moving the head makes the slot at the old head the youngest pending event. -/
theorem pending_publish (hi : Inv s) (hfull : advance s.head ≠ s.tail) (p : Producer n W)
    (log : List (Fifo.Op (Fin n → W))) :
    ({ s with head := advance s.head, producer := p, log := log } : State n W).pending =
      s.pending ++ [s.slots s.head] := by
  have hh := hi.head
  have ht := hi.tail
  simp only [advance_eq, netEventQueueSize] at hh ht hfull
  have hcount : (advance s.head + netEventQueueSize - s.tail) % netEventQueueSize = s.count + 1 := by
    simp only [advance_eq, State.count, netEventQueueSize]
    omega
  have hlast : s.slot s.count = s.slots s.head := by
    have hidx : (s.tail + s.count) % netEventQueueSize = s.head := by
      simp only [State.count, netEventQueueSize]
      omega
    exact congrArg s.slots hidx
  calc ({ s with head := advance s.head, producer := p, log := log } : State n W).pending
      = (List.range (s.count + 1)).map s.slot := by rw [← hcount]; rfl
    _ = s.pending ++ [s.slots s.head] := by
      rw [List.range_succ, List.map_append, List.map_singleton, hlast, State.pending]

/-- Moving the tail drops the oldest pending event. -/
theorem pending_release (hi : Inv s) (hne : s.tail ≠ s.head) (c : Consumer n W)
    (log : List (Fifo.Op (Fin n → W))) :
    s.pending = s.slots s.tail ::
      ({ s with tail := advance s.tail, consumer := c, log := log } : State n W).pending := by
  have hh := hi.head
  have ht := hi.tail
  simp only [netEventQueueSize] at hh ht
  have hcount : s.count =
      (s.head + netEventQueueSize - advance s.tail) % netEventQueueSize + 1 := by
    simp only [advance_eq, State.count, netEventQueueSize]
    omega
  have hfirst : s.slot 0 = s.slots s.tail := by
    have hidx : (s.tail + 0) % netEventQueueSize = s.tail := by
      simp only [netEventQueueSize]
      omega
    exact congrArg s.slots hidx
  have hnext : ∀ i, s.slot (i + 1) = s.slots ((advance s.tail + i) % netEventQueueSize) := by
    intro i
    have hidx : (s.tail + (i + 1)) % netEventQueueSize =
        (advance s.tail + i) % netEventQueueSize := by
      simp only [advance_eq, netEventQueueSize]
      omega
    exact congrArg s.slots hidx
  rw [State.pending, hcount, List.range_succ_eq_map, List.map_cons, hfirst, List.map_map]
  congr 1
  exact List.map_congr_left fun i _ => hnext i

theorem count_full (hi : Inv s) (h : advance s.head = s.tail) : s.pending.length = 31 := by
  have hh := hi.head
  have ht := hi.tail
  simp only [advance_eq, netEventQueueSize] at hh ht h
  simp only [State.pending, List.length_map, List.length_range, State.count, netEventQueueSize]
  omega

theorem count_not_full (hi : Inv s) (h : advance s.head ≠ s.tail) : s.pending.length < 31 := by
  have hh := hi.head
  have ht := hi.tail
  simp only [advance_eq, netEventQueueSize] at hh ht h
  simp only [State.pending, List.length_map, List.length_range, State.count, netEventQueueSize]
  omega

theorem pending_empty (h : s.tail = s.head) : s.pending = [] := by
  have hcount : s.count = 0 := by
    simp only [State.count, netEventQueueSize]
    omega
  rw [State.pending, hcount]
  rfl

/-! ### One access -/

theorem advance_lt (i : ℕ) : advance i < netEventQueueSize := by
  simp only [advance_eq, netEventQueueSize]
  omega

/-- The queue and the log agree on what a step of either side did. -/
def Refined (s t : State n W) : Prop := Fifo.Refines 31 s.pending s.log t.pending t.log

/-- The consumer keeps its slot while the producer works on others. -/
theorem consumer_frame (hc : ConsumerInv s) (hcons : t.consumer = s.consumer)
    (htail : t.tail = s.tail)
    (hslot : s.tail ≠ s.head → s.tail ≠ t.head ∧ t.slots s.tail = s.slots s.tail) :
    ConsumerInv t := by
  simp only [ConsumerInv, hcons, htail] at hc ⊢
  cases hcc : s.consumer with
  | idle => trivial
  | readHead e tail => simpa [hcc] using hc
  | copying e tail k =>
    simp only [hcc] at hc ⊢
    obtain ⟨rfl, hne, hk, hgot⟩ := hc
    obtain ⟨hne', hslots⟩ := hslot hne
    exact ⟨rfl, hne', hk, fun j hj => by rw [hslots]; exact hgot j hj⟩

theorem produce_step (hi : Inv s) (event : Fin n → W) :
    Inv (s.produce event) ∧ Refined s (s.produce event) := by
  have hp := hi.producer
  have hc := hi.consumer
  cases hpc : s.producer with
  | idle =>
    have hs : s.produce event = { s with producer := .readTail event s.head (advance s.head) } := by
      simp only [State.produce, hpc]
    rw [hs]
    exact ⟨⟨hi.head, hi.tail, ⟨rfl, rfl⟩, hc⟩, Or.inl ⟨rfl, rfl⟩⟩
  | readTail e head nextHead =>
    simp only [ProducerInv, hpc] at hp
    obtain ⟨rfl, rfl⟩ := hp
    by_cases hfull : advance s.head = s.tail
    · have hs : s.produce event = { s with producer := .idle, log := s.log ++ [.full] } := by
        simp only [State.produce, hpc, if_pos hfull]
      rw [hs]
      exact ⟨⟨hi.head, hi.tail, trivial, hc⟩, Or.inr ⟨.full, .full (count_full hi hfull), rfl⟩⟩
    · have hs : s.produce event =
          { s with producer := .copying e s.head (advance s.head) 0 } := by
        simp only [State.produce, hpc, if_neg hfull]
      rw [hs]
      refine ⟨⟨hi.head, hi.tail, ⟨rfl, rfl, hfull, Nat.zero_le _, ?_⟩, hc⟩, Or.inl ⟨rfl, rfl⟩⟩
      intro j hj
      exact absurd hj (Nat.not_lt_zero _)
  | copying e head nextHead k =>
    simp only [ProducerInv, hpc] at hp
    obtain ⟨rfl, rfl, hfull, hk, hdone⟩ := hp
    by_cases hlt : k < n
    · have hs : s.produce event =
          { s with
            slots := Function.update s.slots s.head
              (Function.update (s.slots s.head) ⟨k, hlt⟩ (e ⟨k, hlt⟩))
            producer := .copying e s.head (advance s.head) (k + 1) } := by
        simp only [State.produce, hpc, dif_pos hlt]
      rw [hs]
      refine ⟨⟨hi.head, hi.tail, ⟨rfl, rfl, hfull, hlt, ?_⟩, ?_⟩,
        Or.inl ⟨pending_store hi _ _, rfl⟩⟩
      · intro j hj
        simpa only [Function.update_self] using copied_succ hlt hdone j hj
      · exact consumer_frame hc rfl rfl fun hne => ⟨hne, Function.update_of_ne hne _ _⟩
    · have hs : s.produce event =
          { s with head := advance s.head, producer := .idle, log := s.log ++ [.push e] } := by
        simp only [State.produce, hpc, dif_neg hlt]
      have hslot : s.slots s.head = e := by
        funext j
        exact hdone j (by omega)
      rw [hs]
      refine ⟨⟨advance_lt _, hi.tail, trivial, ?_⟩, Or.inr ⟨.push e, ?_, rfl⟩⟩
      · exact consumer_frame hc rfl rfl fun _ => ⟨fun h => hfull h.symm, rfl⟩
      · rw [pending_publish hi hfull, hslot]
        exact .push e (count_not_full hi hfull)

theorem consume_step (hi : Inv s) (event : Fin n → W) :
    Inv (s.consume event) ∧ Refined s (s.consume event) := by
  have hp := hi.producer
  have hc := hi.consumer
  cases hcc : s.consumer with
  | idle =>
    have hs : s.consume event = { s with consumer := .readHead event s.tail } := by
      simp only [State.consume, hcc]
    rw [hs]
    exact ⟨⟨hi.head, hi.tail, hp, rfl⟩, Or.inl ⟨rfl, rfl⟩⟩
  | readHead e tail =>
    simp only [ConsumerInv, hcc] at hc
    subst hc
    by_cases hempty : s.tail = s.head
    · have hs : s.consume event = { s with consumer := .idle, log := s.log ++ [.empty] } := by
        simp only [State.consume, hcc, if_pos hempty]
      rw [hs]
      refine ⟨⟨hi.head, hi.tail, hp, trivial⟩, Or.inr ⟨.empty, ?_, rfl⟩⟩
      have hq := pending_empty hempty
      change Fifo.Step 31 s.pending .empty s.pending
      rw [hq]
      exact .empty
    · have hs : s.consume event = { s with consumer := .copying e s.tail 0 } := by
        simp only [State.consume, hcc, if_neg hempty]
      rw [hs]
      refine ⟨⟨hi.head, hi.tail, hp, rfl, hempty, Nat.zero_le _, ?_⟩, Or.inl ⟨rfl, rfl⟩⟩
      intro j hj
      exact absurd hj (Nat.not_lt_zero _)
  | copying e tail k =>
    simp only [ConsumerInv, hcc] at hc
    obtain ⟨rfl, hne, hk, hgot⟩ := hc
    by_cases hlt : k < n
    · have hs : s.consume event =
          { s with
            consumer :=
              .copying (Function.update e ⟨k, hlt⟩ (s.slots s.tail ⟨k, hlt⟩)) s.tail (k + 1) } := by
        simp only [State.consume, hcc, dif_pos hlt]
      rw [hs]
      exact ⟨⟨hi.head, hi.tail, hp, rfl, hne, hlt, copied_succ hlt hgot⟩, Or.inl ⟨rfl, rfl⟩⟩
    · have hs : s.consume event =
          { s with tail := advance s.tail, consumer := .idle, log := s.log ++ [.pop e] } := by
        simp only [State.consume, hcc, dif_neg hlt]
      have hslot : s.slots s.tail = e := by
        funext j
        exact (hgot j (by omega)).symm
      rw [hs]
      refine ⟨⟨hi.head, advance_lt _, ?_, trivial⟩, Or.inr ⟨.pop e, ?_, rfl⟩⟩
      · simp only [ProducerInv] at hp ⊢
        cases hpc : s.producer with
        | idle => trivial
        | readTail e' head nextHead => simpa [hpc] using hp
        | copying e' head nextHead k' =>
          simp only [hpc] at hp ⊢
          obtain ⟨h1, h2, hfull, h4⟩ := hp
          refine ⟨h1, h2, ?_, h4⟩
          have hh := hi.head
          have ht := hi.tail
          simp only [h2, advance_eq, netEventQueueSize] at *
          omega
      · rw [pending_release hi hne .idle (s.log ++ [.pop e]), hslot]
        exact .pop e _

/-! ### A side that runs alone -/

/-- The ring of the sequential functions, each slot stored as the words of its event. -/
structure Stores (words : NetEvent → Fin n → W) (q : EventQueue) (s : State n W) : Prop where
  slots : ∀ i, s.slots i = words (q.slots i)
  head : s.head = q.head
  tail : s.tail = q.tail

/-- The steps of `event_enqueue` by themselves do what the sequential function says. -/
def Enqueues (words : NetEvent → Fin n → W) (q : EventQueue) (s : State n W) : Prop :=
  ∀ e, ∃ k, let t := (fun u => u.produce (words e))^[k] s
    t.producer = .idle ∧ Stores words (eventEnqueue e q).2 t ∧
      t.log = s.log ++ [if (eventEnqueue e q).1 = 0 then .push (words e) else .full]

/-- So do those of `net_event_get`. -/
def Gets (words : NetEvent → Fin n → W) (q : EventQueue) (s : State n W) : Prop :=
  ∀ event, ∃ k, let t := (fun u => u.consume event)^[k] s
    t.consumer = .idle ∧ Stores words (netEventGet q).2 t ∧
      t.log = s.log ++ [(netEventGet q).1.elim .empty fun e => .pop (words e)]

theorem produce_copying (event : Fin n → W) {e : Fin n → W} {nextHead d : ℕ} (hd : d ≤ n)
    (hp : s.producer = .copying e s.head nextHead (n - d))
    (hdone : ∀ j : Fin n, j < n - d → s.slots s.head j = e j) :
    ∃ k, (fun u => u.produce event)^[k] s =
      { s with
        slots := Function.update s.slots s.head e
        head := nextHead, producer := .idle, log := s.log ++ [.push e] } := by
  induction d generalizing s with
  | zero =>
    refine ⟨1, ?_⟩
    have hslot : s.slots s.head = e := by
      funext j
      exact hdone j (by omega)
    have hsame : Function.update s.slots s.head e = s.slots := by
      rw [← hslot, Function.update_eq_self]
    simp only [Function.iterate_one, State.produce, hp, Nat.sub_zero, lt_irrefl, dif_neg,
      not_false_eq_true, hsame]
  | succ d ih =>
    have hlt : n - (d + 1) < n := by omega
    set w := Function.update (s.slots s.head) ⟨n - (d + 1), hlt⟩ (e ⟨n - (d + 1), hlt⟩) with hw
    have hs : s.produce event =
        { s with
          slots := Function.update s.slots s.head w
          producer := .copying e s.head nextHead (n - d) } := by
      have hnext : n - (d + 1) + 1 = n - d := by omega
      simp only [State.produce, hp, dif_pos hlt, hnext, hw]
    obtain ⟨k, hk⟩ := ih (s := s.produce event) (by omega) (by rw [hs]) (by
      intro j hj
      rw [hs]
      simpa [hw] using copied_succ hlt hdone j (by omega))
    refine ⟨k + 1, ?_⟩
    rw [Function.iterate_succ_apply, hk, hs]
    simp

theorem produce_alone {words : NetEvent → Fin n → W} {q : EventQueue} (hq : Stores words q s)
    (hp : s.producer = .idle) : Enqueues words q s := by
  intro e
  obtain ⟨hslots, hhead, htail⟩ := hq
  have hopen : s.produce (words e) =
      { s with producer := .readTail (words e) s.head (advance s.head) } := by
    simp only [State.produce, hp]
  by_cases hfull : advance s.head = s.tail
  · have hseq : eventEnqueue e q = (-1, q) := by
      rw [hhead, htail] at hfull
      simp only [eventEnqueue]
      exact if_pos hfull
    refine ⟨2, ?_⟩
    have hs : (fun u => u.produce (words e))^[2] s =
        { s with producer := .idle, log := s.log ++ [.full] } := by
      simp only [Function.iterate_succ_apply, Function.iterate_zero, id_eq, hopen]
      simp only [State.produce, if_pos hfull]
    simp only [hs, hseq]
    exact ⟨trivial, ⟨hslots, hhead, htail⟩, by simp⟩
  · have hseq : eventEnqueue e q =
        (0, { q with slots := Function.update q.slots q.head e, head := advance q.head }) := by
      rw [hhead, htail] at hfull
      simp only [eventEnqueue]
      exact if_neg hfull
    have hcheck : (s.produce (words e)).produce (words e) =
        { s with producer := .copying (words e) s.head (advance s.head) (n - n) } := by
      rw [hopen, Nat.sub_self]
      simp only [State.produce, if_neg hfull]
    have hcopy : ((s.produce (words e)).produce (words e)).producer = .copying (words e)
        ((s.produce (words e)).produce (words e)).head (advance s.head) (n - n) := by rw [hcheck]
    obtain ⟨k, hk⟩ := produce_copying (words e) le_rfl hcopy (by
      intro j hj
      omega)
    refine ⟨k + 2, ?_⟩
    have hs : (fun u => u.produce (words e))^[k + 2] s =
        { s with
          slots := Function.update s.slots s.head (words e)
          head := advance s.head, producer := .idle, log := s.log ++ [.push (words e)] } := by
      rw [Function.iterate_succ_apply, Function.iterate_succ_apply, hk, hcheck]
    simp only [hs, hseq]
    refine ⟨trivial, ⟨fun i => ?_, by rw [hhead], htail⟩, by simp⟩
    by_cases hi : i = q.head
    · simp [hi, hhead]
    · simpa [hi, hhead] using hslots i

theorem consume_copying (event : Fin n → W) {e : Fin n → W} {d : ℕ} (hd : d ≤ n)
    (hc : s.consumer = .copying e s.tail (n - d))
    (hdone : ∀ j : Fin n, j < n - d → e j = s.slots s.tail j) :
    ∃ k, (fun u => u.consume event)^[k] s =
      { s with
        tail := advance s.tail, consumer := .idle, log := s.log ++ [.pop (s.slots s.tail)] } := by
  induction d generalizing s e with
  | zero =>
    refine ⟨1, ?_⟩
    have hslot : e = s.slots s.tail := by
      funext j
      exact hdone j (by omega)
    simp only [Function.iterate_one, State.consume, hc, Nat.sub_zero, lt_irrefl, dif_neg,
      not_false_eq_true, hslot]
  | succ d ih =>
    have hlt : n - (d + 1) < n := by omega
    set w := Function.update e ⟨n - (d + 1), hlt⟩ (s.slots s.tail ⟨n - (d + 1), hlt⟩) with hw
    have hs : s.consume event = { s with consumer := .copying w s.tail (n - d) } := by
      have hnext : n - (d + 1) + 1 = n - d := by omega
      simp only [State.consume, hc, dif_pos hlt, hnext, hw]
    obtain ⟨k, hk⟩ := ih (s := s.consume event) (e := w) (by omega) (by rw [hs]) (by
      intro j hj
      rw [hs]
      simpa [hw] using copied_succ hlt hdone j (by omega))
    refine ⟨k + 1, ?_⟩
    rw [Function.iterate_succ_apply, hk, hs]

theorem consume_alone {words : NetEvent → Fin n → W} {q : EventQueue} (hq : Stores words q s)
    (hc : s.consumer = .idle) : Gets words q s := by
  intro event
  obtain ⟨hslots, hhead, htail⟩ := hq
  have hopen : s.consume event = { s with consumer := .readHead event s.tail } := by
    simp only [State.consume, hc]
  by_cases hempty : s.tail = s.head
  · have hseq : netEventGet q = (none, q) := by
      rw [hhead, htail] at hempty
      simp only [netEventGet]
      exact if_pos hempty
    refine ⟨2, ?_⟩
    have hs : (fun u => u.consume event)^[2] s =
        { s with consumer := .idle, log := s.log ++ [.empty] } := by
      simp only [Function.iterate_succ_apply, Function.iterate_zero, id_eq, hopen]
      simp only [State.consume, if_pos hempty]
    simp only [hs, hseq]
    exact ⟨trivial, ⟨hslots, hhead, htail⟩, rfl⟩
  · have hseq : netEventGet q = (some (q.slots q.tail), { q with tail := advance q.tail }) := by
      rw [hhead, htail] at hempty
      simp only [netEventGet]
      exact if_neg hempty
    have hcheck : (s.consume event).consume event =
        { s with consumer := .copying event s.tail (n - n) } := by
      rw [hopen, Nat.sub_self]
      simp only [State.consume, if_neg hempty]
    have hcopy : ((s.consume event).consume event).consumer =
        .copying event ((s.consume event).consume event).tail (n - n) := by rw [hcheck]
    obtain ⟨k, hk⟩ := consume_copying event le_rfl hcopy (by
      intro j hj
      omega)
    refine ⟨k + 2, ?_⟩
    have hs : (fun u => u.consume event)^[k + 2] s =
        { s with
          tail := advance s.tail, consumer := .idle, log := s.log ++ [.pop (s.slots s.tail)] } := by
      rw [Function.iterate_succ_apply, Function.iterate_succ_apply, hk, hcheck]
    simp only [hs, hseq]
    refine ⟨trivial, ⟨hslots, hhead, by rw [htail]⟩, ?_⟩
    rw [hslots, htail]
    rfl

/-! ### Every interleaving -/

/-- The ring is a queue of 31 events under every interleaving: each step leaves queue and answers
or does what its answer says, so the events got are the first of the events enqueued. The steps are
those of `event_enqueue` and `net_event_get`, as a side that nothing interrupts shows. -/
theorem ring_refines_fifo (slots : ℕ → Fin n → W) (labels : List (Label n W)) :
    let xs := Lts.trace State.next (State.initial slots) labels
    Lts.Run (fun s _ t => Fifo.Refines 31 s.pending s.log t.pending t.log) (State.initial slots) xs ∧
      Lts.Always (fun s => Fifo.popped s.log <+: Fifo.pushed s.log ∧ s.head < 32 ∧ s.tail < 32)
        (State.initial slots) xs ∧
      ∀ (s : State n W) (words : NetEvent → Fin n → W) (q : EventQueue), Stores words q s →
        (s.producer = .idle → Enqueues words q s) ∧ (s.consumer = .idle → Gets words q s) := by
  intro xs
  have hstep : ∀ (u : State n W) a v, (Inv u ∧ Fifo.Accounted 31 u.pending u.log) →
      v = u.next a → (Inv v ∧ Fifo.Accounted 31 v.pending v.log) ∧ Refined u v := by
    rintro u a v ⟨hi, ha⟩ rfl
    have hnext : Inv (u.next a) ∧ Refined u (u.next a) := by
      cases a with
      | produce event => exact produce_step hi event
      | consume event => exact consume_step hi event
    exact ⟨⟨hnext.1, hnext.2.accounted ha⟩, hnext.2⟩
  have hempty : (State.initial slots).pending = [] := pending_empty rfl
  have hinit : Inv (State.initial slots) ∧
      Fifo.Accounted 31 (State.initial slots).pending (State.initial slots).log := by
    rw [hempty]
    exact ⟨initial_inv slots, Fifo.accounted_nil⟩
  obtain ⟨halways, hrun⟩ := Lts.run_trace.keeps
    (p := fun u => Inv u ∧ Fifo.Accounted 31 u.pending u.log) (c := fun u _ v => Refined u v)
    hinit hstep
  exact ⟨hrun, halways.imp fun u hu => ⟨hu.2.in_order, hu.1.head, hu.1.tail⟩,
    fun s words q hq => ⟨produce_alone hq, consume_alone hq⟩⟩

/-- The empty ring, with events of one word. -/
theorem ring_refines_fifo_empty :
    let s : State 1 NetEvent := .initial fun _ _ => .none
    let words : NetEvent → Fin 1 → NetEvent := fun e _ => e
    Enqueues words .empty s ∧ Gets words .empty s := by
  intro s words
  have hempty : Stores words .empty s := ⟨fun _ => rfl, rfl, rfl⟩
  have h := (ring_refines_fifo (fun _ _ => NetEvent.none) []).2.2 s words .empty hempty
  exact ⟨h.1 rfl, h.2 rfl⟩

end PicoOcaml.EventRing
