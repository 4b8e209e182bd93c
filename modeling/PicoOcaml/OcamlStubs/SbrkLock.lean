import PicoOcaml.Locked
import PicoOcaml.OcamlStubs.Heap
import PicoOcaml.OcamlStubs.Mutex

/-! `_sbrk` on both cores, one access to `heap_ptr` at a time, once `sbrk_mutex` has been
initialised. -/
namespace PicoOcaml.OcamlStubs.SbrkLock

open Heap (Layout Memory Region State Call Inv failed heapLimit)

/-- The next access of a call. -/
inductive Place
  | check
  | init
  | readPrev
  | readNew
  | store
  | done

/-- The locals of a call, and its answer. -/
structure Own where
  incr : Word
  prevHeap : Word
  newHeap : Word
  place : Place
  answer : Word

def Own.idle : Own := ⟨0, 0, 0, .done, 0⟩

def enter (incr : Word) (_ : Own) : Own := ⟨incr, 0, 0, .check, 0⟩

def body (l : Layout) (o : Own) (h : Memory) : Option (Own × Memory) :=
  match o.place with
  | .check => some ({ o with place := if h.heapPtr = 0 then .init else .readPrev }, h)
  | .init => some ({ o with place := .readPrev }, { h with heapPtr := l.end_ })
  | .readPrev => some ({ o with prevHeap := h.heapPtr, place := .readNew }, h)
  | .readNew =>
    let newHeap := h.heapPtr + o.incr
    if newHeap > heapLimit then
      some ({ o with newHeap := newHeap, answer := failed, place := .done }, h)
    else some ({ o with newHeap := newHeap, place := .store }, h)
  | .store => some ({ o with answer := o.prevHeap, place := .done }, { h with heapPtr := o.newHeap })
  | .done => none

def code (l : Layout) : Locked.Code Word Own Memory := ⟨enter, body l⟩

/-- A call on its own. -/
def outcome (l : Layout) (incr : Word) (_ : Own) (h : Memory) : Own × Memory :=
  (⟨incr, h.top l, h.top l + incr, .done, (Heap.sbrk l incr h).1⟩, (Heap.sbrk l incr h).2)

variable {l : Layout} {h : Memory} {incr : Word} {o : Own}

theorem ends_sbrk : Locked.Ends (code l) (enter incr o) h (outcome l incr o h).1
    (outcome l incr o h).2 := by
  have htop : ∀ h' : Memory, h'.heapPtr = h.top l → h'.mem = h.mem →
      Locked.Ends (code l) ⟨incr, 0, 0, .readPrev, 0⟩ h' (outcome l incr o h).1
        (outcome l incr o h).2 := by
    intro h' hp hm
    obtain ⟨p, mem⟩ := h'
    obtain ⟨rfl, rfl⟩ : p = h.top l ∧ mem = h.mem := ⟨hp, hm⟩
    refine .step rfl ?_
    by_cases hlim : h.top l + incr > heapLimit
    · have hsbrk : Heap.sbrk l incr h = (failed, { h with heapPtr := h.top l }) := by
        rw [Heap.sbrk_eq]
        exact if_pos hlim
      simp only [outcome, hsbrk]
      exact .step (if_pos hlim) (.done rfl)
    · have hsbrk : Heap.sbrk l incr h = (h.top l, { h with heapPtr := h.top l + incr }) := by
        rw [Heap.sbrk_eq]
        exact if_neg hlim
      simp only [outcome, hsbrk]
      exact .step (if_neg hlim) (.step rfl (.done rfl))
  have hcheck : (code l).body (enter incr o) h = some (⟨incr, 0, 0,
      if h.heapPtr = 0 then .init else .readPrev, 0⟩, h) := rfl
  refine .step hcheck ?_
  by_cases h0 : h.heapPtr = 0
  · rw [if_pos h0]
    exact .step rfl (htop _ (by simp [Memory.top, h0]) rfl)
  · rw [if_neg h0]
    exact htop h (if_neg h0).symm rfl

theorem computes : Locked.Computes (code l) (outcome l) fun _ => True :=
  ⟨fun _ _ _ _ => ends_sbrk, fun _ _ _ _ => trivial⟩

/-! ### Blocks -/

def Disjoint (r r' : Region) : Prop := ∀ a, ¬ (r.Mem a ∧ r'.Mem a)

/-- The blocks that are given out lie apart in the heap, below its pointer. -/
structure Apart (l : Layout) (s : State) : Prop where
  inv : Inv l s
  low : ∀ r ∈ s.regions, l.end_.toNat ≤ r.start
  disjoint : s.regions.Pairwise Disjoint

variable {s t : State}

theorem initial_apart (l : Layout) (mem : Word → UInt8) : Apart l (.initial mem) :=
  ⟨Heap.initial_inv l mem, by simp [State.initial], by simp [State.initial]⟩

theorem Disjoint.below {r r' : Region} (h : Disjoint r r') (top : ℕ) :
    Disjoint (r.below top) (r'.below top) := by
  rintro a ⟨⟨hlo, hhi⟩, hlo', hhi'⟩
  simp only [Region.below] at hlo hhi hlo' hhi'
  exact h a ⟨⟨hlo, by omega⟩, hlo', by omega⟩

/-- A call that succeeds gets what its pointer has passed, above all the others, or takes memory
back. -/
theorem apart_sbrk (ha : Apart l s) (hf : s.Fits l (.sbrk incr) t) :
    Apart l (s.next l (.sbrk incr)) := by
  have hlow := ha.inv.low
  refine ⟨(Heap.next_sbrk ha.inv hf).1, ?_, ?_⟩
  · rcases Heap.sbrk_cases ha.inv incr with ⟨heq, -⟩ | ⟨heq, -, -⟩
    · simpa only [State.next, heq, if_true] using ha.low
    · simp only [State.next, heq, if_neg ha.inv.top_ne_failed]
      split
      · exact List.forall_mem_cons.mpr ⟨hlow, ha.low⟩
      · intro r hr
        obtain ⟨r', hr', rfl⟩ := List.mem_map.mp hr
        exact ha.low r' hr'
  · rcases Heap.sbrk_cases ha.inv incr with ⟨heq, -⟩ | ⟨heq, -, -⟩
    · simpa only [State.next, heq, if_true] using ha.disjoint
    · simp only [State.next, heq, if_neg ha.inv.top_ne_failed]
      split
      · refine List.pairwise_cons.mpr ⟨fun r hr a hmem => ?_, ha.disjoint⟩
        obtain ⟨⟨hstart, -⟩, hlo, hend⟩ := hmem
        simp only at hstart
        rcases ha.inv.below r hr with hzero | hbelow <;> omega
      · exact List.pairwise_map.mpr (ha.disjoint.imp fun h => h.below _)

theorem apart_run {incrs : List Word} (ha : Apart l s)
    (hf : Lts.Run (State.Fits l) s (Lts.trace (State.next l) s (incrs.map .sbrk))) :
    Apart l ((incrs.map .sbrk).foldl (State.next l) s) := by
  induction incrs generalizing s with
  | nil => exact ha
  | cons incr incrs ih => exact ih (apart_sbrk ha hf.1) hf.2

/-- The calls of the cores, one after the other. -/
def calls {ι : Type*} (log : List (ι × Word)) : List Call := log.map fun x => .sbrk x.2

variable {ι : Type*} [DecidableEq ι]

/-- The heap of the calls made at once is the heap that accounts for the blocks. -/
theorem foldl_memory (log : List (ι × Word)) (s : State) (own : ι → Own) :
    (log.foldl (Locked.run (outcome l)) (s.memory, own)).1 =
      ((calls log).foldl (State.next l) s).memory := by
  induction log generalizing s own with
  | nil => rfl
  | cons x log ih => exact ih (s.next l (.sbrk x.2)) _

variable {xs : List (Locked.Act ι Word × Locked.State ι Word Own Memory)} {mem : Word → UInt8}

/-- Whatever the cores ask for or give back at the same time, the calls happen one after the other;
and as long as none gives back more than was given out, no byte is given to both. -/
theorem sbrk_atomic
    (h : Lts.Run (Locked.Step (code l)) (.initial (.initial mem) fun _ => .idle) xs) :
    let t := Lts.last (.initial (.initial mem) fun _ => .idle) xs
    let u := t.log.foldl (Locked.run (outcome l)) (.initial mem, fun _ => .idle)
    let v := (calls t.log).foldl (State.next l) (.initial mem)
    u.1 = v.memory ∧ (t.flag = false → t.data = v.memory) ∧ (∀ i, t.pc i = .out → t.own i = u.2 i) ∧
      (∀ i, t.jobs i = Lts.gather (Locked.begun i) (.initial (.initial mem) fun _ => .idle) xs) ∧
      (t.flag = true → ∃ i n,
        ((List.replicate n (.step i)).foldl (Locked.State.next (code l)) t).flag = false) ∧
      (Lts.Run (State.Fits l) (.initial mem) (Lts.trace (State.next l) (.initial mem) (calls t.log)) →
        Apart l v) := by
  intro t u v
  have hmemory : u.1 = v.memory := foldl_memory t.log (.initial mem) _
  obtain ⟨-, hidle, hown, hjobs, hleaves⟩ := Locked.serialized h computes trivial
  refine ⟨hmemory, fun hflag => (hidle hflag).trans hmemory, hown, hjobs, hleaves, fun hf => ?_⟩
  have hcalls : calls t.log = (t.log.map Prod.snd).map .sbrk := by simp [calls]
  simp only [v, hcalls] at hf ⊢
  exact apart_run (initial_apart l mem) hf

def exampleLayout : Layout := ⟨0x20010000, by decide, by decide⟩

/-- Core 1 calls while core 0 is between its two readings of `heap_ptr`, and gives back what core 0
gets. -/
def overlapping : List (Locked.Act Core Word) :=
  [.begin .zero 16, .begin .one (-16), .step .zero, .step .zero, .step .zero, .step .zero, .step .one,
    .step .zero, .step .zero, .step .zero, .step .one]

theorem sbrk_atomic_overlapping :
    let mem : Word → UInt8 := fun _ => 0
    let start := Locked.State.initial (Memory.initial mem) fun _ : Core => Own.idle
    let xs := Lts.trace (Locked.State.next (code exampleLayout)) start overlapping
    let t := Lts.last start xs
    let u := t.log.foldl (Locked.run (outcome exampleLayout)) (.initial mem, fun _ => .idle)
    let v := (calls t.log).foldl (State.next exampleLayout) (.initial mem)
    u.1 = v.memory ∧ (t.flag = false → t.data = v.memory) ∧ (∀ i, t.pc i = .out → t.own i = u.2 i) ∧
      (∀ i, t.jobs i = Lts.gather (Locked.begun i) start xs) ∧
      (t.flag = true → ∃ i n, ((List.replicate n (.step i)).foldl
        (Locked.State.next (code exampleLayout)) t).flag = false) ∧
      (Lts.Run (State.Fits exampleLayout) (.initial mem)
        (Lts.trace (State.next exampleLayout) (.initial mem) (calls t.log)) → Apart exampleLayout v) :=
  sbrk_atomic (Locked.run_of_allowed (by rfl))

end PicoOcaml.OcamlStubs.SbrkLock
