import Mathlib.Algebra.Group.Nat.Defs
import PicoOcaml.OcamlStubs.Mutex

/-! One condition variable and the calls on it, one shared access at a time. What `cv->lock`
protects is one access; the program locks and unlocks its mutexes in between. -/
namespace PicoOcaml.OcamlStubs.Condvar

/-- The next shared access of `pthread_cond_wait`. -/
inductive Pc
  | readHandle
  | register
  | release
  | test
  | leave
  | reenter
  | done
deriving DecidableEq

/-- A call of `pthread_cond_wait` with its arguments and locals. The history variables are what
those of the state were when it registered. -/
structure Call where
  core : Core
  m : ℕ
  pc : Pc
  mutexIdx : ℤ
  myGen : BitVec 32
  sections : ℕ
  increments : ℕ

/-- The condition variable, the mutex table, and the calls so far. The history variables, which
the code does not touch, count the critical sections of `pthread_cond_signal` and
`pthread_cond_broadcast`, and those that have changed `generation`. -/
structure State where
  handle : ℕ → ℤ
  storage : ℕ → Entry
  generation : BitVec 32
  waiters : ℤ
  calls : List Call
  sections : ℕ
  increments : ℕ

def State.initial (handle : ℕ → ℤ) (storage : ℕ → Entry) : State :=
  ⟨handle, storage, 0, 0, [], 0, 0⟩

variable (s : State)

def State.setEntry (i : ℕ) (e : Entry) : State :=
  { s with storage := Function.update s.storage i e }

/-- The guard before every use of `mutex_storage[mutex_idx]`. -/
def State.slot (mutexIdx : ℤ) : Option ℕ :=
  if 0 ≤ mutexIdx ∧ mutexIdx < maxMutexes ∧ (s.storage mutexIdx.toNat).magic = true then
    some mutexIdx.toNat
  else none

def State.holds (c : Core) (m : ℕ) : Bool :=
  match s.slot (s.handle m) with
  | some i => (s.storage i).owner = some c
  | none => false

/-- One shared access of a call. -/
def exec (f : Call) : State × Call :=
  match f.pc with
  | .readHandle => (s, { f with mutexIdx := s.handle f.m, pc := .register })
  | .register => ({ s with waiters := s.waiters + 1 }, { f with myGen := s.generation, pc := .release })
  | .release =>
    match s.slot f.mutexIdx with
    | some i => (s.setEntry i (s.storage i).exit, { f with pc := .test })
    | none => (s, { f with pc := .test })
  | .test => if s.generation ≠ f.myGen then (s, { f with pc := .leave }) else (s, f)
  | .leave => ({ s with waiters := s.waiters - 1 }, { f with pc := .reenter })
  | .reenter =>
    match s.slot f.mutexIdx with
    | some i =>
      match Entry.tryEnter f.core (s.storage i) with
      | some e => (s.setEntry i e, { f with pc := .done })
      | none => (s, f)
    | none => (s, { f with pc := .done })
  | .done => (s, f)

def pthreadCondSignal : State :=
  if s.waiters > 0 then { s with generation := s.generation + 1 } else s

def pthreadCondBroadcast : State := { s with generation := s.generation + 1 }

/-- What a core does: wait on the variable, go on with a wait, signal, or use a mutex. -/
inductive Act
  | wait (c : Core) (m : ℕ)
  | go (i : ℕ)
  | signal
  | broadcast
  | lock (c : Core) (m : ℕ)
  | unlock (c : Core) (m : ℕ)
deriving DecidableEq

/-- Callers hold the mutex they pass. -/
def Enabled : Act → Bool
  | .wait c m | .unlock c m => s.holds c m
  | .go i => i < s.calls.length
  | .signal | .broadcast | .lock _ _ => true

/-- A critical section that has made `t` of the state is counted. -/
def State.count (t : State) : State :=
  { t with
    sections := s.sections + 1
    increments := s.increments + if t.generation = s.generation then 0 else 1 }

/-- A call that registers keeps the counts. -/
def Call.mark (f f' : Call) : Call :=
  if f.pc = .register then { f' with sections := s.sections, increments := s.increments } else f'

def next : Act → State
  | .wait c m => { s with calls := s.calls ++ [⟨c, m, .readHandle, 0, 0, 0, 0⟩] }
  | .go i =>
    match s.calls[i]? with
    | some f => { (exec s f).1 with calls := s.calls.set i (f.mark s (exec s f).2) }
    | none => s
  | .signal => s.count (pthreadCondSignal s)
  | .broadcast => s.count (pthreadCondBroadcast s)
  | .lock c m =>
    match s.slot (s.handle m) with
    | some i =>
      match Entry.tryEnter c (s.storage i) with
      | some e => s.setEntry i e
      | none => s
    | none => s
  | .unlock _ m =>
    match s.slot (s.handle m) with
    | some i => s.setEntry i (s.storage i).exit
    | none => s

def Step (s : State) (a : Act) (t : State) : Prop := Enabled s a = true ∧ t = next s a

/-- Between the increment and the decrement of `waiters`. -/
def Pc.registered : Pc → Bool
  | .release | .test | .leave => true
  | _ => false

/-- The call has registered and may test the generation again. -/
def Pc.waiting : Pc → Bool
  | .release | .test => true
  | _ => false

/-- The call is out of its loop. -/
def Pc.left : Pc → Bool
  | .leave | .reenter | .done => true
  | _ => false

/-- No wait lasts for 2^32 increments. -/
def Short : Prop :=
  ∀ f ∈ s.calls, f.pc.waiting = true → s.increments - f.increments < 2 ^ 32

instance : Decidable (Short s) := inferInstanceAs (Decidable (∀ f ∈ s.calls, _))

/-- What holds of the condition variable at any time: a test would succeed exactly when there
was a signal since the registration, and only such calls have left their loop. -/
structure Correct : Prop where
  waiters : s.waiters = s.calls.countP fun f => f.pc.registered
  tests : ∀ f ∈ s.calls, f.pc.waiting = true →
    (s.generation ≠ f.myGen ↔ f.sections < s.sections)
  left : ∀ f ∈ s.calls, f.pc.left = true → f.sections < s.sections

/-- A wait that returns in this step has its mutex. -/
def Returns (s : State) (_ : Act) (t : State) : Prop :=
  ∀ (i : ℕ) (f f' : Call), s.calls[i]? = some f → t.calls[i]? = some f' → f.pc ≠ .done → f'.pc = .done →
    t.holds f.core f.m = true

/-! ### The invariant -/

variable {s} {t : State} {f f' : Call} {i : ℕ} {e e' : Entry} {c : Core} {m : ℕ} {a : Act}

structure CallOk (s : State) (f : Call) : Prop where
  slot : (s.slot (s.handle f.m)).isSome = true
  idx : f.pc ≠ .readHandle → f.mutexIdx = s.handle f.m
  waiting : f.pc.waiting = true → f.myGen = BitVec.ofNat 32 f.increments ∧
    f.increments ≤ s.increments ∧ f.sections ≤ s.sections ∧
      (f.increments < s.increments ↔ f.sections < s.sections)
  left : f.pc.left = true → f.sections < s.sections

structure Inv (s : State) : Prop where
  generation : s.generation = BitVec.ofNat 32 s.increments
  waiters : s.waiters = s.calls.countP fun f => f.pc.registered
  calls : ∀ f ∈ s.calls, CallOk s f

/-- What the calls see of the state besides the owners of the mutexes. -/
structure Agree (s t : State) : Prop where
  handle : t.handle = s.handle
  magic : ∀ i, (t.storage i).magic = (s.storage i).magic
  sections : t.sections = s.sections
  increments : t.increments = s.increments

theorem Agree.slot (h : Agree s t) (idx : ℤ) : t.slot idx = s.slot idx := by
  simp [State.slot, h.magic]

theorem Agree.callOk (h : Agree s t) (hf : CallOk s f) : CallOk t f := by
  obtain ⟨h1, h2, h3, h4⟩ := hf
  refine ⟨?_, ?_, ?_, ?_⟩
  · simpa only [h.handle, h.slot] using h1
  · simpa only [h.handle] using h2
  · simpa only [h.increments, h.sections] using h3
  · simpa only [h.sections] using h4

theorem agree_setEntry (he : e.magic = (s.storage i).magic) : Agree s (s.setEntry i e) := by
  refine ⟨rfl, fun j => ?_, rfl, rfl⟩
  by_cases hj : j = i
  · subst hj
    simpa [State.setEntry] using he
  · simp [State.setEntry, hj]

theorem tryEnter_facts (h : Entry.tryEnter c e = some e') :
    e'.magic = e.magic ∧ e'.owner = some c := by
  simp only [Entry.tryEnter] at h
  split at h
  · cases h
    exact ⟨rfl, rfl⟩
  · cases h

/-- An access of one call changes the mutexes' owners and the number of waiters only. -/
structure Moved (s : State) (f : Call) (r : State × Call) : Prop where
  agree : Agree s r.1
  generation : r.1.generation = s.generation
  waiters : r.1.waiters + (if f.pc.registered then 1 else 0) =
    s.waiters + if r.2.pc.registered then 1 else 0
  call : CallOk r.1 r.2
  core : r.2.core = f.core ∧ r.2.m = f.m
  returns : f.pc ≠ .done → r.2.pc = .done → r.1.holds f.core f.m = true

theorem agree_refl : Agree s s := ⟨rfl, fun _ => rfl, rfl, rfl⟩

theorem mark_of_ne (h : f.pc ≠ .register) : f.mark s f' = f' := if_neg h

theorem exec_moved (hg : s.generation = BitVec.ofNat 32 s.increments) (hf : CallOk s f) :
    Moved s f ((exec s f).1, f.mark s (exec s f).2) := by
  obtain ⟨hslot, hidx, hwait, hleft⟩ := hf
  obtain ⟨c, m, pc, mutexIdx, myGen, sections, increments⟩ := f
  obtain ⟨k, hk⟩ := Option.isSome_iff_exists.mp hslot
  simp only at hslot hidx hk
  cases pc with
  | readHandle =>
    rw [mark_of_ne (by simp)]
    refine ⟨agree_refl, rfl, rfl, ⟨hslot, fun _ => rfl, ?_, ?_⟩, ⟨rfl, rfl⟩, ?_⟩
    · rintro ⟨⟩
    · rintro ⟨⟩
    · rintro - ⟨⟩
  | register =>
    have hm := hidx (by decide)
    refine ⟨⟨rfl, fun _ => rfl, rfl, rfl⟩, rfl, by simp [exec, Call.mark, Pc.registered], ?_,
      ⟨rfl, rfl⟩, ?_⟩
    · refine ⟨hslot, fun _ => hm, fun _ => ⟨hg, Nat.le_refl _, Nat.le_refl _, ?_⟩, ?_⟩
      · simp [exec, Call.mark]
      · rintro ⟨⟩
    · rintro - ⟨⟩
  | release =>
    have hm := hidx (by decide)
    subst hm
    rw [mark_of_ne (by simp)]
    simp only [exec, hk]
    have hag : Agree s (s.setEntry k (s.storage k).exit) := agree_setEntry rfl
    refine ⟨hag, rfl, rfl, hag.callOk ⟨hslot, fun _ => rfl, fun _ => hwait rfl, ?_⟩, ⟨rfl, rfl⟩, ?_⟩
    · rintro ⟨⟩
    · rintro - ⟨⟩
  | test =>
    have hm := hidx (by decide)
    obtain ⟨hgen, hle, -, hiff⟩ := hwait rfl
    rw [mark_of_ne (by simp)]
    simp only [exec]
    by_cases hne : s.generation ≠ myGen
    · simp only [if_pos hne]
      have hdiff : increments ≠ s.increments := by
        rintro rfl
        exact hne (hg.trans hgen.symm)
      simp only at hle hiff
      refine ⟨agree_refl, rfl, rfl, ⟨hslot, fun _ => hm, ?_, fun _ => hiff.mp (by omega)⟩,
        ⟨rfl, rfl⟩, ?_⟩
      · rintro ⟨⟩
      · rintro - ⟨⟩
    · simp only [if_neg hne]
      exact ⟨agree_refl, rfl, rfl, ⟨hslot, hidx, hwait, hleft⟩, ⟨rfl, rfl⟩, by rintro - ⟨⟩⟩
  | leave =>
    have hm := hidx (by decide)
    rw [mark_of_ne (by simp)]
    refine ⟨⟨rfl, fun _ => rfl, rfl, rfl⟩, rfl, by simp [exec, Pc.registered], ?_, ⟨rfl, rfl⟩, ?_⟩
    · exact ⟨hslot, fun _ => hm, by rintro ⟨⟩, fun _ => hleft rfl⟩
    · rintro - ⟨⟩
  | reenter =>
    have hm := hidx (by decide)
    subst hm
    rw [mark_of_ne (by simp)]
    simp only [exec, hk]
    cases he : Entry.tryEnter c (s.storage k) with
    | none => exact ⟨agree_refl, rfl, rfl, ⟨hslot, hidx, hwait, hleft⟩, ⟨rfl, rfl⟩, by rintro - ⟨⟩⟩
    | some e =>
      obtain ⟨hmag, how⟩ := tryEnter_facts he
      have hag : Agree s (s.setEntry k e) := agree_setEntry hmag
      refine ⟨hag, rfl, rfl, hag.callOk ⟨hslot, fun _ => rfl, ?_, fun _ => hleft rfl⟩, ⟨rfl, rfl⟩,
        fun _ _ => ?_⟩
      · rintro ⟨⟩
      · have hhandle : (s.setEntry k e).handle m = s.handle m := rfl
        simp only [State.holds, hhandle, hag.slot, hk]
        simp [State.setEntry, how]
  | done =>
    rw [mark_of_ne (by simp)]
    exact ⟨agree_refl, rfl, rfl, ⟨hslot, hidx, hwait, hleft⟩, ⟨rfl, rfl⟩, fun h => absurd rfl h⟩

theorem inv_go (hi : Inv s) (hf : s.calls[i]? = some f) : Inv (next s (.go i)) := by
  have hmem : f ∈ s.calls := List.mem_of_getElem? hf
  obtain ⟨hlt, hget⟩ := List.getElem?_eq_some_iff.mp hf
  have hm := exec_moved hi.generation (hi.calls f hmem)
  simp only [next, hf]
  refine ⟨?_, ?_, fun g hg => ?_⟩
  · rw [hm.generation, hi.generation, hm.agree.increments]
  · have hw := hm.waiters
    have hpos : f.pc.registered = true → 0 < s.calls.countP fun f => f.pc.registered :=
      fun h => List.countP_pos_iff.mpr ⟨f, hmem, h⟩
    simp only [List.countP_set hlt, hget]
    rw [hi.waiters] at hw
    cases h1 : f.pc.registered <;> cases h2 : (f.mark s (exec s f).2).pc.registered <;>
      simp only [h1, h2, if_true, Bool.false_eq_true, if_false, forall_const] at hw hpos ⊢ <;> omega
  · rcases List.mem_or_eq_of_mem_set hg with hg | rfl
    · have hok := hm.agree.callOk (hi.calls g hg)
      exact ⟨hok.slot, hok.idx, hok.waiting, hok.left⟩
    · have hok := hm.call
      exact ⟨hok.slot, hok.idx, hok.waiting, hok.left⟩

/-- A critical section that has incremented `generation`. -/
theorem inv_increment (hi : Inv s) : Inv (s.count { s with generation := s.generation + 1 }) := by
  have hne : s.generation + 1 ≠ s.generation := by bv_omega
  rw [State.count, if_neg hne]
  refine ⟨?_, hi.waiters, fun f hf => ?_⟩
  · change s.generation + 1 = BitVec.ofNat 32 (s.increments + 1)
    rw [hi.generation, BitVec.ofNat_add]
    rfl
  · obtain ⟨hslot, hidx, hwait, hleft⟩ := hi.calls f hf
    refine ⟨hslot, hidx, fun hw => ?_, fun hl => ?_⟩
    · obtain ⟨hgen, hinc, hsec, -⟩ := hwait hw
      refine ⟨hgen, ?_, ?_, ?_⟩ <;> simp only <;> omega
    · have hlt := hleft hl
      simp only
      omega

/-- A signal that finds no waiters has nobody to wake: a call that may still test is one. -/
theorem inv_signal (hi : Inv s) : Inv (s.count (pthreadCondSignal s)) := by
  by_cases hpos : s.waiters > 0
  · have hs : pthreadCondSignal s = { s with generation := s.generation + 1 } := if_pos hpos
    rw [hs]
    exact inv_increment hi
  · have hs : pthreadCondSignal s = s := if_neg hpos
    rw [hs, State.count, if_pos rfl]
    refine ⟨hi.generation, hi.waiters, fun f hf => ?_⟩
    obtain ⟨hslot, hidx, hwait, hleft⟩ := hi.calls f hf
    refine ⟨hslot, hidx, fun hw => ?_, fun hl => ?_⟩
    · have hreg : f.pc.registered = true := by
        cases hpc : f.pc <;> simp [hpc, Pc.waiting, Pc.registered] at hw ⊢
      have hcount : 0 < s.calls.countP fun f => f.pc.registered :=
        List.countP_pos_iff.mpr ⟨f, hf, hreg⟩
      have hw := hi.waiters
      omega
    · have hlt := hleft hl
      simp only
      omega

/-- What the program does with its mutexes is no business of the condition variable. -/
theorem inv_setEntry (hi : Inv s) (he : e.magic = (s.storage i).magic) : Inv (s.setEntry i e) :=
  ⟨hi.generation, hi.waiters, fun f hf => (agree_setEntry he).callOk (hi.calls f hf)⟩

theorem inv_wait (hi : Inv s) (hh : s.holds c m = true) : Inv (next s (.wait c m)) := by
  refine ⟨hi.generation, ?_, fun f hf => ?_⟩
  · simpa [next, List.countP_append, Pc.registered] using hi.waiters
  · rcases List.mem_append.mp hf with hf | hf
    · have hok := hi.calls f hf
      exact ⟨hok.slot, hok.idx, hok.waiting, hok.left⟩
    · obtain rfl := List.mem_singleton.mp hf
      refine ⟨?_, fun h => absurd rfl h, by rintro ⟨⟩, by rintro ⟨⟩⟩
      cases hk : s.slot (s.handle m) with
      | none => simp [State.holds, hk] at hh
      | some k => exact Option.isSome_iff_exists.mpr ⟨k, hk⟩

theorem inv_step (hi : Inv s) (hs : Step s a t) : Inv t := by
  obtain ⟨hen, rfl⟩ := hs
  cases a with
  | wait c m => exact inv_wait hi hen
  | go i =>
    cases hf : s.calls[i]? with
    | none => simpa only [next, hf] using hi
    | some f => exact inv_go hi hf
  | signal => exact inv_signal hi
  | broadcast => exact inv_increment hi
  | lock c m =>
    simp only [next]
    split
    · split
      · rename_i he
        exact inv_setEntry hi (tryEnter_facts he).1
      · exact hi
    · exact hi
  | unlock c m =>
    simp only [next]
    split
    · exact inv_setEntry hi rfl
    · exact hi

theorem initial_inv (handle : ℕ → ℤ) (storage : ℕ → Entry) : Inv (State.initial handle storage) := by
  refine ⟨rfl, rfl, ?_⟩
  rintro f ⟨⟩

/-- Counters that differ by less than 2^32 are told apart by their low words. -/
theorem Inv.correct (hi : Inv s) (hshort : Short s) : Correct s := by
  refine ⟨hi.waiters, fun f hf hw => ?_, fun f hf hl => (hi.calls f hf).left hl⟩
  obtain ⟨hgen, hinc, -, hiff⟩ := (hi.calls f hf).waiting hw
  have hlt := hshort f hf hw
  rw [← hiff, hi.generation, hgen, ne_eq, ← BitVec.toNat_inj, BitVec.toNat_ofNat,
    BitVec.toNat_ofNat]
  omega

/-- A step that makes a call return is that call's own. -/
theorem returns_step (hi : Inv s) (hs : Step s a t) : Returns s a t := by
  obtain ⟨hen, rfl⟩ := hs
  intro j f f' hf hf' hpc hpc'
  have hmem : f ∈ s.calls := List.mem_of_getElem? hf
  have hsame : (next s a).calls = s.calls → (next s a).holds f.core f.m = true := by
    intro hcalls
    rw [hcalls, hf, Option.some.injEq] at hf'
    exact absurd (hf' ▸ hpc') hpc
  cases a with
  | wait c m =>
    obtain ⟨hlt, -⟩ := List.getElem?_eq_some_iff.mp hf
    have hget : (s.calls ++ [⟨c, m, .readHandle, 0, 0, 0, 0⟩])[j]? = some f := by
      rw [List.getElem?_append_left hlt, hf]
    simp only [next, hget, Option.some.injEq] at hf'
    exact absurd (hf' ▸ hpc') hpc
  | go i =>
    cases hg : s.calls[i]? with
    | none =>
      apply hsame
      simp only [next, hg]
    | some g =>
      have hm := exec_moved hi.generation (hi.calls g (List.mem_of_getElem? hg))
      simp only [next, hg] at hf' ⊢
      by_cases hij : i = j
      · subst hij
        obtain rfl := Option.some.inj (hg.symm.trans hf)
        obtain ⟨hlt, -⟩ := List.getElem?_eq_some_iff.mp hf
        rw [List.getElem?_set_self hlt, Option.some.injEq] at hf'
        exact hm.returns hpc (hf' ▸ hpc')
      · rw [List.getElem?_set_ne hij, hf, Option.some.injEq] at hf'
        exact absurd (hf' ▸ hpc') hpc
  | signal =>
    apply hsame
    simp only [next, State.count, pthreadCondSignal]
    split <;> rfl
  | broadcast => exact hsame rfl
  | lock c m =>
    apply hsame
    simp only [next]
    split
    · split <;> rfl
    · rfl
  | unlock c m =>
    apply hsame
    simp only [next]
    split <;> rfl

/-- No wake-up is lost, none is spurious, and every wait returns with its mutex, in every
interleaving of any number of calls in which no wait lasts for 2^32 increments. -/
theorem no_lost_wakeup (handle : ℕ → ℤ) (storage : ℕ → Entry) (xs : List (Act × State))
    (hrun : Lts.Run Step (State.initial handle storage) xs)
    (hshort : Lts.Always Short (State.initial handle storage) xs) :
    Lts.Always Correct (State.initial handle storage) xs ∧
      Lts.Run Returns (State.initial handle storage) xs := by
  obtain ⟨hinv, hret⟩ := hrun.keeps (p := Inv) (c := Returns) (initial_inv handle storage)
    fun u a v hu hs => ⟨inv_step hu hs, returns_step hu hs⟩
  exact ⟨⟨hinv.1.correct hshort.1, fun x hx => (hinv.2 x hx).correct (hshort.2 x hx)⟩, hret⟩

/-- One core waits with mutex 0, is signalled, and returns with the mutex. -/
theorem no_lost_wakeup_signalled :
    let s₀ := State.initial (fun m => m) fun _ => ⟨true, none, 0⟩
    let acts : List Act := [.lock .zero 0, .wait .zero 0, .go 0, .go 0, .go 0, .lock .one 0, .signal,
      .unlock .one 0, .go 0, .go 0, .go 0]
    let xs := Lts.trace next s₀ acts
    (Lts.Always Correct s₀ xs ∧ Lts.Run Returns s₀ xs) ∧
      (acts.foldl next s₀).calls.map Call.pc = [.done] := by
  refine ⟨no_lost_wakeup _ _ _ (Lts.run_accepts Enabled (by decide)) ?_, by decide⟩
  unfold Lts.Always
  decide

end PicoOcaml.OcamlStubs.Condvar
