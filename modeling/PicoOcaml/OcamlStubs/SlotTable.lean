import PicoOcaml.Lts
import PicoOcaml.OcamlStubs.Mutex

/-! Explicit initialisation and destruction of mutexes and condition variables. -/
namespace PicoOcaml.OcamlStubs.SlotTable

/-- `pico_condvar_t` without its lock. -/
structure Condvar where
  waiters : ℕ
  generation : BitVec 32
deriving DecidableEq

def maxCondvars : ℕ := 64

/-- A static table whose entries carry their magic number once they are in use, its counter, and
the int that every object of the kind stores. -/
structure Table (ε : Type*) where
  count : ℕ
  storage : ℕ → Option ε
  handle : ℕ → ℤ

def Table.initial {ε : Type*} (memory : ℕ → ℤ) : Table ε := ⟨0, fun _ => none, memory⟩

def enomem : ℤ := 12

/-- Both init functions take the next slot and write it to the object. -/
def Table.init {ε : Type*} (size : ℕ) (fresh : ε) (t : Table ε) (m : ℕ) : ℤ × Table ε :=
  if t.count ≥ size then (enomem, t)
  else (0, ⟨t.count + 1, Function.update t.storage t.count (some fresh),
    Function.update t.handle m t.count⟩)

/-- `recursive_mutex_init` leaves no owner. -/
def pthreadMutexInit : Table (Option Core × ℕ) → ℕ → ℤ × Table (Option Core × ℕ) :=
  Table.init maxMutexes (none, 0)

def pthreadMutexDestroy (t : Table (Option Core × ℕ)) (_ : ℕ) : ℤ × Table (Option Core × ℕ) :=
  (0, t)

def pthreadCondInit : Table Condvar → ℕ → ℤ × Table Condvar := Table.init maxCondvars ⟨0, 0⟩

def pthreadCondDestroy (t : Table Condvar) (_ : ℕ) : ℤ × Table Condvar := (0, t)

inductive Kind | mutex | cond
deriving DecidableEq

inductive Call
  | init (k : Kind) (m : ℕ)
  | destroy (k : Kind) (m : ℕ)
deriving DecidableEq

/-- The two tables, and the objects initialised and not yet destroyed. -/
structure State where
  mutexes : Table (Option Core × ℕ)
  conds : Table Condvar
  live : Kind → List ℕ

def State.initial (memory : Kind → ℕ → ℤ) : State :=
  ⟨.initial (memory .mutex), .initial (memory .cond), fun _ => []⟩

def State.handle (s : State) : Kind → ℕ → ℤ
  | .mutex => s.mutexes.handle
  | .cond => s.conds.handle

def State.count (s : State) : Kind → ℕ
  | .mutex => s.mutexes.count
  | .cond => s.conds.count

/-- What the call returns. -/
def State.answer (s : State) : Call → ℤ
  | .init .mutex m => (pthreadMutexInit s.mutexes m).1
  | .init .cond m => (pthreadCondInit s.conds m).1
  | .destroy .mutex m => (pthreadMutexDestroy s.mutexes m).1
  | .destroy .cond m => (pthreadCondDestroy s.conds m).1

def State.tables (s : State) : Call → State
  | .init .mutex m => { s with mutexes := (pthreadMutexInit s.mutexes m).2 }
  | .init .cond m => { s with conds := (pthreadCondInit s.conds m).2 }
  | .destroy .mutex m => { s with mutexes := (pthreadMutexDestroy s.mutexes m).2 }
  | .destroy .cond m => { s with conds := (pthreadCondDestroy s.conds m).2 }

def State.next (s : State) (o : Call) : State :=
  let live := match o with
    | .init k m =>
      if s.answer o = 0 then Function.update s.live k ((s.live k).insert m) else s.live
    | .destroy k m => Function.update s.live k ((s.live k).erase m)
  { s.tables o with live := live }

/-- At most 64 objects of either kind are live. -/
def State.Few (s : State) : Prop := (s.live .mutex).length ≤ 64 ∧ (s.live .cond).length ≤ 64

instance (s : State) : Decidable s.Few := inferInstanceAs (Decidable (_ ∧ _))

/-- Live objects of one kind have slots of the table, and no two the same. -/
def State.Distinct (s : State) : Prop :=
  ∀ k, ∀ m ∈ s.live k, (∃ i : ℕ, s.handle k m = i ∧ i < 64) ∧
    ∀ m' ∈ s.live k, s.handle k m' = s.handle k m → m' = m

/-- An init does not fail. -/
def State.Succeeds (s : State) (o : Call) (_ : State) : Prop :=
  match o with
  | .init _ _ => s.answer o = 0
  | .destroy _ _ => True

def Call.inits (k : Kind) : Call → Bool
  | .init k' _ => k' = k
  | .destroy _ _ => false

variable {s : State} {o : Call} {k k' : Kind} {m m' : ℕ}

theorem init_fst {ε : Type*} (size : ℕ) (fresh : ε) (t : Table ε) (m : ℕ) :
    (t.init size fresh m).1 = if t.count < size then 0 else enomem := by
  by_cases h : t.count < size
  · simp [Table.init, h, Nat.not_le.mpr h]
  · simp [Table.init, h, Nat.le_of_not_lt h]

theorem answer_init : s.answer (.init k m) = if s.count k < 64 then 0 else enomem := by
  cases k
  · exact init_fst _ _ _ _
  · exact init_fst _ _ _ _

theorem handle_next_destroy : (s.next (.destroy k m)).handle = s.handle := by
  funext k'
  cases k <;> cases k' <;> rfl

theorem count_next_destroy : (s.next (.destroy k m)).count = s.count := by
  funext k'
  cases k <;> cases k' <;> rfl

theorem next_init_full (h : ¬ s.count k < 64) : s.next (.init k m) = s := by
  have hans : s.answer (.init k m) = enomem := by rw [answer_init, if_neg h]
  have htab : s.tables (.init k m) = s := by
    cases k <;>
      simp only [State.count] at h <;>
      simp [State.tables, pthreadMutexInit, pthreadCondInit, Table.init, maxMutexes, maxCondvars,
        Nat.le_of_not_lt h]
  have hne : ¬ enomem = 0 := by decide
  simp only [State.next, hans, if_neg hne, htab]

theorem next_init (h : s.count k < 64) :
    (s.next (.init k m)).count = Function.update s.count k (s.count k + 1) ∧
      (s.next (.init k m)).handle =
        Function.update s.handle k (Function.update (s.handle k) m (s.count k)) ∧
      (s.next (.init k m)).live = Function.update s.live k ((s.live k).insert m) := by
  have hans : s.answer (.init k m) = 0 := by rw [answer_init, if_pos h]
  refine ⟨?_, ?_, by simp only [State.next, hans, if_true]⟩
  · funext k'
    cases k <;> simp only [State.count] at h <;> cases k' <;>
      simp [State.next, State.tables, State.count, pthreadMutexInit, pthreadCondInit, Table.init,
        maxMutexes, maxCondvars, Nat.not_le.mpr h]
  · funext k'
    cases k <;> simp only [State.count] at h <;> cases k' <;>
      simp [State.next, State.tables, State.count, State.handle, pthreadMutexInit, pthreadCondInit,
        Table.init, maxMutexes, maxCondvars, Nat.not_le.mpr h]

/-- Slots are given in order: every live object's slot lies below the counter. -/
structure Inv (s : State) : Prop where
  bound : ∀ k, s.count k ≤ 64
  below : ∀ k, ∀ m ∈ s.live k, ∃ i : ℕ, s.handle k m = i ∧ i < s.count k
  distinct : ∀ k, ∀ m ∈ s.live k, ∀ m' ∈ s.live k, s.handle k m' = s.handle k m → m' = m

theorem Inv.next (hi : Inv s) (o : Call) : Inv (s.next o) := by
  obtain ⟨hb, hl, hd⟩ := hi
  cases o with
  | init k m =>
    by_cases h : s.count k < 64
    · obtain ⟨hc, hh, hv⟩ := next_init h (m := m)
      refine ⟨fun k' => ?_, fun k' m' hm' => ?_, fun k' m' hm' m'' hm'' heq => ?_⟩
      · by_cases hk : k' = k
        · subst hk
          simp only [hc, Function.update_self]
          omega
        · simpa only [hc, Function.update_of_ne hk] using hb k'
      · by_cases hk : k' = k
        · subst hk
          simp only [hc, hh, hv, Function.update_self] at hm' ⊢
          by_cases hmm : m' = m
          · exact ⟨s.count k', by simp [hmm], Nat.lt_succ_self _⟩
          · obtain ⟨i, hi, hlt⟩ := hl k' m' ((List.mem_insert_iff.mp hm').resolve_left hmm)
            exact ⟨i, by simpa [hmm] using hi, by omega⟩
        · simp only [hc, hh, hv, Function.update_of_ne hk] at hm' ⊢
          exact hl k' m' hm'
      · by_cases hk : k' = k
        · subst hk
          simp only [hh, hv, Function.update_self] at hm' hm'' heq
          have hold : ∀ x ∈ (s.live k').insert m, x ≠ m → x ∈ s.live k' ∧
              s.handle k' x ≠ s.count k' := by
            intro x hx hxm
            have hx' := (List.mem_insert_iff.mp hx).resolve_left hxm
            obtain ⟨i, hi, hlt⟩ := hl k' x hx'
            exact ⟨hx', by rw [hi]; omega⟩
          by_cases h1 : m' = m <;> by_cases h2 : m'' = m
          · rw [h1, h2]
          · simp only [h1, Function.update_self, Function.update_of_ne h2] at heq
            exact absurd heq (hold m'' hm'' h2).2
          · simp only [h2, Function.update_self, Function.update_of_ne h1] at heq
            exact absurd heq.symm (hold m' hm' h1).2
          · simp only [Function.update_of_ne h1, Function.update_of_ne h2] at heq
            exact hd k' m' (hold m' hm' h1).1 m'' (hold m'' hm'' h2).1 heq
        · simp only [hh, hv, Function.update_of_ne hk] at hm' hm'' heq
          exact hd k' m' hm' m'' hm'' heq
    · rw [next_init_full h]
      exact ⟨hb, hl, hd⟩
  | destroy k m =>
    have hsub : ∀ k' x, x ∈ (s.next (.destroy k m)).live k' → x ∈ s.live k' := by
      intro k' x hx
      by_cases hk : k' = k
      · subst hk
        simp only [State.next, Function.update_self] at hx
        exact List.mem_of_mem_erase hx
      · simpa only [State.next, Function.update_of_ne hk] using hx
    refine ⟨?_, ?_, ?_⟩
    · rw [count_next_destroy]
      exact hb
    · rw [count_next_destroy, handle_next_destroy]
      exact fun k' x hx => hl k' x (hsub k' x hx)
    · rw [handle_next_destroy]
      exact fun k' x hx y hy h => hd k' x (hsub k' x hx) y (hsub k' y hy) h

theorem initial_inv (memory : Kind → ℕ → ℤ) : Inv (State.initial memory) := by
  refine ⟨fun k => ?_, ?_, ?_⟩
  · cases k <;> exact Nat.zero_le _
  · rintro k m ⟨⟩
  · rintro k m ⟨⟩

theorem Inv.distinct_live (hi : Inv s) : s.Distinct := by
  intro k m hm
  obtain ⟨i, heq, hlt⟩ := hi.below k m hm
  have hb := hi.bound k
  exact ⟨⟨i, heq, by omega⟩, hi.distinct k m hm⟩

/-- A destroy gives nothing back, so the counter only counts the inits. -/
theorem count_next (h : s.count k ≤ 64) :
    (s.next o).count k = min 64 (s.count k + if o.inits k then 1 else 0) := by
  cases o with
  | init k' m =>
    by_cases hlt : s.count k' < 64
    · rw [(next_init hlt).1]
      by_cases hk : k = k'
      · subst hk
        simp only [Call.inits, Function.update_self, decide_true, if_true]
        omega
      · have hk' : ¬ k' = k := fun h => hk h.symm
        simp only [Call.inits, Function.update_of_ne hk, hk', decide_false, Bool.false_eq_true,
          if_false]
        omega
    · rw [next_init_full hlt]
      by_cases hk : k = k'
      · subst hk
        split <;> omega
      · have hk' : ¬ k' = k := fun h => hk h.symm
        simp only [Call.inits, hk', decide_false, Bool.false_eq_true, if_false]
        omega
  | destroy k' m =>
    rw [count_next_destroy]
    simp only [Call.inits, Bool.false_eq_true, if_false]
    omega

theorem count_foldl (calls : List Call) (h : s.count k ≤ 64) :
    (calls.foldl State.next s).count k = min 64 (s.count k + calls.countP (Call.inits k)) := by
  induction calls generalizing s with
  | nil => simp [h]
  | cons o calls ih =>
    have hnext := count_next (o := o) h
    rw [List.foldl_cons, ih (by omega), hnext, List.countP_cons]
    omega

theorem answer_foldl (memory : Kind → ℕ → ℤ) (calls : List Call) (k : Kind) (m : ℕ) :
    (calls.foldl State.next (State.initial memory)).answer (.init k m) =
      if calls.countP (Call.inits k) < 64 then 0 else enomem := by
  have hcount : (State.initial memory).count k = 0 := by cases k <;> rfl
  have hfold := count_foldl (s := State.initial memory) (k := k) calls (by omega)
  rw [answer_init, hfold, hcount]
  split <;> split <;> first | rfl | omega

/-- After any calls an init succeeds exactly when fewer than 64 objects of its kind have been
initialised before, destroyed or not, and live objects always have slots of their own. -/
theorem init_answers (memory : Kind → ℕ → ℤ) (calls : List Call) :
    (∀ k m, (calls.foldl State.next (State.initial memory)).answer (.init k m) =
        if calls.countP (Call.inits k) < 64 then 0 else enomem) ∧
      Lts.Always State.Distinct (State.initial memory)
        (Lts.trace State.next (State.initial memory) calls) := by
  refine ⟨answer_foldl memory calls, ?_⟩
  have halways : Lts.Always Inv (State.initial memory)
      (Lts.trace State.next (State.initial memory) calls) :=
    Lts.run_trace.always (initial_inv memory) fun u o v hu hv => hv ▸ hu.next o
  exact halways.imp fun u hu => hu.distinct_live

/-- One mutex, initialised and destroyed 64 times, uses up the table. -/
theorem slots_not_reclaimed :
    ¬ ∀ (memory : Kind → ℕ → ℤ) (calls : List Call),
      let xs := Lts.trace State.next (State.initial memory) calls
      Lts.Always State.Few (State.initial memory) xs →
        Lts.Run State.Succeeds (State.initial memory) xs ∧
          Lts.Always State.Distinct (State.initial memory) xs := by
  intro h
  let rounds := (List.replicate 64 [Call.init .mutex 0, Call.destroy .mutex 0]).flatten
  obtain ⟨hrun, -⟩ := h (fun _ _ => 0) (rounds ++ [.init .mutex 0]) (by
    unfold Lts.Always
    decide +kernel)
  rw [Lts.trace_append, Lts.run_append, Lts.last_trace] at hrun
  have hans := hrun.2.1
  simp only [State.Succeeds, answer_foldl] at hans
  exact absurd hans (by decide +kernel)

end PicoOcaml.OcamlStubs.SlotTable
