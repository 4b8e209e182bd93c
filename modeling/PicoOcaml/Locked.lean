import PicoOcaml.Lts
import Mathlib.Data.Nat.Notation
import Mathlib.Logic.Function.Basic
import Mathlib.Logic.Relation

/-! Processes that run sections of code under one test-and-set lock, an access at a time. -/
namespace Locked

/-- `enter` is what a process does for a job before it asks for the lock, on data of its own. `body`
is one access of the section under the lock, `none` at its end. -/
structure Code (κ π σ : Type*) where
  enter : κ → π → π
  body : π → σ → Option (π × σ)

inductive Pc (κ : Type*)
  | out
  | asking (job : κ)
  | inside (job : κ)

/-- The lock, what it guards, what each process has to itself, and a history of the sections that
have been left. -/
structure State (ι κ π σ : Type*) where
  flag : Bool
  data : σ
  own : ι → π
  pc : ι → Pc κ
  log : List (ι × κ)

inductive Act (ι κ : Type*)
  | begin (i : ι) (job : κ)
  | step (i : ι)

variable {ι κ π σ : Type*} {c : Code κ π σ}

def State.initial (d : σ) (own : ι → π) : State ι κ π σ := ⟨false, d, own, fun _ => .out, []⟩

variable [DecidableEq ι]

/-- A process that finds the lock taken asks again. -/
def State.next (c : Code κ π σ) (s : State ι κ π σ) : Act ι κ → State ι κ π σ
  | .begin i job => { s with
      own := Function.update s.own i (c.enter job (s.own i))
      pc := Function.update s.pc i (.asking job) }
  | .step i =>
    match s.pc i with
    | .out => s
    | .asking job =>
      if s.flag then s else { s with flag := true, pc := Function.update s.pc i (.inside job) }
    | .inside job =>
      match c.body (s.own i) s.data with
      | some (p, d) => { s with own := Function.update s.own i p, data := d }
      | none => { s with
          flag := false, pc := Function.update s.pc i .out, log := s.log ++ [(i, job)] }

/-- A process begins one job at a time. -/
def Allowed (s : State ι κ π σ) (a : Act ι κ) : Prop := ∀ i job, a = .begin i job → s.pc i = .out

def Step (c : Code κ π σ) (s : State ι κ π σ) (a : Act ι κ) (t : State ι κ π σ) : Prop :=
  Allowed s a ∧ t = s.next c a

/-- `Allowed`, as a test. -/
def allowed (s : State ι κ π σ) : Act ι κ → Bool
  | .begin i _ => match s.pc i with
    | .out => true
    | _ => false
  | .step _ => true

theorem run_of_allowed {s : State ι κ π σ} {as : List (Act ι κ)}
    (h : Lts.accepts allowed (State.next c) s as = true) :
    Lts.Run (Step c) s (Lts.trace (State.next c) s as) := by
  refine (Lts.run_accepts allowed h).imp fun u a v hv => ⟨?_, hv.2⟩
  rintro i job rfl
  have hok := hv.1
  simp only [allowed] at hok
  split at hok
  · assumption
  · cases hok

/-- A section that runs to its end with nothing in between. -/
inductive Ends (c : Code κ π σ) : π → σ → π → σ → Prop
  | done {p d} : c.body p d = none → Ends c p d p d
  | step {p d p' d' p'' d''} : c.body p d = some (p', d') → Ends c p' d' p'' d'' →
      Ends c p d p'' d''

/-- Whole jobs one after the other. -/
inductive Serial (c : Code κ π σ) (d₀ : σ) (own₀ : ι → π) : List (ι × κ) → σ → (ι → π) → Prop
  | nil : Serial c d₀ own₀ [] d₀ own₀
  | snoc {l d own i job p d'} : Serial c d₀ own₀ l d own → Ends c (c.enter job (own i)) d p d' →
      Serial c d₀ own₀ (l ++ [(i, job)]) d' (Function.update own i p)

variable {s t : State ι κ π σ} {a : Act ι κ} {i j : ι} {job : κ} {p p' p'' : π} {d d' d'' : σ}
  {own : ι → π} {xs : List (Act ι κ × State ι κ π σ)}

theorem Ends.trans {x : π × σ}
    (h : Relation.ReflTransGen (fun x y : π × σ => c.body x.1 x.2 = some y) x (p, d))
    (he : Ends c p d p' d') : Ends c x.1 x.2 p' d' := by
  induction h using Relation.ReflTransGen.head_induction_on with
  | refl => exact he
  | head hstep _ ih => exact .step hstep ih

theorem Ends.unique (h : Ends c p d p' d') {q : π} {e : σ} (h' : Ends c p d q e) :
    p' = q ∧ d' = e := by
  induction h with
  | done hnone =>
    cases h' with
    | done => exact ⟨rfl, rfl⟩
    | step hsome _ =>
      rw [hnone] at hsome
      cases hsome
  | step hsome _ ih =>
    cases h' with
    | done hnone =>
      rw [hnone] at hsome
      cases hsome
    | step hsome' hrest =>
      rw [hsome] at hsome'
      cases hsome'
      exact ih hrest

/-- A section that has come some way goes on to the same end. -/
theorem ends_of_reaches {x y : π × σ} (he : Ends c x.1 x.2 p' d')
    (h : Relation.ReflTransGen (fun x y : π × σ => c.body x.1 x.2 = some y) x y) :
    Ends c y.1 y.2 p' d' := by
  induction h with
  | refl => exact he
  | tail _ hstep ih =>
    cases ih with
    | done hnone =>
      rw [hnone] at hstep
      cases hstep
    | step hsome hrest =>
      rw [hsome] at hstep
      cases hstep
      exact hrest

/-! ### Atomicity -/

/-- Where a process stands against a machine that runs each job at once, in the state `d`, `own`. -/
def Stands (c : Code κ π σ) (s : State ι κ π σ) (d : σ) (own : ι → π) (i : ι) : Prop :=
  match s.pc i with
  | .out => s.own i = own i
  | .asking job => s.own i = c.enter job (own i)
  | .inside job => s.flag = true ∧ Relation.ReflTransGen
      (fun x y : π × σ => c.body x.1 x.2 = some y) (c.enter job (own i), d) (s.own i, s.data)

def Inside (s : State ι κ π σ) (i : ι) : Prop := ∃ job, s.pc i = .inside job

/-- The state as the machine that runs each job at once sees it: the section under way has not
begun. -/
structure Atomic (c : Code κ π σ) (d₀ : σ) (own₀ : ι → π) (s : State ι κ π σ) (d : σ)
    (own : ι → π) : Prop where
  serial : Serial c d₀ own₀ s.log d own
  stands : ∀ i, Stands c s d own i
  alone : ∀ i j, Inside s i → Inside s j → i = j
  taken : s.flag = true → ∃ i, Inside s i
  idle : s.flag = false → s.data = d

variable {d₀ : σ} {own₀ : ι → π}

omit [DecidableEq ι] in
theorem Stands.congr {own' : ι → π} (h : Stands c s d own i) (hpc : t.pc i = s.pc i)
    (hown : t.own i = s.own i) (hown' : own' i = own i) (hi : ¬ Inside s i) :
    Stands c t d' own' i := by
  unfold Stands at h ⊢
  rw [hpc, hown, hown']
  cases hp : s.pc i with
  | out => simpa only [hp] using h
  | asking job => simpa only [hp] using h
  | inside job => exact absurd ⟨job, hp⟩ hi

theorem initial_atomic : Atomic c d₀ own₀ (State.initial d₀ own₀ : State ι κ π σ) d₀ own₀ := by
  refine ⟨.nil, fun i => rfl, ?_, ?_, fun _ => rfl⟩
  · rintro i j ⟨job, hi⟩
    cases hi
  · intro h
    cases h

theorem Atomic.flag (h : Atomic c d₀ own₀ s d own) (hi : Inside s i) : s.flag = true := by
  obtain ⟨job, hi⟩ := hi
  have hs := h.stands i
  simp only [Stands, hi] at hs
  exact hs.1

omit [DecidableEq ι] in
theorem Stands.out (h : Stands c s d own i) (hi : s.pc i = .out) : s.own i = own i := by
  simpa only [Stands, hi] using h

/-- What a process that stays as it is keeps, when another one goes in or comes out. -/
theorem Atomic.other {own' : ι → π} (h : Atomic c d₀ own₀ s d own) (hi : Inside s i ∨ s.flag = false)
    (hji : j ≠ i) (hpc : t.pc j = s.pc j) (hown : t.own j = s.own j) (hown' : own' j = own j) :
    Stands c t d' own' j := by
  refine (h.stands j).congr hpc hown hown' fun hj => ?_
  rcases hi with hi | hfree
  · exact hji (h.alone j i hj hi)
  · rw [h.flag hj] at hfree
    cases hfree

theorem Atomic.step (h : Atomic c d₀ own₀ s d own) (hs : Step c s a t) :
    ∃ d' own', Atomic c d₀ own₀ t d' own' := by
  obtain ⟨hallowed, rfl⟩ := hs
  cases a with
  | begin i job =>
    have hout := hallowed i job rfl
    have hinside : ∀ j, Inside (s.next c (.begin i job)) j ↔ Inside s j := by
      intro j
      by_cases hji : j = i
      · subst hji
        simp [Inside, State.next, hout]
      · simp [Inside, State.next, hji]
    refine ⟨d, own, h.serial, fun j => ?_, ?_, ?_, h.idle⟩
    · by_cases hji : j = i
      · subst hji
        have hstands := h.stands j
        simp only [Stands, hout] at hstands
        simp [Stands, State.next, hstands]
      · simpa [Stands, State.next, hji] using h.stands j
    · intro j k hj hk
      exact h.alone j k ((hinside j).mp hj) ((hinside k).mp hk)
    · intro hflag
      obtain ⟨j, hj⟩ := h.taken hflag
      exact ⟨j, (hinside j).mpr hj⟩
  | step i =>
    cases hpc : s.pc i with
    | out =>
      simp only [State.next, hpc]
      exact ⟨d, own, h⟩
    | asking job =>
      by_cases hflag : s.flag = true
      · simp only [State.next, hpc, hflag, if_true]
        exact ⟨d, own, h⟩
      · have hfree : s.flag = false := by simpa using hflag
        have hstands := h.stands i
        simp only [Stands, hpc] at hstands
        have hnext : s.next c (.step i) =
            { s with flag := true, pc := Function.update s.pc i (.inside job) } := by
          simp [State.next, hpc, hfree]
        rw [hnext]
        have hothers : ∀ j, j ≠ i → Stands c
            { s with flag := true, pc := Function.update s.pc i (.inside job) } d own j :=
          fun j hji => h.other (.inr hfree) hji (Function.update_of_ne hji _ _) rfl rfl
        have halone : ∀ j, Inside { s with
            flag := true, pc := Function.update s.pc i (.inside job) } j → j = i := by
          rintro j ⟨job', hj⟩
          by_contra hji
          have hin : Inside s j := ⟨job', (Function.update_of_ne hji _ _).symm.trans hj⟩
          rw [h.flag hin] at hfree
          cases hfree
        refine ⟨d, own, h.serial, fun j => ?_, ?_, ?_, ?_⟩
        · by_cases hji : j = i
          · subst hji
            simp [Stands, hstands, h.idle hfree, Relation.ReflTransGen.refl]
          · exact hothers j hji
        · exact fun j k hj hk => (halone j hj).trans (halone k hk).symm
        · exact fun _ => ⟨i, job, Function.update_self ..⟩
        · intro hnot
          cases hnot
    | inside job =>
      have hin : Inside s i := ⟨job, hpc⟩
      have hstands := h.stands i
      simp only [Stands, hpc] at hstands
      obtain ⟨hflag, hreach⟩ := hstands
      cases hbody : c.body (s.own i) s.data with
      | some x =>
        obtain ⟨p', d'⟩ := x
        have hnext : s.next c (.step i) =
            { s with own := Function.update s.own i p', data := d' } := by
          simp [State.next, hpc, hbody]
        rw [hnext]
        refine ⟨d, own, h.serial, fun j => ?_, h.alone, h.taken, ?_⟩
        · by_cases hji : j = i
          · subst hji
            simp only [Stands, hpc, Function.update_self]
            exact ⟨hflag, hreach.tail hbody⟩
          · exact h.other (.inl hin) hji rfl (Function.update_of_ne hji _ _) rfl
        · intro hnot
          rw [hflag] at hnot
          cases hnot
      | none =>
        have hnext : s.next c (.step i) = { s with
            flag := false, pc := Function.update s.pc i .out, log := s.log ++ [(i, job)] } := by
          simp [State.next, hpc, hbody]
        rw [hnext]
        have hout : ∀ j, ¬ Inside { s with
            flag := false, pc := Function.update s.pc i .out, log := s.log ++ [(i, job)] } j := by
          rintro j ⟨job', hj⟩
          by_cases hji : j = i
          · subst hji
            simp at hj
          · exact hji (h.alone j i ⟨job', (Function.update_of_ne hji _ _).symm.trans hj⟩ hin)
        refine ⟨s.data, Function.update own i (s.own i), ?_, fun j => ?_, ?_, ?_, fun _ => rfl⟩
        · exact h.serial.snoc (Ends.trans hreach (.done hbody))
        · by_cases hji : j = i
          · subst hji
            simp [Stands]
          · exact h.other (.inl hin) hji (Function.update_of_ne hji _ _) rfl
              (Function.update_of_ne hji _ _)
        · exact fun j k hj _ => absurd hj (hout j)
        · intro hnot
          cases hnot

/-- Whatever the processes do in between, each section happens at once, in the order of the log. -/
theorem atomic (h : Lts.Run (Step c) (.initial d₀ own₀) xs) :
    ∃ d own, Atomic c d₀ own₀ (Lts.last (.initial d₀ own₀) xs) d own :=
  (h.always (p := fun s => ∃ d own, Atomic c d₀ own₀ s d own) ⟨d₀, own₀, initial_atomic⟩
    fun _ _ _ ⟨_, _, hu⟩ hs => hu.step hs).last

/-- The sections of each process come in the order in which it began their jobs. -/
def State.jobs (s : State ι κ π σ) (i : ι) : List κ :=
  (s.log.filter fun x => x.1 = i).map Prod.snd ++
    match s.pc i with
    | .out => []
    | .asking job | .inside job => [job]

def begun (i : ι) : State ι κ π σ → Act ι κ → List κ
  | _, .begin j job => if j = i then [job] else []
  | _, .step _ => []

theorem jobs_step (hs : Step c s a t) (i : ι) : t.jobs i = s.jobs i ++ begun i s a := by
  obtain ⟨hallowed, rfl⟩ := hs
  cases a with
  | begin j job =>
    have hout := hallowed j job rfl
    by_cases hji : j = i
    · subst hji
      simp [State.jobs, State.next, begun, hout]
    · have hij : i ≠ j := fun h => hji h.symm
      simp [State.jobs, State.next, begun, hji, hij]
  | step j =>
    simp only [begun, List.append_nil]
    cases hpc : s.pc j with
    | out => simp only [State.next, hpc]
    | asking job =>
      by_cases hflag : s.flag = true
      · simp only [State.next, hpc, hflag, if_true]
      · by_cases hji : i = j
        · subst hji
          simp [State.jobs, State.next, hpc, hflag]
        · simp [State.jobs, State.next, hpc, hflag, hji]
    | inside job =>
      cases hbody : c.body (s.own j) s.data with
      | some x => simp [State.jobs, State.next, hpc, hbody]
      | none =>
        by_cases hji : i = j
        · subst hji
          simp [State.jobs, State.next, hpc, hbody, List.filter_append]
        · have hij : j ≠ i := fun h => hji h.symm
          simp [State.jobs, State.next, hpc, hbody, List.filter_append, hji, hij]

theorem order (h : Lts.Run (Step c) (.initial d₀ own₀) xs) (i : ι) :
    (Lts.last (.initial d₀ own₀) xs).jobs i = Lts.gather (begun i) (.initial d₀ own₀) xs := by
  have hjobs := h.gathers (e := begun i) (l := []) (P := fun l u => u.jobs i = l) rfl
    fun l u a v hu hv => by rw [jobs_step hv, hu]
  simpa using hjobs

/-! ### Sections with a known outcome -/

/-- A job that happens at once, as `f` says. -/
def run (f : κ → π → σ → π × σ) (x : σ × (ι → π)) (a : ι × κ) : σ × (ι → π) :=
  ((f a.2 (x.2 a.1) x.1).2, Function.update x.2 a.1 (f a.2 (x.2 a.1) x.1).1)

/-- `D` is what every section may rely on and has to keep. -/
structure Computes (c : Code κ π σ) (f : κ → π → σ → π × σ) (D : σ → Prop) : Prop where
  ends : ∀ job p d, D d → Ends c (c.enter job p) d (f job p d).1 (f job p d).2
  keeps : ∀ job p d, D d → D (f job p d).2

variable {f : κ → π → σ → π × σ} {D : σ → Prop} {l : List (ι × κ)}

theorem Serial.eq_fold (h : Serial c d₀ own₀ l d own) (hc : Computes c f D) (hd : D d₀) :
    D d ∧ (d, own) = l.foldl (run f) (d₀, own₀) := by
  induction h with
  | nil => exact ⟨hd, rfl⟩
  | @snoc l d own i job p d' hserial hends ih =>
    obtain ⟨hd', heq⟩ := ih
    obtain ⟨rfl, rfl⟩ := hends.unique (hc.ends job (own i) d hd')
    refine ⟨hc.keeps job (own i) d hd', ?_⟩
    rw [List.foldl_append, ← heq]
    rfl

theorem Computes.keeps_fold (hc : Computes c f D) {x : σ × (ι → π)} (hd : D x.1) :
    D (l.foldl (run f) x).1 := by
  induction l generalizing x with
  | nil => exact hd
  | cons a l ih => exact ih (hc.keeps a.2 (x.2 a.1) x.1 hd)

theorem foldl_run_of_ne {x : σ × (ι → π)} (h : ∀ a ∈ l, a.1 ≠ i) : (l.foldl (run f) x).2 i = x.2 i := by
  induction l generalizing x with
  | nil => rfl
  | cons a l ih =>
    obtain ⟨ha, hl⟩ := List.forall_mem_cons.mp h
    rw [List.foldl_cons, ih hl]
    exact Function.update_of_ne ha.symm _ _

/-- What a process has to itself after whole jobs is what the last one of its own has left. -/
theorem foldl_run_last {before after : List (ι × κ)} (h : ∀ a ∈ after, a.1 ≠ i) (x : σ × (ι → π)) :
    ((before ++ (i, job) :: after).foldl (run f) x).2 i =
      (f job ((before.foldl (run f) x).2 i) (before.foldl (run f) x).1).1 := by
  rw [List.foldl_append, List.foldl_cons, foldl_run_of_ne h]
  exact Function.update_self ..

/-- The process inside gets out by its own steps. -/
theorem Ends.leaves (h : Ends c p d p' d') (hpc : s.pc i = .inside job) (hown : s.own i = p)
    (hdata : s.data = d) : ∃ n, (List.replicate n (.step i)).foldl (State.next c) s =
      ⟨false, d', Function.update s.own i p', Function.update s.pc i .out, s.log ++ [(i, job)]⟩ := by
  induction h generalizing s with
  | done hnone =>
    refine ⟨1, ?_⟩
    subst hown hdata
    simp [State.next, hpc, hnone]
  | @step p d p₁ d₁ p₂ d₂ hsome _ ih =>
    subst hown hdata
    obtain ⟨n, hn⟩ := ih (s := { s with own := Function.update s.own i p₁, data := d₁ }) hpc
      (Function.update_self ..) rfl
    refine ⟨n + 1, ?_⟩
    rw [List.replicate_succ, List.foldl_cons]
    have hnext : s.next c (.step i) = { s with own := Function.update s.own i p₁, data := d₁ } := by
      simp [State.next, hpc, hsome]
    rw [hnext, hn]
    simp

/-- The lock never stays taken for want of a way out. -/
theorem Atomic.leaves (h : Atomic c d₀ own₀ s d own) (hc : Computes c f D) (hd : D d)
    (hflag : s.flag = true) : ∃ i n,
      ((List.replicate n (.step i)).foldl (State.next c) s).flag = false := by
  obtain ⟨i, job, hpc⟩ := h.taken hflag
  have hstands := h.stands i
  simp only [Stands, hpc] at hstands
  have hends := ends_of_reaches (hc.ends job (own i) d hd) hstands.2
  obtain ⟨n, hn⟩ := hends.leaves hpc rfl rfl
  exact ⟨i, n, by rw [hn]⟩

/-- The data, and what the processes have to themselves, are those of whole jobs one after the other, in
the order in which they leave the lock; each process has its own in the order in which it began
them. -/
theorem serialized (h : Lts.Run (Step c) (.initial d₀ own₀) xs) (hc : Computes c f D) (hd : D d₀) :
    let t := Lts.last (.initial d₀ own₀) xs
    let u := t.log.foldl (run f) (d₀, own₀)
    D u.1 ∧ (t.flag = false → t.data = u.1) ∧ (∀ i, t.pc i = .out → t.own i = u.2 i) ∧
      (∀ i, t.jobs i = Lts.gather (begun i) (.initial d₀ own₀) xs) ∧
      (t.flag = true → ∃ i n,
        ((List.replicate n (.step i)).foldl (State.next c) t).flag = false) := by
  intro t u
  obtain ⟨d, own, hatomic⟩ := atomic h
  obtain ⟨hd', heq⟩ := hatomic.serial.eq_fold hc hd
  have hu : u = (d, own) := heq.symm
  rw [hu]
  exact ⟨hd', hatomic.idle, fun i => (hatomic.stands i).out, order h, hatomic.leaves hc hd'⟩

section
variable {R : σ → σ → Prop} (hrefl : ∀ d, R d d) (htrans : ∀ d e e', R d e → R e e' → R d e')
  (hbody : ∀ p d p' d', c.body p d = some (p', d') → R d d')
include hrefl htrans hbody

omit [DecidableEq ι] in
theorem rel_of_reaches {x y : π × σ}
    (h : Relation.ReflTransGen (fun x y : π × σ => c.body x.1 x.2 = some y) x y) : R x.2 y.2 := by
  induction h with
  | refl => exact hrefl _
  | tail _ hstep ih => exact htrans _ _ _ ih (hbody _ _ _ _ hstep)

omit [DecidableEq ι] in
theorem Ends.rel (h : Ends c p d p' d') : R d d' := by
  induction h with
  | done _ => exact hrefl _
  | step hsome _ ih => exact htrans _ _ _ (hbody _ _ _ _ hsome) ih

/-- While a section is under way the data lie between what it found and what it leaves, in any order
that its accesses follow. -/
theorem Atomic.between (h : Atomic c d₀ own₀ s d own) (hc : Computes c f D) (hd : D d)
    (hpc : s.pc i = .inside job) : R d s.data ∧ R s.data (f job (own i) d).2 := by
  have hstands := h.stands i
  simp only [Stands, hpc] at hstands
  have hends := ends_of_reaches (hc.ends job (own i) d hd) hstands.2
  exact ⟨rel_of_reaches hrefl htrans hbody hstands.2, hends.rel hrefl htrans hbody⟩

end

end Locked
