import PicoOcaml.Pio.Agreement
import PicoOcaml.Pio.OneShot

/-! No suspended fiber is lost, but for those whose socket another fiber closes. -/
namespace PicoOcaml.Pio

/-- The continuation has been continued or discontinued. -/
def Resumed (b : Book) (k : ℕ) : Prop := ∃ h a, .ran (.resume h k a) ∈ b.log

/-- A queued task, a waiter or a waker of a pending promise refers to the continuation. -/
def Referenced (b : Book) (k : ℕ) : Prop :=
  (∃ t ∈ b.runQueue, t.kont = some k) ∨ (∃ w ∈ b.ioWaiters, w.k = k) ∨
    ∃ (p : ℕ) (ws : List Task), b.promises[p]? = some (.pending ws) ∧ ∃ t ∈ ws, t.kont = some k

/-- Every fiber that has suspended is referenced until it is resumed. -/
def NotLost (b : Book) : Prop := ∀ k < b.konts.length, ¬ Resumed b k → Referenced b k

/-- The step closes no socket on which a fiber is blocked. -/
def Spares {W : Type*} (s : State W) (a : Act) : Prop :=
  ∀ sock, Closes s a sock → ∀ w ∈ s.book.ioWaiters, w.sockId ≠ sock

/-- The step closes no socket on which the continuation waits. -/
def SparesKont {W : Type*} (k : ℕ) (s : State W) (a : Act) : Prop :=
  ∀ sock, Closes s a sock → ∀ w ∈ s.book.ioWaiters, w.k = k → w.sockId ≠ sock

namespace Ledger

variable {k : ℕ} {b : Book}

theorem references_arriving (t : Task) : (references k).arriving t = if t.kont = some k then 1 else 0 :=
  rfl

theorem references_arriving_pos {t : Task} : 0 < (references k).arriving t ↔ t.kont = some k := by
  rw [references_arriving]
  split <;> simp_all

theorem references_due : (references k).due b = if k < b.konts.length then 1 else 0 := by
  simp only [due, references]
  split
  · rename_i hk
    simp [hk]
  · rename_i hk
    simp [List.getElem?_eq_none (Nat.le_of_not_lt hk)]

theorem references_event_pos {e : Event} (h : 0 < (references k).event e) :
    (∃ h a, e = .ran (.resume h k a)) ∨ e = .stillPending k := by
  cases e with
  | ran t =>
    cases t with
    | resume hd j a =>
      by_cases hj : j = k
      · subst hj
        exact .inl ⟨hd, a, rfl⟩
      · simp [references, Task.resumes, hj] at h
    | _ => simp [references, Task.resumes] at h
  | stillPending j =>
    by_cases hj : j = k
    · subst hj
      exact .inr rfl
    · simp [references, hj] at h
  | _ => simp [references] at h

/-- A reference that is counted is there. -/
theorem references_of_total (hb : Agreed b) (h : 0 < (references k).total b) :
    Resumed b k ∨ Referenced b k := by
  simp only [total, waiting] at h
  rcases Nat.eq_zero_or_pos ((b.log.map (references k).event).sum) with hl | hl
  · right
    rcases Nat.eq_zero_or_pos ((b.runQueue.map (references k).queued).sum) with hq | hq
    · rcases Nat.eq_zero_or_pos ((b.ioWaiters.map fun w => (references k).arriving w.wake).sum)
        with hw | hw
      · have hp : 0 < (b.promises.map (references k).held).sum := by omega
        obtain ⟨o, ho, hpos⟩ := sum_map_pos.mp hp
        obtain ⟨p, hp⟩ := List.mem_iff_getElem?.mp ho
        cases o with
        | pending ws =>
          obtain ⟨t, ht, hpos⟩ := sum_map_pos.mp hpos
          exact Or.inr (.inr ⟨p, ws, hp, t, ht, references_arriving_pos.mp hpos⟩)
        | resolved v => exact absurd hpos (Nat.lt_irrefl 0)
        | failed e => exact absurd hpos (Nat.lt_irrefl 0)
      · obtain ⟨w, hw, hpos⟩ := sum_map_pos.mp hw
        have hk := references_arriving_pos.mp hpos
        exact Or.inr (.inl ⟨w, hw, by simpa [Task.kont, IoWaiter.wake] using hk⟩)
    · obtain ⟨t, ht, hpos⟩ := sum_map_pos.mp hq
      refine Or.inl ⟨t, ht, ?_⟩
      simp only [references] at hpos
      split at hpos
      · assumption
      · exact absurd hpos (Nat.lt_irrefl 0)
  · left
    obtain ⟨e, he, hpos⟩ := sum_map_pos.mp hl
    rcases references_event_pos hpos with ⟨hd, a, rfl⟩ | rfl
    · exact ⟨hd, a, he⟩
    · exact (hb.history _ he).elim

/-- A reference that is there is counted. -/
theorem total_of_references (h : Resumed b k ∨ Referenced b k) : 0 < (references k).total b := by
  simp only [total, waiting]
  rcases h with ⟨hd, a, he⟩ | ⟨t, ht, hk⟩ | ⟨w, hw, hk⟩ | ⟨p, ws, hp, t, ht, hk⟩
  · have hpos : 0 < (b.log.map (references k).event).sum :=
      sum_map_pos.mpr ⟨_, he, by simp [references, Task.resumes]⟩
    omega
  · have hpos : 0 < (b.runQueue.map (references k).queued).sum :=
      sum_map_pos.mpr ⟨t, ht, by simp [references, hk]⟩
    omega
  · have hpos : 0 < (b.ioWaiters.map fun w => (references k).arriving w.wake).sum :=
      sum_map_pos.mpr ⟨w, hw, references_arriving_pos.mpr (by simp [Task.kont, IoWaiter.wake, hk])⟩
    omega
  · have hpos : 0 < (b.promises.map (references k).held).sum :=
      sum_map_pos.mpr ⟨_, List.mem_iff_getElem?.mpr ⟨p, hp⟩,
        sum_map_pos.mpr ⟨t, ht, references_arriving_pos.mpr hk⟩⟩
    omega

end Ledger

/-- The continuation, once it is captured, has one reference. -/
structure Kept (k : ℕ) (b : Book) : Prop where
  agreed : Agreed b
  balanced : (Ledger.references k).total b = (Ledger.references k).due b

theorem kept_empty (k : ℕ) : Kept k .empty := ⟨agreed_empty, rfl⟩

theorem Kept.referenced {k : ℕ} {b : Book} (h : Kept k b) (hk : k < b.konts.length)
    (hn : ¬ Resumed b k) : Referenced b k := by
  have htotal := h.balanced
  rw [Ledger.references_due, if_pos hk] at htotal
  rcases Ledger.references_of_total h.agreed (k := k) (by omega) with hr | hr
  · exact absurd hr hn
  · exact hr

theorem Kept.move {k : ℕ} {b b' : Book} (h : Kept k b) (hm : Move b b') : Kept k b' := by
  refine ⟨hm.agreed h.agreed, ?_⟩
  have hk := h.balanced
  have hmove := Ledger.total_move (L := Ledger.references k) hm
  omega

/-- The continuation does not wait on the socket that is closed. -/
theorem Kept.drop {k : ℕ} {b : Book} (h : Kept k b) {sock : ℤ}
    (hs : ∀ w ∈ b.ioWaiters, w.k = k → w.sockId ≠ sock) : Kept k (b.dropWaiters sock) := by
  refine ⟨h.agreed.drop sock, ?_⟩
  have hk := h.balanced
  have hdrop := Ledger.total_drop (L := Ledger.references k) (b := b) sock
  have hdue : (Ledger.references k).due (b.dropWaiters sock) = (Ledger.references k).due b := rfl
  have hzero : (Ledger.references k).waiting (b.ioWaiters.filter fun w => w.sockId = sock) = 0 := by
    by_contra hne
    obtain ⟨w, hw, hpos⟩ := sum_map_pos.mp (Nat.pos_of_ne_zero hne)
    obtain ⟨hmem, hsock⟩ := List.mem_filter.mp hw
    have hwk := Ledger.references_arriving_pos.mp hpos
    exact hs w hmem (by simpa [Task.kont, IoWaiter.wake] using hwk) (of_decide_eq_true hsock)
  omega

/-- A close loses every fiber that waits on the socket. -/
theorem Kept.lost {b : Book} {w : IoWaiter} (h : Kept w.k b) (hw : w ∈ b.ioWaiters) :
    ¬ NotLost (b.dropWaiters w.sockId) := by
  intro hlost
  obtain ⟨e, hk, -⟩ := h.agreed.waiting w hw
  have hlt : w.k < b.konts.length := (List.getElem?_eq_some_iff.mp hk).1
  have htotal := h.balanced
  rw [Ledger.references_due, if_pos hlt] at htotal
  have hdrop := Ledger.total_drop (L := Ledger.references w.k) (b := b) w.sockId
  have hpos : 0 < (Ledger.references w.k).waiting (b.ioWaiters.filter fun v => v.sockId = w.sockId) :=
    sum_map_pos.mpr ⟨w, by simp [hw], Ledger.references_arriving_pos.mpr rfl⟩
  have hzero : (Ledger.references w.k).total (b.dropWaiters w.sockId) = 0 := by omega
  have hgone : ¬ (Resumed (b.dropWaiters w.sockId) w.k ∨ Referenced (b.dropWaiters w.sockId) w.k) := by
    intro hr
    have := Ledger.total_of_references hr
    omega
  exact hgone (.inr (hlost w.k hlt fun hr => hgone (.inl hr)))

variable {W : Type*} {X : Externals W} {s t : State W} {a : Act} {xs : List (Act × State W)}

theorem step_keeps_kont {k : ℕ} (hs : Kept k s.book) (h : Step X s a t) (hsp : SparesKont k s a) :
    Kept k t.book := by
  rcases step_moves h with hm | ⟨sock, hc, hb⟩
  · exact hm.keeps (fun _ _ hb hm => hb.move hm) hs
  · rw [hb]
    exact hs.drop (hsp sock hc)

theorem closes_book {sock : ℤ} (h : Step X s a t) (hc : Closes s a sock) :
    t.book = s.book.dropWaiters sock := by
  obtain ⟨-, rfl⟩ := h
  obtain ⟨rfl, hsplit⟩ := hc
  simp only [next, perform]
  split
  · simp only [effc, netEffect_eq]
    rfl
  · contradiction

theorem spares_step (hs : ∀ k, Kept k s.book) (h : Step X s a t) (hsp : Spares s a) :
    ∀ k, Kept k t.book :=
  fun k => step_keeps_kont (hs k) h fun sock hc w hw _ => hsp sock hc w hw

theorem notLost_of_kept {b : Book} (h : ∀ k, Kept k b) : NotLost b := fun k => (h k).referenced

theorem spares_iff (hs : ∀ k, Kept k s.book) (h : Step X s a t) : NotLost t.book ↔ Spares s a := by
  constructor
  · intro hn sock hc w hw hsock
    subst hsock
    rw [closes_book h hc] at hn
    exact (hs w.k).lost hw hn
  · intro hsp
    exact notLost_of_kept (spares_step hs h hsp)

/-- In every run, no fiber is ever lost exactly when no step closes a socket on which a fiber is
blocked. -/
theorem not_lost_iff {world : W} (h : Lts.Run (Step X) (State.initial world) xs) :
    Lts.Always (fun s => NotLost s.book) (State.initial world) xs ↔
      Lts.Run (fun s a _ => Spares s a) (State.initial world) xs := by
  have hcongr : Lts.Run (fun _ _ t => NotLost t.book) (State.initial world) xs ↔
      Lts.Run (fun s a _ => Spares s a) (State.initial world) xs :=
    h.congr (p := fun s => ∀ k, Kept k s.book) kept_empty
      (fun _ _ _ hu hstep => spares_iff hu hstep) fun _ _ _ hu hstep hsp => spares_step hu hstep hsp
  rw [Lts.always_iff, hcongr]
  exact and_iff_right (notLost_of_kept kept_empty)

/-- A fiber whose socket is not closed under it is referenced until it is resumed. -/
theorem run_kept {world : W} {k : ℕ} (h : Lts.Run (Step X) (State.initial world) xs)
    (hsp : Lts.Run (fun s a _ => SparesKont k s a) (State.initial world) xs) :
    Kept k (Lts.last (State.initial world) xs).book :=
  ((Lts.run_and.mpr ⟨h, hsp⟩).always (p := fun s => Kept k s.book) (kept_empty k)
    fun _ _ _ hu hstep => step_keeps_kont hu hstep.1 hstep.2).last

theorem not_lost_iff_yield :
    Lts.Always (fun s => NotLost s.book) (State.initial ())
        (Lts.trace (next quiet) (State.initial ()) yieldOnce) ↔
      Lts.Run (fun s a _ => Spares s a) (State.initial ())
        (Lts.trace (next quiet) (State.initial ()) yieldOnce) :=
  not_lost_iff (X := quiet) (Lts.run_accepts Enabled (by decide))

/-- A fiber connects, forks a fiber that blocks in a read of the socket, and closes the socket. -/
def closeUnderReader : List Act :=
  [.switchRun, .go, .perform (.fork 0), .go, .ret .unit, .go, .go, .go,
    .perform (.net (.tcpConnect "10.0.0.1" 80)), .go, .go, .go, .perform (.fork 0), .go,
    .perform .yield, .go, .perform (.net (.tcpRead 0)), .go, .go, .perform (.net (.tcpClose 0))]

/-- The reader is suspended for good, and nothing refers to it. -/
theorem reader_lost : ∃ xs, Lts.Run (Step quiet) (State.initial ()) xs ∧
    ¬ NotLost (Lts.last (State.initial ()) xs).book := by
  refine ⟨Lts.trace (next quiet) (State.initial ()) closeUnderReader,
    Lts.run_accepts Enabled (by decide), ?_⟩
  rw [Lts.last_trace]
  intro h
  have hlog : ∀ hd a, Event.ran (.resume hd 2 a) ∉
      (closeUnderReader.foldl (next quiet) (State.initial ())).book.log := by
    intro hd a hmem
    have hkont : (closeUnderReader.foldl (next quiet) (State.initial ())).book.log.all
        (fun e => !e.ranTask (Task.resumes 2)) = true := by decide
    have := List.all_eq_true.mp hkont _ hmem
    simp [Event.ranTask, Task.resumes] at this
  have hran : ¬ ∃ hd a, Event.ran (.resume hd 2 a) ∈
      (closeUnderReader.foldl (next quiet) (State.initial ())).book.log := by
    rintro ⟨hd, a, hmem⟩
    exact hlog hd a hmem
  rcases h 2 (by decide) hran with ⟨t, ht, -⟩ | ⟨w, hw, -⟩ | ⟨p, ws, hp, -⟩
  · cases ht
  · cases hw
  · cases hp

end PicoOcaml.Pio
