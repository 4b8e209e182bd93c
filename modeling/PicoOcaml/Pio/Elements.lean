import PicoOcaml.Pio.MainFiber
import PicoOcaml.Pio.PromiseAgreement

/-! The elements of `Fiber.both` and `Fiber.all`: each is queued once and ends at most once, and its
promise holds what it has ended with. -/
namespace PicoOcaml.Pio

variable {W : Type*} {c : List Frame → Handler → List Frame → Prop} {s t : State W} {p : ℕ}

structure Elements (s : State W) : Prop where
  counted : ∀ p, (Census.only (.body (.element p)) rfl).load s +
    s.program.countP (Event.ends (.element p)) = s.program.count (.enqueued (.element p))
  single : ∀ p, s.program.count (.enqueued (.element p)) ≤ 1
  settled : ∀ {p : ℕ} {o : Answer}, .enqueued (.element p) ∈ s.program → s.book.outcome p = some o →
    .settled p ∈ s.book.log ∨ .ended (.element p) o ∈ s.book.log

theorem task_element (u : Task) :
    (Census.only (.body (.element p)) rfl).task u =
      [Event.enqueued u].count (.enqueued (.element p)) := by
  cases u <;> simp [Census.task, Task.frames, Census.only, List.count_singleton]

theorem issued_element (l : List Event) :
    (Census.only (.body (.element p)) rfl).issued l = l.count (.enqueued (.element p)) := by
  induction l with
  | nil => rfl
  | cons e l ih =>
    have hcons := Census.issued_append (Census.only (.body (.element p)) rfl) [e] l
    rw [List.singleton_append, Census.issued_singleton, ih] at hcons
    rw [hcons, List.count_cons, Nat.add_comm]
    cases e with
    | enqueued u =>
      rw [Census.event, task_element]
      simp [List.count_singleton]
    | _ => rfl

theorem Elements.counted_flow (hf : Flow s t) (h : Elements s) (p : ℕ) :
    (Census.only (.body (.element p)) rfl).load t + t.program.countP (Event.ends (.element p)) =
      t.program.count (.enqueued (.element p)) := by
  have hp := h.counted p
  have hacc := hf.accounted (b := .element p) rfl
  rw [issued_element, issued_element] at hacc
  omega

/-- Every element has a promise of its own. -/
theorem Elements.single_flow (hf : Flow s t) (ho : Owned s) (h : Elements s) (p : ℕ) :
    t.program.count (.enqueued (.element p)) ≤ 1 := by
  have hp := h.single p
  cases hf with
  | still hn hload hprog hfib => rwa [hprog]
  | issue u hn hu hmain hsw hnew hload hprog hfib =>
    rw [hprog, List.count_append]
    by_cases he : u = .element p
    · subst he
      have hnone : s.program.count (.enqueued (.element p)) = 0 := by
        rw [List.count_eq_zero]
        intro hmem
        have hlt := ho.fresh hmem rfl
        have heq := (hnew p rfl).1
        omega
      have hone : [Event.enqueued (.element p)].count (.enqueued (.element p)) = 1 := by simp
      omega
    · have hzero : [Event.enqueued u].count (.enqueued (.element p)) = 0 := by
        simpa [List.count_singleton] using he
      omega
  | run hn hload hprog hfib =>
    rw [hprog, List.count_append]
    have hzero : [Event.enqueued (.main s.nextSwitch)].count (.enqueued (.element p)) = 0 := by simp
    omega
  | ended b a hn hload hprog hfib =>
    rw [hprog, List.count_append]
    have hzero : [Event.ended b a].count (.enqueued (.element p)) = 0 := by simp
    omega
  | done f a rest hn hret hbody hload hprog hfib => rwa [hprog]
  | mainDone a sw rest hn hret hload hprog hfib => rwa [hprog]

theorem Elements.settled_shift (hsh : Shift c s t) (hs : Sane s) (how : Owned s) (h : Elements s)
    {o : Answer} (hu : .enqueued (.element p) ∈ t.program) (ho : t.book.outcome p = some o) :
    .settled p ∈ t.book.log ∨ .ended (.element p) o ∈ t.book.log := by
  have hext := hsh.extends
  rcases hsh.outcome ho with hold | hset | ⟨a, f, rest, hret, hf⟩
  · rcases (hsh.flow hs.agreed).enqueued hu rfl with hu | ⟨-, hp, -⟩
    · rcases h.settled hu hold with hset | hended
      · exact .inl (hext.log hset)
      · exact .inr (hext.log hended)
    · -- a new promise has no outcome yet
      obtain ⟨x, hx, -⟩ := Option.bind_eq_some_iff.mp hold
      have hlt := (List.getElem?_eq_some_iff.mp hx).1
      omega
  · exact .inl hset
  · rcases hf with ⟨sw, rfl, -⟩ | ⟨rfl, rfl⟩
    · have hq := how.queued hret rfl
      rcases (hsh.flow hs.agreed).enqueued hu rfl with hu | ⟨-, hp, -⟩
      · cases how.unique hq hu rfl rfl
      · have hlt := how.fresh hq (p := p) rfl
        omega
    · exact .inr (hext.log (hs.control.ended hret rfl))

theorem Elements.shift (hsh : Shift c s t) (hs : Sane s) (how : Owned s) (h : Elements s) :
    Elements t :=
  ⟨h.counted_flow (hsh.flow hs.agreed), h.single_flow (hsh.flow hs.agreed) how,
    h.settled_shift hsh hs how⟩

theorem Elements.closed (h : Elements s) (sock : ℤ) (w : W) : Elements (s.closed sock w) :=
  ⟨h.counted, h.single, h.settled⟩

theorem elements_initial (world : W) : Elements (State.initial world) where
  counted _ := rfl
  single _ := Nat.zero_le 1
  settled hu := by cases hu

/-- An element ends once. -/
theorem Elements.ended_once (h : Elements s) {a a' : Answer}
    (ha : .ended (.element p) a ∈ s.book.log) (ha' : .ended (.element p) a' ∈ s.book.log) :
    a = a' := by
  have hcount : s.program.countP (Event.ends (.element p)) ≤ 1 := by
    have hc := h.counted p
    have hs := h.single p
    omega
  have hmem : ∀ a, .ended (.element p) a ∈ s.book.log →
      .ended (.element p) a ∈ s.program.filter (Event.ends (.element p)) := by
    intro a ha
    exact List.mem_filter.mpr ⟨(mem_program rfl).mpr ha, by simp [Event.ends]⟩
  rw [List.countP_eq_length_filter] at hcount
  have h1 := hmem a ha
  have h2 := hmem a' ha'
  cases hl : s.program.filter (Event.ends (.element p)) with
  | nil =>
    rw [hl] at h1
    cases h1
  | cons e es =>
    rw [hl] at h1 h2 hcount
    have hnil : es = [] := by
      rw [List.length_cons] at hcount
      exact List.length_eq_zero_iff.mp (by omega)
    subst hnil
    have heq := (List.mem_singleton.mp h1).trans (List.mem_singleton.mp h2).symm
    simpa using heq

/-- What is known of the elements, with what it rests on. -/
structure Joined (s : State W) : Prop where
  sane : Sane s
  owned : Owned s
  elements : Elements s

theorem joined_initial (world : W) : Joined (State.initial world) :=
  ⟨sane_initial world, owned_initial world, elements_initial world⟩

theorem Shift.joined (hsh : Shift c s t) (h : Joined s) : Joined t :=
  ⟨hsh.sane h.sane, h.owned.shift hsh h.sane, h.elements.shift hsh h.sane h.owned⟩

theorem Joined.closed (h : Joined s) (sock : ℤ) (w : W) {b : Body} {rest : List Frame}
    (hs : s.Program b rest) : Joined (s.closed sock w) :=
  ⟨h.sane.closed sock w hs, h.owned.closed sock w, h.elements.closed sock w⟩

end PicoOcaml.Pio
