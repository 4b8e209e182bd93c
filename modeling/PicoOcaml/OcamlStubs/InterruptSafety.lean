import PicoOcaml.OcamlStubs.Interrupts
import PicoOcaml.OcamlStubs.MutexExclusion

/-! Interrupts are handled in one frame of a core at a time and leave it as it was, and they are
handled in blocking sections only as long as they are found there. -/
namespace PicoOcaml.OcamlStubs.Stw

variable {s t : State} {g g' : Globals} {c d : Core} {f : Frame} {fs rest : List Frame} {m n : ℕ}
  {e : Entered} {answer : Bool}

/-- No mutex access is raced, as in `Mutex`. -/
def Safe (s : State) (a : Core × Act) (t : State) : Prop :=
  ∀ answer, a.2 = .go answer → Mutex.Safe s.mutexes (a.1, .go) t.mutexes

/-- The core has marked itself as handling. -/
def Frame.critical : Frame → Bool
  | .stw (.setState _) _ | .stw (.handle _ _) _ | .stw (.handling _ _ _) _
  | .stw (.restoreState _ _) _ | .stw (.clearHandling _) _ => true
  | _ => false

/-- A call that other calls may stand on. -/
def Frame.rests : Frame → Bool
  | .posix f => waits f.pc
  | .condWait _ (.sleep _ _) | .write _ _ | .stw (.handling _ _ _) _ => true
  | .condWait _ (.reenter pc) => waits pc
  | _ => false

/-- The core is as the call found it. -/
structure Kept (g : Globals) (c : Core) (e : Entered) : Prop where
  level : g.level c = e.level
  handling : g.handlingStw c = e.handling
  camlState : g.camlState c = e.camlState

/-- The call has locked the domain lock `m` once more. -/
structure Locked (g : Globals) (c : Core) (m : ℕ) (e : Entered) : Prop where
  lock : g.domainLock c = some m
  level : g.level c = e.level + 1
  handling : e.handling = false

def exits : Mutex.Pc → Bool
  | .exit _ => true
  | _ => false

/-- What a call of `try_handle_stw_interrupt` has done so far. -/
def StwOk (g : Globals) (c : Core) (e : Entered) : Pc → Prop
  | .checkHandling | .leave => Kept g c e
  | .checkQueued | .getLock => Kept g c e ∧ e.handling = false
  | .trylock m pc => Kept g c e ∧ e.handling = false ∧ g.domainLock c = some m ∧ exits pc = false
  | .setHandling m | .unlock m _ => Locked g c m e ∧ g.handlingStw c = false ∧
      g.camlState c = e.camlState
  | .setState m | .clearHandling m => Locked g c m e ∧ g.camlState c = e.camlState
  | .handle m savedState | .restoreState m savedState => Locked g c m e ∧ savedState = e.camlState
  | .handling m savedState level => g.domainLock c = some m ∧ level = e.level + 1 ∧
      e.handling = false ∧ savedState = e.camlState

def FrameOk (g : Globals) (c : Core) : Frame → Prop
  | .posix _ | .write _ _ | .condWait _ (.release _) | .condWait _ (.reenter _) => True
  | .condWait m .ensure => g.shared.phase m = .ready ∧ 0 < g.shared.holds c m
  | .condWait m (.sleep idx _) => ∃ i : ℕ, idx = i ∧ g.shared.Maps m i
  | .stw pc e => StwOk g c e pc

structure Inv (s : State) : Prop where
  mutexes : Mutex.Inv s.mutexes
  locks : ∀ c m, s.domainLock c = some m → s.shared.phase m = .ready
  frames : ∀ c, ∀ f ∈ s.stack c, FrameOk s.toGlobals c f
  resting : ∀ c, ∀ f ∈ (s.stack c).tail, f.rests = true
  handling : ∀ c, (s.stack c).countP Frame.critical = if s.handlingStw c then 1 else 0

/-! ### The depth of a lock -/

theorem depthOf_eq_holds {g : Mutex.Shared} (h : g.Ok) (hm : g.phase m = .ready) :
    depthOf g c m = g.holds c m := by
  rcases h.handles m hm with hneg | ⟨i, hi, hlt, -⟩
  · have hzero := h.unmapped m (fun _ => hneg) c
    have hnot : 0 ≤ g.handle m → ¬ g.handle m < maxMutexes := fun hpos => by
      rcases hneg with hneg | hneg <;> omega
    simp +contextual [depthOf, hzero, hnot]
  · have hin : i < maxMutexes := Nat.lt_of_lt_of_le hlt h.count
    rw [h.holds m i ⟨hm, hi, hin⟩ c]
    simp [depthOf, hi, hin]

/-- What a core may rely on while another call runs. -/
structure Objects (g g' : Mutex.Shared) : Prop where
  ready : ∀ m, g.phase m = .ready → g'.phase m = .ready
  mapped : ∀ m i, g.Maps m i → g'.Maps m i

structure Rely (d : Core) (g g' : Globals) : Prop where
  objects : Objects g.shared g'.shared
  lock : g'.domainLock d = g.domainLock d
  holds : g'.shared.holds d = g.shared.holds d
  handling : g'.handlingStw d = g.handlingStw d
  camlState : g'.camlState d = g.camlState d

theorem Objects.refl {g : Mutex.Shared} : Objects g g := ⟨fun _ h => h, fun _ _ h => h⟩

theorem level_eq (hok : g.shared.Ok) (hlocks : ∀ m, g.domainLock c = some m → g.shared.phase m = .ready)
    (hlock : g.domainLock c = some m) : g.level c = g.shared.holds c m := by
  simp only [Globals.level, hlock]
  exact depthOf_eq_holds hok (hlocks m hlock)

theorem Rely.level (h : Rely d g g') (hok : g.shared.Ok) (hok' : g'.shared.Ok)
    (hlocks : ∀ m, g.domainLock d = some m → g.shared.phase m = .ready) :
    g'.level d = g.level d := by
  have hlocks' : ∀ m, g'.domainLock d = some m → g'.shared.phase m = .ready := by
    intro m hm
    rw [h.lock] at hm
    exact h.objects.ready m (hlocks m hm)
  cases hd : g.domainLock d with
  | none => simp [Globals.level, h.lock, hd]
  | some m => rw [level_eq hok' hlocks' (h.lock.trans hd), level_eq hok hlocks hd, h.holds]

theorem Kept.rely (hk : Kept g d e) (h : Rely d g g') (hlevel : g'.level d = g.level d) :
    Kept g' d e :=
  ⟨hlevel.trans hk.level, h.handling.trans hk.handling, h.camlState.trans hk.camlState⟩

theorem Locked.rely (hk : Locked g d m e) (h : Rely d g g') (hlevel : g'.level d = g.level d) :
    Locked g' d m e := ⟨h.lock.trans hk.lock, hlevel.trans hk.level, hk.handling⟩

/-- The calls of the other core stay as they are. -/
theorem frameOk_rely (h : Rely d g g') (hlevel : g'.level d = g.level d) (hf : FrameOk g d f) :
    FrameOk g' d f := by
  cases f with
  | posix f => trivial
  | write count i => trivial
  | condWait m pc =>
    cases pc with
    | ensure =>
      obtain ⟨hm, hpos⟩ := hf
      exact ⟨h.objects.ready m hm, by rwa [h.holds]⟩
    | release pc => trivial
    | sleep idx loops =>
      obtain ⟨i, hi, hm⟩ := hf
      exact ⟨i, hi, h.objects.mapped m i hm⟩
    | reenter pc => trivial
  | stw pc e =>
    cases pc with
    | checkHandling => exact Kept.rely hf h hlevel
    | leave => exact Kept.rely hf h hlevel
    | checkQueued => exact ⟨hf.1.rely h hlevel, hf.2⟩
    | getLock => exact ⟨hf.1.rely h hlevel, hf.2⟩
    | trylock m pc => exact ⟨hf.1.rely h hlevel, hf.2.1, h.lock.trans hf.2.2.1, hf.2.2.2⟩
    | setHandling m =>
      exact ⟨hf.1.rely h hlevel, h.handling.trans hf.2.1, h.camlState.trans hf.2.2⟩
    | unlock m pc =>
      exact ⟨hf.1.rely h hlevel, h.handling.trans hf.2.1, h.camlState.trans hf.2.2⟩
    | setState m => exact ⟨hf.1.rely h hlevel, h.camlState.trans hf.2⟩
    | clearHandling m => exact ⟨hf.1.rely h hlevel, h.camlState.trans hf.2⟩
    | handle m savedState => exact ⟨hf.1.rely h hlevel, hf.2⟩
    | restoreState m savedState => exact ⟨hf.1.rely h hlevel, hf.2⟩
    | handling m savedState level => exact ⟨h.lock.trans hf.1, hf.2⟩

/-- So do the calls that the running one stands on. -/
theorem frameOk_rests (hr : f.rests = true) (h : Objects g.shared g'.shared)
    (hlock : g'.domainLock c = g.domainLock c) (hf : FrameOk g c f) : FrameOk g' c f := by
  cases f with
  | posix f => trivial
  | write count i => trivial
  | condWait m pc =>
    cases pc with
    | sleep idx loops =>
      obtain ⟨i, hi, hm⟩ := hf
      exact ⟨i, hi, h.mapped m i hm⟩
    | reenter pc => trivial
    | _ => cases hr
  | stw pc e =>
    cases pc with
    | handling m savedState level => exact ⟨hlock.trans hf.1, hf.2⟩
    | _ => cases hr

/-! ### Accesses to the mutexes -/

theorem objects_of_rely {h h' : Mutex.Shared} {mf : Mutex.Frame} (hr : Mutex.Rely c mf h h') :
    Objects h h' :=
  ⟨fun _ hm => hr.isReady hm, fun _ _ hm => hr.isMapped hm⟩

/-- The mutex access leaves all but the mutexes as it is. -/
theorem rely_access {mf : Mutex.Frame} (hr : Mutex.Rely c mf g.shared (Mutex.exec g.shared c mf).1)
    (hd : d ≠ c) : Rely d g (g.access c mf).1 :=
  ⟨objects_of_rely hr, rfl, hr.holds d hd, rfl, rfl⟩

/-- A call of `pthread_mutex_trylock` holds the lock once more when it returns 0. -/
theorem holds_trylock {pc : Mutex.Pc} (hpc : exits pc = false) :
    (g.access c ⟨.trylock, m, pc⟩).1.shared.holds c m = g.shared.holds c m +
      if took g c ⟨.trylock, m, pc⟩ = true then 1 else 0 := by
  cases pc with
  | tryEnter idx =>
    cases he : Entry.tryEnter c (g.shared.storage idx) with
    | some entry =>
      simp [Globals.access, Mutex.exec, took, he, Mutex.Shared.acquired, Mutex.Shared.setHolds,
        Mutex.Shared.track, Mutex.Shared.setEntry]
    | none => simp [Globals.access, Mutex.exec, took, he]
  | readHandle =>
    simp only [Globals.access, Mutex.exec, took]
    split <;> rfl
  | checkSlot idx =>
    simp only [Globals.access, Mutex.exec, took]
    split <;> rfl
  | checkCount =>
    simp only [Globals.access, Mutex.exec, took]
    split <;> rfl
  | writeHandle idx => simp [Globals.access, Mutex.exec, took]
  | exit idx => cases hpc
  | _ => rfl

/-- It returns 0 in its last access only. -/
theorem took_returns {pc pc' : Mutex.Pc} (h : (g.access c ⟨.trylock, m, pc⟩).2 = some pc') :
    took g c ⟨.trylock, m, pc⟩ = false := by
  cases pc with
  | tryEnter idx =>
    cases he : Entry.tryEnter c (g.shared.storage idx) with
    | some entry => simp [Globals.access, Mutex.exec, he] at h
    | none => simp [took, he]
  | _ => rfl

theorem exits_trylock {pc pc' : Mutex.Pc} (h : (g.access c ⟨.trylock, m, pc⟩).2 = some pc') :
    exits pc' = false := by
  cases pc with
  | readHandle =>
    simp only [Globals.access, Mutex.exec] at h
    split at h <;> cases h <;> rfl
  | checkSlot idx =>
    simp only [Globals.access, Mutex.exec] at h
    split at h <;> cases h <;> first | rfl | contradiction
  | checkCount =>
    simp only [Globals.access, Mutex.exec] at h
    split at h <;> cases h
    rfl
  | tryEnter idx =>
    simp only [Globals.access, Mutex.exec] at h
    split at h <;> cases h
  | exit idx => cases h
  | _ =>
    cases h
    rfl

/-- Where an unlock can stand: its mutex has been initialised. -/
theorem unlock_pc {h : Mutex.Shared} {pc : Mutex.Pc} (hf : Mutex.FrameOk h c ⟨.unlock, m, pc⟩) :
    pc = .readHandle ∨ (∃ idx, pc = .checkSlot idx) ∨ ∃ idx, pc = .exit idx := by
  cases pc with
  | readHandle => exact Or.inl rfl
  | checkSlot idx => exact Or.inr (Or.inl ⟨idx, rfl⟩)
  | exit idx => exact Or.inr (Or.inr ⟨idx, rfl⟩)
  | tryEnter idx => rcases hf.2 with h | h <;> cases h
  | wait idx => rcases hf.2 with h | h <;> cases h
  | checkCount => rcases hf with ⟨h, -⟩ | ⟨h | h, -⟩ <;> cases h
  | readCount => rcases hf with ⟨h, -⟩ | ⟨h | h, -⟩ <;> cases h
  | writeCount n => rcases hf.1 with ⟨h, -⟩ | ⟨h | h, -⟩ <;> cases h
  | initSlot idx => rcases hf.1 with ⟨h, -⟩ | ⟨h | h, -⟩ <;> cases h
  | setMagic idx => rcases hf.1 with ⟨h, -⟩ | ⟨h | h, -⟩ <;> cases h
  | writeHandle idx => rcases hf.1 with ⟨h, -⟩ | ⟨h | h, -⟩ <;> cases h

/-- A mutex that a core holds has a slot. -/
theorem maps_of_held {h : Mutex.Shared} (hok : h.Ok) (hm : h.phase m = .ready)
    (hpos : 0 < h.holds c m) : ∃ i, h.Maps m i := by
  rcases hok.handles m hm with hneg | ⟨i, hi, hlt, -⟩
  · have hzero := hok.unmapped m (fun _ => hneg) c
    omega
  · exact ⟨i, hm, hi, Nat.lt_of_lt_of_le hlt hok.count⟩

/-- A call of `pthread_mutex_unlock` that the core may make gives up one level, in its last
access. -/
theorem holds_unlock {pc : Mutex.Pc} (hok : g.shared.Ok)
    (hf : Mutex.FrameOk g.shared c ⟨.unlock, m, pc⟩) :
    (g.access c ⟨.unlock, m, pc⟩).1.shared.holds c m +
      (if (g.access c ⟨.unlock, m, pc⟩).2.isNone = true then 1 else 0) = g.shared.holds c m := by
  rcases unlock_pc hf with rfl | ⟨idx, rfl⟩ | ⟨idx, rfl⟩
  · obtain ⟨-, hm, hpos⟩ := hf
    obtain ⟨i, hmap⟩ := maps_of_held hok hm (hpos rfl)
    have hin : ¬ (g.shared.handle m < 0 ∨ g.shared.handle m ≥ maxMutexes) := hmap.not_unslotted
    simp [Globals.access, Mutex.exec, hin]
  · have hmag := Mutex.mapped_magic hok hf.2.1
    simp [Globals.access, Mutex.exec, hmag]
  · have hholds := (Mutex.released_eq g.shared c m idx).2.2.2.2
    have hheld : 0 < g.shared.holds c m := hf.2
    simp only [Globals.access, Mutex.exec, hholds, Function.update_self, Option.isNone_none, if_true]
    omega

/-! ### The mutexes alone -/

theorem mutexes_update (stack : Core → List Frame) :
    State.mutexes ⟨g, Function.update stack c fs⟩ = ⟨g.shared,
      Function.update (fun d => (stack d).filterMap Frame.call) c (fs.filterMap Frame.call)⟩ := by
  simp only [State.mutexes, Mutex.State.mk.injEq, true_and]
  funext d
  by_cases hd : d = c
  · subst hd
    simp
  · simp [hd]

theorem mutexes_top {mf : Mutex.Frame} (hst : s.stack c = f :: rest) (hcall : f.call = some mf) :
    s.mutexes.stack c = mf :: rest.filterMap Frame.call := by
  simp [State.mutexes, hst, hcall]

/-- The access of a call on the mutexes is one of `Mutex`. -/
theorem mutexes_access {mf : Mutex.Frame} (hi : Inv s) (hst : s.stack c = f :: rest)
    (hcall : f.call = some mf)
    (hsafe : Mutex.SafeAccess s.shared mf (s.mutexes.stack c.other))
    (hfs : fs.filterMap Frame.call = mf.next [] (s.access c mf).2) :
    Mutex.Inv (State.mutexes ⟨(s.access c mf).1, Function.update s.stack c (fs ++ rest)⟩) := by
  have htop := mutexes_top hst hcall
  have hinv := Mutex.go_inv hi.mutexes htop hsafe
  simp only [Mutex.next, htop] at hinv
  rw [mutexes_update, List.filterMap_append, hfs]
  cases ho : (Mutex.exec s.shared c mf).2 with
  | none => simpa [Globals.access, Mutex.Frame.next, State.mutexes, ho] using hinv
  | some pc => simpa [Globals.access, Mutex.Frame.next, State.mutexes, ho] using hinv

/-- The mask says nothing about the owners. -/
theorem inv_clearUnheld {h : Mutex.Shared} {stack : Core → List Mutex.Frame} (pc : Mutex.Pc)
    (hi : Mutex.Inv ⟨h, stack⟩) : Mutex.Inv ⟨clearUnheld h c pc, stack⟩ := by
  cases pc with
  | exit idx =>
    simp only [clearUnheld]
    split
    · obtain ⟨⟨h1, h2, h3, h4, h5, h6⟩, hframes, hwaiting, hapart⟩ := hi
      refine ⟨⟨h1, h2, h3, h4, h5, h6⟩, fun d mf hmf => ?_, hwaiting, hapart⟩
      have hok := hframes d mf hmf
      obtain ⟨fn, m, pc⟩ := mf
      cases pc <;> exact hok
    · exact hi
  | _ => exact hi

/-- An access to something else. -/
theorem mutexes_idle (hi : Inv s) (hst : s.stack c = f :: rest) (hg : g.shared = s.shared)
    (hfs : fs.filterMap Frame.call = [f].filterMap Frame.call) :
    Mutex.Inv (State.mutexes ⟨g, Function.update s.stack c (fs ++ rest)⟩) := by
  have hsame : (fs ++ rest).filterMap Frame.call = (s.stack c).filterMap Frame.call := by
    rw [hst, List.filterMap_append, hfs, ← List.filterMap_append]
    rfl
  rw [mutexes_update, hsame, hg, Function.update_eq_self]
  exact hi.mutexes

theorem waiting_of_rests (hr : ∀ f ∈ rest, f.rests = true) {mf : Mutex.Frame}
    (hmf : mf ∈ rest.filterMap Frame.call) : ∃ i, mf.pc = .wait i := by
  obtain ⟨f, hf, hcall⟩ := List.mem_filterMap.mp hmf
  have hrest := hr f hf
  have hwait : waits mf.pc = true := by
    cases f with
    | posix f =>
      cases hcall
      exact hrest
    | write count i => cases hcall
    | condWait m pc =>
      cases pc with
      | reenter pc =>
        cases hcall
        exact hrest
      | release pc => cases hrest
      | ensure => cases hcall
      | sleep idx loops => cases hcall
    | stw pc e =>
      cases pc with
      | trylock m pc => cases hrest
      | unlock m pc => cases hrest
      | _ => cases hcall
  cases hpc : mf.pc with
  | wait i => exact ⟨i, rfl⟩
  | _ =>
    rw [hpc] at hwait
    cases hwait

theorem Inv.rests (hi : Inv s) (hst : s.stack c = f :: rest) : ∀ f' ∈ rest, f'.rests = true := by
  intro f' hf'
  apply hi.resting c
  rw [hst]
  exact hf'

theorem Inv.below (hi : Inv s) (hst : s.stack c = f :: rest) :
    ∀ f' ∈ rest, f' ∈ s.stack c ∧ f'.rests = true := by
  intro f' hf'
  refine ⟨?_, hi.rests hst f' hf'⟩
  rw [hst]
  exact List.mem_cons_of_mem f hf'

/-- A call on the mutexes begins. -/
theorem mutexes_push {mf : Mutex.Frame} (hi : Inv s) (hst : s.stack c = f :: rest)
    (hcall : f.call = none) (hg : g.shared = s.shared)
    (hfs : fs.filterMap Frame.call = [mf]) (hok : Mutex.FrameOk s.shared c mf)
    (hidle : mf.pc.initialises = false) :
    Mutex.Inv (State.mutexes ⟨g, Function.update s.stack c (fs ++ rest)⟩) := by
  have hstack : s.mutexes.stack c = rest.filterMap Frame.call := by
    simp [State.mutexes, hst, hcall]
  have hsub : ∀ mf' ∈ rest.filterMap Frame.call, mf' ∈ s.mutexes.stack c := by
    rw [hstack]
    exact fun _ h => h
  rw [mutexes_update, hg, List.filterMap_append, hfs]
  refine Mutex.inv_update hi.mutexes hi.mutexes.ok ?_ ?_ (hi.mutexes.frames c.other) ?_
  · intro mf' hmf'
    rcases List.mem_cons.mp hmf' with rfl | hmf'
    · exact hok
    · exact hi.mutexes.frames c mf' (hsub mf' hmf')
  · intro mf' hmf'
    exact waiting_of_rests (hi.rests hst) hmf'
  · intro mf' hmf' mf'' hmf''
    rcases List.mem_cons.mp hmf' with rfl | hmf'
    · exact Mutex.apart_idle hidle
    · exact hi.mutexes.apart c mf' (hsub mf' hmf') mf'' hmf''

/-! ### One access -/

/-- What one access of the running call comes to. -/
structure Moved (s : State) (c : Core) (rest : List Frame) (r : Globals × List Frame) : Prop where
  mutexes : Mutex.Inv (State.mutexes ⟨r.1, Function.update s.stack c (r.2 ++ rest)⟩)
  other : Rely c.other s.toGlobals r.1
  lock : r.1.domainLock c = s.domainLock c
  frames : ∀ f ∈ r.2, FrameOk r.1 c f
  resting : ∀ f ∈ r.2.tail, f.rests = true
  handling : r.2.countP Frame.critical + rest.countP Frame.critical =
    if r.1.handlingStw c = true then 1 else 0

theorem inv_moved {r : Globals × List Frame} (hi : Inv s)
    (hrest : ∀ f ∈ rest, f ∈ s.stack c ∧ f.rests = true) (hm : Moved s c rest r) :
    Inv ⟨r.1, Function.update s.stack c (r.2 ++ rest)⟩ := by
  have hok : s.shared.Ok := hi.mutexes.ok
  have hok' : r.1.shared.Ok := hm.mutexes.ok
  have hself : State.stack ⟨r.1, Function.update s.stack c (r.2 ++ rest)⟩ c = r.2 ++ rest :=
    Function.update_self c _ _
  have hother : State.stack ⟨r.1, Function.update s.stack c (r.2 ++ rest)⟩ c.other =
      s.stack c.other := Function.update_of_ne c.other_ne _ _
  refine ⟨hm.mutexes, fun d m hlock => ?_, fun d f' hf' => ?_, fun d f' hf' => ?_, fun d => ?_⟩
  · apply hm.other.objects.ready
    rcases Core.eq_or_other c d with rfl | rfl
    · exact hi.locks d m (hm.lock.symm.trans hlock)
    · exact hi.locks c.other m (hm.other.lock.symm.trans hlock)
  · rcases Core.eq_or_other c d with rfl | rfl
    · rw [hself] at hf'
      rcases List.mem_append.mp hf' with hf' | hf'
      · exact hm.frames f' hf'
      · obtain ⟨hmem, hr⟩ := hrest f' hf'
        exact frameOk_rests hr hm.other.objects hm.lock (hi.frames d f' hmem)
    · rw [hother] at hf'
      have hlevel := hm.other.level hok hok' (hi.locks c.other)
      exact frameOk_rely hm.other hlevel (hi.frames c.other f' hf')
  · rcases Core.eq_or_other c d with rfl | rfl
    · rw [hself] at hf'
      cases hfs : r.2 with
      | nil =>
        rw [hfs] at hf'
        exact (hrest f' (List.mem_of_mem_tail hf')).2
      | cons f'' fs =>
        rw [hfs] at hf'
        rcases List.mem_append.mp hf' with hf' | hf'
        · apply hm.resting
          rw [hfs]
          exact hf'
        · exact (hrest f' hf').2
    · rw [hother] at hf'
      exact hi.resting c.other f' hf'
  · rcases Core.eq_or_other c d with rfl | rfl
    · rw [hself, List.countP_append]
      exact hm.handling
    · rw [hother, hi.handling c.other]
      simp only [hm.other.handling]

theorem Inv.critical (hi : Inv s) (hst : s.stack c = f :: rest) :
    [f].countP Frame.critical + rest.countP Frame.critical =
      if s.handlingStw c = true then 1 else 0 := by
  rw [← hi.handling c, hst, ← List.countP_append]
  rfl

theorem rely_refl : Rely d g g := ⟨Objects.refl, rfl, rfl, rfl, rfl⟩

/-- Nothing but the running call moves. -/
theorem moved_idle (hi : Inv s) (hst : s.stack c = f :: rest)
    (hcall : fs.filterMap Frame.call = [f].filterMap Frame.call)
    (hframes : ∀ f' ∈ fs, FrameOk s.toGlobals c f') (hresting : ∀ f' ∈ fs.tail, f'.rests = true)
    (hcrit : fs.countP Frame.critical = [f].countP Frame.critical) :
    Moved s c rest (s.toGlobals, fs) :=
  ⟨mutexes_idle hi hst rfl hcall, rely_refl, rfl, hframes, hresting, by
    rw [hcrit]
    exact hi.critical hst⟩

/-- A call on the mutexes begins. -/
theorem moved_push {mf : Mutex.Frame} (hi : Inv s) (hst : s.stack c = f :: rest)
    (hcall : f.call = none) (f' : Frame) (hcall' : f'.call = some mf)
    (hmf : Mutex.FrameOk s.shared c mf) (hidle : mf.pc.initialises = false)
    (hf' : FrameOk s.toGlobals c f') (hcrit : f'.critical = f.critical) :
    Moved s c rest (s.toGlobals, [f']) := by
  refine ⟨mutexes_push hi hst hcall rfl (by simp [hcall']) hmf hidle, rely_refl, rfl, ?_, ?_, ?_⟩
  · intro f'' hf''
    obtain rfl := List.mem_singleton.mp hf''
    exact hf'
  · rintro f'' ⟨⟩
  · rw [← hi.critical hst]
    simp [List.countP_cons, hcrit]

/-- A call on the mutexes goes on. -/
theorem moved_access {mf : Mutex.Frame} (hi : Inv s) (hst : s.stack c = f :: rest)
    (hcall : f.call = some mf)
    (hsafe : Mutex.SafeAccess s.shared mf (s.mutexes.stack c.other))
    (hfs : fs.filterMap Frame.call = mf.next [] (s.access c mf).2)
    (hframes : ∀ f' ∈ fs, FrameOk (s.access c mf).1 c f')
    (hresting : ∀ f' ∈ fs.tail, f'.rests = true)
    (hcrit : fs.countP Frame.critical = [f].countP Frame.critical) :
    Moved s c rest ((s.access c mf).1, fs) := by
  have hmem : mf ∈ s.mutexes.stack c := by
    rw [mutexes_top hst hcall]
    exact List.mem_cons_self
  have hmf : Mutex.FrameOk s.shared c mf := hi.mutexes.frames c mf hmem
  refine ⟨mutexes_access hi hst hcall hsafe hfs, ?_, rfl, hframes, hresting, ?_⟩
  · exact rely_access (Mutex.exec_rely hmf hsafe) c.other_ne
  · rw [hcrit]
    exact hi.critical hst

theorem poll_calls (b : Bool) (f : Frame) :
    (g.poll c b f).filterMap Frame.call = [f].filterMap Frame.call := by
  cases b <;> rfl

theorem poll_critical (b : Bool) (f : Frame) :
    (g.poll c b f).countP Frame.critical = [f].countP Frame.critical := by
  cases b <;> rfl

theorem poll_frames {b : Bool} (hf : FrameOk g c f) : ∀ f' ∈ g.poll c b f, FrameOk g c f' := by
  intro f' hf'
  cases b with
  | false =>
    obtain rfl := List.mem_singleton.mp hf'
    exact hf
  | true =>
    rcases List.mem_cons.mp hf' with rfl | hf'
    · exact ⟨rfl, rfl, rfl⟩
    · obtain rfl := List.mem_singleton.mp hf'
      exact hf

theorem poll_resting {b : Bool} (hf : b = true → f.rests = true) :
    ∀ f' ∈ (g.poll c b f).tail, f'.rests = true := by
  intro f' hf'
  cases b with
  | false => cases hf'
  | true =>
    obtain rfl := List.mem_singleton.mp hf'
    exact hf rfl

/-- A call on the mutexes has made an access and polls, or does not. -/
theorem moved_polled {mf : Mutex.Frame} {pc : Mutex.Pc} {b : Bool} (hi : Inv s)
    (hst : s.stack c = f :: rest) (hcall : f.call = some mf)
    (hsafe : Mutex.SafeAccess s.shared mf (s.mutexes.stack c.other))
    (ho : (s.access c mf).2 = some pc) (f' : Frame) (hcall' : f'.call = some { mf with pc := pc })
    (hcrit : f'.critical = f.critical) (hframe : FrameOk (s.access c mf).1 c f')
    (hrests : b = true → f'.rests = true) :
    Moved s c rest ((s.access c mf).1, (s.access c mf).1.poll c b f') := by
  apply moved_access hi hst hcall hsafe
  · rw [poll_calls, ho, List.filterMap_cons_some hcall']
    rfl
  · exact poll_frames hframe
  · exact poll_resting hrests
  · rw [poll_critical, List.countP_singleton, List.countP_singleton, hcrit]

theorem moved_goes {mf : Mutex.Frame} {pc : Mutex.Pc} (hi : Inv s) (hst : s.stack c = f :: rest)
    (hcall : f.call = some mf) (hsafe : Mutex.SafeAccess s.shared mf (s.mutexes.stack c.other))
    (ho : (s.access c mf).2 = some pc) (f' : Frame) (hcall' : f'.call = some { mf with pc := pc })
    (hcrit : f'.critical = f.critical) (hframe : FrameOk (s.access c mf).1 c f') :
    Moved s c rest ((s.access c mf).1, [f']) :=
  moved_polled (b := false) hi hst hcall hsafe ho f' hcall' hcrit hframe Bool.noConfusion

/-- A call on the mutexes has returned. -/
theorem moved_returned {mf : Mutex.Frame} (hi : Inv s) (hst : s.stack c = f :: rest)
    (hcall : f.call = some mf) (hsafe : Mutex.SafeAccess s.shared mf (s.mutexes.stack c.other))
    (ho : (s.access c mf).2 = none) (hcrit : f.critical = false) :
    Moved s c rest ((s.access c mf).1, []) := by
  apply moved_access hi hst hcall hsafe
  · rw [ho]
    rfl
  · rintro f ⟨⟩
  · rintro f ⟨⟩
  · simp [hcrit]

theorem posix_moved {mf : Mutex.Frame} (hi : Inv s) (hst : s.stack c = .posix mf :: rest)
    (hsafe : Mutex.SafeAccess s.shared mf (s.mutexes.stack c.other)) :
    Moved s c rest (exec s.toGlobals c answer (.posix mf)) := by
  simp only [exec]
  cases ho : (s.access c mf).2 with
  | some pc => exact moved_polled hi hst rfl hsafe ho _ rfl rfl trivial id
  | none => exact moved_returned hi hst rfl hsafe ho rfl

theorem write_moved {count : ℤ} {i : ℕ} (hi : Inv s) (hst : s.stack c = .write count i :: rest) :
    Moved s c rest (exec s.toGlobals c answer (.write count i)) := by
  simp only [exec]
  apply moved_idle hi hst
  · split
    · rw [poll_calls]
      rfl
    · rfl
  · split
    · exact poll_frames trivial
    · rintro f ⟨⟩
  · split
    · exact poll_resting fun _ => rfl
    · rintro f ⟨⟩
  · split
    · rw [poll_critical]
      rfl
    · rfl

/-- The index that `pthread_cond_wait` has read is that of its mutex. -/
theorem release_mapped {h : Mutex.Shared} {pc : Mutex.Pc} (hok : h.Ok)
    (hf : Mutex.FrameOk h c ⟨.unlock, m, pc⟩) :
    ∃ i : ℕ, mutexIdx h m pc = i ∧ h.Maps m i := by
  rcases unlock_pc hf with rfl | ⟨idx, rfl⟩ | ⟨idx, rfl⟩
  · obtain ⟨i, hmap⟩ := maps_of_held hok hf.2.1 (hf.2.2 rfl)
    exact ⟨i, hmap.2.1, hmap⟩
  · exact ⟨idx, rfl, hf.2.1⟩
  · exact ⟨idx, rfl, hf.1⟩

theorem clearUnheld_same (h : Mutex.Shared) (c : Core) (pc : Mutex.Pc) :
    (clearUnheld h c pc).phase = h.phase ∧ (clearUnheld h c pc).handle = h.handle ∧
      (clearUnheld h c pc).holds = h.holds := by
  cases pc with
  | exit idx =>
    simp only [clearUnheld]
    split <;> exact ⟨rfl, rfl, rfl⟩
  | _ => exact ⟨rfl, rfl, rfl⟩

theorem running_frameOk {mf : Mutex.Frame} (hi : Inv s) (hst : s.stack c = f :: rest)
    (hcall : f.call = some mf) : Mutex.FrameOk s.shared c mf := by
  apply hi.mutexes.frames c mf
  rw [mutexes_top hst hcall]
  exact List.mem_cons_self

theorem release_moved {pc : Mutex.Pc} (hi : Inv s)
    (hst : s.stack c = .condWait m (.release pc) :: rest)
    (hsafe : Mutex.SafeAccess s.shared ⟨.unlock, m, pc⟩ (s.mutexes.stack c.other)) :
    Moved s c rest (execWait s.toGlobals c answer m (.release pc)) := by
  have hmf := running_frameOk hi hst rfl
  have hobjects := objects_of_rely (Mutex.exec_rely hmf hsafe)
  simp only [execWait]
  cases ho : (s.access c ⟨.unlock, m, pc⟩).2 with
  | some pc' => exact moved_goes hi hst rfl hsafe ho _ rfl rfl trivial
  | none =>
    have hok : s.shared.Ok := hi.mutexes.ok
    obtain ⟨i, hidx, hmap⟩ := release_mapped hok hmf
    have hmoved : Moved s c rest ((s.access c ⟨.unlock, m, pc⟩).1,
        [.condWait m (.sleep (mutexIdx s.shared m pc) 0)]) := by
      apply moved_access hi hst rfl hsafe
      · rw [ho]
        rfl
      · intro f hf
        obtain rfl := List.mem_singleton.mp hf
        exact ⟨i, hidx, hobjects.mapped m i hmap⟩
      · rintro f ⟨⟩
      · rfl
    obtain ⟨hphase, hhandle, hholds⟩ :=
      clearUnheld_same (s.access c ⟨.unlock, m, pc⟩).1.shared c pc
    have hmaps : ∀ k i, (clearUnheld (s.access c ⟨.unlock, m, pc⟩).1.shared c pc).Maps k i ↔
        (s.access c ⟨.unlock, m, pc⟩).1.shared.Maps k i := fun k i => by
      simp only [Mutex.Shared.Maps, hphase, hhandle]
    refine ⟨inv_clearUnheld pc hmoved.mutexes, ?_, rfl, ?_, hmoved.resting, hmoved.handling⟩
    · refine ⟨⟨fun k hk => ?_, fun k i hk => ?_⟩, rfl, ?_, rfl, rfl⟩
      · rw [hphase]
        exact hmoved.other.objects.ready k hk
      · exact (hmaps k i).mpr (hmoved.other.objects.mapped k i hk)
      · rw [hholds]
        exact hmoved.other.holds
    · intro f hf
      obtain rfl := List.mem_singleton.mp hf
      exact ⟨i, hidx, (hmaps m i).mpr (hobjects.mapped m i hmap)⟩

theorem condWait_moved {pc : WaitPc} (hi : Inv s) (hst : s.stack c = .condWait m pc :: rest)
    (hsafe : ∀ mf, Frame.call (.condWait m pc) = some mf →
      Mutex.SafeAccess s.shared mf (s.mutexes.stack c.other)) :
    Moved s c rest (exec s.toGlobals c answer (.condWait m pc)) := by
  have hframe : FrameOk s.toGlobals c (.condWait m pc) := by
    apply hi.frames c
    rw [hst]
    exact List.mem_cons_self
  cases pc with
  | ensure =>
    obtain ⟨hm, hpos⟩ := hframe
    cases answer with
    | true =>
      refine moved_push hi hst rfl (.condWait m (.release .readHandle)) rfl ?_ rfl trivial rfl
      exact ⟨by simp, hm, fun _ => hpos⟩
    | false => exact moved_idle hi hst rfl (by rintro f ⟨⟩) (by rintro f ⟨⟩) rfl
  | release pc =>
    simp only [exec]
    exact release_moved hi hst (hsafe _ rfl)
  | sleep idx loops =>
    obtain ⟨i, rfl, hm⟩ := hframe
    cases answer with
    | true =>
      simp only [exec, execWait, if_true]
      split
      · refine moved_push hi hst rfl (.condWait m (.reenter (.tryEnter i))) rfl ?_ rfl
          trivial rfl
        exact ⟨hm, Or.inl rfl⟩
      · exact moved_idle hi hst rfl (by rintro f ⟨⟩) (by rintro f ⟨⟩) rfl
    | false =>
      simp only [exec, execWait, Bool.false_eq_true, if_false]
      apply moved_idle hi hst
      · rw [poll_calls]
        rfl
      · exact poll_frames ⟨i, rfl, hm⟩
      · exact poll_resting fun _ => rfl
      · rw [poll_critical]
        rfl
  | reenter pc =>
    simp only [exec, execWait]
    cases ho : (s.access c ⟨.lock, m, pc⟩).2 with
    | some pc' => exact moved_polled hi hst rfl (hsafe _ rfl) ho _ rfl rfl trivial id
    | none => exact moved_returned hi hst rfl (hsafe _ rfl) ho rfl

theorem forall_mem_one {p : Frame → Prop} (h : p f) : ∀ f' ∈ [f], p f' := by
  intro f' hf'
  obtain rfl := List.mem_singleton.mp hf'
  exact h

/-- Only the core's own variables change. -/
theorem moved_own (hshared : g.shared = s.shared) (hlock : g.domainLock = s.domainLock)
    (hhandling : g.handlingStw c.other = s.handlingStw c.other)
    (hstate : g.camlState c.other = s.camlState c.other)
    (hmutexes : Mutex.Inv (State.mutexes ⟨g, Function.update s.stack c ([f] ++ rest)⟩))
    (hframe : FrameOk g c f)
    (hcount : [f].countP Frame.critical + rest.countP Frame.critical =
      if g.handlingStw c = true then 1 else 0) : Moved s c rest (g, [f]) := by
  refine ⟨hmutexes, ⟨?_, congrFun hlock _, ?_, hhandling, hstate⟩, congrFun hlock c,
    forall_mem_one hframe, ?_, hcount⟩
  · rw [hshared]
    exact Objects.refl
  · rw [hshared]
  · rintro f' ⟨⟩

theorem mem_stw {pc : Pc} (hi : Inv s) (hst : s.stack c = .stw pc e :: rest) :
    StwOk s.toGlobals c e pc := by
  have hmem : Frame.stw pc e ∈ s.stack c := by
    rw [hst]
    exact List.mem_cons_self
  exact hi.frames c _ hmem

/-- The call changes nothing but its place. -/
theorem stw_idle {pc pc' : Pc} (hi : Inv s) (hst : s.stack c = .stw pc e :: rest)
    (hcall : Frame.call (.stw pc' e) = Frame.call (.stw pc e))
    (hok : StwOk s.toGlobals c e pc')
    (hcrit : Frame.critical (.stw pc' e) = Frame.critical (.stw pc e)) :
    Moved s c rest (s.toGlobals, [.stw pc' e]) := by
  apply moved_idle hi hst
  · simp only [List.filterMap_cons, hcall]
  · exact forall_mem_one hok
  · rintro f ⟨⟩
  · simp [List.countP_cons, hcrit]

/-- What a mutex access leaves of the core's own variables. -/
theorem kept_access {mf : Mutex.Frame} (hlevel : (g.access c mf).1.level c = g.level c)
    (hk : Kept g c e) : Kept (g.access c mf).1 c e :=
  ⟨hlevel.trans hk.level, hk.handling, hk.camlState⟩

theorem level_access {mf : Mutex.Frame} (hok : g.shared.Ok) (hok' : (g.access c mf).1.shared.Ok)
    (hobjects : Objects g.shared (g.access c mf).1.shared)
    (hlocks : ∀ m, g.domainLock c = some m → g.shared.phase m = .ready)
    (hlock : g.domainLock c = some m) :
    g.level c = g.shared.holds c m ∧
      (g.access c mf).1.level c = (g.access c mf).1.shared.holds c m := by
  refine ⟨level_eq hok hlocks hlock, level_eq hok' (fun k hk => ?_) hlock⟩
  exact hobjects.ready k (hlocks k hk)

theorem trylock_moved {pc : Mutex.Pc} (hi : Inv s) (hst : s.stack c = .stw (.trylock m pc) e :: rest)
    (hsafe : Mutex.SafeAccess s.shared ⟨.trylock, m, pc⟩ (s.mutexes.stack c.other)) :
    Moved s c rest (execStw s.toGlobals c answer e (.trylock m pc)) := by
  obtain ⟨hkept, hfree, hlock, hexits⟩ := mem_stw hi hst
  have hmf := running_frameOk hi hst rfl
  have hok : s.shared.Ok := hi.mutexes.ok
  have hok' : (s.access c ⟨.trylock, m, pc⟩).1.shared.Ok := (Mutex.exec_ok hok hmf hsafe).1
  obtain ⟨hlevel, hlevel'⟩ := level_access hok hok'
    (objects_of_rely (Mutex.exec_rely hmf hsafe)) (hi.locks c) hlock
  have hholds := holds_trylock (g := s.toGlobals) (c := c) (m := m) hexits
  rw [← hlevel, ← hlevel'] at hholds
  have hfalse : s.handlingStw c = false := hkept.handling.trans hfree
  simp only [execStw]
  cases ho : (s.access c ⟨.trylock, m, pc⟩).2 with
  | some pc' =>
    rw [took_returns ho] at hholds
    exact moved_goes hi hst rfl hsafe ho _ rfl rfl
      ⟨kept_access hholds hkept, hfree, hlock, exits_trylock ho⟩
  | none =>
    apply moved_access hi hst rfl hsafe
    · rw [ho]
      split <;> rfl
    · apply forall_mem_one
      split
      · rename_i htook
        rw [htook] at hholds
        exact ⟨⟨hlock, by rw [hholds, hkept.level]; rfl, hfree⟩, hfalse, hkept.camlState⟩
      · rename_i htook
        rw [if_neg htook] at hholds
        exact kept_access hholds hkept
    · rintro f ⟨⟩
    · split <;> rfl

theorem unlock_moved {pc : Mutex.Pc} (hi : Inv s) (hst : s.stack c = .stw (.unlock m pc) e :: rest)
    (hsafe : Mutex.SafeAccess s.shared ⟨.unlock, m, pc⟩ (s.mutexes.stack c.other)) :
    Moved s c rest (execStw s.toGlobals c answer e (.unlock m pc)) := by
  obtain ⟨⟨hlock, hheld, hfree⟩, hfalse, hstate⟩ := mem_stw hi hst
  have hmf := running_frameOk hi hst rfl
  have hok : s.shared.Ok := hi.mutexes.ok
  have hok' : (s.access c ⟨.unlock, m, pc⟩).1.shared.Ok := (Mutex.exec_ok hok hmf hsafe).1
  obtain ⟨hlevel, hlevel'⟩ := level_access hok hok'
    (objects_of_rely (Mutex.exec_rely hmf hsafe)) (hi.locks c) hlock
  have hholds := holds_unlock hok hmf
  rw [← hlevel, ← hlevel'] at hholds
  simp only [execStw]
  cases ho : (s.access c ⟨.unlock, m, pc⟩).2 with
  | some pc' =>
    rw [ho] at hholds
    exact moved_goes hi hst rfl hsafe ho _ rfl rfl
      ⟨⟨hlock, hholds.trans hheld, hfree⟩, hfalse, hstate⟩
  | none =>
    rw [ho, hheld] at hholds
    apply moved_access hi hst rfl hsafe
    · rw [ho]
      rfl
    · exact forall_mem_one ⟨Nat.succ.inj hholds, hfalse.trans hfree.symm, hstate⟩
    · rintro f ⟨⟩
    · rfl

theorem stw_moved {pc : Pc} (hi : Inv s) (hst : s.stack c = .stw pc e :: rest)
    (hsafe : ∀ mf, Frame.call (.stw pc e) = some mf →
      Mutex.SafeAccess s.shared mf (s.mutexes.stack c.other)) :
    Moved s c rest (exec s.toGlobals c answer (.stw pc e)) := by
  have hok := mem_stw hi hst
  have hcount := hi.critical hst
  simp only [exec]
  cases pc with
  | checkHandling =>
    cases hh : s.handlingStw c with
    | true =>
      simp only [execStw, hh, if_true]
      exact stw_idle hi hst rfl hok rfl
    | false =>
      simp only [execStw, hh, Bool.false_eq_true, if_false]
      exact stw_idle hi hst rfl ⟨hok, hok.handling.symm.trans hh⟩ rfl
  | checkQueued =>
    cases answer with
    | true => exact stw_idle hi hst rfl hok rfl
    | false => exact stw_idle hi hst rfl hok.1 rfl
  | getLock =>
    cases hlock : s.domainLock c with
    | none =>
      simp only [execStw, hlock]
      exact stw_idle hi hst rfl hok.1 rfl
    | some m =>
      simp only [execStw, hlock]
      refine moved_push hi hst rfl _ rfl ?_ rfl ⟨hok.1, hok.2, hlock, rfl⟩ rfl
      exact ⟨by simp, hi.locks c m hlock, by simp⟩
  | trylock m pc => exact trylock_moved hi hst (hsafe _ rfl)
  | setHandling m =>
    obtain ⟨⟨hlock, hlevel, hfree⟩, hfalse, hstate⟩ := hok
    have hrest : rest.countP Frame.critical = 0 := by simpa [Frame.critical, hfalse] using hcount
    refine moved_own rfl rfl (Function.update_of_ne c.other_ne _ _) rfl (mutexes_idle hi hst rfl rfl)
      ⟨⟨hlock, hlevel, hfree⟩, hstate⟩ ?_
    simp [hrest, Frame.critical]
  | setState m =>
    obtain ⟨⟨hlock, hlevel, hfree⟩, hstate⟩ := hok
    exact moved_own rfl rfl rfl (Function.update_of_ne c.other_ne _ _) (mutexes_idle hi hst rfl rfl)
      ⟨⟨hlock, hlevel, hfree⟩, hstate⟩ hcount
  | handle m savedState =>
    obtain ⟨⟨hlock, hlevel, hfree⟩, hstate⟩ := hok
    exact stw_idle hi hst rfl ⟨hlock, hlevel, hfree, hstate⟩ rfl
  | handling m savedState level => exact stw_idle hi hst rfl hok rfl
  | restoreState m savedState =>
    obtain ⟨⟨hlock, hlevel, hfree⟩, rfl⟩ := hok
    exact moved_own rfl rfl rfl (Function.update_of_ne c.other_ne _ _) (mutexes_idle hi hst rfl rfl)
      ⟨⟨hlock, hlevel, hfree⟩, Function.update_self c _ _⟩ hcount
  | clearHandling m =>
    obtain ⟨⟨hlock, hlevel, hfree⟩, hstate⟩ := hok
    have hheld : 0 < s.shared.holds c m := by
      have hholds := level_eq hi.mutexes.ok (hi.locks c) hlock
      omega
    have hrest : rest.countP Frame.critical = 0 := by
      cases hh : s.handlingStw c with
      | true => simpa [Frame.critical, hh] using hcount
      | false => simp [Frame.critical, hh] at hcount
    refine moved_own rfl rfl (Function.update_of_ne c.other_ne _ _) rfl
      (mutexes_push hi hst rfl rfl rfl ⟨by simp, hi.locks c m hlock, fun _ => hheld⟩ rfl)
      ⟨⟨hlock, hlevel, hfree⟩, Function.update_self c _ _, hstate⟩ ?_
    simp [hrest, Frame.critical]
  | unlock m pc => exact unlock_moved hi hst (hsafe _ rfl)
  | leave => exact moved_idle hi hst rfl (by rintro f ⟨⟩) (by rintro f ⟨⟩) rfl

/-! ### Steps and runs -/

theorem inv_go (hi : Inv s) (hst : s.stack c = f :: rest)
    (hsafe : Mutex.Safe s.mutexes (c, .go) t.mutexes) : Inv (next s (c, .go answer)) := by
  have hcalls : ∀ mf, f.call = some mf →
      Mutex.SafeAccess s.shared mf (s.mutexes.stack c.other) := by
    intro mf hmf
    exact hsafe rfl mf _ (mutexes_top hst hmf)
  have hmoved : Moved s c rest (exec s.toGlobals c answer f) := by
    cases f with
    | posix mf => exact posix_moved hi hst (hcalls mf rfl)
    | write count i => exact write_moved hi hst
    | condWait m pc => exact condWait_moved hi hst hcalls
    | stw pc e => exact stw_moved hi hst hcalls
  simp only [next, hst]
  exact inv_moved hi (hi.below hst) hmoved

theorem rests_of_outside (hi : Inv s) (hout : outside (s.stack c) = true) :
    ∀ f ∈ s.stack c, f ∈ s.stack c ∧ f.rests = true := by
  intro f hf
  refine ⟨hf, ?_⟩
  cases hst : s.stack c with
  | nil =>
    rw [hst] at hf
    cases hf
  | cons f' rest =>
    rw [hst] at hf hout
    rcases List.mem_cons.mp hf with rfl | hf
    · cases f with
      | stw pc e => cases pc <;> first | rfl | cases hout
      | _ => cases hout
    · exact hi.rests hst f hf

/-- The core makes a call. -/
theorem inv_push (hi : Inv s) (hout : outside (s.stack c) = true)
    (hmutexes : Mutex.Inv (State.mutexes ⟨g, Function.update s.stack c (f :: s.stack c)⟩))
    (hother : Rely c.other s.toGlobals g) (hlock : g.domainLock c = s.domainLock c)
    (hhandling : g.handlingStw c = s.handlingStw c) (hframe : FrameOk g c f)
    (hcrit : f.critical = false) : Inv ⟨g, Function.update s.stack c (f :: s.stack c)⟩ := by
  refine inv_moved hi (rests_of_outside hi hout) (r := (g, [f])) ⟨hmutexes, hother, hlock,
    forall_mem_one hframe, by rintro f' ⟨⟩, ?_⟩
  rw [hhandling, ← hi.handling c]
  simp [hcrit]

theorem mutexes_stack (hi : Inv s) (hcall : f.call = none) :
    Mutex.Inv (State.mutexes ⟨s.toGlobals, Function.update s.stack c (f :: s.stack c)⟩) := by
  rw [mutexes_update, List.filterMap_cons_none hcall, Function.update_eq_self]
  exact hi.mutexes

theorem callable_of_outside (hi : Inv s) (hout : outside (s.stack c) = true) :
    s.mutexes.callable c = true := by
  have hrests := rests_of_outside hi hout
  simp only [Mutex.State.callable]
  cases hst : s.mutexes.stack c with
  | nil => rfl
  | cons mf rest =>
    have hmem : mf ∈ (s.stack c).filterMap Frame.call := by
      have hcons : mf ∈ s.mutexes.stack c := by
        rw [hst]
        exact List.mem_cons_self
      exact hcons
    obtain ⟨i, hpc⟩ := waiting_of_rests (fun f hf => (hrests f hf).2) hmem
    obtain ⟨fn, m, pc⟩ := mf
    simp only at hpc
    subst hpc
    rfl

theorem inv_call {fn : Mutex.Fn} (hi : Inv s) (hen : Enabled s (c, .call fn m) = true) :
    Inv (next s (c, .call fn m)) := by
  obtain ⟨hout, hmay⟩ := Bool.and_eq_true_iff.mp hen
  have henabled : Mutex.Enabled s.mutexes (c, .call fn m) = true :=
    Bool.and_eq_true_iff.mpr ⟨callable_of_outside hi hout, hmay⟩
  have hinv := Mutex.call_inv hi.mutexes henabled
  have hobjects : Objects s.shared (next s (c, .call fn m)).shared := by
    simp only [next]
    split
    · rename_i hfn
      subst hfn
      have huntouched : s.shared.phase m = .untouched := of_decide_eq_true hmay
      exact objects_of_rely (Mutex.rely_call huntouched rfl (c := c))
    · exact Objects.refl
  refine inv_push hi hout ?_ ⟨hobjects, rfl, ?_, rfl, rfl⟩ rfl rfl trivial rfl
  · rw [mutexes_update]
    exact hinv
  · simp only
    split <;> rfl

theorem inv_setState {v : Option ℕ} (hi : Inv s) (hout : outside (s.stack c) = true) :
    Inv (next s (c, .setState v)) := by
  have hstate : Function.update s.camlState c v c.other = s.camlState c.other :=
    Function.update_of_ne c.other_ne _ _
  have hinv := inv_moved hi (rests_of_outside hi hout)
    (r := ({ s.toGlobals with camlState := Function.update s.camlState c v }, []))
    ⟨by simpa [State.mutexes] using hi.mutexes, ⟨Objects.refl, rfl, rfl, rfl, hstate⟩, rfl,
      by rintro f ⟨⟩, by rintro f ⟨⟩, by simpa using hi.handling c⟩
  simpa [next] using hinv

/-- The core has no calls whose domain lock could change. -/
theorem inv_adopt {lock state : Option ℕ} (hi : Inv s)
    (hen : Enabled s (c, .adopt lock state) = true) : Inv (next s (c, .adopt lock state)) := by
  obtain ⟨hempty, hready⟩ := Bool.and_eq_true_iff.mp hen
  have hst : s.stack c = [] := List.isEmpty_iff.mp hempty
  have hother : Rely c.other s.toGlobals (next s (c, .adopt lock state)).toGlobals :=
    ⟨Objects.refl, Function.update_of_ne c.other_ne _ _, rfl, rfl, rfl⟩
  have hlocks : ∀ d m, (next s (c, .adopt lock state)).domainLock d = some m →
      s.shared.phase m = .ready := by
    intro d m hm
    rcases Core.eq_or_other c d with rfl | rfl
    · have hlock : lock = some m := by simpa [next] using hm
      subst hlock
      exact of_decide_eq_true hready
    · exact hi.locks c.other m (hother.lock.symm.trans hm)
  refine ⟨hi.mutexes, hlocks, fun d f hf => ?_, hi.resting, hi.handling⟩
  rcases Core.eq_or_other c d with rfl | rfl
  · have hnone : f ∈ s.stack d := hf
    rw [hst] at hnone
    cases hnone
  · have hlevel := hother.level hi.mutexes.ok hi.mutexes.ok (hi.locks c.other)
    exact frameOk_rely hother hlevel (hi.frames c.other f hf)

theorem inv_handled (hi : Inv s) (hen : Enabled s (c, .handled) = true) :
    Inv (next s (c, .handled)) := by
  have hbalanced : s.balanced c (s.stack c) = true := hen
  cases hst : s.stack c with
  | nil => simp [hst, Globals.balanced] at hbalanced
  | cons f rest =>
    rw [hst] at hbalanced
    cases f with
    | stw pc e =>
      cases pc with
      | handling m savedState level =>
        obtain ⟨hlock, rfl, hfree, hstate⟩ := mem_stw hi hst
        have hlevel : s.level c = e.level + 1 := of_decide_eq_true hbalanced
        have hmoved : Moved s c rest (s.toGlobals, [.stw (.restoreState m savedState) e]) :=
          stw_idle hi hst rfl ⟨⟨hlock, hlevel, hfree⟩, hstate⟩ rfl
        simp only [next, hst]
        exact inv_moved hi (hi.below hst) hmoved
      | _ => cases hbalanced
    | _ => cases hbalanced

theorem inv_step {a : Core × Act} (hi : Inv s) (hs : Step s a t) (hsafe : Safe s a t) : Inv t := by
  obtain ⟨hen, rfl⟩ := hs
  obtain ⟨c, act⟩ := a
  cases act with
  | call fn m => exact inv_call hi hen
  | wait m =>
    obtain ⟨hout, hmay⟩ := Bool.and_eq_true_iff.mp hen
    obtain ⟨hm, hpos⟩ : s.shared.phase m = .ready ∧ 0 < s.shared.holds c m := of_decide_eq_true hmay
    exact inv_push hi hout (mutexes_stack hi rfl) rely_refl rfl rfl ⟨hm, hpos⟩ rfl
  | write fd count =>
    simp only [next]
    split
    · exact inv_push hi hen (mutexes_stack hi rfl) rely_refl rfl rfl trivial rfl
    · exact hi
  | setState v => exact inv_setState hi hen
  | adopt lock state => exact inv_adopt hi hen
  | handled => exact inv_handled hi hen
  | go answer =>
    cases hst : s.stack c with
    | nil => simp [Enabled, hst] at hen
    | cons f rest => exact inv_go hi hst (hsafe answer rfl)

theorem initial_inv (isLazy : ℕ → Bool) (memory : ℕ → ℤ) : Inv (State.initial isLazy memory) := by
  refine ⟨Mutex.initial_inv isLazy memory, ?_, ?_, ?_, fun _ => rfl⟩
  · rintro c m ⟨⟩
  · rintro c f ⟨⟩
  · rintro c f ⟨⟩

/-- The call has found an interrupt and has yet to handle it. -/
def Pc.found : Pc → Bool
  | .getLock | .trylock _ _ | .setHandling _ | .setState _ | .handle _ _ => true
  | _ => false

/-- Every such call was entered without the domain lock. -/
def Found (s : State) : Prop :=
  ∀ c pc e, .stw pc e ∈ s.stack c → pc.found = true → e.level = 0

theorem found_poll {b : Bool} {pc : Pc} (h : .stw pc e ∈ g.poll c b f) (hf : pc.found = true) :
    f = .stw pc e := by
  cases b with
  | false => exact (List.mem_singleton.mp h).symm
  | true =>
    rcases List.mem_cons.mp h with h | h
    · cases h
      cases hf
    · exact (List.mem_singleton.mp h).symm

/-- A call comes to that point when it finds an interrupt. -/
theorem exec_found {pc : Pc} (h : .stw pc e ∈ (exec g c answer f).2) (hf : pc.found = true) :
    (∃ pc', f = .stw pc' e ∧ pc'.found = true) ∨ (f = .stw .checkQueued e ∧ answer = true) := by
  cases f with
  | posix mf =>
    simp only [exec] at h
    split at h
    · cases found_poll h hf
    · cases h
  | write count i =>
    simp only [exec] at h
    split at h
    · cases found_poll h hf
    · cases h
  | condWait m pc =>
    cases pc with
    | ensure =>
      simp only [exec, execWait] at h
      split at h <;> simp at h
    | release pc =>
      simp only [exec, execWait] at h
      split at h <;> simp at h
    | sleep idx loops =>
      simp only [exec, execWait] at h
      split at h
      · split at h <;> simp at h
      · cases found_poll h hf
    | reenter pc =>
      simp only [exec, execWait] at h
      split at h
      · cases found_poll h hf
      · cases h
  | stw pc' e' =>
    cases pc' with
    | checkHandling =>
      simp only [exec, execStw, List.mem_singleton, Frame.stw.injEq] at h
      obtain ⟨rfl, rfl⟩ := h
      split at hf <;> cases hf
    | checkQueued =>
      simp only [exec, execStw, List.mem_singleton, Frame.stw.injEq] at h
      obtain ⟨rfl, rfl⟩ := h
      cases answer with
      | true => exact Or.inr ⟨rfl, rfl⟩
      | false => cases hf
    | getLock =>
      simp only [exec, execStw] at h
      split at h <;> simp only [List.mem_singleton, Frame.stw.injEq] at h <;> obtain ⟨-, rfl⟩ := h <;>
        exact Or.inl ⟨_, rfl, rfl⟩
    | trylock m mpc =>
      simp only [exec, execStw] at h
      split at h <;> simp only [List.mem_singleton, Frame.stw.injEq] at h <;> obtain ⟨-, rfl⟩ := h <;>
        exact Or.inl ⟨_, rfl, rfl⟩
    | unlock m mpc =>
      simp only [exec, execStw] at h
      split at h <;> simp only [List.mem_singleton, Frame.stw.injEq] at h <;> obtain ⟨rfl, -⟩ := h <;>
        cases hf
    | leave => cases h
    | _ =>
      obtain ⟨rfl, rfl⟩ := Frame.stw.inj (List.mem_singleton.mp h)
      first
      | exact Or.inl ⟨_, rfl, rfl⟩
      | cases hf

theorem stack_other {act : Act} (hd : d ≠ c) : (next s (c, act)).stack d = s.stack d := by
  cases act with
  | call fn m => exact Function.update_of_ne hd _ _
  | wait m => exact Function.update_of_ne hd _ _
  | write fd count =>
    simp only [next]
    split
    · exact Function.update_of_ne hd _ _
    · rfl
  | setState v => rfl
  | adopt lock state => rfl
  | handled =>
    simp only [next]
    split
    · exact Function.update_of_ne hd _ _
    · rfl
  | go answer =>
    simp only [next]
    split
    · rfl
    · exact Function.update_of_ne hd _ _

theorem found_step {a : Core × Act} (hi : Inv s) (hs : Step s a t) (hblock : Blocking s a t)
    (hfound : Found s) : Found t := by
  obtain ⟨hen, rfl⟩ := hs
  obtain ⟨c, act⟩ := a
  intro d pc e hmem hf
  by_cases hd : d = c
  · subst hd
    cases act with
    | call fn m =>
      simp only [next, State.push, Function.update_self, List.mem_cons, reduceCtorEq, false_or] at hmem
      exact hfound d pc e hmem hf
    | wait m =>
      simp only [next, State.push, Function.update_self, List.mem_cons, reduceCtorEq, false_or] at hmem
      exact hfound d pc e hmem hf
    | write fd count =>
      simp only [next] at hmem
      split at hmem
      · simp only [State.push, Function.update_self, List.mem_cons, reduceCtorEq, false_or] at hmem
        exact hfound d pc e hmem hf
      · exact hfound d pc e hmem hf
    | setState v => exact hfound d pc e hmem hf
    | adopt lock state => exact hfound d pc e hmem hf
    | handled =>
      simp only [next] at hmem
      split at hmem
      · rename_i hst
        simp only [Function.update_self, List.mem_cons, Frame.stw.injEq] at hmem
        rcases hmem with ⟨rfl, -⟩ | hmem
        · cases hf
        · apply hfound d pc e _ hf
          rw [hst]
          exact List.mem_cons_of_mem _ hmem
      · exact hfound d pc e hmem hf
    | go answer =>
      cases hst : s.stack d with
      | nil =>
        simp [Enabled, hst] at hen
      | cons f rest =>
        simp only [next, hst, Function.update_self] at hmem
        rcases List.mem_append.mp hmem with hmem | hmem
        · rcases exec_found hmem hf with ⟨pc', rfl, hf'⟩ | ⟨rfl, rfl⟩
          · apply hfound d pc' e _ hf'
            rw [hst]
            exact List.mem_cons_self
          · obtain ⟨hkept, -⟩ := mem_stw hi hst
            exact hkept.level.symm.trans (hblock e rest rfl hst)
        · apply hfound d pc e _ hf
          rw [hst]
          exact List.mem_cons_of_mem f hmem
  · rw [stack_other hd] at hmem
    exact hfound d pc e hmem hf

theorem critical_of_handles (h : f.handles = true) : f.critical = true := by
  cases f with
  | stw pc e => cases pc <;> first | rfl | cases h
  | _ => cases h

theorem handled_step {a : Core × Act} (hi : Inv s) (hfound : Found s) : Handled s a t := by
  intro answer m savedState e rest _ hst
  refine ⟨?_, fun f hf => ?_⟩
  · apply hfound a.1 (.handle m savedState) e _ rfl
    rw [hst]
    exact List.mem_cons_self
  · -- this call is the one for which the core has marked itself
    have hcount := hi.critical hst
    have hnone : rest.countP Frame.critical = 0 := by
      cases hh : s.handlingStw a.1 with
      | true => simpa [Frame.critical, hh] using hcount
      | false => simp [Frame.critical, hh] at hcount
    by_contra hhandles
    rw [Bool.not_eq_false] at hhandles
    exact List.countP_eq_zero.mp hnone f hf (critical_of_handles hhandles)

theorem restored_step {a : Core × Act} (hi : Inv s) (hs : Step s a t) : Restored s a t := by
  obtain ⟨-, rfl⟩ := hs
  obtain ⟨c, act⟩ := a
  rintro answer e rest rfl hst
  obtain ⟨hlevel, hhandling, hstate⟩ := mem_stw hi hst
  simp only [next, hst]
  exact ⟨hstate, hhandling, hlevel⟩

/-- In every interleaving that does not race a mutex, in which an interrupt is found only by a core
without its domain lock, interrupts are handled in blocking sections and never in two nested
calls, and every call leaves its core as it found it. -/
theorem interrupts_in_blocking (isLazy : ℕ → Bool) (memory : ℕ → ℤ)
    (xs : List ((Core × Act) × State)) (hrun : Lts.Run Step (State.initial isLazy memory) xs)
    (hsafe : Lts.Run Safe (State.initial isLazy memory) xs)
    (hblock : Lts.Run Blocking (State.initial isLazy memory) xs) :
    Lts.Run Handled (State.initial isLazy memory) xs ∧
      Lts.Run Restored (State.initial isLazy memory) xs := by
  have hall := Lts.run_and.mpr ⟨hrun, Lts.run_and.mpr ⟨hsafe, hblock⟩⟩
  have hinit : Inv (State.initial isLazy memory) ∧ Found (State.initial isLazy memory) := by
    refine ⟨initial_inv isLazy memory, ?_⟩
    rintro c pc e ⟨⟩
  have hstep : ∀ u a v, Inv u ∧ Found u → Step u a v ∧ Safe u a v ∧ Blocking u a v →
      (Inv v ∧ Found v) ∧ Handled u a v ∧ Restored u a v := by
    rintro u a v ⟨hu, hfound⟩ ⟨hs, hsf, hbl⟩
    exact ⟨⟨inv_step hu hs hsf, found_step hu hs hbl hfound⟩, handled_step hu hfound,
      restored_step hu hs⟩
  exact Lts.run_and.mp (hall.keeps hinit hstep).2

/-- `n` accesses in a row of one core. -/
def steps (c : Core) (n : ℕ) : List (Core × Act) := List.replicate n (c, .go true)

/-- Nothing is raced while the other core makes no call. -/
theorem safe_alone {a : Core × Act}
    (h : ((s.stack a.1.other).isEmpty && decide (s.shared.mutexCount < maxMutexes)) = true) :
    Safe s a t := by
  obtain ⟨hempty, hroom⟩ := Bool.and_eq_true_iff.mp h
  intro answer _
  apply Mutex.safe_alone
  · simp [State.mutexes, List.isEmpty_iff.mp hempty]
  · exact of_decide_eq_true hroom

/-- The condition on a state. -/
def blocks (s : State) (c : Core) : Bool :=
  match s.stack c with
  | .stw .checkQueued _ :: _ => s.level c = 0
  | _ => true

theorem blocking_of_blocks {a : Core × Act} (h : blocks s a.1 = true) : Blocking s a t := by
  intro e rest _ hst
  rw [blocks, hst] at h
  exact of_decide_eq_true h

/-- A program prints without its domain lock, and an interrupt is handled meanwhile. -/
def printing : List (Core × Act) :=
  [(.zero, .adopt (some 0) (some 1)), (.zero, .write 1 1)] ++ steps .zero 15 ++
    [(.zero, .handled)] ++ steps .zero 7

theorem interrupts_in_blocking_printing :
    let s₀ := State.initial (fun _ => true) fun _ => -1
    let xs := Lts.trace next s₀ printing
    (Lts.Run Handled s₀ xs ∧ Lts.Run Restored s₀ xs) ∧ (printing.foldl next s₀).stack .zero = [] := by
  intro s₀ xs
  have hok : Lts.accepts (fun s a => Enabled s a && (((s.stack a.1.other).isEmpty &&
      decide (s.shared.mutexCount < maxMutexes)) && blocks s a.1)) next s₀ printing = true := by
    decide +kernel
  have hstep : ∀ u a v, (Enabled u a && (((u.stack a.1.other).isEmpty &&
      decide (u.shared.mutexCount < maxMutexes)) && blocks u a.1)) = true ∧ v = next u a →
      Step u a v ∧ Safe u a v ∧ Blocking u a v := by
    rintro u a v ⟨h, hv⟩
    obtain ⟨hen, hrest⟩ := Bool.and_eq_true_iff.mp h
    obtain ⟨hsafe, hblock⟩ := Bool.and_eq_true_iff.mp hrest
    exact ⟨⟨hen, hv⟩, safe_alone hsafe, blocking_of_blocks hblock⟩
  obtain ⟨hrun, hrest⟩ := Lts.run_and.mp ((Lts.run_accepts _ hok).imp hstep)
  obtain ⟨hsafe, hblock⟩ := Lts.run_and.mp hrest
  exact ⟨interrupts_in_blocking _ _ _ hrun hsafe hblock, by decide +kernel⟩

/-- Core 1 has locked mutex 1. Core 0 has locked its domain lock and waits for mutex 1. -/
def contended : List (Core × Act) :=
  [(.one, .call .lock 1)] ++ steps .one 8 ++
    [(.zero, .adopt (some 0) (some 1)), (.zero, .call .lock 0)] ++ steps .zero 8 ++
    [(.zero, .call .lock 1)] ++ steps .zero 11

/-- The lock is recursive, so a core that owns it gets it again and handles the interrupt in the
middle of what the lock protects. -/
theorem interrupts_in_critical :
    ¬ ∀ (isLazy : ℕ → Bool) (memory : ℕ → ℤ) (xs : List ((Core × Act) × State)),
      Lts.Run Step (State.initial isLazy memory) xs → Lts.Run Safe (State.initial isLazy memory) xs →
        Lts.Run Handled (State.initial isLazy memory) xs ∧
          Lts.Run Restored (State.initial isLazy memory) xs := by
  intro h
  have hok : Lts.accepts (fun s a => Enabled s a && ((s.stack a.1.other).isEmpty &&
      decide (s.shared.mutexCount < maxMutexes))) next
      (State.initial (fun _ => true) fun _ => -1) (contended ++ steps .zero 1) = true := by
    decide +kernel
  have hstep : ∀ u a v, (Enabled u a && ((u.stack a.1.other).isEmpty &&
      decide (u.shared.mutexCount < maxMutexes))) = true ∧ v = next u a →
      Step u a v ∧ Safe u a v := by
    rintro u a v ⟨h, hv⟩
    obtain ⟨hen, hsafe⟩ := Bool.and_eq_true_iff.mp h
    exact ⟨⟨hen, hv⟩, safe_alone hsafe⟩
  obtain ⟨hrun, hsafe⟩ := Lts.run_and.mp ((Lts.run_accepts _ hok).imp hstep)
  obtain ⟨hhandled, -⟩ := h _ _ _ hrun hsafe
  rw [Lts.trace_append, Lts.run_append] at hhandled
  have hlast := hhandled.2.1
  rw [Lts.last_trace] at hlast
  obtain ⟨hlevel, -⟩ := hlast true 0 none ⟨none, false, 1⟩ [.posix ⟨.lock, 1, .wait 0⟩] rfl
    (by decide +kernel)
  cases hlevel

end PicoOcaml.OcamlStubs.Stw
