import Mathlib.Data.List.Induction
import PicoOcaml.OcamlStubs.Core1Handshake

/-! Thread-specific data: `tls_values` has one row for each core, and every thread sees its own. -/
namespace PicoOcaml.OcamlStubs.ThreadLocal

def maxTlsKeys : ℕ := 16

variable {F A V : Type*}

/-- The thread calls of the two cores, the rows with `none` for `NULL`, and the index of the loop
in `pthread_create` that clears the row of core 1. -/
structure State (F A V : Type*) where
  threads : Core1.State F A
  tlsValues : Core → ℕ → Option V
  clearing : Option ℕ

def State.initial : State F A V := ⟨.initial, fun _ _ => none, none⟩

inductive Act (F A V : Type*)
  | thread (a : Core1.Act F A)
  | clear
  | setspecific (c : Core) (key : ℕ) (value : Option V)

namespace State

variable (s : State F A V)

/-- Code of the program runs on the core. -/
def runs : Core → Bool
  | .zero => match s.threads.pc0 with | .idle => true | _ => false
  | .one => match s.threads.pc1 with | .running _ _ => true | _ => false

/-- The threads, numbered as they are launched: the program itself is number 0. -/
def thread : Core → ℕ
  | .zero => 0
  | .one => s.threads.launched.length

def pthreadGetspecific (c : Core) (key : ℕ) : Option V :=
  if key ≥ maxTlsKeys then none else s.tlsValues c key

/-- `none` for `EINVAL`. -/
def pthreadSetspecific (c : Core) (key : ℕ) (value : Option V) : Option (State F A V) :=
  if key ≥ maxTlsKeys then none
  else some { s with
    tlsValues := Function.update s.tlsValues c (Function.update (s.tlsValues c) key value) }

/-- The loop stands between `multicore_reset_core1` and the launch. -/
def startsClearing : Core1.Act F A → Bool
  | .go0 => match s.threads.pc0 with | .reset _ _ => true | _ => false
  | _ => false

def clear (i : ℕ) : State F A V :=
  if i < maxTlsKeys then
    { s with
      tlsValues := Function.update s.tlsValues .one (Function.update (s.tlsValues .one) i none)
      clearing := some (i + 1) }
  else { s with clearing := none }

def isGo0 : Core1.Act F A → Bool
  | .go0 => true
  | _ => false

def enabled : Act F A V → Bool
  | .thread a => Core1.Enabled s.threads a && (s.clearing.isNone || !isGo0 a)
  | .clear => s.clearing.isSome
  | .setspecific c _ _ => s.runs c

def next : Act F A V → State F A V
  | .thread a =>
    { s with
      threads := Core1.next s.threads a
      clearing := if s.startsClearing a then some 0 else s.clearing }
  | .clear => s.clearing.elim s s.clear
  | .setspecific c key value => (s.pthreadSetspecific c key value).getD s

/-- The calls that have stored a value, with the thread that has made them. -/
def stored : Act F A V → List (ℕ × ℕ × Option V)
  | .setspecific c key value => if key < maxTlsKeys then [(s.thread c, key, value)] else []
  | _ => []

end State

def Step (s : State F A V) (a : Act F A V) (t : State F A V) : Prop :=
  s.enabled a = true ∧ t = s.next a

/-! ### The purpose: a map for each thread -/

/-- What each thread has under each key. -/
abbrev Private (V : Type*) := ℕ → ℕ → Option V

def Private.set (p : Private V) : ℕ × ℕ × Option V → Private V
  | (th, key, value) => Function.update p th (Function.update (p th) key value)

/-- The maps after the stores, the first one first. -/
def privates (stores : List (ℕ × ℕ × Option V)) : Private V :=
  stores.foldl Private.set fun _ _ => none

section

variable {stores stores' : List (ℕ × ℕ × Option V)} {th key : ℕ} {value : Option V}

@[simp] theorem privates_append_one : privates (stores ++ [(th, key, value)]) =
    (privates stores).set (th, key, value) := by
  rw [privates, List.foldl_append]
  rfl

/-- A thread that has stored nothing has nothing. -/
theorem privates_untouched (h : ∀ x ∈ stores, x.1 ≠ th) (key : ℕ) :
    privates stores th key = none := by
  induction stores using List.reverseRecOn with
  | nil => rfl
  | append_singleton stores x ih =>
    obtain ⟨th', key', value⟩ := x
    have hne : th ≠ th' := fun heq => h (th', key', value) (by simp) heq.symm
    rw [privates_append_one, Private.set, Function.update_of_ne hne]
    exact ih fun y hy => h y (by simp [hy])

/-- No key from 16 on is ever stored under. -/
theorem privates_outside (h : ∀ x ∈ stores, x.2.1 < maxTlsKeys) (th : ℕ) {key : ℕ}
    (hkey : key ≥ maxTlsKeys) : privates stores th key = none := by
  induction stores using List.reverseRecOn with
  | nil => rfl
  | append_singleton stores x ih =>
    obtain ⟨th', key', value⟩ := x
    have hlt : key' < maxTlsKeys := h (th', key', value) (by simp)
    have hih := ih fun y hy => h y (by simp [hy])
    have hne : key ≠ key' := by omega
    rw [privates_append_one, Private.set]
    by_cases hth : th = th'
    · subst hth
      rw [Function.update_self, Function.update_of_ne hne]
      exact hih
    · rw [Function.update_of_ne hth]
      exact hih

end

/-! ### Runs -/

/-- A second launch is not taken for the first. -/
def Counting (t : Core1.State F A) : Prop :=
  match t.pc0 with
  | .storeFunc _ _ | .storeArg _ _ | .clearStarted _ _ =>
    2 ≤ t.createCount ∧ (t.launched ≠ [] → 2 < t.createCount)
  | .waitFinished _ _ | .reset _ _ | .launch _ _ => 2 ≤ t.createCount
  | .idle | .waitStarted | .joinWait => t.launched ≠ [] → 2 ≤ t.createCount

/-- Core 1 runs no thread, and its row is cleared as far as the loop has come. -/
def Cleared (s : State F A V) : Prop := ∀ key < s.clearing.getD maxTlsKeys, s.tlsValues .one key = none

structure Inv (stores : List (ℕ × ℕ × Option V)) (s : State F A V) : Prop where
  counting : Counting s.threads
  launching : ∀ f arg, s.threads.pc0 = .launch f arg → s.threads.pc1 = .off
  clearing : s.clearing ≠ none → ∃ f arg, s.threads.pc0 = .launch f arg
  begun : s.threads.launched = [] → s.threads.pc1 = .off
  known : ∀ x ∈ stores, x.1 ≤ s.threads.launched.length
  keys : ∀ x ∈ stores, x.2.1 < maxTlsKeys
  main : ∀ key < maxTlsKeys, s.tlsValues .zero key = privates stores 0 key
  own : s.threads.pc1 ≠ .off →
    ∀ key < maxTlsKeys, s.tlsValues .one key = privates stores s.threads.launched.length key
  cleared : s.threads.pc1 = .off → Cleared s

section

variable {s t : State F A V} {a : Act F A V} {stores : List (ℕ × ℕ × Option V)}
  {u : Core1.State F A} {xs : List (Act F A V × State F A V)}

theorem initial_inv : Inv [] (State.initial : State F A V) where
  counting h := absurd rfl h
  launching _ _ h := by cases h
  clearing h := absurd rfl h
  begun _ := rfl
  known x hx := by cases hx
  keys x hx := by cases hx
  main _ _ := rfl
  own h := absurd rfl h
  cleared _ _ _ := rfl

/-- A step of the threads that neither launches one nor stops one. -/
theorem Inv.moved (h : Inv stores s) (hl : u.launched = s.threads.launched)
    (hoff : u.pc1 = .off ↔ s.threads.pc1 = .off) (hcount : Counting u)
    (hlaunch : ∀ f arg, u.pc0 = .launch f arg → u.pc1 = .off)
    (hclear : s.clearing ≠ none → ∃ f arg, u.pc0 = .launch f arg) :
    Inv stores { s with threads := u } where
  counting := hcount
  launching := hlaunch
  clearing := hclear
  begun hnone := hoff.mpr (h.begun (hl ▸ hnone))
  known x hx := by
    have hle := h.known x hx
    simpa only [hl] using hle
  keys := h.keys
  main := h.main
  own hon := by
    have hown := h.own fun hs => hon (hoff.mpr hs)
    simpa only [hl] using hown
  cleared hs := h.cleared (hoff.mp hs)

/-- Core 0 moves on in a call, outside the loop. -/
theorem Inv.moved0 (h : Inv stores s) (hnone : s.clearing = none)
    (hl : u.launched = s.threads.launched) (hpc1 : u.pc1 = s.threads.pc1) (hcount : Counting u)
    (hlaunch : ∀ f arg, u.pc0 = .launch f arg → u.pc1 = .off) : Inv stores { s with threads := u } :=
  h.moved hl (by rw [hpc1]) hcount hlaunch fun hc => absurd hnone hc

theorem clearing_none (h : Inv stores s) (hpc : ∀ f arg, s.threads.pc0 ≠ .launch f arg) :
    s.clearing = none := by
  by_contra hc
  obtain ⟨f, arg, hp⟩ := h.clearing hc
  exact hpc f arg hp

/-- The row of core 1 is empty when a thread is launched on it. -/
theorem Inv.launched (h : Inv stores s) {f : F} {arg : A} (hp : s.threads.pc0 = .launch f arg)
    (hnone : s.clearing = none) :
    Inv stores { s with threads := Core1.step0 s.threads } := by
  have hoff := h.launching f arg hp
  have hcount := h.counting
  simp only [Counting, hp] at hcount
  have hempty := h.cleared hoff
  rw [Cleared, hnone] at hempty
  have hknown := h.known
  simp only [Core1.step0, hp]
  refine ⟨fun _ => hcount, ?_, fun hc => absurd hnone hc, ?_, ?_, h.keys, h.main, ?_, ?_⟩
  · intro f' arg' hq
    cases hq
  · intro hq
    simp at hq
  · intro x hx
    have hle := hknown x hx
    simp only [List.length_append]
    omega
  · intro _ key hkey
    have hfresh : privates stores (s.threads.launched.length + 1) key = none := by
      refine privates_untouched ?_ key
      intro x hx
      have hle := hknown x hx
      omega
    simp only [List.length_append, List.length_singleton]
    exact (hempty key hkey).trans hfresh.symm
  · intro hq
    cases hq

theorem Inv.go0 (h : Inv stores s) (he : Core1.Enabled s.threads .go0 = true)
    (hnone : s.clearing = none) : Inv stores (s.next (.thread .go0)) := by
  have hcount := h.counting
  cases hp : s.threads.pc0 with
  | idle => simp [Core1.Enabled, hp] at he
  | storeFunc f arg =>
    simp only [Counting, hp] at hcount
    simp only [State.next, State.startsClearing, hp, Core1.next, Core1.step0]
    exact h.moved0 hnone rfl rfl hcount (by simp)
  | storeArg f arg =>
    simp only [Counting, hp] at hcount
    simp only [State.next, State.startsClearing, hp, Core1.next, Core1.step0]
    exact h.moved0 hnone rfl rfl hcount (by simp)
  | clearStarted f arg =>
    simp only [Counting, hp] at hcount
    simp only [State.next, State.startsClearing, hp, Core1.next, Core1.step0]
    by_cases hmore : s.threads.createCount > 2
    · simp only [if_pos hmore]
      exact h.moved0 hnone rfl rfl hcount.1 (by simp)
    · simp only [if_neg hmore]
      refine h.moved0 hnone rfl rfl hcount.1 ?_
      -- nothing has been launched yet
      intro f' arg' _
      refine h.begun ?_
      by_contra hl
      exact hmore (hcount.2 hl)
  | waitFinished f arg =>
    simp only [Counting, hp] at hcount
    simp only [State.next, State.startsClearing, hp, Core1.next, Core1.step0]
    by_cases hfin : s.threads.finished = true
    · simp only [if_pos hfin]
      exact h.moved0 hnone rfl rfl hcount (by simp)
    · simp only [if_neg hfin]
      exact h.moved0 hnone rfl rfl (by simpa only [Counting, hp] using hcount) (by simp [hp])
  | reset f arg =>
    simp only [Counting, hp] at hcount
    simp only [State.next, State.startsClearing, hp, Core1.next, Core1.step0, if_true]
    refine ⟨hcount, fun _ _ _ => rfl, fun _ => ⟨f, arg, rfl⟩, fun _ => rfl, h.known, h.keys, h.main,
      fun hon => absurd rfl hon, ?_⟩
    intro _ key hkey
    simp at hkey
  | launch f arg =>
    simp only [State.next, State.startsClearing, hp, Core1.next]
    exact h.launched hp hnone
  | waitStarted =>
    simp only [Counting, hp] at hcount
    simp only [State.next, State.startsClearing, hp, Core1.next, Core1.step0]
    by_cases hst : s.threads.started = true
    · simp only [if_pos hst]
      exact h.moved0 hnone rfl rfl hcount (by simp)
    · simp only [if_neg hst]
      exact h.moved0 hnone rfl rfl (by simpa only [Counting, hp] using hcount) (by simp [hp])
  | joinWait =>
    simp only [Counting, hp] at hcount
    simp only [State.next, State.startsClearing, hp, Core1.next, Core1.step0]
    by_cases hfin : s.threads.finished = true
    · simp only [if_pos hfin]
      exact h.moved0 hnone rfl rfl hcount (by simp)
    · simp only [if_neg hfin]
      exact h.moved0 hnone rfl rfl (by simpa only [Counting, hp] using hcount) (by simp [hp])

/-- Core 1 neither starts nor stops by itself, and leaves what core 0 goes by. -/
theorem step1_frame (u : Core1.State F A) : (Core1.step1 u).launched = u.launched ∧
    (Core1.step1 u).pc0 = u.pc0 ∧ (Core1.step1 u).createCount = u.createCount ∧
      ((Core1.step1 u).pc1 = .off ↔ u.pc1 = .off) := by
  cases hq : u.pc1 with
  | cleanup i =>
    simp only [Core1.step1, hq]
    split
    · split <;> simp
    · simp
  | _ => simp [Core1.step1, hq]

theorem Counting.congr (hc : Counting s.threads) (hp : u.pc0 = s.threads.pc0)
    (hl : u.launched = s.threads.launched) (hn : u.createCount = s.threads.createCount) :
    Counting u := by
  simp only [Counting, hp, hl, hn] at hc ⊢
  exact hc

/-- Core 1 moves on and stays on. -/
theorem Inv.moved1 (h : Inv stores s) (hp : u.pc0 = s.threads.pc0)
    (hl : u.launched = s.threads.launched) (hn : u.createCount = s.threads.createCount)
    (hoff : u.pc1 = .off ↔ s.threads.pc1 = .off) : Inv stores { s with threads := u } := by
  refine h.moved hl hoff (h.counting.congr hp hl hn) ?_ ?_
  · intro f arg hq
    exact hoff.mpr (h.launching f arg (hp ▸ hq))
  · intro hc
    rw [hp]
    exact h.clearing hc

theorem Inv.create (h : Inv stores s) {f : F} {arg : A} (hidle : s.threads.pc0 = .idle) :
    Inv stores { s with threads := Core1.pthreadCreate s.threads f arg } := by
  have hnone := clearing_none h (by simp [hidle])
  have hcount := h.counting
  simp only [Counting, hidle] at hcount
  by_cases hodd : (s.threads.createCount + 1) % 2 = 1
  · simp only [Core1.pthreadCreate, if_pos hodd]
    refine h.moved0 hnone rfl rfl ?_ (by simp [hidle])
    simp only [Counting, hidle]
    intro hl
    have := hcount hl
    omega
  · simp only [Core1.pthreadCreate, if_neg hodd]
    refine h.moved0 hnone rfl rfl ⟨?_, ?_⟩ (by simp)
    · show 2 ≤ s.threads.createCount + 1
      omega
    · intro hl
      have := hcount hl
      show 2 < s.threads.createCount + 1
      omega

theorem Inv.thread (h : Inv stores s) {a : Core1.Act F A} (he : s.enabled (.thread a) = true) :
    Inv stores (s.next (.thread a)) := by
  obtain ⟨he, hfree⟩ := Bool.and_eq_true_iff.mp he
  cases a with
  | go0 =>
    have hnone : s.clearing = none := by
      simpa [State.isGo0] using hfree
    exact h.go0 he hnone
  | go1 =>
    obtain ⟨hl, hp, hn, hoff⟩ := step1_frame s.threads
    exact h.moved1 hp hl hn hoff
  | create f arg => exact h.create (Core1.idle_of_enabled f arg he)
  | join th =>
    have hidle : s.threads.pc0 = .idle := by
      simp only [Core1.Enabled] at he
      split at he
      · assumption
      · cases he
    have hnone := clearing_none h (by simp [hidle])
    have hcount := h.counting
    simp only [Counting, hidle] at hcount
    simp only [State.next, State.startsClearing, Core1.next, Core1.pthreadJoin]
    by_cases hth : th = 2
    · simp only [if_pos hth]
      exact h.moved0 hnone rfl rfl hcount (by simp)
    · simp only [if_neg hth]
      exact h.moved0 hnone rfl rfl (by simpa only [Counting, hidle] using hcount) (by simp [hidle])
  | body heldCounts heldMutexes storage => exact h.moved1 rfl rfl rfl Iff.rfl
  | ret =>
    obtain ⟨f, arg, hq⟩ := Core1.running_of_enabled he
    refine h.moved1 rfl rfl rfl ?_
    simp [Core1.next, hq]

theorem Inv.clear (h : Inv stores s) {i : ℕ} (hi : s.clearing = some i) :
    Inv stores (s.clear i) := by
  obtain ⟨f, arg, hp⟩ := h.clearing (by simp [hi])
  have hoff := h.launching f arg hp
  have hempty := h.cleared hoff
  simp only [Cleared, hi, Option.getD_some] at hempty
  by_cases hlt : i < maxTlsKeys
  · simp only [State.clear, if_pos hlt]
    refine ⟨h.counting, h.launching, fun _ => ⟨f, arg, hp⟩, h.begun, h.known, h.keys, ?_,
      fun hon => absurd hoff hon, ?_⟩
    · intro key hkey
      exact h.main key hkey
    · intro _ key hkey
      simp only [Option.getD_some] at hkey
      simp only [Function.update_self]
      by_cases hki : key = i
      · rw [hki, Function.update_self]
      · rw [Function.update_of_ne hki]
        exact hempty key (by omega)
  · simp only [State.clear, if_neg hlt]
    refine ⟨h.counting, h.launching, fun hc => absurd rfl hc, h.begun, h.known, h.keys, h.main,
      fun hon => absurd hoff hon, ?_⟩
    intro _ key hkey
    simp only [Option.getD_none] at hkey
    exact hempty key (by omega)

/-- A thread stores in the row of its core, which no other thread sees. -/
theorem Inv.setspecific (h : Inv stores s) {c : Core} {key : ℕ} {value : Option V}
    (hrun : s.runs c = true) (hkey : key < maxTlsKeys) :
    Inv (stores ++ [(s.thread c, key, value)]) { s with
      tlsValues := Function.update s.tlsValues c (Function.update (s.tlsValues c) key value) } := by
  have hknown : ∀ x ∈ stores ++ [(s.thread c, key, value)], x.1 ≤ s.threads.launched.length := by
    intro x hx
    rcases List.mem_append.mp hx with hx | hx
    · exact h.known x hx
    · rw [List.mem_singleton.mp hx]
      cases c with
      | zero => exact Nat.zero_le _
      | one => exact Nat.le_refl _
  have hkeys : ∀ x ∈ stores ++ [(s.thread c, key, value)], x.2.1 < maxTlsKeys := by
    intro x hx
    rcases List.mem_append.mp hx with hx | hx
    · exact h.keys x hx
    · rw [List.mem_singleton.mp hx]
      exact hkey
  cases c with
  | zero =>
    refine ⟨h.counting, h.launching, h.clearing, h.begun, hknown, hkeys, ?_, ?_, ?_⟩
    · intro key' hkey'
      simp only [privates_append_one, Private.set, State.thread, Function.update_self]
      by_cases hk : key' = key
      · rw [hk, Function.update_self, Function.update_self]
      · rw [Function.update_of_ne hk, Function.update_of_ne hk]
        exact h.main key' hkey'
    · intro hon key' hkey'
      have hne : s.threads.launched.length ≠ 0 := by
        intro hl
        exact hon (h.begun (List.eq_nil_of_length_eq_zero hl))
      simp only [privates_append_one, Private.set, State.thread]
      rw [Function.update_of_ne hne]
      exact h.own hon key' hkey'
    · exact h.cleared
  | one =>
    have hon : s.threads.pc1 ≠ .off := by
      intro hq
      simp [State.runs, hq] at hrun
    have hne : (0 : ℕ) ≠ s.threads.launched.length := by
      intro hl
      exact hon (h.begun (List.eq_nil_of_length_eq_zero hl.symm))
    refine ⟨h.counting, h.launching, h.clearing, h.begun, hknown, hkeys, ?_, ?_,
      fun hoff => absurd hoff hon⟩
    · intro key' hkey'
      simp only [privates_append_one, Private.set, State.thread]
      rw [Function.update_of_ne hne]
      exact h.main key' hkey'
    · intro _ key' hkey'
      simp only [privates_append_one, Private.set, State.thread, Function.update_self]
      by_cases hk : key' = key
      · rw [hk, Function.update_self, Function.update_self]
      · rw [Function.update_of_ne hk, Function.update_of_ne hk]
        exact h.own hon key' hkey'

theorem step_inv (h : Inv stores s) (hs : Step s a t) : Inv (stores ++ s.stored a) t := by
  obtain ⟨he, rfl⟩ := hs
  cases a with
  | thread a =>
    simp only [State.stored, List.append_nil]
    exact h.thread he
  | clear =>
    simp only [State.stored, List.append_nil, State.next]
    obtain ⟨i, hi⟩ := Option.isSome_iff_exists.mp he
    rw [hi]
    exact h.clear hi
  | setspecific c key value =>
    simp only [State.stored, State.next, State.pthreadSetspecific]
    by_cases hkey : key < maxTlsKeys
    · rw [if_pos hkey, if_neg (Nat.not_le.mpr hkey)]
      exact h.setspecific he hkey
    · rw [if_neg hkey, if_pos (Nat.le_of_not_lt hkey), List.append_nil]
      exact h

/-- Each thread reads what it has stored itself: under every key its own last value, `NULL` when it
has stored none, whichever thread had the core before. -/
theorem tls_private (h : Lts.Run Step (State.initial : State F A V) xs) (c : Core)
    (hrun : (Lts.last State.initial xs).runs c = true) (key : ℕ) :
    (Lts.last State.initial xs).pthreadGetspecific c key =
      privates (Lts.gather State.stored State.initial xs)
        ((Lts.last State.initial xs).thread c) key := by
  have hinv := h.gathers (l := []) (e := State.stored) initial_inv fun _ _ _ _ hu hstep =>
    step_inv hu hstep
  rw [List.nil_append] at hinv
  rw [State.pthreadGetspecific]
  by_cases hkey : key ≥ maxTlsKeys
  · rw [if_pos hkey, privates_outside hinv.keys _ hkey]
  · rw [if_neg hkey]
    cases c with
    | zero => exact hinv.main key (by omega)
    | one =>
      refine hinv.own ?_ key (by omega)
      intro hq
      simp [State.runs, hq] at hrun

/-- The calls of a domain spawned on core 1, up to its code. -/
def spawn : List (Act ℕ ℕ ℕ) :=
  [.thread (.create 0 0), .thread (.create 1 1), .thread .go0, .thread .go0, .thread .go0]

def started : List (Act ℕ ℕ ℕ) :=
  [.thread .go0, .thread .go1, .thread .go0, .thread .go1, .thread .go1, .thread .go1]

/-- A domain leaves a value behind, and a second one is launched on the same core. -/
def relaunched : List (Act ℕ ℕ ℕ) :=
  spawn ++ started ++ [.setspecific .one 3 (some 7), .thread .ret] ++
    List.replicate 68 (.thread .go1) ++ spawn ++ [.thread .go0, .thread .go0] ++
    List.replicate 17 .clear ++ started

theorem tls_private_relaunched :
    (Lts.last State.initial (Lts.trace State.next State.initial relaunched)).pthreadGetspecific
        .one 3 =
      privates (Lts.gather State.stored State.initial
          (Lts.trace State.next State.initial relaunched))
        ((Lts.last State.initial (Lts.trace State.next State.initial relaunched)).thread .one) 3 :=
  tls_private (Lts.run_accepts State.enabled (by decide)) .one (by decide) 3

end

end PicoOcaml.OcamlStubs.ThreadLocal
