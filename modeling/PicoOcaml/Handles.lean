import Mathlib.Data.Nat.Notation
import Mathlib.Logic.Function.Basic
import Mathlib.Tactic.TypeStar

/-! Resources that are given out once and given back once, and the cells that keep them. -/
namespace Handles

/-- What has been given out and not given back, each with its kind and the cell it was given for.
Numbers are given out in order. -/
structure Heap (κ ι : Type*) where
  out : ℕ → Option (κ × ι)
  next : ℕ

inductive Op (κ ι : Type*)
  | new (k : κ) (i : ι) (p : ℕ)
  | use (k : κ) (p : ℕ)
  | release (k : κ) (p : ℕ)

variable {κ ι : Type*}

namespace Heap

def empty : Heap κ ι := ⟨fun _ => none, 0⟩

def give (h : Heap κ ι) (k : κ) (i : ι) : Heap κ ι :=
  ⟨Function.update h.out h.next (some (k, i)), h.next + 1⟩

def drop (h : Heap κ ι) (p : ℕ) : Heap κ ι := { h with out := Function.update h.out p none }

/-- `none` is an operation on a resource of another kind, or on one that is not out. -/
def step [DecidableEq κ] (h : Heap κ ι) : Op κ ι → Option (Heap κ ι)
  | .new k i p => if p = h.next then some (h.give k i) else none
  | .use k p => if (h.out p).map Prod.fst = some k then some h else none
  | .release k p => if (h.out p).map Prod.fst = some k then some (h.drop p) else none

def run [DecidableEq κ] (h : Heap κ ι) (ops : List (Op κ ι)) : Option (Heap κ ι) :=
  ops.foldlM step h

end Heap

/-- A cell keeps only what is out and was given for it. -/
structure Held (h : Heap κ ι) (cell : ι → Option (κ × ℕ)) : Prop where
  out : ∀ i k p, cell i = some (k, p) → h.out p = some (k, i)
  next : ∀ p, h.next ≤ p → h.out p = none

/-- What is out is in the cell it was given for. -/
def Kept (h : Heap κ ι) (cell : ι → Option (κ × ℕ)) : Prop :=
  ∀ p k i, h.out p = some (k, i) → cell i = some (k, p)

variable {h : Heap κ ι} {cell cell' : ι → Option (κ × ℕ)} {i j : ι} {k k' : κ} {p : ℕ}

/-! ### Operations -/

section
variable [DecidableEq κ] {ops : List (Op κ ι)}

@[simp] theorem run_nil : h.run [] = some h := rfl

theorem run_give (h : Heap κ ι) (k : κ) (i : ι) : h.run [.new k i h.next] = some (h.give k i) := by
  simp [Heap.run, Heap.step]

theorem run_uses (hu : ∀ op ∈ ops, ∃ k p i, op = .use k p ∧ h.out p = some (k, i)) :
    h.run ops = some h := by
  induction ops with
  | nil => rfl
  | cons op ops ih =>
    obtain ⟨k, p, i, rfl, hout⟩ := hu op List.mem_cons_self
    have hstep : h.step (.use k p) = some h := by simp [Heap.step, hout]
    have hrest := ih fun op hop => hu op (List.mem_cons_of_mem _ hop)
    rw [Heap.run, List.foldlM_cons, hstep]
    exact hrest

/-- The last use of a resource gives it back. -/
theorem run_release (hp : h.out p = some (k, i))
    (hu : ∀ op ∈ ops, op = .use k p) : h.run (ops ++ [.release k p]) = some (h.drop p) := by
  have huses : h.run ops = some h := run_uses fun op hop => ⟨k, p, i, hu op hop, hp⟩
  have hstep : h.step (.release k p) = some (h.drop p) := by simp [Heap.step, hp]
  rw [Heap.run] at huses
  rw [Heap.run, List.foldlM_append, huses]
  simp [hstep]

end

/-! ### Cells that keep only what is out -/

theorem held_empty : Held (Heap.empty : Heap κ ι) fun _ => none :=
  ⟨fun _ _ _ h => (Option.some_ne_none _ h.symm).elim, fun _ _ => rfl⟩

theorem Held.ne_next (hh : Held h cell) (hp : h.out p = some (k, i)) : p ≠ h.next := by
  rintro rfl
  rw [hh.next _ (Nat.le_refl _)] at hp
  cases hp

theorem Held.clear (hh : Held h cell) (hc : ∀ i, cell' i = none ∨ cell' i = cell i) :
    Held h cell' := by
  refine ⟨fun i k p hi => ?_, hh.next⟩
  rcases hc i with hnone | hsame
  · rw [hnone] at hi
    cases hi
  · exact hh.out i k p (hsame ▸ hi)

/-- What has just been given out goes into its cell. -/
theorem Held.give [DecidableEq ι] (hh : Held h cell) (k : κ) (i : ι) :
    Held (h.give k i) (Function.update cell i (some (k, h.next))) := by
  constructor
  · intro j k' p hj
    by_cases hji : j = i
    · subst hji
      obtain ⟨rfl, rfl⟩ : k = k' ∧ h.next = p := by simpa using hj
      exact Function.update_self ..
    · rw [Function.update_of_ne hji] at hj
      have hout := hh.out j k' p hj
      exact (Function.update_of_ne (hh.ne_next hout) _ _).trans hout
  · intro p hp
    have hlt : h.next < p := hp
    exact (Function.update_of_ne (Nat.ne_of_gt hlt) _ _).trans (hh.next p (Nat.le_of_lt hlt))

/-- The cell of a resource that is given back is left empty, whether it kept the resource or
not. -/
theorem Held.drop (hh : Held h cell) (hp : h.out p = some (k, i)) (hi : cell' i = none)
    (hc : ∀ j, j ≠ i → cell' j = cell j) : Held (h.drop p) cell' := by
  constructor
  · intro j k' q hj
    have hji : j ≠ i := by
      rintro rfl
      rw [hi] at hj
      cases hj
    have hout := hh.out j k' q (hc j hji ▸ hj)
    have hqp : q ≠ p := by
      rintro rfl
      rw [hp] at hout
      cases hout
      exact hji rfl
    exact (Function.update_of_ne hqp _ _).trans hout
  · intro q hq
    by_cases hqp : q = p
    · subst hqp
      exact Function.update_self ..
    · exact (Function.update_of_ne hqp _ _).trans (hh.next q hq)

/-! ### Cells that keep all that is out -/

theorem kept_empty : Kept (Heap.empty : Heap κ ι) fun _ => none :=
  fun _ _ _ h => (Option.some_ne_none _ h.symm).elim

/-- Emptying cells loses what they kept. -/
theorem Kept.clear_iff (hh : Held h cell) (hc : ∀ i, cell' i = none ∨ cell' i = cell i) :
    Kept h cell' ↔ Kept h cell ∧ cell' = cell := by
  constructor
  · intro hk
    have hkept : Kept h cell := by
      intro p k i hp
      rcases hc i with hnone | hsame
      · have hi := hk p k i hp
        rw [hnone] at hi
        cases hi
      · exact hsame ▸ hk p k i hp
    refine ⟨hkept, funext fun i => ?_⟩
    rcases hc i with hnone | hsame
    · cases hi : cell i with
      | none => exact hnone
      | some kp => exact (hk kp.2 kp.1 i (hh.out i kp.1 kp.2 hi)).trans rfl
    · exact hsame
  · rintro ⟨hk, rfl⟩
    exact hk

/-- Giving out a resource for a cell loses what the cell kept. -/
theorem Kept.give_iff [DecidableEq ι] (hh : Held h cell) (k : κ) (i : ι) :
    Kept (h.give k i) (Function.update cell i (some (k, h.next))) ↔
      Kept h cell ∧ cell i = none := by
  constructor
  · intro hk
    have hold : ∀ p k' j, h.out p = some (k', j) → j ≠ i ∧ cell j = some (k', p) := by
      intro p k' j hp
      have hpn := hh.ne_next hp
      have hj := hk p k' j ((Function.update_of_ne hpn _ _).trans hp)
      by_cases hji : j = i
      · subst hji
        obtain ⟨-, rfl⟩ : k = k' ∧ h.next = p := by simpa using hj
        exact absurd rfl hpn
      · rw [Function.update_of_ne hji] at hj
        exact ⟨hji, hj⟩
    refine ⟨fun p k' j hp => (hold p k' j hp).2, ?_⟩
    cases hi : cell i with
    | none => rfl
    | some kp => exact absurd rfl (hold kp.2 kp.1 i (hh.out i kp.1 kp.2 hi)).1
  · rintro ⟨hk, hi⟩ p k' j hp
    by_cases hpn : p = h.next
    · subst hpn
      obtain ⟨rfl, rfl⟩ : k = k' ∧ i = j := by simpa [Heap.give] using hp
      exact Function.update_self ..
    · have hj := hk p k' j ((Function.update_of_ne hpn _ _).symm.trans hp)
      have hji : j ≠ i := by
        rintro rfl
        rw [hi] at hj
        cases hj
      rw [Function.update_of_ne hji, hj]

/-- Giving back a resource that its cell kept loses nothing. -/
theorem Kept.drop_iff (hh : Held h cell) (hp : cell i = some (k, p)) (hi : cell' i = none)
    (hc : ∀ j, j ≠ i → cell' j = cell j) : Kept (h.drop p) cell' ↔ Kept h cell := by
  have hout := hh.out i k p hp
  constructor
  · intro hk q k' j hq
    by_cases hqp : q = p
    · subst hqp
      rw [hout] at hq
      cases hq
      exact hp
    · have hj := hk q k' j ((Function.update_of_ne hqp _ _).trans hq)
      have hji : j ≠ i := by
        rintro rfl
        rw [hi] at hj
        cases hj
      rw [← hc j hji, hj]
  · intro hk q k' j hq
    have hqp : q ≠ p := by
      rintro rfl
      simp [Heap.drop] at hq
    have hj := hk q k' j ((Function.update_of_ne hqp _ _).symm.trans hq)
    have hji : j ≠ i := by
      rintro rfl
      rw [hp] at hj
      cases hj
      exact hqp rfl
    rw [hc j hji, hj]

end Handles
