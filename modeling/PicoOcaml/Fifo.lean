import Mathlib.Data.List.Basic

/-! A bounded first-in first-out queue, and what a log of its operations says. -/
namespace Fifo

/-- An operation together with its answer. -/
inductive Op (α : Type*)
  | push (a : α)
  | full
  | pop (a : α)
  | empty

variable {α : Type*} {cap : ℕ} {q q' : List α} {op : Op α} {log log' : List (Op α)}

inductive Step (cap : ℕ) : List α → Op α → List α → Prop
  | push {q : List α} (a : α) (h : q.length < cap) : Step cap q (.push a) (q ++ [a])
  | full {q : List α} (h : q.length = cap) : Step cap q .full q
  | pop (a : α) (q : List α) : Step cap (a :: q) (.pop a) q
  | empty : Step cap [] .empty []

def pushed : List (Op α) → List α :=
  List.filterMap fun | .push a => some a | _ => none

def popped : List (Op α) → List α :=
  List.filterMap fun | .pop a => some a | _ => none

/-- A step of a system with such a queue inside leaves queue and log, or makes one operation on
the queue and logs it. -/
def Refines (cap : ℕ) (q : List α) (log : List (Op α)) (q' : List α) (log' : List (Op α)) :
    Prop :=
  (q' = q ∧ log' = log) ∨ ∃ op, Step cap q op q' ∧ log' = log ++ [op]

/-- What went in is what came out, followed by what is still inside. -/
structure Accounted (cap : ℕ) (q : List α) (log : List (Op α)) : Prop where
  balance : pushed log = popped log ++ q
  bound : q.length ≤ cap

theorem Step.accounted (h : Step cap q op q') (ha : Accounted cap q log) :
    Accounted cap q' (log ++ [op]) := by
  obtain ⟨hb, hc⟩ := ha
  simp only [pushed, popped] at hb
  cases h with
  | push a hlt => exact ⟨by simp [pushed, popped, hb], by simp; omega⟩
  | full heq => exact ⟨by simpa [pushed, popped] using hb, hc⟩
  | pop a q => exact ⟨by simpa [pushed, popped] using hb, by simp at hc; omega⟩
  | empty => exact ⟨by simpa [pushed, popped] using hb, hc⟩

theorem Refines.accounted (h : Refines cap q log q' log') (ha : Accounted cap q log) :
    Accounted cap q' log' := by
  rcases h with ⟨rfl, rfl⟩ | ⟨op, hs, rfl⟩
  · exact ha
  · exact hs.accounted ha

theorem accounted_nil : Accounted cap ([] : List α) [] := ⟨rfl, Nat.zero_le _⟩

theorem Accounted.in_order (h : Accounted cap q log) : popped log <+: pushed log :=
  ⟨q, h.balance.symm⟩

end Fifo
