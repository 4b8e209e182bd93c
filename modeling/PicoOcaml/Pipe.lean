import Mathlib.Data.List.Basic
import Mathlib.Tactic.TypeStar

/-! A bounded pipe that cuts off the end of what there is no room for. -/
namespace Pipe

variable {α : Type*}

inductive Op (α : Type*)
  | put (xs : List α)
  | take (n : ℕ)

variable (c : ℕ) (q : List α) (ops : List (Op α))

/-- What a pipe of capacity `c` holds after one operation. -/
def next : Op α → List α
  | .put xs => q ++ xs.take (c - q.length)
  | .take n => q.drop n

def held : List α := ops.foldl (next c) q

/-- What comes out, a list for each `take`. -/
def out : List α → List (Op α) → List (List α)
  | _, [] => []
  | q, .put xs :: ops => out (next c q (.put xs)) ops
  | q, .take n :: ops => q.take n :: out (next c q (.take n)) ops

/-- What goes in, a list for each `put`. -/
def kept : List α → List (Op α) → List (List α)
  | _, [] => []
  | q, .put xs :: ops => xs.take (c - q.length) :: kept (next c q (.put xs)) ops
  | q, .take n :: ops => kept (next c q (.take n)) ops

def puts : List (Op α) → List (List α)
  | [] => []
  | .put xs :: ops => xs :: puts ops
  | .take _ :: ops => puts ops

/-- Whatever is put in finds room. -/
def Fits : List α → List (Op α) → Prop
  | _, [] => True
  | q, .put xs :: ops => q.length + xs.length ≤ c ∧ Fits (next c q (.put xs)) ops
  | q, .take n :: ops => Fits (next c q (.take n)) ops

/-- Nothing is taken out. -/
def Idle : Prop := ∀ n, .take n ∈ ops → n = 0

variable {c q ops} {ops' : List (Op α)}

@[simp] theorem held_nil : held c q [] = q := rfl

@[simp] theorem held_cons (op : Op α) : held c q (op :: ops) = held c (next c q op) ops := rfl

theorem held_append : held c q (ops ++ ops') = held c (held c q ops) ops' := List.foldl_append

theorem out_append : out c q (ops ++ ops') = out c q ops ++ out c (held c q ops) ops' := by
  induction ops generalizing q with
  | nil => rfl
  | cons op ops ih =>
    cases op with
    | put xs => exact ih
    | take n => exact congrArg (q.take n :: ·) ih

theorem length_next (h : q.length ≤ c) (op : Op α) : (next c q op).length ≤ c := by
  cases op with
  | put xs =>
    rw [next, List.length_append, List.length_take]
    omega
  | take n =>
    rw [next, List.length_drop]
    omega

/-- What has come out and what is left are what was there and what has gone in. -/
theorem conserved : (out c q ops).flatten ++ held c q ops = q ++ (kept c q ops).flatten := by
  induction ops generalizing q with
  | nil => simp [out, kept]
  | cons op ops ih =>
    cases op with
    | put xs =>
      have hrest := ih (q := next c q (.put xs))
      rw [out, kept, held_cons, hrest, next, List.flatten_cons, List.append_assoc]
    | take n =>
      have hrest := ih (q := next c q (.take n))
      rw [out, kept, held_cons, List.flatten_cons, List.append_assoc, hrest, next,
        ← List.append_assoc, List.take_append_drop]

theorem kept_length_le : (kept c q ops).flatten.length ≤ (puts ops).flatten.length := by
  induction ops generalizing q with
  | nil => exact Nat.le_refl 0
  | cons op ops ih =>
    cases op with
    | put xs =>
      have hrest := ih (q := next c q (.put xs))
      rw [kept, puts, List.flatten_cons, List.flatten_cons, List.length_append, List.length_append,
        List.length_take]
      omega
    | take n => exact ih

theorem kept_eq_iff (h : q.length ≤ c) : (kept c q ops).flatten = (puts ops).flatten ↔ Fits c q ops := by
  induction ops generalizing q with
  | nil => exact ⟨fun _ => trivial, fun _ => rfl⟩
  | cons op ops ih =>
    have hnext := ih (length_next h op)
    cases op with
    | take n => exact hnext
    | put xs =>
      rw [kept, puts, Fits, List.flatten_cons, List.flatten_cons, ← hnext]
      constructor
      · intro heq
        have hlen := congrArg List.length heq
        have hle : (kept c (next c q (.put xs)) ops).flatten.length ≤ (puts ops).flatten.length :=
          kept_length_le
        rw [List.length_append, List.length_append, List.length_take] at hlen
        have hroom : q.length + xs.length ≤ c := by omega
        rw [List.take_of_length_le (by omega)] at heq
        exact ⟨hroom, List.append_cancel_left heq⟩
      · rintro ⟨hroom, heq⟩
        rw [List.take_of_length_le (by omega), heq]

/-- Nothing is lost on the way exactly when everything finds room. -/
theorem whole_iff (h : q.length ≤ c) :
    (out c q ops).flatten ++ held c q ops = q ++ (puts ops).flatten ↔ Fits c q ops := by
  rw [conserved, List.append_right_inj]
  exact kept_eq_iff h

theorem Idle.append (h : Idle ops) (h' : Idle ops') : Idle (ops ++ ops') := by
  intro n hn
  rcases List.mem_append.mp hn with hn | hn
  · exact h n hn
  · exact h' n hn

/-- Every list that comes out is empty. -/
theorem Idle.out (h : Idle ops) : ∀ xs ∈ out c q ops, xs = [] := by
  induction ops generalizing q with
  | nil => exact fun xs hxs => absurd hxs List.not_mem_nil
  | cons op ops ih =>
    have hrest : Idle ops := fun n hn => h n (List.mem_cons_of_mem _ hn)
    cases op with
    | put xs => exact ih hrest
    | take n =>
      have hn : n = 0 := h n List.mem_cons_self
      subst hn
      intro xs hxs
      rcases List.mem_cons.mp hxs with rfl | hxs
      · exact List.take_zero
      · exact ih hrest xs hxs

end Pipe
