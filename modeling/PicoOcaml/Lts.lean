import Mathlib.Tactic.TypeStar
import Mathlib.Data.List.Basic

/-! Finite runs of a labelled step relation, and the rules that carry a step fact along a run. -/
namespace Lts

variable {σ α β γ : Type*} {p q : σ → Prop} {step step' c : σ → α → σ → Prop}
  {f g : σ → α → Bool} {e d : σ → α → List β} {s t : σ} {a : α} {xs ys : List (α × σ)}

/-- The listed labels and target states follow each other from `s` by `step`. The same
notion says that every step of a run has a property. -/
def Run (step : σ → α → σ → Prop) : σ → List (α × σ) → Prop
  | _, [] => True
  | s, (a, t) :: xs => step s a t ∧ Run step t xs

/-- The state in which a run ends. -/
def last : σ → List (α × σ) → σ
  | s, [] => s
  | _, (_, t) :: xs => last t xs

/-- Every state the run visits, its first one included, satisfies `p`. -/
def Always (p : σ → Prop) (s : σ) (xs : List (α × σ)) : Prop := p s ∧ ∀ x ∈ xs, p x.2

/-- How many steps of the run pass a test on the state before and the label. -/
def count (f : σ → α → Bool) : σ → List (α × σ) → ℕ
  | _, [] => 0
  | s, (a, t) :: xs => (if f s a then 1 else 0) + count f t xs

/-- What the steps of the run yield, one after the other. -/
def gather (e : σ → α → List β) : σ → List (α × σ) → List β
  | _, [] => []
  | s, (a, t) :: xs => e s a ++ gather e t xs

@[simp] theorem run_nil : Run step s [] := trivial

@[simp] theorem run_cons : Run step s ((a, t) :: xs) ↔ step s a t ∧ Run step t xs := Iff.rfl

@[simp] theorem last_nil : last s ([] : List (α × σ)) = s := rfl

@[simp] theorem last_cons : last s ((a, t) :: xs) = last t xs := rfl

@[simp] theorem always_nil : Always p s ([] : List (α × σ)) ↔ p s := by simp [Always]

@[simp] theorem always_cons : Always p s ((a, t) :: xs) ↔ p s ∧ Always p t xs := by
  simp [Always]

theorem last_append : last s (xs ++ ys) = last (last s xs) ys := by
  induction xs generalizing s with
  | nil => rfl
  | cons x xs ih => exact ih

theorem run_append : Run step s (xs ++ ys) ↔ Run step s xs ∧ Run step (last s xs) ys := by
  induction xs generalizing s with
  | nil => simp
  | cons x xs ih =>
    obtain ⟨a, t⟩ := x
    simp [ih, and_assoc]

theorem run_and : Run (fun s a t => step s a t ∧ c s a t) s xs ↔ Run step s xs ∧ Run c s xs := by
  induction xs generalizing s with
  | nil => simp
  | cons x xs ih =>
    obtain ⟨a, t⟩ := x
    simp only [run_cons, ih]
    tauto

theorem always_append : Always p s (xs ++ ys) ↔ Always p s xs ∧ Always p (last s xs) ys := by
  induction xs generalizing s with
  | nil =>
    rw [List.nil_append, last_nil, always_nil]
    exact ⟨fun h => ⟨h.1, h⟩, And.right⟩
  | cons x xs ih =>
    obtain ⟨a, t⟩ := x
    rw [List.cons_append, always_cons, always_cons, last_cons, ih, and_assoc]

theorem Always.first (h : Always p s xs) : p s := h.1

theorem Always.last (h : Always p s xs) : p (last s xs) := by
  induction xs generalizing s with
  | nil => exact h.1
  | cons x xs ih =>
    obtain ⟨a, t⟩ := x
    exact ih (always_cons.mp h).2

theorem Always.imp (h : Always p s xs) (hpq : ∀ u, p u → q u) : Always q s xs :=
  ⟨hpq s h.1, fun x hx => hpq x.2 (h.2 x hx)⟩

/-- A property of the first state that every step keeps holds along the whole run, and with
it every step fact that follows from the property. -/
theorem Run.keeps (h : Run step s xs) (hp : p s)
    (hstep : ∀ u a v, p u → step u a v → p v ∧ c u a v) : Always p s xs ∧ Run c s xs := by
  induction xs generalizing s with
  | nil => simpa using hp
  | cons x xs ih =>
    obtain ⟨a, t⟩ := x
    obtain ⟨ht, hc⟩ := hstep s a t hp h.1
    obtain ⟨hal, hrun⟩ := ih h.2 ht
    exact ⟨always_cons.mpr ⟨hp, hal⟩, hc, hrun⟩

theorem Run.always (h : Run step s xs) (hp : p s) (hstep : ∀ u a v, p u → step u a v → p v) :
    Always p s xs :=
  (h.keeps (c := fun _ _ _ => True) hp fun u a v hu hv => ⟨hstep u a v hu hv, trivial⟩).1

theorem Run.imp (h : Run step s xs) (hstep : ∀ u a v, step u a v → step' u a v) :
    Run step' s xs :=
  (h.keeps (p := fun _ => True) trivial fun u a v _ hv => ⟨trivial, hstep u a v hv⟩).2

/-- Every step of a run may use what holds in all its states. -/
theorem Run.under (h : Run step s xs) (hp : Always p s xs)
    (hstep : ∀ u a v, p u → p v → step u a v → c u a v) : Run c s xs := by
  induction xs generalizing s with
  | nil => trivial
  | cons x xs ih =>
    obtain ⟨a, t⟩ := x
    obtain ⟨hs, ht⟩ := always_cons.mp hp
    exact ⟨hstep s a t hs ht.first h.1, ih h.2 ht⟩

/-- Two step properties agree along a run when an invariant makes them agree at each step and
one of them carries the invariant on. -/
theorem Run.congr {d : σ → α → σ → Prop} (h : Run step s xs) (hp : p s)
    (hcd : ∀ u a v, p u → step u a v → (c u a v ↔ d u a v))
    (hstep : ∀ u a v, p u → step u a v → d u a v → p v) : Run c s xs ↔ Run d s xs := by
  induction xs generalizing s with
  | nil => simp
  | cons x xs ih =>
    obtain ⟨a, t⟩ := x
    have hiff := hcd s a t hp h.1
    constructor
    · rintro ⟨hc, hrun⟩
      have hd := hiff.mp hc
      exact ⟨hd, (ih h.2 (hstep s a t hp h.1 hd)).mp hrun⟩
    · rintro ⟨hd, hrun⟩
      exact ⟨hiff.mpr hd, (ih h.2 (hstep s a t hp h.1 hd)).mpr hrun⟩

/-- A property of every step is one of each way to cut a run at a step. -/
theorem run_iff_cut : Run c s xs ↔
    ∀ pre a t post, xs = pre ++ (a, t) :: post → c (last s pre) a t := by
  constructor
  · rintro h pre a t post rfl
    exact (run_append.mp h).2.1
  · intro h
    induction xs generalizing s with
    | nil => trivial
    | cons x xs ih =>
      obtain ⟨a, t⟩ := x
      refine ⟨h [] a t xs rfl, ih fun pre b u post hxs => ?_⟩
      exact h ((a, t) :: pre) b u post (by rw [hxs, List.cons_append])

/-- A property of all visited states is one of the first state and of every step's target. -/
theorem always_iff : Always p s xs ↔ p s ∧ Run (fun _ _ t => p t) s xs := by
  induction xs generalizing s with
  | nil => simp
  | cons x xs ih =>
    obtain ⟨a, t⟩ := x
    simp [ih]

@[simp] theorem count_nil : count f s [] = 0 := rfl

@[simp] theorem count_cons :
    count f s ((a, t) :: xs) = (if f s a then 1 else 0) + count f t xs := rfl

theorem count_append : count f s (xs ++ ys) = count f s xs + count f (last s xs) ys := by
  induction xs generalizing s with
  | nil => simp
  | cons x xs ih =>
    obtain ⟨a, t⟩ := x
    rw [List.cons_append, count_cons, count_cons, ih, last_cons, Nat.add_assoc]

theorem count_eq_zero (h : Run (fun s a _ => f s a = false) s xs) : count f s xs = 0 := by
  induction xs generalizing s with
  | nil => rfl
  | cons x xs ih =>
    obtain ⟨a, t⟩ := x
    obtain ⟨hf, hrun⟩ := h
    simp [hf, ih hrun]

theorem count_le (hfg : ∀ s a, f s a = true → g s a = true) : count f s xs ≤ count g s xs := by
  induction xs generalizing s with
  | nil => exact Nat.le_refl 0
  | cons x xs ih =>
    obtain ⟨a, t⟩ := x
    have htail := ih (s := t)
    rw [count_cons, count_cons]
    by_cases hf : f s a = true
    · rw [if_pos hf, if_pos (hfg s a hf)]
      omega
    · rw [if_neg hf]
      omega

/-- A stronger test is passed as often as a weaker one when every step that passes the weaker
one passes both. -/
theorem count_le_iff (hfg : ∀ s a, f s a = true → g s a = true) :
    count g s xs ≤ count f s xs ↔ Run (fun s a _ => g s a = true → f s a = true) s xs := by
  induction xs generalizing s with
  | nil => simp
  | cons x xs ih =>
    obtain ⟨a, t⟩ := x
    have hle : count f t xs ≤ count g t xs := count_le hfg
    rw [count_cons, count_cons, run_cons, ← ih]
    by_cases hf : f s a = true
    · simp [hf, hfg s a hf]
    · by_cases hg : g s a = true
      · simp only [hf, hg, if_true]
        constructor
        · intro h
          simp only [Bool.false_eq_true, if_false] at h
          omega
        · rintro ⟨h, -⟩
          exact absurd (h trivial) nofun
      · simp [hf, hg]

@[simp] theorem gather_nil : gather e s [] = [] := rfl

@[simp] theorem gather_cons : gather e s ((a, t) :: xs) = e s a ++ gather e t xs := rfl

theorem gather_append : gather e s (xs ++ ys) = gather e s xs ++ gather e (last s xs) ys := by
  induction xs generalizing s with
  | nil => rfl
  | cons x xs ih =>
    obtain ⟨a, t⟩ := x
    rw [List.cons_append, gather_cons, gather_cons, ih, last_cons, List.append_assoc]

theorem gather_eq_nil (h : Run (fun s a _ => e s a = []) s xs) : gather e s xs = [] := by
  induction xs generalizing s with
  | nil => rfl
  | cons x xs ih =>
    obtain ⟨a, t⟩ := x
    obtain ⟨he, hrun⟩ := h
    rw [gather_cons, he, ih hrun, List.nil_append]

/-- A property of what has been gathered and of the state, which every step keeps. -/
theorem Run.gathers {P : List β → σ → Prop} {l : List β} (h : Run step s xs) (hp : P l s)
    (hstep : ∀ l u a v, P l u → step u a v → P (l ++ e u a) v) :
    P (l ++ gather e s xs) (last s xs) := by
  induction xs generalizing s l with
  | nil => simpa using hp
  | cons x xs ih =>
    obtain ⟨a, t⟩ := x
    have ht := ih h.2 (hstep l s a t hp h.1)
    rwa [List.append_assoc] at ht

/-- The same of two things that are gathered at once. -/
theorem Run.gathers_both {d : σ → α → List γ} {P : List β → List γ → σ → Prop} {l : List β}
    {m : List γ} (h : Run step s xs) (hp : P l m s)
    (hstep : ∀ l m u a v, P l m u → step u a v → P (l ++ e u a) (m ++ d u a) v) :
    P (l ++ gather e s xs) (m ++ gather d s xs) (last s xs) := by
  induction xs generalizing s l m with
  | nil => simpa using hp
  | cons x xs ih =>
    obtain ⟨a, t⟩ := x
    have ht := ih h.2 (hstep l m s a t hp h.1)
    rwa [List.append_assoc, List.append_assoc] at ht

/-- Once a flag is up that stays up, what is gathered before it and under it is what is gathered. -/
theorem gather_flag {flag : σ → Bool} (h : Run (fun s _ t => flag s = true → flag t = true) s xs) :
    gather e s xs = gather (fun s a => if flag s then [] else e s a) s xs ++
      gather (fun s a => if flag s then e s a else []) s xs := by
  induction xs generalizing s with
  | nil => rfl
  | cons x xs ih =>
    obtain ⟨a, t⟩ := x
    obtain ⟨hflag, hrun⟩ := h
    by_cases hs : flag s = true
    · have hafter : Run (fun s a _ => (if flag s then [] else e s a) = []) t xs := by
        refine (hrun.keeps (p := fun s => flag s = true) (hflag hs) ?_).2
        intro u a v hu hv
        exact ⟨hv hu, if_pos hu⟩
      rw [gather_cons, gather_cons, gather_cons, if_pos hs, if_pos hs, ih hrun,
        gather_eq_nil hafter, List.nil_append, List.nil_append, List.nil_append]
    · rw [gather_cons, gather_cons, gather_cons, if_neg hs, if_neg hs, ih hrun, List.nil_append,
        List.append_assoc]

theorem gather_length_le (hed : ∀ s a, e s a = [] ∨ e s a = d s a) :
    (gather e s xs).length ≤ (gather d s xs).length := by
  induction xs generalizing s with
  | nil => exact Nat.le_refl 0
  | cons x xs ih =>
    obtain ⟨a, t⟩ := x
    have htail := ih (s := t)
    rw [gather_cons, gather_cons, List.length_append, List.length_append]
    rcases hed s a with he | he
    · rw [he, List.length_nil]
      omega
    · rw [he]
      omega

/-- Leaving some steps out changes what is gathered unless they yield nothing. -/
theorem gather_eq_iff (hed : ∀ s a, e s a = [] ∨ e s a = d s a) :
    gather e s xs = gather d s xs ↔ Run (fun s a _ => e s a = d s a) s xs := by
  induction xs generalizing s with
  | nil => simp
  | cons x xs ih =>
    obtain ⟨a, t⟩ := x
    rw [gather_cons, gather_cons, run_cons, ← ih]
    constructor
    · intro h
      rcases hed s a with he | he
      · have hlen := congrArg List.length h
        have hle : (gather e t xs).length ≤ (gather d t xs).length := gather_length_le hed
        rw [he, List.nil_append, List.length_append] at hlen
        have hd : d s a = [] := List.length_eq_zero_iff.mp (by omega)
        rw [he, hd, List.nil_append, List.nil_append] at h
        exact ⟨he.trans hd.symm, h⟩
      · rw [he] at h
        exact ⟨he, List.append_cancel_left h⟩
    · rintro ⟨he, h⟩
      rw [he, h]

/-- The run of a deterministic system on a list of labels. -/
def trace (next : σ → α → σ) : σ → List α → List (α × σ)
  | _, [] => []
  | s, a :: as => (a, next s a) :: trace next (next s a) as

theorem run_trace {next : σ → α → σ} {as : List α} :
    Run (fun s a t => t = next s a) s (trace next s as) := by
  induction as generalizing s with
  | nil => trivial
  | cons a as ih => exact ⟨rfl, ih⟩

/-- Every label of the list passes the test in the state it is reached in. -/
def accepts (ok : σ → α → Bool) (next : σ → α → σ) : σ → List α → Bool
  | _, [] => true
  | s, a :: as => ok s a && accepts ok next (next s a) as

theorem run_accepts (ok : σ → α → Bool) {next : σ → α → σ} {as : List α}
    (h : accepts ok next s as = true) :
    Run (fun s a t => ok s a = true ∧ t = next s a) s (trace next s as) := by
  induction as generalizing s with
  | nil => trivial
  | cons a as ih =>
    obtain ⟨ha, has⟩ := Bool.and_eq_true_iff.mp h
    exact ⟨⟨ha, rfl⟩, ih has⟩

theorem last_trace {next : σ → α → σ} {as : List α} : last s (trace next s as) = as.foldl next s := by
  induction as generalizing s with
  | nil => rfl
  | cons a as ih => exact ih

theorem trace_append {next : σ → α → σ} {as bs : List α} :
    trace next s (as ++ bs) = trace next s as ++ trace next (as.foldl next s) bs := by
  induction as generalizing s with
  | nil => rfl
  | cons a as ih => exact congrArg ((a, next s a) :: ·) ih

end Lts
