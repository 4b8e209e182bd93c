import Mathlib.Logic.Relation
import PicoOcaml.Pio.Machine

/-! The small moves that change promises, queue and waiting list. -/
namespace PicoOcaml.Pio

/-- Tasks that start code of the program. -/
def Task.starts : Task → Bool
  | .main _ | .fiber _ | .promiseFiber _ _ | .element _ => true
  | _ => false

/-- The effect that a waiter for `op` on `sockId` belongs to. -/
def WaitsFor (op : Operation) (sockId : ℤ) (e : NetEff) : Prop :=
  (op = .read → e = .tcpRead sockId) ∧ (op = .connect → ∃ host port, e = .tcpConnect host port)

/-- Moves that leave the code of the program alone. -/
inductive Quiet (b : Book) : Book → Prop
  | create : Quiet b b.createPromise
  | settle (p : ℕ) {o : PromiseState} {a : Answer} : o.outcome = some a →
      Quiet b ((b.note (.settled p)).settle p o)
  | poll {kept : List IoWaiter} {ts : List Task} : Polled b.ioWaiters kept ts →
      Quiet b ({ b with ioWaiters := kept.reverse }.enqueueAll ts.reverse)
  | waker {p k : ℕ} {h : Handler} {a : Answer} {q : List Task} :
      b.runQueue = .waker p h k :: q → b.outcome p = some a →
      Quiet b ((b.take (.waker p h k) q).enqueue (.resume h k a))
  | wake {op : Operation} {sock : ℤ} {h : Handler} {k : ℕ} {a : Answer} {q : List Task} :
      b.runQueue = .wake op sock h k :: q → a ≠ readTimeout →
      Quiet b ((b.take (.wake op sock h k) q).enqueue (.resume h k a))
  | onTimeout {op : Operation} {sock : ℤ} {h : Handler} {k : ℕ} {a : Answer}
      {q : List Task} : b.runQueue = .onTimeout op sock h k :: q →
      Quiet b ((b.take (.onTimeout op sock h k) q).enqueue (.resume h k a))
  | awaited {p : ℕ} {a : Answer} : b.outcome p = some a → Quiet b (b.note (.awaited p a))

/-- A continuation is captured, and the only reference to it is filed. -/
inductive Capture (h : Handler) (b : Book) : Eff → Book → Prop
  | await {p : ℕ} : b.outcome p = none → p < b.promises.length →
      Capture h b (.await p) ((b.capture (.await p) h).addWaiter p (.waker p h b.konts.length))
  | yield :
      Capture h b .yield ((b.capture .yield h).enqueue (.resume h b.konts.length (.value .unit)))
  | wait {e : NetEff} {sock : ℤ} {op : Operation} : WaitsFor op sock e →
      Capture h b (.net e) { b.capture (.net e) h with
        ioWaiters := ⟨sock, op, 0, 1000, h, b.konts.length⟩ :: b.ioWaiters }

inductive Move (b : Book) : Book → Prop
  | quiet {b' : Book} : Quiet b b' → Move b b'
  | capture {b' : Book} {eff : Eff} {h : Handler} : Capture h b eff b' → Move b b'
  | settle (p : ℕ) {o : PromiseState} {a : Answer} : o.outcome = some a → Move b (b.settle p o)
  | start {t : Task} : t.starts = true → Move b (b.enqueue t)
  | run {t : Task} {q : List Task} : b.runQueue = t :: q → t.starts = true →
      Move b (b.take t q)
  | resume {h : Handler} {k : ℕ} {a : Answer} {q : List Task} :
      b.runQueue = .resume h k a :: q → Move b (b.take (.resume h k a) q)
  | stillPending {p k : ℕ} {h : Handler} {q : List Task} :
      b.runQueue = .waker p h k :: q → b.outcome p = none →
      Move b ((b.take (.waker p h k) q).note (.stillPending k))
  | ended (body : Body) (a : Answer) : Move b (b.note (.ended body a))

abbrev Moves : Book → Book → Prop := Relation.ReflTransGen Move

theorem Moves.one {b b' : Book} (h : Move b b') : Moves b b' := .single h

theorem Moves.keeps {p : Book → Prop} {b b' : Book} (h : Moves b b')
    (hmove : ∀ b b', p b → Move b b' → p b') (hb : p b) : p b' := by
  induction h with
  | refl => exact hb
  | tail _ hm ih => exact hmove _ _ ih hm

end PicoOcaml.Pio
