import PicoOcaml.Pio.Machine
import PicoOcaml.Pio.RawCalls

/-! The two copies of the network handlers do the same for a fiber. -/
namespace PicoOcaml.Pio

variable {W : Type*} (X : Externals W)

/-- The closure `t` queues a resumption of `k` with the answer `a`. When that is taken, the code
that performed the effect is on top and handed `a`. -/
def Hands (s : State W) (t : Task) (k : ℕ) (a : Answer) : Prop :=
  ∃ resumption, (startTask X s t).book.runQueue = s.book.runQueue ++ [resumption] ∧
    ∀ (u : State W) (segment : List Frame), u.segments[k]? = some (some segment) →
      (startTask X u resumption).mode = .ret a ∧ segment <+: (startTask X u resumption).stack

/-- Whatever the raw calls return by then, two closures make the same ones and answer alike. -/
def AnswerAlike (t : Task) (k : ℕ) (t' : Task) (k' : ℕ) : Prop :=
  ∀ s s' : State W, s.world = s'.world → (startTask X s t).world = (startTask X s' t').world ∧
    ∃ a, Hands X s t k a ∧ Hands X s' t' k' a

/-- Two waiters for `k` and `k'` that differ only in who waits. -/
structure Alike (v : IoWaiter) (k : ℕ) (v' : IoWaiter) (k' : ℕ) : Prop where
  sockId : v.sockId = v'.sockId
  operation : v.operation = v'.operation
  timeoutCount : v.timeoutCount = v'.timeoutCount
  maxTimeout : v.maxTimeout = v'.maxTimeout
  wake : AnswerAlike X v.wake k v'.wake k'
  onTimeout : AnswerAlike X v.onTimeout k v'.onTimeout k'

/-- The fiber of `k` is answered as that of `k'` is: at once and with the same waiters left, or by
one more waiter. -/
def SameChange (ws : List IoWaiter) (r : NetStep W) (k : ℕ) (r' : NetStep W) (k' : ℕ) : Prop :=
  (∃ a, r.reply = some a ∧ r'.reply = some a ∧ r.ioWaiters = r'.ioWaiters) ∨
    (r.reply = none ∧ r'.reply = none ∧
      ∃ v v', r.ioWaiters = v :: ws ∧ r'.ioWaiters = v' :: ws ∧ Alike X v k v' k')

theorem hands_resume (s : State W) {t : Task} (h : Handler) (k : ℕ) (a : Answer)
    (ht : (startTask X s t).book = s.book.enqueue (.resume h k a)) : Hands X s t k a := by
  refine ⟨.resume h k a, by rw [ht]; rfl, ?_⟩
  intro u segment hu
  simp only [startTask, hu, Option.join_some]
  exact ⟨rfl, by simp [State.reply, List.append_assoc]⟩

/-- The closures of the two handlers answer alike. -/
theorem alike_waiters (sock : ℤ) (op : Operation) (n limit : ℕ) (h h' : Handler) (k k' : ℕ) :
    Alike X ⟨sock, op, n, limit, h, k⟩ k ⟨sock, op, n, limit, h', k'⟩ k' := by
  refine ⟨rfl, rfl, rfl, rfl, ?_, ?_⟩
  · intro s s' hw
    refine ⟨?_, (wakeAnswer X op sock s.world).1, hands_resume X s h k _ ?_,
      hands_resume X s' h' k' _ ?_⟩
    · simp only [IoWaiter.wake, startTask, Handler.wakeAnswer_eq, hw]
    · simp only [IoWaiter.wake, startTask, Handler.wakeAnswer_eq]
    · simp only [IoWaiter.wake, startTask, Handler.wakeAnswer_eq, hw]
  · intro s s' hw
    refine ⟨?_, (timeoutAnswer X op sock s.world).1, hands_resume X s h k _ ?_,
      hands_resume X s' h' k' _ ?_⟩
    · simp only [IoWaiter.onTimeout, startTask, Handler.timeoutAnswer_eq, hw]
    · simp only [IoWaiter.onTimeout, startTask, Handler.timeoutAnswer_eq]
    · simp only [IoWaiter.onTimeout, startTask, Handler.timeoutAnswer_eq, hw]

theorem handleNetEffect_alike (h h' : Handler) (k k' : ℕ) (ws : List IoWaiter) (w : W) (e : NetEff) :
    (handleNetEffect X h k ws w e).world = (handleNetEffect X h' k' ws w e).world ∧
      SameChange X ws (handleNetEffect X h k ws w e) k (handleNetEffect X h' k' ws w e) k' := by
  cases e with
  | tcpConnect host port =>
    simp only [handleNetEffect]
    split
    · exact ⟨rfl, Or.inl ⟨_, rfl, rfl, rfl⟩⟩
    · split
      · exact ⟨rfl, Or.inl ⟨_, rfl, rfl, rfl⟩⟩
      · split
        · exact ⟨rfl, Or.inl ⟨_, rfl, rfl, rfl⟩⟩
        · exact ⟨rfl, Or.inr ⟨rfl, rfl, _, _, rfl, rfl, alike_waiters X _ _ _ _ h h' k k'⟩⟩
  | tcpRead sock =>
    simp only [handleNetEffect]
    split
    · exact ⟨rfl, Or.inl ⟨_, rfl, rfl, rfl⟩⟩
    · split
      · exact ⟨rfl, Or.inl ⟨_, rfl, rfl, rfl⟩⟩
      · exact ⟨rfl, Or.inr ⟨rfl, rfl, _, _, rfl, rfl, alike_waiters X _ _ _ _ h h' k k'⟩⟩
  | _ =>
    simp only [handleNetEffect]
    repeat' split
    all_goals exact ⟨by trivial, Or.inl ⟨_, rfl, rfl, rfl⟩⟩

/-- `handle_net_effect`, for whatever fiber, and `main_handler` issue the same raw calls with the
same outcomes, and do the same to the waiting list and to the fiber. -/
theorem netHandlers_agree (h : Handler) (sw k k' : ℕ) (ws : List IoWaiter) (w : Recorded W)
    (e : NetEff) :
    (handleNetEffect (recorded X) h k ws w e).world =
      (mainNetEffect (recorded X) (.main sw) k' ws w e).world ∧
    SameChange (recorded X) ws (handleNetEffect (recorded X) h k ws w e) k
      (mainNetEffect (recorded X) (.main sw) k' ws w e) k' := by
  rw [mainNetEffect_eq]
  exact handleNetEffect_alike (recorded X) h (.main sw) k k' ws w e

end PicoOcaml.Pio
