import PicoOcaml.Pio.Shifts
import PicoOcaml.Pio.ReadWakeup

/-! Which steps read or write bytes of a TCP socket: all the other calls are probes. -/
namespace PicoOcaml.Pio

variable {W : Type*}

/-- The same externals, except that nobody reads any bytes, or nobody writes any. -/
def curbed (X : Externals W) (reads writes : Bool) : Externals W :=
  { X with
    tcpReadRaw := fun sock maxLen w =>
      if reads || maxLen = 0 then X.tcpReadRaw sock maxLen w else ((0, []), w)
    tcpWriteRaw := fun sock data len w =>
      if writes || len = 0 then X.tcpWriteRaw sock data len w else (0, w) }

/-- The socket that a closure reads from. -/
def Task.reads : Task → Option ℤ
  | .wake .read sock _ _ => some sock
  | _ => none

variable {X : Externals W} {s : State W} {reads writes : Bool}

theorem isReady_curbed : isReady (curbed X reads writes) = isReady X := by
  funext w world
  simp only [isReady]
  cases w.operation <;> simp [curbed]

theorem checkIoCompletions_curbed :
    checkIoCompletions (curbed X reads writes) = checkIoCompletions X := by
  have hpoll : serviceNetwork (curbed X reads writes) = serviceNetwork X := rfl
  have hone : processWaiter (curbed X reads writes) = processWaiter X := by
    funext acc w
    simp only [processWaiter, isReady_curbed]
  funext b w
  simp only [checkIoCompletions, hpoll, hone]

theorem pass_curbed : s.pass (curbed X reads writes) = s.pass X := by
  simp only [State.pass, checkIoCompletions_curbed]

theorem recvLoop_curbed (sock : ℤ) (tries : ℕ) (w : W) :
    recvLoop (curbed X reads writes) sock tries w = recvLoop X sock tries w := by
  induction tries generalizing w with
  | zero => rfl
  | succ tries ih =>
    rw [recvLoop, recvLoop]
    simp only [ih]
    rfl

theorem handleNetEffect_curbed {e : NetEff} (hr : ∀ sock, e = .tcpRead sock → reads = true)
    (hw : ∀ sock data, e = .tcpWrite sock data → writes = true) (h : Handler) (k : ℕ)
    (ws : List IoWaiter) (w : W) :
    handleNetEffect (curbed X reads writes) h k ws w e = handleNetEffect X h k ws w e := by
  cases e with
  | tcpRead sock =>
    have hreads := hr sock rfl
    subst hreads
    rfl
  | tcpWrite sock data =>
    have hwrites := hw sock data rfl
    subst hwrites
    rfl
  | udpRecvfrom sock => simp only [handleNetEffect, recvLoop_curbed]
  | _ => rfl

theorem startTask_curbed {t : Task} (ht : t.reads ≠ none → reads = true) :
    startTask (curbed X reads writes) s t = startTask X s t := by
  cases t with
  | wake op sock h k =>
    cases op with
    | connect => rfl
    | read =>
      have hreads := ht (by simp [Task.reads])
      subst hreads
      rfl
  | onTimeout op sock h k => cases op <;> rfl
  | _ => rfl

/-- A loop reads only when it runs the closure of a reader. -/
theorem go_curbed (hq : s.polling = true → ∀ t q, (s.pass X).book.runQueue = t :: q →
    t.reads ≠ none → reads = true) : go (curbed X reads writes) s = go X s := by
  have hround : s.polling = true → ∀ done : State W → State W,
      round (curbed X reads writes) s done = round X s done := by
    intro hp done
    simp only [round, checkIoCompletions_curbed]
    split
    · rename_i t q hr
      exact startTask_curbed (hq hp t q hr)
    · rfl
  simp only [go]
  split
  · rfl
  · rename_i sw rest hm hst
    exact hround (by simp [State.polling, hm, hst, Frame.loop]) _
  · rename_i sw rest hm hst
    exact hround (by simp [State.polling, hm, hst, Frame.loop]) _
  · rfl
  · rfl

theorem perform_curbed {eff : Eff} (hr : ∀ sock, eff = .net (.tcpRead sock) → reads = true)
    (hw : ∀ sock data, eff = .net (.tcpWrite sock data) → writes = true) :
    perform (curbed X reads writes) s eff = perform X s eff := by
  simp only [perform]
  split
  · cases eff with
    | net e =>
      have hr' : ∀ sock, e = .tcpRead sock → reads = true := by
        rintro sock rfl
        exact hr sock rfl
      have hw' : ∀ sock data, e = .tcpWrite sock data → writes = true := by
        rintro sock data rfl
        exact hw sock data rfl
      simp only [effc, netEffect_eq, handleNetEffect_curbed hr' hw']
    | _ => rfl
  · rfl

end PicoOcaml.Pio
