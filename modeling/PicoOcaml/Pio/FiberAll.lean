import PicoOcaml.Pio.Elements
import PicoOcaml.Pio.MainCompletion

/-! `Fiber.both` and `Fiber.all`: how a call of them goes, and who handles the effects of its
elements. -/
namespace PicoOcaml.Pio

/-- Where a call of `Fiber.all` stands: it queues the next element and so many more, it awaits a
promise and then others, the await is answered, or waits for the continuation `k`. -/
inductive Call
  | queue (more : ℕ) (ps : List ℕ)
  | await (p : ℕ) (ps : List ℕ)
  | answer (p : ℕ) (ps : List ℕ)
  | wait (k p : ℕ) (ps : List ℕ)
  | ended (a : Answer)
deriving DecidableEq

/-- The continuation has been resumed. -/
def Book.resumed (b : Book) (k : ℕ) : Bool := b.log.any (Event.ranTask (Task.resumes k))

namespace Call

/-- `List.iter` over promises. -/
def iter : List ℕ → Call
  | [] => .ended (.value .unit)
  | p :: ps => .await p ps

/-- `List.map` over the functions, of which so many are left. -/
def map (ps : List ℕ) : ℕ → Call
  | 0 => iter ps
  | n + 1 => .queue n ps

/-- `Fiber.all` on a list of so many functions. -/
def all (n : ℕ) : Call := map [] n

variable {W : Type*}

/-- The call after a step; `none` for a step that its code does not make. -/
def next (s : State W) (a : Act) (t : State W) : Call → Option Call
  | .queue n ps => if a = .element then some (map (ps ++ [s.book.promises.length]) n) else none
  | .await p ps =>
    if a = .perform (.await p) then
      some (if s.book.konts.length < t.book.konts.length then .wait s.book.konts.length p ps
        else .answer p ps)
    else none
  | .answer _ ps =>
    match a, s.mode with
    | .go, .ret (.value _) => some (iter ps)
    | .go, .ret (.exn e) => some (.ended (.exn e))
    | _, _ => none
  | .wait k p ps => some (if t.book.resumed k then .answer p ps else .wait k p ps)
  | .ended a => some (.ended a)

/-- The call after a run. -/
def follow : Call → State W → List (Act × State W) → Option Call
  | call, _, [] => some call
  | call, s, (a, t) :: xs => (call.next s a t).bind fun call => follow call t xs

end Call

/-- `Fiber.both` creates its promises before it queues the elements. -/
def Book.both (b : Book) : Book :=
  (b.createPromise.createPromise.enqueue (.element b.promises.length)).enqueue
    (.element (b.promises.length + 1))

variable {W : Type*}

/-- That makes no difference: a call of `Fiber.both` is one of `Fiber.all` on two functions. -/
theorem both_elements (X : Externals W) (s : State W) :
    next X (next X s .element) .element = { s with book := s.book.both } := by
  simp [next, Book.both, Book.createPromise, Book.enqueue, Book.enqueueAll]

/-- An element performs an effect of `Pio` or `Net`. -/
def elementEffect (s : State W) (a : Act) : Bool :=
  match s.mode, s.stack, a with
  | .run, .body (.element _) :: _, .perform eff => eff ≠ .other
  | _, _, _ => false

/-- Code of a fiber. -/
def Frame.isFiber : Frame → Bool
  | .body (.main _) | .body (.fiber _) | .body (.promise _ _) => true
  | _ => false

/-- The code that runs belongs to a fiber, or to a run that a fiber has called. -/
def State.Nested (s : State W) : Prop := s.stack.any Frame.isFiber = true

/-- Some handler is installed below the running code. -/
def State.Handled (s : State W) : Prop := s.stack.any Frame.isHandler = true

/-- An element performs its effects in a run that a fiber has called. -/
def WithinFiber (s : State W) (a : Act) (_ : State W) : Prop :=
  elementEffect s a = true → s.Nested

/-- No effect of an element is answered by `Effect.Unhandled`. -/
def Unrefused (s : State W) (a : Act) (t : State W) : Prop :=
  elementEffect s a = true → t ≠ s.reply (.exn .unhandled)

/-- Code of an element. -/
def Frame.isElement : Frame → Bool
  | .body (.element _) => true
  | _ => false

/-- A handler keeps no continuation that code of an element is part of. -/
def elementless (segment : List Frame) (_h : Handler) (_rest : List Frame) : Bool :=
  segment.all fun f => !f.isElement

/-- The step performs effects of elements for a fiber only, and suspends no element. -/
def ForFiber (X : Externals W) (s : State W) (a : Act) (t : State W) : Prop :=
  WithinFiber s a t ∧ onSuspension elementless X s a = true

/-- The effects of elements are handled as those of forked fibers: none is refused, and a
continuation that a handler keeps of an element ends above the loop that has called the element. -/
def AsForked (s : State W) (a : Act) (t : State W) : Prop :=
  Unrefused s a t ∧ ∀ eff segment, a = .perform eff → t.segments = s.segments ++ [some segment] →
    segment.any Frame.isElement = true → segment.all (fun f => !f.loop) = true

/-- The promises of elements are in the scope of their call alone. -/
def Private (b : Book) : Prop := ∀ p, .enqueued (.element p) ∈ b.log → .settled p ∉ b.log

/-- An element that is called from a fiber is in the queue or on the stack until its own code has
ended, and until then some loop runs. -/
def RunsToEnd (s : State W) (xs : List (Act × State W)) : Prop :=
  ∀ pre t post, xs = pre ++ (.element, t) :: post → (Lts.last s pre).Nested →
    let p := (Lts.last s pre).book.promises.length
    let u := Lts.last s xs
    (∃ a, .ended (.element p) a ∈ u.book.log) ∨ u.stack.any Frame.loop = true ∧
      (.element p ∈ u.book.runQueue ∨ .body (.element p) ∈ u.stack)

/-- An element that is queued waits in the queue, is on the stack, or is suspended, until its own
code has ended. -/
def Attended (s : State W) : Prop := ∀ p, .enqueued (.element p) ∈ s.book.log →
  .element p ∈ s.book.runQueue ∨ .body (.element p) ∈ s.stack ∨
    (∃ segment, some segment ∈ s.segments ∧ .body (.element p) ∈ segment) ∨
      ∃ a, .ended (.element p) a ∈ s.book.log

def Returned (b : Book) (p : ℕ) : Prop := ∃ v, .ended (.element p) (.value v) ∈ b.log

def Raised (b : Book) (p : ℕ) (e : Exn) : Prop := .ended (.element p) (.exn e) ∈ b.log

/-- The call has ended as its elements, in the order of the list, make it end. -/
structure Call.Correct (b : Book) (ps : List ℕ) (r : Answer) : Prop where
  returns : ∀ v, r = .value v → ∀ p ∈ ps, Returned b p
  raises : ∀ e, r = .exn e → ∃ before p after, ps = before ++ p :: after ∧ Raised b p e ∧
    ∀ q ∈ before, Returned b q
  once : ∀ p ∈ ps, ∀ e, Returned b p → ¬ Raised b p e

/-- Every call from a fiber that has ended in the run is correct. -/
def CallsCorrect (s : State W) (xs : List (Act × State W)) : Prop :=
  ∀ pre post b rest n r, xs = pre ++ post → (Lts.last s pre).Program b rest →
    (Lts.last s pre).Nested → (Call.all n).follow (Lts.last s pre) post = some (.ended r) →
      Call.Correct (Lts.last s xs).book (List.range' (Lts.last s pre).book.promises.length n) r

/-- So is every call of `Fiber.both` from a fiber, on `f` and `g`. -/
def BothCorrect (s : State W) (xs : List (Act × State W)) : Prop :=
  ∀ pre t u post b rest, xs = pre ++ (.element, t) :: (.element, u) :: post →
    (Lts.last s pre).Program b rest → (Lts.last s pre).Nested →
      let p := (Lts.last s pre).book.promises.length
      u = { Lts.last s pre with book := (Lts.last s pre).book.both } ∧
      ∀ r, (Call.await p [p + 1]).follow u post = some (.ended r) →
        Call.Correct (Lts.last s xs).book [p, p + 1] r

/-- Calls of `Fiber.both` and `Fiber.all` from fibers behave as if their elements were forked. -/
structure ElementsServed (first : State W) (xs : List (Act × State W)) : Prop where
  handled : Lts.Run AsForked first xs
  ends : RunsToEnd first xs
  all : CallsCorrect first xs
  both : BothCorrect first xs

variable {X : Externals W} {s t : State W} {a : Act} {c : List Frame → Handler → List Frame → Prop}

/-! ### Who handles an effect -/

theorem splitHandler_isSome {l : List Frame} :
    (splitHandler l).isSome = true ↔ l.any Frame.isHandler = true := by
  induction l with
  | nil => simp [splitHandler]
  | cons f l ih =>
    cases f with
    | handler h => simp [splitHandler, Frame.isHandler]
    | _ => simpa [splitHandler, Frame.isHandler] using ih

theorem recvLoop_ne_unhandled (sock : ℤ) (tries : ℕ) (w : W) :
    (recvLoop X sock tries w).1 ≠ .exn .unhandled := by
  induction tries generalizing w with
  | zero =>
    rw [recvLoop]
    simp only
    split <;> simp
  | succ tries ih =>
    rw [recvLoop]
    simp only
    split
    · simp
    · exact ih _

theorem netReply_ne_unhandled (h : Handler) (k : ℕ) (ws : List IoWaiter) (w : W) (e : NetEff) :
    (handleNetEffect X h k ws w e).reply ≠ some (.exn .unhandled) := by
  cases e with
  | udpRecvfrom sock =>
    have hloop := recvLoop_ne_unhandled (X := X) sock 1000 w
    simpa [handleNetEffect] using hloop
  | _ =>
    simp only [handleNetEffect]
    repeat' split
    all_goals simp

/-- A handler never answers `Effect.Unhandled` for an effect that it knows. -/
theorem effc_ne_refused {segment rest : List Frame} {h : Handler} {eff : Eff} (he : eff ≠ .other) :
    effc X s segment h rest eff ≠ s.reply (.exn .unhandled) := by
  have hsuspend : ∀ (u : State W) (e : Eff) (refer : Book → Book), u.segments = s.segments →
      u.suspend e h segment rest refer ≠ s.reply (.exn .unhandled) := by
    intro u e refer hseg heq
    have hlen := congrArg (fun u => u.segments.length) heq
    simp [State.suspend, State.reply, hseg] at hlen
  intro heq
  cases eff with
  | fork sw =>
    have hmode := congrArg State.mode heq
    simp [effc, State.reply] at hmode
  | forkPromise sw =>
    have hmode := congrArg State.mode heq
    simp [effc, State.reply] at hmode
  | await p =>
    simp only [effc] at heq
    split at heq
    · have hlen := congrArg (fun u => u.book.log.length) heq
      simp [State.reply, Book.note] at hlen
    · exact hsuspend _ _ _ rfl heq
  | yield =>
    simp only [effc] at heq
    exact hsuspend _ _ _ rfl heq
  | net e =>
    have hne := netReply_ne_unhandled (X := X) h s.book.konts.length s.book.ioWaiters s.world e
    simp only [effc, netEffect_eq] at heq
    split at heq
    · rename_i a ha
      have hmode := congrArg State.mode heq
      simp only [State.reply, Mode.ret.injEq] at hmode
      rw [ha, hmode] at hne
      exact hne rfl
    · exact hsuspend { s with world := (handleNetEffect X h s.book.konts.length s.book.ioWaiters
        s.world e).world } _ _ rfl heq
  | other => exact he rfl

/-- An effect of an element is refused just when no handler is installed. -/
theorem unrefused_iff (h : Step X s a t) :
    Unrefused s a t ↔ (elementEffect s a = true → s.Handled) := by
  obtain ⟨-, rfl⟩ := h
  constructor
  · intro hun heff
    have ht := hun heff
    simp only [elementEffect] at heff
    split at heff
    · by_contra hnone
      rw [State.Handled, ← splitHandler_isSome, Option.not_isSome_iff_eq_none] at hnone
      exact ht (by simp [next, perform, hnone])
    · cases heff
  · intro hunder heff
    have hany := hunder heff
    simp only [State.Handled] at hany
    simp only [elementEffect] at heff
    split at heff
    · rename_i eff hm hst
      rw [← splitHandler_isSome, Option.isSome_iff_exists] at hany
      obtain ⟨⟨segment, h, rest⟩, hsplit⟩ := hany
      simp only [next, perform, hsplit]
      exact effc_ne_refused (of_decide_eq_true heff)
    · cases heff

/-- Directly above a handler stands its fiber. -/
theorem fiber_above {f : Frame} {h : Handler} (hab : Above f (.handler h))
    (hf : f.isHandler = false) : f.isFiber = true := by
  cases f with
  | body b =>
    cases b with
    | top => exact hab.elim
    | element p => cases hab
    | hook sw n =>
      obtain ⟨hooks, heq⟩ := hab
      cases heq
    | _ => rfl
  | handler hd => cases hf
  | scheduler sw => cases hab
  | settles p => cases hab
  | mainScheduler sw =>
    obtain ⟨b, heq⟩ := hab
    cases heq
  | cleanup sw hooks =>
    obtain ⟨b, heq⟩ := hab
    cases heq

theorem fiber_of_handler {f : Frame} {l : List Frame} (hc : (f :: l).IsChain Above)
    (hf : f.isHandler = false) (hh : l.any Frame.isHandler = true) :
    (f :: l).any Frame.isFiber = true := by
  induction l generalizing f with
  | nil => cases hh
  | cons g l ih =>
    obtain ⟨hab, hrest⟩ := List.isChain_cons_cons.mp hc
    by_cases hg : g.isHandler = true
    · cases g with
      | handler h => simp [fiber_above hab hf]
      | _ => cases hg
    · have hg' : g.isHandler = false := by simpa using hg
      have hh' : l.any Frame.isHandler = true := by simpa [hg'] using hh
      rw [List.any_cons, ih hrest hg' hh', Bool.or_true]

/-- Directly below a fiber stands its handler. -/
theorem handler_below {f : Frame} {l : List Frame} (hc : (f :: l).IsChain Above)
    (hg : Grounded (f :: l)) (hf : f.isFiber = true) : l.any Frame.isHandler = true := by
  cases l with
  | nil =>
    have htop := hg f rfl
    rw [htop] at hf
    cases hf
  | cons g fs =>
    have hab := (List.isChain_cons_cons.mp hc).1
    have hg : g.isHandler = true := by
      cases f with
      | body b =>
        cases b with
        | main sw => exact congrArg Frame.isHandler hab
        | fiber sw => exact congrArg Frame.isHandler hab
        | promise sw p => exact congrArg Frame.isHandler hab
        | _ => cases hf
      | _ => cases hf
    simp [hg]

/-- Code of the program runs under a handler just when it runs for a fiber. -/
theorem handled_iff {b : Body} {rest : List Frame} (h : Control s) (hg : Grounded s.stack)
    (hs : s.Program b rest) : s.Handled ↔ s.Nested := by
  have hchain := h.chain
  rw [State.Handled, State.Nested]
  constructor
  · intro hh
    rw [hs.2] at hchain hh ⊢
    exact fiber_of_handler hchain rfl hh
  · intro hfiber
    obtain ⟨f, hmem, hf⟩ := List.any_eq_true.mp hfiber
    obtain ⟨pre, post, hst⟩ := List.append_of_mem hmem
    rw [hst] at hchain hg ⊢
    have hbelow := handler_below hchain.right_of_append (hg.pop pre) hf
    simp [hbelow]

/-! ### Loops below an element -/

/-- Below a handler stands a loop. -/
theorem loop_below_handler {f : Frame} {l : List Frame} (hc : (f :: l).IsChain Above)
    (hg : Grounded (f :: l)) (hf : f.isHandler = true) : l.any Frame.loop = true := by
  induction l generalizing f with
  | nil =>
    rw [hg f rfl] at hf
    cases hf
  | cons g l ih =>
    obtain ⟨hab, hrest⟩ := List.isChain_cons_cons.mp hc
    by_cases hl : g.loop = true
    · simp [hl]
    · cases f with
      | handler h =>
        cases h with
        | main sw =>
          rcases hab with rfl | hab
          · simp [ih hrest (hg.pop [_]) rfl]
          · exact absurd hab hl
        | fiber sw => exact absurd hab hl
        | promise sw p => exact absurd hab hl
      | _ => cases hf

theorem loop_of_handled (h : Control s) (hg : Grounded s.stack) (hh : s.Handled) :
    s.stack.any Frame.loop = true := by
  obtain ⟨f, hmem, hf⟩ := List.any_eq_true.mp hh
  obtain ⟨pre, post, hst⟩ := List.append_of_mem hmem
  have hchain := h.chain
  rw [hst] at hchain hg ⊢
  simp [loop_below_handler hchain.right_of_append (hg.pop pre) hf]

/-- Below an element stands the loop that has called it, unless the frames end before. -/
theorem loop_below_element {p : ℕ} {l : List Frame} (hc : l.IsChain Above)
    (hmem : .body (.element p) ∈ l) (hlast : ∀ f ∈ l.getLast?, f ≠ .body (.element p) ∧ f ≠ .settles p) :
    l.any Frame.loop = true := by
  obtain ⟨pre, post, rfl⟩ := List.append_of_mem hmem
  have hpost := hc.right_of_append
  cases post with
  | nil => exact absurd rfl (hlast (.body (.element p)) (by simp)).1
  | cons g post =>
    obtain ⟨hab, hrest⟩ := List.isChain_cons_cons.mp hpost
    have hg : g = .settles p := hab
    subst hg
    cases post with
    | nil => exact absurd rfl (hlast (.settles p) (by simp)).2
    | cons g' post =>
      have hl : g'.loop = true := (List.isChain_cons_cons.mp hrest).1
      simp [hl]

theorem Captured.loop_of_element {h : Handler} {segment : List Frame} (hcap : Captured h segment)
    (hmem : segment.any Frame.isElement = true) : segment.any Frame.loop = true := by
  obtain ⟨f, hf, helem⟩ := List.any_eq_true.mp hmem
  obtain ⟨b, fs, hsegment, -⟩ := hcap.shape
  obtain ⟨p, rfl⟩ : ∃ p, f = .body (.element p) := by
    cases f with
    | body b =>
      cases b with
      | element p => exact ⟨p, rfl⟩
      | _ => cases helem
    | _ => cases helem
  apply loop_below_element hcap.chain hf
  intro g hg
  rw [hsegment, List.getLast?_concat, Option.mem_def, Option.some.injEq] at hg
  subst hg
  exact ⟨nofun, nofun⟩

/-- A loop is left only for another one below it, or with an empty queue. -/
theorem Shift.keepsLoop (hsh : Shift c s t) (h : Control s) (hg : Grounded s.stack)
    (ha : LoopAnswers s) (hl : s.stack.any Frame.loop = true) :
    t.stack.any Frame.loop = true ∨ t.book.runQueue = [] := by
  have hchain := h.chain
  cases hsh with
  | switchRun hs => simp [Pio.switchRun, hl]
  | @suspend b fs segment rest eff hd book w hs hsplit hc hcap =>
    left
    cases hd with
    | main sw =>
      obtain ⟨happ, gs, rfl, -⟩ := splitHandler_spec hsplit
      rw [happ, List.append_assoc] at hchain hg
      exact loop_below_handler hchain.right_of_append (hg.pop gs) rfl
    | fiber sw => simp [State.leave, Frame.loop]
    | promise sw p => simp [State.leave, Frame.loop]
  | finish a hs => simpa [hs.2, Frame.loop] using Or.inl hl
  | launch hs hq ht => simp [push, hl]
  | resume hs hq hk => simp [hl]
  | resumeTwice hs hq hk => simp [hl]
  | breakLoop hs hf =>
    obtain ⟨v, hv⟩ := ha _ _ _ hs hf
    cases hv
  | endMain hs => simpa [hs.2, Frame.loop] using Or.inl hl
  | endFiber hs => simp [Frame.loop]
  | endPromise hs => simp [Frame.loop]
  | endElement hs ho => simpa [hs.2, Frame.loop] using Or.inl hl
  | exitScheduler hs hq hw hf => exact .inr hq
  | exitMain hs hq hr => exact .inr hq
  | runHook hm hst => simpa [hst, Frame.loop] using Or.inl hl
  | exitCleanup hm hst => simpa [hst, Frame.loop] using Or.inl hl
  | _ => exact .inl hl

end PicoOcaml.Pio
