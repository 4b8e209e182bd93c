import PicoOcaml.Pio.Resumption

/-! Sequential code of a fiber. Whatever the other fibers do, it is given the answers of its own
effects, in order. -/
namespace PicoOcaml.Pio

/-- What code does next. -/
inductive Doing (α : Type*)
  | perform (e : NetEff)
  | done (r : α)
deriving DecidableEq

/-- Code that performs network effects, by what it does after the answers of its effects so far. -/
abbrev Code (α : Type*) := List Answer → Doing α

/-- Where code stands, with the answers it has been given: it acts, its effect has been answered, or
it waits as the continuation `k`. -/
inductive Thread
  | acts (answers : List Answer)
  | answered (answers : List Answer)
  | waits (k : ℕ) (answers : List Answer)
deriving DecidableEq

def Thread.answers : Thread → List Answer
  | .acts answers | .answered answers | .waits _ answers => answers

section

variable {W α : Type*} (X : Externals W) (code : Code α)

/-- Where the code stands after a step; `none` for a step that it does not make. -/
def Thread.next (s : State W) (a : Act) (t : State W) : Thread → Option Thread
  | .acts answers =>
    match code answers with
    | .perform e =>
      if a = .perform (.net e) then
        some (if s.book.konts.length < t.book.konts.length then .waits s.book.konts.length answers
          else .answered answers)
      else none
    | .done _ => none
  | .answered answers =>
    match a, s.mode with
    | .go, .ret r => some (.acts (answers ++ [r]))
    | _, _ => none
  | .waits k answers => some (if t.book.resumed k then .answered answers else .waits k answers)

/-- A step of the machine in which the code goes on. -/
def Follows (p : State W × Thread) (a : Act) (q : State W × Thread) : Prop :=
  Step X p.1 a q.1 ∧ p.2.next code p.1 a q.1 = some q.2

/-- The state after a step of code that goes on by it. -/
def follow (p : State W × Thread) (a : Act) : State W × Thread :=
  (next X p.1 a, (p.2.next code p.1 a (next X p.1 a)).getD p.2)

def follows (p : State W × Thread) (a : Act) : Bool :=
  Enabled p.1 a && (p.2.next code p.1 a (next X p.1 a)).isSome

/-- The effect that the code performs in a step. -/
def asks (p : State W × Thread) (a : Act) : List NetEff :=
  match p.2, a with
  | .acts _, .perform (.net e) => [e]
  | _, _ => []

/-- The answer that a step makes for the code: that of the effect it performs, or the one that the
closure of its waiter queues. -/
def made (p : State W × Thread) (a : Act) : List Answer :=
  match p.2 with
  | .acts _ =>
    let t := next X p.1 a
    match t.mode with
    | .ret r => if p.1.book.konts.length < t.book.konts.length then [] else [r]
    | .run => []
  | .waits k _ => handed X k p.1 a
  | .answered _ => []

end

namespace NetEff

/-- The values that an effect is answered with. -/
def returns : NetEff → Val → Bool
  | .wifiConnect _ _ _, .unit | .wifiDisconnect, .unit | .tcpClose _, .unit | .udpBind _ _, .unit
  | .udpClose _, .unit => true
  | .wifiGetIp, .string _ | .dnsResolve _, .string _ => true
  | .tcpConnect _ _, .tcpSocket _ | .udpCreate, .udpSocket _ => true
  | .tcpWrite _ _, .int n | .udpSendto _ _ _ _, .int n => 0 ≤ n
  | .tcpRead _, .bytes _ => true
  | .udpRecvfrom _, .datagram _ _ _ => true
  | _, _ => false

/-- The exceptions that it is answered with. -/
def raises : NetEff → Exn → Bool
  | .wifiConnect _ _ _, e => e = .networkError "WiFi connection failed"
  | .tcpConnect host _, e => e = .networkError "Failed to create TCP socket" ∨ e = .dnsFailed host ∨
    e = .networkError "TCP connect failed" ∨ e = .connectionTimeout
  | .tcpWrite _ _, e => e = .networkError "TCP write failed"
  | .tcpRead _, e => e = .socketClosed ∨ e = .networkError "TCP read failed" ∨
    e = .networkError "TCP read timeout"
  | .udpCreate, e => e = .networkError "Failed to create UDP socket"
  | .udpBind _ _, e => e = .networkError "Bind failed"
  | .udpSendto _ host _ _, e => e = .dnsFailed host ∨ e = .networkError "UDP send failed"
  | .udpRecvfrom _, e => e = .networkError "UDP receive timeout"
  | .dnsResolve hostname, e => e = .dnsFailed hostname
  | .wifiGetIp, _ | .wifiDisconnect, _ | .tcpClose _, _ | .udpClose _, _ => false

def fits (e : NetEff) : Answer → Bool
  | .value v => e.returns v
  | .exn x => e.raises x

end NetEff

variable {W α : Type*} {X : Externals W} {code : Code α} {s t : State W}
  {a : Act} {e : NetEff} {r : Answer}

theorem recvLoop_fits (sock : ℤ) (tries : ℕ) (w : W) :
    (NetEff.udpRecvfrom sock).fits (recvLoop X sock tries w).1 = true := by
  induction tries generalizing w with
  | zero =>
    rw [recvLoop]
    simp only
    split <;> simp [NetEff.fits, NetEff.returns, NetEff.raises]
  | succ tries ih =>
    rw [recvLoop]
    simp only
    split
    · rfl
    · exact ih _

theorem reply_fits {h : Handler} {k : ℕ} {ws : List IoWaiter} {w : W}
    (hr : (handleNetEffect X h k ws w e).reply = some r) : e.fits r = true := by
  cases e with
  | udpRecvfrom sock =>
    have hloop := recvLoop_fits (X := X) sock 1000 w
    simp only [handleNetEffect, Option.some.injEq] at hr
    rwa [hr] at hloop
  | _ =>
    simp only [handleNetEffect] at hr
    repeat' split at hr
    all_goals cases hr
    all_goals simp_all [NetEff.fits, NetEff.returns, NetEff.raises]

theorem hands_fits {u : Task} {k : ℕ} {w : W} {b : Book} {hd : Handler} (hu : u.Sound b)
    (hk : b.konts[k]? = some (.net e, hd)) (hr : u.hands X k w = some r) : e.fits r = true := by
  have hwaits : ∀ {op sock h j}, (∃ e', b.konts[j]? = some (.net e', h) ∧ WaitsFor op sock e') →
      j = k → WaitsFor op sock e := by
    rintro op sock h j ⟨e', hj, hw⟩ rfl
    rw [hk] at hj
    cases hj
    exact hw
  cases u with
  | wake op sock h j =>
    simp only [Task.hands, Handler.wakeAnswer_eq] at hr
    split at hr
    · rename_i hj
      obtain ⟨hread, hconn⟩ := hwaits hu hj
      cases hr
      cases op with
      | connect =>
        obtain ⟨host, port, rfl⟩ := hconn rfl
        rfl
      | read =>
        cases hread rfl
        simp only [wakeAnswer, readResult]
        repeat' split
        all_goals simp [NetEff.fits, NetEff.returns, NetEff.raises]
    · cases hr
  | onTimeout op sock h j =>
    simp only [Task.hands, Handler.timeoutAnswer_eq] at hr
    split at hr
    · rename_i hj
      obtain ⟨hread, hconn⟩ := hwaits hu hj
      cases hr
      cases op with
      | connect =>
        obtain ⟨host, port, rfl⟩ := hconn rfl
        simp [timeoutAnswer, NetEff.fits, NetEff.raises]
      | read =>
        cases hread rfl
        simp [timeoutAnswer, readTimeout, NetEff.fits, NetEff.raises]
    · cases hr
  | _ => cases hr

/-! ### The answers on their way -/

/-- Effects of the code and the answers to them, each one that its effect may have. -/
inductive Dialogue (code : Code α) : List NetEff → List Answer → Prop
  | nil : Dialogue code [] []
  | snoc {es : List NetEff} {answers : List Answer} {e : NetEff} {r : Answer} :
      Dialogue code es answers → code answers = .perform e → e.fits r = true →
      Dialogue code (es ++ [e]) (answers ++ [r])

theorem Dialogue.unasked {es : List NetEff} (h : Dialogue code es []) : es = [] := by
  generalize hl : ([] : List Answer) = l at h
  cases h with
  | nil => rfl
  | snoc => simp at hl

/-- The first effect, and the dialogue of the code from its answer on. -/
theorem Dialogue.first {es : List NetEff} {answers : List Answer} (h : Dialogue code es (r :: answers)) :
    ∃ e es', es = e :: es' ∧ code [] = .perform e ∧ e.fits r = true ∧
      Dialogue (fun l => code (r :: l)) es' answers := by
  generalize hl : r :: answers = l at h
  induction h generalizing answers with
  | nil => cases hl
  | @snoc es l e r' hdia hcode hr ih =>
    cases l with
    | nil =>
      rw [List.nil_append, List.cons.injEq] at hl
      obtain ⟨rfl, rfl⟩ := hl
      rw [hdia.unasked]
      exact ⟨e, [], rfl, hcode, hr, .nil⟩
    | cons x l =>
      rw [List.cons_append, List.cons.injEq] at hl
      obtain ⟨rfl, rfl⟩ := hl
      obtain ⟨e', es', rfl, hfirst, hr', hrest⟩ := ih rfl
      exact ⟨e', es' ++ [e], rfl, hfirst, hr', hrest.snoc hcode hr⟩

/-- Code that is done performs nothing. -/
theorem Dialogue.finished {es : List NetEff} {answers : List Answer} {x : α}
    (h : Dialogue code es answers)
    (hx : code [] = .done x) : es = [] ∧ answers = [] := by
  cases answers with
  | nil => exact ⟨h.unasked, rfl⟩
  | cons r answers =>
    obtain ⟨e, es', -, hfirst, -⟩ := h.first
    rw [hx] at hfirst
    cases hfirst

/-- The effects `es` have been performed and the answers `l` have been made. The code has been given
them, except for one that is on its way. -/
def Accounted (code : Code α) (es : List NetEff) (l : List Answer) (p : State W × Thread) : Prop :=
  match p.2 with
  | .acts answers => l = answers ∧ Dialogue code es answers ∧ p.1.Handled
  | .answered answers => ∃ es' e r b rest, es = es' ++ [e] ∧ Dialogue code es' answers ∧
    code answers = .perform e ∧ l = answers ++ [r] ∧ e.fits r = true ∧ p.1.Returns r (.body b) rest ∧
    p.1.Handled
  | .waits k answers => ∃ es' e h, es = es' ++ [e] ∧ Dialogue code es' answers ∧
    code answers = .perform e ∧ l = answers ++ p.1.book.pending k ∧
    (∀ r ∈ p.1.book.pending k, e.fits r = true) ∧ p.1.book.konts[k]? = some (.net e, h) ∧
    p.1.book.resumed k = false

/-- A network effect that some handler catches is answered, or its continuation is kept. -/
theorem next_net (hh : s.Handled) (e : NetEff) :
    let t := next X s (.perform (.net e))
    (∃ r, e.fits r = true ∧ t.mode = .ret r ∧ t.stack = s.stack ∧ t.book.konts = s.book.konts) ∨
      (∀ r, t.mode = .ret r → r = .value .unit) ∧ ∃ h,
        t.book.konts = s.book.konts ++ [(.net e, h)] ∧ t.book.runQueue = s.book.runQueue ∧
          t.book.log = s.book.log := by
  obtain ⟨⟨segment, h, rest⟩, hsplit⟩ : ∃ x, splitHandler s.stack = some x := by
    rw [State.Handled, ← splitHandler_isSome] at hh
    exact Option.isSome_iff_exists.mp hh
  simp only [next, perform, hsplit, effc, netEffect_eq]
  split
  · rename_i r hr
    exact .inl ⟨r, reply_fits hr, rfl, rfl, rfl⟩
  · right
    rw [State.suspend, State.leave_book]
    refine ⟨?_, h, rfl, rfl, rfl⟩
    rintro r hr
    cases h with
    | main sw =>
      cases hr
      rfl
    | _ => cases hr

variable {p q : State W × Thread} {es : List NetEff} {l : List Answer}
  {xs : List (Act × (State W × Thread))}

/-- A continuation that is new is not in the queue. -/
theorem Agreed.unqueued {b : Book} (h : Agreed b) {k : ℕ} (hk : b.konts.length ≤ k) :
    b.pending k = [] := by
  rw [Book.pending, List.filterMap_eq_nil_iff]
  intro u hu
  have hsound := h.queued u hu
  cases u with
  | resume hd j r =>
    obtain ⟨eff, hj, -⟩ := hsound
    have hlt := (List.getElem?_eq_some_iff.mp hj).1
    have hne : j ≠ k := by omega
    simp [Task.resumption, hne]
  | _ => rfl

theorem acts_accounted {answers : List Answer} (h : Follows X code (s, .acts answers) a q) (hs : Sane s)
    (hacc : Accounted code es l (s, .acts answers)) :
    Accounted code (es ++ asks (s, .acts answers) a) (l ++ made X (s, .acts answers) a) q := by
  obtain ⟨t, th⟩ := q
  obtain ⟨rfl, hdia, hh⟩ := hacc
  have hstep : Step X s a t := h.1
  have hnext := h.2
  simp only [Thread.next] at hnext
  split at hnext
  · rename_i e hcode
    split at hnext
    · rename_i ha
      subst ha
      obtain ⟨b, rest, hprog⟩ := (enabled_program hstep.1 (by simp)).1
      obtain ⟨-, rfl⟩ := hstep
      rcases next_net (X := X) hh e with ⟨r, hr, hm, hst, hk⟩ | ⟨-, hd, hk, hq, hlog⟩
      · have hmade : made X (s, .acts l) (.perform (.net e)) = [r] := by
          simp [made, hm, hk]
        rw [hk, if_neg (Nat.lt_irrefl _), Option.some.injEq] at hnext
        subst hnext
        refine ⟨es, e, r, b, rest, rfl, hdia, hcode, by rw [hmade], hr, ⟨hm, hst.trans hprog.2⟩, ?_⟩
        rw [State.Handled] at hh ⊢
        rwa [hst]
      · have hlen : s.book.konts.length < (next X s (.perform (.net e))).book.konts.length := by
          simp [hk]
        have hmade : made X (s, .acts l) (.perform (.net e)) = [] := by
          simp only [made]
          split
          · rw [if_pos hlen]
          · rfl
        have hnone := hs.agreed.unqueued (Nat.le_refl _)
        rw [Book.pending] at hnone
        rw [if_pos hlen, Option.some.injEq] at hnext
        subst hnext
        refine ⟨es, e, hd, rfl, hdia, hcode, ?_, ?_, by simp [hk], ?_⟩
        · rw [hmade, Book.pending, hq, hnone]
        · rw [Book.pending, hq, hnone]
          exact fun r hr => absurd hr List.not_mem_nil
        · rw [Book.resumed, hlog]
          exact hs.agreed.fresh (Nat.le_refl _)
    · cases hnext
  · cases hnext

theorem answered_accounted {answers : List Answer} (h : Follows X code (s, .answered answers) a q)
    (hacc : Accounted code es l (s, .answered answers)) : Accounted code es l q := by
  obtain ⟨t, th⟩ := q
  have hnext := h.2
  obtain ⟨es', e, r, b, rest, rfl, hdia, hcode, rfl, hr, hret, hh⟩ := hacc
  have hm : s.mode = .ret r := hret.1
  have hst : s.stack = .body b :: rest := hret.2
  cases a with
  | go =>
    simp only [Thread.next, hm, Option.some.injEq] at hnext
    subst hnext
    have ht : t = next X s .go := h.1.2
    subst ht
    refine ⟨rfl, hdia.snoc hcode hr, ?_⟩
    have hhandled : s.Handled := hh
    rw [State.Handled, hst] at hhandled
    simp only [next, go, hm, hst, deliver]
    exact hhandled
  | _ => cases hnext

theorem handed_fits {k : ℕ} {hd : Handler} (hs : Sane s) (hk : s.book.konts[k]? = some (.net e, hd))
    (hr : r ∈ handed X k s a) : e.fits r = true := by
  have hshift : Shift (fun _ _ _ => True) s (s.pass X) := pass_shift
  rw [handed] at hr
  split at hr
  · split at hr
    · rename_i u q hq
      have hu := (hshift.sane hs).agreed.queued u (hq ▸ List.mem_cons_self)
      exact hands_fits hu (hshift.extends.konts hk) (Option.mem_toList.mp hr)
    · cases hr
  · cases hr

theorem waits_accounted {k : ℕ} {answers : List Answer} (h : Follows X code (s, .waits k answers) a q)
    (hs : Sane s) (hb : Balanced s.book) (hacc : Accounted code es l (s, .waits k answers)) :
    Accounted code es (l ++ handed X k s a) q := by
  obtain ⟨t, th⟩ := q
  have hstep : Step X s a t := h.1
  have hnext := h.2
  obtain ⟨es', e, hd, rfl, hdia, hcode, rfl, hpending, hk, hnot⟩ := hacc
  simp only [Thread.next, Option.some.injEq] at hnext
  cases step_fate hstep hs hk hnot with
  | waits hres hpend =>
    rw [hres, hnot, if_neg (by simp)] at hnext
    subst hnext
    refine ⟨es', e, hd, rfl, hdia, hcode, ?_, ?_, (step_extends hstep).konts hk, hres.trans hnot⟩
    · rw [hpend, List.append_assoc]
    · intro r hr
      rw [hpend] at hr
      rcases List.mem_append.mp hr with hr | hr
      · exact hpending r hr
      · exact handed_fits hs hk hr
  | resumed r hmade hres hmode hpend =>
    rw [hres, if_pos rfl] at hnext
    subst hnext
    -- nothing else is on its way to the code
    have hle := hb.pending_le k
    rw [hpend, List.length_cons] at hle
    have hrest : t.book.pending k = [] := List.eq_nil_of_length_eq_zero (by omega)
    obtain ⟨hh, -, r', b, rest, hret, -⟩ := step_resumed hstep hs hres hnot
    have hr : r' = r := by
      have hm := hret.1
      rw [hmode] at hm
      cases hm
      rfl
    subst hr
    refine ⟨es', e, r', b, rest, rfl, hdia, hcode, ?_, ?_, hret, hh⟩
    · rw [hmade, List.append_nil, hpend, hrest]
    · exact hpending r' (hpend ▸ List.mem_cons_self)

theorem follows_accounted (h : Follows X code p a q) (hs : Sane p.1) (hb : Balanced p.1.book)
    (hacc : Accounted code es l p) : Accounted code (es ++ asks p a) (l ++ made X p a) q := by
  obtain ⟨s, th⟩ := p
  cases th with
  | acts answers => exact acts_accounted h hs hacc
  | answered answers =>
    have hnone : asks (s, .answered answers) a = [] := rfl
    rw [hnone, List.append_nil, made, List.append_nil]
    exact answered_accounted h hacc
  | waits k answers =>
    have hnone : asks (s, .waits k answers) a = [] := rfl
    rw [hnone, List.append_nil]
    exact waits_accounted h hs hb hacc

theorem run_accounted (h : Lts.Run (Follows X code) p xs) (hs : Sane p.1) (hb : Balanced p.1.book)
    (hacc : Accounted code es l p) :
    Accounted code (es ++ Lts.gather asks p xs) (l ++ Lts.gather (made X) p xs) (Lts.last p xs) := by
  have hall := h.gathers_both (e := asks) (d := made X)
    (P := fun es l p => Sane p.1 ∧ Balanced p.1.book ∧ Accounted code es l p) ⟨hs, hb, hacc⟩ ?_
  · exact hall.2.2
  · rintro es l u a v ⟨hsu, hbu, haccu⟩ hstep
    exact ⟨step_sane hstep.1 hsu, fun L => L.total_le_due_step hstep.1 (hbu L),
      follows_accounted hstep hsu hbu haccu⟩

theorem Dialogue.length {answers : List Answer} (h : Dialogue code es answers) :
    es.length = answers.length := by
  induction h with
  | nil => rfl
  | snoc hdia hcode hr ih => rw [List.length_append, List.length_append, ih]; rfl

/-- Code that has performed the effects `es`, for which the answers `l` have been made, is given
exactly these, in order. -/
structure Served (code : Code α) (es : List NetEff) (l : List Answer) (th : Thread) : Prop where
  dialogue : ∃ es', es' <+: es ∧ Dialogue code es' th.answers
  given : th.answers <+: l
  made : l.length ≤ es.length
  asked : es.length ≤ th.answers.length + 1

theorem Accounted.served (h : Accounted code es l p) (hb : Balanced p.1.book) :
    Served code es l p.2 := by
  obtain ⟨s, th⟩ := p
  cases th with
  | acts answers =>
    obtain ⟨rfl, hdia, -⟩ := h
    have hlen := hdia.length
    exact ⟨⟨es, List.prefix_rfl, hdia⟩, List.prefix_rfl, hlen.ge, by simp [Thread.answers, hlen]⟩
  | answered answers =>
    obtain ⟨es', e, r, b, rest, rfl, hdia, -, rfl, -⟩ := h
    have hlen := hdia.length
    exact ⟨⟨es', List.prefix_append _ _, hdia⟩, List.prefix_append _ _, by simp [hlen],
      by simp [Thread.answers, hlen]⟩
  | waits k answers =>
    obtain ⟨es', e, hd, rfl, hdia, -, rfl, -⟩ := h
    have hlen := hdia.length
    have hle := hb.pending_le k
    refine ⟨⟨es', List.prefix_append _ _, hdia⟩, List.prefix_append _ _, ?_,
      by simp [Thread.answers, hlen]⟩
    simp only [List.length_append, List.length_singleton, hlen]
    exact Nat.add_le_add_left hle _

theorem run_follow {as : List Act} (h : Lts.accepts (follows X code) (follow X code) p as = true) :
    Lts.Run (Follows X code) p (Lts.trace (follow X code) p as) := by
  refine (Lts.run_accepts _ h).imp ?_
  rintro u a v ⟨hok, rfl⟩
  obtain ⟨henabled, hnext⟩ := Bool.and_eq_true_iff.mp hok
  obtain ⟨th, hth⟩ := Option.isSome_iff_exists.mp hnext
  refine ⟨⟨henabled, rfl⟩, ?_⟩
  simp [follow, hth]

/-- Whatever other fibers and the network do, code that is called in a fiber is answered as if it
were alone: every effect once, in order, with what was made for it. -/
theorem answers_in_order {world : W} {pre : List (Act × State W)}
    (hpre : Lts.Run (Step X) (State.initial world) pre)
    (hh : (Lts.last (State.initial world) pre).Handled)
    (hrun : Lts.Run (Follows X code) (Lts.last (State.initial world) pre, .acts []) xs) :
    Served code (Lts.gather asks (Lts.last (State.initial world) pre, .acts []) xs)
      (Lts.gather (made X) (Lts.last (State.initial world) pre, .acts []) xs)
      (Lts.last (Lts.last (State.initial world) pre, .acts []) xs).2 := by
  have hs := (run_sane hpre).last
  have hb := (run_balanced hpre).last
  have hstart : Accounted code [] [] (Lts.last (State.initial world) pre, .acts []) := ⟨rfl, .nil, hh⟩
  have hacc := run_accounted hrun hs hb hstart
  rw [List.nil_append, List.nil_append] at hacc
  have hbalanced := hrun.always (p := fun p => Balanced p.1.book) hb
    fun u a v hu hstep L => L.total_le_due_step hstep.1 (hu L)
  exact hacc.served hbalanced.last

/-- Code that connects, and closes the socket that it is given. -/
def visits : Code Unit
  | [] => .perform (.tcpConnect "127.0.0.1" 80)
  | [.value (.tcpSocket sock)] => .perform (.tcpClose sock)
  | _ => .done ()

/-- The main fiber forks a fiber. -/
def forksOnce : List (Act × State Unit) :=
  Lts.trace (next quiet) (State.initial ()) [.switchRun, .go, .perform (.fork 0), .go]

/-- The forked fiber yields and ends while the main fiber waits for its connection. -/
def visitsBetween : List (Act × (State Unit × Thread)) :=
  Lts.trace (follow quiet visits) (Lts.last (State.initial ()) forksOnce, .acts [])
    [.perform (.net (.tcpConnect "127.0.0.1" 80)), .go, .go, .perform .yield, .go, .go, .go, .ret .unit,
      .go, .go, .go, .perform (.net (.tcpClose 0)), .go]

theorem answers_in_order_between :
    Served visits (Lts.gather asks (Lts.last (State.initial ()) forksOnce, .acts []) visitsBetween)
      (Lts.gather (made quiet) (Lts.last (State.initial ()) forksOnce, .acts []) visitsBetween)
      (Lts.last (Lts.last (State.initial ()) forksOnce, .acts []) visitsBetween).2 :=
  answers_in_order (Lts.run_accepts Enabled (by decide)) rfl (run_follow (by decide))

end PicoOcaml.Pio
