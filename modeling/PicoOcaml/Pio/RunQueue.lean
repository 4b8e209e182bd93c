import PicoOcaml.Pio.MainCompletion

/-! The run queue is served in the order in which tasks are put into it, and no loop is left before
all of them have been run. -/
namespace PicoOcaml.Pio

/-- The tasks that have been put into the queue, in order. -/
def queued : List Event → List Task := List.filterMap fun | .enqueued t => some t | _ => none

/-- The tasks that have been taken from it. -/
def taken : List Event → List Task := List.filterMap fun | .ran t => some t | _ => none

def Book.InOrder (b : Book) : Prop := queued b.log = taken b.log ++ b.runQueue

variable {W : Type*} {X : Externals W} {s t : State W} {a : Act} {b b' : Book}
  {xs : List (Act × State W)}

namespace Book.InOrder

theorem enqueueAll (h : b.InOrder) (ts : List Task) : (b.enqueueAll ts).InOrder := by
  have hqueued : queued (ts.map .enqueued) = ts := by
    rw [queued, List.filterMap_map]
    exact List.filterMap_some
  have htaken : taken (ts.map .enqueued) = [] := by
    rw [taken, List.filterMap_map]
    exact List.filterMap_eq_nil_iff.mpr fun _ _ => rfl
  rw [Book.InOrder, queued, taken] at h
  rw [Book.InOrder, Book.enqueueAll, queued, taken, List.filterMap_append, List.filterMap_append, h]
  rw [queued] at hqueued
  rw [taken] at htaken
  rw [hqueued, htaken, List.append_nil, List.append_assoc]

theorem take (h : b.InOrder) {u : Task} {q : List Task} (hq : b.runQueue = u :: q) :
    (b.take u q).InOrder := by
  rw [Book.InOrder, hq] at h
  simpa [Book.InOrder, Book.take, Book.note, queued, taken] using h

/-- An event of another kind. -/
theorem note (h : b.InOrder) {e : Event} (hqueued : queued [e] = []) (htaken : taken [e] = []) :
    (b.note e).InOrder := by
  rw [Book.InOrder, queued, taken] at h
  rw [queued] at hqueued
  rw [taken] at htaken
  rw [Book.InOrder, Book.note, queued, taken, List.filterMap_append, List.filterMap_append, h,
    hqueued, htaken, List.append_nil, List.append_nil]

theorem settle (h : b.InOrder) (p : ℕ) (o : PromiseState) : (b.settle p o).InOrder := by
  rw [Book.settle]
  split
  · exact enqueueAll (b := { b with promises := b.promises.set p o }) h _
  · exact h

theorem addWaiter (h : b.InOrder) (p : ℕ) (waker : Task) : (b.addWaiter p waker).InOrder := by
  rw [Book.addWaiter]
  split
  · exact h
  · exact h.enqueueAll [waker]

theorem capture (h : b.InOrder) {hd : Handler} {eff : Eff} (hc : Capture hd b eff b') :
    b'.InOrder := by
  cases hc with
  | await ho hp => exact addWaiter (b := b.capture _ hd) h _ _
  | yield => exact enqueueAll (b := b.capture _ hd) h _
  | wait hw => exact h

theorem quiet (h : b.InOrder) (hq : Quiet b b') : b'.InOrder := by
  cases hq with
  | create => exact h
  | settle p ho => exact (h.note rfl rfl).settle p _
  | poll hp => exact enqueueAll (b := { b with ioWaiters := _ }) h _
  | waker hq ho => exact (h.take hq).enqueueAll _
  | wake hq ha => exact (h.take hq).enqueueAll _
  | onTimeout hq => exact (h.take hq).enqueueAll _
  | awaited ho => exact h.note rfl rfl

theorem move (h : b.InOrder) (hm : Move b b') : b'.InOrder := by
  cases hm with
  | quiet hq => exact h.quiet hq
  | capture hc => exact h.capture hc
  | settle p ho => exact h.settle p _
  | start ht => exact h.enqueueAll _
  | run hq ht => exact h.take hq
  | resume hq => exact h.take hq
  | stillPending hq ho => exact (h.take hq).note rfl rfl
  | ended body a => exact h.note rfl rfl

end Book.InOrder

theorem step_inOrder (h : Step X s a t) (hs : s.book.InOrder) : t.book.InOrder :=
  step_keeps h (fun _ _ hb hm => hb.move hm) (fun _ _ hb => hb) hs

/-! ### The log grows -/

theorem settle_log (b : Book) (p : ℕ) (o : PromiseState) : b.log <+: (b.settle p o).log := by
  rw [Book.settle]
  split
  · exact List.prefix_append _ _
  · exact List.prefix_rfl

theorem addWaiter_log (b : Book) (p : ℕ) (waker : Task) : b.log <+: (b.addWaiter p waker).log := by
  rw [Book.addWaiter]
  split
  · exact List.prefix_rfl
  · exact List.prefix_append _ _

theorem Capture.log {hd : Handler} {eff : Eff} (hc : Capture hd b eff b') : b.log <+: b'.log := by
  cases hc with
  | await ho hp => exact addWaiter_log (b.capture _ hd) _ _
  | yield => exact List.prefix_append _ _
  | wait hw => exact List.prefix_rfl

theorem Quiet.log (hq : Quiet b b') : b.log <+: b'.log := by
  have htwice : ∀ e ts, b.log <+: b.log ++ [e] ++ ts := by
    intro e ts
    rw [List.append_assoc]
    exact List.prefix_append _ _
  cases hq with
  | create => exact List.prefix_rfl
  | settle p ho => exact (List.prefix_append _ _).trans (settle_log (b.note _) p _)
  | poll hp => exact List.prefix_append _ _
  | waker hq ho => exact htwice _ _
  | wake hq ha => exact htwice _ _
  | onTimeout hq => exact htwice _ _
  | awaited ho => exact List.prefix_append _ _

theorem Move.log (hm : Move b b') : b.log <+: b'.log := by
  cases hm with
  | quiet hq => exact hq.log
  | capture hc => exact hc.log
  | settle p ho => exact settle_log b p _
  | start ht => exact List.prefix_append _ _
  | run hq ht => exact List.prefix_append _ _
  | resume hq => exact List.prefix_append _ _
  | stillPending hq ho =>
    refine List.IsPrefix.trans ?_ (List.prefix_append _ _)
    exact List.prefix_append _ _
  | ended body a => exact List.prefix_append _ _

theorem run_log (h : Lts.Run (Step X) s xs) : s.book.log <+: (Lts.last s xs).book.log := by
  have hgrows : Lts.Always (fun u => s.book.log <+: u.book.log) s xs := by
    refine h.always List.prefix_rfl ?_
    intro u a v hu hstep
    refine step_keeps (p := fun b => s.book.log <+: b.log) hstep ?_ (fun _ _ hb => hb) hu
    intro b b' hb hm
    exact hb.trans hm.log
  exact hgrows.last

/-! ### Leaving a loop -/

theorem go_left {f : Frame} {rest : List Frame} (hs : s.Looping f rest)
    (hleft : ¬ s.stack <:+ (go X s).stack) : (go X s).book.runQueue = [] := by
  obtain ⟨hm, hst, hl⟩ := hs
  cases f with
  | scheduler sw =>
    have hgo : go X s = schedulerRound X s sw rest := by simp only [go, hm, hst]
    rw [hgo] at hleft ⊢
    obtain ⟨hempty, heq⟩ := round_left hleft
    rw [schedulerRound, heq]
    split
    · exact hempty
    · exact hempty
  | mainScheduler sw =>
    have hgo : go X s = mainSchedulerRound X s sw rest := by simp only [go, hm, hst]
    rw [hgo] at hleft ⊢
    obtain ⟨hempty, heq⟩ := round_left hleft
    rw [mainSchedulerRound, heq]
    split
    · exact hempty
    · split
      · exact hempty
      · exact hempty
  | body b => cases hl
  | handler h => cases hl
  | settles p => cases hl
  | cleanup sw hooks => cases hl

/-- Tasks are run in the order in which they were queued, each as often as it was queued: none that
comes later overtakes the ones in the queue, and a loop that is left by itself leaves none behind. -/
structure ServedInOrder (s : State W) (xs : List (Act × State W)) : Prop where
  inOrder : Lts.Always (fun u => u.book.InOrder) s xs
  overtaken : ∀ pre post, xs = pre ++ post →
    let u := (Lts.last s pre).book
    taken (Lts.last s xs).book.log <+: taken u.log ++ u.runQueue ∨
      taken u.log ++ u.runQueue <+: taken (Lts.last s xs).book.log
  complete : Lts.Run (fun u _ v => ∀ f rest, u.Looping f rest → ¬ u.stack <:+ v.stack →
    taken v.book.log = queued v.book.log) s xs

theorem run_inOrder {world : W} (h : Lts.Run (Step X) (State.initial world) xs) :
    Lts.Always (fun u => u.book.InOrder) (State.initial world) xs := by
  refine h.always rfl ?_
  intro u a v hu hstep
  exact step_inOrder hstep hu

theorem served_in_order {world : W} (h : Lts.Run (Step X) (State.initial world) xs) :
    ServedInOrder (State.initial world) xs := by
  have horder := run_inOrder h
  refine ⟨horder, ?_, ?_⟩
  · rintro pre post rfl u
    obtain ⟨hpre, hpost⟩ := Lts.run_append.mp h
    have hmid : u.InOrder := (run_inOrder hpre).last
    have hend : queued u.log <+: queued (Lts.last (State.initial world) (pre ++ post)).book.log := by
      rw [Lts.last_append]
      exact (run_log hpost).filterMap _
    have htaken : taken (Lts.last (State.initial world) (pre ++ post)).book.log <+:
        queued (Lts.last (State.initial world) (pre ++ post)).book.log := by
      rw [horder.last]
      exact List.prefix_append _ _
    rw [hmid] at hend
    exact List.prefix_or_prefix_of_prefix htaken hend
  · refine h.under horder ?_
    intro u a v hu hv hstep f rest hloop hleft
    have ha : a = .go := by
      by_contra hne
      obtain ⟨⟨b, fs, hprog⟩, -⟩ := enabled_program hstep.1 hne
      have hf := hloop.2.2
      have hstack := hloop.2.1.symm.trans hprog.2
      cases hstack
      cases hf
    rw [Book.InOrder] at hv
    obtain ⟨-, rfl⟩ := hstep
    subst ha
    have hempty : (next X u .go).book.runQueue = [] := go_left hloop hleft
    rw [hv, hempty, List.append_nil]

/-- A run in which the main fiber forks two fibers, of which the first yields, and ends. -/
def forkTwice : List Act :=
  [.switchRun, .go, .perform (.fork 0), .go, .perform (.fork 0), .go, .ret .unit, .go, .go, .go,
    .perform .yield, .go, .ret .unit, .go, .go, .go, .ret .unit, .go, .go]

theorem served_in_order_forkTwice :
    ServedInOrder (State.initial ()) (Lts.trace (next quiet) (State.initial ()) forkTwice) :=
  served_in_order (X := quiet) (Lts.run_accepts Enabled (by decide))

end PicoOcaml.Pio
