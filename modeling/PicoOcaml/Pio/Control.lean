import Mathlib.Data.List.Chain
import PicoOcaml.Pio.Agreement

/-! The shape of the stack and of the captured continuations. -/
namespace PicoOcaml.Pio

/-- Which frame may stand directly below a frame. -/
def Above : Frame → Frame → Prop
  | .body .top, _ => False
  | .body (.main sw), g => g = .handler (.main sw)
  | .body (.fiber sw), g => g = .handler (.fiber sw)
  | .body (.promise sw p), g => g = .handler (.promise sw p)
  | .body (.element p), g => g = .settles p
  | .body (.hook sw _), g => ∃ hooks, g = .cleanup sw hooks
  | .handler (.main sw), g => g = .handler (.main sw) ∨ g.loop = true
  | .handler _, g | .settles _, g | .scheduler _, g => g.loop = true
  | .mainScheduler _, g | .cleanup _ _, g => ∃ b, g = .body b

def Frame.isHandler : Frame → Bool
  | .handler _ => true
  | _ => false

/-- A continuation captured by `h`: code of the program on top, one handler at the bottom. -/
structure Captured (h : Handler) (segment : List Frame) : Prop where
  chain : segment.IsChain Above
  shape : ∃ b fs, segment = .body b :: fs ++ [.handler h] ∧ ∀ f ∈ fs, f.isHandler = false

/-- The body that ends when the frame is handed an answer. -/
def Frame.ofBody : Frame → Option Body
  | .handler (.fiber sw) => some (.fiber sw)
  | .handler (.promise sw p) => some (.promise sw p)
  | .settles p => some (.element p)
  | _ => none

variable {W : Type*}

structure Control (s : State W) : Prop where
  chain : s.stack.IsChain Above
  length : s.segments.length = s.book.konts.length
  segments : ∀ {k : ℕ} {segment : List Frame}, s.segments[k]? = some (some segment) →
    ∃ eff h, s.book.konts[k]? = some (eff, h) ∧ Captured h segment
  opened : ∀ {k : ℕ}, s.segments[k]? = some none → ∃ h a, .ran (.resume h k a) ∈ s.book.log
  ended : ∀ {a : Answer} {f : Frame} {rest : List Frame} {b : Body}, s.Returns a f rest →
    f.ofBody = some b → .ended b a ∈ s.book.log

theorem splitHandler_spec {l segment rest : List Frame} {h : Handler}
    (hs : splitHandler l = some (segment, h, rest)) :
    l = segment ++ rest ∧ ∃ fs, segment = fs ++ [.handler h] ∧ ∀ f ∈ fs, f.isHandler = false := by
  induction l generalizing segment with
  | nil => cases hs
  | cons g l ih =>
    by_cases hg : g.isHandler = true
    · cases g with
      | handler h' =>
        simp only [splitHandler, Option.some.injEq, Prod.mk.injEq] at hs
        obtain ⟨rfl, rfl, rfl⟩ := hs
        exact ⟨rfl, [], rfl, nofun⟩
      | _ => cases hg
    · have hsplit : (splitHandler l).map (fun x => (g :: x.1, x.2.1, x.2.2)) =
          some (segment, h, rest) := by
        cases g with
        | handler h' => exact absurd rfl hg
        | _ => exact hs
      obtain ⟨⟨segment', h', rest'⟩, hl, heq⟩ := Option.map_eq_some_iff.mp hsplit
      simp only [Prod.mk.injEq] at heq
      obtain ⟨rfl, rfl, rfl⟩ := heq
      obtain ⟨rfl, fs, rfl, hfs⟩ := ih hl
      refine ⟨rfl, g :: fs, rfl, ?_⟩
      intro f hf
      rcases List.mem_cons.mp hf with rfl | hf
      · simpa using hg
      · exact hfs f hf

theorem captured_of_split {l fs segment rest : List Frame} {h : Handler} {b : Body}
    (hl : l = .body b :: fs) (hc : l.IsChain Above)
    (hs : splitHandler l = some (segment, h, rest)) : Captured h segment := by
  obtain ⟨happ, gs, rfl, hgs⟩ := splitHandler_spec hs
  rw [happ] at hc
  refine ⟨hc.left_of_append, ?_⟩
  cases gs with
  | nil =>
    rw [hl] at happ
    simp at happ
  | cons g gs =>
    rw [hl] at happ
    simp only [List.cons_append, List.cons.injEq] at happ
    obtain ⟨rfl, -⟩ := happ
    exact ⟨b, gs, rfl, fun f hf => hgs f (List.mem_cons_of_mem _ hf)⟩

/-- What stands below a handler. -/
theorem below_handler {h : Handler} {fs rest : List Frame}
    (hc : (fs ++ [Frame.handler h] ++ rest).IsChain Above) :
    ∀ g ∈ rest.head?, Above (.handler h) g := by
  intro g hg
  obtain ⟨-, -, hrel⟩ := List.isChain_append.mp hc
  exact hrel (.handler h) (by simp) g hg

/-- A loop that a handler enters instead of the rest. -/
theorem chain_scheduler {sw : ℕ} {f : Frame} {rest : List Frame} (hc : (f :: rest).IsChain Above)
    (hf : ∀ g, Above f g → g.loop = true) :
    (Frame.scheduler sw :: rest).IsChain Above := by
  obtain ⟨hrel, hrest⟩ := List.isChain_cons.mp hc
  exact List.isChain_cons.mpr ⟨fun g hg => hf g (hrel g hg), hrest⟩

theorem captured_handler {h : Handler} {segment rest : List Frame} (hc : Captured h segment)
    (hrest : rest.IsChain Above) (hbelow : ∀ g ∈ rest.head?, Above (.handler h) g) :
    (segment ++ rest).IsChain Above := by
  refine hc.chain.append hrest ?_
  intro f hf g hg
  obtain ⟨b, fs, rfl, -⟩ := hc.shape
  have hlast : (Frame.body b :: fs ++ [Frame.handler h]).getLast? = some (.handler h) :=
    List.getLast?_concat
  rw [hlast, Option.mem_def, Option.some.injEq] at hf
  rw [← hf]
  exact hbelow g hg

/-- A captured continuation may be put back on a loop. -/
theorem chain_resume {h : Handler} {segment rest : List Frame} {f : Frame} (hc : Captured h segment)
    (hl : f.loop = true) (hrest : (f :: rest).IsChain Above) :
    (segment ++ wrapper h ++ (f :: rest)).IsChain Above := by
  rw [List.append_assoc]
  cases h with
  | main sw =>
    apply captured_handler hc
    · exact List.isChain_cons_cons.mpr ⟨.inr hl, hrest⟩
    · intro g hg
      simp only [wrapper, List.cons_append, List.head?_cons, Option.mem_def, Option.some.injEq] at hg
      exact .inl hg.symm
  | fiber sw =>
    apply captured_handler hc hrest
    intro g hg
    simp only [List.head?_cons, Option.mem_def, Option.some.injEq] at hg
    exact hg ▸ hl
  | promise sw p =>
    apply captured_handler hc hrest
    intro g hg
    simp only [List.head?_cons, Option.mem_def, Option.some.injEq] at hg
    exact hg ▸ hl

theorem chain_wrapper {h : Handler} {rest : List Frame} {f : Frame} (hl : f.loop = true)
    (hrest : (f :: rest).IsChain Above) : (wrapper h ++ (f :: rest)).IsChain Above := by
  cases h with
  | main sw => exact List.isChain_cons_cons.mpr ⟨.inr hl, hrest⟩
  | fiber sw => exact hrest
  | promise sw p => exact hrest

theorem chain_frames {t : Task} {rest : List Frame} {f : Frame} (hl : f.loop = true)
    (hrest : (f :: rest).IsChain Above) : (t.frames ++ (f :: rest)).IsChain Above := by
  cases t with
  | main sw => exact List.isChain_cons_cons.mpr ⟨rfl, List.isChain_cons_cons.mpr ⟨.inr hl, hrest⟩⟩
  | fiber sw => exact List.isChain_cons_cons.mpr ⟨rfl, List.isChain_cons_cons.mpr ⟨hl, hrest⟩⟩
  | promiseFiber sw p =>
    exact List.isChain_cons_cons.mpr ⟨rfl, List.isChain_cons_cons.mpr ⟨hl, hrest⟩⟩
  | element p => exact List.isChain_cons_cons.mpr ⟨rfl, List.isChain_cons_cons.mpr ⟨hl, hrest⟩⟩
  | _ => exact hrest

theorem quiet_konts {b b' : Book} (h : Quiet b b') : b'.konts = b.konts := by
  cases h with
  | settle p ho =>
    simp only [Book.settle]
    split <;> rfl
  | _ => rfl

theorem settle_konts {b : Book} (p : ℕ) (o : PromiseState) : (b.settle p o).konts = b.konts := by
  simp only [Book.settle]
  split <;> rfl

theorem capture_konts {b b' : Book} {eff : Eff} {h : Handler} (hc : Capture h b eff b') :
    b'.konts = b.konts ++ [(eff, h)] := by
  cases hc with
  | await ho hlt =>
    simp only [Book.addWaiter]
    split <;> rfl
  | yield => rfl
  | wait he => rfl

theorem Shift.extends {c : List Frame → Handler → List Frame → Prop} {s t : State W}
    (h : Shift c s t) : Extends s.book t.book :=
  h.moves.keeps (p := Extends s.book) (fun _ _ hb hm => hb.trans hm.extends) (.refl s.book)

section

variable {c : List Frame → Handler → List Frame → Prop} {s t : State W} (h : Control s)
  (hlog : ∀ e, e ∈ s.book.log → e ∈ t.book.log) (hseg : t.segments = s.segments)
  (hkont : t.book.konts = s.book.konts)

include h hlog hseg hkont

/-- The frames are what they were; what is new is the stack and where it stands. -/
theorem Control.same (hchain : t.stack.IsChain Above)
    (hended : ∀ {a : Answer} {f : Frame} {rest : List Frame} {b : Body}, t.Returns a f rest →
      f.ofBody = some b → .ended b a ∈ t.book.log) : Control t := by
  refine ⟨hchain, by rw [hseg, hkont, h.length], ?_, ?_, hended⟩
  · intro k segment hk
    rw [hseg] at hk
    rw [hkont]
    exact h.segments hk
  · intro k hk
    rw [hseg] at hk
    obtain ⟨hd, a, he⟩ := h.opened hk
    exact ⟨hd, a, hlog _ he⟩

/-- Control goes on with the frames it has. -/
theorem Control.keep (hstack : t.stack = s.stack) (hmode : t.mode = s.mode) : Control t := by
  apply h.same hlog hseg hkont (hstack ▸ h.chain)
  intro a f rest b hret hb
  have hret' : s.Returns a f rest := ⟨hmode ▸ hret.1, hstack ▸ hret.2⟩
  exact hlog _ (h.ended hret' hb)

/-- The top of the stack runs. -/
theorem Control.run (hchain : t.stack.IsChain Above) (hmode : t.mode = .run) : Control t := by
  apply h.same hlog hseg hkont hchain
  intro a f rest b hret hb
  have hmode' := hmode.symm.trans hret.1
  cases hmode'

/-- An answer is handed to a frame that no body stands on. -/
theorem Control.pass (hchain : t.stack.IsChain Above)
    (htop : ∀ f ∈ t.stack.head?, f.ofBody = none) : Control t := by
  apply h.same hlog hseg hkont hchain
  intro a f rest b hret hb
  have hnone := htop f (by simp [hret.2])
  rw [hnone] at hb
  cases hb

end

theorem ofBody_of_loop {f : Frame} (h : f.loop = true) : f.ofBody = none := by
  cases f with
  | scheduler sw => rfl
  | mainScheduler sw => rfl
  | _ => cases h

/-- Below a frame other than a body stands no frame that waits for one. -/
theorem ofBody_below {f g : Frame} (h : Above f g) (hf : ∀ b, f ≠ .body b) : g.ofBody = none := by
  cases f with
  | body b => exact absurd rfl (hf b)
  | handler hd =>
    cases hd with
    | main sw =>
      rcases h with rfl | h
      · rfl
      · exact ofBody_of_loop h
    | fiber sw => exact ofBody_of_loop h
    | promise sw p => exact ofBody_of_loop h
  | scheduler sw => exact ofBody_of_loop h
  | settles p => exact ofBody_of_loop h
  | mainScheduler sw =>
    obtain ⟨b, rfl⟩ := h
    rfl
  | cleanup sw hooks =>
    obtain ⟨b, rfl⟩ := h
    rfl

theorem ofBody_above {b b' : Body} {g : Frame} (h : Above (.body b) g) (hg : g.ofBody = some b') :
    b' = b := by
  cases b with
  | top => exact h.elim
  | hook sw n =>
    obtain ⟨hooks, rfl⟩ := h
    cases hg
  | main sw =>
    subst h
    cases hg
  | fiber sw =>
    subst h
    simpa [Frame.ofBody] using hg.symm
  | promise sw p =>
    subst h
    simpa [Frame.ofBody] using hg.symm
  | element p =>
    subst h
    simpa [Frame.ofBody] using hg.symm

/-- The frame below one that is popped. -/
theorem pass_top {f : Frame} {rest : List Frame} (hc : (f :: rest).IsChain Above)
    (hf : ∀ b, f ≠ .body b) : ∀ g ∈ rest.head?, g.ofBody = none :=
  fun g hg => ofBody_below ((List.isChain_cons.mp hc).1 g hg) hf

variable {c : List Frame → Handler → List Frame → Prop} {s t : State W}

theorem Control.suspend (h : Control s) {b : Body} {fs segment rest : List Frame} {eff : Eff}
    {hd : Handler} {book : Book} (w : W) (hs : s.Program b fs)
    (hsplit : splitHandler s.stack = some (segment, hd, rest)) (hcap : Capture hd s.book eff book) :
    Control ({ s with
      world := w, book := book, segments := s.segments ++ [some segment] }.leave hd rest) := by
  obtain ⟨happ, gs, hgs, -⟩ := splitHandler_spec hsplit
  have hchain := h.chain
  rw [happ, hgs] at hchain
  have hrest := hchain.right_of_append
  have hbelow := below_handler hchain
  have hlen : (s.segments ++ [some segment]).length = book.konts.length := by
    simp [capture_konts hcap, h.length]
  have hopened : ∀ {k : ℕ}, (s.segments ++ [some segment])[k]? = some none →
      ∃ h a, .ran (.resume h k a) ∈ book.log := by
    intro k hk
    rcases Nat.lt_or_ge k s.segments.length with hlt | hge
    · rw [List.getElem?_append_left hlt] at hk
      obtain ⟨h', a, he⟩ := h.opened hk
      exact ⟨h', a, hcap.extends.log he⟩
    · rw [List.getElem?_append_right hge, List.getElem?_singleton] at hk
      split at hk <;> cases hk
  have hsegs : ∀ {k : ℕ} {segment' : List Frame},
      (s.segments ++ [some segment])[k]? = some (some segment') →
      ∃ eff' h', book.konts[k]? = some (eff', h') ∧ Captured h' segment' := by
    intro k segment' hk
    rw [capture_konts hcap]
    rcases Nat.lt_or_ge k s.segments.length with hlt | hge
    · rw [List.getElem?_append_left hlt] at hk
      rw [List.getElem?_append_left (h.length ▸ hlt)]
      exact h.segments hk
    · rw [List.getElem?_append_right hge, List.getElem?_singleton] at hk
      split at hk
      · rename_i hz
        simp only [Option.some.injEq] at hk
        subst hk
        have hke : k = s.book.konts.length := by
          have := h.length
          omega
        exact ⟨eff, hd, by simp [hke], captured_of_split hs.2 h.chain hsplit⟩
      · cases hk
  cases hd with
  | main sw =>
    refine ⟨hrest, hlen, hsegs, hopened, ?_⟩
    intro a f rest' b' hret hb
    have hf : f ∈ rest.head? := by
      have hst : rest = f :: rest' := hret.2
      simp [hst]
    rw [ofBody_below (hbelow f hf) nofun] at hb
    cases hb
  | fiber sw =>
    refine ⟨List.isChain_cons.mpr ⟨hbelow, hrest⟩, hlen, hsegs, hopened, ?_⟩
    intro a f rest' b' hret hb
    cases hret.1
  | promise sw p =>
    refine ⟨List.isChain_cons.mpr ⟨hbelow, hrest⟩, hlen, hsegs, hopened, ?_⟩
    intro a f rest' b' hret hb
    cases hret.1

/-- The handler that a resumption names has captured its continuation. -/
theorem Control.captured_resume (h : Control s) (ha : Agreed s.book) {segment : List Frame}
    {hd : Handler} {k : ℕ} {a : Answer} {q : List Task}
    (hq : s.book.runQueue = .resume hd k a :: q) (hk : s.segments[k]? = some (some segment)) :
    Captured hd segment := by
  obtain ⟨eff, hkont, -⟩ := ha.queued (.resume hd k a) (by simp [hq])
  obtain ⟨eff', hd', hkont', hcap⟩ := h.segments hk
  rw [hkont, Option.some.injEq, Prod.mk.injEq] at hkont'
  obtain ⟨rfl, rfl⟩ := hkont'
  exact hcap

theorem Control.resume (h : Control s) (ha : Agreed s.book) {f : Frame} {rest segment : List Frame}
    {hd : Handler} {k : ℕ} {a : Answer} {q : List Task} (hs : s.Looping f rest)
    (hq : s.book.runQueue = .resume hd k a :: q) (hk : s.segments[k]? = some (some segment)) :
    Control { s with
      book := s.book.take (.resume hd k a) q, segments := s.segments.set k none
      stack := segment ++ wrapper hd ++ s.stack, mode := .ret a } := by
  have hcap := h.captured_resume ha hq hk
  have hchain := h.chain
  rw [hs.2.1] at hchain
  refine ⟨?_, by simp [h.length, Book.take, Book.note], ?_, ?_, ?_⟩
  · rw [hs.2.1]
    exact chain_resume hcap hs.2.2 hchain
  · intro j segment' hj
    have hne : k ≠ j := by
      rintro rfl
      rw [List.getElem?_set_self (List.getElem?_eq_some_iff.mp hk).1] at hj
      cases hj
    rw [List.getElem?_set_ne hne] at hj
    exact h.segments hj
  · intro j hj
    by_cases hjk : k = j
    · subst hjk
      exact ⟨hd, a, List.mem_append_right _ (List.mem_singleton.mpr rfl)⟩
    · rw [List.getElem?_set_ne hjk] at hj
      obtain ⟨h', a', he⟩ := h.opened hj
      exact ⟨h', a', List.mem_append_left _ he⟩
  · intro a' g rest' b' hret hb
    obtain ⟨b, fs, rfl, -⟩ := hcap.shape
    have hst := hret.2
    simp only [List.cons_append, List.cons.injEq] at hst
    rw [← hst.1] at hb
    cases hb

@[simp] theorem keepAnswer_segments (sw : ℕ) (a : Answer) :
    (s.keepAnswer sw a).segments = s.segments := by
  cases a <;> rfl

theorem Shift.control (hsh : Shift c s t) (ha : Agreed s.book) (h : Control s) : Control t := by
  have hlog := fun e => hsh.extends.log (e := e)
  cases hsh with
  | quiet w hq => exact h.keep hlog rfl (quiet_konts hq) rfl rfl
  | switchRun hs =>
    obtain ⟨hm, hst⟩ := hs
    refine h.run hlog rfl rfl ?_ hm
    have hc := h.chain
    rw [hst] at hc
    simp only [PicoOcaml.Pio.switchRun, hst]
    exact List.isChain_cons_cons.mpr ⟨⟨_, rfl⟩, hc⟩
  | @reply b rest a hs =>
    refine h.pass hlog rfl rfl h.chain ?_
    intro f hf
    have hf' : Frame.body b = f := by simpa [State.reply, hs.2] using hf
    exact hf' ▸ rfl
  | suspend w hs hsplit hc hcap => exact h.suspend w hs hsplit hcap
  | @finish b rest a hs =>
    have hc := h.chain
    rw [hs.2] at hc
    obtain ⟨hrel, hrest⟩ := List.isChain_cons.mp hc
    refine ⟨hrest, h.length, h.segments, ?_, ?_⟩
    · intro k hk
      obtain ⟨hd, a', he⟩ := h.opened hk
      exact ⟨hd, a', hlog _ he⟩
    intro a' f rest' b' hret hb
    have hst : rest = f :: rest' := hret.2
    have hb' := ofBody_above (hrel f (by simp [hst])) hb
    cases hret.1
    subst hb'
    exact List.mem_append_right _ (List.mem_singleton.mpr rfl)
  | @launch f rest u q hs hq ht =>
    have hc := h.chain
    refine h.run hlog rfl rfl ?_ rfl
    simp only [push]
    rw [hs.2.1] at hc ⊢
    exact chain_frames hs.2.2 hc
  | resume hs hq hk => exact h.resume ha hs hq hk
  | @resumeTwice f rest hd k a q hs hq hk =>
    have hc := h.chain
    rw [hs.2.1] at hc
    refine h.pass hlog rfl rfl ?_ ?_
    · simp only [hs.2.1]
      exact chain_wrapper hs.2.2 hc
    · intro g hg
      rw [hs.2.1] at hg
      cases hd with
      | main sw =>
        simp only [wrapper, List.cons_append, List.head?_cons, Option.mem_def,
          Option.some.injEq] at hg
        exact hg ▸ rfl
      | fiber sw =>
        simp only [wrapper, List.nil_append, List.head?_cons, Option.mem_def,
          Option.some.injEq] at hg
        exact hg ▸ ofBody_of_loop hs.2.2
      | promise sw p =>
        simp only [wrapper, List.nil_append, List.head?_cons, Option.mem_def,
          Option.some.injEq] at hg
        exact hg ▸ ofBody_of_loop hs.2.2
  | stillPending hs hq ho =>
    refine h.pass hlog rfl rfl h.chain ?_
    intro g hg
    rw [hs.2.1, List.head?_cons, Option.mem_def, Option.some.injEq] at hg
    exact hg ▸ ofBody_of_loop hs.2.2
  | toBody hs => exact h.run hlog rfl rfl h.chain rfl
  | toCleanup hs => exact h.run hlog rfl rfl h.chain rfl
  | toLoop hs hl => exact h.run hlog rfl rfl h.chain rfl
  | breakLoop hs hl =>
    have hc := h.chain
    rw [hs.2] at hc
    exact h.pass hlog rfl rfl hc.tail (pass_top hc (by rintro b rfl; cases hl))
  | @endMain a sw rest hs =>
    have hc := h.chain
    rw [hs.2] at hc
    have hsegs : ((s.keepAnswer sw a).fiberDone sw).segments = s.segments :=
      keepAnswer_segments sw a
    exact h.pass hlog hsegs (by rw [State.endMain_book]) hc.tail (pass_top hc (by simp))
  | endFiber hs =>
    have hc := h.chain
    rw [hs.2] at hc
    exact h.run hlog rfl rfl (chain_scheduler hc fun _ hg => hg) rfl
  | endPromise hs =>
    have hc := h.chain
    rw [hs.2] at hc
    exact h.run hlog rfl (settle_konts _ _) (chain_scheduler hc fun _ hg => hg) rfl
  | endElement hs ho =>
    have hc := h.chain
    rw [hs.2] at hc
    exact h.pass hlog rfl (settle_konts _ _) hc.tail (pass_top hc (by simp))
  | exitScheduler hs hq hio hf =>
    have hc := h.chain
    rw [hs.2.1] at hc
    exact h.pass hlog rfl rfl hc.tail (pass_top hc (by simp))
  | exitMain hs hq hr =>
    have hc := h.chain
    rw [hs.2.1] at hc
    obtain ⟨hrel, hrest⟩ := List.isChain_cons.mp hc
    exact h.run hlog rfl rfl (List.isChain_cons.mpr ⟨hrel, hrest⟩) hs.1
  | @runHook sw n hooks rest hm hst =>
    have hc := h.chain
    rw [hst] at hc
    obtain ⟨hrel, hrest⟩ := List.isChain_cons.mp hc
    exact h.run hlog rfl rfl
      (List.isChain_cons_cons.mpr ⟨⟨hooks, rfl⟩, List.isChain_cons.mpr ⟨hrel, hrest⟩⟩) hm
  | exitCleanup hm hst =>
    have hc := h.chain
    rw [hst] at hc
    exact h.pass hlog rfl rfl hc.tail (pass_top hc (by simp))
  | _ => exact h.keep hlog rfl rfl rfl rfl

theorem control_initial (world : W) : Control (State.initial world) where
  chain := List.isChain_singleton _
  length := rfl
  segments hk := by simp [State.initial] at hk
  opened hk := by simp [State.initial] at hk
  ended hret _ := by cases hret.1

/-- The invariant of control, with what it rests on. -/
structure Sane (s : State W) : Prop where
  agreed : Agreed s.book
  control : Control s

theorem sane_initial (world : W) : Sane (State.initial world) :=
  ⟨agreed_empty, control_initial world⟩

theorem Shift.agreed (h : Shift c s t) (hs : Agreed s.book) : Agreed t.book :=
  h.moves.keeps (fun _ _ hb hm => hm.agreed hb) hs

theorem Shift.sane (hsh : Shift c s t) (h : Sane s) : Sane t :=
  ⟨hsh.agreed h.agreed, hsh.control h.agreed h.control⟩

theorem Sane.closed (h : Sane s) (sock : ℤ) (w : W) {b : Body} {rest : List Frame}
    (hs : s.Program b rest) : Sane (s.closed sock w) := by
  refine ⟨h.agreed.drop sock, h.control.pass (fun _ => id) rfl rfl h.control.chain ?_⟩
  intro f hf
  have hf' : Frame.body b = f := by simpa [State.closed, State.reply, hs.2] using hf
  exact hf' ▸ rfl

variable {X : Externals W} {a : Act} {xs : List (Act × State W)}

theorem closes_program {sock : ℤ} (h : Step X s a t) (hc : Closes s a sock) :
    ∃ b rest, s.Program b rest :=
  (enabled_program h.1 (by rw [hc.1]; exact nofun)).1

theorem step_sane (h : Step X s a t) (hs : Sane s) : Sane t := by
  rcases step_shifts (c := fun _ _ _ => True) h (by intros; trivial) with hm | ⟨sock, w, hc, rfl⟩
  · exact hm.keeps (fun _ _ hu hsh => hsh.sane hu) hs
  · obtain ⟨b, rest, hp⟩ := closes_program h hc
    exact hs.closed sock w hp

theorem run_sane {world : W} (h : Lts.Run (Step X) (State.initial world) xs) :
    Lts.Always Sane (State.initial world) xs :=
  h.always (sane_initial world) fun _ _ _ hu hstep => step_sane hstep hu

/-! ### The bottom of the stack -/

/-- The last frame is the code that has started the first run. -/
def Grounded (l : List Frame) : Prop := ∀ f, l.getLast? = some f → f = .body .top

namespace Grounded

variable {f : Frame} {l : List Frame}

theorem push (pre : List Frame) (h : Grounded (f :: l)) : Grounded (pre ++ f :: l) := by
  intro g hg
  apply h g
  rwa [List.getLast?_append_of_ne_nil _ (List.cons_ne_nil f l)] at hg

theorem pop (pre : List Frame) (h : Grounded (pre ++ l)) : Grounded l := by
  intro g hg
  apply h g
  simp [List.getLast?_append, hg]

/-- What does not belong to that code stands on something. -/
theorem replace (pre new : List Frame) (h : Grounded (pre ++ f :: l)) (hf : f ≠ .body .top) :
    Grounded (new ++ l) := by
  have hl : Grounded (f :: l) := h.pop pre
  cases l with
  | nil => exact absurd (hl f rfl) hf
  | cons g l =>
    have hrest : Grounded (g :: l) := hl.pop [f]
    exact hrest.push new

end Grounded

theorem Shift.grounded (hsh : Shift c s t) (h : Grounded s.stack) : Grounded t.stack := by
  cases hsh with
  | switchRun hs =>
    rw [hs.2] at h
    simp only [PicoOcaml.Pio.switchRun, hs.2]
    exact h.push [_]
  | @suspend b fs segment rest eff hd book w hs hsplit hc hcap =>
    obtain ⟨happ, gs, rfl, -⟩ := splitHandler_spec hsplit
    rw [happ, List.append_assoc, List.singleton_append] at h
    cases hd with
    | main sw => exact h.replace _ [] (by simp)
    | fiber sw => exact h.replace _ [.scheduler sw] (by simp)
    | promise sw p => exact h.replace _ [.scheduler sw] (by simp)
  | finish a hs =>
    rw [hs.2] at h
    exact h.pop [_]
  | launch hs hq ht =>
    rw [hs.2.1] at h
    exact hs.2.1 ▸ h.push _
  | resume hs hq hk =>
    rw [hs.2.1] at h
    exact hs.2.1 ▸ h.push _
  | resumeTwice hs hq hk =>
    rw [hs.2.1] at h
    exact hs.2.1 ▸ h.push _
  | breakLoop hs hl =>
    rw [hs.2] at h
    exact h.pop [_]
  | endMain hs =>
    rw [hs.2] at h
    exact h.pop [_]
  | endFiber hs =>
    rw [hs.2] at h
    exact h.replace [] [_] (by simp)
  | endPromise hs =>
    rw [hs.2] at h
    exact h.replace [] [_] (by simp)
  | endElement hs ho =>
    rw [hs.2] at h
    exact h.pop [_]
  | exitScheduler hs hq hw hf =>
    rw [hs.2.1] at h
    exact h.pop [_]
  | exitMain hs hq hr =>
    rw [hs.2.1] at h
    exact h.replace [] [_] (by simp)
  | runHook hm hst =>
    rw [hst] at h
    exact h.replace [] [_, _] (by simp)
  | exitCleanup hm hst =>
    rw [hst] at h
    exact h.pop [_]
  | _ => exact h

theorem grounded_initial (world : W) : Grounded (State.initial world).stack :=
  fun _ hf => (Option.some.inj hf).symm

theorem step_grounded (h : Step X s a t) (hs : Grounded s.stack) : Grounded t.stack := by
  rcases step_shifts (c := fun _ _ _ => True) h (by intros; trivial) with hm | ⟨sock, w, -, rfl⟩
  · exact hm.keeps (p := fun u => Grounded u.stack) (fun _ _ hu hsh => hsh.grounded hu) hs
  · exact hs

end PicoOcaml.Pio
