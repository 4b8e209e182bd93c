import PicoOcaml.Pio.RunFrames

/-! How far a run is with its release hooks. -/
namespace PicoOcaml.Pio

variable {W : Type*}

/-- No hook is the last frame. -/
def Rooted (fs : List Frame) : Prop := ∀ sw n, fs.getLast? ≠ some (.body (.hook sw n))

theorem Rooted.tail {f : Frame} {fs : List Frame} (h : Rooted (f :: fs)) : Rooted fs := by
  intro sw n
  cases fs with
  | nil => simp
  | cons g fs => simpa using h sw n

theorem Grounded.rooted {fs : List Frame} (h : Grounded fs) : Rooted fs := by
  intro sw n hlast
  cases h _ hlast

theorem Captured.rooted {h : Handler} {segment : List Frame} (hc : Captured h segment) :
    Rooted segment := by
  obtain ⟨b, fs, rfl, -⟩ := hc.shape
  intro sw n
  rw [List.getLast?_concat]
  exact nofun

/-- Below a hook stands the iteration that has called it. -/
theorem hook_sits {fs : List Frame} (hc : fs.IsChain Above) (hr : Rooted fs) {sw n : ℕ}
    (hmem : .body (.hook sw n) ∈ fs) :
    ∃ pre hooks post, fs = pre ++ .body (.hook sw n) :: .cleanup sw hooks :: post := by
  obtain ⟨pre, post, rfl⟩ := List.mem_iff_append.mp hmem
  cases post with
  | nil => exact absurd List.getLast?_concat (hr sw n)
  | cons g post =>
    obtain ⟨hooks, rfl⟩ := (List.isChain_append_cons_cons.mp hc).2.1
    exact ⟨pre, hooks, post, rfl⟩

section

variable {s t : State W} {sw n : ℕ}

theorem mem_runFrames {f : Frame} {fs : List Frame} :
    f ∈ runFrames sw fs ↔ f ∈ fs ∧ f.ofRun sw = true := by
  simp [runFrames]

theorem mem_captured {f : Frame} : f ∈ s.captured sw →
    ∃ segment, some segment ∈ s.segments ∧ f ∈ runFrames sw segment := by
  intro hf
  have hcount := Multiset.count_pos.mpr hf
  rw [State.captured, ← Multiset.coe_countAddMonoidHom, map_list_sum, List.map_map] at hcount
  obtain ⟨o, ho, hpos⟩ := sum_map_pos.mp hcount
  have hmem : f ∈ runFrames sw (o.getD []) := Multiset.count_pos.mp hpos
  cases o with
  | none => simp at hmem
  | some segment => exact ⟨segment, ho, hmem⟩

theorem card_captured {segment : List Frame} (hmem : some segment ∈ s.segments) :
    (runFrames sw segment).card ≤ (s.captured sw).card := by
  obtain ⟨k, hk⟩ := List.mem_iff_getElem?.mp hmem
  have hset := sum_map_set (f := fun o => runFrames sw (o.getD [])) (y := none) hk
  simp only [Option.getD_some, Option.getD_none, runFrames_nil, add_zero] at hset
  have hcard := congrArg Multiset.card hset
  rw [Multiset.card_add] at hcard
  simp only [State.captured]
  omega

/-- A hook and the frame that has called it are in one place. -/
theorem card_hook {fs : List Frame} (hc : fs.IsChain Above) (hr : Rooted fs)
    (hmem : .body (.hook sw n) ∈ runFrames sw fs) : 2 ≤ (runFrames sw fs).card := by
  obtain ⟨pre, hooks, post, rfl⟩ := hook_sits hc hr (mem_runFrames.mp hmem).1
  rw [runFrames_append, runFrames_own _ (by simp [Frame.ofRun]),
    runFrames_own _ (by simp [Frame.ofRun]), Multiset.card_add, Multiset.card_cons,
    Multiset.card_cons]
  omega

/-- While the iteration over the hooks is on top, no hook is being run. -/
theorem card_cleanup {hooks : List ℕ} {rest : List Frame} (hs : Sane s) (hr : Rooted s.stack)
    (hst : s.stack = .cleanup sw hooks :: rest) (hmem : .body (.hook sw n) ∈ s.ofRun sw) :
    3 ≤ (s.ofRun sw).card := by
  have hchain := hs.control.chain
  rw [hst] at hr hchain
  have hown : runFrames sw s.stack = .cleanup sw hooks ::ₘ runFrames sw rest := by
    rw [hst]
    exact runFrames_own _ (by simp [Frame.ofRun])
  rw [State.ofRun, hown] at hmem ⊢
  rw [Multiset.card_add, Multiset.card_cons]
  rcases Multiset.mem_add.mp hmem with hmem | hmem
  · have hrest : .body (.hook sw n) ∈ runFrames sw rest := by simpa using hmem
    have htwo := card_hook (List.isChain_cons.mp hchain).2 hr.tail hrest
    omega
  · obtain ⟨segment, hseg, hin⟩ := mem_captured hmem
    obtain ⟨k, hk⟩ := List.mem_iff_getElem?.mp hseg
    obtain ⟨eff, hd, -, hcap⟩ := hs.control.segments hk
    have htwo := card_hook hcap.chain hcap.rooted hin
    have hle : (runFrames sw segment).card ≤ (s.captured sw).card := card_captured hseg
    omega

/-! ### How far a run is -/

/-- Where a run is, and the hooks registered before its loop was over, the last one first: the
hooks that have ended come first among them, then those that are still to end. -/
inductive Progress (s : State W) (sw : ℕ) : List ℕ → Prop
  | before : s.nextSwitch ≤ sw → s.ofRun sw = 0 → s.executed sw = [] → s.finished sw = false →
      Progress s sw []
  | looping : sw < s.nextSwitch → s.ofRun sw = {.mainScheduler sw} → s.executed sw = [] →
      s.finished sw = false → Progress s sw (s.switches sw).onRelease
  | cleaning (hooks : List ℕ) : sw < s.nextSwitch → s.ofRun sw = {.cleanup sw hooks} →
      s.finished sw = true → Progress s sw (s.executed sw ++ hooks)
  | inHook (n : ℕ) (hooks : List ℕ) : sw < s.nextSwitch →
      s.ofRun sw = .body (.hook sw n) ::ₘ {.cleanup sw hooks} → s.finished sw = true →
      Progress s sw (s.executed sw ++ n :: hooks)
  | returned : sw < s.nextSwitch → s.ofRun sw = 0 → s.finished sw = true →
      Progress s sw (s.executed sw)

/-- What a change leaves of the hooks that have been registered in time. -/
structure Continues (s t : State W) (sw : ℕ) (hooks hooks' : List ℕ) : Prop where
  created : sw < s.nextSwitch → sw < t.nextSwitch
  finished : s.finished sw = true → t.finished sw = true ∧ hooks' = hooks
  running : s.finished sw = false → sw < s.nextSwitch → hooks' = (t.switches sw).onRelease
  before : s.nextSwitch ≤ sw → hooks' = []
  stays : t.stack = s.stack →
    t.finished sw = s.finished sw ∧ (sw < t.nextSwitch ↔ sw < s.nextSwitch)

theorem ofRun_top {f : Frame} {rest : List Frame} (hst : s.stack = f :: rest)
    (hf : f.ofRun sw = true) : s.ofRun sw = f ::ₘ (runFrames sw rest + s.captured sw) := by
  rw [State.ofRun, hst, runFrames_own _ hf, Multiset.cons_add]

theorem mem_ofRun_top {f : Frame} {rest : List Frame} (hst : s.stack = f :: rest)
    (hf : f.ofRun sw = true) : f ∈ s.ofRun sw := by
  rw [ofRun_top hst hf]
  exact Multiset.mem_cons_self ..

/-- What the frames say of a run whose iteration over the hooks is on top. -/
theorem Progress.on_cleanup {hooks R : List ℕ} {rest : List Frame} (h : Progress s sw R)
    (hs : Sane s) (hr : Rooted s.stack) (hst : s.stack = .cleanup sw hooks :: rest) :
    sw < s.nextSwitch ∧ runFrames sw rest + s.captured sw = 0 ∧ s.finished sw = true ∧
      R = s.executed sw ++ hooks := by
  have hof : (Frame.cleanup sw hooks).ofRun sw = true := by simp [Frame.ofRun]
  have hmem := mem_ofRun_top hst hof
  cases h with
  | cleaning hooks' hn ho hf =>
    have heq := ho.symm.trans (ofRun_top hst hof)
    rw [Multiset.singleton_eq_cons_iff] at heq
    obtain ⟨htop, hrest⟩ := heq
    cases htop
    exact ⟨hn, hrest, hf, rfl⟩
  | inHook n hooks' hn ho hf =>
    have hthree := card_cleanup (n := n) hs hr hst (by rw [ho]; exact Multiset.mem_cons_self ..)
    rw [ho] at hthree
    simp at hthree
  | before hn ho | looping hn ho | returned hn ho => simp [ho] at hmem

/-- Once the loop is over, no hook is added. -/
theorem Continues.past {R : List ℕ} (hn : sw < s.nextSwitch) (hn' : sw < t.nextSwitch)
    (hf : s.finished sw = true) (hf' : t.finished sw = true) : Continues s t sw R R where
  created _ := hn'
  finished _ := ⟨hf', rfl⟩
  running h := absurd (hf.symm.trans h) nofun
  before h := by omega
  stays _ := ⟨hf'.trans hf.symm, fun _ => hn, fun _ => hn'⟩

theorem Progress.still {R : List ℕ} (hp : Progress s sw R) (ho : t.ofRun sw = s.ofRun sw)
    (hx : t.executed sw = s.executed sw) (hf : t.finished sw = s.finished sw)
    (hn : sw < t.nextSwitch ↔ sw < s.nextSwitch) :
    ∃ R', Progress t sw R' ∧ Continues s t sw R R' := by
  cases hp with
  | before hn' ho' hx' hf' =>
    refine ⟨[], .before (by omega) (ho.trans ho') (hx.trans hx') (hf.trans hf'), ?_⟩
    exact {
      created := hn.mpr
      finished := fun h => absurd (hf'.symm.trans h) Bool.false_ne_true
      running := fun _ h => by omega
      before := fun _ => rfl
      stays := fun _ => ⟨hf, hn⟩ }
  | looping hn' ho' hx' hf' =>
    refine ⟨_, .looping (hn.mpr hn') (ho.trans ho') (hx.trans hx') (hf.trans hf'), ?_⟩
    exact {
      created := hn.mpr
      finished := fun h => absurd (hf'.symm.trans h) Bool.false_ne_true
      running := fun _ _ => rfl
      before := fun h => by omega
      stays := fun _ => ⟨hf, hn⟩ }
  | cleaning hooks hn' ho' hf' =>
    have hp' := Progress.cleaning hooks (hn.mpr hn') (ho.trans ho') (hf.trans hf')
    rw [hx] at hp'
    exact ⟨_, hp', .past hn' (hn.mpr hn') hf' (hf.trans hf')⟩
  | inHook n hooks hn' ho' hf' =>
    have hp' := Progress.inHook n hooks (hn.mpr hn') (ho.trans ho') (hf.trans hf')
    rw [hx] at hp'
    exact ⟨_, hp', .past hn' (hn.mpr hn') hf' (hf.trans hf')⟩
  | returned hn' ho' hf' =>
    have hp' := Progress.returned (hn.mpr hn') (ho.trans ho') (hf.trans hf')
    rw [hx] at hp'
    exact ⟨_, hp', .past hn' (hn.mpr hn') hf' (hf.trans hf')⟩

theorem Progress.fresh {R : List ℕ} (hp : Progress s sw R) (hn : s.nextSwitch ≤ sw) :
    s.ofRun sw = 0 ∧ s.executed sw = [] ∧ s.finished sw = false := by
  cases hp with
  | before hn' ho hx hf => exact ⟨ho, hx, hf⟩
  | _ => omega

theorem Progress.in_loop {R : List ℕ} {rest : List Frame} (hp : Progress s sw R)
    (hst : s.stack = .mainScheduler sw :: rest) :
    sw < s.nextSwitch ∧ runFrames sw rest + s.captured sw = 0 ∧ s.executed sw = [] ∧
      s.finished sw = false := by
  have hof : (Frame.mainScheduler sw).ofRun sw = true := by simp [Frame.ofRun]
  have hmem := mem_ofRun_top hst hof
  cases hp with
  | looping hn ho hx hf =>
    have heq := ho.symm.trans (ofRun_top hst hof)
    rw [Multiset.singleton_eq_cons_iff] at heq
    exact ⟨hn, heq.2, hx, hf⟩
  | before hn ho | cleaning hooks hn ho | inHook n hooks hn ho | returned hn ho =>
    simp [ho] at hmem

theorem Progress.in_hook {R : List ℕ} {rest : List Frame} (hp : Progress s sw R)
    (hst : s.stack = .body (.hook sw n) :: rest) : sw < s.nextSwitch ∧ s.finished sw = true ∧
      ∃ hooks, runFrames sw rest + s.captured sw = {.cleanup sw hooks} ∧
        R = s.executed sw ++ n :: hooks := by
  have hof : (Frame.body (.hook sw n)).ofRun sw = true := by simp [Frame.ofRun]
  have hmem := mem_ofRun_top hst hof
  cases hp with
  | inHook n' hooks hn ho hf =>
    rw [ho] at hmem
    obtain rfl : n = n' := by simpa using hmem
    have heq := ho.symm.trans (ofRun_top hst hof)
    exact ⟨hn, hf, hooks, ((Multiset.cons_inj_right _).mp heq).symm, rfl⟩
  | before hn ho | looping hn ho | cleaning hooks hn ho | returned hn ho => simp [ho] at hmem

theorem Release.progress {R : List ℕ} (h : Release s t sw) (hs : Sane s) (hr : Rooted s.stack)
    (hp : Progress s sw R) : ∃ R', Progress t sw R' ∧ Continues s t sw R R' := by
  cases h with
  | still ho hx hf hn => exact hp.still ho hx hf hn
  | opens hsw hn hseg hst hx hf hreg =>
    obtain ⟨ho, hx', hf'⟩ := hp.fresh hsw.ge
    have hcap : t.captured sw = s.captured sw := by simp only [State.captured, hseg]
    have ho' : t.ofRun sw = {.mainScheduler sw} := by
      rw [ofRun_top hst (by simp [Frame.ofRun]), hcap]
      exact congrArg (Multiset.cons _) ho
    refine ⟨_, .looping (by omega) ho' (hx.trans hx') hf, ?_⟩
    exact {
      created := fun h => by omega
      finished := fun h => absurd (hf'.symm.trans h) Bool.false_ne_true
      running := fun _ _ => rfl
      before := fun _ => hreg
      stays := fun h => absurd (hst.symm.trans h) (List.cons_ne_self _ _) }
  | finishes rest hn hseg hst hst' hx hf =>
    obtain ⟨hn', hrest, hx', hf'⟩ := hp.in_loop hst
    have hcap : t.captured sw = s.captured sw := by simp only [State.captured, hseg]
    have ho : t.ofRun sw = {.cleanup sw (t.switches sw).onRelease} := by
      rw [ofRun_top hst' (by simp [Frame.ofRun]), hcap, hrest]
      rfl
    have hp' := Progress.cleaning (s := t) (t.switches sw).onRelease (by omega) ho hf
    rw [hx, hx', List.nil_append] at hp'
    refine ⟨_, hp', ?_⟩
    exact {
      created := fun h => by omega
      finished := fun h => absurd (hf'.symm.trans h) Bool.false_ne_true
      running := fun _ _ => rfl
      before := fun h => by omega
      stays := fun h => by cases hst'.symm.trans (h.trans hst) }
  | calls n hooks rest hn hseg hst hst' hx hf =>
    obtain ⟨hn', hrest, hf', rfl⟩ := hp.on_cleanup hs hr hst
    have hcap : t.captured sw = s.captured sw := by simp only [State.captured, hseg]
    have ho : t.ofRun sw = .body (.hook sw n) ::ₘ {.cleanup sw hooks} := by
      rw [ofRun_top hst' (by simp [Frame.ofRun]), runFrames_own _ (by simp [Frame.ofRun]), hcap,
        Multiset.cons_add, hrest]
      rfl
    have hp' := Progress.inHook (s := t) n hooks (by omega) ho (hf.trans hf')
    rw [hx] at hp'
    exact ⟨_, hp', .past hn' (by omega) hf' (hf.trans hf')⟩
  | ends n rest hn hseg hst hst' hx hf =>
    obtain ⟨hn', hf', hooks, hrest, rfl⟩ := hp.in_hook hst
    have hcap : t.captured sw = s.captured sw := by simp only [State.captured, hseg]
    have ho : t.ofRun sw = {.cleanup sw hooks} := by
      rw [State.ofRun, hst', hcap, hrest]
    have hp' := Progress.cleaning (s := t) hooks (by omega) ho (hf.trans hf')
    rw [hx, List.append_assoc, List.singleton_append] at hp'
    exact ⟨_, hp', .past hn' (by omega) hf' (hf.trans hf')⟩
  | returns rest hn hseg hst hst' hx hf =>
    obtain ⟨hn', hrest, hf', rfl⟩ := hp.on_cleanup hs hr hst
    have hcap : t.captured sw = s.captured sw := by simp only [State.captured, hseg]
    have ho : t.ofRun sw = 0 := by
      rw [State.ofRun, hst', hcap, hrest]
    have hp' := Progress.returned (s := t) (by omega) ho (hf.trans hf')
    rw [hx] at hp'
    rw [List.append_nil]
    exact ⟨_, hp', .past hn' (by omega) hf' (hf.trans hf')⟩

end

end PicoOcaml.Pio
