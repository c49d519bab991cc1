import Retrobsd.SleepQueueCalls

/-! Runs of the sleep queues and the run queue: every process is where its state says,
and no panic of the functions that move it is reached. -/
namespace Retrobsd.SleepQueues
open List Option
open Function
open Lib.Run Lib.Threads

variable {n : Nat} {L : Layout n} {s t : State n} {lists : Queue → List (Slot n)} {p : Slot n}

def State.view (s : State n) : View n := ⟨none,s.running,s.point⟩

/-- No signal wakes process 0, which alone sleeps on `runout`, and no other process is
its own parent. -/
structure Proper (L : Layout n) (s : State n) : Prop where
  swapper : s.sintr 0 = false
  channel : ∀ q, s.wchan q = L.runout → q = 0
  init : s.pptr 1 = 0
  parents : ∀ q, q ≠ 0 → s.pptr q ≠ q

theorem Proper.keeps (real : L.Real) (proper : Proper L s) (keeps : Keeps s t) : Proper L t := by
  refine ⟨?_,fun q here => proper.channel q ?_,?_,?_⟩
  · by_contra set
    exact absurd (proper.swapper.symm.trans (keeps.sintr 0 (by simpa using set))) Bool.false_ne_true
  · rw [← keeps.less q (by rw [here]; exact real.runout)]
    exact here
  · rw [keeps.pptr]
    exact proper.init
  · rw [keeps.pptr]
    exact proper.parents

theorem Proper.same (proper : Proper L s) (sintr : t.sintr = s.sintr) (wchan : t.wchan = s.wchan)
    (pptr : t.pptr = s.pptr) : Proper L t := by
  refine ⟨?_,?_,?_,?_⟩
  · rw [sintr]
    exact proper.swapper
  · rw [wchan]
    exact proper.channel
  · rw [pptr]
    exact proper.init
  · rw [pptr]
    exact proper.parents

structure Invariant (L : Layout n) (s : State n) : Prop where
  sound : ∃ lists, Sound s lists s.view
  proper : Proper L s

theorem Invariant.releases (real : L.Real) (inv : Invariant L s) (releases : Releases s t)
    (sound : Sound t lists s.view) : Invariant L t := by
  have running : t.running = s.running := by rw [releases.rest]
  have point : t.point = s.point := by rw [releases.rest]
  refine ⟨⟨lists,?_⟩,inv.proper.keeps real releases.keeps⟩
  rw [State.view,running,point]
  exact sound

variable {chan : Nat}

theorem wakeup_inv (real : L.Real) (inv : Invariant L s) (nonzero : chan ≠ 0) :
    ∃ t, wakeup L s chan = .ok t ∧ Invariant L t ∧ Wakes L s t chan := by
  obtain ⟨lists,sound⟩ := inv.sound
  obtain ⟨t,lists',woke,after,wakes⟩ := wakeup_spec real.runout sound (clear_none rfl chan) nonzero
  exact ⟨t,woke,inv.releases real wakes.releases after,wakes⟩

theorem wakeRunout_inv (real : L.Real) (inv : Invariant L s) : ∃ t, wakeRunout L s = .ok t ∧ Invariant L t := by
  obtain ⟨lists,sound⟩ := inv.sound
  obtain ⟨t,lists',woke,after,releases,_⟩ := wakeRunout_spec (p := 0) real sound fun _ => clear_none rfl _
  exact ⟨t,woke,inv.releases real releases after⟩

theorem psignal_inv (real : L.Real) (inv : Invariant L s) (p : Slot n) (g : Signal) (told : Option Told) :
    ∃ t, psignal L s p g told = .ok t ∧ Invariant L t := by
  obtain ⟨lists,sound⟩ := inv.sound
  obtain ⟨t,lists',ended,after,releases,_⟩ := psignalWith_spec (p := p) real sound (fun s => notifyAndStop L s p told) g
    (fun _ _ _ => clear_none rfl _) fun asleep light _ => by
      have user : p ≠ 0 := by
        rintro rfl
        exact absurd (inv.proper.swapper.symm.trans light) Bool.false_ne_true
      exact notifyAndStop_stops real sound rfl asleep (inv.proper.parents p user) (fun here =>
        user (inv.proper.channel p here)) told
  exact ⟨t,ended,inv.releases real releases after⟩

theorem endtsleep_inv (real : L.Real) (inv : Invariant L s) (p : Slot n) : ∃ t, endtsleep L s p = .ok t ∧ Invariant L t := by
  obtain ⟨lists,sound⟩ := inv.sound
  obtain ⟨r,named⟩ : ∃ r, r = {s with callout := update s.callout p false} := ⟨_,rfl⟩
  have keeps : Keeps s r := by rw [named]; exact ⟨rfl,fun _ set => set,fun _ _ => rfl⟩
  have view : r.view = s.view := by rw [named]; rfl
  have heard : Sound r lists r.view := by
    rw [view]
    exact sound.same (by rw [named]) (by rw [named]) (by rw [named]) (by rw [named])
  have before : Invariant L r := ⟨⟨lists,heard⟩,inv.proper.keeps real keeps⟩
  have begun : endtsleep L s p = if r.wchan p = 0 then .ok r
      else (if r.stat p = .ssleep then setrun L r p else unsleep r p).map fun s =>
        {s with timedOut := update s.timedOut p true} := by
    rw [endtsleep,← named]
    split_ifs
    · rfl
    · cases setrun L r p <;> rfl
    · cases unsleep r p <;> rfl
  rw [begun]
  by_cases awake : r.wchan p = 0
  · rw [if_pos awake]
    exact ⟨r,rfl,before⟩
  rw [if_neg awake]
  obtain ⟨t,lists',ended,after,releases⟩ : ∃ t lists', (if r.stat p = .ssleep then setrun L r p else unsleep r p) = .ok t ∧
      Sound t lists' r.view ∧ Releases r t := by
    split_ifs with asleep
    · obtain ⟨t,lists',ran,after,releases,_⟩ := setrun_spec real heard (.inl asleep) fun _ _ => clear_none rfl _
      exact ⟨t,lists',ran,after,releases⟩
    obtain ⟨queues,lists',unslept,after⟩ := unsleep_sound heard p
    refine ⟨_,lists',unslept,after,rfl,fun q set => update_of_ne ?_ _ _⟩
    rintro rfl
    exact set (update_self _ _ _)
  obtain ⟨⟨last,sound'⟩,proper⟩ := before.releases real releases after
  rw [ended]
  exact ⟨_,rfl,⟨last,sound'.same rfl rfl rfl rfl⟩,proper.same rfl rfl rfl⟩

variable {x : View n}

theorem setrq_spec (sound : Sound s lists x) (absent : p ∉ lists .qs) (awake : s.wchan p = 0) :
    setrq s p = .ok {s with queues := s.queues.push .qs p} ∧
    Holds (s.queues.push .qs p) (update lists .qs (p :: lists .qs)) := by
  refine ⟨?_,sound.holds.push fun q => ?_⟩
  · rw [setrq,if_neg]
    rw [sound.listed .qs]
    exact absent
  cases q with
  | slpque k => exact sound.awake awake k
  | qs => exact absent

theorem remrq_spec (sound : Sound s lists x) (present : p ∈ lists .qs) :
    ∃ queues, remrq s p = .ok {s with queues} ∧ Holds queues (update lists .qs ((lists .qs).erase p)) := by
  obtain ⟨queues,found,holds⟩ := sound.holds.delete present (sound.length .qs)
  exact ⟨queues,by rw [remrq,found],holds⟩

theorem Sound.awakens (sound : Sound s lists x) (regular : x.exempt = none) (runs : s.stat p ≠ .ssleep ∧ s.stat p ≠ .sstop) :
    s.wchan p = 0 := by
  by_contra asleep
  rcases sound.asleep p asleep (by simp [regular]) with bad | bad
  · exact runs.1 bad
  · exact runs.2 bad

theorem Sound.runs (sound : Sound s lists s.view) (runs : s.running = some p) (code : s.point p ≠ .yields) :
    s.loaded p = true ∧ s.stat p = .srun ∧ s.wchan p = 0 ∧ p ∉ lists .qs := by
  obtain ⟨loaded,own⟩ := sound.current p runs
  obtain ⟨stat,rest⟩ := own code
  exact ⟨loaded,stat,rest.resolve_left (by simp [State.view]),fun inside => code (((sound.ready p).mp inside).2.2 runs)⟩

theorem yields_inv (inv : Invariant L s) (runs : s.running = some p) (code : s.point p = .code) :
    ∃ t, setrq s p = .ok t ∧ Invariant L {t with point := update t.point p .yields} := by
  obtain ⟨lists,sound⟩ := inv.sound
  obtain ⟨loaded,stat,awake,absent⟩ := sound.runs runs (by simp [code])
  obtain ⟨done,holds⟩ := setrq_spec sound absent awake
  refine ⟨_,done,⟨_,holds,fun k q => ?_,sound.asleep,fun q => ?_,fun q now => ?_,fun q yields => ?_⟩,inv.proper.same rfl rfl rfl⟩
  · rw [update_of_ne (by simp)]
    exact sound.sleeping k q
  · rw [update_self]
    rcases eq_or_ne q p with rfl | ne
    · simp [State.view,loaded,stat]
    have other : s.running ≠ some q := fun same => ne (some.inj (same.symm.trans runs))
    rw [mem_cons,or_iff_right ne,sound.ready q]
    simp [State.view,other]
  · cases runs.symm.trans now
    refine ⟨loaded,fun stays => absurd ?_ stays⟩
    exact update_self _ _ _
  · rcases eq_or_ne q p with rfl | ne
    · exact runs
    refine sound.yielding q ?_
    exact (update_of_ne ne _ _).symm.trans yields

theorem best_mem {l : List (Slot n)} {pp : Option (Slot n)} {pri : Int} (found : best s l pp pri = some p) :
    pp = some p ∨ p ∈ l := by
  induction l generalizing pp pri with
  | nil => exact .inl found
  | cons q l ih =>
    rw [best] at found
    split_ifs at found
    · rcases ih found with same | inside
      · exact .inr (some.inj same ▸ mem_cons_self)
      · exact .inr (mem_cons_of_mem q inside)
    · exact (ih found).imp id (mem_cons_of_mem q)

theorem swtch_inv (inv : Invariant L s) (idle : s.running = none) : ∃ t, swtch s = .ok t ∧ Invariant L t := by
  obtain ⟨lists,sound⟩ := inv.sound
  rw [swtch]
  cases found : best s (s.listed .qs) none 128 with
  | none => exact ⟨s,rfl,inv⟩
  | some p =>
    have present : p ∈ lists .qs := by
      rw [← sound.listed .qs]
      exact (best_mem found).resolve_left (by simp)
    obtain ⟨queues,removed,holds⟩ := remrq_spec sound present
    obtain ⟨stat,loaded,_⟩ := (sound.ready p).mp present
    have awake := sound.awakens rfl (p := p) (by simp [stat])
    have nobody : ∀ q, s.point q ≠ .yields := fun q yields => by
      have runs : s.running = some q := sound.yielding q yields
      rw [idle] at runs
      cases runs
    dsimp only
    rw [removed]
    refine ⟨_,rfl,⟨_,holds,fun k q => ?_,sound.asleep,fun q => ?_,fun q now => ?_,fun q yields =>
      absurd yields (nobody q)⟩,inv.proper.same rfl rfl rfl⟩
    · rw [update_of_ne (by simp)]
      exact sound.sleeping k q
    · rw [update_self,(sound.holds.once .qs).mem_erase_iff,sound.ready q]
      simp only [State.view,idle,some.injEq,nobody q,reduceCtorEq,false_implies,and_true]
      rw [and_comm,and_assoc]
      refine and_congr_right fun _ => and_congr_right fun _ => ?_
      exact ⟨fun ne same => ne same.symm,fun ne same => ne same.symm⟩
    · cases some.inj now
      exact ⟨loaded,fun _ => ⟨stat,.inr awake⟩⟩

/-- A process that stops in the signal check of `tsleep` tells its parent while it is itself on a sleep queue
and still SRUN. That must not wake the swapper when it waits on that queue. -/
def Fair (L : Layout n) (s : State n) : Op n → Prop
  | .tsleep chan _ (some (.stops (some told))) => ∀ p, s.running = some p →
    ¬ (hash chan = hash L.runout ∧ s.runout = true ∧ s.loaded (s.pptr p) = false ∧
    (sigchld told.action told.traced).runs s (s.pptr p) = true)
  | _ => True

theorem enqueue_sound (sound : Sound s lists s.view) (runs : s.running = some p) (code : s.point p ≠ .yields)
    (nonzero : chan ≠ 0) (timo : Bool) :
    ∃ lists', Sound (enqueue s p chan timo) lists' ⟨some p,s.running,s.point⟩ := by
  obtain ⟨loaded,stat,awake,absent⟩ := sound.runs runs code
  refine ⟨update lists (.slpque (hash chan)) (p :: lists (.slpque (hash chan))),sound.holds.push fun q => ?_,fun k q => ?_,
    fun q set other => ?_,fun q => ?_,fun q now => ?_,sound.yielding⟩
  · cases q with
    | slpque k => exact sound.awake awake k
    | qs => exact absent
  · have before := sound.sleeping k q
    dsimp only [enqueue]
    rcases eq_or_ne q p with rfl | ne
    · rw [update_self]
      rcases eq_or_ne k (hash chan) with rfl | elsewhere
      · rw [update_self]
        exact ⟨fun _ => ⟨nonzero,rfl⟩,fun _ => mem_cons_self⟩
      rw [update_of_ne (by simpa using elsewhere)]
      exact ⟨fun inside => absurd inside (sound.awake awake k),fun here => absurd here.2.symm elsewhere⟩
    rw [update_of_ne ne]
    rcases eq_or_ne k (hash chan) with rfl | elsewhere
    · rw [update_self,mem_cons,or_iff_right ne]
      exact before
    rw [update_of_ne (by simpa using elsewhere)]
    exact before
  · have ne : q ≠ p := fun same => other (by rw [same])
    dsimp only [enqueue] at set
    rw [update_of_ne ne] at set
    exact sound.asleep q set (by simp [State.view])
  · rw [update_of_ne (by simp)]
    exact sound.ready q
  · cases runs.symm.trans now
    exact ⟨loaded,fun _ => ⟨stat,.inl rfl⟩⟩

theorem tsleep_inv (real : L.Real) (inv : Invariant L s) (runs : s.running = some p) (code : s.point p ≠ .yields)
    (nonzero : chan ≠ 0) (own : chan = L.runout → p = 0) {timo : Bool} {look : Option Look} (light : look.isSome = true → p ≠ 0)
    (fair : Fair L s (.tsleep chan timo look)) : ∃ t, tsleep L s p chan timo look = .ok t ∧ Invariant L t := by
  obtain ⟨lists,sound⟩ := inv.sound
  obtain ⟨lists',queued⟩ := enqueue_sound sound runs code nonzero timo
  have channel : ∀ q, (enqueue s p chan timo).wchan q = L.runout → q = 0 := by
    intro q here
    dsimp only [enqueue] at here
    rcases eq_or_ne q p with rfl | ne
    · rw [update_self] at here
      exact own here
    rw [update_of_ne ne] at here
    exact inv.proper.channel q here
  cases look with
  | none =>
    have proper : Proper L (enqueue s p chan timo) := ⟨inv.proper.swapper,channel,inv.proper.init,inv.proper.parents⟩
    obtain ⟨t,final,slept,after,keeps⟩ := sleeps_spec real (s := enqueue s p chan timo) queued (fun q same =>
      some.inj same.symm) runs code
    exact ⟨t,slept,⟨final,after⟩,proper.keeps real keeps⟩
  | some look =>
    have user : p ≠ 0 := light rfl
    obtain ⟨r,named⟩ : ∃ r, r = {enqueue s p chan timo with sintr := update s.sintr p true} := ⟨_,rfl⟩
    have proper : Proper L r := by
      rw [named]
      exact ⟨(update_of_ne user.symm _ _).trans inv.proper.swapper,channel,inv.proper.init,inv.proper.parents⟩
    have heard : Sound r lists' ⟨some p,r.running,r.point⟩ := by
      rw [named]
      exact queued.same rfl rfl rfl rfl
    have other := inv.proper.parents p user
    have parent : ∀ g : Signal, g.runs r (r.pptr p) = g.runs s (s.pptr p) := by
      intro g
      rw [named]
      simp only [Signal.runs,enqueue,update_of_ne other]
    obtain ⟨t,final,ended,after,keeps⟩ := cursig_spec (p := p) real heard (fun q same => some.inj same.symm)
      (by rw [named]; exact runs)
      (by rw [named]; exact code) look fun report same fires out up => by
        rw [parent] at fires
        rintro q exempt _
        cases exempt
        have apart : hash chan ≠ hash L.runout := by
          rw [same] at fair
          refine fun collide => fair p runs ⟨collide,?_,?_,fires⟩
          · rwa [named] at up
          · rwa [named] at out
        have here : r.wchan p = chan := by
          rw [named]
          exact update_self _ _ _
        rw [here]
        exact ⟨apart,fun _ => apart⟩
    refine ⟨t,?_,⟨final,after⟩,proper.keeps real keeps⟩
    rw [tsleep,← named]
    exact ended

theorem cursig_inv (real : L.Real) (inv : Invariant L s) (runs : s.running = some p) (code : s.point p ≠ .yields) (look : Look) :
    ∃ t, cursig L s p look = .ok t ∧ Invariant L t := by
  obtain ⟨lists,sound⟩ := inv.sound
  obtain ⟨t,lists',ended,after,keeps⟩ := cursig_spec real sound (fun q same => by cases same) runs code look
    fun _ _ _ _ _ => clear_none rfl _
  exact ⟨t,ended,⟨lists',after⟩,inv.proper.keeps real keeps⟩

theorem resume_inv (real : L.Real) (inv : Invariant L s) (code : s.point p ≠ .yields) : Invariant L (resume s p) := by
  obtain ⟨lists,sound⟩ := inv.sound
  obtain ⟨after,keeps⟩ := resume_spec sound code
  exact ⟨⟨lists,after⟩,inv.proper.keeps real keeps⟩

theorem stops_inv (real : L.Real) (inv : Invariant L s) (runs : s.running = some p) (code : s.point p ≠ .yields)
    (told : Option Told) :
    ∃ t, notifyAndStop L s p told = .ok t ∧ Invariant L {t with point := update t.point p .yields} := by
  obtain ⟨lists,sound⟩ := inv.sound
  obtain ⟨t,lists',stopped,after,releases⟩ := notifyAndStop_leaves real sound (fun q same => by cases same) runs code told
    (fun _ _ _ _ _ => clear_none rfl _) (.inr ⟨rfl,rfl⟩)
  have point : t.point = s.point := by rw [releases.rest]
  have running : t.running = some p := by
    rw [releases.rest]
    exact runs
  refine ⟨t,stopped,⟨lists',?_⟩,(inv.proper.keeps real releases.keeps).same rfl rfl rfl⟩
  rw [State.view,point,running]
  exact after.same rfl rfl rfl rfl

theorem switches_inv (inv : Invariant L s) (runs : s.running = some p) (yields : s.point p = .yields) :
    Invariant L {s with running := none,point := update s.point p .code} := by
  obtain ⟨lists,sound⟩ := inv.sound
  refine ⟨⟨lists,sound.holds,sound.sleeping,sound.asleep,fun q => ?_,fun q now => (by cases now),fun q again => ?_⟩,
    inv.proper.same rfl rfl rfl⟩
  · rw [sound.ready q]
    refine and_congr_right fun _ => and_congr_right fun _ => ⟨fun _ now => (by cases now),fun _ now => ?_⟩
    cases runs.symm.trans now
    exact yields
  dsimp only [State.view] at again
  rcases eq_or_ne q p with rfl | ne
  · rw [update_self] at again
    cases again
  rw [update_of_ne ne] at again
  exact absurd (some.inj ((sound.yielding q again).symm.trans runs)) ne

theorem Sound.reuse (sound : Sound s lists s.view) (code : ∀ q, s.running = some q → s.point q ≠ .yields)
    (free : s.stat p ≠ .srun ∧ s.stat p ≠ .ssleep ∧ s.stat p ≠ .sstop) (stat : Slot n → Stat) (wchan : Slot n → Nat)
    (loaded : Slot n → Bool)
    (point : Slot n → Point) (others : ∀ q, q ≠ p → stat q = s.stat q ∧ wchan q = s.wchan q ∧
    loaded q = s.loaded q ∧ point q = s.point q)
    (awake : wchan p = 0) (out : loaded p = false) (stays : point p ≠ .yields) :
    Sound {s with stat,wchan,loaded,point} lists ⟨none,s.running,point⟩ := by
  have before : s.wchan p = 0 := sound.awakens rfl free.2
  have idle : s.running ≠ some p := fun runs => free.1 ((sound.current p runs).2 (code p runs)).1
  have same : ∀ q, wchan q = s.wchan q := by
    intro q
    rcases eq_or_ne q p with rfl | ne
    · rw [awake,before]
    · exact (others q ne).2.1
  refine ⟨sound.holds,fun k q => ?_,fun q set _ => ?_,fun q => ?_,fun q now => ?_,fun q yields => ?_⟩
  · dsimp only
    rw [same q]
    exact sound.sleeping k q
  · have ne : q ≠ p := by
      rintro rfl
      exact set awake
    dsimp only at set ⊢
    rw [(others q ne).1]
    exact sound.asleep q (by rw [← same q]; exact set) (by simp [State.view])
  · dsimp only
    rcases eq_or_ne q p with rfl | ne
    · rw [sound.ready q]
      simp [free.1,out]
    rw [(others q ne).1,(others q ne).2.2.1,(others q ne).2.2.2]
    exact sound.ready q
  · have ne : q ≠ p := by
      rintro rfl
      exact idle now
    dsimp only
    rw [(others q ne).1,(others q ne).2.2.1,(others q ne).2.2.2,same q]
    exact sound.current q now
  · dsimp only at yields
    have ne : q ≠ p := by
      rintro rfl
      exact stays yields
    rw [(others q ne).2.2.2] at yields
    exact sound.yielding q yields

section
variable (inv : Invariant L s)
include inv

theorem forks_inv (runs : s.running = some p) (code : s.point p ≠ .yields) {child : Slot n}
    (free : s.stat child = .null) (first : child = 1 → p = 0) :
    Invariant L {s with
      stat := update s.stat child .srun
      wchan := update s.wchan child 0
      loaded := update s.loaded child false
      sintr := update s.sintr child false
      timedOut := update s.timedOut child false
      point := update s.point child .code
      pptr := update s.pptr child p} := by
  obtain ⟨lists,sound⟩ := inv.sound
  obtain ⟨_,stat,awake,_⟩ := sound.runs runs code
  have ne : p ≠ child := by
    rintro rfl
    rw [stat] at free
    cases free
  have made := sound.reuse (p := child) (fun q now => by cases runs.symm.trans now; exact code) (by simp [free])
    (update s.stat child .srun) (update s.wchan child 0) (update s.loaded child false)
    (update s.point child .code)
    (fun q other => by simp [other]) (update_self _ _ _) (update_self _ _ _) (by simp)
  refine ⟨⟨lists,made.same rfl rfl rfl rfl⟩,?_,fun q here => ?_,?_,fun q other => ?_⟩
  · dsimp only
    rcases eq_or_ne 0 child with rfl | elsewhere
    · exact update_self _ _ _
    rw [update_of_ne elsewhere]
    exact inv.proper.swapper
  · dsimp only at here
    rcases eq_or_ne q child with rfl | elsewhere
    · rw [update_self] at here
      refine inv.proper.channel q ?_
      rw [← here]
      exact sound.awakens rfl (by simp [free])
    · rw [update_of_ne elsewhere] at here
      exact inv.proper.channel q here
  · dsimp only
    rcases eq_or_ne 1 child with rfl | elsewhere
    · rw [update_self]
      exact first rfl
    rw [update_of_ne elsewhere]
    exact inv.proper.init
  · dsimp only
    rcases eq_or_ne q child with rfl | elsewhere
    · rw [update_self]
      exact ne
    rw [update_of_ne elsewhere]
    exact inv.proper.parents q other

variable {q : Slot n}

theorem reaps_inv (runs : s.running = some p) (code : s.point p ≠ .yields) (dead : s.stat q = .szomb) : Invariant L {s with
      stat := update s.stat q .null
      wchan := update s.wchan q 0
      loaded := update s.loaded q false} := by
  obtain ⟨lists,sound⟩ := inv.sound
  have awake : s.wchan q = 0 := sound.awakens rfl (by simp [dead])
  have same : update s.wchan q 0 = s.wchan := by
    rw [← awake]
    exact update_eq_self _ _
  have made := sound.reuse (p := q) (fun r now => by cases runs.symm.trans now; exact code) (by simp [dead])
    (update s.stat q .null) (update s.wchan q 0) (update s.loaded q false) s.point
    (fun r other => by simp [other]) (update_self _ _ _) (update_self _ _ _) fun yields => by
      have now : s.running = some q := sound.yielding q yields
      cases runs.symm.trans now
      exact code yields
  exact ⟨⟨lists,made⟩,inv.proper.same rfl same rfl⟩

theorem exits_inv (runs : s.running = some p) (code : s.point p ≠ .yields) (user : p ≠ 0) : Invariant L {s with
      stat := update s.stat p .szomb
      pptr := fun q => if s.pptr q = p then 1 else s.pptr q
      running := none} := by
  obtain ⟨lists,sound⟩ := inv.sound
  obtain ⟨_,_,awake,_⟩ := sound.runs runs code
  have left := sound.leave (fun q same => (by cases same)) runs code .szomb (by simp) (fun set =>
    absurd awake set) (.inl ⟨rfl,code⟩)
  rw [show update s.view.point p (s.point p) = s.point from update_eq_self _ _] at left
  refine ⟨⟨lists,left.same rfl rfl rfl rfl⟩,inv.proper.swapper,inv.proper.channel,?_,fun q other => ?_⟩
  · dsimp only
    rw [inv.proper.init,if_neg user.symm]
  dsimp only
  split_ifs with orphan
  · rintro rfl
    rw [inv.proper.init] at orphan
    exact user orphan.symm
  · exact inv.proper.parents q other

theorem swapsOut_inv (runs : s.running = some 0) (user : q ≠ 0) (loaded : s.loaded q = true) :
    ∃ t, (if s.stat q = .srun then remrq {s with loaded := update s.loaded q false} q
        else .ok {s with loaded := update s.loaded q false}) = .ok t ∧ Invariant L t := by
  obtain ⟨lists,sound⟩ := inv.sound
  have idle : s.running ≠ some q := fun same => user (some.inj (same.symm.trans runs))
  -- what is left of the invariant once the process is off the run queue
  have rest : ∀ {queues lists'}, Holds queues lists' → (∀ k, lists' (.slpque k) = lists (.slpque k)) →
      (∀ r, r ∈ lists' .qs ↔ r ∈ lists .qs ∧ r ≠ q) →
      Sound {s with queues, loaded := update s.loaded q false} lists' s.view := by
    intro queues lists' holds asleep ready
    refine ⟨holds,fun k r => ?_,sound.asleep,fun r => ?_,fun r now => ?_,sound.yielding⟩
    · rw [asleep k]
      exact sound.sleeping k r
    · rw [ready r,sound.ready r]
      dsimp only
      rcases eq_or_ne r q with rfl | ne
      · simp
      · simp [ne]
    · have ne : r ≠ q := by
        rintro rfl
        exact idle now
      dsimp only
      rw [update_of_ne ne]
      exact sound.current r now
  by_cases stat : s.stat q = .srun
  · have present : q ∈ lists .qs := (sound.ready q).mpr ⟨stat,loaded,fun same => absurd same idle⟩
    obtain ⟨queues,removed,holds⟩ := remrq_spec sound present
    have again : remrq {s with loaded := update s.loaded q false} q =
      .ok {s with queues, loaded := update s.loaded q false} := by
      rw [remrq] at removed ⊢
      cases found : s.queues.delete q (n + 2) (.head .qs) with
      | none =>
        rw [found] at removed
        cases removed
      | some other =>
        rw [found] at removed
        cases removed
        rfl
    rw [if_pos stat,again]
    refine ⟨_,rfl,⟨_,rest holds (fun k => update_of_ne (by simp) _ _) fun r => ?_⟩,inv.proper.same rfl rfl rfl⟩
    rw [update_self,(sound.holds.once .qs).mem_erase_iff,and_comm]
  · rw [if_neg stat]
    refine ⟨_,rfl,⟨_,rest sound.holds (fun _ => rfl) fun r => ?_⟩,inv.proper.same rfl rfl rfl⟩
    refine ⟨fun inside => ⟨inside,?_⟩,And.left⟩
    rintro rfl
    exact stat ((sound.ready r).mp inside).1

theorem swapsIn_inv (stat : s.stat q = .srun) (out : s.loaded q = false) :
    ∃ t, setrq s q = .ok t ∧ Invariant L {t with loaded := update t.loaded q true} := by
  obtain ⟨lists,sound⟩ := inv.sound
  have idle : s.running ≠ some q := fun runs => absurd (out.symm.trans (sound.current q runs).1) Bool.false_ne_true
  have absent : q ∉ lists .qs := fun inside => absurd (out.symm.trans ((sound.ready q).mp inside).2.1) Bool.false_ne_true
  obtain ⟨done,holds⟩ := setrq_spec sound absent (sound.awakens rfl (by simp [stat]))
  refine ⟨_,done,⟨_,holds,fun k r => ?_,sound.asleep,fun r => ?_,fun r now => ?_,sound.yielding⟩,inv.proper.same rfl rfl rfl⟩
  · rw [update_of_ne (by simp)]
    exact sound.sleeping k r
  · rw [update_self,mem_cons,sound.ready r]
    dsimp only [State.view]
    rcases eq_or_ne r q with rfl | ne
    · simp [stat,idle]
    · simp [ne]
  · have ne : r ≠ q := by
      rintro rfl
      exact idle now
    dsimp only
    rw [update_of_ne ne]
    exact sound.current r now

end

theorem code_inv (real : L.Real) (inv : Invariant L s) (runs : s.running = some p) (at_code : s.point p = .code) (op : Op n)
    (fair : Fair L s op) : ∃ t, code L s p op = .ok t ∧ Invariant L t := by
  have stays : s.point p ≠ .yields := by simp [at_code]
  have idle : ∃ t, (.ok s : Except Fault (State n)) = .ok t ∧ Invariant L t := ⟨s,rfl,inv⟩
  cases op with
  | tsleep chan timo look =>
    rw [code]
    split_ifs with barred
    · exact idle
    push Not at barred
    exact tsleep_inv real inv runs stays barred.1 (fun same => absurd same barred.2.1) (fun set same =>
      absurd set (barred.2.2 same)) fair
  | goesOn look => exact idle
  | yields =>
    rw [code]
    split_ifs with swapper
    · exact idle
    obtain ⟨t,done,after⟩ := yields_inv inv runs at_code
    rw [done]
    exact ⟨_,rfl,after⟩
  | stops told =>
    rw [code]
    split_ifs with swapper
    · exact idle
    obtain ⟨t,done,after⟩ := stops_inv real inv runs stays told
    rw [done]
    exact ⟨_,rfl,after⟩
  | forks child =>
    rw [code]
    split_ifs with taken
    · exact idle
    push Not at taken
    exact wakeRunout_inv real (forks_inv inv runs stays taken.1 taken.2)
  | exits =>
    rw [code]
    split_ifs with barred
    · exact idle
    push Not at barred
    exact ⟨_,rfl,exits_inv inv runs stays barred.1⟩
  | reaps q =>
    rw [code]
    split_ifs with dead
    · exact ⟨_,rfl,reaps_inv inv runs stays dead⟩
    · exact idle
  | sleepsOnRunout =>
    rw [code]
    split_ifs with swapper
    · have before : Invariant L {s with runout := true} := by
        obtain ⟨lists,sound⟩ := inv.sound
        exact ⟨⟨lists,sound.same rfl rfl rfl rfl⟩,inv.proper.same rfl rfl rfl⟩
      exact tsleep_inv real before runs stays real.runout (fun _ => swapper) (by simp) trivial
    · exact idle
  | swapsOut q =>
    rw [code]
    split_ifs with chosen
    · obtain ⟨rfl,user,loaded,_⟩ := chosen
      exact swapsOut_inv inv runs user loaded
    · exact idle
  | swappedOut => exact wakeRunout_inv real inv
  | swapsIn q =>
    rw [code]
    split_ifs with chosen
    · obtain ⟨t,done,after⟩ := swapsIn_inv inv chosen.2.1 (by simpa using chosen.2.2)
      rw [done]
      exact ⟨_,rfl,after⟩
    · exact idle
  | swtch => exact idle
  | wakeup chan => exact idle
  | endtsleep p => exact idle
  | psignal p g told => exact idle
  | setpri p pri => exact idle

theorem acts_inv (real : L.Real) (inv : Invariant L s) (op : Op n) (fair : Fair L s op) :
    ∃ t, acts L s op = .ok t ∧ Invariant L t := by
  have idle : ∃ t, (.ok s : Except Fault (State n)) = .ok t ∧ Invariant L t := ⟨s,rfl,inv⟩
  rw [acts.eq_def]
  cases runs : s.running with
  | none =>
    cases op <;> first | exact swtch_inv inv runs | exact idle
  | some p =>
    dsimp only
    cases point : s.point p with
    | code => exact code_inv real inv runs point op fair
    | cursig =>
      cases op <;> first | exact cursig_inv real inv runs (by simp [point]) _ | exact idle
    | slept =>
      cases op <;> first | exact idle | exact ⟨_,rfl,resume_inv real inv (by simp [point])⟩
    | yields =>
      cases op <;> first | exact idle | exact ⟨_,rfl,switches_inv inv runs point⟩

theorem step_inv (real : L.Real) (inv : Invariant L s) (op : Op n) (fair : Fair L s op) :
    ∃ t, step L s op = .ok t ∧ Invariant L t := by
  have idle : ∃ t, (.ok s : Except Fault (State n)) = .ok t ∧ Invariant L t := ⟨s,rfl,inv⟩
  cases op with
  | wakeup chan =>
    rw [step]
    split_ifs with zero
    · exact idle
    obtain ⟨t,woke,after,_⟩ := wakeup_inv real inv zero
    exact ⟨t,woke,after⟩
  | endtsleep p =>
    rw [step]
    split_ifs with callout
    · exact endtsleep_inv real inv p
    · exact idle
  | psignal p g told => exact psignal_inv real inv p g told
  | setpri p pri =>
    obtain ⟨lists,sound⟩ := inv.sound
    exact ⟨_,rfl,⟨lists,sound.same rfl rfl rfl rfl⟩,inv.proper.same rfl rfl rfl⟩
  | tsleep chan timo look => exact acts_inv real inv _ fair
  | goesOn look => exact acts_inv real inv _ fair
  | yields => exact acts_inv real inv _ fair
  | stops told => exact acts_inv real inv _ fair
  | forks child => exact acts_inv real inv _ fair
  | exits => exact acts_inv real inv _ fair
  | reaps q => exact acts_inv real inv _ fair
  | sleepsOnRunout => exact acts_inv real inv _ fair
  | swapsOut q => exact acts_inv real inv _ fair
  | swappedOut => exact acts_inv real inv _ fair
  | swapsIn q => exact acts_inv real inv _ fair
  | swtch => exact acts_inv real inv _ fair

theorem start_inv (real : L.Real) : Invariant L (start n) := by
  refine ⟨⟨fun _ => [],⟨fun _ => rfl,fun _ => nodup_nil,fun _ _ _ inside => absurd inside not_mem_nil⟩,
    fun k p => ?_,fun p set => absurd rfl set,fun p => ?_,fun p runs =>
    ?_,fun p yields => by cases yields⟩,rfl,fun q here => ?_,rfl,
    fun q other => other.symm⟩
  · simp [start]
  · rcases eq_or_ne p 0 with rfl | other
    · simp [start,State.view]
    · simp [start,other]
  · cases some.inj runs
    exact ⟨rfl,fun _ => ⟨rfl,.inr rfl⟩⟩
  · exact absurd here.symm real.runout

/-- Every process is on the queue that its channel and its state call for, once, and on
no other. -/
structure Queued (s : State n) : Prop where
  ends : ∀ q, Forward s.queues.next (s.queues.head q) (s.listed q)
  asleep : ∀ k p, (s.listed (.slpque k)).count p = if s.wchan p ≠ 0 ∧ hash (s.wchan p) = k then 1 else 0
  apart : ∀ j k p, p ∈ s.listed j → p ∈ s.listed k → j = k
  once : ∀ p, (s.listed .qs).count p ≤ 1
  ready : ∀ p, s.stat p = .srun → s.loaded p = true → s.running ≠ some p → (s.listed .qs).count p = 1

theorem Invariant.queued (inv : Invariant L s) : Queued s := by
  obtain ⟨lists,sound⟩ := inv.sound
  have same : s.listed = lists := funext sound.listed
  rw [← same] at sound
  refine ⟨sound.holds.forward,fun k p => ?_,sound.holds.apart,fun p => ?_,fun p stat loaded idle => ?_⟩
  · split_ifs with here
    · exact count_eq_one_of_mem (sound.holds.once _) ((sound.sleeping k p).mpr here)
    · exact count_eq_zero.mpr fun inside => here ((sound.sleeping k p).mp inside)
  · exact nodup_iff_count_le_one.mp (sound.holds.once .qs) p
  · exact count_eq_one_of_mem (sound.holds.once _) ((sound.ready p).mpr ⟨stat,loaded,fun runs => absurd runs idle⟩)

/-- In every run in which no process stops in `tsleep` in front of the swapper, no panic is reached, every
process is on its queue in every state, and `wakeup` wakes those that wait on its channel and, for a process
that is swapped out, the swapper. -/
theorem queues_kept (L : Layout n) (real : L.Real) (ops : List (Op n)) (fair : Along (step L) (Fair L) (start n) ops) :
    ∃ s, run (step L) (start n) ops = .ok s ∧ Queued s ∧ ∀ chan, chan ≠ 0 → ∃ t, wakeup L s chan = .ok t ∧ Wakes L s t chan := by
  obtain ⟨s,ended,inv⟩ := run_total (fun s op (inv : Invariant L s) fair => step_inv real inv op fair) ops
    (start n) (start_inv real) fair
  refine ⟨s,ended,inv.queued,fun chan nonzero => ?_⟩
  obtain ⟨t,woke,_,wakes⟩ := wakeup_inv real inv nonzero
  exact ⟨t,woke,wakes⟩

def someOps : List (Op 1) := [.forks 1,.swapsIn 1,.sleepsOnRunout,.swtch,.forks 2,
    .tsleep 64 false (some .nothing),.swtch,.goesOn .nothing,
    .swapsOut 1,.swappedOut,.swapsIn 2,.sleepsOnRunout,.swtch]

def someLayout : Layout 1 := ⟨fun p => 4096 + 64 * p,100,200⟩

theorem someLayout_real : someLayout.Real := ⟨fun p => by simp [someLayout],by decide,by decide⟩

def Plain : Op 1 → Bool
  | .tsleep chan _ (some (.stops (some _))) => hash chan ≠ hash someLayout.runout
  | _ => true

theorem Plain.fair (s : State 1) (op : Op 1) (plain : Plain op = true) : Fair someLayout s op := by
  rw [Fair.eq_def]
  split
  · rintro p _ ⟨collide,_⟩
    exact absurd collide (by simpa [Plain] using plain)
  · trivial

theorem queues_kept_someOps : someLayout.Real ∧
    Along (step someLayout) (Fair someLayout) (start 1) (someOps ++ [.tsleep 64 false (some (.stops (some ⟨.caught,false⟩)))]) ∧
    ∃ s, run (step someLayout) (start 1)
    (someOps ++ [.tsleep 64 false (some (.stops (some ⟨.caught,false⟩)))]) = .ok s ∧ Queued s ∧
      ∀ chan, chan ≠ 0 → ∃ t, wakeup someLayout s chan = .ok t ∧ Wakes someLayout s t chan := by
  have fair : Along (step someLayout) (Fair someLayout) (start 1)
    (someOps ++ [.tsleep 64 false (some (.stops (some ⟨.caught,false⟩)))]) :=
    (Along.of_forall _ (by decide : ∀ op ∈ someOps ++ [.tsleep 64 false (some (.stops (some ⟨.caught,false⟩)))],
    Plain op = true)).imp Plain.fair
  exact ⟨someLayout_real,fair,queues_kept someLayout someLayout_real _ fair⟩

/-- The child stops on its way to sleep on a channel of the queue of `runout`: its parent
is to run and has to be swapped in, so the swapper is woken, on whose queue the child is
not yet asleep. -/
theorem stop_in_tsleep_panics : ¬ ∀ ops, ∃ s, run (step someLayout) (start 1) ops = .ok s := by
  intro every
  obtain ⟨s,ran⟩ := every (someOps ++ [.tsleep 96 false (some (.stops (some ⟨.caught,false⟩)))])
  have panics : run (step someLayout) (start 1) (someOps ++ [.tsleep 96 false (some (.stops (some ⟨.caught,false⟩)))]) =
      .error (.panic "wakeup") := of_fault (by decide)
  cases ran.symm.trans panics

end Retrobsd.SleepQueues
