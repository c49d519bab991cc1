import Retrobsd.SleepQueueState

/-! The functions that put processes to sleep, stop them and make them run keep the
queues sound. -/
namespace Retrobsd.SleepQueues
open Function

variable {n : Nat} {L : Layout n} {s t u : State n} {lists : Queue → List (Slot n)} {x : View n} {p : Slot n}

structure Layout.Real (L : Layout n) : Prop where
  proc : ∀ p, L.proc p ≠ 0
  runout : L.runout ≠ 0
  runin : L.runin ≠ 0

theorem Sound.same (sound : Sound s lists x) (queues : t.queues = s.queues) (wchan : t.wchan = s.wchan) (stat : t.stat = s.stat)
    (loaded : t.loaded = s.loaded) : Sound t lists x := by
  refine ⟨?_,?_,?_,?_,?_,sound.yielding⟩
  · rw [queues]
    exact sound.holds
  · rw [wchan]
    exact sound.sleeping
  · rw [wchan,stat]
    exact sound.asleep
  · rw [stat,loaded]
    exact sound.ready
  · rw [wchan,stat,loaded]
    exact sound.current

/-- No process is put to sleep, and nothing but the queues, the channels, the states and
`runout` changes. -/
structure Releases (s t : State n) : Prop where
  rest : t = {s with queues := t.queues,wchan := t.wchan,stat := t.stat,runout := t.runout}
  less : ∀ q, t.wchan q ≠ 0 → t.wchan q = s.wchan q

theorem Releases.refl (s : State n) : Releases s s := ⟨rfl,fun _ _ => rfl⟩

theorem Releases.trans (first : Releases s t) (second : Releases t u) : Releases s u := by
  refine ⟨?_,fun q set => ?_⟩
  · rw [second.rest,first.rest]
  have middle := second.less q set
  rw [middle]
  exact first.less q (middle ▸ set)

theorem Wakes.releases {chan : Nat} (wakes : Wakes L s t chan) : Releases s t := by
  refine ⟨wakes.rest,fun q set => ?_⟩
  by_cases woken : Woken L s chan q
  · exact absurd (wakes.woken q woken).1 set
  · exact (wakes.others q woken).1

/-- Nothing happens to the processes other than `p` that do not wait on `runout`. -/
def Apart (L : Layout n) (s t : State n) (p : Slot n) : Prop :=
    ∀ q, q ≠ p → s.wchan q ≠ L.runout → t.wchan q = s.wchan q ∧ t.stat q = s.stat q

theorem Apart.refl (s : State n) (p : Slot n) : Apart L s s p := fun _ _ _ => ⟨rfl,rfl⟩

theorem wakeRunout_spec (real : L.Real) (sound : Sound s lists x) (clear : s.runout = true → Clear L s x L.runout) :
    ∃ t lists', wakeRunout L s = .ok t ∧ Sound t lists' x ∧ Releases s t ∧ Apart L s t p := by
  rw [wakeRunout]
  by_cases set : s.runout = true
  · rw [if_pos set]
    have quiet : Clear L {s with runout := false} x L.runout := fun q same asleep =>
      ⟨(clear set q same asleep).1,fun up => absurd up Bool.false_ne_true⟩
    obtain ⟨t,lists',woke,after,wakes⟩ :=
      wakeup_spec real.runout (s := {s with runout := false}) (sound.same rfl rfl rfl rfl) quiet real.runout
    have releases := wakes.releases
    refine ⟨t,lists',woke,after,⟨?_,releases.less⟩,fun q _ elsewhere => wakes.others q ?_⟩
    · rw [releases.rest]
    rintro (here | ⟨_,here⟩)
    · exact elsewhere here
    · exact elsewhere here
  · rw [if_neg set]
    exact ⟨s,lists,rfl,sound,Releases.refl s,Apart.refl s p⟩

theorem setrun_eq (off : s.stat p = .ssleep ∨ s.stat p = .sstop) : setrun L s p = match unsleep s p with
      | .error e => .error e
      | .ok s => match runnable s p with
        | .error e => .error e
        | .ok s => if s.loaded p then .ok s else wakeRunout L s := by
  rw [setrun]
  rcases off with same | same <;> rewrite [same] <;> rfl

theorem setrun_spec (real : L.Real) (sound : Sound s lists x) (off : s.stat p = .ssleep ∨ s.stat p = .sstop)
    (clear : s.loaded p = false → s.runout = true → Clear L s x L.runout) :
    ∃ t lists', setrun L s p = .ok t ∧ Sound t lists' x ∧ Releases s t ∧ Apart L s t p := by
  have other : s.stat p ≠ .srun := by
    rcases off with same | same <;> simp [same]
  obtain ⟨queues,lists',unslept,awake⟩ := unsleep_sound sound p
  obtain ⟨queues',lists'',ran,made,_⟩ := runnable_sound awake (update_self _ _ _) other fun now => awake.yields other now
  have released : Releases s {s with queues := queues',wchan := update s.wchan p 0,stat := update s.stat p .srun} := by
    refine ⟨rfl,fun q set => update_of_ne ?_ _ _⟩
    rintro rfl
    exact set (update_self _ _ _)
  have apart : Apart L s {s with queues := queues',wchan := update s.wchan p 0,stat := update s.stat p .srun} p :=
    fun q ne _ => ⟨update_of_ne ne _ _,update_of_ne ne _ _⟩
  rw [setrun_eq off,unslept]
  dsimp only
  rw [ran]
  dsimp only
  by_cases loaded : s.loaded p = true
  · rw [if_pos loaded]
    exact ⟨_,lists'',rfl,made,released,apart⟩
  rw [if_neg loaded]
  obtain ⟨t,final,woke,after,releases,others⟩ := wakeRunout_spec (p := p) real made fun up =>
    (clear (by simpa using loaded) up).less released.less id (.inl rfl)
  refine ⟨t,final,woke,after,released.trans releases,fun q ne elsewhere => ?_⟩
  obtain ⟨chan,stat⟩ := apart q ne elsewhere
  rw [← chan,← stat]
  exact others q ne (by rw [chan]; exact elsewhere)

theorem Sound.restat (sound : Sound s lists x) (off : s.stat p ≠ .srun) {stat : Stat} (stays : stat = .ssleep ∨ stat = .sstop) :
    Sound {s with stat := update s.stat p stat} lists x := by
  have still : stat ≠ .srun := by rcases stays with rfl | rfl <;> simp
  refine ⟨sound.holds,sound.sleeping,fun q set other => ?_,fun q => ?_,fun q runs => ?_,sound.yielding⟩
  · dsimp only
    rcases eq_or_ne q p with rfl | ne
    · rw [update_self]
      exact stays
    rw [update_of_ne ne]
    exact sound.asleep q set other
  · dsimp only
    rcases eq_or_ne q p with rfl | ne
    · rw [update_self,sound.ready q]
      simp [off,still]
    rw [update_of_ne ne]
    exact sound.ready q
  · refine ⟨(sound.current q runs).1,fun code => ?_⟩
    have own := (sound.current q runs).2 code
    have ne : q ≠ p := by
      rintro rfl
      exact off own.1
    dsimp only
    rw [update_of_ne ne]
    exact own

theorem psignalWith_spec (real : L.Real) (sound : Sound s lists x) (stopped : State n → Except Fault (State n)) (g : Signal)
    (clear : g.runs s p = true → s.loaded p = false → s.runout = true → Clear L s x L.runout)
    (stops : s.stat p = .ssleep → s.sintr p = true → g.stops = true → ∃ t lists', stopped s = .ok t ∧
    Sound t lists' x ∧ Releases s t) :
    ∃ t lists', psignalWith L stopped s p g = .ok t ∧ Sound t lists' x ∧ Releases s t ∧ (g.stops = false → Apart L s t p) := by
  have idle : ∃ t lists', (.ok s : Except Fault (State n)) = .ok t ∧ Sound t lists' x ∧ Releases s t ∧
    (g.stops = false → Apart L s t p) :=
    ⟨s,lists,rfl,sound,Releases.refl s,fun _ => Apart.refl s p⟩
  rw [psignalWith]
  by_cases held : g.action = .hold ∧ (¬ g.cont = true ∨ s.stat p ≠ .sstop)
  · rw [if_pos held]
    exact idle
  rw [if_neg held]
  by_cases runs : g.runs s p = true
  · have off : s.stat p = .ssleep ∨ s.stat p = .sstop := by
      rw [Signal.runs] at runs
      cases stat : s.stat p <;> simp_all
    rw [if_pos runs]
    obtain ⟨t,lists',ran,after,releases,apart⟩ := setrun_spec real sound off (clear runs)
    exact ⟨t,lists',ran,after,releases,fun _ => apart⟩
  rw [if_neg runs]
  cases stat : s.stat p with
  | null => exact idle
  | srun => exact idle
  | sidl => exact idle
  | szomb => exact idle
  | ssleep =>
    dsimp only
    split_ifs with now
    · obtain ⟨t,lists',ended,after,releases⟩ := stops stat now.1 now.2.2.1
      exact ⟨t,lists',ended,after,releases,fun mild => absurd (mild.symm.trans now.2.2.1) Bool.false_ne_true⟩
    · exact idle
  | sstop =>
    have off : s.stat p ≠ .srun := by simp [stat]
    dsimp only
    by_cases traced : g.traced = true
    · rw [if_pos traced]
      exact idle
    rw [if_neg traced]
    by_cases cont : g.cont = true
    · rw [if_pos cont]
      exact ⟨_,lists,rfl,sound.restat off (.inl rfl),⟨rfl,fun _ _ => rfl⟩,fun _ q ne _ => ⟨rfl,update_of_ne ne _ _⟩⟩
    rw [if_neg cont]
    by_cases halt : g.stops = true
    · rw [if_pos halt]
      exact idle
    rw [if_neg halt]
    by_cases light : s.wchan p ≠ 0 ∧ s.sintr p = true
    · rw [if_pos light]
      obtain ⟨queues,lists',unslept,awake⟩ := unsleep_sound sound p
      refine ⟨_,lists',unslept,awake,⟨rfl,fun q set => update_of_ne ?_ _ _⟩,fun _ q ne _ => ⟨update_of_ne ne _ _,rfl⟩⟩
      rintro rfl
      exact set (update_self _ _ _)
    · rw [if_neg light]
      exact idle

theorem notify_spec (real : L.Real) (sound : Sound s lists x) (told : Option Told)
    (clear : ∀ report, told = some report → (sigchld report.action report.traced).runs s (s.pptr p) = true →
      s.loaded (s.pptr p) = false → s.runout = true → Clear L s x L.runout) :
    ∃ t lists', notify L s p told = .ok t ∧ Sound t lists' x ∧ Releases s t ∧ Apart L s t (s.pptr p) := by
  cases told with
  | none => exact ⟨s,lists,rfl,sound,Releases.refl s,Apart.refl s _⟩
  | some report =>
    obtain ⟨t,lists',told,after,releases,apart⟩ := psignalWith_spec real sound .ok _ (clear report rfl)
      fun _ _ _ => ⟨s,lists,rfl,sound,Releases.refl s⟩
    exact ⟨t,lists',told,after,releases,apart rfl⟩

theorem stop_spec (real : L.Real) (sound : Sound {s with stat := update s.stat p .sstop} lists x) (none : x.exempt = none) :
    ∃ t lists', stop L s p = .ok t ∧ Sound t lists' x ∧ Releases s t := by
  obtain ⟨t,lists',woke,after,wakes⟩ := wakeup_spec real.runout sound (clear_none none _) (real.proc (s.pptr p))
  refine ⟨t,lists',woke,after,?_,wakes.releases.less⟩
  rw [wakes.releases.rest]

variable {running : Option (Slot n)} {point : Point}

theorem Sound.leave (sound : Sound s lists x) (own : ∀ q, x.exempt = some q → q = p) (runs : x.running = some p)
    (code : x.point p ≠ .yields) (stat : Stat) (off : stat ≠ .srun) (stays : s.wchan p ≠ 0 → stat = .ssleep ∨ stat = .sstop)
    (next : running = none ∧ point ≠ .yields ∨ running = some p ∧ point = .yields) :
    Sound {s with stat := update s.stat p stat} lists ⟨none,running,update x.point p point⟩ := by
  have alone : ∀ q, running = some q → q = p ∧ point = .yields := by
    rintro q rfl
    rcases next with ⟨gone,_⟩ | ⟨same,yields⟩
    · cases gone
    cases same
    exact ⟨rfl,yields⟩
  refine ⟨sound.holds,sound.sleeping,fun q set _ => ?_,fun q => ?_,fun q now => ?_,fun q yields => ?_⟩
  · dsimp only
    rcases eq_or_ne q p with rfl | ne
    · rw [update_self]
      exact stays set
    rw [update_of_ne ne]
    exact sound.asleep q set fun exempt => ne (own q exempt)
  · dsimp only
    rcases eq_or_ne q p with rfl | ne
    · rw [update_self,update_self,sound.ready q]
      simp [runs,code,off]
    rw [update_of_ne ne,update_of_ne ne,sound.ready q]
    have before : x.running ≠ some q := fun same => ne (Option.some.inj (same.symm.trans runs))
    have after : running ≠ some q := fun same => ne (alone q same).1
    simp [before,after]
  · obtain ⟨rfl,yields⟩ := alone q now
    refine ⟨(sound.current q runs).1,fun other => absurd ?_ other⟩
    exact (update_self _ _ _).trans yields
  · rcases eq_or_ne q p with rfl | ne
    · dsimp only at yields
      rw [update_self] at yields
      rcases next with ⟨_,other⟩ | ⟨same,_⟩
      · exact absurd yields other
      · exact same
    · dsimp only at yields
      rw [update_of_ne ne] at yields
      exact absurd (Option.some.inj ((sound.yielding q yields).symm.trans runs)) ne

theorem notifyAndStop_leaves (real : L.Real) (sound : Sound s lists x) (own : ∀ q, x.exempt = some q → q = p)
    (runs : x.running = some p)
    (code : x.point p ≠ .yields) (told : Option Told)
    (clear : ∀ report, told = some report → (sigchld report.action report.traced).runs s (s.pptr p) = true →
      s.loaded (s.pptr p) = false → s.runout = true → Clear L s x L.runout)
    (next : running = none ∧ point ≠ .yields ∨ running = some p ∧ point = .yields) :
    ∃ t lists', notifyAndStop L s p told = .ok t ∧ Sound t lists' ⟨none,running,update x.point p point⟩ ∧ Releases s t := by
  obtain ⟨r,between,notified,heard,first,_⟩ := notify_spec real sound told clear
  have left := heard.leave own runs code .sstop (by simp) (fun _ => .inr rfl) next
  obtain ⟨t,lists',stopped,after,second⟩ := stop_spec real left rfl
  refine ⟨t,lists',?_,after,first.trans second⟩
  rw [notifyAndStop,notified]
  exact stopped

theorem notifyAndStop_stops (real : L.Real) (sound : Sound s lists x) (regular : x.exempt = none) (asleep : s.stat p = .ssleep)
    (child : s.pptr p ≠ p) (elsewhere : s.wchan p ≠ L.runout) (told : Option Told) :
    ∃ t lists', notifyAndStop L s p told = .ok t ∧ Sound t lists' x ∧ Releases s t := by
  obtain ⟨r,between,notified,heard,first,apart⟩ := notify_spec real sound told fun _ _ _ _ _ => clear_none regular _
  have still : r.stat p ≠ .srun := by
    rw [(apart p child.symm elsewhere).2,asleep]
    simp
  obtain ⟨t,lists',stopped,after,second⟩ := stop_spec real (heard.restat still (.inr rfl)) regular
  refine ⟨t,lists',?_,after,first.trans second⟩
  rw [notifyAndStop,notified]
  exact stopped

/-- The parents stay, no process becomes interruptible and none is put to sleep. -/
structure Keeps (s t : State n) : Prop where
  pptr : t.pptr = s.pptr
  sintr : ∀ q, t.sintr q = true → s.sintr q = true
  less : ∀ q, t.wchan q ≠ 0 → t.wchan q = s.wchan q

theorem Releases.keeps (releases : Releases s t) : Keeps s t := by
  refine ⟨?_,fun q set => ?_,releases.less⟩
  · rw [releases.rest]
  rw [releases.rest] at set
  exact set

variable {exempt : Option (Slot n)}

theorem sleeps_spec (real : L.Real) (sound : Sound s lists ⟨exempt,s.running,s.point⟩)
    (own : ∀ q, exempt = some q → q = p) (runs : s.running = some p) (code : s.point p ≠ .yields) :
    ∃ t lists', sleeps L s p = .ok t ∧ Sound t lists' ⟨none,t.running,t.point⟩ ∧ Keeps s t := by
  have left := sound.leave own runs code .ssleep (by simp) (fun _ => .inl rfl)
    (.inl ⟨rfl,by simp⟩ : (none : Option (Slot n)) = none ∧ Point.slept ≠ .yields ∨ _)
  obtain ⟨u,lists',ended,after,releases⟩ : ∃ u lists',(if p ≠ 0 then wakeup L {s with stat := update s.stat p .ssleep} L.runin
        else .ok {s with stat := update s.stat p .ssleep}) = .ok u ∧
      Sound u lists' ⟨none,none,update s.point p .slept⟩ ∧ Releases {s with stat := update s.stat p .ssleep} u := by
    split_ifs with other
    · obtain ⟨u,lists',woke,after,wakes⟩ := wakeup_spec real.runout left (clear_none rfl _) real.runin
      exact ⟨u,lists',woke,after,wakes.releases⟩
    · exact ⟨_,lists,rfl,left,Releases.refl _⟩
  have point : u.point = s.point := by rw [releases.rest]
  refine ⟨{u with running := none,point := update u.point p .slept},lists',?_,?_,releases.keeps.pptr,
    releases.keeps.sintr,releases.less⟩
  · rw [sleeps,ended]
  rw [point]
  exact after.same rfl rfl rfl rfl

theorem Sound.goesOn (sound : Sound s lists x) (code : x.point p ≠ .yields) (stays : point ≠ .yields) :
    Sound s lists {x with point := update x.point p point} := by
  have same : ∀ q, update x.point p point q = .yields ↔ x.point q = .yields := by
    intro q
    rcases eq_or_ne q p with rfl | ne
    · simp [code,stays]
    · rw [update_of_ne ne]
  refine ⟨sound.holds,sound.sleeping,sound.asleep,fun q => ?_,fun q runs => ?_,fun q yields =>
    sound.yielding q ((same q).mp yields)⟩
  · rw [sound.ready q]
    dsimp only
    rw [same q]
  · refine ⟨(sound.current q runs).1,fun other => (sound.current q runs).2 fun yields => other ?_⟩
    exact (same q).mpr yields

theorem resume_spec (sound : Sound s lists ⟨none,s.running,s.point⟩) (code : s.point p ≠ .yields) :
    Sound (resume s p) lists ⟨none,(resume s p).running,(resume s p).point⟩ ∧ Keeps s (resume s p) := by
  refine ⟨(sound.goesOn code (by simp)).same rfl rfl rfl rfl,rfl,fun q set => ?_,fun _ _ => rfl⟩
  rcases eq_or_ne q p with rfl | ne
  · rw [show (resume s q).sintr q = false from update_self _ _ _] at set
    cases set
  · rwa [show (resume s p).sintr q = s.sintr q from update_of_ne ne _ _] at set

theorem cursig_spec (real : L.Real) (sound : Sound s lists ⟨exempt,s.running,s.point⟩)
    (own : ∀ q, exempt = some q → q = p) (runs : s.running = some p) (code : s.point p ≠ .yields) (look : Look)
    (clear : ∀ report, look = .stops (some report) → (sigchld report.action report.traced).runs s (s.pptr p) = true →
      s.loaded (s.pptr p) = false → s.runout = true → Clear L s ⟨exempt,s.running,s.point⟩ L.runout) :
    ∃ t lists', cursig L s p look = .ok t ∧ Sound t lists' ⟨none,t.running,t.point⟩ ∧ Keeps s t := by
  -- the process off its queue is an ordinary one
  have ordinary : ∀ {r : State n} {lists : Queue → List (Slot n)}, Sound r lists ⟨exempt,s.running,s.point⟩ → r.wchan p = 0 →
      Sound r lists ⟨none,s.running,s.point⟩ := by
    intro r lists heard awake
    cases exempt with
    | none => exact heard
    | some q =>
      cases own q rfl
      exact heard.settle rfl awake
  cases look with
  | nothing =>
    rw [cursig]
    split_ifs with awake
    · obtain ⟨after,keeps⟩ := resume_spec (ordinary sound awake) code
      exact ⟨_,lists,rfl,after,keeps⟩
    · exact sleeps_spec real sound own runs code
  | signal =>
    have stat := ((sound.current p runs).2 code).1
    obtain ⟨queues,lists',unslept,heard⟩ := unsleep_sound sound p
    have both : (if s.wchan p ≠ 0 then unsleep s p else .ok s) = unsleep s p := by
      split_ifs with asleep
      · rfl
      · rw [unsleep,if_pos (not_not.mp asleep)]
    have same : update s.stat p .srun = s.stat := by
      rw [← stat]
      exact update_eq_self _ _
    rw [cursig,both,unslept]
    dsimp only
    rw [same]
    obtain ⟨after,keeps⟩ := resume_spec (s := {s with queues, wchan := update s.wchan p 0})
      (ordinary heard (update_self _ _ _)) code
    refine ⟨_,lists',rfl,after,keeps.pptr,keeps.sintr,fun q set => update_of_ne ?_ _ _⟩
    rintro rfl
    exact set (update_self _ _ _)
  | stops told =>
    obtain ⟨u,lists',stopped,after,releases⟩ := notifyAndStop_leaves real sound own runs code told
      (fun report same => clear report (congrArg Look.stops same))
      (.inl ⟨rfl,by simp⟩ : (none : Option (Slot n)) = none ∧ Point.cursig ≠ .yields ∨ _)
    have point : u.point = s.point := by rw [releases.rest]
    refine ⟨{u with running := none,point := update u.point p .cursig},lists',?_,?_,releases.keeps.pptr,
      releases.keeps.sintr,releases.less⟩
    · rw [cursig,stopped]
    rw [point]
    exact after.same rfl rfl rfl rfl

end Retrobsd.SleepQueues
