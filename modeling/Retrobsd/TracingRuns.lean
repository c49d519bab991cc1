import Retrobsd.Lib.Run
import Retrobsd.TracingBlock

/-! The request block is handed from a tracer to the child that it names and back, whatever
comes in between. -/
namespace Retrobsd.Tracing
open Function
open Signals (Stat sigmask prop saStop sighup sigkill sigcont sigchld)
open Lib.Run

variable {n : Nat} {cfg : Config} {k : Kernel n} {p : Fin n} {caller : Caller}

structure Halted (q r : Proc n) : Prop where
  place : r.place = q.place
  traced : r.pTraced = q.pTraced
  pid : r.pPid = q.pPid
  ppid : r.pPpid = q.pPpid
  pptr : r.pPptr = q.pPptr
  stat : r.pStat = .stop
  wchan : r.pWchan = q.pWchan ∨ r.pWchan = none
  sintr : r.pSintr = q.pSintr

theorem stop_self (k : Kernel n) (p : Fin n) : Halted (k.procs p) ((stop k p).procs p) := by
  change Halted (k.procs p) (woken _ ((k.put p {k.procs p with pStat := .stop,pWaited := false}).procs p))
  rw [put_self,woken]
  split
  · exact ⟨rfl,rfl,rfl,rfl,rfl,rfl,.inr rfl,rfl⟩
  · exact ⟨rfl,rfl,rfl,rfl,rfl,rfl,.inl rfl,rfl⟩

theorem stop_other {c : Fin n} (fit : Fit (k.procs c)) (other : c ≠ p) : Calm (k.procs c) ((stop k p).procs c) := by
  change Calm (k.procs c) (woken _ ((k.put p {k.procs p with pStat := .stop,pWaited := false}).procs c))
  rw [put_other k _ other]
  exact woken_calm fit _

section
variable (fit : ∀ p, Fit (k.procs p)) (place : (k.procs p).place = .issignal caller) (runs : (k.procs p).pStat = .run)

include fit place

theorem caught_quiet {q : Proc n} (kin : Kin (k.procs p) q) (outside : ¬ q.place.inside) (stat : q.pStat ≠ .stop)
    (wchan : q.pWchan = (k.procs p).pWchan ∨ q.pWchan = none) (sintr : q.pSintr = true → (k.procs p).pSintr = true ∧
      (caller = .before → q.place.catching)) : Quiet k (k.put p q) := by
  refine quiet_put fit (calm_outside kin ?_ outside (fun stopped => absurd stopped stat) (fun ipc => ?_) fun catches => ?_)
  · rw [place]
    exact id
  · rcases wchan with same | none
    · have waits := (fit p).chan (same.symm.trans ipc)
      rw [place] at waits
      exact waits
    · rw [none] at ipc
      cases ipc
  · obtain ⟨before,there⟩ := sintr catches
    exact there ((fit p).caller (.inl place) before)

include runs

theorem finish_quiet (signal : Bool) : Quiet k (finish k p caller signal) := by
  have running : (k.procs p).pStat ≠ .stop := by rw [runs]; decide
  cases caller with
  | before =>
    simp only [finish]
    split_ifs with signalled awake
    · exact caught_quiet fit place ⟨rfl,rfl,rfl,by simp [runs],by simp [runs]⟩ id (by simp) (.inr rfl) fun bad => (nomatch bad)
    · exact caught_quiet fit place ⟨rfl,rfl,rfl,Iff.rfl,Iff.rfl⟩ id running (.inl rfl) fun bad => (nomatch bad)
    exact caught_quiet fit place ⟨rfl,rfl,rfl,by simp [runs],by simp [runs]⟩ id (by simp) (.inl rfl) fun catches =>
      ⟨catches,fun _ => .inl rfl⟩
  | _ =>
    exact caught_quiet fit place ⟨rfl,rfl,rfl,Iff.rfl,Iff.rfl⟩ id running (.inl rfl) fun catches =>
      ⟨catches,fun bad => (nomatch bad)⟩

theorem act_quiet (sig : Int) : Quiet k (act cfg k p caller sig) := by
  have running : (k.procs p).pStat ≠ .stop := by rw [runs]; decide
  have taken : Quiet k (k.put p {(k.procs p).take (maskOf sig) with place := .issignal caller}) :=
    caught_quiet fit place ⟨rfl,rfl,rfl,Iff.rfl,Iff.rfl⟩ id running (.inl rfl) fun catches =>
    ⟨catches,fun before => by rw [before]; trivial⟩
  rw [act]
  dsimp only
  split_ifs with dfl low stops ignored
  · exact taken
  · exact taken
  · push Not at ignored
    have set : Quiet k (k.put p {k.procs p with pPtracesig := sig,place := .stopped caller (maskOf sig)}) :=
      caught_quiet fit place ⟨rfl,rfl,rfl,Iff.rfl,Iff.rfl⟩ id running (.inl rfl) fun catches =>
      ⟨catches,fun before => by rw [before]; trivial⟩
    have told := set.trans (notify_quiet set.fit (k.procs p).pPptr)
    have same := notify_poked (k.put p {k.procs p with pPtracesig := sig,place := .stopped caller (maskOf sig)})
      (k.procs p).pPptr p
    rw [put_self] at same
    refine told.trans (stop_quiet told.fit ?_ ?_ ?_)
    · rw [same.place]
      exact id
    · rw [same.traced]
      simpa using ignored.1
    · have kin := (told.procs p).toKin
      rw [Ne,Ne,kin.free,kin.zomb,runs]
      decide
  · exact taken
  · exact finish_quiet fit place runs true
  · exact taken
  · exact finish_quiet fit place runs true

theorem released_quiet : Quiet k (released cfg k p caller) := by
  have running : (k.procs p).pStat ≠ .stop := by rw [runs]; decide
  have keeps : (k.procs p).pSintr = true → (k.procs p).pSintr = true ∧
    (caller = .before → (Place.issignal caller : Place n).catching) :=
    fun catches => ⟨catches,fun before => by rw [before]; trivial⟩
  rw [released]
  dsimp only
  split_ifs
  · exact caught_quiet fit place ⟨rfl,rfl,rfl,Iff.rfl,Iff.rfl⟩ id running (.inl rfl) keeps
  · exact caught_quiet fit place ⟨rfl,rfl,rfl,Iff.rfl,Iff.rfl⟩ id running (.inl rfl) keeps
  have first : Quiet k (k.put p {k.procs p with pSig := (k.procs p).pSig ||| maskOf (k.procs p).pPtracesig}) :=
    caught_quiet fit place ⟨rfl,rfl,rfl,Iff.rfl,Iff.rfl⟩ (by dsimp only; rw [place]; exact id) running (.inl rfl) (by
      dsimp only
      rw [place]
      exact keeps)
  refine first.trans (act_quiet first.fit ?_ ?_ _)
  · rw [put_self]
    exact place
  rw [put_self]
  exact runs

end

theorem released_goes (caller other : Caller) :
    released cfg (k.goes p (.issignal other)) p caller = released cfg k p caller := by
  simp [released,act,finish,Kernel.goes,Kernel.put,Proc.take,unsleep]

theorem psignal_sigchld (k : Kernel n) (p : Fin n) : psignal k p sigchld = k.put p (post k.initproc (k.procs p) sigchld).1 := by
  have never : (post k.initproc (k.procs p) sigchld).2 = false := by
    by_contra stops
    have asleep := post_stops (by simpa using stops)
    have dispatched : ∀ (q : Proc n) action, (dispatch q sigchld action).2 = false := by
      intro q action
      rw [dispatch]
      have stop : prop sigchld saStop = false := by decide
      split
      · split_ifs <;> first | rfl | simp_all
      · split_ifs <;> first | rfl | simp_all
        all_goals split_ifs <;> rfl
      · rfl
    rw [post] at stops
    split at stops
    · exact stops rfl
    dsimp only at stops
    split at stops
    · exact stops rfl
    split at stops
    · exact stops rfl
    · exact stops (dispatched _ _)
  rw [psignal]
  dsimp only
  rw [never]
  rfl

theorem issignalTurn_sound (sound : Sound cfg k) (place : (k.procs p).place = .issignal caller)
    (runs : (k.procs p).pStat = .run) : Sound cfg (issignalTurn cfg k p caller) := by
  have outside : ¬ (k.procs p).place.inside := by rw [place]; exact id
  have chan : (k.procs p).pWchan ≠ some .ipc := fun ipc => outside ((sound.fit p).chan ipc).inside
  rw [issignalTurn]
  dsimp only
  split_ifs with none ignored traced
  · exact sound.quiet (finish_quiet sound.fit place runs false)
  · refine sound.put (calm_outside ⟨rfl,rfl,rfl,Iff.rfl,Iff.rfl⟩ outside outside (fun stopped => ?_) chan (sound.fit p).sintr)
    change (k.procs p).pStat = .stop at stopped
    rw [runs] at stopped
    cases stopped
  · rw [psignal_sigchld]
    generalize shape : {(k.procs p).take (sigmask (Signals.ffs (k.procs p).deliverable)) with
      pPtracesig := (Signals.ffs (k.procs p).deliverable : Int),place := Place.traced caller} = q
    have told : ∀ c, Poked ((k.put p q).procs c) (((k.put p q).put (k.procs p).pPptr
        (post (k.put p q).initproc ((k.put p q).procs (k.procs p).pPptr) sigchld).1).procs c) := by
      intro c
      rcases eq_or_ne c (k.procs p).pPptr with rfl | other
      · rw [put_self]
        exact post_poked _ _ _
      rw [put_other _ _ other]
      exact Poked.refl _
    refine sound.change rfl rfl rfl fun c => ?_
    generalize (k.put p q).put (k.procs p).pPptr
      (post (k.put p q).initproc ((k.put p q).procs (k.procs p).pPptr) sigchld).1 = m at told ⊢
    rcases eq_or_ne c p with rfl | other
    · right
      have halted := stop_self m c
      have poked := told c
      rw [put_self] at poked
      have there : ((stop m c).procs c).place = .traced caller := halted.place.trans (poked.place.trans (by rw [← shape]))
      have flag : ((stop m c).procs c).pTraced = true :=
        halted.traced.trans (poked.traced.trans (by rw [← shape]; exact traced.1))
      have kin : Kin (k.procs c) ((stop m c).procs c) := by
        rw [← shape] at poked
        exact ⟨halted.pid.trans poked.pid,halted.ppid.trans poked.ppid,halted.pptr.trans poked.pptr,
          by rw [halted.stat,runs]; decide,by rw [halted.stat,runs]; decide⟩
      refine ⟨kin,⟨fun _ _ => ⟨caller,there⟩,fun _ _ _ => .inr halted.stat,fun waits => ?_,fun ipc => ?_,fun catches => ?_⟩,
        fun waits => outside waits.inside,fun inside => absurd inside outside,.inr ⟨⟨caller,there⟩,halted.stat,flag⟩⟩
      · rw [there] at waits
        exact waits.elim
      · have was : q.pWchan ≠ some .ipc := by rw [← shape]; exact chan
        rcases halted.wchan with same | none
        · rcases poked.wchan with same' | none'
          · exact absurd (same'.symm.trans (same.symm.trans ipc)) was
          rw [same,none'] at ipc
          cases ipc
        · rw [none] at ipc
          cases ipc
      · rw [halted.sintr,poked.sintr,← shape] at catches
        rw [there,(sound.fit c).caller (.inl place) catches]
        trivial
    · left
      have poked := told c
      rw [put_other k q other] at poked
      have calm := poked.calm (sound.fit c)
      exact calm.trans (stop_other calm.fit other)
  · exact sound.quiet (act_quiet sound.fit place runs _)

variable {l : Kernel n} {t c : Fin n}

theorem Sound.asked (sound : Sound cfg k) (place : (k.procs c).place = .traced caller) (runs : (k.procs c).pStat = .run)
    (lock : k.ipc.ipLock = (k.procs c).pPid) : ∃ t, Held k t c ∧ Asking cfg k t c := by
  have used : (k.procs c).pStat ≠ .free := by rw [runs]; decide
  rcases sound.block with idle | ⟨t,d,held,block⟩
  · rw [idle.lock] at lock
    exact absurd lock.symm (sound.tree.named c used)
  obtain rfl : c = d := sound.tree.distinct c d used held.used (lock.symm.trans held.lock)
  rcases block with asking | answered
  · exact ⟨t,held,asking⟩
  have asked := (sound.loops c caller place (held.loops caller place) runs).2
  have done := answered.req
  omega

theorem Sound.answers (sound : Sound cfg k) (held : Held k t c) (asking : Asking cfg k t c) (lock : l.ipc.ipLock = k.ipc.ipLock)
    (req : l.ipc.ipReq ≤ 0) (initproc : l.initproc = k.initproc) {u : User}
    (right : Answers cfg u ⟨k.ipc.ipReq,k.ipc.ipAddr,k.ipc.ipData⟩ l.ipc.answer)
    (events : l.events = k.events ++ [.carried c u ⟨k.ipc.ipReq,k.ipc.ipAddr,k.ipc.ipData⟩ l.ipc.answer])
    (others : ∀ q, q ≠ c → Calm (k.procs q) (l.procs q)) (runs : (l.procs t).pStat = .run) (kin : Kin (k.procs c) (l.procs c))
    (fit : Fit (l.procs c)) (leaves : Leaves (l.procs c)) : Sound cfg l := by
  have kins : ∀ q, Kin (k.procs q) (l.procs q) := by
    intro q
    rcases eq_or_ne q c with rfl | other
    · exact kin
    · exact (others q other).toKin
  have waits : ∀ q, (l.procs q).place.waits → (l.procs q).place = (k.procs q).place ∧
      ((l.procs q).pStat = (k.procs q).pStat ∨ (l.procs q).pStat = .run) := by
    intro q waits
    have other : q ≠ c := fun same => leaves.not_waits (same ▸ waits)
    exact (others q other).waits waits
  obtain ⟨caller,there⟩ := asking.ready.place
  obtain ⟨es,complete,posted⟩ := asking.events
  refine ⟨fun q => ?_,sound.tree.kin initproc kins,.inr ⟨t,c,?_,.inr ⟨req,runs,es,u,_,complete,right,?_⟩⟩,?_,?_⟩
  · rcases eq_or_ne q c with rfl | other
    · exact fit
    · exact (others q other).fit
  · refine ⟨lock.trans (held.lock.trans kin.pid.symm),?_,fun t' c' place => ?_,kin.pptr.trans held.child,?_,held.other,
      fun caller place => ?_⟩
    · rw [((others t held.other.symm).kept (.inl (by rw [held.tracer]; trivial))).1]
      exact held.tracer
    · refine held.only t' c' ?_
      rw [← (waits t' (by rw [place]; trivial)).1]
      exact place
    · rw [Ne,kin.free]
      exact held.used
    · rcases leaves with outside | ⟨_,_,traced⟩
      · exact absurd (by rw [place]; trivial) outside
      · exact traced
  · rw [events,posted]
    simp
  · intro t' d r place
    obtain ⟨same,stat⟩ := waits t' (by rw [place]; trivial)
    have waiting := sound.waiting t' d r (same.symm.trans place)
    obtain ⟨_,loop⟩ := (sound.fit d).stops waiting.stops waiting.traced
    have other : d ≠ c := by
      rintro rfl
      have bad := asking.ready.runs
      rw [waiting.stops] at bad
      cases bad
    obtain ⟨_,traced,stays⟩ := (others d other).loops loop waiting.traced
    refine ⟨(kins d).pptr.trans waiting.child,stays.trans waiting.stops,traced,waiting.other,waiting.req,fun asleep => ?_⟩
    rw [lock]
    refine waiting.asleep ?_
    rcases stat with stat | stat
    · exact stat.symm.trans asleep
    rw [asleep] at stat
    cases stat
  · intro d caller' place traced running
    rcases eq_or_ne d c with rfl | other
    · rcases leaves with outside | ⟨_,stopped,_⟩
      · exact absurd (by rw [place]; trivial) outside
      rw [stopped] at running
      cases running
    obtain ⟨there',before,stat⟩ := (others d other).looped place traced
    have ran := stat.symm.trans running
    -- only one child can be asked
    have named := (sound.loops d caller' there' before ran).1
    exact absurd (sound.tree.distinct d c (by rw [ran]; decide) held.used (named.symm.trans held.lock)) other

theorem woken_same {q : Proc n} {chan : Chan n} (other : q.pWchan ≠ some chan) : woken chan q = q := if_neg other

theorem woken_waits {q : Proc n} (fit : Fit q) (waits : q.place.waits) : (woken .ipc q).pStat = .run := by
  rw [woken]
  rcases fit.waits waits with ⟨run,none⟩ | ⟨asleep,ipc⟩
  · rw [if_neg (by rw [none]; exact (Option.some_ne_none _).symm)]
    exact run
  rw [if_pos ipc]
  exact if_pos asleep

theorem answered_answer (k : Kernel n) (c : Fin n) (r : Request) (outcome : Outcome) :
    (answered k c r outcome).ipc.ipReq ≤ 0 ∧ (answered k c r outcome).ipc.answer = outcome.answer := by
  simp only [answered]
  cases outcome.answer with
  | none => exact ⟨(by decide : (-1 : Int) ≤ 0),rfl⟩
  | some data => exact ⟨Int.le_refl 0,rfl⟩

theorem proceeds_sound (sound : Sound cfg k) (held : Held k t c) (asking : Asking cfg k t c)
    (place : (k.procs c).place = .traced caller) {outcome : Outcome}
    (carried : carry cfg (k.procs c).user ⟨k.ipc.ipReq,k.ipc.ipAddr,k.ipc.ipData⟩ = .ok outcome) :
    Sound cfg (proceeds cfg (answered k c ⟨k.ipc.ipReq,k.ipc.ipAddr,k.ipc.ipData⟩ outcome) c caller outcome) := by
  have runs := asking.ready.runs
  have chan : (k.procs c).pWchan ≠ some .ipc := fun ipc => by
    have waits := (sound.fit c).chan ipc
    rw [place] at waits
    exact waits
  obtain ⟨req,answer⟩ := answered_answer k c ⟨k.ipc.ipReq,k.ipc.ipAddr,k.ipc.ipData⟩ outcome
  have lock : (answered k c ⟨k.ipc.ipReq,k.ipc.ipAddr,k.ipc.ipData⟩ outcome).ipc.ipLock = k.ipc.ipLock := by
    simp only [answered]
    cases outcome.answer <;> rfl
  have woke : ∀ q, (answered k c ⟨k.ipc.ipReq,k.ipc.ipAddr,k.ipc.ipData⟩ outcome).procs q =
    woken .ipc (k.procs q) := fun _ => rfl
  have events : (answered k c ⟨k.ipc.ipReq,k.ipc.ipAddr,k.ipc.ipData⟩ outcome).events = k.events ++
      [.carried c (k.procs c).user ⟨k.ipc.ipReq,k.ipc.ipAddr,k.ipc.ipData⟩ outcome.answer] := rfl
  have initproc : (answered k c ⟨k.ipc.ipReq,k.ipc.ipAddr,k.ipc.ipData⟩ outcome).initproc = k.initproc := rfl
  generalize answered k c ⟨k.ipc.ipReq,k.ipc.ipAddr,k.ipc.ipData⟩ outcome = m at *
  have self : m.procs c = k.procs c := (woke c).trans (woken_same chan)
  have calm : ∀ q, Calm (k.procs q) (m.procs q) := fun q => woke q ▸ woken_calm (sound.fit q) .ipc
  have tracer : (m.procs t).pStat = .run := woke t ▸ woken_waits (sound.fit t) (by rw [held.tracer]; trivial)
  -- the child stops again or is outside of the handshake
  have ends : ∀ l : Kernel n, l.ipc = m.ipc → l.initproc = m.initproc → l.events = m.events →
      (∀ q, q ≠ c → Calm (m.procs q) (l.procs q)) → Kin (k.procs c) (l.procs c) → Fit (l.procs c) → Leaves (l.procs c) →
      Sound cfg l := by
    intro l ipc init log others kin fit leaves
    refine sound.answers held asking (by rw [ipc,lock]) (by rw [ipc]; exact req) (init.trans initproc) (by
      rw [ipc,answer]
      exact ⟨outcome,carried,rfl⟩) (by rw [log,events,ipc,answer]) (fun q other =>
        (calm q).trans (others q other)) ?_ kin fit leaves
    have asks : (m.procs t).place.waits := by
      rw [((calm t).kept (.inl (by rw [held.tracer]; trivial))).1,held.tracer]
      trivial
    exact ((others t held.other.symm).stat (.inl asks)).elim (fun stat => stat.trans tracer) And.right
  have puts : ∀ q : Proc n, Kin (k.procs c) q → q.pStat = .run → ¬ q.place.inside → q.pWchan = (k.procs c).pWchan →
      (q.pSintr = true → q.place.catching) → Sound cfg (m.put c q) := by
    intro q kin running outside same sintr
    refine ends _ rfl rfl rfl (fun d other => ?_) ?_ ?_ ?_
    · rw [put_other m q other]
      exact Calm.refl (calm d).fit
    · rw [put_self]
      exact kin
    · rw [put_self]
      refine fit_outside outside (fun stopped => ?_) (same ▸ chan) sintr
      rw [running] at stopped
      cases stopped
    · rw [put_self]
      exact .inl outside
  have goes : ∀ q : Proc n, Kin (k.procs c) q → q.pStat = .run → q.pWchan = (k.procs c).pWchan → q.pSintr = (k.procs c).pSintr →
      Sound cfg (released cfg (m.put c q) c caller) := by
    intro q kin running same sintr
    have outside := puts {q with place := .issignal caller} ⟨kin.pid,kin.ppid,kin.pptr,kin.free,
      kin.zomb⟩ running id same fun catches => by
        rw [(sound.fit c).caller (.inr place) (sintr.symm.trans catches)]
        trivial
    rw [← released_goes caller caller]
    have set : (m.put c q).goes c (.issignal caller) = m.put c {q with place := .issignal caller} := by
      simp [Kernel.goes,Kernel.put]
    rw [set]
    refine outside.quiet (released_quiet outside.fit ?_ ?_)
    · rw [put_self]
    rw [put_self]
    exact running
  cases outcome with
  | stays user data =>
    have stopped : proceeds cfg m c caller (.stays user data) = stop (m.put c {k.procs c with user}) c := by
      simp only [proceeds,put_self,self]
      exact if_pos asking.ready.traced
    rw [stopped]
    have fit : ∀ q, Fit ((m.put c {k.procs c with user}).procs q) := by
      intro q
      rcases eq_or_ne q c with rfl | other
      · rw [put_self]
        have fit := sound.fit q
        exact ⟨fit.stops,fit.loops,fit.waits,fit.chan,fit.sintr⟩
      · rw [put_other m _ other]
        exact (calm q).fit
    have halted := stop_self (m.put c {k.procs c with user}) c
    rw [put_self] at halted
    have there := halted.place.trans place
    have flag := halted.traced.trans asking.ready.traced
    refine ends _ rfl rfl rfl (fun d other => ?_) ⟨halted.pid,halted.ppid,halted.pptr,by rw [halted.stat,runs]; decide,
      by rw [halted.stat,runs]; decide⟩ ⟨fun _ _ => ⟨caller,there⟩,fun _ _ _ => .inr halted.stat,fun waits =>
      ?_,fun ipc => ?_,fun catches => ?_⟩
      (.inr ⟨⟨caller,there⟩,halted.stat,flag⟩)
    · have stopped := stop_other (fit d) other
      rw [put_other m _ other] at stopped
      exact stopped
    · rw [there] at waits
      exact waits.elim
    · rcases halted.wchan with same | none
      · exact absurd (same.symm.trans ipc) chan
      rw [none] at ipc
      cases ipc
    · rw [there,(sound.fit c).caller (.inr place) (halted.sintr.symm.trans catches)]
      trivial
  | continues user sig data =>
    rw [proceeds,self]
    exact goes _ ⟨rfl,rfl,rfl,Iff.rfl,Iff.rfl⟩ runs rfl rfl
  | exits data =>
    rw [proceeds,self]
    exact puts _ ⟨rfl,rfl,rfl,Iff.rfl,Iff.rfl⟩ runs id rfl fun _ => trivial

theorem tracedResume_sound (sound : Sound cfg k) (place : (k.procs c).place = .traced caller)
    (runs : (k.procs c).pStat = .run) (done : tracedResume cfg k c caller = .ok l) : Sound cfg l := by
  rw [tracedResume] at done
  split at done
  next other =>
    have untraced : (k.procs c).pTraced = false := by
      by_contra traced
      exact other (sound.loops c caller place (by simpa using traced) runs).1
    rw [untraced] at done
    cases done
    have chan : (k.procs c).pWchan ≠ some .ipc := fun ipc => by
      have waits := (sound.fit c).chan ipc
      rw [place] at waits
      exact waits
    have gone : Sound cfg (k.goes c (.issignal caller)) := by
      refine sound.moves ⟨⟨rfl,rfl,rfl,Iff.rfl,Iff.rfl⟩,fit_outside (fun bad => bad) (fun _ => untraced) chan
        fun catches => ?_,?_,
        fun _ => untraced,.inl fun bad => bad⟩
      · rw [(sound.fit c).caller (.inr place) catches]
        trivial
      · rw [place]
        exact id
    simp only [Bool.false_eq_true,if_false]
    rw [← released_goes caller caller]
    refine gone.quiet (released_quiet gone.fit ?_ ?_)
    · rw [Kernel.goes,put_self]
    rw [Kernel.goes,put_self]
    exact runs
  next lock =>
    obtain ⟨t,held,asking⟩ := sound.asked place runs (not_not.mp lock)
    rw [answers] at done
    cases carried : carry cfg (k.procs c).user ⟨k.ipc.ipReq,k.ipc.ipAddr,k.ipc.ipData⟩ with
    | error e =>
      rw [carried] at done
      cases done
    | ok outcome =>
      rw [carried] at done
      cases done
      exact proceeds_sound sound held asking place carried

section
variable {r : Request}

theorem fit_asleep {q : Proc n} {place : Place n} (waits : place.waits) (uninterrupted : q.pSintr = false) :
    Fit {q with pStat := .sleep,pWchan := some .ipc, place} where
  stops stopped := nomatch stopped
  loops caller same := by
    have bad := waits
    rw [show place = .traced caller from same] at bad
    exact bad.elim
  waits _ := .inr ⟨rfl,rfl⟩
  chan _ := waits
  sintr catches := by
    rw [show q.pSintr = true from catches] at uninterrupted
    cases uninterrupted

theorem Fit.uninterrupted {q : Proc n} (fit : Fit q) (place : q.place = .user ∨ q.place.waits) : q.pSintr = false := by
  by_contra catches
  have catching := fit.sintr (by simpa using catches)
  rcases place with user | waits
  · rw [user] at catching
    exact catching
  · exact waits.not_catching catching

section
variable (sound : Sound cfg k)
include sound

variable (runs : (k.procs t).pStat = .run)
include runs

theorem Sound.sleeps (before : (k.procs t).place = .user ∨ (k.procs t).place.waits)
    {place : Place n} (waits : place.waits) (same : ∀ c, place = .answerWait c ↔ (k.procs t).place = .answerWait c)
    (req : ∀ c, place = .answerWait c → 0 < k.ipc.ipReq)
    (waiting : ∀ c r, place = .lockWait c r → (k.procs c).pPptr = t ∧ (k.procs c).pStat = .stop ∧ (k.procs c).pTraced = true ∧
      c ≠ t ∧ 0 < r.req ∧ k.ipc.ipLock ≠ 0) : Sound cfg (sleepIpc k t place) := by
  rw [sleepIpc]
  have kins : ∀ q, Kin (k.procs q) ((k.put t {k.procs t with pStat := .sleep,pWchan := some .ipc, place}).procs q) := by
    intro q
    rcases eq_or_ne q t with rfl | other
    · rw [put_self]
      exact ⟨rfl,rfl,rfl,by simp [runs],by simp [runs]⟩
    rw [put_other k _ other]
    exact Kin.refl _
  have answering : ∀ q d, ((k.put t {k.procs t with pStat := .sleep,pWchan := some .ipc, place}).procs q).place = .answerWait d ↔
      (k.procs q).place = .answerWait d := by
    intro q d
    rcases eq_or_ne q t with rfl | other
    · rw [put_self]
      exact same d
    · rw [put_other k _ other]
  -- a child that the handshake knows of is another process
  have child : ∀ d, (k.procs d).pStat = .stop ∨ (∃ caller, (k.procs d).place = .traced caller) → d ≠ t := by
    rintro d (stopped | ⟨caller,there⟩) rfl
    · rw [runs] at stopped
      cases stopped
    rw [there] at before
    exact before.elim (fun bad => by cases bad) id
  refine ⟨fun q => ?_,sound.tree.kin rfl kins,?_,?_,?_⟩
  · rcases eq_or_ne q t with rfl | other
    · rw [put_self]
      exact fit_asleep waits ((sound.fit q).uninterrupted before)
    rw [put_other k _ other]
    exact sound.fit q
  · rcases sound.block with idle | ⟨t',d,held,block⟩
    · exact .inl ⟨idle.lock,idle.req,fun q d place => idle.nobody q d ((answering q d).mp place),idle.events⟩
    refine .inr ⟨t',d,⟨held.lock.trans (kins d).pid.symm,(answering t' d).mpr held.tracer,
      fun q e place => held.only q e ((answering q e).mp place),(kins d).pptr.trans held.child,?_,held.other,fun
      caller there => ?_⟩,?_⟩
    · rw [Ne,(kins d).free]
      exact held.used
    · rcases eq_or_ne d t with rfl | other
      · rw [put_self] at there
        have bad := waits
        rw [show place = .traced caller from there] at bad
        exact bad.elim
      · rw [put_other k _ other] at there ⊢
        exact held.loops caller there
    refine block.imp (fun asking => ?_) fun answered => ?_
    · obtain ⟨caller,there⟩ := asking.ready.place
      have unchanged := put_other k {k.procs t with pStat := .sleep,pWchan := some .ipc, place} (child d (.inr ⟨caller,there⟩))
      exact ⟨asking.req,by rw [unchanged]; exact asking.ready,asking.events⟩
    refine ⟨answered.req,?_,answered.events⟩
    rcases eq_or_ne t' t with rfl | other
    · have asked := req d ((same d).mpr held.tracer)
      have done := answered.req
      omega
    · rw [put_other k _ other]
      exact answered.runs
  · intro q d r there
    rcases eq_or_ne q t with rfl | other
    · rw [put_self] at there
      obtain ⟨parent,stopped,traced,ne,positive,lock⟩ := waiting d r there
      have unchanged := put_other k {k.procs q with pStat := .sleep,pWchan := some .ipc, place} ne
      exact ⟨by rw [unchanged]; exact parent,by rw [unchanged]; exact stopped,by rw [unchanged]; exact traced,
        ne,positive,fun _ => lock⟩
    rw [put_other k _ other] at there
    have waits := sound.waiting q d r there
    have unchanged := put_other k {k.procs t with pStat := .sleep,pWchan := some .ipc, place} (child d (.inl waits.stops))
    refine ⟨by rw [unchanged]; exact waits.child,by rw [unchanged]; exact waits.stops,
      by rw [unchanged]; exact waits.traced,waits.other,
      waits.req,fun asleep => ?_⟩
    rw [put_other k _ other] at asleep
    exact waits.asleep asleep
  · intro d caller there traced running
    rcases eq_or_ne d t with rfl | other
    · rw [put_self] at running
      cases running
    rw [put_other k _ other] at there traced running ⊢
    exact sound.loops d caller there traced running

theorem Sound.posts (before : (k.procs t).place = .user ∨ (k.procs t).place.waits)
    (child : (k.procs c).pPptr = t) (stops : (k.procs c).pStat = .stop) (traced : (k.procs c).pTraced = true) (other : c ≠ t)
    (positive : 0 < r.req) (lock : k.ipc.ipLock = 0) {q : Proc n} (asked : q = setrun {k.procs c with pWaited := false})
    (procs : ∀ p, p ≠ t → p ≠ c → l.procs p = k.procs p)
    (tracer : l.procs t = {k.procs t with pStat := .sleep,pWchan := some .ipc,place := .answerWait c}) (asks : l.procs c = q)
    (ipc : l.ipc = ⟨(k.procs c).pPid,r.req,r.addr,r.data⟩) (events : l.events = k.events ++ [.posted t c r])
    (initproc : l.initproc = k.initproc) : Sound cfg l := by
  obtain ⟨caller,there⟩ := (sound.fit c).stops stops traced
  have ready : Ready (l.procs c) := by
    rw [asks,asked]
    exact ⟨traced,rfl,caller,there⟩
  have idle : Idle cfg k := by
    rcases sound.block with idle | ⟨t',d,held,_⟩
    · exact idle
    · exact absurd (held.lock.symm.trans lock) (sound.tree.named d held.used)
  have kins : ∀ p, Kin (k.procs p) (l.procs p) := by
    intro p
    rcases eq_or_ne p t with rfl | ne
    · rw [tracer]
      exact ⟨rfl,rfl,rfl,by simp [runs],by simp [runs]⟩
    rcases eq_or_ne p c with rfl | also
    · rw [asks,asked]
      exact ⟨rfl,rfl,rfl,by simp [setrun,stops],by simp [setrun,stops]⟩
    rw [procs p ne also]
    exact Kin.refl _
  have named : (k.procs c).pPid ≠ 0 := sound.tree.named c (by rw [stops]; decide)
  refine ⟨fun p => ?_,sound.tree.kin initproc kins,.inr ⟨t,c,?_,.inl ?_⟩,?_,?_⟩
  · rcases eq_or_ne p t with rfl | ne
    · rw [tracer]
      exact fit_asleep trivial ((sound.fit p).uninterrupted before)
    rcases eq_or_ne p c with rfl | also
    · rw [asks,asked]
      refine ⟨fun bad => (nomatch bad),fun _ _ _ => .inl rfl,fun waits => ?_,fun bad => (nomatch bad),(sound.fit p).sintr⟩
      change (k.procs p).place.waits at waits
      rw [there] at waits
      exact waits.elim
    · rw [procs p ne also]
      exact sound.fit p
  · refine ⟨by rw [ipc,(kins c).pid],by rw [tracer],fun p d place => ?_,(kins c).pptr.trans child,?_,other,
      fun _ _ => ready.traced⟩
    · rcases eq_or_ne p t with rfl | ne
      · rw [tracer] at place
        exact ⟨rfl,(Place.answerWait.inj place).symm⟩
      rcases eq_or_ne p c with rfl | also
      · rw [asks,asked] at place
        change (k.procs p).place = _ at place
        rw [there] at place
        cases place
      · rw [procs p ne also] at place
        exact absurd place (idle.nobody p d)
    · rw [ready.runs]
      decide
  · exact ⟨by rw [ipc]; exact positive,ready,k.events,idle.events,by rw [events,ipc]⟩
  · intro p d r' place
    have ne : p ≠ t := by
      rintro rfl
      rw [tracer] at place
      cases place
    have also : p ≠ c := by
      rintro rfl
      rw [asks,asked] at place
      change (k.procs p).place = _ at place
      rw [there] at place
      cases place
    rw [procs p ne also] at place
    have waits := sound.waiting p d r' place
    have away : d ≠ t := by
      rintro rfl
      have bad := waits.stops
      rw [runs] at bad
      cases bad
    have distinct : d ≠ c := by
      rintro rfl
      exact ne (waits.child.symm.trans child)
    refine ⟨?_,?_,?_,waits.other,waits.req,fun _ => by rw [ipc]; exact named⟩ <;> rw [procs d away distinct]
    · exact waits.child
    · exact waits.stops
    · exact waits.traced
  · intro d caller' place flag running
    rcases eq_or_ne d c with rfl | distinct
    · rw [ipc,(kins d).pid]
      exact ⟨rfl,positive⟩
    have away : d ≠ t := by
      rintro rfl
      rw [tracer] at running
      cases running
    rw [procs d away distinct] at place flag running
    have bad := (sound.loops d caller' place flag running).1
    exact absurd (bad.symm.trans lock) (sound.tree.named d (by rw [running]; decide))

theorem ptraceReturns_sound (place : (k.procs t).place = .answerWait c)
    (req : k.ipc.ipReq ≤ 0) : Sound cfg (ptraceReturns k t) := by
  obtain ⟨held,answered⟩ : Held k t c ∧ Answered cfg k t c := by
    rcases sound.block with idle | ⟨t',d,held,block⟩
    · exact absurd place (idle.nobody t c)
    obtain ⟨rfl,rfl⟩ := held.only t c place
    rcases block with asking | answered
    · have bad := asking.req
      omega
    · exact ⟨held,answered⟩
  obtain ⟨es,u,r,complete,right,events⟩ := answered.events
  have self : (ptraceReturns k t).procs t = {k.procs t with place := .user} := by
    change woken .ipc ((k.put t {k.procs t with place := .user}).procs t) = _
    rw [put_self]
    have waits := (sound.fit t).waits (by rw [place]; trivial)
    rw [runs] at waits
    refine woken_same fun asleep => ?_
    rcases waits with ⟨_,none⟩ | ⟨bad,_⟩
    · rw [show (k.procs t).pWchan = some .ipc from asleep] at none
      cases none
    · cases bad
  have others : ∀ p, p ≠ t → (ptraceReturns k t).procs p = woken .ipc (k.procs p) := by
    intro p other
    change woken .ipc ((k.put t {k.procs t with place := .user}).procs p) = _
    rw [put_other k _ other]
  have calm : ∀ p, p ≠ t → Calm (k.procs p) ((ptraceReturns k t).procs p) := fun p other =>
    others p other ▸ woken_calm (sound.fit p) .ipc
  have kins : ∀ p, Kin (k.procs p) ((ptraceReturns k t).procs p) := by
    intro p
    rcases eq_or_ne p t with rfl | other
    · rw [self]
      exact ⟨rfl,rfl,rfl,Iff.rfl,Iff.rfl⟩
    · exact (calm p other).toKin
  refine ⟨fun p => ?_,sound.tree.kin rfl kins,.inl ⟨rfl,req,fun p d there => ?_,?_⟩,?_,?_⟩
  · rcases eq_or_ne p t with rfl | other
    · rw [self]
      refine fit_outside id (fun stopped => ?_) (fun ipc => ?_) fun catches => ?_
      · change (k.procs p).pStat = .stop at stopped
        rw [runs] at stopped
        cases stopped
      · rcases (sound.fit p).waits (by rw [place]; trivial) with ⟨_,none⟩ | ⟨bad,_⟩
        · rw [show (k.procs p).pWchan = some .ipc from ipc] at none
          cases none
        rw [runs] at bad
        cases bad
      · have bad := (sound.fit p).uninterrupted (.inr (by rw [place]; trivial))
        rw [show (k.procs p).pSintr = true from catches] at bad
        cases bad
    · exact (calm p other).fit
  · rcases eq_or_ne p t with rfl | other
    · rw [self] at there
      cases there
    have same := ((calm p other).kept (.inr (by rw [there]; trivial))).1
    exact other (held.only p d (same.symm.trans there)).1
  · change Complete cfg (k.events ++ [.returned t k.ipc.answer])
    rw [events,List.append_assoc]
    exact complete.snoc t c right
  · intro p d r' there
    have other : p ≠ t := by
      rintro rfl
      rw [self] at there
      cases there
    have same := ((calm p other).kept (.inr (by rw [there]; trivial))).1
    have waits := sound.waiting p d r' (same.symm.trans there)
    have away : d ≠ t := by
      rintro rfl
      have bad := waits.stops
      rw [runs] at bad
      cases bad
    obtain ⟨_,loop⟩ := (sound.fit d).stops waits.stops waits.traced
    obtain ⟨_,traced,stays⟩ := (calm d away).loops loop waits.traced
    refine ⟨(kins d).pptr.trans waits.child,stays.trans waits.stops,traced,waits.other,waits.req,fun asleep => ?_⟩
    -- whoever waits for the block has been woken
    rw [others p other,woken_waits (sound.fit p) (by rw [← same,there]; trivial)] at asleep
    cases asleep
  · intro d caller there traced running
    have other : d ≠ t := by
      rintro rfl
      rw [self] at there
      cases there
    obtain ⟨place',before,stat⟩ := (calm d other).looped there traced
    have bad := (sound.loops d caller place' before (stat.symm.trans running)).2
    omega

theorem ptraceAnswer_sound (place : (k.procs t).place = .answerWait c) : Sound cfg (ptraceAnswer k t c) := by
  rw [ptraceAnswer]
  split
  next asked =>
    refine sound.sleeps runs (.inr (by rw [place]; trivial)) trivial (fun d => ?_) (fun _ _ => asked)
      fun _ _ bad => (nomatch bad)
    rw [place]
  next done => exact ptraceReturns_sound sound runs place (by omega)

theorem ptraceLock_sound
    (before : (k.procs t).place = .user ∨ (k.procs t).place = .lockWait c r) (child : (k.procs c).pPptr = t)
    (stops : (k.procs c).pStat = .stop) (traced : (k.procs c).pTraced = true) (other : c ≠ t) (positive : 0 < r.req)
    (done : ptraceLock k t c r = .ok l) : Sound cfg l := by
  have place : (k.procs t).place = .user ∨ (k.procs t).place.waits := before.imp id fun place => by rw [place]; trivial
  rw [ptraceLock] at done
  split at done
  next locked =>
    cases done
    refine sound.sleeps runs place trivial (fun d => ?_) (fun _ bad => (nomatch bad)) ?_
    · rcases before with user | waits
      · rw [user]
        exact iff_of_false (fun bad => (nomatch bad)) fun bad => (nomatch bad)
      · rw [waits]
    · rintro _ _ ⟨⟩
      exact ⟨child,stops,traced,other,positive,locked⟩
  next free =>
    dsimp only at done
    rw [if_pos (.inl stops)] at done
    cases done
    have asks : ptraceAnswer (Kernel.put
      {k with ipc := ⟨(k.procs c).pPid,r.req,r.addr,r.data⟩, events := k.events ++ [.posted t c r]} c
        (setrun {k.procs c with pWaited := false})) t c = sleepIpc (Kernel.put {k with
          ipc := ⟨(k.procs c).pPid,r.req,r.addr,r.data⟩, events := k.events ++ [.posted t c r]} c
        (setrun {k.procs c with pWaited := false})) t (.answerWait c) := if_pos positive
    rw [asks]
    refine sound.posts runs place child stops traced other positive (not_not.mp free) rfl
      (fun p away distinct => ?_) ?_ ?_ rfl rfl rfl
    · rw [sleepIpc,put_other _ _ away,put_other _ _ distinct]
    · rw [sleepIpc,put_self,put_other _ _ other.symm]
    · rw [sleepIpc,put_other _ _ other,put_self]

theorem ptrace_sound (user : (k.procs t).place = .user) {pid : Int}
    (done : ptrace k t pid r = .ok l) : Sound cfg l := by
  rw [ptrace] at done
  split at done
  · cases done
    refine sound.put (calm_outside ⟨rfl,rfl,rfl,Iff.rfl,Iff.rfl⟩ (by rw [user]; exact id) (by dsimp only; rw [user]; exact id)
      (fun stopped => ?_) (fun ipc => ?_) fun catches => ?_)
    · change (k.procs t).pStat = .stop at stopped
      rw [runs] at stopped
      cases stopped
    · have waits := (sound.fit t).chan ipc
      rw [user] at waits
      exact waits
    · exact (sound.fit t).sintr catches
  next positive =>
    split at done
    · cases done
      exact sound
    next c found =>
      dsimp only at done
      split at done
      · cases done
        exact sound
      next right =>
        push Not at right
        obtain ⟨stops,parent,traced⟩ := right
        have other : c ≠ t := by
          rintro rfl
          rw [runs] at stops
          cases stops
        have tracer : (k.procs t).pStat ≠ .free := by rw [runs]; decide
        have used : (k.procs c).pStat ≠ .free := by rw [stops]; decide
        have notInit : c ≠ k.initproc := by
          rintro rfl
          rw [sound.tree.initParent] at parent
          exact sound.tree.named t tracer parent.symm
        obtain ⟨_,live,same⟩ := sound.tree.parents c used notInit
        have child : (k.procs c).pPptr = t := sound.tree.distinct _ _ (live_iff.mp live).1 tracer (same.symm.trans parent)
        exact ptraceLock_sound sound runs (.inl user) child stops (by simpa using traced) other (by omega) done

end

end

section
theorem Sound.replaced (sound : Sound cfg k) {q : Proc n} (dead : (k.procs c).pStat = .free ∨ (k.procs c).pStat = .zomb)
    (unheld : ∀ t, ¬ Held k t c) (fit : Fit q) (outside : ¬ q.place.waits) (untraced : q.pTraced = false)
    (tree : Tree (k.put c q)) :
    Sound cfg (k.put c q) := by
  have before : ¬ (k.procs c).place.waits := by
    intro waits
    rcases (sound.fit c).waits waits with ⟨stat,_⟩ | ⟨stat,_⟩ <;> rw [stat] at dead <;> rcases dead with bad | bad <;> cases bad
  have answering : ∀ t d, ((k.put c q).procs t).place = .answerWait d ↔ (k.procs t).place = .answerWait d := by
    intro t d
    rcases eq_or_ne t c with rfl | other
    · rw [put_self]
      exact iff_of_false (fun place => outside (by rw [place]; trivial)) fun place => before (by rw [place]; trivial)
    · rw [put_other k q other]
  refine ⟨fun d => ?_,tree,?_,?_,?_⟩
  · rcases eq_or_ne d c with rfl | other
    · rw [put_self]
      exact fit
    rw [put_other k q other]
    exact sound.fit d
  · rcases sound.block with idle | ⟨t,d,held,block⟩
    · exact .inl ⟨idle.lock,idle.req,fun t d place => idle.nobody t d ((answering t d).mp place),idle.events⟩
    have child : d ≠ c := fun same => unheld t (same ▸ held)
    have tracer : t ≠ c := fun same => before (by rw [← same,held.tracer]; trivial)
    have same := put_other k q child
    have same' := put_other k q tracer
    refine .inr ⟨t,d,⟨by rw [same]; exact held.lock,(answering t d).mpr held.tracer,
      fun t' d' place => held.only t' d'
      ((answering t' d').mp place),by rw [same]; exact held.child,by rw [same]; exact held.used,
      held.other,by rw [same]; exact held.loops⟩,block.imp (fun asking => ?_) fun answered => ?_⟩
    · exact ⟨asking.req,by rw [same]; exact asking.ready,asking.events⟩
    · exact ⟨answered.req,by rw [same']; exact answered.runs,answered.events⟩
  · intro t d r place
    rcases eq_or_ne t c with rfl | other
    · rw [put_self] at place
      exact absurd (by rw [place]; trivial) outside
    rw [put_other k q other] at place
    have waits := sound.waiting t d r place
    have child : d ≠ c := by
      rintro rfl
      rw [waits.stops] at dead
      rcases dead with bad | bad <;> cases bad
    refine ⟨?_,?_,?_,waits.other,waits.req,?_⟩
    · rw [put_other k q child]
      exact waits.child
    · rw [put_other k q child]
      exact waits.stops
    · rw [put_other k q child]
      exact waits.traced
    · rw [put_other k q other]
      exact waits.asleep
  · intro d caller place traced runs
    rcases eq_or_ne d c with rfl | other
    · rw [put_self,untraced] at traced
      cases traced
    rw [put_other k q other] at place traced runs ⊢
    exact sound.loops d caller place traced runs

theorem newproc_sound (sound : Sound cfg k) (runs : (k.procs p).pStat = .run) (free : (k.procs c).pStat = .free)
    {pid : Nat} (some : pid ≠ 0)
    (fresh : ∀ q, (k.procs q).pStat ≠ .free → (k.procs q).pPid ≠ pid) (isvfork : Bool) :
    Sound cfg (newproc k p c pid isvfork) := by
  have tree := sound.tree
  have parent : p ≠ c := by
    rintro rfl
    rw [runs] at free
    cases free
  have init : k.initproc ≠ c := by
    intro same
    have live := tree.initLive
    rw [same,live_iff] at live
    exact live.1 free
  refine sound.replaced (.inl free) (fun t held => held.used free)
    (fit_outside id (fun bad => (nomatch bad)) (fun bad => (nomatch bad))
    fun bad => (nomatch bad)) id rfl ?_
  have old : ∀ q, q ≠ c → (newproc k p c pid isvfork).procs q = k.procs q := fun q other => put_other k _ other
  have new : (newproc k p c pid isvfork).procs c = _ := put_self k c _
  change Tree (newproc k p c pid isvfork)
  refine ⟨fun q used => ?_,fun q q' used used' same => ?_,?_,?_,?_,?_,fun q used other => ?_⟩
  · rcases eq_or_ne q c with rfl | other
    · rw [new]
      exact some
    rw [old q other] at used ⊢
    exact tree.named q used
  · rcases eq_or_ne q c with isNew | other <;> rcases eq_or_ne q' c with isNew' | other'
    · exact isNew.trans isNew'.symm
    · rw [isNew,new,old q' other'] at same
      rw [old q' other'] at used'
      exact absurd same.symm (fresh q' used')
    · rw [isNew',new,old q other] at same
      rw [old q other] at used
      exact absurd same (fresh q used)
    · rw [old q other] at used same
      rw [old q' other'] at used' same
      exact tree.distinct q q' used used' same
  · change ((newproc k p c pid isvfork).procs k.initproc).pPid = 1
    rw [old _ init]
    exact tree.initPid
  · change ((newproc k p c pid isvfork).procs k.initproc).live = true
    rw [old _ init]
    exact tree.initLive
  · change ((newproc k p c pid isvfork).procs k.initproc).pPpid = 0
    rw [old _ init]
    exact tree.initParent
  · change ((newproc k p c pid isvfork).procs k.initproc).pPptr = k.initproc
    rw [old _ init]
    exact tree.initSelf
  · change q ≠ k.initproc at other
    rcases eq_or_ne q c with rfl | ne
    · rw [new]
      change p ≠ q ∧ ((newproc k p q pid isvfork).procs p).live = true ∧
        (k.procs p).pPid = ((newproc k p q pid isvfork).procs p).pPid
      rw [old p parent]
      exact ⟨parent,by simp [Proc.live,runs],rfl⟩
    rw [old q ne] at used ⊢
    obtain ⟨away,live,same⟩ := tree.parents q used other
    have there : (k.procs q).pPptr ≠ c := by
      intro same
      rw [same,live_iff] at live
      exact live.1 free
    rw [old _ there]
    exact ⟨away,live,same⟩

theorem wait1_sound (sound : Sound cfg k) (user : (k.procs p).place = .user) (child : (k.procs c).pPptr = p)
    {untraced : Bool} {q : Proc n}
    (done : wait1 (k.procs c) untraced = .ok q) : Sound cfg (k.put c q) := by
  have tree := sound.tree
  rw [wait1] at done
  split at done
  next zombie =>
    have before : ¬ (k.procs c).place.waits := by
      intro waits
      rcases (sound.fit c).waits waits with ⟨stat,_⟩ | ⟨stat,_⟩ <;> rw [stat] at zombie <;> cases zombie
    have init : k.initproc ≠ c := by
      intro same
      have live := tree.initLive
      rw [same,live_iff] at live
      exact live.2 zombie
    cases done
    refine sound.replaced (.inr zombie) (fun t held => ?_) ⟨fun bad => (nomatch bad),fun _ _ bad => (nomatch bad),
      fun waits => absurd waits before,fun bad => (nomatch bad),fun bad => (nomatch bad)⟩ before rfl ?_
    · obtain rfl : p = t := child.symm.trans held.child
      have bad := held.tracer
      rw [user] at bad
      cases bad
    generalize shape : ({k.procs c with
      pStat := Stat.free, pPid := 0, pPpid := 0, pSig := 0, pSigcatch := 0, pSigignore := 0, pSigmask := 0, pWchan := none
      pTraced := false, pWaited := false, pSintr := false, pSvfork := false, pNocldstop := false} : Proc n) = q
    have free : q.pStat = .free := by rw [← shape]
    have old : ∀ d, ((k.put c q).procs d).pStat ≠ .free → d ≠ c := by
      rintro d used rfl
      rw [put_self] at used
      exact used free
    refine ⟨fun d used => ?_,fun d d' used used' same => ?_,?_,?_,?_,?_,fun d used other => ?_⟩
    · have ne := old d used
      rw [put_other k q ne] at used ⊢
      exact tree.named d used
    · have ne := old d used
      have different' := old d' used'
      rw [put_other k q ne] at used same
      rw [put_other k q different'] at used' same
      exact tree.distinct d d' used used' same
    · rw [put_initproc,put_other k q init]
      exact tree.initPid
    · rw [put_initproc,put_other k q init]
      exact tree.initLive
    · rw [put_initproc,put_other k q init]
      exact tree.initParent
    · rw [put_initproc,put_other k q init]
      exact tree.initSelf
    · have ne := old d used
      rw [put_initproc] at other
      rw [put_other k q ne] at used ⊢
      obtain ⟨away,live,same⟩ := tree.parents d used other
      have there : (k.procs d).pPptr ≠ c := by
        intro same
        rw [same,live_iff] at live
        exact live.2 zombie
      rw [put_other k q there]
      exact ⟨away,live,same⟩
  next =>
    split at done
    · cases done
      have fit := sound.fit c
      exact sound.put ⟨⟨rfl,rfl,rfl,Iff.rfl,Iff.rfl⟩,⟨fit.stops,fit.loops,fit.waits,fit.chan,fit.sintr⟩,fun _ =>
        ⟨rfl,rfl⟩,fun _ => .inl rfl⟩
    · cases done

def orphaned (initproc : Fin n) (q : Proc n) : Proc n := {q with pPptr := initproc,pPpid := 1,pTraced := false}

theorem adopt_calm {q : Proc n} (fit : Fit q) (initproc : Fin n) : Calm (orphaned initproc q) (adopt initproc q) := by
  have start : Fit (orphaned initproc q) :=
    ⟨fun _ bad => (nomatch bad),fun _ _ bad => (nomatch bad),fit.waits,fit.chan,fit.sintr⟩
  rw [adopt]
  dsimp only
  split
  · exact (post_poked initproc _ sigkill).calm start
  next untraced =>
    have same : {q with pPptr := initproc,pPpid := 1} = orphaned initproc q := by
      rw [orphaned]
      simp only [Bool.not_eq_true] at untraced
      rw [← untraced]
    split
    · rw [same]
      have first := (post_poked initproc (orphaned initproc q) sighup).calm start
      exact first.trans ((post_poked initproc _ sigcont).calm first.fit)
    · rw [same]
      exact Calm.refl start

/-- What is left of the processes when `p` has ended: its children are those of `init`. -/
structure Survived (k : Kernel n) (p : Fin n) : Prop where
  child : ∀ d, d ≠ p → (k.procs d).pPptr = p → (k.procs d).pStat ≠ .free →
    Calm (orphaned k.initproc (k.procs d)) (survives k p d)
  stays : ∀ d, d ≠ p → ¬ ((k.procs d).pPptr = p ∧ (k.procs d).pStat ≠ .free) → survives k p d = k.procs d
  init : survives k p k.initproc = k.procs k.initproc
  pid : ∀ d, (survives k p d).pPid = (k.procs d).pPid
  free : ∀ d, (survives k p d).pStat = .free ↔ (k.procs d).pStat = .free
  live : ∀ d, d ≠ p → (survives k p d).live = (k.procs d).live
  waits : ∀ d, (survives k p d).place.waits → d ≠ p ∧ (survives k p d).place = (k.procs d).place ∧
    ((survives k p d).pStat = (k.procs d).pStat ∨ (survives k p d).pStat = .run)
  answering : ∀ t d, (survives k p t).place = .answerWait d ↔ (k.procs t).place = .answerWait d
  /-- The children of a tracer are not the children of the process that ends. -/
  apart : ∀ t d, (k.procs t).place.waits → (k.procs d).pPptr = t → d ≠ p → survives k p d = k.procs d

theorem survives_self : survives k p p = {k.procs p with pStat := .zomb,place := .gone} := if_pos rfl

variable {d : Fin n}

theorem survives_child (sound : Sound cfg k) (other : d ≠ p) (parent : (k.procs d).pPptr = p)
    (used : (k.procs d).pStat ≠ .free) :
    Calm (orphaned k.initproc (k.procs d)) (survives k p d) := by
  rw [survives,if_neg other,if_pos ⟨parent,used⟩]
  exact adopt_calm (sound.fit d) k.initproc

theorem survives_stays (other : d ≠ p) (apart : ¬ ((k.procs d).pPptr = p ∧ (k.procs d).pStat ≠ .free)) :
    survives k p d = k.procs d := by
  rw [survives,if_neg other,if_neg apart]

theorem survives_survived (sound : Sound cfg k) (exiting : (k.procs p).place = .exiting) (runs : (k.procs p).pStat = .run)
    (notInit : p ≠ k.initproc) : Survived k p where
  child d := survives_child sound
  stays d := survives_stays
  init := by
    refine survives_stays notInit.symm fun ours => notInit ?_
    rw [← ours.1]
    exact sound.tree.initSelf
  pid d := by
    rcases eq_or_ne d p with rfl | other
    · rw [survives_self]
    by_cases ours : (k.procs d).pPptr = p ∧ (k.procs d).pStat ≠ .free
    · exact (survives_child sound other ours.1 ours.2).pid
    · rw [survives_stays other ours]
  free d := by
    rcases eq_or_ne d p with rfl | other
    · rw [survives_self]
      exact iff_of_false (fun bad => (nomatch bad)) (by rw [runs]; exact fun bad => (nomatch bad))
    by_cases ours : (k.procs d).pPptr = p ∧ (k.procs d).pStat ≠ .free
    · exact (survives_child sound other ours.1 ours.2).free
    · rw [survives_stays other ours]
  live d other := by
    by_cases ours : (k.procs d).pPptr = p ∧ (k.procs d).pStat ≠ .free
    · exact (survives_child sound other ours.1 ours.2).live
    · rw [survives_stays other ours]
  waits d waits := by
    have other : d ≠ p := by
      rintro rfl
      rw [survives_self] at waits
      exact waits
    refine ⟨other,?_⟩
    by_cases ours : (k.procs d).pPptr = p ∧ (k.procs d).pStat ≠ .free
    · exact (survives_child sound other ours.1 ours.2).waits waits
    rw [survives_stays other ours]
    exact ⟨rfl,.inl rfl⟩
  answering t d := by
    rcases eq_or_ne t p with rfl | other
    · rw [survives_self,exiting]
      exact iff_of_false (fun bad => (nomatch bad)) fun bad => (nomatch bad)
    by_cases ours : (k.procs t).pPptr = p ∧ (k.procs t).pStat ≠ .free
    · have calm := survives_child sound other ours.1 ours.2
      constructor
      · intro place
        exact (calm.waits (by rw [place]; trivial)).1.symm.trans place
      intro place
      have inside : (orphaned k.initproc (k.procs t)).place.inside := by
        change (k.procs t).place.inside
        rw [place]
        trivial
      exact (calm.kept (.inl inside)).1.trans place
    · rw [survives_stays other ours]
  apart t d waiting parent other := by
    refine survives_stays other fun ours => ?_
    rw [ours.1] at parent
    rw [← parent,exiting] at waiting
    exact waiting

theorem Survived.held (left : Survived k p) (held : Held k t d) : Held {k with procs := survives k p} t d where
  lock := by
    rw [left.pid]
    exact held.lock
  tracer := (left.answering t d).mpr held.tracer
  only t' d' place := held.only t' d' ((left.answering t' d').mp place)
  child := by
    change (survives k p d).pPptr = t
    rcases eq_or_ne d p with rfl | other
    · rw [survives_self]
      exact held.child
    rw [left.apart t d (by rw [held.tracer]; trivial) held.child other]
    exact held.child
  used := by
    rw [Ne,left.free]
    exact held.used
  other := held.other
  loops caller place := by
    change (survives k p d).place = _ at place
    change (survives k p d).pTraced = true
    rcases eq_or_ne d p with rfl | other
    · rw [survives_self] at place
      cases place
    rw [left.apart t d (by rw [held.tracer]; trivial) held.child other] at place ⊢
    exact held.loops caller place

section
variable (sound : Sound cfg k) (left : Survived k p)
include sound left

theorem Survived.fit (exiting : (k.procs p).place = .exiting) (d : Fin n) : Fit (survives k p d) := by
  rcases eq_or_ne d p with rfl | other
  · rw [survives_self]
    refine fit_outside id (fun bad => (nomatch bad)) (fun ipc => ?_) fun _ => trivial
    have bad := (sound.fit d).chan ipc
    rw [exiting] at bad
    exact bad
  by_cases ours : (k.procs d).pPptr = p ∧ (k.procs d).pStat ≠ .free
  · exact (left.child d other ours.1 ours.2).fit
  rw [left.stays d other ours]
  exact sound.fit d

theorem Survived.parents (used : (k.procs d).pStat ≠ .free) (other : d ≠ k.initproc) :
    (survives k p d).pPptr ≠ d ∧ (survives k p (survives k p d).pPptr).live = true ∧
      (survives k p d).pPpid = (survives k p (survives k p d).pPptr).pPid := by
  obtain ⟨away,living,same⟩ := sound.tree.parents d used other
  rcases eq_or_ne d p with rfl | ne
  · rw [survives_self]
    dsimp only
    rw [left.live _ away,left.pid]
    exact ⟨away,living,same⟩
  by_cases ours : (k.procs d).pPptr = p ∧ (k.procs d).pStat ≠ .free
  · have calm := left.child d ne ours.1 ours.2
    rw [calm.pptr,calm.ppid]
    change k.initproc ≠ d ∧ (survives k p k.initproc).live = true ∧ 1 = (survives k p k.initproc).pPid
    rw [left.init]
    exact ⟨other.symm,sound.tree.initLive,sound.tree.initPid.symm⟩
  · have parent : (k.procs d).pPptr ≠ p := fun parent => ours ⟨parent,used⟩
    rw [left.stays d ne ours,left.live _ parent,left.pid]
    exact ⟨away,living,same⟩

theorem Survived.tree : Tree {k with procs := survives k p} where
  named d used := by
    rw [Ne,left.free] at used
    rw [left.pid]
    exact sound.tree.named d used
  distinct d d' used used' same := by
    rw [Ne,left.free] at used used'
    rw [left.pid,left.pid] at same
    exact sound.tree.distinct d d' used used' same
  initPid := (congrArg Proc.pPid left.init).trans sound.tree.initPid
  initLive := (congrArg Proc.live left.init).trans sound.tree.initLive
  initParent := (congrArg Proc.pPpid left.init).trans sound.tree.initParent
  initSelf := (congrArg Proc.pPptr left.init).trans sound.tree.initSelf
  parents d used other := by
    rw [Ne,left.free] at used
    exact left.parents sound used other

theorem Survived.block (exiting : (k.procs p).place = .exiting) : Block cfg {k with procs := survives k p} := by
  rcases sound.block with idle | ⟨t,d,held,block⟩
  · exact .inl ⟨idle.lock,idle.req,fun t d place => idle.nobody t d ((left.answering t d).mp place),idle.events⟩
  refine .inr ⟨t,d,left.held held,block.imp (fun asking => ?_) fun answered => ?_⟩
  · obtain ⟨caller,place⟩ := asking.ready.place
    have other : d ≠ p := by
      rintro rfl
      rw [exiting] at place
      cases place
    refine ⟨asking.req,?_,asking.events⟩
    change Ready (survives k p d)
    rw [left.apart t d (by rw [held.tracer]; trivial) held.child other]
    exact asking.ready
  · refine ⟨answered.req,?_,answered.events⟩
    have stat := (left.waits t (by rw [(left.answering t d).mpr held.tracer]; trivial)).2.2
    exact stat.elim (fun stat => stat.trans answered.runs) id

theorem Survived.waiting (runs : (k.procs p).pStat = .run) {r : Request} (place : (survives k p t).place = .lockWait d r) :
    Waiting {k with procs := survives k p} t d r := by
  obtain ⟨_,same,stat⟩ := left.waits t (by rw [place]; trivial)
  have there := same.symm.trans place
  have waiting := sound.waiting t d r there
  have other : d ≠ p := by
    rintro rfl
    have bad := waiting.stops
    rw [runs] at bad
    cases bad
  have unchanged := left.apart t d (by rw [there]; trivial) waiting.child other
  refine ⟨(congrArg Proc.pPptr unchanged).trans waiting.child,(congrArg Proc.pStat unchanged).trans waiting.stops,
    (congrArg Proc.pTraced unchanged).trans waiting.traced,waiting.other,waiting.req,fun asleep => waiting.asleep ?_⟩
  change (survives k p t).pStat = .sleep at asleep
  rcases stat with stat | stat
  · exact stat.symm.trans asleep
  rw [asleep] at stat
  cases stat

theorem Survived.loops (place : (survives k p d).place = .traced caller)
    (traced : (survives k p d).pTraced = true) (running : (survives k p d).pStat = .run) :
    k.ipc.ipLock = (survives k p d).pPid ∧ 0 < k.ipc.ipReq := by
  rw [left.pid]
  rcases eq_or_ne d p with rfl | other
  · rw [survives_self] at place
    cases place
  by_cases ours : (k.procs d).pPptr = p ∧ (k.procs d).pStat ≠ .free
  · have bad := ((left.child d other ours.1 ours.2).looped place traced).2.1
    cases bad
  rw [left.stays d other ours] at place traced running
  exact sound.loops d caller place traced running

end

theorem survives_sound (sound : Sound cfg k) (exiting : (k.procs p).place = .exiting) (runs : (k.procs p).pStat = .run)
    (notInit : p ≠ k.initproc) : Sound cfg {k with procs := survives k p} :=
  have left := survives_survived sound exiting runs notInit
  ⟨left.fit sound exiting,left.tree sound,left.block sound exiting,fun _ _ _ => left.waiting sound runs,
  fun _ _ => left.loops sound⟩

theorem zombie_sound (sound : Sound cfg k) (exiting : (k.procs p).place = .exiting) (runs : (k.procs p).pStat = .run)
    (done : zombie k p = .ok l) : Sound cfg l := by
  rw [zombie] at done
  split at done
  · cases done
  next other =>
    have gone := survives_sound sound exiting runs fun same => other (by rw [same]; exact sound.tree.initPid)
    cases done
    have told : ∀ {m : Kernel n} {parent : Fin n}, Sound cfg m →
      Sound cfg (wakeup (psignal m parent sigchld) (.proc parent)) := by
      intro m parent sound
      have first := sound.quiet (psignal_quiet sound.fit parent sigchld)
      exact first.quiet (wakeup_quiet first.fit _)
    dsimp only
    split
    · exact told (gone.quiet (wakeup_quiet gone.fit _))
    · exact told gone

end

end Retrobsd.Tracing
