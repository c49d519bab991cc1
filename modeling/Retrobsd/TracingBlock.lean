import Retrobsd.TracingState

/-! The request block of `ptrace`: who holds it, what has become of the requests, and the moves
of a process that keep this so. -/
namespace Retrobsd.Tracing

section
variable {n : Nat} {cfg : Config} {k l : Kernel n}

structure Exchange (n : Nat) where
  tracer : Fin n
  child : Fin n
  user : User
  request : Request
  answer : Option Word

def Exchange.events (x : Exchange n) : List (Event n) :=
  [.posted x.tracer x.child x.request,.carried x.child x.user x.request x.answer,.returned x.tracer x.answer]

def Answers (cfg : Config) (u : User) (r : Request) (answer : Option Word) : Prop :=
  ∃ outcome, carry cfg u r = .ok outcome ∧ answer = outcome.answer

/-- Each request was carried out once, by the child that it named, and then its tracer returned
with the answer. -/
def Complete (cfg : Config) (events : List (Event n)) : Prop :=
  ∃ exchanges : List (Exchange n), (∀ x ∈ exchanges, Answers cfg x.user x.request x.answer) ∧
  events = exchanges.flatMap Exchange.events

theorem Complete.snoc {events : List (Event n)} (complete : Complete cfg events) (t c : Fin n) {u : User} {r : Request}
    {answer : Option Word} (right : Answers cfg u r answer) :
    Complete cfg (events ++ [.posted t c r,.carried c u r answer,.returned t answer]) := by
  obtain ⟨exchanges,all,rfl⟩ := complete
  refine ⟨exchanges ++ [⟨t,c,u,r,answer⟩],fun x member => ?_,?_⟩
  · rw [List.mem_append,List.mem_singleton] at member
    rcases member with before | rfl
    · exact all x before
    · exact right
  · simp [Exchange.events]

structure Held (k : Kernel n) (t c : Fin n) : Prop where
  lock : k.ipc.ipLock = (k.procs c).pPid
  tracer : (k.procs t).place = .answerWait c
  only : ∀ t' c', (k.procs t').place = .answerWait c' → t' = t ∧ c' = c
  child : (k.procs c).pPptr = t
  used : (k.procs c).pStat ≠ .free
  other : c ≠ t
  loops : ∀ caller, (k.procs c).place = .traced caller → (k.procs c).pTraced = true

structure Ready (q : Proc n) : Prop where
  traced : q.pTraced = true
  runs : q.pStat = .run
  place : ∃ caller, q.place = .traced caller

structure Asking (cfg : Config) (k : Kernel n) (t c : Fin n) : Prop where
  req : 0 < k.ipc.ipReq
  ready : Ready (k.procs c)
  events : ∃ es, Complete cfg es ∧ k.events = es ++ [.posted t c ⟨k.ipc.ipReq,k.ipc.ipAddr,k.ipc.ipData⟩]

structure Answered (cfg : Config) (k : Kernel n) (t c : Fin n) : Prop where
  req : k.ipc.ipReq ≤ 0
  runs : (k.procs t).pStat = .run
  events : ∃ es u r, Complete cfg es ∧ Answers cfg u r k.ipc.answer ∧
    k.events = es ++ [.posted t c r,.carried c u r k.ipc.answer]

structure Idle (cfg : Config) (k : Kernel n) : Prop where
  lock : k.ipc.ipLock = 0
  req : k.ipc.ipReq ≤ 0
  nobody : ∀ t c, (k.procs t).place ≠ .answerWait c
  events : Complete cfg k.events

def Block (cfg : Config) (k : Kernel n) : Prop := Idle cfg k ∨ ∃ t c, Held k t c ∧ (Asking cfg k t c ∨ Answered cfg k t c)

structure Tree (k : Kernel n) : Prop where
  named : ∀ p, (k.procs p).pStat ≠ .free → (k.procs p).pPid ≠ 0
  distinct : ∀ p q, (k.procs p).pStat ≠ .free → (k.procs q).pStat ≠ .free → (k.procs p).pPid = (k.procs q).pPid → p = q
  initPid : (k.procs k.initproc).pPid = 1
  initLive : (k.procs k.initproc).live = true
  initParent : (k.procs k.initproc).pPpid = 0
  initSelf : (k.procs k.initproc).pPptr = k.initproc
  parents : ∀ p, (k.procs p).pStat ≠ .free → p ≠ k.initproc → (k.procs p).pPptr ≠ p ∧
    (k.procs (k.procs p).pPptr).live = true ∧ (k.procs p).pPpid = (k.procs (k.procs p).pPptr).pPid

/-- A tracer that waits for the block has a child that waits for it. -/
structure Waiting (k : Kernel n) (t c : Fin n) (r : Request) : Prop where
  child : (k.procs c).pPptr = t
  stops : (k.procs c).pStat = .stop
  traced : (k.procs c).pTraced = true
  other : c ≠ t
  req : 0 < r.req
  asleep : (k.procs t).pStat = .sleep → k.ipc.ipLock ≠ 0

structure Sound (cfg : Config) (k : Kernel n) : Prop where
  fit : ∀ p, Fit (k.procs p)
  tree : Tree k
  block : Block cfg k
  waiting : ∀ t c r, (k.procs t).place = .lockWait c r → Waiting k t c r
  loops : ∀ c caller, (k.procs c).place = .traced caller → (k.procs c).pTraced = true → (k.procs c).pStat = .run →
    k.ipc.ipLock = (k.procs c).pPid ∧ 0 < k.ipc.ipReq

theorem live_iff {q : Proc n} : q.live = true ↔ q.pStat ≠ .free ∧ q.pStat ≠ .zomb := decide_eq_true_iff

theorem Tree.kin (tree : Tree k) (initproc : l.initproc = k.initproc) (kin : ∀ p, Kin (k.procs p) (l.procs p)) : Tree l where
  named p used := by
    rw [Ne,(kin p).free] at used
    rw [(kin p).pid]
    exact tree.named p used
  distinct p q used used' same := by
    rw [Ne,(kin _).free] at used used'
    rw [(kin p).pid,(kin q).pid] at same
    exact tree.distinct p q used used' same
  initPid := by
    rw [initproc,(kin _).pid]
    exact tree.initPid
  initLive := by
    rw [initproc,(kin _).live]
    exact tree.initLive
  initParent := by
    rw [initproc,(kin _).ppid]
    exact tree.initParent
  initSelf := by
    rw [initproc,(kin _).pptr]
    exact tree.initSelf
  parents p used other := by
    rw [Ne,(kin _).free] at used
    rw [initproc] at other
    rw [(kin p).pptr,(kin p).ppid,(kin _).live,(kin _).pid]
    exact tree.parents p used other

def Leaves (q : Proc n) : Prop := ¬ q.place.inside ∨ (∃ caller, q.place = .traced caller) ∧ q.pStat = .stop ∧ q.pTraced = true

theorem Leaves.not_waits {q : Proc n} (leaves : Leaves q) : ¬ q.place.waits := by
  intro waits
  rcases leaves with outside | ⟨⟨caller,place⟩,_⟩
  · exact outside waits.inside
  rw [place] at waits
  exact waits

structure Moves (q r : Proc n) : Prop extends Kin q r where
  fit : Fit r
  waits : ¬ q.place.waits
  untraced : q.place.inside → q.pTraced = false
  leaves : Leaves r

theorem Sound.change (sound : Sound cfg k) (ipc : l.ipc = k.ipc) (events : l.events = k.events)
    (initproc : l.initproc = k.initproc)
    (all : ∀ p, Calm (k.procs p) (l.procs p) ∨ Moves (k.procs p) (l.procs p)) : Sound cfg l := by
  have kins : ∀ p, Kin (k.procs p) (l.procs p) := fun p => (all p).elim Calm.toKin Moves.toKin
  have waits : ∀ p, (l.procs p).place.waits → (l.procs p).place = (k.procs p).place ∧
      ((l.procs p).pStat = (k.procs p).pStat ∨ (l.procs p).pStat = .run) := by
    intro p waits
    rcases all p with calm | moves
    · exact calm.waits waits
    · exact absurd waits moves.leaves.not_waits
  have answering : ∀ t c, (l.procs t).place = .answerWait c ↔ (k.procs t).place = .answerWait c := by
    intro t c
    constructor
    · intro place
      rw [← (waits t (by rw [place]; trivial)).1]
      exact place
    intro place
    rcases all t with calm | moves
    · rw [(calm.kept (.inl (by rw [place]; trivial))).1]
      exact place
    · exact absurd (by rw [place]; trivial) moves.waits
  -- a child that the handshake wants something of does not move
  have loops : ∀ c caller, (k.procs c).place = .traced caller → (k.procs c).pTraced = true →
      (l.procs c).place = .traced caller ∧ (l.procs c).pTraced = true ∧ (l.procs c).pStat = (k.procs c).pStat := by
    intro c caller place traced
    rcases all c with calm | moves
    · exact calm.loops place traced
    have bad := moves.untraced (by rw [place]; trivial)
    rw [traced] at bad
    cases bad
  refine ⟨fun p => (all p).elim Calm.fit Moves.fit,sound.tree.kin initproc kins,?_,?_,?_⟩
  · rcases sound.block with idle | ⟨t,c,held,block⟩
    · left
      refine ⟨by rw [ipc]; exact idle.lock,by rw [ipc]; exact idle.req,fun t c place => ?_,by rw [events]; exact idle.events⟩
      exact idle.nobody t c ((answering t c).mp place)
    right
    refine ⟨t,c,?_,?_⟩
    · refine ⟨by rw [ipc,(kins c).pid]; exact held.lock,(answering t c).mpr held.tracer,
        fun t' c' place => held.only t' c' ((answering t' c').mp place),(kins c).pptr.trans held.child,?_,held.other,?_⟩
      · rw [Ne,(kins c).free]
        exact held.used
      intro caller place
      rcases all c with calm | moves
      · obtain ⟨same,traced⟩ := calm.kept (.inr (by rw [place]; trivial))
        rw [traced]
        exact held.loops caller (same.symm.trans place)
      rcases moves.leaves with outside | ⟨_,_,traced⟩
      · exact absurd (by rw [place]; trivial) outside
      · exact traced
    · rcases block with asking | answered
      · left
        obtain ⟨caller,place⟩ := asking.ready.place
        obtain ⟨same,traced,stat⟩ := loops c caller place asking.ready.traced
        exact ⟨by rw [ipc]; exact asking.req,⟨traced,stat.trans asking.ready.runs,caller,same⟩,
          by rw [ipc,events]; exact asking.events⟩
      right
      refine ⟨by rw [ipc]; exact answered.req,?_,by rw [ipc,events]; exact answered.events⟩
      have stat := (waits t (by rw [(answering t c).mpr held.tracer]; trivial)).2
      exact stat.elim (fun stat => stat.trans answered.runs) id
  · intro t c r place
    obtain ⟨same,stat⟩ := waits t (by rw [place]; trivial)
    have waiting := sound.waiting t c r (same.symm.trans place)
    obtain ⟨caller,loop⟩ := (sound.fit c).stops waiting.stops waiting.traced
    obtain ⟨_,traced,stays⟩ := loops c caller loop waiting.traced
    refine ⟨(kins c).pptr.trans waiting.child,stays.trans waiting.stops,traced,waiting.other,waiting.req,fun asleep => ?_⟩
    rw [ipc]
    refine waiting.asleep ?_
    rcases stat with stat | stat
    · exact stat.symm.trans asleep
    rw [asleep] at stat
    cases stat
  · intro c caller place traced runs
    rw [ipc,(kins c).pid]
    rcases all c with calm | moves
    · obtain ⟨there,before,stat⟩ := calm.looped place traced
      exact sound.loops c caller there before (stat.symm.trans runs)
    rcases moves.leaves with outside | ⟨_,stopped,_⟩
    · exact absurd (by rw [place]; trivial) outside
    rw [stopped] at runs
    cases runs

theorem Sound.quiet (sound : Sound cfg k) (quiet : Quiet k l) : Sound cfg l :=
  sound.change quiet.ipc quiet.events quiet.initproc fun p => .inl (quiet.procs p)

theorem Sound.put (sound : Sound cfg k) {p : Fin n} {q : Proc n} (calm : Calm (k.procs p) q) : Sound cfg (k.put p q) :=
  sound.quiet (quiet_put sound.fit calm)

theorem Sound.moves (sound : Sound cfg k) {p : Fin n} {q : Proc n} (moves : Moves (k.procs p) q) : Sound cfg (k.put p q) := by
  refine sound.change rfl rfl rfl fun c => ?_
  rcases eq_or_ne c p with rfl | other
  · rw [put_self]
    exact .inr moves
  rw [put_other k q other]
  exact .inl (Calm.refl (sound.fit c))

end

end Retrobsd.Tracing
