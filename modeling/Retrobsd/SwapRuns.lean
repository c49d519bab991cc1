import Retrobsd.SwapImages

/-! Runs of the swapper and of the processes it moves: one process is in memory, and what
is swapped in is what was swapped out. -/
namespace Retrobsd.Swapping
open List Finset
open Function (update update_eq_self update_of_ne update_self)
open Lib.Extents Lib.Run ResourceMap
open SleepQueues (Slot Stat)

variable {n slots : Nat} {area : Extent} {s t : State n}

def State.loaded (s : State n) (p : Slot n) : Prop := p ≠ 0 ∧ s.alive p ∧ (s.procs p).sload = true

/-- Is the process in memory, although `sched` may have chosen it to go? -/
def State.inMemory (s : State n) (p : Slot n) : Prop := s.loaded p ∨ s.inCore = some p

structure Placed (s : State n) : Prop where
  listed : ∀ p, p ∈ s.allproc ↔ s.alive p
  once : s.allproc.Nodup
  system : s.alive 0 ∧ (s.procs 0).sload = true ∧ (s.procs 0).dsize = 0 ∧ (s.procs 0).ssize = 0
  alone : ∀ p q, s.loaded p → s.loaded q → p = q
  chosen : ∀ p, s.inCore = some p → p ≠ 0 ∧ s.alive p ∧ (s.procs p).sload = false ∧ ∀ q, ¬ s.loaded q
  next : ∀ q, s.swappedOut = some q → s.out q ∧ ∀ r, ¬ s.loaded r
  runs : s.u.procp ≠ 0 → s.loaded s.u.procp ∧ (s.procs s.u.procp).addr = .u ∧ (s.procs 0).addr = .u0 ∧ s.u0.procp = 0
  waits : s.u.procp = 0 → (s.procs 0).addr = .u ∧ ∀ p, s.inMemory p → (s.procs p).addr = .u0 ∧ s.u0.procp = p
  places : ∀ p, s.inMemory p → (s.procs p).daddr = userDataStart ∧ (s.procs p).saddr = minus userDataEnd (s.procs p).ssize

structure Unmoved (s t : State n) : Prop where
  allproc : t.allproc = s.allproc
  alive : ∀ p, t.alive p ↔ s.alive p
  sload : ∀ p, s.alive p → (t.procs p).sload = (s.procs p).sload
  alike : ∀ p, (t.procs p).Alike (s.procs p)
  inCore : t.inCore = s.inCore
  swappedOut : t.swappedOut = s.swappedOut
  procp : t.u.procp = s.u.procp
  procp0 : t.u0.procp = s.u0.procp

theorem Unmoved.loaded (unmoved : Unmoved s t) (p : Slot n) : t.loaded p ↔ s.loaded p := by
  rw [State.loaded,State.loaded,unmoved.alive p]
  refine and_congr_right fun _ => and_congr_right fun alive => ?_
  rw [unmoved.sload p alive]

theorem Unmoved.out (unmoved : Unmoved s t) (p : Slot n) : t.out p ↔ s.out p := by
  rw [State.out,State.out,unmoved.alive p,unmoved.inCore]
  refine and_congr_right fun _ => and_congr_right fun alive => ?_
  rw [unmoved.sload p alive]

theorem Unmoved.inMemory (unmoved : Unmoved s t) (p : Slot n) : t.inMemory p ↔ s.inMemory p := by
  rw [State.inMemory,State.inMemory,unmoved.loaded p,unmoved.inCore]

theorem Placed.unmoved (placed : Placed s) (unmoved : Unmoved s t) : Placed t := by
  refine ⟨fun p => ?_,?_,?_,fun p q one two => ?_,fun p same => ?_,fun q same => ?_,fun user =>
    ?_,fun swapper => ?_,fun p inside => ?_⟩
  · rw [unmoved.allproc,unmoved.alive p]
    exact placed.listed p
  · rw [unmoved.allproc]
    exact placed.once
  · rw [unmoved.alive 0,unmoved.sload 0 placed.system.1,(unmoved.alike 0).dsize,(unmoved.alike 0).ssize]
    exact placed.system
  · exact placed.alone p q ((unmoved.loaded p).mp one) ((unmoved.loaded q).mp two)
  · rw [unmoved.inCore] at same
    obtain ⟨other,alive,out,none⟩ := placed.chosen p same
    exact ⟨other,(unmoved.alive p).mpr alive,(unmoved.sload p alive).trans out,fun q loaded =>
      none q ((unmoved.loaded q).mp loaded)⟩
  · rw [unmoved.swappedOut] at same
    obtain ⟨away,none⟩ := placed.next q same
    exact ⟨(unmoved.out q).mpr away,fun r loaded => none r ((unmoved.loaded r).mp loaded)⟩
  · rw [unmoved.procp] at user ⊢
    rw [unmoved.loaded,(unmoved.alike _).addr,(unmoved.alike 0).addr,unmoved.procp0]
    exact placed.runs user
  · rw [unmoved.procp] at swapper
    obtain ⟨first,rest⟩ := placed.waits swapper
    refine ⟨(unmoved.alike 0).addr.trans first,fun p inside => ?_⟩
    rw [(unmoved.alike p).addr,unmoved.procp0]
    exact rest p ((unmoved.inMemory p).mp inside)
  · rw [(unmoved.alike p).daddr,(unmoved.alike p).saddr,(unmoved.alike p).ssize]
    exact placed.places p ((unmoved.inMemory p).mp inside)

structure Sound (slots : Nat) (area : Extent) (s : State n) : Prop where
  placed : Placed s
  stored : Stored slots area s
  names : ∀ p, s.out p → (s.went p).u.procp = p
  back : ∀ e ∈ s.back, e.1 = e.2
  born : ∀ e ∈ s.born, e.1 = e.2

theorem Sound.unmoved (sound : Sound slots area s) (unmoved : Unmoved s t) (map : t.map = s.map)
    (disk : t.disk = s.disk) (went : t.went = s.went)
    (bno : t.bno = s.bno) (back : t.back = s.back) (born : t.born = s.born) : Sound slots area t := by
  refine ⟨sound.placed.unmoved unmoved,?_,fun p away => ?_,by rw [back]; exact sound.back,by rw [born]; exact sound.born⟩
  swap
  · rw [went]
    exact sound.names p ((unmoved.out p).mp away)
  refine sound.stored.frame map disk went bno unmoved.out (fun p _ => unmoved.alike p) (fun p alive => ?_) fun p some => ?_
  · rw [(unmoved.alike p).dsize,(unmoved.alike p).ssize]
    exact sound.stored.fits p ((unmoved.alive p).mp alive)
  · exact (unmoved.alive p).mpr (sound.stored.args p some).2

variable {p : Slot n}

theorem withProc_unmoved {proc : Proc} (alive : proc.stat ≠ .null ∧ proc.stat ≠ .szomb ↔ s.alive p)
    (sload : s.alive p → proc.sload = (s.procs p).sload) (alike : proc.Alike (s.procs p)) : Unmoved s (s.withProc p proc) := by
  refine ⟨rfl,fun q => ?_,fun q live => ?_,fun q => ?_,rfl,rfl,rfl,rfl⟩
  · rcases eq_or_ne q p with rfl | ne
    · rw [State.alive,withProc_self]
      exact alive
    · rw [State.alive,withProc_other ne]
      rfl
  · rcases eq_or_ne q p with rfl | ne
    · rw [withProc_self]
      exact sload live
    · rw [withProc_other ne]
  · rcases eq_or_ne q p with rfl | ne
    · rw [withProc_self]
      exact alike
    · rw [withProc_other ne]
      exact .refl _

theorem Placed.idle (placed : Placed s) (user : s.u.procp ≠ 0) : s.inCore = none ∧ s.swappedOut = none := by
  have loaded := (placed.runs user).1
  constructor
  · cases chosen : s.inCore with
    | none => rfl
    | some p => exact absurd loaded ((placed.chosen p chosen).2.2.2 _)
  · cases next : s.swappedOut with
    | none => rfl
    | some q => exact absurd loaded ((placed.next q next).2 _)

def Moves (s t : State n) : Prop := ∀ p, t.procs p = {s.procs p with addr := (t.procs p).addr}

theorem Moves.alive (moves : Moves s t) (p : Slot n) : t.alive p ↔ s.alive p := by
  rw [State.alive,State.alive,moves p]

theorem Moves.loaded (moves : Moves s t) (p : Slot n) : t.loaded p ↔ s.loaded p := by
  rw [State.loaded,State.loaded,moves.alive p,moves p]

theorem Moves.out (moves : Moves s t) (inCore : t.inCore = s.inCore) (p : Slot n) : t.out p ↔ s.out p := by
  rw [State.out,State.out,moves.alive p,inCore,moves p]

structure Exchanged (s t : State n) : Prop where
  moves : Moves s t
  addr : (t.procs s.u.procp).addr = .u0
  addr0 : (t.procs s.u0.procp).addr = .u
  others : ∀ p, p ≠ s.u.procp → p ≠ s.u0.procp → (t.procs p).addr = (s.procs p).addr
  rest : t = {s with procs := t.procs,u := s.u0,u0 := s.u}

theorem longjmp_exchanges (s : State n) (ne : s.u.procp ≠ s.u0.procp) (place : Place) (elsewhere : place ≠ .u) :
    Exchanged s (longjmp s place) := by
  obtain ⟨r,named⟩ : ∃ r, r = s.withProc s.u.procp {s.procs s.u.procp with addr := .u0} := ⟨_,rfl⟩
  have result : longjmp s place = ({r with u := s.u0,u0 := s.u} : State n).withProc s.u0.procp
    {r.procs s.u0.procp with addr := .u} := by
    rw [longjmp.eq_def,named]
    split
    · exact absurd rfl elsewhere
    · rfl
  have first : r.procs s.u.procp = {s.procs s.u.procp with addr := .u0} := by rw [named,withProc_self]
  have second : ∀ p, p ≠ s.u.procp → r.procs p = s.procs p := fun p other => by rw [named,withProc_other other]
  rw [result]
  refine ⟨fun p => ?_,?_,?_,fun p one two => ?_,?_⟩
  · rcases eq_or_ne p s.u0.procp with rfl | other
    · rw [withProc_self,second _ ne.symm]
    rw [withProc_other other]
    rcases eq_or_ne p s.u.procp with rfl | outside
    · exact first.trans (by rw [first])
    · exact (second p outside).trans (by rw [second p outside])
  · rw [withProc_other ne]
    exact congrArg Proc.addr first
  · rw [withProc_self]
  · rw [withProc_other two]
    exact congrArg Proc.addr (second p one)
  · rw [named]
    rfl

theorem Exchanged.stored (exchanged : Exchanged s t) (stored : Stored slots area s)
    (apart : ∀ p, s.out p → p ≠ s.u.procp ∧ p ≠ s.u0.procp) :
    Stored slots area t := by
  have rest := exchanged.rest
  have inCore : t.inCore = s.inCore := by rw [rest]
  refine stored.frame (by rw [rest]) (by rw [rest]) (by rw [rest]) (by rw [rest]) (exchanged.moves.out inCore)
    (fun p away => ?_) (fun p alive => ?_) fun p some => ?_
  · have same := exchanged.others p (apart p away).1 (apart p away).2
    rw [exchanged.moves p,same]
    exact .refl _
  · have before := stored.fits p ((exchanged.moves.alive p).mp alive)
    rw [exchanged.moves p]
    exact before
  · exact (exchanged.moves.alive p).mpr (stored.args p some).2

theorem Exchanged.sound (exchanged : Exchanged s t) (sound : Sound slots area s)
    (apart : ∀ p, s.out p → p ≠ s.u.procp ∧ p ≠ s.u0.procp)
    (runs : t.u.procp ≠ 0 → t.loaded t.u.procp ∧ (t.procs t.u.procp).addr = .u ∧ (t.procs 0).addr = .u0 ∧ t.u0.procp = 0)
    (waits : t.u.procp = 0 → (t.procs 0).addr = .u ∧ ∀ p, t.inMemory p → (t.procs p).addr = .u0 ∧
    t.u0.procp = p) : Sound slots area t := by
  have rest := exchanged.rest
  have moves := exchanged.moves
  have allproc : t.allproc = s.allproc := by rw [rest]
  have inCore : t.inCore = s.inCore := by rw [rest]
  have swappedOut : t.swappedOut = s.swappedOut := by rw [rest]
  refine ⟨⟨fun p => ?_,?_,?_,fun p q one two => ?_,fun p same => ?_,fun q same => ?_,runs,waits,fun p inside => ?_⟩,
    exchanged.stored sound.stored apart,fun p away => ?_,?_,?_⟩
  · rw [moves.alive p,allproc]
    exact sound.placed.listed p
  · rw [allproc]
    exact sound.placed.once
  · rw [moves.alive 0,moves 0]
    exact sound.placed.system
  · exact sound.placed.alone p q ((moves.loaded p).mp one) ((moves.loaded q).mp two)
  · obtain ⟨other,alive,out,none⟩ := sound.placed.chosen p (inCore ▸ same)
    refine ⟨other,(moves.alive p).mpr alive,?_,fun q loaded => none q ((moves.loaded q).mp loaded)⟩
    rw [moves p]
    exact out
  · obtain ⟨away,none⟩ := sound.placed.next q (swappedOut ▸ same)
    exact ⟨(moves.out inCore q).mpr away,fun r loaded => none r ((moves.loaded r).mp loaded)⟩
  · have before := sound.placed.places p (inside.imp (moves.loaded p).mp fun same => inCore ▸ same)
    rw [moves p]
    exact before
  · rw [show t.went = s.went by rw [rest]]
    exact sound.names p ((moves.out inCore p).mp away)
  · rw [show t.back = s.back by rw [rest]]
    exact sound.back
  · rw [show t.born = s.born by rw [rest]]
    exact sound.born

section
variable (sound : Sound slots area s)
include sound

theorem swtch_sound (user : s.u.procp ≠ 0) : Sound slots area (longjmp s (s.procs 0).addr) := by
  obtain ⟨loaded,_,addr0,procp0⟩ := sound.placed.runs user
  obtain ⟨idle,_⟩ := sound.placed.idle user
  have exchanged := longjmp_exchanges s (by rw [procp0]; exact user) (s.procs 0).addr (by rw [addr0]; simp)
  have procp : (longjmp s (s.procs 0).addr).u.procp = 0 := by rw [exchanged.rest]; exact procp0
  refine exchanged.sound sound (fun p away => ⟨?_,?_⟩) (fun other => absurd procp other) fun _ => ⟨?_,fun p inside => ?_⟩
  · rintro rfl
    exact absurd (loaded.2.2.symm.trans away.2.2.1) (by simp)
  · rw [procp0]
    exact away.1
  · have addr := exchanged.addr0
    rwa [procp0] at addr
  have same : p = s.u.procp := by
    rcases inside with now | bad
    · exact sound.placed.alone p _ ((exchanged.moves.loaded p).mp now) loaded
    · rw [exchanged.rest] at bad
      exact absurd (idle.symm.trans bad) (by simp)
  rw [same]
  refine ⟨exchanged.addr,?_⟩
  rw [exchanged.rest]

theorem resumes_sound (swapper : s.u.procp = 0) (loaded : s.loaded p) :
    Sound slots area (longjmp s (s.procs p).addr) := by
  obtain ⟨addr,rest⟩ := sound.placed.waits swapper
  obtain ⟨place,procp0⟩ := rest p (.inl loaded)
  have exchanged := longjmp_exchanges s (by rw [procp0,swapper]; exact loaded.1.symm) (s.procs p).addr (by rw [place]; simp)
  have procp : (longjmp s (s.procs p).addr).u.procp = p := by rw [exchanged.rest]; exact procp0
  refine exchanged.sound sound (fun q away => ⟨?_,?_⟩) (fun _ => ?_) fun zero => absurd (procp.symm.trans zero) loaded.1
  · rw [swapper]
    exact away.1
  · rw [procp0]
    rintro rfl
    exact absurd (loaded.2.2.symm.trans away.2.2.1) (by simp)
  rw [procp,exchanged.moves.loaded p]
  refine ⟨loaded,?_,?_,?_⟩
  · have addr := exchanged.addr0
    rwa [procp0] at addr
  · have addr := exchanged.addr
    rwa [swapper] at addr
  · rw [exchanged.rest]
    exact swapper

theorem resized_sound (procp : s.u.procp = p) (user : p ≠ 0) {proc : Proc}
    (stat : proc.stat = (s.procs p).stat) (sload : proc.sload = (s.procs p).sload) (addr : proc.addr = (s.procs p).addr)
    (small : proc.dsize + proc.ssize ≤ maxmem) (daddr : proc.daddr = userDataStart)
    (saddr : proc.saddr = minus userDataEnd proc.ssize) :
    Sound slots area (s.withProc p proc) := by
  have before := sound.placed.runs (procp ▸ user)
  obtain ⟨idle,next⟩ := sound.placed.idle (procp ▸ user)
  rw [procp] at before
  have loaded := before.1
  have alive : ∀ q, (s.withProc p proc).alive q ↔ s.alive q := by
    intro q
    rcases eq_or_ne q p with rfl | ne
    · rw [State.alive,State.alive,withProc_self,stat]
    · rw [State.alive,State.alive,withProc_other ne]
  have load : ∀ q, ((s.withProc p proc).procs q).sload = (s.procs q).sload := by
    intro q
    rcases eq_or_ne q p with rfl | ne
    · rw [withProc_self,sload]
    · rw [withProc_other ne]
  have place : ∀ q, ((s.withProc p proc).procs q).addr = (s.procs q).addr := by
    intro q
    rcases eq_or_ne q p with rfl | ne
    · rw [withProc_self,addr]
    · rw [withProc_other ne]
  have loads : ∀ q, (s.withProc p proc).loaded q ↔ s.loaded q := fun q => by rw [State.loaded,State.loaded,alive q,load q]
  have outs : ∀ q, (s.withProc p proc).out q ↔ s.out q := fun q => by rw [State.out,State.out,alive q,load q]; rfl
  refine ⟨⟨fun q => (sound.placed.listed q).trans (alive q).symm,sound.placed.once,?_,fun q r one two =>
    ?_,fun q same => ?_,fun q same => ?_,fun _ => ?_,fun zero => ?_,
    fun q inside => ?_⟩,sound.stored.frame rfl rfl rfl rfl outs (fun q away => ?_) (fun q live => ?_) fun q some =>
    (alive q).mpr (sound.stored.args q some).2,
    fun q away => sound.names q ((outs q).mp away),sound.back,sound.born⟩
  · rw [alive 0,load 0,withProc_other user.symm]
    exact sound.placed.system
  · exact sound.placed.alone q r ((loads q).mp one) ((loads r).mp two)
  · exact absurd (idle.symm.trans same) (by simp)
  · exact absurd (next.symm.trans same) (by simp)
  · rw [show (s.withProc p proc).u.procp = p from procp,loads p,place p,place 0]
    exact before
  · exact absurd (procp.symm.trans zero) user
  · have same : q = p := by
      rcases inside with now | bad
      · exact sound.placed.alone q p ((loads q).mp now) loaded
      · exact absurd (idle.symm.trans bad) (by simp)
    rw [same,withProc_self]
    exact ⟨daddr,saddr⟩
  · have ne : q ≠ p := by
      rintro rfl
      exact absurd (loaded.2.2.symm.trans away.2.2.1) (by simp)
    rw [withProc_other ne]
    exact .refl _
  · rcases eq_or_ne q p with rfl | ne
    · rw [withProc_self]
      exact small
    · rw [withProc_other ne]
      exact sound.stored.fits q ((alive q).mp live)

theorem reargs_sound {map : Map} {bno : Slot n → Nat}
    (steady : Steady slots area ⟨map,({s with map,bno} : State n).held,[]⟩) (args : ∀ p, bno p ≠ 0 → p ≠ 0 ∧ s.alive p) :
    Sound slots area {s with map,bno} := by
  refine ⟨sound.placed.unmoved ⟨rfl,fun _ => Iff.rfl,fun _ _ => rfl,fun _ => .refl _,rfl,rfl,rfl,rfl⟩,
    ⟨steady,sound.stored.fits,sound.stored.kept,args⟩,
    sound.names,sound.back,sound.born⟩

end

theorem cover_args (s : State n) (p : Slot n) (map : Map) (addr u : Nat) :
    cover ({s with map,bno := update s.bno p addr} : State n).held u + cover (s.args p) u =
      cover s.held u + cover (if addr = 0 then [] else [⟨addr,btod argSize⟩]) u := by
  obtain ⟨t,named⟩ : ∃ t, t = ({s with map,bno := update s.bno p addr} : State n) := ⟨_,rfl⟩
  have bno : t.bno p = addr := by rw [named]; exact update_self _ _ _
  have out : t.out p ↔ s.out p := by rw [named]; rfl
  have procs : t.procs p = s.procs p := by rw [named]
  have change := cover_change (s := s) (t := t) (p := p) (fun q ne => by
    rw [named]
    exact regions_same Iff.rfl (fun _ => .refl _) (update_of_ne ne _ _)) u
  have args : t.args p = if addr = 0 then [] else [⟨addr,btod argSize⟩] := by rw [State.args,bno]
  rw [State.regions,State.regions,args,if_congr out rfl rfl,procs,cover_append,cover_append] at change
  rw [← named]
  omega

theorem execve_sound (sound : Sound slots area s) (user : p ≠ 0) (alive : s.alive p) (none : s.bno p = 0) :
    ∃ map addr, malloc s.map (btod argSize) = .ok (map,addr) ∧ Sound slots area {s with map,bno := update s.bno p addr} := by
  obtain ⟨map,addr,ok,⟨rfl,_,whole⟩ | ⟨address,_,whole⟩⟩ := sound.stored.steady.takes (by decide : btod argSize ≠ 0)
  · refine ⟨map,0,ok,?_⟩
    rw [show update s.bno p 0 = s.bno by rw [← none]; exact update_eq_self _ _]
    exact reargs_sound sound whole sound.stored.args
  refine ⟨map,addr,ok,reargs_sound sound (whole.holding fun u => ?_) fun q some => ?_⟩
  · have change := cover_args s p map addr u
    rw [if_neg address,State.args,if_pos none] at change
    simp only [cover_cons,cover_nil] at change ⊢
    omega
  rcases eq_or_ne q p with rfl | ne
  · exact ⟨user,alive⟩
  · rw [update_of_ne ne] at some
    exact sound.stored.args q some

theorem done_sound (sound : Sound slots area s) (some : s.bno p ≠ 0) :
    (∃ t, release {s with bno := update s.bno p 0} (btod argSize) (s.bno p) = .ok t ∧ Sound slots area t) ∨
      release {s with bno := update s.bno p 0} (btod argSize) (s.bno p) = .error (.map (.outside slots)) := by
  obtain ⟨r,named⟩ : ∃ r, r = {s with bno := update s.bno p 0} := ⟨_,rfl⟩
  have first : Steady slots area ⟨r.map,⟨s.bno p,btod argSize⟩ :: r.held,[]⟩ := by
    rw [named]
    refine sound.stored.steady.holding fun u => ?_
    have change := cover_args s p s.map 0 u
    rw [if_pos rfl,State.args,if_neg some] at change
    simp only [cover_cons,cover_nil] at change ⊢
    omega
  rw [← named]
  rcases release_cases first (by decide) with ⟨map,ok,last⟩ | failed
  · refine .inl ⟨_,ok,?_⟩
    rw [named] at last ⊢
    refine reargs_sound sound last fun q set => ?_
    dsimp only at set
    rcases eq_or_ne q p with rfl | ne
    · rw [update_self] at set
      exact absurd rfl set
    · rw [update_of_ne ne] at set
      exact sound.stored.args q set
  · exact .inr failed

variable {q : Slot n}

theorem args_apart (stored : Stored slots area s) (away : s.out q) {a : Nat} (on : On (s.procs q).extents a) :
    ¬ On (s.args p) a := by
  have once := cover_le_one stored.steady (a / 1024)
  rw [cover_held] at once
  have parts : ∀ r, cover (s.regions r) (a / 1024) = cover (if s.out r then (s.procs r).extents else [])
    (a / 1024) + cover (s.args r) (a / 1024) :=
    fun r => cover_append _ _ _
  have images : cover (s.procs q).extents (a / 1024) ≤ ∑ r, cover (if s.out r then (s.procs r).extents else []) (a / 1024) := by
    refine Nat.le_trans ?_ (single_le_sum (f := fun r => cover (if s.out r then (s.procs r).extents else []) (a / 1024))
      (fun _ _ => Nat.zero_le _) (mem_univ q))
    rw [if_pos away]
  have arguments : cover (s.args p) (a / 1024) ≤ ∑ r, cover (s.args r) (a / 1024) :=
    single_le_sum (f := fun r => cover (s.args r) (a / 1024)) (fun _ _ => Nat.zero_le _) (mem_univ p)
  simp only [parts,sum_add_distrib] at once
  rw [On] at on ⊢
  omega

theorem writes_sound (sound : Sound slots area s) (some : s.bno p ≠ 0) (args : Nat → Cell n) :
    Sound slots area {s with disk := transfer s.disk (s.bno p * 1024) argSize args 0} := by
  refine ⟨sound.placed.unmoved ⟨rfl,fun _ => Iff.rfl,fun _ _ => rfl,fun _ => .refl _,rfl,rfl,rfl,rfl⟩,
    ⟨sound.stored.steady,sound.stored.fits,fun q away => ?_,sound.stored.args⟩,sound.names,sound.back,sound.born⟩
  rw [← show s.stored q = _ from sound.stored.kept q away]
  refine stored_congr (.refl _) (sound.stored.fits q away.2.1) fun a on => ?_
  have off := args_apart sound.stored (p := p) away on
  rw [State.args,if_neg some] at off
  exact transfer_outside (x := ⟨s.bno p,btod argSize⟩) (show argSize ≤ btod argSize * 1024 by decide) off

theorem reaps_sound (sound : Sound slots area s) (dead : (s.procs q).stat = .szomb) :
    Sound slots area (s.withProc q {s.procs q with stat := .null,sload := false,slock := false,sswap := false,sintr := false}) := by
  refine sound.unmoved (withProc_unmoved ?_ (fun alive => absurd dead alive.2) ⟨rfl,rfl,rfl,rfl,rfl⟩) rfl rfl rfl rfl rfl rfl
  simp [State.alive,dead]

theorem exits_sound (sound : Sound slots area s) (procp : s.u.procp = p) (user : p ≠ 0) (none : s.bno p = 0) :
    Sound slots area (longjmp {s.withProc p {s.procs p with stat := .szomb} with allproc := s.allproc.erase p}
    (s.procs 0).addr) := by
  have before := sound.placed.runs (procp ▸ user)
  obtain ⟨idle,next⟩ := sound.placed.idle (procp ▸ user)
  rw [procp] at before
  obtain ⟨loaded,_,addr0,procp0⟩ := before
  obtain ⟨r,named⟩ : ∃ r, r = {s.withProc p {s.procs p with stat := .szomb} with allproc := s.allproc.erase p} := ⟨_,rfl⟩
  have self : r.procs p = {s.procs p with stat := .szomb} := by rw [named]; exact withProc_self _ _ _
  have other : ∀ q, q ≠ p → r.procs q = s.procs q := fun q ne => by rw [named]; exact withProc_other ne _
  have rest : r = {s with procs := r.procs,allproc := s.allproc.erase p} := by rw [named]; rfl
  have dead : ¬ r.alive p := fun alive => alive.2 (by rw [self])
  have alive : ∀ q, r.alive q ↔ s.alive q ∧ q ≠ p := by
    intro q
    rcases eq_or_ne q p with rfl | ne
    · exact ⟨fun bad => absurd bad dead,fun bad => absurd rfl bad.2⟩
    · rw [State.alive,State.alive,other q ne,and_iff_left ne]
  have empty : ∀ q, ¬ r.loaded q := by
    intro q now
    have ne := ((alive q).mp now.2.1).2
    have same := now.2.2
    rw [other q ne] at same
    exact ne (sound.placed.alone q p ⟨now.1,((alive q).mp now.2.1).1,same⟩ loaded)
  have out : ∀ q, r.out q ↔ s.out q := by
    intro q
    rcases eq_or_ne q p with rfl | ne
    · refine ⟨fun bad => absurd bad.2.1 dead,fun bad => ?_⟩
      exact absurd (loaded.2.2.symm.trans bad.2.2.1) (by simp)
    · rw [State.out,State.out,alive q,other q ne,and_iff_left ne,rest]
  have stored : Stored slots area r := by
    refine sound.stored.frame (by rw [rest]) (by rw [rest]) (by rw [rest]) (by rw [rest]) out (fun q away => ?_)
      (fun q live => ?_) fun q some => ?_
    · have ne : q ≠ p := fun same => dead (same ▸ ((out q).mpr away).2.1)
      rw [other q ne]
      exact .refl _
    · obtain ⟨was,ne⟩ := (alive q).mp live
      rw [other q ne]
      exact sound.stored.fits q was
    · refine (alive q).mpr ⟨(sound.stored.args q some).2,?_⟩
      rintro rfl
      exact some none
  have zero : (r.procs 0).addr = .u0 := by rw [other 0 user.symm]; exact addr0
  have procpR : r.u.procp = p := by rw [rest]; exact procp
  have procpR0 : r.u0.procp = 0 := by rw [rest]; exact procp0
  rw [← named]
  have exchanged := longjmp_exchanges r (by rw [procpR,procpR0]; exact user) (s.procs 0).addr (by rw [addr0]; simp)
  obtain ⟨t,called⟩ : ∃ t, t = longjmp r (s.procs 0).addr := ⟨_,rfl⟩
  rw [← called] at exchanged ⊢
  have final := exchanged.rest
  have moves := exchanged.moves
  have inCore : t.inCore = r.inCore := by rw [final]
  have coreless : t.inCore = Option.none := by rw [inCore,rest]; exact idle
  have swapper : t.u.procp = 0 := by rw [final]; exact procpR0
  have vacant : ∀ q, ¬ t.loaded q := fun q now => empty q ((moves.loaded q).mp now)
  have nobody : ∀ q, ¬ t.inMemory q := by
    rintro q (now | bad)
    · exact vacant q now
    · exact absurd (coreless.symm.trans bad) (by simp)
  refine ⟨⟨fun q => ?_,?_,?_,fun q _ now => absurd now (vacant q),fun q same => ?_,fun q same => ?_,fun bad =>
    absurd swapper bad,
    fun _ => ⟨?_,fun q now => absurd now (nobody q)⟩,fun q now => absurd now (nobody q)⟩,exchanged.stored stored
    fun q away => ⟨?_,?_⟩,fun q away => ?_,?_,?_⟩
  · rw [moves.alive q,alive q,show t.allproc = s.allproc.erase p by rw [final,rest],sound.placed.once.mem_erase_iff,
      sound.placed.listed q,and_comm]
  · rw [show t.allproc = s.allproc.erase p by rw [final,rest]]
    exact sound.placed.once.erase p
  · rw [moves.alive 0,alive 0,moves 0,other 0 user.symm]
    exact ⟨⟨sound.placed.system.1,user.symm⟩,sound.placed.system.2⟩
  · exact absurd (coreless.symm.trans same) (by simp)
  · rw [show t.swappedOut = s.swappedOut by rw [final,rest],next] at same
    cases same
  · have addr := exchanged.addr0
    rwa [procpR0] at addr
  · rw [procpR]
    rintro rfl
    exact dead away.2.1
  · rw [procpR0]
    exact away.1
  · rw [show t.went = s.went by rw [final,rest]]
    exact sound.names q ((out q).mp ((moves.out inCore q).mp away))
  · rw [show t.back = s.back by rw [final,rest]]
    exact sound.back
  · rw [show t.born = s.born by rw [final,rest]]
    exact sound.born

theorem Placed.current (placed : Placed s) : s.alive s.u.procp ∧ (s.procs s.u.procp).addr = .u := by
  by_cases swapper : s.u.procp = 0
  · rw [swapper]
    exact ⟨placed.system.1,(placed.waits swapper).1⟩
  · obtain ⟨loaded,addr,_⟩ := placed.runs swapper
    exact ⟨loaded.2.1,addr⟩

def made (s : State n) (child : Slot n) : State n :=
  {s.withProc child {s.procs s.u.procp with stat := .srun,sload := true,slock := false,sswap := false,sintr := false,time := 0} with
    allproc := child :: s.allproc
    u := {s.u with procp := child}}

def forked (s : State n) (child : Slot n) (map : Map) (a : List Nat) : State n :=
  let r := departed (made s child) child map a
  let r := r.withProc child {r.procs child with sswap := true}
  let r := {r with u := {r.u with procp := s.u.procp}}
  let own := r.image s.u.procp
  {r with born := ({own with u := {own.u with procp := child}},r.stored child) :: r.born}

variable {child : Slot n} {s : State n}

theorem newproc_eq : newproc s child = match swapout (made s child) child with
    | .error e => .error e
    | .ok r =>
      let r := r.withProc child {r.procs child with sswap := true}
      let r := {r with u := {r.u with procp := s.u.procp}}
      let own := r.image s.u.procp
      .ok {r with born := ({own with u := {own.u with procp := child}},r.stored child) :: r.born} := rfl

theorem made_self (s : State n) (child : Slot n) : (made s child).procs child =
    {s.procs s.u.procp with stat := .srun,sload := true,slock := false,sswap := false,sintr := false,time := 0} := withProc_self _ _ _

theorem made_other (ne : p ≠ child) : (made s child).procs p = s.procs p := withProc_other ne _

theorem made_stored (sound : Sound slots area s) (free : (s.procs child).stat = .null) : Stored slots area (made s child) := by
  have current := sound.placed.current
  have out : ∀ p, (made s child).out p ↔ s.out p := by
    intro p
    rcases eq_or_ne p child with rfl | ne
    · refine ⟨fun away => ?_,fun away => absurd free away.2.1.1⟩
      have loaded := away.2.2.1
      rw [made_self] at loaded
      cases loaded
    · rw [State.out,State.out,State.alive,State.alive,made_other ne]
      rfl
  refine sound.stored.frame rfl rfl rfl rfl out (fun p away => ?_) (fun p alive => ?_) fun p some => ?_
  · have ne : p ≠ child := by
      rintro rfl
      exact away.2.1.1 free
    rw [made_other ne]
    exact .refl _
  · rcases eq_or_ne p child with rfl | ne
    · rw [made_self]
      exact sound.stored.fits _ current.1
    · rw [State.alive,made_other ne] at alive
      rw [made_other ne]
      exact sound.stored.fits p alive
  · have alive := (sound.stored.args p some).2
    have ne : p ≠ child := by
      rintro rfl
      exact alive.1 free
    rw [State.alive,made_other ne]
    exact alive

theorem forked_self (s : State n) (child : Slot n) (map : Map) (a : List Nat) : (forked s child map a).procs child =
    {(departed (made s child) child map a).procs child with sswap := true} := withProc_self _ _ _

theorem forked_other (ne : p ≠ child) (map : Map) (a : List Nat) :
    (forked s child map a).procs p = s.procs p :=
  (withProc_other ne _).trans ((departed_other ne map a).trans (made_other ne))

structure Forked (s t : State n) (child : Slot n) : Prop where
  alive : ∀ p, t.alive p ↔ p = child ∨ s.alive p
  out : ∀ p, t.out p ↔ p = child ∨ s.out p
  loaded : ∀ p, t.loaded p ↔ s.loaded p
  others : ∀ p, p ≠ child → t.procs p = s.procs p

section
variable (sound : Sound slots area s)
include sound

section
variable (free : (s.procs child).stat = .null)
include free

theorem forked_adds (map : Map) (a : List Nat) :
    Forked s (forked s child map a) child := by
  have fresh : child ≠ 0 := by
    rintro rfl
    exact sound.placed.system.1.1 free
  have chosen : s.inCore ≠ some child := fun same => (sound.placed.chosen child same).2.1.1 free
  have alive : ∀ p, (forked s child map a).alive p ↔ p = child ∨ s.alive p := by
    intro p
    rcases eq_or_ne p child with rfl | ne
    · rw [State.alive,forked_self,departed_self,made_self]
      simp
    · rw [State.alive,forked_other ne,or_iff_right ne]
      rfl
  have away : (forked s child map a).out child := by
    refine ⟨fresh,(alive child).mpr (.inl rfl),?_,chosen⟩
    rw [forked_self,departed_self]
  refine ⟨alive,fun p => ?_,fun p => ?_,fun p ne => forked_other ne map a⟩
  · rcases eq_or_ne p child with rfl | ne
    · simp [away]
    · rw [State.out,State.out,alive p,forked_other ne,or_iff_right ne,or_iff_right ne]
      rfl
  rcases eq_or_ne p child with rfl | ne
  · refine ⟨fun now => ?_,fun now => absurd free now.2.1.1⟩
    exact absurd (away.2.2.1.symm.trans now.2.2) (by simp)
  · rw [State.loaded,State.loaded,alive p,forked_other ne,or_iff_right ne]

theorem forked_stored {map : Map} {a : List Nat}
    (steady : Steady slots area ⟨map,((departed (made s child) child map a).procs child).extents ++ (made s child).held,[]⟩) :
    Stored slots area (forked s child map a) := by
  have adds := forked_adds sound free map a
  have small : ((made s child).procs child).dsize + ((made s child).procs child).ssize ≤ maxmem := by
    rw [made_self]
    exact sound.stored.fits _ sound.placed.current.1
  refine (made_stored sound free).departs (fun bad => ?_) small steady rfl rfl rfl rfl (fun p => ?_) (fun p => ?_)
    (fun p live => ?_) fun p some => ?_
  · have load := bad.2.2.1
    rw [made_self] at load
    cases load
  · rw [adds.out p]
    refine or_congr_right' fun ne => ?_
    rw [State.out,State.out,State.alive,State.alive,made_other ne]
    rfl
  · rcases eq_or_ne p child with rfl | ne
    · rw [forked_self]
      exact ⟨rfl,rfl,rfl,rfl,rfl⟩
    · rw [forked_other ne,departed_other ne,made_other ne]
      exact .refl _
  · rcases eq_or_ne p child with rfl | ne
    · rw [forked_self,departed_self]
      exact small
    · rw [forked_other ne]
      exact sound.stored.fits p (((adds.alive p).mp live).resolve_left ne)
  · exact (adds.alive p).mpr (.inr (sound.stored.args p some).2)

theorem forked_placed (map : Map) (a : List Nat) :
    Placed (forked s child map a) := by
  have placed := sound.placed
  have adds := forked_adds sound free map a
  have known : ∀ p, s.alive p → p ≠ child := by
    rintro p alive rfl
    exact alive.1 free
  have inside : ∀ p, (forked s child map a).inMemory p → s.inMemory p := fun p => Or.imp (adds.loaded p).mp id
  have resident : ∀ p, s.inMemory p → p ≠ child :=
    fun p now => known p (now.elim (fun loaded => loaded.2.1) fun same => (placed.chosen p same).2.1)
  have first : (0 : Slot n) ≠ child := known 0 placed.system.1
  refine ⟨fun p => ?_,?_,?_,fun p q one two => ?_,fun p same => ?_,fun q same => ?_,fun user =>
    ?_,fun swapper => ?_,fun p now => ?_⟩
  · rw [adds.alive p,← placed.listed p]
    exact mem_cons
  · exact nodup_cons.mpr ⟨fun listed => known child ((placed.listed child).mp listed) rfl,placed.once⟩
  · rw [adds.alive 0,forked_other first]
    exact ⟨.inr placed.system.1,placed.system.2⟩
  · exact placed.alone p q ((adds.loaded p).mp one) ((adds.loaded q).mp two)
  · obtain ⟨other,alive,out,none⟩ := placed.chosen p same
    rw [forked_other (known p alive)]
    exact ⟨other,(adds.alive p).mpr (.inr alive),out,fun q loaded => none q ((adds.loaded q).mp loaded)⟩
  · obtain ⟨away,none⟩ := placed.next q same
    exact ⟨(adds.out q).mpr (.inr away),fun r loaded => none r ((adds.loaded r).mp loaded)⟩
  · have before := placed.runs user
    have ne := known _ before.1.2.1
    refine ⟨(adds.loaded _).mpr before.1,?_,?_,before.2.2.2⟩
    · rw [show (forked s child map a).u.procp = s.u.procp from rfl,forked_other ne]
      exact before.2.1
    · rw [forked_other first]
      exact before.2.2.1
  · obtain ⟨addr,rest⟩ := placed.waits swapper
    refine ⟨?_,fun p now => ?_⟩
    · rw [forked_other first]
      exact addr
    · rw [forked_other (resident p (inside p now))]
      exact rest p (inside p now)
  · rw [forked_other (resident p (inside p now))]
    exact placed.places p (inside p now)

theorem forked_went (map : Map) (a : List Nat) :
    (forked s child map a).went child = {(forked s child map a).image s.u.procp with
      u := {((forked s child map a).image s.u.procp).u with procp := child}} := by
  obtain ⟨alive,addr⟩ := sound.placed.current
  have ne : s.u.procp ≠ child := fun same => alive.1 (same ▸ free)
  have past : (forked s child map a).went child = _ := update_self _ _ _
  rw [past,State.image,State.image,forked_other ne,addr]
  have copy := made_self s child
  rw [show ({made s child with u := {(made s child).u with nswap := (made s child).u.nswap + 1}} :
    State n).procs child = (made s child).procs child from rfl,
    copy]
  dsimp only
  rw [addr]
  rfl

theorem newproc_cases :
    (∃ t, newproc s child = .ok t ∧ Sound slots area t) ∨ newproc s child = .error (.panic "out of swap space") := by
  rw [newproc_eq]
  rcases swapout_cases (made_stored sound free).steady child with failed | ⟨map,a,ok,steady⟩
  · rw [failed]
    exact .inr rfl
  rw [ok]
  have adds := forked_adds sound free map a
  have stored := forked_stored sound free steady
  have went := forked_went sound free map a
  refine .inl ⟨forked s child map a,rfl,forked_placed sound free map a,stored,fun p away => ?_,sound.back,fun e member => ?_⟩
  · rcases eq_or_ne p child with rfl | ne
    · rw [went]
    · rw [show (forked s child map a).went p = s.went p from update_of_ne ne _ _]
      exact sound.names p (((adds.out p).mp away).resolve_left ne)
  · rcases mem_cons.mp member with rfl | old
    · exact went.symm.trans (stored.kept child ((adds.out child).mpr (.inl rfl))).symm
    · exact sound.born e old

end

theorem swapoutChosen_cases (swapper : s.u.procp = 0) :
    (∃ t, swapoutChosen s = .ok t ∧ Sound slots area t ∧ t.inCore = none ∧ t.u.procp = 0) ∨
      swapoutChosen s = .error (.panic "out of swap space") := by
  rw [swapoutChosen]
  cases chosen : s.inCore with
  | none => exact .inl ⟨s,rfl,sound,chosen,swapper⟩
  | some p =>
    have placed := sound.placed
    obtain ⟨user,alive,sload,empty⟩ := placed.chosen p chosen
    obtain ⟨addr0,rest⟩ := placed.waits swapper
    obtain ⟨addr,procp0⟩ := rest p (.inr chosen)
    dsimp only
    rcases swapout_cases sound.stored.steady p with failed | ⟨map,a,ok,steady⟩
    · rw [failed]
      exact .inr rfl
    rw [ok]
    dsimp only
    obtain ⟨t,named⟩ : ∃ t, t = ({departed s p map a with inCore := none} : State n) := ⟨_,rfl⟩
    have self : t.procs p = (departed s p map a).procs p := by rw [named]
    have other : ∀ q, q ≠ p → t.procs q = s.procs q := fun q ne => by rw [named]; exact departed_other ne map a
    have unchosen : t.inCore = none := by rw [named]
    have live : ∀ q, t.alive q ↔ s.alive q := by
      intro q
      rcases eq_or_ne q p with rfl | ne
      · rw [State.alive,State.alive,self,departed_self]
      · rw [State.alive,State.alive,other q ne]
    have loads : ∀ q, ¬ t.loaded q := by
      intro q now
      rcases eq_or_ne q p with rfl | ne
      · have load := now.2.2
        rw [self,departed_self] at load
        cases load
      · refine empty q ⟨now.1,(live q).mp now.2.1,?_⟩
        rw [← other q ne]
        exact now.2.2
    have vacant : ∀ q, ¬ t.inMemory q := by
      rintro q (now | bad)
      · exact loads q now
      · exact absurd (unchosen.symm.trans bad) (by simp)
    have out : ∀ q, t.out q ↔ q = p ∨ s.out q := by
      intro q
      rcases eq_or_ne q p with rfl | ne
      · rw [State.out,live q,self,departed_self,unchosen]
        simp [user,alive]
      · rw [State.out,State.out,live q,other q ne,unchosen,chosen,or_iff_right ne]
        simp [ne.symm]
    refine .inl ⟨t,by rw [named],⟨⟨fun q => ?_,?_,?_,fun q _ now => absurd now (loads q),fun q same =>
      ?_,fun q same => ⟨?_,loads⟩,fun bad => ?_,
      fun _ => ⟨?_,fun q now => absurd now (vacant q)⟩,fun q now => absurd now (vacant q)⟩,?_,fun q away =>
      ?_,?_,?_⟩,unchosen,?_⟩
    · rw [live q,show t.allproc = s.allproc by rw [named]; rfl]
      exact placed.listed q
    · rw [show t.allproc = s.allproc by rw [named]; rfl]
      exact placed.once
    · rw [live 0,other 0 user.symm]
      exact placed.system
    · exact absurd (unchosen.symm.trans same) (by simp)
    · rw [show t.swappedOut = s.swappedOut by rw [named]; rfl] at same
      exact (out q).mpr (.inr (placed.next q same).1)
    · rw [named] at bad
      exact absurd swapper bad
    · rw [other 0 user.symm]
      exact addr0
    · refine sound.stored.departs (fun bad => bad.2.2.2 chosen) (sound.stored.fits p alive) steady
        (by rw [named]; rfl) (by rw [named]) (by rw [named])
        (by rw [named]; rfl) out (fun q => by rw [named]; exact .refl _) (fun q now => ?_) fun q some =>
        (live q).mpr (sound.stored.args q some).2
      have before := sound.stored.fits q ((live q).mp now)
      rcases eq_or_ne q p with rfl | ne
      · rw [self,departed_self]
        exact before
      · rw [other q ne]
        exact before
    · rw [show t.went = (departed s p map a).went by rw [named]]
      rcases eq_or_ne q p with rfl | ne
      · rw [show (departed s q map a).went q = _ from update_self _ _ _,State.image]
        dsimp only
        rw [addr]
        exact procp0
      · rw [show (departed s p map a).went q = s.went q from update_of_ne ne _ _]
        exact sound.names q (((out q).mp away).resolve_left ne)
    · rw [show t.back = s.back by rw [named]; rfl]
      exact sound.back
    · rw [show t.born = s.born by rw [named]; rfl]
      exact sound.born
    · rw [named]
      exact swapper

theorem swapinChosen_cases (swapper : s.u.procp = 0) (idle : s.inCore = none) :
    (∃ t, swapinChosen s = .ok t ∧ Sound slots area t ∧ t.inCore = none ∧ t.swappedOut = none ∧ t.u.procp = 0) ∨
      swapinChosen s = .error (.map (.outside slots)) := by
  rw [swapinChosen]
  cases chosen : s.swappedOut with
  | none => exact .inl ⟨s,rfl,sound,idle,chosen,swapper⟩
  | some q =>
    have placed := sound.placed
    obtain ⟨away,empty⟩ := placed.next q chosen
    dsimp only
    rcases swapin_cases sound.stored away with ⟨map,ok,steady⟩ | failed
    swap
    · rw [failed]
      exact .inr rfl
    rw [ok]
    dsimp only
    have small := sound.stored.fits q away.2.1
    have stored := sound.stored.arrives away steady
    obtain ⟨t,named⟩ : ∃ t, t = ({arrived s q map with swappedOut := none} : State n) := ⟨_,rfl⟩
    have self : t.procs q = (arrived s q map).procs q := by rw [named]
    have other : ∀ p, p ≠ q → t.procs p = s.procs p := fun p ne => by rw [named]; exact arrived_other ne map
    have unchosen : t.inCore = none := by rw [named]; exact idle
    have live : ∀ p, t.alive p ↔ s.alive p := by
      intro p
      rcases eq_or_ne p q with rfl | ne
      · rw [State.alive,State.alive,self,arrived_self]
      · rw [State.alive,State.alive,other p ne]
    have only : ∀ p, t.inMemory p → p = q := by
      rintro p (now | bad)
      · by_contra ne
        refine empty p ⟨now.1,(live p).mp now.2.1,?_⟩
        rw [← other p ne]
        exact now.2.2
      · exact absurd (unchosen.symm.trans bad) (by simp)
    have out : ∀ p, t.out p ↔ s.out p ∧ p ≠ q := fun p => by
      rw [← arrived_out map p,named]
      rfl
    have procp : ((s.stored q).u).procp = q := by
      rw [sound.stored.kept q away]
      exact sound.names q away
    refine .inl ⟨t,by rw [named],⟨⟨fun p => ?_,?_,?_,fun p r one two => ?_,fun p same => ?_,fun p same =>
      ?_,fun bad => ?_,fun _ => ⟨?_,fun p now => ?_⟩,fun p now => ?_⟩,
      ?_,fun p gone => ?_,fun e member => ?_,?_⟩,unchosen,by rw [named],?_⟩
    · rw [live p,show t.allproc = s.allproc by rw [named]; rfl]
      exact placed.listed p
    · rw [show t.allproc = s.allproc by rw [named]; rfl]
      exact placed.once
    · rw [live 0,other 0 away.1.symm]
      exact placed.system
    · exact (only p (.inl one)).trans (only r (.inl two)).symm
    · exact absurd (unchosen.symm.trans same) (by simp)
    · rw [named] at same
      cases same
    · rw [named] at bad
      exact absurd swapper bad
    · rw [other 0 away.1.symm]
      exact (placed.waits swapper).1
    · rw [only p now,self,arrived_self]
      refine ⟨rfl,?_⟩
      rw [named]
      exact procp
    · rw [only p now,self,arrived_self]
      exact ⟨rfl,rfl⟩
    · rw [named]
      exact ⟨stored.steady,stored.fits,stored.kept,stored.args⟩
    · rw [show t.went = s.went by rw [named]; rfl]
      exact sound.names p ((out p).mp gone).1
    · rw [named] at member
      rcases mem_cons.mp member with rfl | old
      · exact (sound.stored.kept q away).symm.trans (arrived_image small map).symm
      · exact sound.back e old
    · rw [show t.born = s.born by rw [named]; rfl]
      exact sound.born
    · rw [named]
      exact swapper

end

theorem longestOut_ready (s : State n) (l : List (Slot n)) (found : Option (Slot n)) (outTime : Int)
    (result : (longestOut s l found outTime).1 = some q) :
    found = some q ∨ q ∈ l ∧ (s.procs q).sload = false := by
  induction l generalizing found outTime with
  | nil => exact .inl result
  | cons p l ih =>
    rw [longestOut] at result
    split_ifs at result with barred longer
    · exact (ih _ _ result).imp id fun later => ⟨mem_cons_of_mem p later.1,later.2⟩
    · rcases ih _ _ result with same | later
      · cases same
        push Not at barred
        exact .inr ⟨mem_cons_self,by simpa using barred.2⟩
      · exact .inr ⟨mem_cons_of_mem p later.1,later.2⟩
    · exact (ih _ _ result).imp id fun later => ⟨mem_cons_of_mem p later.1,later.2⟩

section
variable (sound : Sound slots area s)
include sound

theorem comes_sound (away : s.out q) (empty : ∀ p, ¬ s.loaded p) :
    Sound slots area {s with swappedOut := some q} := by
  have placed := sound.placed
  refine ⟨⟨placed.listed,placed.once,placed.system,placed.alone,placed.chosen,fun r same => ?_,placed.runs,
    placed.waits,placed.places⟩,
    ⟨sound.stored.steady,sound.stored.fits,sound.stored.kept,sound.stored.args⟩,sound.names,sound.back,sound.born⟩
  cases same
  exact ⟨away,empty⟩

theorem goes_sound (swapper : s.u.procp = 0) (idle : s.inCore = none) (loaded : s.loaded p) (away : s.out q) :
    Sound slots area {s.withProc p {s.procs p with sload := false} with inCore := some p,swappedOut := some q} := by
  have placed := sound.placed
  obtain ⟨t,named⟩ : ∃ t, t = ({s.withProc p {s.procs p with sload := false} with
      inCore := some p,swappedOut := some q} : State n) := ⟨_,rfl⟩
  have self : t.procs p = {s.procs p with sload := false} := by rw [named]; exact withProc_self _ _ _
  have other : ∀ r, r ≠ p → t.procs r = s.procs r := fun r ne => by rw [named]; exact withProc_other ne _
  have chosen : t.inCore = some p := by rw [named]
  have alike : ∀ r, (t.procs r).Alike (s.procs r) := by
    intro r
    rcases eq_or_ne r p with rfl | ne
    · rw [self]
      exact ⟨rfl,rfl,rfl,rfl,rfl⟩
    · rw [other r ne]
      exact .refl _
  have live : ∀ r, t.alive r ↔ s.alive r := by
    intro r
    rcases eq_or_ne r p with rfl | ne
    · rw [State.alive,State.alive,self]
    · rw [State.alive,State.alive,other r ne]
  have empty : ∀ r, ¬ t.loaded r := by
    intro r now
    rcases eq_or_ne r p with rfl | ne
    · have load := now.2.2
      rw [self] at load
      cases load
    · refine ne (placed.alone r p ⟨now.1,(live r).mp now.2.1,?_⟩ loaded)
      rw [← other r ne]
      exact now.2.2
  have out : ∀ r, t.out r ↔ s.out r := by
    intro r
    rcases eq_or_ne r p with rfl | ne
    · refine ⟨fun bad => absurd chosen bad.2.2.2,fun bad => ?_⟩
      exact absurd (loaded.2.2.symm.trans bad.2.2.1) (by simp)
    · rw [State.out,State.out,live r,other r ne,chosen,idle]
      simp [ne.symm]
  have only : ∀ r, t.inMemory r → r = p := by
    rintro r (now | same)
    · exact absurd now (empty r)
    · exact (Option.some.inj (chosen.symm.trans same)).symm
  obtain ⟨addr0,rest⟩ := placed.waits swapper
  rw [← named]
  refine ⟨⟨fun r => ?_,?_,?_,fun r _ now => absurd now (empty r),fun r same => ?_,fun r same => ⟨?_,empty⟩,fun bad =>
    ?_,fun _ => ⟨?_,fun r now => ?_⟩,fun r now => ?_⟩,
    sound.stored.frame (by rw [named]; rfl) (by rw [named]; rfl) (by rw [named]; rfl) (by rw [named]; rfl) out
    (fun r _ => alike r) (fun r now => ?_)
      fun r some => (live r).mpr (sound.stored.args r some).2,fun r gone => ?_,?_,?_⟩
  · rw [live r,show t.allproc = s.allproc by rw [named]; rfl]
    exact placed.listed r
  · rw [show t.allproc = s.allproc by rw [named]; rfl]
    exact placed.once
  · rw [live 0,other 0 loaded.1.symm]
    exact placed.system
  · cases chosen.symm.trans same
    exact ⟨loaded.1,(live p).mpr loaded.2.1,by rw [self],empty⟩
  · have this : t.swappedOut = some q := by rw [named]
    cases this.symm.trans same
    exact (out q).mpr away
  · rw [named] at bad
    exact absurd swapper bad
  · rw [other 0 loaded.1.symm]
    exact addr0
  · rw [only r now,(alike p).addr,show t.u0 = s.u0 by rw [named]; rfl]
    exact rest p (.inl loaded)
  · rw [only r now,(alike p).daddr,(alike p).saddr,(alike p).ssize]
    exact placed.places p (.inl loaded)
  · rw [(alike r).dsize,(alike r).ssize]
    exact sound.stored.fits r ((live r).mp now)
  · rw [show t.went = s.went by rw [named]; rfl]
    exact sound.names r ((out r).mp gone)
  · rw [show t.back = s.back by rw [named]; rfl]
    exact sound.back
  · rw [show t.born = s.born by rw [named]; rfl]
    exact sound.born

theorem choose_sound (swapper : s.u.procp = 0) (idle : s.inCore = none) (next : s.swappedOut = none) :
    Sound slots area (choose s) := by
  have placed := sound.placed
  have same : ({s with inCore := none,swappedOut := none} : State n) = s := by
    cases s
    cases idle
    cases next
    rfl
  rw [choose,same]
  dsimp only
  cases found : longestOut s s.allproc none (-20000) with
  | mk first outTime =>
    cases first with
    | none => exact sound
    | some q =>
      obtain ⟨listed,sload⟩ := (longestOut_ready s s.allproc none (-20000) (q := q) (by rw [found])).resolve_left (by simp)
      have other : q ≠ 0 := by
        rintro rfl
        exact absurd (sload.symm.trans placed.system.2.1) (by simp)
      have away : s.out q := ⟨other,(placed.listed q).mp listed,sload,by simp [idle]⟩
      dsimp only
      cases here : resident s with
      | none =>
        refine comes_sound sound away fun p loaded => ?_
        have nobody := List.find?_eq_none.mp here p ((placed.listed p).mpr loaded.2.1)
        simp [loaded.2.1.2,loaded.1,loaded.2.2] at nobody
      | some p =>
        have holds := List.find?_some here
        have member := mem_of_find?_eq_some here
        simp only [ne_eq,decide_eq_true_eq] at holds
        dsimp only
        split_ifs with swaps
        · exact goes_sound sound swapper idle ⟨holds.2.1,(placed.listed p).mp member,holds.2.2⟩ away
        · exact sound

def Exhausted (slots : Nat) (e : Fault) : Prop := e = .panic "out of swap space" ∨ e = .map (.outside slots)

def Goes (slots : Nat) (area : Extent) (result : Except Fault (State n)) : Prop :=
  (∃ t, result = .ok t ∧ Sound slots area t) ∨ ∃ e, result = .error e ∧ Exhausted slots e

theorem Goes.fine : Goes slots area (.ok s) := .inl ⟨s,rfl,sound⟩

end

variable {result : Except Fault (State n)}

theorem Goes.full (failed : result = .error (.panic "out of swap space")) : Goes slots area result :=
  .inr ⟨_,failed,.inl rfl⟩

theorem Goes.split (failed : result = .error (.map (.outside slots))) : Goes slots area result :=
  .inr ⟨_,failed,.inr rfl⟩

theorem sched_cases (sound : Sound slots area s) (swapper : s.u.procp = 0) : Goes slots area (sched s) := by
  rw [sched]
  rcases swapoutChosen_cases sound swapper with ⟨r,ok,heard,idle,still⟩ | failed
  · rw [ok]
    dsimp only
    rcases swapinChosen_cases heard still idle with ⟨t,ok,after,idle,next,still⟩ | failed
    · rw [ok]
      exact .fine (choose_sound after still idle next)
    · rw [failed]
      exact .split rfl
  · rw [failed]
    exact .full rfl

/-- The stack pointer is not above the stack, and the sizes that are added for `execve`
do not wrap around. -/
def Fair (_ : State n) : Op n → Prop
  | .grows sp => sp ≤ userDataEnd
  | .getxfile ts ds ss => ts + ds + ss < 2^32
  | _ => True

theorem act_cases (sound : Sound slots area s) (procp : s.u.procp = p) (user : p ≠ 0) (op : Op n) (fair : Fair s op) :
    Goes slots area (act s p op) := by
  have before := sound.placed.runs (procp ▸ user)
  rw [procp] at before
  obtain ⟨loaded,_,addr0,_⟩ := before
  obtain ⟨daddr,saddr⟩ := sound.placed.places p (.inl loaded)
  have small := sound.stored.fits p loaded.2.1
  have idle : Goes slots area (.ok s) := .fine sound
  cases op with
  | swtch => exact .fine (swtch_sound sound (procp ▸ user))
  | runs mem rest =>
    refine .fine (sound.unmoved ?_ rfl rfl rfl rfl rfl rfl)
    exact ⟨rfl,fun _ => Iff.rfl,fun _ _ => rfl,fun _ => .refl _,rfl,rfl,rfl,rfl⟩
  | grows sp =>
    have below : sp ≤ userDataEnd := fair
    have size : minus userDataEnd sp = userDataEnd - sp := minus_small below (by decide)
    rw [act]
    split_ifs with low deeper
    · exact idle
    · rw [daddr] at low
      have room : (s.procs p).dsize + (userDataEnd - sp) ≤ maxmem := by
        simp only [userDataStart,userDataEnd,maxmem] at low below ⊢
        omega
      refine .fine (resized_sound sound procp user rfl rfl rfl ?_ daddr ?_)
      · rw [size]
        exact room
      · dsimp only
        rw [size,minus_small (Nat.sub_le _ _) (by decide)]
        omega
    · exact idle
  | execve =>
    rw [act]
    split_ifs with taken
    · exact idle
    · obtain ⟨map,addr,ok,after⟩ := execve_sound sound user loaded.2.1 (not_not.mp taken)
      rw [ok]
      exact .fine after
  | getxfile ts ds ss =>
    have whole : sizeT (ts + ds + ss) = ts + ds + ss := Nat.mod_eq_of_lt fair
    rw [act]
    split_ifs with large
    · exact idle
    · rw [whole] at large
      exact .fine (resized_sound sound procp user rfl rfl rfl (by dsimp only; omega) rfl rfl)
  | done =>
    rw [act]
    split_ifs with none
    · exact idle
    · rcases done_sound sound none with fine | failed
      · exact .inl fine
      · exact .split failed
  | forks child =>
    rw [act]
    split_ifs with taken
    · exact idle
    push Not at taken
    rcases newproc_cases sound taken.1 with fine | failed
    · exact .inl fine
    · exact .full failed
  | exits =>
    rw [act]
    split_ifs with barred
    · exact idle
    push Not at barred
    refine .fine ?_
    have same : (s.withProc p {s.procs p with stat := .szomb}).procs 0 = s.procs 0 := withProc_other user.symm _
    dsimp only
    rw [same]
    exact exits_sound sound procp user barred.2
  | reaps q =>
    rw [act]
    split_ifs with alive
    · exact idle
    · exact .fine (reaps_sound sound (not_not.mp alive))
  | sched => exact idle
  | resumes q => exact idle
  | writes q args => exact idle
  | turns q stat slock sintr time nice => exact idle

theorem step_cases (sound : Sound slots area s) (op : Op n) (fair : Fair s op) :
    Goes slots area (step s op) := by
  have idle : Goes slots area (.ok s) := .fine sound
  have acts : Goes slots area (if s.u.procp = 0 then .ok s else act s s.u.procp op) := by
    split_ifs with swapper
    · exact idle
    · exact act_cases sound rfl swapper op fair
  cases op with
  | sched =>
    rw [step]
    split_ifs with swapper
    · exact sched_cases sound swapper
    · exact idle
  | resumes p =>
    rw [step]
    split_ifs with ready
    · obtain ⟨swapper,user,stat,sload⟩ := ready
      have unmoved : Unmoved s (s.withProc p {s.procs p with sswap := false}) :=
        withProc_unmoved Iff.rfl (fun _ => rfl) ⟨rfl,rfl,rfl,rfl,rfl⟩
      have loaded : s.loaded p := ⟨user,by simp [State.alive,stat],sload⟩
      have again := resumes_sound (sound.unmoved unmoved rfl rfl rfl rfl rfl rfl) swapper ((unmoved.loaded p).mpr loaded)
      rw [withProc_self] at again
      exact .fine again
    · exact idle
  | writes p args =>
    rw [step]
    split_ifs with none
    · exact idle
    · exact .fine (writes_sound sound none args)
  | turns p stat slock sintr time nice =>
    rw [step]
    split_ifs with live
    · have both : ∀ stat, Stat.alive stat = true → stat ≠ .null ∧ stat ≠ .szomb := by
        intro stat alive
        constructor
        · rintro rfl
          cases alive
        · rintro rfl
          cases alive
      refine .fine (sound.unmoved (withProc_unmoved ?_ (fun _ => rfl) ⟨rfl,rfl,rfl,rfl,rfl⟩) rfl rfl rfl rfl rfl rfl)
      exact iff_of_true (both _ live.2.2) (both _ live.2.1)
    · exact idle
  | forks child =>
    rw [step]
    split_ifs with swapper taken
    · exact idle
    · rcases newproc_cases sound (not_not.mp taken) with fine | failed
      · exact .inl fine
      · exact .full failed
    · exact act_cases sound rfl swapper (.forks child) fair
  | swtch => exact acts
  | runs mem rest => exact acts
  | grows sp => exact acts
  | execve => exact acts
  | getxfile ts ds ss => exact acts
  | done => exact acts
  | exits => exact acts
  | reaps q => exact acts

theorem start_sound {sw : Swap} (steady : Steady slots area sw) (unheld : sw.held = []) : Sound slots area (start n sw.map) := by
  have out : ∀ p, ¬ (start n sw.map).out p := by
    intro p away
    exact away.2.1.1 (if_neg away.1)
  have loaded : ∀ p, ¬ (start n sw.map).loaded p := by
    intro p now
    exact now.2.1.1 (if_neg now.1)
  have nothing : ∀ u, cover (start n sw.map).held u = 0 := by
    intro u
    rw [cover_held]
    refine Finset.sum_eq_zero fun p _ => ?_
    rw [State.regions,if_neg (out p)]
    rfl
  have inside : ∀ p, ¬ (start n sw.map).inMemory p := by
    rintro p (now | bad)
    · exact loaded p now
    · cases bad
  refine ⟨⟨fun p => ?_,by simp [start],⟨by simp [State.alive,start],rfl,rfl,rfl⟩,fun p _ now => absurd now (loaded p),
    fun p bad => (by cases bad),fun q bad => (by cases bad),
    fun bad => absurd rfl bad,fun _ => ⟨rfl,fun p now => absurd now (inside p)⟩,fun p now => absurd now (inside p)⟩,
    ⟨?_,fun p _ => Nat.zero_le _,fun p away => absurd away (out p),fun p bad => absurd rfl bad⟩,fun p away =>
    absurd away (out p),fun e bad => (by cases bad),
    fun e bad => (by cases bad)⟩
  · rcases eq_or_ne p 0 with rfl | other
    · simp [start,State.alive]
    · simp [start,State.alive,other]
  · refine steady.holding fun u => ?_
    rw [nothing u,unheld,cover_nil]

/-- One process is in memory besides the swapper and the dead; every block of the swap area is free or belongs
to one process, and to one part of its image or to its arguments; what was swapped in is what had been swapped
out, and a child is what its parent was, but for `u_procp`. -/
structure Kept (area : Extent) (s : State n) : Prop where
  alone : ∀ p q, s.loaded p → s.loaded q → p = q
  units : ∀ u, cover (live s.map) u + cover s.held u = cover [area] u
  back : ∀ e ∈ s.back, e.1 = e.2
  born : ∀ e ∈ s.born, e.1 = e.2
  dead : ∀ p, ¬ s.alive p → s.regions p = []

theorem Sound.kept (sound : Sound slots area s) : Kept area s := by
  refine ⟨sound.placed.alone,sound.stored.steady.units,sound.back,sound.born,fun p dead => ?_⟩
  have none : s.bno p = 0 := by
    by_contra some
    exact dead (sound.stored.args p some).2
  rw [State.regions,State.args,if_neg fun away => dead away.2.1,if_pos none]
  rfl

theorem boot_free {sw : Swap} (booted : boot slots area = .ok sw) : sw.held = [] := by
  simp only [boot,bind,Except.bind] at booted
  split at booted
  · cases booted
  · cases booted
    rfl

/-- Every run of the swapper and of the processes keeps this, unless it ends because the
swap area or its map is exhausted. -/
theorem swapping_kept (several : 1 < slots) (filled : 0 < area.len) (low : 0 < area.start)
    (high : area.stop < 2^32) : ∃ sw, boot slots area = .ok sw ∧ ∀ ops : List (Op n), Along step Fair (start n sw.map) ops →
      (∃ s, run step (start n sw.map) ops = .ok s ∧ Kept area s) ∨
        ∃ e, run step (start n sw.map) ops = .error e ∧ Exhausted slots e := by
  obtain ⟨sw,booted,steady⟩ := boot_steady several filled low high
  refine ⟨sw,booted,fun ops fair => ?_⟩
  rcases @run_cases _ _ _ step Fair (Sound slots area) (fun _ => Exhausted slots) (fun s op sound fair =>
    step_cases sound op fair) ops
    (start n sw.map) (start_sound steady (boot_free booted)) fair with ⟨s,ended,sound⟩ | ⟨_,_,e,failed,expected⟩
  · exact .inl ⟨s,ended,sound.kept⟩
  · exact .inr ⟨e,failed,expected⟩

/-- Process 1 is made, brought in, loads a program and makes process 2. It stops, and
process 2 takes its place and exits; then process 1 comes back. -/
def someOps : List (Op 1) :=
  [.forks 1,.sched,.sched,.resumes 1,.getxfile 0 2000 1500,.grows (userDataEnd - 3000),.forks 2,.execve,.done,.swtch,
    .turns 1 .sstop false false 0 0,.sched,.sched,.turns 1 .srun false false 0 0,.resumes 2,.exits,.sched,.sched]

theorem swapping_kept_someOps : ∃ s, run step (start 1 tenSlots.map) someOps = .ok s ∧ Kept ⟨1,40⟩ s := by
  obtain ⟨sw,booted,runs⟩ := @swapping_kept 1 10 ⟨1,40⟩ (by decide) (by decide) (by decide) (by decide)
  cases boot_tenSlots.symm.trans booted
  have fair : Along step Fair (start 1 tenSlots.map) someOps := by
    refine (Along.of_forall _ (?_ : ∀ op ∈ someOps, ∀ s, Fair s op)).imp fun s op all => all s
    simp [someOps,Fair,userDataEnd]
  have fine : fault (run step (start 1 tenSlots.map) someOps) = none := by decide
  rcases runs someOps fair with kept | ⟨e,failed,_⟩
  · exact kept
  · rw [failed] at fine
    cases fine

/-- A zombie keeps `SLOAD`, and the next process is brought in beside it. -/
theorem zombie_loaded : ¬ ∀ (ops : List (Op 1)) (s : State 1), run step (start 1 tenSlots.map) ops = .ok s →
    ∀ p q, p ≠ 0 → q ≠ 0 → (s.procs p).sload = true → (s.procs q).sload = true → p = q := by
  intro every
  have both : returns (fun s : State 1 => (s.procs 1).sload && (s.procs 2).sload)
    (run step (start 1 tenSlots.map) someOps) = true := by decide
  obtain ⟨s,ended,loaded⟩ := of_returns both
  rw [Bool.and_eq_true] at loaded
  exact absurd (every someOps s ended 1 2 (by decide) (by decide) loaded.1 loaded.2) (by decide)

end Retrobsd.Swapping
