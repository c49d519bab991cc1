import Retrobsd.InodeAllocation

/-! Whatever `fs_inode` holds, `ialloc` returns an inode that is free in core and on the
disk, and a number has one owner at a time. -/
namespace Retrobsd.InodeAllocation
open Function
open Lib.Run

theorem place_injective : Function.Injective place := by
  intro m n same
  simp only [place,itod,itoo,inopb,Prod.mk.injEq] at same
  omega

def Pc.holds : Pc → Option Nat
  | .reading ino _ => some ino
  | .truncating ino _ => some ino
  | .updating ino _ => some ino
  | .returned ino => some ino
  | _ => none

section
variable {ι : Type}

def stage (s : State ι) (ino : Nat) (ip : Inode ι) : Pc :=
  match ip.lock with
  | none => .idle
  | some p => if (s.pc p).holds = some ino then s.pc p else .idle

structure Loaded (ronly : Bool) (disk : Dinode) (ip : Inode ι) : Prop where
  zero : ip.node.mode = 0 → disk.mode = 0
  clean : ip.dirty = false → ronly = false → ip.node.mode = disk.mode

def Known (ronly : Bool) (disk : Dinode) (owners : Nat) (ip : Inode ι) : Pc → Prop
  | .reading _ _ => ip.count = 1 ∧ ip.dirty = false ∧ (owners ≠ 0 → disk.mode ≠ 0)
  | .truncating _ _ => ip.count = 1 ∧ ronly = false ∧ Loaded ronly disk ip ∧ (owners ≠ 0 → ip.node.mode ≠ 0)
  | .updating _ _ => ip.count = 1 ∧ ronly = false ∧ ip.dirty = true ∧ (owners ≠ 0 → ip.node.mode ≠ 0)
  | .returned _ => ip.node.mode = 0 ∧ disk.mode = 0
  | _ => Loaded ronly disk ip ∧ (owners ≠ 0 → ip.node.mode ≠ 0 ∧ (ronly = true → ip.count ≠ 0))

def Unreferenced (ip : Inode ι) : Prop := ip.count = 0 → ip.lock = none ∧ ip.dirty = false

def Sound (s : State ι) (ino : Nat) : Prop :=
  match s.table ino with
  | none => s.owners ino ≠ 0 → (s.disk (place ino)).mode ≠ 0
  | some ip => Unreferenced ip ∧ Known s.fs.ronly (s.disk (place ino)) (s.owners ino) ip (stage s ino ip)

structure Tidy (s : State ι) : Prop where
  holds : ∀ p ino, (s.pc p).holds = some ino → ∃ ip, s.table ino = some ip ∧ ip.lock = some p
  sound : ∀ ino, Sound s ino
  single : ∀ ino, s.owners ino ≤ 1

variable {s t : State ι} {ino : Nat} {ip : Inode ι} {p : ι} {caller : Caller}

theorem Tidy.known (tidy : Tidy s) (here : s.table ino = some ip) :
    Unreferenced ip ∧ Known s.fs.ronly (s.disk (place ino)) (s.owners ino) ip (stage s ino ip) := by
  have sound := tidy.sound ino
  rwa [Sound,here] at sound

theorem stage_unlocked (free : ip.lock = none) : stage s ino ip = .idle := by
  rw [stage,free]

theorem stage_idle (idle : (s.pc p).holds = none) (lock : ip.lock = none ∨ ip.lock = some p) : stage s ino ip = .idle := by
  rcases lock with free | mine
  · exact stage_unlocked free
  · simp [stage,mine,idle]

theorem stage_holder (mine : ip.lock = some p) (busy : (s.pc p).holds = some ino) : stage s ino ip = s.pc p := by
  simp [stage,mine,busy]

theorem Tidy.mine (tidy : Tidy s) (here : s.table ino = some ip) (idle : (s.pc p).holds = none)
    (lock : ip.lock = none ∨ ip.lock = some p) :
    Unreferenced ip ∧ Loaded s.fs.ronly (s.disk (place ino)) ip ∧
      (s.owners ino ≠ 0 → ip.node.mode ≠ 0 ∧ (s.fs.ronly = true → ip.count ≠ 0)) := by
  have known := tidy.known here
  rw [stage_idle idle lock] at known
  exact known

theorem Tidy.busy (tidy : Tidy s) {pc : Pc} (asleep : s.pc p = pc) (busy : pc.holds = some ino) (here : s.table ino = some ip) :
    ip.lock = some p ∧ Known s.fs.ronly (s.disk (place ino)) (s.owners ino) ip pc ∧ (∀ n, (s.pc p).holds = some n → n = ino) ∧
      ∀ other, s.table ino = some other → other.lock = none ∨ other.lock = some p := by
  subst asleep
  obtain ⟨same,there,mine⟩ := tidy.holds p ino busy
  cases here.symm.trans there
  have known := (tidy.known here).2
  rw [stage_holder mine busy] at known
  exact ⟨mine,known,fun n held => Option.some.inj (held.symm.trans busy),fun other there =>
    Option.some.inj (here.symm.trans there) ▸ .inr mine⟩

theorem sound_absent (absent : s.table ino = none) (taken : s.owners ino ≠ 0 → (s.disk (place ino)).mode ≠ 0) : Sound s ino := by
  rwa [Sound,absent]

theorem sound_present {pc : Pc} (here : s.table ino = some ip) (stages : stage s ino ip = pc)
    (unreferenced : Unreferenced ip) (known : Known s.fs.ronly (s.disk (place ino)) (s.owners ino) ip pc) : Sound s ino := by
  rw [Sound,here]
  exact ⟨unreferenced,stages ▸ known⟩

theorem Sound.frame {n : Nat} (sound : Sound s n) (table : t.table n = s.table n)
    (disk : t.disk (place n) = s.disk (place n)) (owners : t.owners n = s.owners n) (ronly : t.fs.ronly = s.fs.ronly)
    (pcs : ∀ q, (s.pc q).holds = some n ∨ (t.pc q).holds = some n → t.pc q = s.pc q) : Sound t n := by
  have stages : ∀ ip, stage t n ip = stage s n ip := by
    intro ip
    rw [stage,stage]
    cases ip.lock with
    | none => rfl
    | some q =>
      by_cases was : (s.pc q).holds = some n
      · have same := pcs q (.inl was)
        simp [same]
      by_cases is : (t.pc q).holds = some n
      · have same := pcs q (.inr is)
        simp [same]
      · simp [was,is]
  rw [Sound] at sound
  split at sound
  · next absent =>
    apply sound_absent (table.trans absent)
    rwa [owners,disk]
  next ip found =>
  apply sound_present (table.trans found) (stages ip) sound.1
  rw [ronly,disk,owners]
  exact sound.2

theorem Tidy.fs (tidy : Tidy s) {fs : Fs} (ronly : fs.ronly = s.fs.ronly) : Tidy {s with fs} :=
  ⟨tidy.holds,fun n => (tidy.sound n).frame rfl rfl rfl ronly fun _ _ => rfl,tidy.single⟩

theorem Tidy.touch (tidy : Tidy s) (table : ∀ n, n ≠ ino → t.table n = s.table n)
    (disk : ∀ n, n ≠ ino → t.disk (place n) = s.disk (place n)) (owners : ∀ n, n ≠ ino → t.owners n = s.owners n)
    (pcs : ∀ q, q ≠ p → t.pc q = s.pc q) (ronly : t.fs.ronly = s.fs.ronly) (before : ∀ n, (s.pc p).holds = some n → n = ino)
    (after : ∀ n, (t.pc p).holds = some n → n = ino ∧ ∃ ip, t.table ino = some ip ∧ ip.lock = some p)
    (others : ∀ q, q ≠ p → (s.pc q).holds = some ino → ∃ ip, t.table ino = some ip ∧ ip.lock = some q)
    (here : Sound t ino) (single : t.owners ino ≤ 1) : Tidy t := by
  refine ⟨?_,?_,?_⟩
  · intro q n busy
    by_cases me : q = p
    · subst me
      obtain ⟨rfl,locked⟩ := after n busy
      exact locked
    rw [pcs q me] at busy
    by_cases it : n = ino
    · subst it
      exact others q me busy
    rw [table n it]
    exact tidy.holds q n busy
  · intro n
    by_cases it : n = ino
    · rwa [it]
    apply (tidy.sound n).frame (table n it) (disk n it) (owners n it) ronly
    intro q busy
    apply pcs q
    rintro rfl
    rcases busy with was | is
    · exact it (before n was)
    · exact it (after n is).1
  · intro n
    by_cases it : n = ino
    · rwa [it]
    rw [owners n it]
    exact tidy.single n

theorem Tidy.nobody (tidy : Tidy s) {q : ι}
    (mine : ∀ ip, s.table ino = some ip → ip.lock = none ∨ ip.lock = some p) (busy : (s.pc q).holds = some ino) : q = p := by
  obtain ⟨ip,here,locked⟩ := tidy.holds q ino busy
  rcases mine ip here with free | held
  · rw [free] at locked
    cases locked
  · exact Option.some.inj (locked.symm.trans held)

theorem known_away {ronly : Bool} {disk : Dinode} {owners : Nat} {pc : Pc} (away : pc.holds = none) :
    Known ronly disk owners ip pc ↔ Known ronly disk owners ip .idle := by
  cases pc <;> first | rfl | cases away

section
variable {disk : Nat × Nat → Dinode} {owners : Nat → Nat} {fs : Fs} (tidy : Tidy s)
  (mine : ∀ ip, s.table ino = some ip → ip.lock = none ∨ ip.lock = some p)
  (disks : ∀ n, n ≠ ino → disk (place n) = s.disk (place n)) (owner : ∀ n, n ≠ ino → owners n = s.owners n)
  (ronly : fs.ronly = s.fs.ronly) (single : owners ino ≤ 1) (unreferenced : Unreferenced ip)
include tidy mine disks owner ronly single unreferenced

theorem Tidy.take [DecidableEq ι] {pc : Pc} (before : ∀ n, (s.pc p).holds = some n → n = ino)
    (hand : (pc.holds = some ino ∧ ip.lock = some p) ∨ (pc.holds = none ∧ (ip.lock = none ∨ ip.lock = some p)))
    (known : Known fs.ronly (disk (place ino)) (owners ino) ip pc) :
    Tidy {s with fs,disk,owners,table := update s.table ino (some ip),pc := update s.pc p pc} := by
  refine @Tidy.touch ι s _ ino p tidy ?_ disks owner ?_ ronly before ?_ ?_ ?_ single
  · intro n other
    simp [other]
  · intro q other
    simp [other]
  · intro n busy
    have busy : pc.holds = some n := by simpa using busy
    rcases hand with ⟨holds,lock⟩ | ⟨away,-⟩
    · exact ⟨Option.some.inj (busy.symm.trans holds),ip,by simp,lock⟩
    · cases away.symm.trans busy
  · intro q other busy
    exact absurd (tidy.nobody mine busy) other
  · rcases hand with ⟨holds,lock⟩ | ⟨away,lock⟩
    · exact sound_present (by simp) (by simp [stage,lock,holds]) unreferenced known
    · exact sound_present (by simp) (stage_idle (p := p) (by simpa using away) lock) unreferenced ((known_away away).mp known)

theorem Tidy.put (idle : (s.pc p).holds = none) (lock : ip.lock = none ∨ ip.lock = some p)
    (known : Known fs.ronly (disk (place ino)) (owners ino) ip .idle) :
    Tidy {s with fs,disk,owners,table := update s.table ino (some ip)} := by
  classical
  have before : ∀ n, (s.pc p).holds = some n → n = ino := fun n busy => by cases idle.symm.trans busy
  have kept := tidy.take mine disks owner ronly single unreferenced before (.inr ⟨idle,lock⟩) ((known_away idle).mpr known)
  rwa [update_eq_self] at kept

end

/-- What a process that has no inode in hand knows of one that nobody else has locked. -/
structure Mine (s : State ι) (p : ι) (ino : Nat) (ip : Inode ι) : Prop where
  idle : (s.pc p).holds = none
  mine : ∀ ip, s.table ino = some ip → ip.lock = none ∨ ip.lock = some p
  loaded : Loaded s.fs.ronly (s.disk (place ino)) ip
  owned : s.owners ino ≠ 0 → ip.node.mode ≠ 0 ∧ (s.fs.ronly = true → ip.count ≠ 0)

theorem mine_of_table (tidy : Tidy s) (idle : (s.pc p).holds = none)
    (here : s.table ino = some ip) (lock : ip.lock = none ∨ ip.lock = some p) : Mine s p ino ip ∧ Unreferenced ip := by
  obtain ⟨unreferenced,loaded,owned⟩ := tidy.mine here idle lock
  refine ⟨⟨idle,?_,loaded,owned⟩,unreferenced⟩
  intro other there
  rw [here] at there
  cases there
  exact lock

theorem Mine.before (mine : Mine s p ino ip) (n : Nat) (busy : (s.pc p).holds = some n) : n = ino := by
  cases mine.idle.symm.trans busy

theorem Mine.keep (tidy : Tidy s) (mine : Mine s p ino ip)
    (lock : ip.lock = none ∨ ip.lock = some p) (unreferenced : Unreferenced ip) : Tidy (s.keep ino ip) :=
  tidy.put mine.mine (fun _ _ => rfl) (fun _ _ => rfl) rfl (tidy.single ino) unreferenced mine.idle lock ⟨mine.loaded,mine.owned⟩

theorem sleeps_iff {ronly : Bool} :
    sleeps ronly ip = true ↔ ip.count = 1 ∧ ronly = false ∧ (ip.node.nlink = 0 ∨ ip.dirty = true) := by
  simp [sleeps,and_assoc]

theorem Mine.settle (tidy : Tidy s) (mine : Mine s p ino ip) (clean : s.fs.ronly = false → ip.dirty = false) :
    Tidy (settle s ino ip) := by
  have loaded : Loaded s.fs.ronly (s.disk (place ino))
      ({ip with lock := none,count := ip.count - 1,dirty := false,mount := false} : Inode ι) :=
    ⟨mine.loaded.zero,fun _ ronly => mine.loaded.clean (clean ronly) ronly⟩
  rw [InodeAllocation.settle]
  split_ifs with ronly
  · apply tidy.put mine.mine
    · intro _ _
      rfl
    · intro n other
      simp [State.keep,other]
    · rfl
    · have single := tidy.single ino
      simp only [State.keep,update_self]
      omega
    · exact fun _ => ⟨rfl,rfl⟩
    · exact mine.idle
    · exact .inl rfl
    · have single := tidy.single ino
      refine ⟨loaded,fun owned => ?_⟩
      simp only [State.keep,update_self] at owned
      omega
  · apply tidy.put mine.mine (fun _ _ => rfl) (fun _ _ => rfl) rfl (tidy.single ino) (fun _ => ⟨rfl,rfl⟩) mine.idle (.inl rfl)
    exact ⟨loaded,fun owned => ⟨(mine.owned owned).1,fun yes => absurd yes ronly⟩⟩

theorem Mine.releNow (tidy : Tidy s) (mine : Mine s p ino ip)
    (lock : ip.lock = none ∨ ip.lock = some p) (referenced : 0 < ip.count) (awake : sleeps s.fs.ronly ip ≠ true) :
    Tidy (releNow s ino ip) := by
  rw [InodeAllocation.releNow]
  split_ifs with last
  · apply mine.settle tidy
    intro ronly
    by_contra dirty
    exact awake (sleeps_iff.mpr ⟨last,ronly,.inr (by simpa using dirty)⟩)
  refine Mine.keep tidy (p := p) ⟨mine.idle,mine.mine,⟨mine.loaded.zero,mine.loaded.clean⟩,?_⟩ lock ?_
  · intro owned
    refine ⟨(mine.owned owned).1,fun _ => ?_⟩
    change ip.count - 1 ≠ 0
    omega
  · intro none
    change ip.count - 1 = 0 at none
    omega

theorem Mine.unlock (mine : Mine s p ino ip) : Mine s p ino {ip with lock := none} :=
  ⟨mine.idle,mine.mine,⟨mine.loaded.zero,mine.loaded.clean⟩,mine.owned⟩

theorem referenced_of_lock (unreferenced : Unreferenced ip) (lock : ip.lock = some p) : 0 < ip.count := by
  by_contra none
  have free := (unreferenced (by omega)).1
  rw [lock] at free
  cases free

theorem Tidy.recount (tidy : Tidy s) (p : ι) (idle : (s.pc p).holds = none)
    (here : s.table ino = some ip) (shared : 1 < ip.count) {count : Nat} (some : count ≠ 0) :
    Tidy (s.keep ino {ip with count}) := by
  have known := (tidy.known here).2
  refine @Tidy.touch ι s _ ino p tidy ?_ ?_ ?_ ?_ ?_ ?_ ?_ ?_ ?_ ?_
  · intro n other
    simp [State.keep,other]
  · intro _ _
    rfl
  · intro _ _
    rfl
  · intro _ _
    rfl
  · rfl
  · intro n busy
    rw [idle] at busy
    cases busy
  · intro n busy
    change (s.pc p).holds = _ at busy
    rw [idle] at busy
    cases busy
  · intro q _ busy
    obtain ⟨same,there,locked⟩ := tidy.holds q ino busy
    rw [here] at there
    cases there
    exact ⟨{ip with count},by simp [State.keep],locked⟩
  · refine @sound_present ι (s.keep ino {ip with count}) ino {ip with count} (stage s ino ip) (by simp [State.keep]) rfl ?_ ?_
    · exact fun none => absurd none some
    change Known s.fs.ronly (s.disk (place ino)) (s.owners ino) _ _
    revert known
    cases stage s ino ip <;> intro known
    case reading => exact absurd known.1 (by omega)
    case truncating => exact absurd known.1 (by omega)
    case updating => exact absurd known.1 (by omega)
    case returned => exact known
    all_goals exact ⟨⟨known.1.zero,known.1.clean⟩,fun owned => ⟨(known.2 owned).1,fun _ => some⟩⟩
  · exact tidy.single ino

theorem Mine.iupdat (tidy : Tidy s) (mine : Mine s p ino ip)
    (lock : ip.lock = none ∨ ip.lock = some p) (referenced : ip.count ≠ 0) : Tidy (iupdat s ino ip) := by
  rw [InodeAllocation.iupdat]
  split_ifs with write
  · apply tidy.put mine.mine
    · intro n other
      simp [place_injective.ne other]
    · intro _ _
      rfl
    · rfl
    · exact tidy.single ino
    · exact fun none => absurd none referenced
    · exact mine.idle
    · exact lock
    · simp only [update_self]
      exact ⟨⟨id,fun _ _ => rfl⟩,mine.owned⟩
  · exact tidy

theorem recycle_tidy (tidy : Tidy s) (here : s.table ino = some ip) (unused : ip.count = 0) :
    Tidy {s with table := update s.table ino none} := by
  have known := tidy.known here
  obtain ⟨free,clean⟩ := known.1 unused
  rw [stage_unlocked free] at known
  have kept : ∀ q n, (s.pc q).holds = some n → n ≠ ino := by
    rintro q n busy rfl
    obtain ⟨other,there,locked⟩ := tidy.holds q n busy
    rw [here] at there
    cases there
    rw [free] at locked
    cases locked
  refine ⟨?_,?_,tidy.single⟩
  · intro q n busy
    simp only [update_of_ne (kept q n busy)]
    exact tidy.holds q n busy
  intro n
  by_cases it : n = ino
  · subst it
    apply sound_absent (by simp)
    intro owned
    obtain ⟨used,written⟩ := known.2.2 owned
    cases ronly : s.fs.ronly with
    | true => exact absurd unused (written ronly)
    | false =>
      have same := known.2.1.clean clean ronly
      rwa [← same]
  · exact (tidy.sound n).frame (by simp [it]) rfl rfl rfl fun _ _ => rfl

theorem releNow_idle (idle : (s.pc p).holds = none) (ino : Nat) (ip : Inode ι) : ((releNow s ino ip).pc p).holds = none := by
  rw [releNow,settle]
  split_ifs <;> exact idle

theorem refer_tidy (tidy : Tidy s) (here : s.table ino = some ip)
    (able : s.pc p = .idle ∧ 0 < ip.count ∧ (ip.lock = none ∨ ip.lock = some p ∨ 1 < ip.count)) :
    Tidy (s.keep ino {ip with count := ip.count + 1}) := by
  obtain ⟨idle,some,who⟩ := able
  have away : (s.pc p).holds = none := by rw [idle]; rfl
  by_cases shared : 1 < ip.count
  · exact tidy.recount p away here shared (by simp)
  have lock : ip.lock = none ∨ ip.lock = Option.some p := by simpa [shared] using who
  obtain ⟨mine,-⟩ := mine_of_table tidy away here lock
  refine Mine.keep (p := p) tidy ⟨mine.idle,mine.mine,⟨mine.loaded.zero,mine.loaded.clean⟩,?_⟩ lock ?_
  · exact fun owned => ⟨(mine.owned owned).1,fun _ => by simp⟩
  · exact fun none => absurd none (by simp)

variable [DecidableEq ι]

@[simp] theorem at_pc (s : State ι) (p : ι) (pc : Pc) : (s.at p pc).pc p = pc := by
  simp [State.at]

theorem at_other (s : State ι) {q : ι} (pc : Pc) (ne : q ≠ p) : (s.at p pc).pc q = s.pc q := by
  simp [State.at,ne]

theorem Tidy.at (tidy : Tidy s) (idle : (s.pc p).holds = none) {pc : Pc} (away : pc.holds = none) : Tidy (s.at p pc) := by
  have moved : ∀ q n, (s.pc q).holds = some n ∨ ((s.at p pc).pc q).holds = some n → (s.at p pc).pc q = s.pc q := by
    intro q n busy
    apply at_other
    rintro rfl
    simp [idle,away] at busy
  refine ⟨?_,?_,tidy.single⟩
  · intro q n busy
    rw [moved q n (.inr busy)] at busy
    exact tidy.holds q n busy
  · intro n
    exact (tidy.sound n).frame rfl rfl rfl rfl fun q => moved q n

theorem Mine.handOut (tidy : Tidy s) (mine : Mine s p ino ip)
    (lock : ip.lock = some p) (unreferenced : Unreferenced ip) (free : ip.node.mode = 0) : Tidy (handOut s p ino ip) := by
  have unowned : s.owners ino = 0 := by
    by_contra owned
    exact (mine.owned owned).1 free
  apply tidy.take mine.mine
  · intro _ _
    rfl
  · intro n other
    simp [State.keep,other]
  · rfl
  · simp [State.keep,unowned]
  · exact unreferenced
  · exact mine.before
  · exact .inl ⟨rfl,lock⟩
  · exact ⟨free,mine.loaded.zero free⟩

theorem Mine.releAsleep (tidy : Tidy s) (mine : Mine s p ino ip)
    (asleep : sleeps s.fs.ronly ip = true) (caller : Caller) : Tidy (releAsleep s p ino ip caller) := by
  obtain ⟨last,ronly,why⟩ := sleeps_iff.mp asleep
  apply tidy.take mine.mine (fun _ _ => rfl) (fun _ _ => rfl) rfl (tidy.single ino)
  · intro none
    change ip.count = 0 at none
    omega
  · exact mine.before
  · refine .inl ⟨?_,rfl⟩
    split_ifs <;> rfl
  · split_ifs with unlinked
    · exact ⟨last,ronly,⟨mine.loaded.zero,mine.loaded.clean⟩,fun owned => (mine.owned owned).1⟩
    have dirty : ip.dirty = true := by simpa [unlinked] using why
    exact ⟨last,ronly,dirty,fun owned => (mine.owned owned).1⟩

def Got.Tidy (p : ι) (ino : Nat) : Got ι → Prop
  | .full => True
  | .asleep s => InodeAllocation.Tidy s
  | .locked s ip => InodeAllocation.Tidy s ∧ Mine s p ino ip ∧ Unreferenced ip ∧ s.table ino = some ip ∧ ip.lock = some p

theorem iget_tidy (tidy : Tidy s) (idle : (s.pc p).holds = none) (ino : Nat) (caller : Caller) (full : Bool) :
    (iget s p ino caller full).Tidy p ino := by
  rw [iget]
  cases here : s.table ino with
  | none =>
    cases full with
    | true => trivial
    | false =>
      have taken := tidy.sound ino
      rw [Sound,here] at taken
      have nobody : ∀ ip, s.table ino = some ip → ip.lock = none ∨ ip.lock = some p :=
        fun ip there => by cases here.symm.trans there
      apply tidy.take nobody (fun _ _ => rfl) (fun _ _ => rfl) rfl (tidy.single ino)
      · exact fun none => absurd none Nat.one_ne_zero
      · exact fun n busy => by cases idle.symm.trans busy
      · exact .inl ⟨rfl,rfl⟩
      · exact ⟨rfl,rfl,taken⟩
  | some ip =>
    dsimp only
    split_ifs with locked mounted
    · exact tidy.at idle rfl
    · exact tidy.at idle rfl
    have free : ip.lock = none := by simpa using locked
    obtain ⟨mine,-⟩ := mine_of_table tidy idle here (.inl free)
    have now : Mine s p ino {ip with count := ip.count + 1,lock := some p} :=
      ⟨idle,mine.mine,⟨mine.loaded.zero,mine.loaded.clean⟩,fun owned => ⟨(mine.owned owned).1,fun _ => by simp⟩⟩
    have counted : Unreferenced ({ip with count := ip.count + 1,lock := some p} : Inode ι) := fun none => absurd none (by simp)
    have kept := now.keep tidy (.inr rfl) counted
    have there : (s.keep ino {ip with count := ip.count + 1,lock := some p}).table ino =
        some {ip with count := ip.count + 1,lock := some p} := by simp [State.keep]
    exact ⟨kept,(mine_of_table kept idle there (.inr rfl)).1,counted,there,rfl⟩

theorem startScan_cases (s : State ι) (p : ι) : (itod s.fs.lasti < s.fs.isize ∧ startScan s p =
      {s with fs := {s.fs with ilock := s.fs.ilock + 1}}.at p (.scanning true s.fs.lasti (itod s.fs.lasti) [])) ∨
    (1 < s.fs.isize ∧ startScan s p = {s with fs := {s.fs with ilock := s.fs.ilock + 1,nbehind := 0}}.at p
    (.scanning false 1 1 [])) ∨
    (s.fs.isize ≤ 1 ∧ startScan s p = {s with fs := {s.fs with ilock := 0,nbehind := 0,lasti := 0}}.at p (.enospc emsg [])) := by
  by_cases few : s.fs.nbehind < 4 * nicinod
  · by_cases inside : itod s.fs.lasti < s.fs.isize
    · exact .inl ⟨inside,by simp [startScan,nextBlock,few,inside]⟩
    by_cases some : 1 < s.fs.isize
    · exact .inr (.inl ⟨some,by simp [startScan,fromtop,nextBlock,few,inside,some]⟩)
    · exact .inr (.inr ⟨by omega,by simp [startScan,fromtop,nextBlock,fruitless,State.unlockScan,few,inside,some]⟩)
  · by_cases some : 1 < s.fs.isize
    · exact .inr (.inl ⟨some,by simp [startScan,fromtop,nextBlock,few,some]⟩)
    · exact .inr (.inr ⟨by omega,by simp [startScan,fromtop,nextBlock,fruitless,State.unlockScan,few,some]⟩)

theorem startScan_tidy (tidy : Tidy s) (idle : (s.pc p).holds = none) : Tidy (startScan s p) := by
  rcases startScan_cases s p with ⟨-,begun⟩ | ⟨-,begun⟩ | ⟨-,begun⟩
  · rw [begun]
    have counted : Tidy {s with fs := {s.fs with ilock := s.fs.ilock + 1}} := tidy.fs rfl
    exact counted.at idle rfl
  · rw [begun]
    have counted : Tidy {s with fs := {s.fs with ilock := s.fs.ilock + 1,nbehind := 0}} := tidy.fs rfl
    exact counted.at idle rfl
  · rw [begun]
    have cleared : Tidy {s with fs := {s.fs with ilock := 0,nbehind := 0,lasti := 0}} := tidy.fs rfl
    exact cleared.at idle rfl

theorem loop_tidy (p : ι) (full : Bool) (inode : List Nat) (tidy : Tidy s) (idle : (s.pc p).holds = none) :
    Tidy (loop p full inode s) := by
  induction inode generalizing s with
  | nil =>
    have empty : Tidy {s with fs := {s.fs with inode := []}} := tidy.fs rfl
    exact startScan_tidy empty idle
  | cons ino rest ih =>
    have popped : Tidy {s with fs := {s.fs with inode := rest}} := tidy.fs rfl
    rw [loop]
    dsimp only
    split_ifs with low
    · exact ih popped idle
    have got := iget_tidy popped idle ino .ialloc full
    split
    · exact popped.at idle rfl
    · next asleep => rwa [asleep] at got
    next now ip locked =>
    rw [locked] at got
    obtain ⟨kept,mine,unreferenced,-,lock⟩ := got
    split_ifs with free sleep
    · exact mine.handOut kept lock unreferenced free
    · exact mine.releAsleep kept sleep .ialloc
    have referenced := referenced_of_lock unreferenced lock
    exact ih (mine.unlock.releNow kept (.inl rfl) referenced sleep) (releNow_idle mine.idle _ _)

section
variable (tidy : Tidy s)
include tidy

section
variable (idle : (s.pc p).holds = none)
include idle

theorem finish_tidy (full : Bool) (inobas : Nat)
    (seen : List (Nat × Bool)) : Tidy (finish s p full inobas seen) := by
  have unlocked : Tidy (s.unlockScan inobas) := tidy.fs rfl
  rw [finish]
  split_ifs
  · exact loop_tidy p full _ unlocked idle
  · exact unlocked.at idle rfl

theorem endPass_tidy (full first : Bool) (inobas : Nat)
    (seen : List (Nat × Bool)) : Tidy (endPass s p full first inobas seen) := by
  have onTop : Tidy {s with fs := {s.fs with nbehind := 0}} := tidy.fs rfl
  rw [endPass,fromtop,nextBlock]
  split_ifs
  · exact onTop.at idle rfl
  · exact finish_tidy onTop idle full 0 []
  · exact finish_tidy tidy idle full inobas seen

theorem scanned_tidy {full first : Bool} {adr : Nat}
    {seen : List (Nat × Bool)} (ok : scanned s p full first ino adr seen = .ok t) : Tidy t := by
  rw [scanned] at ok
  split at ok
  · cases ok
  next inode seen _ =>
  cases ok
  have found : Tidy {s with fs := {s.fs with inode}} := tidy.fs rfl
  rw [nextBlock]
  split_ifs
  · exact endPass_tidy found idle full first ino seen
  · exact found.at idle rfl
  · exact endPass_tidy found idle full first ino seen

theorem ialloc_tidy (full : Bool) : Tidy (ialloc s p full) := by
  rw [ialloc]
  split_ifs
  · exact tidy.at idle rfl
  · exact loop_tidy p full _ tidy idle

theorem gotten_tidy
    (here : s.table ino = some ip) (lock : ip.lock = some p) (full : Bool) (caller : Caller) :
    Tidy (gotten s p ino ip full caller) := by
  cases caller with
  | other => exact tidy
  | ialloc =>
    obtain ⟨mine,unreferenced⟩ := mine_of_table tidy idle here (.inr lock)
    have referenced := referenced_of_lock unreferenced lock
    rw [gotten,tested]
    split_ifs with free sleep
    · exact mine.handOut tidy lock unreferenced free
    · exact mine.releAsleep tidy sleep .ialloc
    · exact loop_tidy p full _ (mine.unlock.releNow tidy (.inl rfl) referenced sleep) (releNow_idle idle _ _)

theorem released_tidy (full : Bool) (caller : Caller) : Tidy (released s p full caller) := by
  cases caller with
  | other => exact tidy
  | ialloc => exact loop_tidy p full _ tidy idle

end

theorem reading_tidy (asleep : s.pc p = .reading ino caller) (here : s.table ino = some ip) :
    Tidy ((s.at p .idle).keep ino {ip with node := s.disk (place ino)}) ∧ ip.lock = some p := by
  obtain ⟨lock,⟨counted,clean,taken⟩,before,mine⟩ := tidy.busy asleep rfl here
  refine ⟨?_,lock⟩
  apply tidy.take mine (fun _ _ => rfl) (fun _ _ => rfl) rfl (tidy.single ino)
  · intro none
    change ip.count = 0 at none
    omega
  · exact before
  · exact .inr ⟨rfl,.inr lock⟩
  · refine ⟨⟨id,fun _ _ => rfl⟩,fun owned => ⟨taken owned,fun _ => ?_⟩⟩
    change ip.count ≠ 0
    omega

theorem updating_tidy (asleep : s.pc p = .updating ino caller)
    (here : s.table ino = some ip) : Tidy (settle (iupdat (s.at p .idle) ino ip) ino ip) := by
  obtain ⟨lock,⟨counted,ronly,dirty,taken⟩,before,mine⟩ := tidy.busy asleep rfl here
  have same : settle (iupdat (s.at p .idle) ino ip) ino ip = {s with
      disk := update s.disk (place ino) ip.node
      table := update s.table ino (some {ip with lock := none,count := ip.count - 1,dirty := false,mount := false})
      pc := update s.pc p .idle} := by
    simp [settle,iupdat,State.at,State.keep,ronly,dirty]
  rw [same]
  apply tidy.take mine
  · intro n other
    simp [place_injective.ne other]
  · intro _ _
    rfl
  · rfl
  · exact tidy.single ino
  · exact fun _ => ⟨rfl,rfl⟩
  · exact before
  · exact .inr ⟨rfl,.inl rfl⟩
  · refine ⟨⟨?_,?_⟩,fun owned => ⟨taken owned,fun yes => ?_⟩⟩
    · simp
    · simp
    rw [ronly] at yes
    cases yes

theorem resume_tidy {full : Bool} (ok : resume s p full = .ok t) : Tidy t := by
  have idle : ((s.at p .idle).pc p).holds = none := by simp [Pc.holds]
  have leaves : ∀ caller : Caller, (if caller = .ialloc then Pc.enfile else .idle).holds = none := by
    intro caller
    split_ifs <;> rfl
  rw [resume] at ok
  dsimp only at ok
  split at ok
  · next here =>
    cases ok
    exact ialloc_tidy (tidy.at (by simp [here,Pc.holds]) rfl) idle full
  · next ino caller here =>
    have awake : Tidy (s.at p .idle) := tidy.at (by simp [here,Pc.holds]) rfl
    have got := iget_tidy awake idle ino caller full
    split at ok
    · cases ok
      exact tidy.at (by simp [here,Pc.holds]) (leaves caller)
    · next asleep =>
      cases ok
      rwa [asleep] at got
    next now ip locked =>
    cases ok
    rw [locked] at got
    obtain ⟨kept,mine,-,there,lock⟩ := got
    exact gotten_tidy kept mine.idle there lock full caller
  · next ino caller here =>
    split at ok
    · cases ok
    next ip there =>
    cases ok
    obtain ⟨kept,lock⟩ := reading_tidy tidy here there
    have now : ((s.at p .idle).keep ino {ip with node := s.disk (place ino)}).table ino =
      some {ip with node := s.disk (place ino)} := by
      simp [State.keep]
    exact gotten_tidy kept idle now lock full caller
  · next caller here =>
    split at ok
    · cases ok
      exact tidy.at (by simp [here,Pc.holds]) (leaves caller)
    cases ok
    exact released_tidy (tidy.at (by simp [here,Pc.holds]) rfl) idle full caller
  · next ino caller here =>
    split at ok
    · cases ok
    next ip there =>
    cases ok
    apply released_tidy (updating_tidy tidy here there)
    rw [settle,iupdat]
    split_ifs <;> exact idle
  · next here => exact scanned_tidy (tidy.at (by simp [here,Pc.holds]) rfl) idle ok
  · cases ok

theorem Mine.irele (mine : Mine s p ino ip)
    (lock : ip.lock = none ∨ ip.lock = some p) (referenced : 0 < ip.count) : Tidy (irele s p ino ip) := by
  rw [InodeAllocation.irele]
  split_ifs with sleep
  · exact mine.releAsleep tidy sleep .other
  · exact mine.releNow tidy lock referenced sleep

theorem returned_tidy (got : s.pc p = .returned ino) (here : s.table ino = some ip) :
    (∀ node : Dinode, node.mode ≠ 0 → Tidy ((s.keep ino {ip with node,dirty := true}).at p .idle)) ∧
      Tidy (InodeAllocation.irele ((s.at p .idle).disown ino) p ino {ip with lock := none}) := by
  obtain ⟨lock,known,before,mine⟩ := tidy.busy got rfl here
  have referenced := referenced_of_lock (tidy.known here).1 lock
  refine ⟨?_,?_⟩
  · intro node used
    apply tidy.take mine (fun _ _ => rfl) (fun _ _ => rfl) rfl (tidy.single ino)
    · intro none
      change ip.count = 0 at none
      omega
    · exact before
    · exact .inr ⟨rfl,.inr lock⟩
    · refine ⟨⟨fun zero => absurd zero used,fun dirty => by cases dirty⟩,fun _ => ⟨used,fun _ => ?_⟩⟩
      change ip.count ≠ 0
      omega
  have single := tidy.single ino
  have given : Tidy ((s.at p .idle).disown ino) := by
    have again : (s.at p .idle).disown ino = {s with
        owners := update s.owners ino (s.owners ino - 1)
        table := update s.table ino (some ip)
        pc := update s.pc p .idle} := by
      rw [← here,update_eq_self]
      rfl
    rw [again]
    apply tidy.take mine (fun _ _ => rfl)
    · intro n other
      simp [other]
    · rfl
    · simp only [update_self]
      omega
    · exact (tidy.known here).1
    · exact before
    · exact .inr ⟨rfl,.inr lock⟩
    · refine ⟨⟨fun _ => known.2,fun _ _ => known.1.trans known.2.symm⟩,fun owned => ?_⟩
      simp only [update_self] at owned
      omega
  have now := (mine_of_table (p := p) given (by simp [State.disown,Pc.holds]) here (.inr lock)).1
  exact now.unlock.irele given (.inl rfl) referenced

theorem truncated_tidy (asleep : s.pc p = .truncating ino caller)
    (here : s.table ino = some ip) (addr : List Nat) : Tidy (truncated s p ino ip addr caller) := by
  obtain ⟨lock,⟨counted,ronly,-,-⟩,before,mine⟩ := tidy.busy asleep rfl here
  have same : (ifree s.fs ino).ronly = s.fs.ronly := by
    rw [ifree]
    split_ifs <;> rfl
  have single := tidy.single ino
  apply tidy.take mine
  · intro _ _
    rfl
  · intro n other
    simp [State.at,State.keep,other]
  · exact same
  · simp only [State.at,State.keep,update_self]
    omega
  · intro none
    change ip.count = 0 at none
    omega
  · exact before
  · exact .inl ⟨rfl,lock⟩
  · refine ⟨counted,same.trans ronly,rfl,fun owned => ?_⟩
    simp only [State.at,State.keep,update_self] at owned
    omega

theorem truncating_iupdat (asleep : s.pc p = .truncating ino caller) (here : s.table ino = some ip) :
    Tidy (iupdat s ino ip) := by
  obtain ⟨lock,⟨counted,ronly,-,taken⟩,before,mine⟩ := tidy.busy asleep rfl here
  rw [iupdat]
  split_ifs with write
  · have again : ({s with
        disk := update s.disk (place ino) ip.node
        table := update s.table ino (some {ip with dirty := false})} : State ι) = {s with
        disk := update s.disk (place ino) ip.node
        table := update s.table ino (some {ip with dirty := false})
        pc := update s.pc p (.truncating ino caller)} := by
      rw [← asleep,update_eq_self]
    rw [again]
    apply tidy.take mine
    · intro n other
      simp [place_injective.ne other]
    · intro _ _
      rfl
    · rfl
    · exact tidy.single ino
    · intro none
      change ip.count = 0 at none
      omega
    · exact before
    · exact .inl ⟨rfl,lock⟩
    · simp only [update_self]
      exact ⟨counted,ronly,⟨id,fun _ _ => rfl⟩,taken⟩
  · exact tidy

end

theorem held_some (found : held s p ino = some ip) : s.table ino = some ip ∧ ip.lock = some p ∧ s.pc p = .idle := by
  simpa [held,Option.filter_eq_some_iff] using found

theorem held_mine (tidy : Tidy s) (found : held s p ino = some ip) :
    Mine s p ino ip ∧ Unreferenced ip ∧ ip.lock = some p ∧ 0 < ip.count := by
  obtain ⟨here,lock,idle⟩ := held_some found
  obtain ⟨mine,unreferenced⟩ := mine_of_table (p := p) tidy (by rw [idle]; rfl) here (.inr lock)
  exact ⟨mine,unreferenced,lock,referenced_of_lock unreferenced lock⟩

theorem iget_full {full : Bool} (got : iget s p ino caller full = .full) : full = true := by
  rw [iget] at got
  split at got
  · dsimp only at got
    split_ifs at got
  · split_ifs at got with room
    exact room

end

section
variable {ι : Type} [DecidableEq ι] {s t : State ι}

inductive Done (s : State ι) : Op ι → State ι → Prop where
  | ialloc {p} (idle : s.pc p = .idle) (full : Bool) : Done s (.ialloc p full) (ialloc s p full)
  | resume {p full t} (ok : resume s p full = .ok t) : Done s (.resume p full) t
  | fill {p node ino ip} (got : s.pc p = .returned ino) (here : s.table ino = some ip)
    (used : node.mode ≠ 0) : Done s (.fill p node) ((s.keep ino {ip with node,dirty := true}).at p .idle)
  | giveUp {p ino ip} (got : s.pc p = .returned ino) (here : s.table ino = some ip) :
    Done s (.giveUp p) (irele ((s.at p .idle).disown ino) p ino {ip with lock := none})
  | failed {p} (got : (s.pc p).holds = none) : Done s (.failed p) (s.at p .idle)
  | truncated {p ino ip caller} (asleep : s.pc p = .truncating ino caller)
    (here : s.table ino = some ip) (addr : List Nat) : Done s (.truncated p addr) (truncated s p ino ip addr caller)
  | full {p ino} : Done s (.iget p ino true) s
  | asleep {p ino full t} (idle : s.pc p = .idle) (inside : ino < s.fs.inoEnd)
    (got : iget s p ino .other full = .asleep t) : Done s (.iget p ino full) t
  | locked {p ino full t ip} (idle : s.pc p = .idle) (inside : ino < s.fs.inoEnd)
    (got : iget s p ino .other full = .locked t ip) : Done s (.iget p ino full) t
  | igrab {p ino ip} (here : s.table ino = some ip) (able : s.pc p = .idle ∧ ip.lock = none) :
    Done s (.igrab p ino) (s.keep ino {ip with count := ip.count + 1,lock := some p})
  | refer {p ino ip} (here : s.table ino = some ip)
    (able : s.pc p = .idle ∧ 0 < ip.count ∧ (ip.lock = none ∨ ip.lock = some p ∨ 1 < ip.count)) :
    Done s (.refer p ino) (s.keep ino {ip with count := ip.count + 1})
  | ilock {p ino ip} (here : s.table ino = some ip) (able : s.pc p = .idle ∧ ip.lock = none ∧ 0 < ip.count) :
    Done s (.ilock p ino) (s.keep ino {ip with lock := some p})
  | iunlock {p ino ip} (found : held s p ino = some ip) : Done s (.iunlock p ino) (s.keep ino {ip with lock := none})
  | change {p ino ip node} (found : held s p ino = some ip) (used : node.mode ≠ 0) :
    Done s (.change p ino node) (s.keep ino {ip with node,dirty := true})
  | mount {p ino ip} (found : held s p ino = some ip) (mount : Bool) :
    Done s (.mount p ino mount) (s.keep ino {ip with mount})
  | iupdat {p ino ip} (here : s.table ino = some ip)
    (able : ip.lock = some p ∧ (s.pc p = .idle ∨ s.pc p = .truncating ino .other ∨ s.pc p = .truncating ino .ialloc)) :
    Done s (.iupdat p ino) (iupdat s ino ip)
  | iput {p ino ip} (found : held s p ino = some ip) : Done s (.iput p ino) (irele s p ino {ip with lock := none})
  | irele {p ino ip} (here : s.table ino = some ip)
    (able : s.pc p = .idle ∧ 0 < ip.count ∧ (ip.lock = none ∨ 1 < ip.count)) : Done s (.irele p ino) (irele s p ino ip)
  | recycle {ino ip} (here : s.table ino = some ip) (unused : ip.count = 0) :
    Done s (.recycle ino) {s with table := update s.table ino none}

theorem step_done {op : Op ι} (ok : step s op = .ok t) : Done s op t := by
  cases op with
  | ialloc p full =>
    simp only [step] at ok
    split_ifs at ok with idle
    cases ok
    exact .ialloc idle full
  | resume p full => exact .resume ok
  | fill p node =>
    simp only [step] at ok
    split at ok
    · split at ok
      · split_ifs at ok with used
        cases ok
        exact .fill ‹_› ‹_› used
      · cases ok
    · cases ok
  | giveUp p =>
    simp only [step] at ok
    split at ok
    · split at ok
      · cases ok
        exact .giveUp ‹_› ‹_›
      · cases ok
    · cases ok
  | failed p =>
    simp only [step] at ok
    split at ok
    · next got =>
      cases ok
      exact .failed (by rw [got]; rfl)
    · next got =>
      cases ok
      exact .failed (by rw [got]; rfl)
    · cases ok
  | truncated p addr =>
    simp only [step] at ok
    split at ok
    · split at ok
      · cases ok
        exact .truncated ‹_› ‹_› addr
      · cases ok
    · cases ok
  | iget p ino full =>
    simp only [step] at ok
    split_ifs at ok with able
    cases got : InodeAllocation.iget s p ino .other full with
    | full =>
      rw [got] at ok
      cases ok
      rw [iget_full got]
      exact .full
    | asleep u =>
      rw [got] at ok
      cases ok
      exact .asleep able.1 able.2.2 got
    | locked u ip =>
      rw [got] at ok
      cases ok
      exact .locked able.1 able.2.2 got
  | igrab p ino | refer p ino | ilock p ino | iupdat p ino | irele p ino | recycle ino =>
    simp only [step] at ok
    split at ok
    · split_ifs at ok with able
      cases ok
      constructor <;> assumption
    · cases ok
  | iunlock p ino | mount p ino mounted | iput p ino =>
    simp only [step] at ok
    split at ok
    · cases ok
      constructor
      assumption
    · cases ok
  | change p ino node =>
    simp only [step] at ok
    split at ok
    · split_ifs at ok with used
      cases ok
      exact .change ‹_› used
    · cases ok

variable {ino : Nat} {ip : Inode ι} {p : ι}

theorem change_tidy (tidy : Tidy s) (found : held s p ino = some ip) {node : Dinode} (used : node.mode ≠ 0) :
    Tidy (s.keep ino {ip with node,dirty := true}) := by
  obtain ⟨mine,unreferenced,lock,referenced⟩ := held_mine tidy found
  refine Mine.keep (p := p) tidy ⟨mine.idle,mine.mine,?_,?_⟩ (.inr lock) ?_
  · exact ⟨fun zero => absurd zero used,fun dirty => by cases dirty⟩
  · exact fun owned => ⟨used,(mine.owned owned).2⟩
  intro none
  change ip.count = 0 at none
  omega

theorem irele_tidy (tidy : Tidy s) (here : s.table ino = some ip)
    (able : s.pc p = .idle ∧ 0 < ip.count ∧ (ip.lock = none ∨ 1 < ip.count)) : Tidy (irele s p ino ip) := by
  obtain ⟨idle,some,who⟩ := able
  have away : (s.pc p).holds = none := by rw [idle]; rfl
  by_cases shared : 1 < ip.count
  · have awake : sleeps s.fs.ronly ip ≠ true := by
      intro sleep
      have := (sleeps_iff.mp sleep).1
      omega
    have still : ip.count ≠ 1 := by omega
    rw [InodeAllocation.irele,if_neg awake,releNow,if_neg still]
    exact tidy.recount p away here shared (by omega)
  · have free : ip.lock = none := by simpa [shared] using who
    exact (mine_of_table tidy away here (.inl free)).1.irele tidy (.inl free) some

theorem step_tidy {op : Op ι} (tidy : Tidy s) (ok : step s op = .ok t) : Tidy t := by
  cases step_done ok with
  | ialloc idle full => exact ialloc_tidy tidy (by rw [idle]; rfl) full
  | resume ok => exact resume_tidy tidy ok
  | fill got here used => exact (returned_tidy tidy got here).1 _ used
  | giveUp got here => exact (returned_tidy tidy got here).2
  | failed got => exact tidy.at got rfl
  | truncated asleep here addr => exact truncated_tidy tidy asleep here addr
  | full => exact tidy
  | @asleep p ino full t idle inside asleep =>
    have got := iget_tidy tidy (p := p) (by rw [idle]; rfl) ino .other full
    rwa [asleep] at got
  | @locked p ino full t ip idle inside locked =>
    have got := iget_tidy tidy (p := p) (by rw [idle]; rfl) ino .other full
    rw [locked] at got
    exact got.1
  | @igrab p ino ip here able =>
    obtain ⟨mine,-⟩ := mine_of_table (p := p) tidy (by rw [able.1]; rfl) here (.inl able.2)
    refine Mine.keep (p := p) tidy ⟨mine.idle,mine.mine,⟨mine.loaded.zero,mine.loaded.clean⟩,?_⟩ (.inr rfl) ?_
    · exact fun owned => ⟨(mine.owned owned).1,fun _ => by simp⟩
    · exact fun none => absurd none (by simp)
  | refer here able => exact refer_tidy tidy here able
  | @ilock p ino ip here able =>
    obtain ⟨mine,-⟩ := mine_of_table (p := p) tidy (by rw [able.1]; rfl) here (.inl able.2.1)
    refine Mine.keep (p := p) tidy ⟨mine.idle,mine.mine,⟨mine.loaded.zero,mine.loaded.clean⟩,mine.owned⟩ (.inr rfl) ?_
    intro none
    change ip.count = 0 at none
    omega
  | iunlock found =>
    obtain ⟨mine,unreferenced,lock,referenced⟩ := held_mine tidy found
    exact mine.unlock.keep tidy (.inl rfl) fun none => ⟨rfl,(unreferenced none).2⟩
  | change found used => exact change_tidy tidy found used
  | mount found mounted =>
    obtain ⟨mine,unreferenced,lock,referenced⟩ := held_mine tidy found
    exact Mine.keep tidy ⟨mine.idle,mine.mine,⟨mine.loaded.zero,mine.loaded.clean⟩,mine.owned⟩ (.inr lock) unreferenced
  | iupdat here able =>
    obtain ⟨lock,idle | asleep | asleep⟩ := able
    · obtain ⟨mine,unreferenced⟩ := mine_of_table tidy (by rw [idle]; rfl) here (.inr lock)
      have referenced := referenced_of_lock unreferenced lock
      exact mine.iupdat tidy (.inr lock) (by omega)
    · exact truncating_iupdat tidy asleep here
    · exact truncating_iupdat tidy asleep here
  | iput found =>
    obtain ⟨mine,unreferenced,lock,referenced⟩ := held_mine tidy found
    exact mine.unlock.irele tidy (.inl rfl) referenced
  | irele here able => exact irele_tidy tidy here able
  | recycle here unused => exact recycle_tidy tidy here unused

end

end Retrobsd.InodeAllocation
