import Retrobsd.PipeWaits

/-! Calls on a pipe that begin, end and wait for the lock; runs of any number of processes
on it. -/
namespace Retrobsd.PipeEnds
open Finset
open Function
open Lib.Run Pipes

variable {ι : Type} {s : Pipe ι} {p : ι}

section
variable [Fintype ι] [DecidableEq ι]

theorem closes_of_idle {place : Place} (idle : place.isIdle = true) : place = .idle := by
  cases place <;> first | rfl | cases idle

theorem Sound.alone (sound : Sound s) {q : ι} (other : q ≠ p) (f : File) :
    s.own p f + (s.place p).closes f + (s.place q).closes f ≤ s.fCount f := by
  have counted := sound.counted f
  have pair : ∑ r ∈ {p,q}, (s.own r f + (s.place r).closes f) ≤ ∑ r, (s.own r f + (s.place r).closes f) :=
    sum_le_sum_of_subset (subset_univ _)
  rw [sum_pair other.symm] at pair
  omega

theorem Sound.not_closing (sound : Sound s) {q : ι} (other : q ≠ p) {f : File} (owner : s.own p f ≠ 0) :
    s.place q ≠ .closeLock f := by
  intro closing
  have alone := sound.alone other f
  have last := sound.closing q f closing
  have one : (s.place q).closes f = 1 := by
    rw [closing]
    exact if_pos rfl
  omega

theorem Sound.recount (sound : Sound s) (own : File → Nat) {places : ι → Place}
    (others : ∀ q, q ≠ p → places q = s.place q) (f : File) :
    ∑ q, (update s.own p own q f + (places q).closes f) + (s.own p f + (s.place p).closes f) =
    s.fCount f + (own f + (places p).closes f) := by
  have change : ∑ q, (update s.own p own q f + (places q).closes f) + (s.own p f + (s.place p).closes f) =
      ∑ q, (s.own q f + (s.place q).closes f) + (update s.own p own p f + (places p).closes f) :=
    sum_change (g := fun q => s.own q f + (s.place q).closes f) (h := fun q => update s.own p own q f + (places q).closes f)
      fun q other => by rw [update_of_ne other,others q other]
  rw [change,← sound.counted f,update_self]

end

section
variable [DecidableEq ι]

theorem stays_idle (idle : s.place p = .idle) : update s.place p .idle = s.place := by
  rw [← idle]
  exact update_eq_self _ _

variable [Fintype ι]

theorem Sound.visits (sound : Sound s) (was : ¬ (s.place p).holds) (open' : ∀ f, (s.place p).closes f = 0) {place : Place}
    (now : ¬ place.holds) (awake : ¬ place.readAsleep ∧ ¬ place.writeAsleep) (closed : ∀ f, place.closes f = 0)
    (uses : ∀ f, place.file = some f → s.own p f ≠ 0) : Sound (s.at p place) := by
  have self : (s.at p place).place p = place := update_self _ _ _
  have others : ∀ q, q ≠ p → (s.at p place).place q = s.place q := fun q other => update_ne other _ _
  refine sound.elsewhere was (by rwa [self]) others (by rwa [self]) rfl rfl rfl rfl rfl rfl rfl ?_ ?_ ?_ fun _ => Iff.rfl
  · intro f
    change s.fCount f = ∑ q, (s.own q f + ((s.at p place).place q).closes f)
    rw [sound.counted]
    refine sum_congr rfl fun q _ => ?_
    rcases eq_or_ne q p with rfl | other
    · rw [self,open',closed]
    · rw [others q other]
  · intro q f closing
    rcases eq_or_ne q p with rfl | other
    · rw [self] at closing
      have one := closed f
      rw [closing] at one
      exact absurd one (by simp [Place.closes])
    · rw [others q other] at closing
      exact sound.closing q f closing
  · intro q f user
    rcases eq_or_ne q p with rfl | other
    · rw [self] at user
      exact uses f user
    rw [others q other] at user
    exact sound.uses q f user

theorem Sound.retakes (sound : Sound s) (idle : s.place p = .idle) (own fCount : File → Nat) {place : Place}
    (next : place = .idle ∨ ∃ f, place = .closeLock f) (counted : ∀ f,
    fCount f + s.own p f = s.fCount f + (own f + place.closes f))
    (closing : ∀ q f, q ≠ p → s.place q = .closeLock f → fCount f = 1) (last : ∀ f, place = .closeLock f → fCount f = 1)
    (same : ∀ f, fCount f = 0 ↔ s.fCount f = 0) :
    Sound {s with own := update s.own p own,fCount,place := update s.place p place} := by
  have others : ∀ q, q ≠ p → update s.place p place q = s.place q := fun q other => update_ne other _ _
  have self : update s.place p place p = place := update_self _ _ _
  have away : ¬ place.holds ∧ ¬ place.readAsleep ∧ ¬ place.writeAsleep ∧ place.file = none := by
    rcases next with rfl | ⟨f,rfl⟩ <;> exact ⟨id,id,id,rfl⟩
  refine sound.elsewhere (p := p) (by rw [idle]; exact id) ?_ others ?_ rfl rfl rfl rfl rfl rfl rfl ?_ ?_ ?_ same
  · change ¬ (update s.place p place p).holds
    rw [self]
    exact away.1
  · change ¬ (update s.place p place p).readAsleep ∧ ¬ (update s.place p place p).writeAsleep
    rw [self]
    exact ⟨away.2.1,away.2.2.1⟩
  · intro f
    have count := sound.recount own others f
    have none : (s.place p).closes f = 0 := by rw [idle]; rfl
    have counts := counted f
    rw [none,self] at count
    change fCount f = ∑ q, (update s.own p own q f + (update s.place p place q).closes f)
    omega
  · intro q f closes
    rcases eq_or_ne q p with rfl | other
    · exact last f (self.symm.trans closes)
    · exact closing q f other ((others q other).symm.trans closes)
  · intro q f user
    change update s.own p own q f ≠ 0
    change (update s.place p place q).file = some f at user
    rcases eq_or_ne q p with rfl | other
    · rw [self,away.2.2.2] at user
      cases user
    rw [others q other] at user
    rw [update_of_ne other]
    exact sound.uses q f user

theorem Sound.refer (sound : Sound s) (idle : s.place p = .idle) {f : File} (owner : s.own p f ≠ 0) {n m : Nat}
    (counts : m + s.own p f = s.fCount f + n) (some : m ≠ 0) :
    Sound {s with own := update s.own p (update (s.own p) f n),fCount := update s.fCount f m} := by
  have owned := sound.owned (p := p) (f := f)
  have taken := sound.retakes idle (update (s.own p) f n) (update s.fCount f m) (.inl rfl) ?_ ?_ (fun _ now => by cases now) ?_
  · rwa [stays_idle idle] at taken
  · intro g
    rcases eq_or_ne g f with rfl | other
    · simp only [update_self,Place.closes]
      omega
    simp only [update_of_ne other,Place.closes]
    omega
  · intro q g other closing
    rcases eq_or_ne g f with rfl | ne
    · exact absurd closing (sound.not_closing other owner)
    rw [update_of_ne ne]
    exact sound.closing q g closing
  · intro g
    rcases eq_or_ne g f with rfl | other
    · rw [update_self]
      omega
    · rw [update_of_ne other]

theorem Sound.dup (sound : Sound s) (idle : s.place p = .idle) {f : File} (owner : s.own p f ≠ 0) : Sound {s with
      own := update s.own p (update (s.own p) f (s.own p f + 1))
      fCount := update s.fCount f (s.fCount f + 1)} := sound.refer idle owner (by omega) (by omega)

theorem Sound.fork (sound : Sound s) {q : ι} (idle : s.place p = .idle) (child : s.place q = .idle) (none : ∀ f, s.own q f = 0) :
    Sound {s with own := update s.own q (s.own p),fCount := fun f => s.fCount f + s.own p f} := by
  have taken := sound.retakes child (s.own p) (fun f => s.fCount f + s.own p f) (.inl rfl) ?_ ?_ (fun _ now => by cases now) ?_
  · rwa [stays_idle child] at taken
  · intro f
    rw [none f]
    rfl
  · intro r f _ closing
    have last := sound.closing r f closing
    have other : r ≠ p := by
      rintro rfl
      rw [idle] at closing
      cases closing
    have nobody : s.own p f = 0 := by
      by_contra owner
      exact sound.not_closing other owner closing
    rw [nobody]
    exact last
  · intro f
    have owned := sound.owned (p := p) (f := f)
    omega

theorem Sound.closef (sound : Sound s) (idle : s.place p = .idle) {f : File} (owner : s.own p f ≠ 0) : Sound (closef s p f) := by
  have owned := sound.owned (p := p) (f := f)
  rw [PipeEnds.closef]
  dsimp only
  split_ifs with more
  · exact sound.refer idle owner (by omega) (by omega)
  refine sound.retakes idle (update (s.own p) f (s.own p f - 1)) _ (.inr ⟨f,rfl⟩) ?_ (fun q g _ =>
    sound.closing q g) ?_ fun _ => Iff.rfl
  · intro g
    rcases eq_or_ne g f with rfl | other
    · simp only [update_self,Place.closes,if_true]
      omega
    simp only [update_of_ne other,Place.closes,if_neg other.symm]
    omega
  · intro g now
    cases now
    change s.fCount f = 1
    omega

end

section
variable [Fintype ι]

theorem Sound.free (sound : Sound s) (none : s.holder = none) (q : ι) : ¬ (s.place q).holds := by
  intro holds
  have mine := (sound.held q).mp holds
  rw [none] at mine
  cases mine

variable [DecidableEq ι]

theorem Sound.locks (sound : Sound s) (none : s.holder = none) (place : Place) (holds : place.holds)
    (open' : ∀ f, (s.place p).closes f = 0) (uses : ∀ f, place.file = some f → s.own p f ≠ 0)
    (reading : ∀ n offset resid, place ≠ .reading n offset resid) {iCount : Nat}
    (count : iCount = s.iCount + if place.syncs then 1 else 0) :
    Sound {s with holder := some p,iCount,place := update s.place p place} := by
  have self : update s.place p place p = place := update_self _ _ _
  have others : ∀ q, q ≠ p → update s.place p place q = s.place q := fun q other => update_ne other _ _
  have quiet : ∀ q, s.holder = some q → ¬ (s.place q).writes := by
    intro q mine
    rw [none] at mine
    cases mine
  have here : (∀ f, place.closes f = 0) ∧ ¬ place.readAsleep ∧ ¬ place.writeAsleep ∧ ∀ f, place ≠ .closeLock f := by
    cases place <;> simp_all [Place.closes,Place.holds,Place.readAsleep,Place.writeAsleep]
  refine ⟨fun q => ?_,fun f => ?_,fun q f closing => ?_,fun q f user => ?_,?_,fun q asleep => ?_,fun q asleep => ?_,sound.offset,
    fun q n offset resid now => ?_,sound.results⟩
  all_goals dsimp only at *
  · rcases eq_or_ne q p with rfl | other
    · rw [self]
      exact iff_of_true holds rfl
    rw [others q other]
    exact iff_of_false (sound.free none q) fun same => other (Option.some.inj same).symm
  · rw [sound.counted]
    refine sum_congr rfl fun q _ => ?_
    rcases eq_or_ne q p with rfl | other
    · rw [self,open',here.1]
    · rw [others q other]
  · rcases eq_or_ne q p with rfl | other
    · exact absurd (self.symm.trans closing) (here.2.2.2 f)
    · exact sound.closing q f ((others q other).symm.trans closing)
  · rcases eq_or_ne q p with rfl | other
    · rw [self] at user
      exact uses f user
    rw [others q other] at user
    exact sound.uses q f user
  · have references := sound.references
    rw [Pipe.syncers,none] at references
    rw [count,references,Pipe.syncers]
    simp
  · rcases eq_or_ne q p with rfl | other
    · rw [self] at asleep
      exact absurd asleep here.2.1
    rw [others q other] at asleep
    obtain ⟨flag,writers,empty⟩ := sound.empty quiet asleep
    exact ⟨flag,writers,.inl empty⟩
  · rcases eq_or_ne q p with rfl | other
    · rw [self] at asleep
      exact absurd asleep here.2.2.1
    rw [others q other] at asleep
    exact sound.writers q asleep
  · rcases eq_or_ne q p with rfl | other
    · exact absurd (self.symm.trans now) (reading n offset resid)
    refine absurd ?_ (sound.free none q)
    rw [← others q other,now]
    trivial

theorem Sound.synced (sound : Sound s) (place : s.place p = .syncing) : Sound (synced s p) := by
  have mine : s.holder = some p := (sound.held p).mp (by rw [place]; trivial)
  have self : update s.place p .idle p = .idle := update_self _ _ _
  have others : ∀ q, q ≠ p → update s.place p .idle q = s.place q := fun q other => update_ne other _ _
  have quiet := quiet_of_place mine (show ¬ (s.place p).writes by rw [place]; exact id)
  have free : ∀ q, q ≠ p → ¬ (s.place q).holds := by
    intro q other holds
    have same := (sound.held q).mp holds
    rw [mine] at same
    exact other (Option.some.inj same).symm
  rw [PipeEnds.synced,Pipe.leave,Pipe.at]
  refine ⟨fun q => ?_,fun f => ?_,fun q f closing => ?_,fun q f user => ?_,?_,fun q asleep => ?_,fun q asleep => ?_,sound.offset,
    fun q n offset resid now => ?_,sound.results⟩
  all_goals dsimp only at *
  · rcases eq_or_ne q p with rfl | other
    · rw [self]
      exact iff_of_false id (by simp)
    rw [others q other]
    exact iff_of_false (free q other) (by simp)
  · rw [sound.counted]
    refine sum_congr rfl fun q _ => ?_
    rcases eq_or_ne q p with rfl | other
    · rw [self,place]
      rfl
    · rw [others q other]
  · rcases eq_or_ne q p with rfl | other
    · cases self.symm.trans closing
    · exact sound.closing q f ((others q other).symm.trans closing)
  · rcases eq_or_ne q p with rfl | other
    · rw [self] at user
      cases user
    rw [others q other] at user
    exact sound.uses q f user
  · have references := sound.references
    rw [Pipe.syncers,mine] at references
    simp only [Option.any_some,place,Place.syncs,if_true] at references
    rw [references,Pipe.syncers]
    rfl
  · rcases eq_or_ne q p with rfl | other
    · rw [self] at asleep
      exact asleep.elim
    rw [others q other] at asleep
    obtain ⟨flag,writers,empty⟩ := sound.empty quiet asleep
    exact ⟨flag,writers,.inl empty⟩
  · rcases eq_or_ne q p with rfl | other
    · rw [self] at asleep
      exact asleep.elim
    rw [others q other] at asleep
    exact sound.writers q asleep
  · rcases eq_or_ne q p with rfl | other
    · cases self.symm.trans now
    refine absurd ?_ (free q other)
    rw [← others q other,now]
    trivial

theorem Sound.pipeClose (sound : Sound s) (none : s.holder = none) {f : File} (place : s.place p = .closeLock f) :
    Sound (pipeClose s p f) := by
  have last := sound.closing p f place
  have one : (s.place p).closes f = 1 := by
    rw [place]
    exact if_pos rfl
  have wakes : ∀ q, Wakes (s.place q) (s.place q).wakeWriter.wakeReader := fun q => (wakes_writer _).trans (wakes_reader _)
  have self : update (fun q => (s.place q).wakeWriter.wakeReader) p .idle p = .idle := update_self _ _ _
  have others : ∀ q, q ≠ p → update (fun q => (s.place q).wakeWriter.wakeReader) p .idle q =
      (s.place q).wakeWriter.wakeReader := fun q other => update_ne other _ _
  have alone : ∀ q, q ≠ p → s.own q f + (s.place q).closes f = 0 := by
    intro q other
    have pair := sound.alone (p := q) other.symm f
    omega
  have nobody : s.own p f = 0 := by
    have single := sound.single (p := p) f
    omega
  have awake : ∀ q, ¬ (update (fun q => (s.place q).wakeWriter.wakeReader) p .idle q).readAsleep ∧
      ¬ (update (fun q => (s.place q).wakeWriter.wakeReader) p .idle q).writeAsleep := by
    intro q
    rcases eq_or_ne q p with rfl | other
    · rw [self]
      exact ⟨id,id⟩
    rw [others q other]
    exact not_asleep_both _
  rw [PipeEnds.pipeClose,Pipe.at]
  refine ⟨fun q => ?_,fun g => ?_,fun q g closing => ?_,fun q g user => ?_,?_,fun q asleep => absurd asleep (awake q).1,
    fun q asleep => absurd asleep (awake q).2,sound.offset,fun q n offset resid now => ?_,sound.results⟩
  all_goals dsimp only at *
  · rw [none]
    rcases eq_or_ne q p with rfl | other
    · rw [self]
      exact iff_of_false id (by simp)
    rw [others q other]
    exact iff_of_false (fun holds => sound.free none q ((wakes q).holds.mp holds)) (by simp)
  · rcases eq_or_ne g f with rfl | ne
    · rw [update_self,eq_comm]
      refine sum_eq_zero fun q _ => ?_
      rcases eq_or_ne q p with rfl | other
      · rw [self,nobody]
        rfl
      rw [others q other,(wakes q).closes]
      exact alone q other
    · rw [update_of_ne ne,sound.counted]
      refine sum_congr rfl fun q _ => ?_
      rcases eq_or_ne q p with rfl | other
      · rw [self,place]
        simp only [Place.closes,if_neg ne.symm]
      · rw [others q other,(wakes q).closes]
  · rcases eq_or_ne q p with rfl | other
    · cases self.symm.trans closing
    have same := (wakes q).stays (.inr (.inr (.inr ⟨g,(others q other).symm.trans closing⟩)))
    have was : s.place q = .closeLock g := by rw [← same,← others q other,closing]
    have ne : g ≠ f := by
      rintro rfl
      have zero := alone q other
      rw [was] at zero
      simp [Place.closes] at zero
    rw [update_of_ne ne]
    exact sound.closing q g was
  · rcases eq_or_ne q p with rfl | other
    · rw [self] at user
      cases user
    rw [others q other,(wakes q).file] at user
    exact sound.uses q g user
  · have references := sound.references
    rw [Pipe.syncers,none] at references
    rw [Pipe.syncers,none,references]
    have gone : refs (s.fCount f) = 1 := by rw [last]; rfl
    have closed : refs 0 = 0 := rfl
    cases f with
    | rf =>
      rw [gone,update_self,update_of_ne (by decide : File.wf ≠ .rf),closed]
      simp
    | wf =>
      rw [gone,update_self,update_of_ne (by decide : File.rf ≠ .wf),closed]
      simp
  · rcases eq_or_ne q p with rfl | other
    · cases self.symm.trans now
    refine absurd ?_ (sound.free none q)
    rw [← (wakes q).holds,← others q other,now]
    trivial

end

section
variable [Fintype ι] {t : Pipe ι}

theorem Sound.closer (sound : Sound s) {f : File} (some : s.fCount f ≠ 0) (nobody : ∀ q, s.own q f = 0) :
    ∃ q, s.place q = .closeLock f := by
  rw [sound.counted] at some
  obtain ⟨q,_,counts⟩ := exists_ne_zero_of_sum_ne_zero some
  refine ⟨q,?_⟩
  rw [nobody q,Nat.zero_add] at counts
  cases place : s.place q with
  | closeLock g =>
    rw [place,Place.closes] at counts
    split_ifs at counts with same
    · rw [same]
    · exact absurd rfl counts
  | _ =>
    rw [place] at counts
    exact absurd rfl counts

/-- What holds of a process that waits in `readp` or `writep`, and of what the calls came to. -/
structure Waits (s : Pipe ι) : Prop where
  readers : ∀ p, (s.place p).readAsleep → s.iSize ≠ 0 ∨ (∀ q, s.own q .wf = 0) →
    s.iRead = true ∧ s.wakesReaders ∨ ∃ q, s.place q = .closeLock .wf
  writers : ∀ p, (s.place p).writeAsleep → s.iSize = 0 ∨ (∀ q, s.own q .rf = 0) → ∃ q, s.place q = .closeLock .rf
  results : ∀ r ∈ s.results, r.Right

theorem Sound.waits (sound : Sound s) : Waits s where
  readers p asleep has := by
    obtain ⟨flag,writers,empty⟩ := sound.readers p asleep
    rcases has with data | closed
    · exact .inl ⟨flag,empty.resolve_left data⟩
    · exact .inr (sound.closer writers closed)
  writers p asleep has := by
    obtain ⟨flag,readers,full⟩ := sound.writers p asleep
    exact sound.closer readers (has.resolve_left full)
  results := sound.results

variable [DecidableEq ι]

section
variable (sound : Sound s)
include sound

theorem lock_sound (locked : lock s p = .ok t) : Sound t := by
  rw [lock] at locked
  split_ifs at locked with taken
  have none : s.holder = none := Option.not_isSome_iff_eq_none.mp taken
  cases place : s.place p with
  | readLock n nonblock =>
    rw [place] at locked
    cases locked
    refine sound.locks none (.readHeld n nonblock) trivial (by rw [place]; exact fun _ => rfl) ?_ (by simp) rfl
    exact fun f user => sound.uses p f (by rw [place]; exact user)
  | writeLock checked w =>
    rw [place] at locked
    cases locked
    refine sound.locks none (.writeHeld checked w) trivial (by rw [place]; exact fun _ => rfl) ?_ (by simp) rfl
    exact fun f user => sound.uses p f (by rw [place]; exact user)
  | closeLock f =>
    rw [place] at locked
    cases locked
    exact sound.pipeClose none place
  | _ =>
    rw [place] at locked
    cases locked

theorem go_sound (moved : go s p = .ok t) : Sound t := by
  have mine : (s.place p).holds → s.holder = some p := (sound.held p).mp
  rw [go] at moved
  cases place : s.place p with
  | readHeld n nonblock =>
    rw [place] at moved mine
    cases moved
    exact sound.readHeld (mine trivial) place
  | reading n offset resid =>
    rw [place] at moved mine
    cases moved
    exact sound.readTurn (mine trivial) place
  | writeHeld checked w =>
    rw [place] at moved mine
    cases moved
    exact sound.writeHeld (mine trivial) place
  | writing w resid =>
    rw [place] at moved mine
    cases moved
    exact sound.writeTurn (mine trivial) place
  | syncing =>
    rw [place] at moved
    cases moved
    exact sound.synced place
  | _ =>
    rw [place] at moved
    cases moved

theorem fault_sound {k : Nat} (failed : fault s p k = .ok t) : Sound t := by
  have mine : (s.place p).holds → s.holder = some p := (sound.held p).mp
  rw [fault] at failed
  cases place : s.place p with
  | reading n offset resid =>
    rw [place] at failed mine
    dsimp only at failed
    split_ifs at failed with below
    cases failed
    exact sound.readDone (mine trivial) (by rw [place]; rfl) below
  | writing w resid =>
    rw [place] at failed mine
    dsimp only at failed
    split_ifs at failed
    cases failed
    exact sound.wakeReaders (mine trivial) (by rw [place]; rfl) k w
  | _ =>
    rw [place] at failed
    cases failed

theorem signal_sound (jumped : signal s p = .ok t) : Sound t := by
  rw [signal] at jumped
  cases place : s.place p with
  | readSleep | writeSleep =>
    rw [place] at jumped
    cases jumped
    exact sound.visits (by rw [place]; exact id) (by rw [place]; exact fun _ => rfl) id ⟨id,id⟩ (fun _ => rfl)
      fun f user => by cases user
  | _ =>
    rw [place] at jumped
    cases jumped

theorem act_sound {op : Op ι} (idle : ∀ p, op.actor = some p → s.place p = .idle) (acted : act s op = .ok t) : Sound t := by
  cases op with
  | read p | write p =>
    have here := idle p rfl
    rw [act] at acted
    split_ifs at acted with owner
    cases acted
    refine sound.visits (by rw [here]; exact id) (by rw [here]; exact fun _ => rfl) id ⟨id,id⟩ (fun _ => rfl) fun f user => ?_
    cases user
    exact owner
  | close p f =>
    rw [act] at acted
    split_ifs at acted with owner
    cases acted
    exact sound.closef (idle p rfl) owner
  | dup p f =>
    rw [act] at acted
    split_ifs at acted with owner
    cases acted
    exact sound.dup (idle p rfl) owner
  | fork p q =>
    rw [act] at acted
    split_ifs at acted with owner
    cases acted
    push Not at owner
    refine sound.fork (idle p rfl) (closes_of_idle (by simpa using owner.2.2)) fun f => ?_
    cases f
    · exact owner.1
    · exact owner.2.1
  | sync p =>
    have here := idle p rfl
    rw [act] at acted
    split_ifs at acted with busy
    cases acted
    push Not at busy
    exact sound.locks (Option.not_isSome_iff_eq_none.mp busy.1) .syncing trivial (by rw [here]; exact fun _ => rfl)
      (fun f user => by cases user) (by simp) rfl
  | _ => cases acted

theorem step_sound {op : Op ι} (stepped : step s op = .ok t) : Sound t := by
  have acts : (if op.actor.any fun p => (s.place p).isIdle then act s op else .error .disabled) = .ok t → Sound t := by
    intro acted
    split_ifs at acted with idle
    refine act_sound sound (fun p actor => ?_) acted
    rw [actor] at idle
    exact closes_of_idle idle
  cases op with
  | lock p => exact lock_sound sound stepped
  | go p => exact go_sound sound stepped
  | fault p k => exact fault_sound sound stepped
  | signal p => exact signal_sound sound stepped
  | _ => exact acts stepped

end

theorem pipe_sound (p : ι) : Sound (pipe p) where
  held q := iff_of_false id (by simp [pipe])
  counted f := by simp [pipe,Place.closes]
  closing q f closing := by cases closing
  uses q f user := by cases user
  references := rfl
  readers q asleep := asleep.elim
  writers q asleep := asleep.elim
  offset := .inr ⟨rfl,rfl⟩
  reading q n offset resid now := by cases now
  results r member := by cases member

omit [Fintype ι] in
/-- Nobody waits for what is there, a read returns no bytes only at the end of the file, and only a write
that nobody can read is signalled. -/
theorem nobody_waits [Finite ι] (ops : List (Op ι)) (ran : run step (pipe p) ops = .ok t) : Waits t := by
  have := Fintype.ofFinite ι
  have always : Along step (fun (_ : Pipe ι) (_ : Op ι) => True) (pipe p) ops := Along.of_forall (pipe p) fun _ _ => trivial
  have sound : Sound t := run_invariant (fun _ _ _ sound _ stepped => step_sound sound stepped) ops _ _ (pipe_sound p) always ran
  exact sound.waits

def someOps : List (Op (Fin 3)) :=
  [.fork 0 1,.close 0 .rf,.close 1 .wf,.read 1 10 false,.lock 1,.go 1,.sync 2,.write 0 5 100000 false,.go 2,
  .lock 0,.go 0,.go 0,.go 0,
    .go 0,.lock 1,.go 1,.go 1,.go 1,.read 1 10 false,.lock 1,.go 1,.close 0 .wf,.sync 2,.go 2,.lock 0,.lock
    1,.go 1,.close 1 .rf,.lock 1]

theorem nobody_waits_someOps : ∃ s, run step (pipe 0) someOps = .ok s ∧ Waits s := by
  have ended : returns (fun s => decide (s.results = [.zero 10 0 0])) (run step (pipe 0) someOps) = true := by decide +kernel
  obtain ⟨s,ran,-⟩ := of_returns ended
  exact ⟨s,ran,nobody_waits someOps ran⟩

end

end Retrobsd.PipeEnds
