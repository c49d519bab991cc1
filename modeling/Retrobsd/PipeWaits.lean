import Retrobsd.PipeEnds

/-! No reader and no writer of a pipe waits for what is there, whoever closes an end and
whenever `syncinodes` holds the inode; a read finds the end of the file, and a write a
broken pipe, only when the other end is closed. -/
namespace Retrobsd.PipeEnds
open Finset
open Function
open Pipes

def Place.holds : Place → Prop
  | .readHeld _ _ | .reading _ _ _ | .writeHeld _ _ | .writing _ _ | .syncing => True
  | _ => False

def Place.file : Place → Option File
  | .readLock _ _ | .readHeld _ _ | .reading _ _ _ | .readSleep _ _ => some .rf
  | .writeLock _ _ | .writeHeld _ _ | .writing _ _ | .writeSleep _ => some .wf
  | _ => none

def Place.closes (f : File) : Place → Nat
  | .closeLock g => if g = f then 1 else 0
  | _ => 0

def Place.syncs : Place → Bool
  | .syncing => true
  | _ => false

def Place.readAsleep : Place → Prop
  | .readSleep _ _ => True
  | _ => False

def Place.writeAsleep : Place → Prop
  | .writeSleep _ => True
  | _ => False

def Place.writes : Place → Prop
  | .writing _ _ => True
  | _ => False

structure Wakes (a b : Place) : Prop where
  holds : b.holds ↔ a.holds
  file : b.file = a.file
  closes : ∀ f, b.closes f = a.closes f
  syncs : b.syncs = a.syncs
  stays : b.readAsleep ∨ b.writeAsleep ∨ b.holds ∨ (∃ f, b = .closeLock f) → b = a

theorem Wakes.refl (a : Place) : Wakes a a := ⟨Iff.rfl,rfl,fun _ => rfl,rfl,fun _ => rfl⟩

theorem Wakes.trans {a b c : Place} (first : Wakes a b) (second : Wakes b c) : Wakes a c where
  holds := second.holds.trans first.holds
  file := second.file.trans first.file
  closes f := (second.closes f).trans (first.closes f)
  syncs := second.syncs.trans first.syncs
  stays still := by
    have same := second.stays still
    rw [same] at still
    rw [same]
    exact first.stays still

theorem wakes_reader (a : Place) : Wakes a a.wakeReader := by
  cases a with
  | readSleep n nonblock => exact ⟨Iff.rfl,rfl,fun _ => rfl,rfl,fun still =>
    by simp [Place.wakeReader,Place.readAsleep,Place.writeAsleep,Place.holds] at still⟩
  | _ => exact Wakes.refl _

theorem wakes_writer (a : Place) : Wakes a a.wakeWriter := by
  cases a with
  | writeSleep w => exact ⟨Iff.rfl,rfl,fun _ => rfl,rfl,fun still =>
    by simp [Place.wakeWriter,Place.readAsleep,Place.writeAsleep,Place.holds] at still⟩
  | _ => exact Wakes.refl _

theorem not_readAsleep_wakeReader (a : Place) : ¬ a.wakeReader.readAsleep := by
  cases a <;> exact fun asleep => asleep

theorem not_writeAsleep_wakeWriter (a : Place) : ¬ a.wakeWriter.writeAsleep := by
  cases a <;> exact fun asleep => asleep

theorem not_asleep_both (a : Place) : ¬ a.wakeWriter.wakeReader.readAsleep ∧ ¬ a.wakeWriter.wakeReader.writeAsleep := by
  cases a <;> exact ⟨fun asleep => asleep,fun asleep => asleep⟩

variable {ι : Type} {s : Pipe ι} {p : ι}

section
variable [Fintype ι] {t : Pipe ι}

def refs (count : Nat) : Nat := if count = 0 then 0 else 1

theorem refs_cases (count : Nat) : count = 0 ∧ refs count = 0 ∨ count ≠ 0 ∧ refs count = 1 := by
  rw [refs]
  split_ifs with none
  · exact .inl ⟨none,rfl⟩
  · exact .inr ⟨none,rfl⟩

def Pipe.syncers (s : Pipe ι) : Nat := if s.holder.any fun p => (s.place p).syncs then 1 else 0

def Pipe.wakesReaders (s : Pipe ι) : Prop := ∃ q, s.holder = some q ∧ (s.place q).writes

def Result.Right : Result → Prop
  | .zero asked iSize writers => asked ≠ 0 → iSize = 0 ∧ writers = 0
  | .sigpipe readers => readers = 0

structure Sound (s : Pipe ι) : Prop where
  held : ∀ p, (s.place p).holds ↔ s.holder = some p
  counted : ∀ f, s.fCount f = ∑ p, (s.own p f + (s.place p).closes f)
  closing : ∀ p f, s.place p = .closeLock f → s.fCount f = 1
  uses : ∀ p f, (s.place p).file = some f → s.own p f ≠ 0
  references : s.iCount = refs (s.fCount .rf) + refs (s.fCount .wf) + s.syncers
  readers : ∀ p, (s.place p).readAsleep → s.iRead = true ∧ s.fCount .wf ≠ 0 ∧ (s.iSize = 0 ∨ s.wakesReaders)
  writers : ∀ p, (s.place p).writeAsleep → s.iWrite = true ∧ s.fCount .rf ≠ 0 ∧ s.iSize ≠ 0
  offset : s.fOffset < s.iSize ∨ s.iSize = 0 ∧ s.fOffset = 0
  reading : ∀ p n offset resid, s.place p = .reading n offset resid → offset ≤ s.iSize ∧ 0 < resid ∧ resid ≤ n ∧
    (resid = n → offset < s.iSize)
  results : ∀ r ∈ s.results, r.Right

theorem sum_change [DecidableEq ι] {g h : ι → Nat} (others : ∀ q, q ≠ p → h q = g q) : ∑ q, h q + g p = ∑ q, g q + h p := by
  have before := add_sum_erase Finset.univ g (mem_univ p)
  have after := add_sum_erase Finset.univ h (mem_univ p)
  have same : ∑ q ∈ Finset.univ.erase p, h q = ∑ q ∈ Finset.univ.erase p, g q := sum_congr rfl fun q member =>
    others q (ne_of_mem_erase member)
  omega

variable (sound : Sound s)
include sound

theorem Sound.single (f : File) : s.own p f + (s.place p).closes f ≤ s.fCount f :=
  sound.counted f ▸ single_le_sum (f := fun q => s.own q f + (s.place q).closes f) (fun _ _ => Nat.zero_le _) (mem_univ p)

theorem Sound.owned {f : File} : s.own p f ≤ s.fCount f := by
  have single := sound.single (p := p) f
  omega

theorem Sound.open {f : File} (user : (s.place p).file = some f) : s.fCount f ≠ 0 := by
  have own := sound.uses p f user
  have below := sound.owned (p := p) (f := f)
  omega

theorem Sound.held_count (mine : s.holder = some p) (user : (s.place p).syncs = false) :
    s.iCount = refs (s.fCount .rf) + refs (s.fCount .wf) := by
  have references := sound.references
  rw [Pipe.syncers,mine] at references
  simpa [user] using references

theorem Sound.turn (mine : s.holder = some p) {f : File} (user : (s.place p).file = some f)
    (own : t.own = s.own) (fCount : t.fCount = s.fCount) (iCount : t.iCount = s.iCount)
    (others : ∀ q, q ≠ p → Wakes (s.place q) (t.place q)) (here : (t.place p).file = some f ∨ t.place p = .idle)
    (holder : t.holder = none ∧ ¬ (t.place p).holds ∨ t.holder = some p ∧ (t.place p).holds)
    (readers : (t.place p).readAsleep ∨ (∃ q, (s.place q).readAsleep ∧ (t.place q).readAsleep) →
      t.iRead = true ∧ t.fCount .wf ≠ 0 ∧ (t.iSize = 0 ∨ t.wakesReaders))
    (writers : (t.place p).writeAsleep ∨ (∃ q, (s.place q).writeAsleep ∧ (t.place q).writeAsleep) →
      t.iWrite = true ∧ t.fCount .rf ≠ 0 ∧ t.iSize ≠ 0)
    (offset : t.fOffset < t.iSize ∨ t.iSize = 0 ∧ t.fOffset = 0)
    (reading : ∀ n offset resid, t.place p = .reading n offset resid → offset ≤ t.iSize ∧ 0 < resid ∧ resid ≤ n ∧
    (resid = n → offset < t.iSize))
    (results : ∀ r ∈ t.results, r.Right) : Sound t := by
  have idle : ∀ place : Place, (place.file = some f ∨ place = .idle) → (∀ g, place.closes g = 0) ∧ place.syncs = false ∧
      ∀ g, place ≠ .closeLock g := by
    intro place has
    cases place <;> simp_all [Place.file,Place.closes,Place.syncs]
  obtain ⟨before,quiet,_⟩ := idle _ (.inl user)
  obtain ⟨after,still,notClosing⟩ := idle _ here
  have alone : ∀ q, q ≠ p → ¬ (t.place q).holds := by
    intro q other holds
    have same := (sound.held q).mp ((others q other).holds.mp holds)
    rw [mine] at same
    exact other (Option.some.inj same).symm
  refine ⟨fun q => ?_,fun g => ?_,fun q g closing => ?_,fun q g has => ?_,?_,fun q asleep => readers ?_,
    fun q asleep => writers ?_,offset,
    fun q n offset resid now => ?_,results⟩
  · rcases eq_or_ne q p with rfl | other
    · rcases holder with ⟨none,free⟩ | ⟨some,holds⟩
      · simp [none,free]
      · simp [some,holds]
    refine ⟨fun holds => absurd holds (alone q other),fun now => ?_⟩
    rcases holder with ⟨none,_⟩ | ⟨some,_⟩
    · rw [none] at now
      cases now
    rw [some] at now
    exact absurd (Option.some.inj now).symm other
  · rw [fCount,sound.counted g,own]
    refine sum_congr rfl fun q _ => ?_
    rcases eq_or_ne q p with rfl | other
    · rw [before,after]
    · rw [(others q other).closes]
  · have other : q ≠ p := by
      rintro rfl
      exact notClosing g closing
    have same := (others q other).stays (.inr (.inr (.inr ⟨g,closing⟩)))
    rw [fCount]
    exact sound.closing q g (same ▸ closing)
  · rw [own]
    rcases eq_or_ne q p with rfl | other
    · rcases here with file | gone
      · rw [file] at has
        cases has
        exact sound.uses q f user
      · rw [gone] at has
        cases has
    · exact sound.uses q g ((others q other).file ▸ has)
  · have count := sound.held_count mine quiet
    rw [iCount,fCount,count,Pipe.syncers]
    rcases holder with ⟨none,_⟩ | ⟨some,_⟩
    · rw [none]
      rfl
    rw [some]
    simp [still]
  · rcases eq_or_ne q p with rfl | other
    · exact .inl asleep
    · exact .inr ⟨q,(others q other).stays (.inl asleep) ▸ asleep,asleep⟩
  · rcases eq_or_ne q p with rfl | other
    · exact .inl asleep
    · exact .inr ⟨q,(others q other).stays (.inr (.inl asleep)) ▸ asleep,asleep⟩
  · rcases eq_or_ne q p with rfl | other
    · exact reading n offset resid now
    · exact absurd (by rw [now]; trivial) (alone q other)

theorem Sound.empty (quiet : ∀ q, s.holder = some q → ¬ (s.place q).writes) {q : ι} (asleep : (s.place q).readAsleep) :
    s.iRead = true ∧ s.fCount .wf ≠ 0 ∧ s.iSize = 0 := by
  obtain ⟨flag,other,empty | ⟨q',holder,writes⟩⟩ := sound.readers q asleep
  · exact ⟨flag,other,empty⟩
  · exact absurd writes (quiet q' holder)

theorem Sound.elsewhere (was : ¬ (s.place p).holds) (now : ¬ (t.place p).holds)
    (others : ∀ q, q ≠ p → t.place q = s.place q) (awake : ¬ (t.place p).readAsleep ∧ ¬ (t.place p).writeAsleep)
    (holder : t.holder = s.holder) (iCount : t.iCount = s.iCount) (iSize : t.iSize = s.iSize) (fOffset : t.fOffset = s.fOffset)
    (iRead : t.iRead = s.iRead) (iWrite : t.iWrite = s.iWrite) (results : t.results = s.results)
    (counted : ∀ f, t.fCount f = ∑ q, (t.own q f + (t.place q).closes f))
    (closing : ∀ q f, t.place q = .closeLock f → t.fCount f = 1)
    (uses : ∀ q f, (t.place q).file = some f → t.own q f ≠ 0)
    (same : ∀ f, t.fCount f = 0 ↔ s.fCount f = 0) : Sound t := by
  have away : s.holder ≠ some p := fun mine => was ((sound.held p).mpr mine)
  have refsSame : ∀ f, refs (t.fCount f) = refs (s.fCount f) := by
    intro f
    rw [refs,refs]
    exact if_congr (same f) rfl rfl
  have wakes : s.wakesReaders → t.wakesReaders := by
    rintro ⟨q,mine,writes⟩
    have other : q ≠ p := by
      rintro rfl
      exact away mine
    exact ⟨q,holder.trans mine,by rwa [others q other]⟩
  refine ⟨fun q => ?_,counted,closing,uses,?_,fun q asleep => ?_,fun q asleep => ?_,?_,fun q n offset resid reading => ?_,?_⟩
  · rw [holder]
    rcases eq_or_ne q p with rfl | other
    · exact iff_of_false now away
    rw [others q other]
    exact sound.held q
  · rw [iCount,refsSame,refsSame,sound.references]
    congr 1
    rw [Pipe.syncers,Pipe.syncers,holder]
    cases found : s.holder with
    | none => rfl
    | some q =>
      have other : q ≠ p := by
        rintro rfl
        exact away found
      simp [others q other]
  · have other : q ≠ p := by
      rintro rfl
      exact awake.1 asleep
    rw [others q other] at asleep
    obtain ⟨flag,open',empty⟩ := sound.readers q asleep
    exact ⟨iRead.trans flag,fun closed => open' ((same .wf).mp closed),empty.imp iSize.trans wakes⟩
  · have other : q ≠ p := by
      rintro rfl
      exact awake.2 asleep
    rw [others q other] at asleep
    obtain ⟨flag,open',full⟩ := sound.writers q asleep
    exact ⟨iWrite.trans flag,fun closed => open' ((same .rf).mp closed),iSize ▸ full⟩
  · rw [iSize,fOffset]
    exact sound.offset
  · have other : q ≠ p := by
      rintro rfl
      exact now (by rw [reading]; trivial)
    rw [others q other] at reading
    rw [iSize]
    exact sound.reading q n offset resid reading
  · rw [results]
    exact sound.results

end

theorem update_ne [DecidableEq ι] {q : ι} (other : q ≠ p) (place : Place) (places : ι → Place) :
    update places p place q = places q := update_of_ne other _ _

theorem quiet_of_place (mine : s.holder = some p) (quiet : ¬ (s.place p).writes) :
    ∀ q, s.holder = some q → ¬ (s.place q).writes := by
  intro q holder
  rw [mine] at holder
  cases holder
  exact quiet

section
variable [Fintype ι]

theorem Sound.note (sound : Sound s) {r : Result} (right : r.Right) : Sound (s.note r) :=
  ⟨sound.held,sound.counted,sound.closing,sound.uses,sound.references,sound.readers,sound.writers,sound.offset,sound.reading,by
    intro r' member
    rcases List.mem_append.mp member with old | new
    · exact sound.results r' old
    · exact List.mem_singleton.mp new ▸ right⟩

theorem quiet_of_reader {place : Place} (user : place.file = some .rf) : ¬ place.writes := by
  cases place <;> simp_all [Place.file,Place.writes]

variable {offset n resid : Nat} {f : File}

section
variable (sound : Sound s)
include sound

theorem Sound.closed (mine : s.holder = some p) {g : File} (user : (s.place p).file = some f) (other : g ≠ f)
    (single : s.iCount ≠ 2) : s.fCount g = 0 := by
  have mineOpen := sound.open user
  have count := sound.held_count mine (by cases place : s.place p <;> simp_all [Place.file,Place.syncs])
  rw [count] at single
  have read := refs_cases (s.fCount .rf)
  have write := refs_cases (s.fCount .wf)
  cases f <;> cases g <;> first | exact absurd rfl other | omega

theorem Sound.opened (mine : s.holder = some p) (user : (s.place p).file = some f)
    (both : s.iCount = 2) (g : File) : s.fCount g ≠ 0 := by
  have count := sound.held_count mine (by cases place : s.place p <;> simp_all [Place.file,Place.syncs])
  rw [count] at both
  have read := refs_cases (s.fCount .rf)
  have write := refs_cases (s.fCount .wf)
  cases g <;> omega

variable [DecidableEq ι]

theorem Sound.readDone (mine : s.holder = some p) (user : (s.place p).file = some .rf)
    (below : offset ≤ s.iSize) : Sound (readDone s p offset) := by
  have empty := fun q => sound.empty (quiet_of_place mine (quiet_of_reader user)) (q := q)
  rw [PipeEnds.readDone]
  split_ifs with all flag
  · refine sound.turn mine user rfl rfl rfl (fun q other => ?_) ?_ (.inl ⟨rfl,?_⟩) ?_ ?_ (.inr ⟨rfl,rfl⟩) ?_ sound.results
    · simp only [Pipe.leave,Pipe.at,update_ne other]
      exact wakes_writer _
    all_goals simp only [Pipe.leave,Pipe.at,update_self]
    · exact .inr trivial
    · exact id
    · rintro (here | ⟨q,asleep,_⟩)
      · exact here.elim
      · exact ⟨(empty q asleep).1,(empty q asleep).2.1,.inl trivial⟩
    · rintro (here | ⟨q,_,asleep⟩)
      · exact here.elim
      rcases eq_or_ne q p with rfl | other
      · rw [update_self] at asleep
        exact asleep.elim
      rw [update_ne other] at asleep
      exact absurd asleep (not_writeAsleep_wakeWriter _)
    · intro n offset resid now
      cases now
  · refine sound.turn mine user rfl rfl rfl (fun q other => ?_) ?_ (.inl ⟨rfl,?_⟩) ?_ ?_ (.inr ⟨rfl,rfl⟩) ?_ sound.results
    · simp only [Pipe.leave,Pipe.at,update_ne other]
      exact Wakes.refl _
    all_goals simp only [Pipe.leave,Pipe.at,update_self]
    · exact .inr trivial
    · exact id
    · rintro (here | ⟨q,asleep,_⟩)
      · exact here.elim
      · exact ⟨(empty q asleep).1,(empty q asleep).2.1,.inl trivial⟩
    · rintro (here | ⟨q,asleep,_⟩)
      · exact here.elim
      · exact absurd (sound.writers q asleep).1 flag
    · intro n offset resid now
      cases now
  · refine sound.turn mine user rfl rfl rfl (fun q other => ?_) ?_ (.inl ⟨rfl,?_⟩) ?_ ?_ ?_ ?_ sound.results
    · simp only [Pipe.leave,Pipe.at,update_ne other]
      exact Wakes.refl _
    all_goals simp only [Pipe.leave,Pipe.at,update_self]
    · exact .inr trivial
    · exact id
    · rintro (here | ⟨q,asleep,_⟩)
      · exact here.elim
      · exact ⟨(empty q asleep).1,(empty q asleep).2.1,.inl (empty q asleep).2.2⟩
    · rintro (here | ⟨q,asleep,_⟩)
      · exact here.elim
      · exact sound.writers q asleep
    · exact .inl (by omega)
    · intro n offset resid now
      cases now

theorem Sound.moves {t : Pipe ι} (mine : s.holder = some p) (user : (s.place p).file = some f)
    (quiet : ¬ (s.place p).writes) (place : Place) {holder : Option ι} {read write : Bool}
    (moved : t = {s with place := update s.place p place,holder,iRead := read,iWrite := write})
    (here : place.file = some f ∨ place = .idle) (free : holder = none ∧ ¬ place.holds ∨ holder = some p ∧ place.holds)
    (readStays : s.iRead = true → read = true) (writeStays : s.iWrite = true → write = true)
    (reader : place.readAsleep → read = true ∧ s.fCount .wf ≠ 0 ∧ s.iSize = 0)
    (writer : place.writeAsleep → write = true ∧ s.fCount .rf ≠ 0 ∧ s.iSize ≠ 0)
    (reading : ∀ n offset resid, place = .reading n offset resid →
      offset ≤ s.iSize ∧ 0 < resid ∧ resid ≤ n ∧ (resid = n → offset < s.iSize)) : Sound t := by
  subst moved
  have self : update s.place p place p = place := update_self _ _ _
  refine sound.turn mine user rfl rfl rfl (fun q other => ?_) ?_ ?_ ?_ ?_ sound.offset ?_ sound.results
  · simp only [update_ne other]
    exact Wakes.refl _
  all_goals simp only [self]
  · exact here
  · exact free
  · rintro (asleep | ⟨q,asleep,_⟩)
    · exact ⟨(reader asleep).1,(reader asleep).2.1,.inl (reader asleep).2.2⟩
    obtain ⟨flag,other,empty⟩ := sound.empty (quiet_of_place mine quiet) asleep
    exact ⟨readStays flag,other,.inl empty⟩
  · rintro (asleep | ⟨q,asleep,_⟩)
    · exact writer asleep
    obtain ⟨flag,other,full⟩ := sound.writers q asleep
    exact ⟨writeStays flag,other,full⟩
  · exact reading

theorem Sound.goes_on (mine : s.holder = some p) (user : (s.place p).file = some f)
    (quiet : ¬ (s.place p).writes) {place : Place} (here : place.file = some f) (holds : place.holds)
    (reading : ∀ n offset resid, place = .reading n offset resid →
      offset ≤ s.iSize ∧ 0 < resid ∧ resid ≤ n ∧ (resid = n → offset < s.iSize)) : Sound (s.at p place) := by
  refine sound.moves mine user quiet place (by rw [Pipe.at,← mine]) (.inl here) (.inr ⟨rfl,holds⟩) id id ?_ ?_ reading
  · intro asleep
    cases place <;> simp_all [Place.readAsleep,Place.holds]
  intro asleep
  cases place <;> simp_all [Place.writeAsleep,Place.holds]

theorem Sound.leave_idle (mine : s.holder = some p) (user : (s.place p).file = some f)
    (quiet : ¬ (s.place p).writes) : Sound (s.leave p .idle) :=
  sound.moves mine user quiet _ rfl (.inr rfl) (.inl ⟨rfl,id⟩) id id False.elim False.elim fun _ _ _ now => by cases now

theorem Sound.readReturns (mine : s.holder = some p) (user : (s.place p).file = some .rf)
    (below : offset ≤ s.iSize) (moved : resid = n → n = 0) : Sound (readReturns s p n offset resid) := by
  rw [PipeEnds.readReturns]
  split_ifs with none
  · have right : (Result.zero n s.iSize (s.fCount .wf)).Right := fun some => absurd (moved none) some
    exact (sound.note right).readDone mine user below
  · exact sound.readDone mine user below

end

variable [DecidableEq ι]

theorem readSize_pos {diff : Int} (some : 0 < diff) (offset : Nat) (wanted : 0 < resid) :
    0 < readSize diff offset resid ∧ readSize diff offset resid ≤ resid ∧ (readSize diff offset resid : Int) ≤ diff := by
  have room : 0 < Pipes.devBsize - offset % Pipes.devBsize := Nat.sub_pos_of_lt (Nat.mod_lt _ (by decide))
  rw [readSize]
  split_ifs <;> omega

theorem Sound.readTurn (sound : Sound s) (mine : s.holder = some p) (place : s.place p = .reading n offset resid) :
    Sound (readTurn s p n offset resid) := by
  have user : (s.place p).file = some .rf := by rw [place]; rfl
  obtain ⟨below,wanted,part,first⟩ := sound.reading p n offset resid place
  rw [PipeEnds.readTurn]
  dsimp only
  split_ifs with done more
  · exact sound.readReturns mine user below fun none => absurd (first none) (by omega)
  · obtain ⟨_,_,inside⟩ := readSize_pos (show (0 : Int) < s.iSize - offset by omega) offset wanted
    refine sound.goes_on mine user (quiet_of_reader user) rfl trivial ?_
    intro n' offset' resid' now
    cases now
    omega
  · obtain ⟨_,_,inside⟩ := readSize_pos (show (0 : Int) < s.iSize - offset by omega) offset wanted
    exact sound.readReturns mine user (by omega) fun none => by omega

theorem Sound.readHeld (sound : Sound s) (mine : s.holder = some p) {nonblock : Bool}
    (place : s.place p = .readHeld n nonblock) : Sound (readHeld s p n nonblock) := by
  have user : (s.place p).file = some .rf := by rw [place]; rfl
  have quiet := quiet_of_reader user
  rw [PipeEnds.readHeld]
  split_ifs with empty single blocking zero
  · have right : (Result.zero n s.iSize (s.fCount .wf)).Right := fun _ => ⟨empty,sound.closed mine user (by decide) single⟩
    exact (sound.note right).leave_idle mine user quiet
  · exact sound.leave_idle mine user quiet
  · refine sound.moves mine user quiet _ rfl (.inl rfl) (.inl ⟨rfl,id⟩) (fun _ => rfl) id ?_ False.elim
      fun _ _ _ now => by cases now
    exact fun _ => ⟨rfl,sound.opened mine user (not_not.mp single) .wf,empty⟩
  · have offset := sound.offset
    exact sound.readReturns mine user (by omega) fun _ => zero
  · have offset := sound.offset
    refine sound.goes_on mine user quiet rfl trivial ?_
    intro n' offset' resid' now
    cases now
    omega

end

section
variable [Fintype ι] [DecidableEq ι]

theorem Sound.wakeReaders (sound : Sound s) (mine : s.holder = some p) (user : (s.place p).file = some .wf)
    (k : Nat) (w : Write) :
    Sound ((wakeReaders {s with iSize := s.iSize + k}).at p (.writeHeld true w)) := by
  have offset := sound.offset
  rw [PipeEnds.wakeReaders]
  split_ifs with flag
  · refine sound.turn mine user rfl rfl rfl (fun q other => ?_) ?_ (.inr ⟨mine,?_⟩) ?_ ?_ ?_ ?_ sound.results
    · simp only [Pipe.at,update_ne other]
      exact wakes_reader _
    all_goals simp only [Pipe.at,update_self]
    · exact .inl rfl
    · trivial
    · rintro (here | ⟨q,_,asleep⟩)
      · exact here.elim
      rcases eq_or_ne q p with rfl | other
      · rw [update_self] at asleep
        exact asleep.elim
      rw [update_ne other] at asleep
      exact absurd asleep (not_readAsleep_wakeReader _)
    · rintro (here | ⟨q,asleep,_⟩)
      · exact here.elim
      have found := sound.writers q asleep
      exact ⟨found.1,found.2.1,by omega⟩
    · omega
    · intro n offset resid now
      cases now
  · refine sound.turn mine user rfl rfl rfl (fun q other => ?_) ?_ (.inr ⟨mine,?_⟩) ?_ ?_ ?_ ?_ sound.results
    · simp only [Pipe.at,update_ne other]
      exact Wakes.refl _
    all_goals simp only [Pipe.at,update_self]
    · exact .inl rfl
    · trivial
    · rintro (here | ⟨q,asleep,_⟩)
      · exact here.elim
      · exact absurd (sound.readers q asleep).1 flag
    · rintro (here | ⟨q,asleep,_⟩)
      · exact here.elim
      have found := sound.writers q asleep
      exact ⟨found.1,found.2.1,by omega⟩
    · omega
    · intro n offset resid now
      cases now

theorem Sound.writing (sound : Sound s) (mine : s.holder = some p) (user : (s.place p).file = some .wf)
    (k resid : Nat) (w : Write) :
    Sound ({s with iSize := s.iSize + k}.at p (.writing w resid)) := by
  have offset := sound.offset
  refine sound.turn mine user rfl rfl rfl (fun q other => ?_) ?_ (.inr ⟨mine,?_⟩) ?_ ?_ ?_ ?_ sound.results
  · simp only [Pipe.at,update_ne other]
    exact Wakes.refl _
  all_goals simp only [Pipe.at,update_self]
  · exact .inl rfl
  · trivial
  · rintro (here | ⟨q,asleep,_⟩)
    · exact here.elim
    refine ⟨(sound.readers q asleep).1,(sound.readers q asleep).2.1,.inr ⟨p,mine,?_⟩⟩
    change (update s.place p (.writing w resid) p).writes
    rw [update_self]
    trivial
  · rintro (here | ⟨q,asleep,_⟩)
    · exact here.elim
    have found := sound.writers q asleep
    exact ⟨found.1,found.2.1,by omega⟩
  · omega
  · intro n offset resid now
    cases now

theorem Sound.writeLoop (sound : Sound s) (mine : s.holder = some p) {checked : Bool} {w : Write}
    (place : s.place p = .writeHeld checked w) : Sound (writeLoop s p w) := by
  have user : (s.place p).file = some .wf := by rw [place]; rfl
  have quiet : ¬ (s.place p).writes := by rw [place]; exact id
  rw [PipeEnds.writeLoop]
  dsimp only
  split_ifs with all single full large
  · exact sound.leave_idle mine user quiet
  · have right : (Result.sigpipe (s.fCount .rf)).Right := sound.closed mine user (by decide) single
    exact (sound.note right).leave_idle mine user quiet
  · refine sound.moves mine user quiet _ rfl (.inl rfl) (.inl ⟨rfl,id⟩) id (fun _ => rfl) False.elim ?_
      fun _ _ _ now => by cases now
    have size : maxpipsiz = 4096 := rfl
    exact fun _ => ⟨rfl,sound.opened mine user (not_not.mp single) .rf,by omega⟩
  · exact sound.wakeReaders mine user 0 _
  · exact sound.writing mine user 0 _ _

theorem Sound.writeHeld (sound : Sound s) (mine : s.holder = some p) {checked : Bool} {w : Write}
    (place : s.place p = .writeHeld checked w) : Sound (writeHeld s p checked w) := by
  have user : (s.place p).file = some .wf := by rw [place]; rfl
  have quiet : ¬ (s.place p).writes := by rw [place]; exact id
  rw [PipeEnds.writeHeld]
  split_ifs
  · exact sound.writeLoop mine place
  · exact sound.leave_idle mine user quiet
  · exact sound.goes_on mine user quiet rfl trivial fun _ _ _ now => by cases now

theorem Sound.writeTurn (sound : Sound s) (mine : s.holder = some p) {w : Write} {resid : Nat}
    (place : s.place p = .writing w resid) : Sound (writeTurn s p w resid) := by
  have user : (s.place p).file = some .wf := by rw [place]; rfl
  rw [PipeEnds.writeTurn]
  split_ifs
  · exact sound.writing mine user _ _ _
  · exact sound.wakeReaders mine user _ _

end

end Retrobsd.PipeEnds
