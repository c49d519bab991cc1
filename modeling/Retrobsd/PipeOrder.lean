import Retrobsd.Pipes

/-! What is read from a pipe is what was written to it, in that order, whoever reads
and writes; and where a write tells how much of it was written. -/
namespace Retrobsd.Pipes
open Lib.Run List

variable {ι : Type} {place : Place} {s : Pipe ι} {w : Write}

section
def Place.holds : Place → Prop
  | .readHeld _ _ => True
  | .reading _ _ => True
  | .writeHeld _ _ => True
  | .writing _ => True
  | _ => False

def Place.reached : Place → Option Nat
  | .reading offset _ => some offset
  | _ => none

/-- The next byte that a read returns: `f_offset`, or further on while a process is
in `rwip` with it. -/
def Pipe.taken (s : Pipe ι) : Nat := (s.holder.bind fun p => (s.place p).reached).getD s.fOffset

structure Orderly (s : Pipe ι) : Prop where
  held : ∀ p, (s.place p).holds → s.holder = some p
  inside : s.taken ≤ s.content.length
  ledger : s.returned ++ s.content.drop s.taken = s.appended

variable {t : Pipe ι} {p : ι} {offset : Nat}

theorem reached_of_not_holds (released : ¬ place.holds) : place.reached = none := by
  cases place <;> first | rfl | exact absurd trivial released

@[simp] theorem wakeReader_holds (place : Place) : place.wakeReader.holds ↔ place.holds := by
  cases place <;> exact Iff.rfl

@[simp] theorem wakeWriter_holds (place : Place) : place.wakeWriter.holds ↔ place.holds := by
  cases place <;> exact Iff.rfl

@[simp] theorem wakeReader_reached (place : Place) : place.wakeReader.reached = place.reached := by
  cases place <;> rfl

@[simp] theorem wakeWriter_reached (place : Place) : place.wakeWriter.reached = place.reached := by
  cases place <;> rfl

theorem Orderly.move (orderly : Orderly s) (held : ∀ p, (t.place p).holds → t.holder = some p)
    (taken : t.taken = s.taken) (content : t.content = s.content) (returned : t.returned = s.returned)
    (appended : t.appended = s.appended) : Orderly t := by
  refine ⟨held,?_,?_⟩
  · rw [taken,content]
    exact orderly.inside
  rw [taken,content,returned,appended]
  exact orderly.ledger

theorem taken_free (free : s.holder = none) : s.taken = s.fOffset := by
  simp [Pipe.taken,free]

theorem taken_held (mine : s.holder = some p) : s.taken = (s.place p).reached.getD s.fOffset := by
  simp [Pipe.taken,mine]

theorem Orderly.wake (orderly : Orderly s) {f : Place → Place} (holds : ∀ place, (f place).holds ↔ place.holds)
    (reached : ∀ place, (f place).reached = place.reached) (iRead iWrite : Bool) (iCount : Nat) :
    Orderly {s with iRead,iWrite,iCount,place := fun q => f (s.place q)} := by
  apply orderly.move
  · intro q there
    exact orderly.held q ((holds _).mp there)
  · simp [Pipe.taken,reached]
  · rfl
  · rfl
  · rfl

theorem Orderly.alone (orderly : Orderly s) (mine : s.holder = some p) {q : ι} (holds : (s.place q).holds) :
    q = p := Option.some.inj ((orderly.held q holds).symm.trans mine)

theorem wakeReaders_orderly (orderly : Orderly s) : Orderly (wakeReaders s) := by
  rw [wakeReaders]
  split
  · exact orderly.wake wakeReader_holds wakeReader_reached false s.iWrite s.iCount
  · exact orderly

theorem wakeReaders_holder (s : Pipe ι) : (wakeReaders s).holder = s.holder := by
  rw [wakeReaders]
  split <;> rfl

theorem wakeReaders_reached (s : Pipe ι) (p : ι) : ((wakeReaders s).place p).reached = (s.place p).reached := by
  rw [wakeReaders]
  split
  · exact wakeReader_reached _
  · rfl

variable [DecidableEq ι]

@[simp] theorem at_place (s : Pipe ι) (p : ι) (place : Place) : (s.at p place).place p = place := by
  simp [Pipe.at]

theorem at_other (s : Pipe ι) {q : ι} (place : Place) (ne : q ≠ p) : (s.at p place).place q = s.place q := by
  simp [Pipe.at,ne]

theorem Orderly.at (orderly : Orderly s) (held : place.holds → s.holder = some p)
    (same : place.reached = (s.place p).reached) : Orderly (s.at p place) := by
  apply orderly.move
  · intro q holds
    by_cases me : q = p
    · subst me
      rw [at_place] at holds
      exact held holds
    · rw [at_other s place me] at holds
      exact orderly.held q holds
  · change Option.getD (s.holder.bind _) s.fOffset = s.taken
    cases who : s.holder with
    | none => simp [Pipe.taken,who]
    | some h =>
      by_cases me : h = p
      · subst me
        simp [Pipe.taken,who,same]
      · simp [Pipe.taken,who,at_other s place me]
  · rfl
  · rfl
  · rfl

theorem Orderly.leave (orderly : Orderly s) (mine : s.holder = some p) (still : (s.place p).reached = none)
    (released : ¬ place.holds) : Orderly (s.leave p place) := by
  apply orderly.move
  · intro q holds
    by_cases me : q = p
    · subst me
      exact absurd (by simpa [Pipe.leave] using holds) released
    have other : (s.place q).holds := by simpa [Pipe.leave,at_other s place me] using holds
    have same := (orderly.held q other).symm.trans mine
    exact absurd (Option.some.inj same) me
  · rw [taken_free rfl,taken_held mine,still]
    rfl
  · rfl
  · rfl
  · rfl

theorem readDone_orderly (alone : ∀ q, (s.place q).holds → q = p)
    (inside : offset ≤ s.content.length) (ledger : s.returned ++ s.content.drop offset = s.appended) :
    Orderly (readDone s p offset) := by
  rw [readDone]
  split
  · next caught =>
    refine ⟨?_,Nat.le_refl 0,?_⟩
    · intro q holds
      by_cases me : q = p
      · subst me
        exact absurd holds (by simp [Pipe.leave,Place.holds])
      have other : (s.place q).holds := by
        simp only [Pipe.leave,at_other _ _ me] at holds
        split at holds
        · exact (wakeWriter_holds _).mp holds
        · exact holds
      exact absurd (alone q other) me
    · rw [caught,drop_length,append_nil] at ledger
      exact (append_nil _).trans ledger
  · refine ⟨?_,inside,ledger⟩
    intro q holds
    by_cases me : q = p
    · subst me
      exact absurd holds (by simp [Pipe.leave,Place.holds])
    rw [Pipe.leave,at_other _ _ me] at holds
    exact absurd (alone q holds) me

theorem reading_orderly (mine : s.holder = some p) (alone : ∀ q, (s.place q).holds → q = p)
    {resid : Nat} (inside : offset ≤ s.content.length) (ledger : s.returned ++ s.content.drop offset = s.appended) :
    Orderly (s.at p (.reading offset resid)) := by
  have taken : (s.at p (.reading offset resid)).taken = offset := by
    have reached : ((s.at p (.reading offset resid)).place p).reached = some offset := by rw [at_place]; rfl
    have owner : (s.at p (.reading offset resid)).holder = some p := mine
    rw [taken_held owner,reached]
    rfl
  refine ⟨?_,?_,?_⟩
  · intro q holds
    by_cases me : q = p
    · rw [me]
      exact mine
    rw [at_other _ _ me] at holds
    exact absurd (alone q holds) me
  · rw [taken]
    exact inside
  · rw [taken]
    exact ledger

theorem readSize_le {diff : Int} (some : 0 ≤ diff) (offset resid : Nat) : (readSize diff offset resid : Int) ≤ diff := by
  rw [readSize]
  split <;> omega

section
variable (orderly : Orderly s)
include orderly

theorem readTurn_orderly {resid : Nat} (here : s.place p = .reading offset resid) : Orderly (readTurn s p offset resid) := by
  have mine : s.holder = some p := orderly.held p (by rw [here]; trivial)
  have alone : ∀ q, (s.place q).holds → q = p := fun _ => orderly.alone mine
  have taken : s.taken = offset := by rw [taken_held mine,here]; rfl
  have inside := orderly.inside
  have ledger := orderly.ledger
  rw [taken] at inside ledger
  rw [readTurn]
  dsimp only
  split
  · exact readDone_orderly alone inside ledger
  next more =>
  have small := readSize_le (show 0 ≤ (s.content.length : Int) - offset by omega) offset resid
  generalize readSize ((s.content.length : Int) - offset) offset resid = n at small ⊢
  have fits : offset + n ≤ s.content.length := by omega
  have moved : s.returned ++ (s.content.drop offset).take n ++ s.content.drop (offset + n) = s.appended := by
    rw [append_assoc,← drop_drop,take_append_drop]
    exact ledger
  split
  · apply reading_orderly
    · exact mine
    · exact alone
    · exact fits
    · exact moved
  · apply readDone_orderly
    · exact alone
    · exact fits
    · exact moved

omit [DecidableEq ι] in
theorem Orderly.placed (here : s.place p = place) (holds : place.holds) (still : place.reached = none) :
    s.holder = some p ∧ (s.place p).reached = none := by
  subst here
  exact ⟨orderly.held p holds,still⟩

theorem readHeld_orderly {n : Nat} {nonblock : Bool} (here : s.place p = .readHeld n nonblock) :
    Orderly (readHeld s p n nonblock) := by
  obtain ⟨mine,still⟩ := orderly.placed here trivial rfl
  have taken : s.taken = s.fOffset := by rw [taken_held mine,still]; rfl
  rw [readHeld]
  split_ifs
  · exact orderly.leave mine still (fun held => held)
  · exact orderly.leave mine still (fun held => held)
  · have flagged : Orderly {s with iRead := true} := {orderly with}
    exact flagged.leave mine still (fun held => held)
  · exact readDone_orderly (fun _ => orderly.alone mine) (taken ▸ orderly.inside) (taken ▸ orderly.ledger)
  · exact reading_orderly mine (fun _ => orderly.alone mine) (taken ▸ orderly.inside) (taken ▸ orderly.ledger)

theorem writeDone_orderly {w' : Write} {checked : Bool} (here : s.place p = .writeHeld checked w) :
    Orderly (writeDone s p w') := by
  obtain ⟨mine,still⟩ := orderly.placed here trivial rfl
  have reported : Orderly (s.report w' w'.outcome) := {orderly with}
  exact reported.leave mine still (fun held => held)

theorem writeLoop_orderly (here : s.place p = .writeHeld true w) : Orderly (writeLoop s p w) := by
  obtain ⟨mine,still⟩ := orderly.placed here trivial rfl
  rw [writeLoop]
  split_ifs
  · exact writeDone_orderly orderly here
  · exact writeDone_orderly orderly here
  · have flagged : Orderly {s with iWrite := true} := {orderly with}
    exact flagged.leave mine still (fun held => held)
  dsimp only
  split
  · apply (wakeReaders_orderly orderly).at
    · intro _
      rw [wakeReaders_holder,mine]
    rw [wakeReaders_reached,still]
    rfl
  · exact orderly.at (fun _ => mine) still.symm

theorem writeTurn_orderly (here : s.place p = .writing w) : Orderly (writeTurn s p w) := by
  obtain ⟨mine,still⟩ := orderly.placed here trivial rfl
  have longer : ∀ more : List UInt8, Orderly {s with content := s.content ++ more,appended := s.appended ++ more} := by
    intro more
    refine ⟨orderly.held,?_,?_⟩
    · change s.taken ≤ (s.content ++ more).length
      rw [length_append]
      exact Nat.le_add_right_of_le orderly.inside
    · change s.returned ++ (s.content ++ more).drop s.taken = s.appended ++ more
      rw [drop_append_of_le_length orderly.inside,← append_assoc,orderly.ledger]
  rw [writeTurn]
  dsimp only
  split
  · exact (longer _).at (fun _ => mine) still.symm
  apply (wakeReaders_orderly (longer _)).at
  · intro _
    rw [wakeReaders_holder]
    exact mine
  · rw [wakeReaders_reached]
    exact still.symm

theorem go_orderly (ok : go s p = .ok t) : Orderly t := by
  rw [go] at ok
  split at ok
  · next here =>
    cases ok
    exact readHeld_orderly orderly here
  · next here =>
    cases ok
    exact readTurn_orderly orderly here
  · next checked w here =>
    cases ok
    obtain ⟨mine,still⟩ := orderly.placed here trivial rfl
    rw [writeHeld]
    split_ifs with first busy
    · subst first
      exact writeLoop_orderly orderly here
    · exact writeDone_orderly orderly here
    · exact orderly.at (fun _ => mine) still.symm
  · next here =>
    cases ok
    exact writeTurn_orderly orderly here
  · cases ok

theorem lock_orderly (ok : lock s p = .ok t) : Orderly t := by
  rw [lock] at ok
  split at ok
  · cases ok
  next free =>
  rw [Bool.not_eq_true,Option.isSome_eq_false_iff,Option.isNone_iff_eq_none] at free
  have nobody : ∀ q, ¬ (s.place q).holds := by
    intro q holds
    have owner := orderly.held q holds
    rw [free] at owner
    cases owner
  have owned : ∀ q, Orderly {s with holder := some q} := by
    intro q
    refine orderly.move (fun r holds => absurd holds (nobody r)) ?_ rfl rfl rfl
    rw [taken_held (p := q) rfl,taken_free free,reached_of_not_holds (nobody q)]
    rfl
  split at ok
  · next here =>
    cases ok
    exact (owned p).at (fun _ => rfl) (by rw [reached_of_not_holds (nobody p)]; rfl)
  · next here =>
    cases ok
    exact (owned p).at (fun _ => rfl) (by rw [reached_of_not_holds (nobody p)]; rfl)
  · cases ok

theorem step_orderly {op : Op ι} (ok : step s op = .ok t) : Orderly t := by
  cases op with
  | read p n nonblock | write p data count limit nonblock =>
    simp only [step] at ok
    split at ok
    · next here =>
      cases ok
      exact orderly.at (fun held => absurd held (fun held => held)) (by rw [here]; rfl)
    · cases ok
  | lock p => exact lock_orderly orderly ok
  | go p => exact go_orderly orderly ok
  | signal p restart =>
    simp only [step,signal] at ok
    split at ok
    · next here =>
      cases ok
      exact orderly.at (fun held => absurd held (fun held => held)) (by rw [here]; rfl)
    · next w here =>
      cases ok
      have reported : ∀ outcome, Orderly (s.report w outcome) := fun outcome => {orderly with}
      exact (reported _).at (fun held => absurd held (fun held => held)) (by
        change _ = (s.place p).reached
        rw [here]
        rfl)
    · cases ok
  | close =>
    simp only [step,pipeClose] at ok
    split at ok
    · cases ok
    cases ok
    exact orderly.wake (f := fun place => place.wakeWriter.wakeReader) (by simp) (by simp) _ _ _

end

end

section
def Honest : Outcome × Nat → Prop
  | (.count n,appended) => n = appended
  | (.error _,appended) => appended = 0

def Write.Told (w : Write) : Prop := (w.error = none ∧ w.c = w.count ∧ w.resid = w.count ∧ w.pos = 0) ∨
  (w.error = none ∧ w.resid = 0 ∧ w.pos + w.c = w.count ∧ 0 < w.pos) ∨
  (w.error = some .efbig ∧ w.pos = 0 ∧ w.c < w.count)

def Place.Told : Place → Prop
  | .writeLock checked w => w.Told ∧ (checked = false → w.pos = 0)
  | .writeHeld checked w => w.Told ∧ (checked = false → w.pos = 0)
  | .writing w => w.error = none ∧ w.pos + w.resid + w.c = w.count ∧ 0 < w.pos + w.resid
  | .writeSleep w => w.Told
  | _ => True

structure Telling (s : Pipe ι) : Prop where
  places : ∀ p, (s.place p).Told
  reports : ∀ r ∈ s.reports, Honest r

theorem wakeReader_told (told : place.Told) : place.wakeReader.Told := by
  cases place <;> exact told

theorem wakeWriter_told (told : place.Told) : place.wakeWriter.Told := by
  cases place with
  | writeSleep w => exact ⟨told,fun never => by cases never⟩
  | _ => exact told

theorem wakeReaders_telling (telling : Telling s) : Telling (wakeReaders s) := by
  rw [wakeReaders]
  split
  · exact ⟨fun p => wakeReader_told (telling.places p),telling.reports⟩
  · exact telling

theorem Telling.report (telling : Telling s) {outcome : Outcome} (honest : Honest (outcome,w.pos)) :
    Telling (s.report w outcome) := by
  refine ⟨telling.places,?_⟩
  intro r member
  rcases mem_append.mp member with old | new
  · exact telling.reports r old
  rw [mem_singleton.mp new]
  exact honest

theorem pipe_orderly : Orderly (pipe : Pipe ι) := ⟨fun _ held => absurd held (fun held => held),Nat.le_refl 0,rfl⟩

theorem pipe_telling : Telling (pipe : Pipe ι) := ⟨fun _ => trivial,fun _ member => absurd member (by simp [pipe])⟩

variable [DecidableEq ι]

section
variable (telling : Telling s)
include telling

theorem Telling.at {p : ι} (told : place.Told) : Telling (s.at p place) := by
  refine ⟨?_,telling.reports⟩
  intro q
  by_cases me : q = p
  · rw [me,at_place]
    exact told
  rw [at_other s place me]
  exact telling.places q

theorem Telling.leave {p : ι} (told : place.Told) : Telling (s.leave p place) := by
  have there := telling.at (p := p) told
  exact ⟨there.places,there.reports⟩

theorem readDone_telling (p : ι) (offset : Nat) : Telling (readDone s p offset) := by
  rw [readDone]
  split
  · have woken : Telling {s with
        fOffset := 0,content := [],iWrite := false
        place := if s.iWrite then fun q => (s.place q).wakeWriter else s.place} := by
      refine ⟨?_,telling.reports⟩
      intro q
      dsimp only
      split
      · exact wakeWriter_told (telling.places q)
      · exact telling.places q
    exact woken.leave trivial
  · have moved : Telling {s with fOffset := offset} := ⟨telling.places,telling.reports⟩
    exact moved.leave trivial

theorem readTurn_telling (p : ι) (offset resid : Nat) : Telling (readTurn s p offset resid) := by
  have more : ∀ l, Telling {s with returned := s.returned ++ l} := fun l => ⟨telling.places,telling.reports⟩
  rw [readTurn]
  dsimp only
  split
  · exact readDone_telling telling p offset
  split
  · exact (more _).at trivial
  · exact readDone_telling (more _) p _

theorem readHeld_telling (p : ι) (n : Nat) (nonblock : Bool) : Telling (readHeld s p n nonblock) := by
  rw [readHeld]
  split_ifs
  · exact telling.leave trivial
  · exact telling.leave trivial
  · have flagged : Telling {s with iRead := true} := ⟨telling.places,telling.reports⟩
    exact flagged.leave trivial
  · exact readDone_telling telling p s.fOffset
  · exact telling.at trivial

def FairLoop (s : Pipe ι) (w : Write) : Prop := w.c = 0 ∨
  if s.iCount ≠ 2 then w.pos = 0
  else if s.content.length ≥ maxpipsiz then True
  else if s.content.length + min w.c maxpipsiz > w.limit then w.pos = 0
  else w.error = none

theorem writeDone_telling (p : ι) (honest : Honest (w.outcome,w.pos)) :
    Telling (writeDone s p w) := (telling.report honest).leave trivial

theorem writeLoop_telling (p : ι) (told : w.Told) (fair : FairLoop s w) : Telling (writeLoop s p w) := by
  rw [writeLoop]
  by_cases finished : w.c = 0
  · rw [if_pos finished]
    apply writeDone_telling telling
    rcases told with ⟨none,whole,-,nothing⟩ | ⟨none,-,sum,-⟩ | ⟨refused,nothing,-⟩
    · simp only [Write.outcome,none,Honest]
      omega
    · simp only [Write.outcome,none,Honest]
      omega
    · simp only [Write.outcome,refused,Honest]
      exact nothing
  rw [if_neg finished]
  replace fair := fair.resolve_left finished
  by_cases broken : s.iCount ≠ 2
  · rw [if_pos broken] at fair ⊢
    exact writeDone_telling telling p fair
  rw [if_neg broken] at fair ⊢
  by_cases full : s.content.length ≥ maxpipsiz
  · rw [if_pos full]
    have flagged : Telling {s with iWrite := true} := ⟨telling.places,telling.reports⟩
    exact flagged.leave told
  rw [if_neg full] at fair ⊢
  dsimp only
  have size : maxpipsiz = 4096 := rfl
  by_cases large : s.content.length + min w.c maxpipsiz > w.limit
  · rw [if_pos large] at fair ⊢
    apply (wakeReaders_telling telling).at
    refine ⟨.inr (.inr ⟨rfl,fair,?_⟩),fun never => by cases never⟩
    change w.c - min w.c maxpipsiz < w.count
    rcases told with ⟨-,all,-,-⟩ | ⟨-,-,sum,-⟩ | ⟨-,-,less⟩ <;> omega
  rw [if_neg large] at fair ⊢
  apply telling.at
  refine ⟨rfl,?_,?_⟩
  · change w.pos + min w.c maxpipsiz + (w.c - min w.c maxpipsiz) = w.count
    rcases told with ⟨-,all,-,nothing⟩ | ⟨-,-,sum,-⟩ | ⟨refused,-⟩
    · omega
    · omega
    rw [refused] at fair
    cases fair
  · change 0 < w.pos + min w.c maxpipsiz
    omega

theorem writeTurn_telling (p : ι) (here : (Place.writing w).Told) : Telling (writeTurn s p w) := by
  obtain ⟨clean,sum,some⟩ := here
  have more : ∀ l, Telling {s with content := s.content ++ l,appended := s.appended ++ l} := fun l =>
    ⟨telling.places,telling.reports⟩
  have room : 0 < devBsize - s.content.length % devBsize := Nat.sub_pos_of_lt (Nat.mod_lt _ (by decide))
  rw [writeTurn]
  dsimp only
  generalize devBsize - s.content.length % devBsize = left at room ⊢
  split
  · apply (more _).at
    refine ⟨clean,?_,?_⟩
    · change w.pos + min left w.resid + (w.resid - min left w.resid) + w.c = w.count
      omega
    change 0 < w.pos + min left w.resid + (w.resid - min left w.resid)
    omega
  next ended =>
  apply (wakeReaders_telling (more _)).at
  refine ⟨.inr (.inl ⟨clean,?_,?_,?_⟩),fun never => by cases never⟩
  · change w.resid - min left w.resid = 0
    omega
  · change w.pos + min left w.resid + w.c = w.count
    omega
  · change 0 < w.pos + min left w.resid
    omega

/-- No signal ends a write, and no reader goes away, once a part of it is appended;
no chunk of it is refused then, and none is appended after one was refused. -/
def Fair (s : Pipe ι) : Op ι → Prop
  | .go p => ∀ w, s.place p = .writeHeld true w → FairLoop s w
  | .signal p _ => ∀ w, s.place p = .writeSleep w → w.c = w.count
  | _ => True

theorem step_telling {t : Pipe ι} {op : Op ι} (fair : Fair s op) (ok : step s op = .ok t) : Telling t := by
  cases op with
  | read p n nonblock =>
    simp only [step] at ok
    split at ok
    · cases ok
      exact telling.at trivial
    · cases ok
  | write p data count limit nonblock =>
    simp only [step] at ok
    split at ok
    · cases ok
      exact telling.at ⟨.inl ⟨rfl,rfl,rfl,rfl⟩,fun _ => rfl⟩
    · cases ok
  | lock p =>
    simp only [step,lock] at ok
    have owned : Telling {s with holder := some p} := ⟨telling.places,telling.reports⟩
    have mine := telling.places p
    split at ok
    · cases ok
    split at ok
    · cases ok
      exact owned.at trivial
    · next here =>
      cases ok
      rw [here] at mine
      exact owned.at mine
    · cases ok
  | go p =>
    simp only [step,go] at ok
    have mine := telling.places p
    split at ok
    · cases ok
      exact readHeld_telling telling p _ _
    · cases ok
      exact readTurn_telling telling p _ _
    · next checked w here =>
      cases ok
      rw [here] at mine
      rw [writeHeld]
      split_ifs with first busy
      · subst first
        exact writeLoop_telling telling p mine.1 (fair w here)
      · exact writeDone_telling telling p (mine.2 (by simpa using first))
      · exact telling.at ⟨mine.1,fun never => by cases never⟩
    · next w here =>
      cases ok
      rw [here] at mine
      exact writeTurn_telling telling p mine
    · cases ok
  | signal p restart =>
    simp only [step,signal] at ok
    have mine := telling.places p
    split at ok
    · cases ok
      exact telling.at trivial
    · next w here =>
      cases ok
      rw [here] at mine
      have untried := fair w here
      have fresh : w.resid = w.count ∧ w.pos = 0 := by
        rcases mine with ⟨-,-,resid,nothing⟩ | ⟨-,-,sum,some⟩ | ⟨-,-,less⟩
        · exact ⟨resid,nothing⟩
        · omega
        · omega
      rw [if_pos fresh.1]
      have honest : Honest (.error (if restart then .erestart else .eintr),w.pos) := fresh.2
      exact (telling.report honest).at trivial
    · cases ok
  | close =>
    simp only [step,pipeClose] at ok
    split at ok
    · cases ok
    cases ok
    exact ⟨fun q => wakeReader_told (wakeWriter_told (telling.places q)),telling.reports⟩

end

/-- In every run of reads and writes of a pipe, what the reads have returned is a
beginning of what the writes have appended. In a fair one each write that has ended
reported the number of its bytes that were appended, or an error if there are none. -/
theorem pipes_kept (ops : List (Op ι)) (ran : run step pipe ops = .ok s) :
    s.returned <+: s.appended ∧ (Along step Fair pipe ops → ∀ r ∈ s.reports, Honest r) := by
  have always : Along step (fun (_ : Pipe ι) (_ : Op ι) => True) pipe ops := Along.of_forall pipe fun _ _ => trivial
  have whole : Orderly s := run_invariant (fun _ _ _ orderly _ ok => step_orderly orderly ok) ops _ _ pipe_orderly always ran
  refine ⟨⟨s.content.drop s.taken,whole.ledger⟩,?_⟩
  intro fair
  have told : Telling s := run_invariant (fun _ _ _ telling now ok => step_telling telling now ok) ops _ _ pipe_telling fair ran
  exact told.reports

def someOps : List (Op Nat) :=
  [.read 2 5000 false,.lock 2,.go 2,.write 0 (fun i => UInt8.ofNat i) 4099 100000 false,.write 1 (fun _ => 7) 3 100000 true,
    .lock 1,.go 1,.go 1,.go 1,.go 1,.lock 0,.go 0,.go 0,.go 0,.go 0,.go 0,.go 0,.go 0,.go 0,
    .lock 2,.go 2,.go 2,.go 2,.go 2,.go 2,.go 2,.go 2,.lock 0,.go 0,.go 0,.go 0]

theorem pipes_kept_someOps : ∃ s, run step pipe someOps = .ok s ∧ s.returned <+: s.appended := by
  have ended : returns (fun s => decide (s.reports = [(.count 3,3),(.count 4099,4099)])) (run step pipe someOps) = true := by
    decide +kernel
  obtain ⟨s,ran,-⟩ := of_returns ended
  exact ⟨s,ran,(pipes_kept someOps ran).1⟩

/-- A signal ends a write in its sleep for the second chunk, and the whole of it is
reported to be written. -/
theorem interrupted_reports_all : ∃ s : Pipe Nat,
    run step pipe [.write 0 (fun _ => 7) 4097 100000 false,.lock 0,.go 0,.go 0,.go 0,.go 0,.go 0,.go 0,.go 0,.signal 0 false] =
      .ok s ∧ s.reports = [(.count 4097,4096)] ∧ ∃ r ∈ s.reports, ¬ Honest r := by
  have ended : returns (fun s => decide (s.reports = [(.count 4097,4096)])) (run step (pipe : Pipe Nat)
      [.write 0 (fun _ => 7) 4097 100000 false,.lock 0,.go 0,.go 0,.go 0,.go 0,.go 0,.go 0,.go 0,.signal 0 false]) = true := by
    decide +kernel
  obtain ⟨s,ran,shown⟩ := of_returns ended
  have reports := of_decide_eq_true shown
  refine ⟨s,ran,reports,(.count 4097,4096),?_,?_⟩
  · rw [reports]
    exact mem_singleton_self _
  change ¬ 4097 = 4096
  decide

end

end Retrobsd.Pipes
