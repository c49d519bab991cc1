import Retrobsd.FileLocks

/-! Every descriptor is counted by the file that it points to. What holds between calls is
also stated while files are being set up, for the calls that fail half way. -/
namespace Retrobsd.FileTable
open Function List
open Lib.Counting

/-- The tables are in order; the files in `fresh` have no inode yet. -/
structure Tabled (fresh : Set Slot) (s : State) : Prop where
  counts : ∀ fp, (s.files fp).count = hits s.ofile fp
  above : ∀ p fd, s.lastfile p < (fd.val : Int) → s.ofile (p,fd) = none
  dead : ∀ p, s.alive p = false → (∀ fd, s.ofile (p,fd) = none) ∧ s.wait p = none
  filled : ∀ fp, fp ∉ fresh → (s.files fp).type = .inode → (s.files fp).count ≠ 0 → (s.files fp).data ≠ none
  waits : ∀ p w, s.wait p = some w → w.fp ∉ fresh ∧ (s.files w.fp).type = .inode ∧ (s.files w.fp).data = some w.ip ∧
    ∃ fd, s.ofile (p,fd) = some w.fp ∧ ∀ opening, w.opening = some opening → opening = fd

structure Sound (fresh : Set Slot) (s : State) : Prop extends Tabled fresh s where
  locks : Locks s.files s.inodes

variable {fresh : Set Slot} {s t : State} {p : Pid} {fd : Fd} {fp : Slot} {f : File}

section
variable (sound : Sound fresh s)
include sound

theorem Sound.congr (files : t.files = s.files) (ofile : t.ofile = s.ofile) (lastfile : t.lastfile = s.lastfile)
    (alive : t.alive = s.alive) (wait : t.wait = s.wait) (inodes : t.inodes = s.inodes) : Sound fresh t := by
  obtain ⟨⟨counts,above,dead,filled,waits⟩,locks⟩ := sound
  refine ⟨⟨?_,?_,?_,?_,?_⟩,?_⟩
  · rwa [files,ofile]
  · rwa [lastfile,ofile]
  · rwa [alive,ofile,wait]
  · rwa [files]
  · rwa [files,ofile,wait]
  · rwa [files,inodes]

theorem Sound.answer (p : Pid) (r : Reply) : Sound fresh (s.answer p r) := sound.congr rfl rfl rfl rfl rfl rfl

theorem Sound.setPofile (p : Pid) (fd : Fd) (x : Bool) : Sound fresh (s.setPofile p fd x) := sound.congr rfl rfl rfl rfl rfl rfl

theorem Sound.relocked (same : Relocked s t) (locks : Locks t.files t.inodes) : Sound fresh t := by
  refine ⟨⟨?_,?_,?_,?_,?_⟩,locks⟩
  · intro fp
    rw [same.count,same.ofile]
    exact sound.counts fp
  · rw [same.lastfile,same.ofile]
    exact sound.above
  · rw [same.alive,same.ofile,same.wait]
    exact sound.dead
  · intro fp
    rw [same.type,same.count,same.data]
    exact sound.filled fp
  · intro p w
    rw [same.wait,same.type,same.data,same.ofile]
    exact sound.waits p w

theorem Sound.awaited {w : Wait} (waits : s.wait p = some w) : (s.files w.fp).count ≠ 0 := by
  obtain ⟨_,_,_,fd,at_fd,_⟩ := sound.waits p w waits
  have some := hits_pos at_fd
  rw [sound.counts]
  omega

theorem Sound.opened (at_fd : s.ofile (p,fd) = some fp) : (s.files fp).count ≠ 0 := by
  have some := hits_pos at_fd
  rw [sound.counts]
  omega

theorem Sound.unlocked (free : (s.files fp).count = 0) : exTable s.files fp = none ∧ shTable s.files fp = none := by
  constructor
  · cases held : (s.files fp).flag.fExlock with
    | false => simp [exTable,held]
    | true => exact absurd free (sound.locks.holder fp (.inr held)).2.2
  cases held : (s.files fp).flag.fShlock with
  | false => simp [shTable,held]
  | true => exact absurd free (sound.locks.holder fp (.inl held)).2.2

theorem Sound.setLastfile (p : Pid) (last : Int)
    (above : ∀ fd : Fd, last < (fd.val : Int) → s.ofile (p,fd) = none) : Sound fresh (s.setLastfile p last) := by
  refine ⟨⟨sound.counts,?_,sound.dead,sound.filled,sound.waits⟩,sound.locks⟩
  exact (forall_update_iff s.lastfile fun q last => ∀ fd : Fd, last < (fd.val : Int) → s.ofile (q,fd) = none).mpr
    ⟨above,fun q _ => sound.above q⟩

theorem Sound.raise (p : Pid) (fd : Fd) : Sound fresh (raise s p fd) :=
  sound.setLastfile p _ fun other beyond => sound.above p other (lt_of_le_of_lt (le_max_left _ _) beyond)

end

theorem lastOpen_above (row : Fd → Option Slot) (n : Nat) (above : ∀ fd : Fd, n ≤ fd.val → row fd = none) (fd : Fd)
    (beyond : lastOpen row n < fd.val) : row fd = none := by
  induction n with
  | zero => exact above fd (Nat.zero_le _)
  | succ n ih =>
    rw [lastOpen] at beyond
    split_ifs at beyond with small empty
    · refine ih (fun other at_least => ?_) beyond
      rcases Nat.eq_or_lt_of_le at_least with same | more
      · have here : (⟨n,small⟩ : Fd) = other := Fin.ext same
        exact here ▸ empty
      · exact above other more
    · exact above fd (by omega)
    · exact absurd fd.isLt (by omega)

theorem Sound.lower (sound : Sound fresh s) (p : Pid) : Sound fresh (lower s p) := by
  refine sound.setLastfile p _ fun other beyond => ?_
  refine lastOpen_above (fun fd => s.ofile (p,fd)) _ (fun fd at_least => ?_) other beyond
  exact sound.above p fd (by omega)

theorem hits_other {x : Option Slot} (old : s.ofile (p,fd) = none ∨ s.ofile (p,fd) = some fp) (new : x = none ∨ x = some fp)
    {other : Slot} (ne : other ≠ fp) : hits (s.setOfile p fd x).ofile other = hits s.ofile other := by
  have moved := hits_update s.ofile (p,fd) x other
  have first : weight (s.ofile (p,fd)) other = 0 := by
    rcases old with none | same
    · rw [none,weight_none]
    · rw [same,weight_of_ne (Ne.symm ne)]
  have second : weight x other = 0 := by
    rcases new with rfl | rfl
    · rfl
    · exact weight_of_ne (Ne.symm ne)
  rw [first,second] at moved
  exact moved

theorem Sound.change (sound : Sound fresh s) {x : Option Slot} {later : Set Slot}
    (old : s.ofile (p,fd) = none ∨ s.ofile (p,fd) = some fp) (new : x = none ∨ x = some fp)
    (count : f.count + weight (s.ofile (p,fd)) fp = (s.files fp).count + weight x fp)
    (low : x ≠ none → (fd.val : Int) ≤ s.lastfile p ∧ s.alive p = true) (awake : s.wait p = none)
    (others : ∀ g, g ≠ fp → (g ∈ later ↔ g ∈ fresh))
    (filled : fp ∉ later → f.type = .inode → f.count ≠ 0 → f.data ≠ none)
    (unwaited : (∀ q w, s.wait q = some w → w.fp ≠ fp) ∨ f.type = (s.files fp).type ∧ f.data = (s.files fp).data ∧
    (fp ∉ fresh → fp ∉ later))
    (locks : Locks (update s.files fp f) s.inodes) : Sound later ((s.setOfile p fd x).setFile fp f) := by
  refine ⟨⟨?_,?_,?_,?_,?_⟩,locks⟩
  · refine (forall_update_iff s.files fun g f => f.count = hits (update s.ofile (p,fd) x) g).mpr ⟨?_,fun g same => ?_⟩
    · have moved := hits_update s.ofile (p,fd) x fp
      have before := sound.counts fp
      omega
    · exact (sound.counts g).trans (hits_other old new same).symm
  · intro q other beyond
    by_cases same : (q,other) = (p,fd)
    · cases same
      by_contra filled
      have kept : x ≠ none := by
        intro none
        exact filled ((update_self _ _ _).trans none)
      exact absurd (low kept).1 (not_le.mpr beyond)
    · exact (update_of_ne same _ _).trans (sound.above q other beyond)
  · intro q gone
    obtain ⟨empty,still⟩ := sound.dead q gone
    refine ⟨fun other => ?_,still⟩
    by_cases same : (q,other) = (p,fd)
    · cases same
      by_contra filled
      have kept : x ≠ none := by
        intro none
        exact filled ((update_self _ _ _).trans none)
      exact absurd ((low kept).2.symm.trans gone) (by simp)
    · exact (update_of_ne same _ _).trans (empty other)
  · refine (forall_update_iff s.files fun g f => g ∉ later → f.type = .inode → f.count ≠ 0 → f.data ≠ none).mpr
      ⟨filled,fun g same => ?_⟩
    rw [others g same]
    exact sound.filled g
  · intro q w waits
    obtain ⟨settled,type,data,other,at_other,opening⟩ := sound.waits q w waits
    have elsewhere : (q,other) ≠ (p,fd) := by
      intro same
      cases same
      exact absurd (awake.symm.trans waits) (by simp)
    have slot : ((s.setOfile p fd x).setFile fp f).ofile (q,other) = some w.fp := (update_of_ne elsewhere _ _).trans at_other
    dsimp only [State.setFile]
    by_cases same : w.fp = fp
    · rcases unwaited with none | ⟨kept,also,stays⟩
      · exact absurd same (none q w waits)
      rw [same,update_self,kept,also]
      rw [same] at settled type data
      exact ⟨stays settled,type,data,other,same ▸ slot,opening⟩
    · rw [update_of_ne same,others w.fp same]
      exact ⟨settled,type,data,other,slot,opening⟩

structure Framed (s t : State) : Prop where
  ofile : t.ofile = s.ofile
  pofile : t.pofile = s.pofile
  lastfile : t.lastfile = s.lastfile
  alive : t.alive = s.alive
  wait : t.wait = s.wait

theorem inoUnlock_with (s : State) (ofile : Pid × Fd → Option Slot) (pofile : Pid × Fd → Bool) (lastfile : Pid → Int)
    (fp : Slot) (sh ex : Bool) :
    inoUnlock {s with ofile,pofile,lastfile} fp sh ex =
      {inoUnlock s fp sh ex with ofile,pofile,lastfile} := by
  rw [inoUnlock,inoUnlock]
  dsimp only
  cases (s.files fp).data with
  | none => rfl
  | some ip =>
    dsimp only
    split_ifs <;> rfl

def unheld (s : State) (fp : Slot) : State :=
  if ((s.files fp).flag.fShlock || (s.files fp).flag.fExlock) && (s.files fp).type = .inode then inoUnlock s fp true true else s

def closed (type : Dtype) (data : Option Nat) (f : File) : File :=
    {f with count := 0,data := if type = .inode then none else data}

theorem closef_many (many : 1 < (s.files fp).count) : closef s fp = s.setCount fp ((s.files fp).count - 1) := if_pos many

theorem closef_last (few : ¬ 1 < (s.files fp).count) :
    closef s fp = (unheld s fp).setFile fp (closed (s.files fp).type (s.files fp).data ((unheld s fp).files fp)) := if_neg few

theorem unheld_with (s : State) (ofile : Pid × Fd → Option Slot) (pofile : Pid × Fd → Bool) (lastfile : Pid → Int) (fp : Slot) :
    unheld {s with ofile,pofile,lastfile} fp = {unheld s fp with ofile,pofile,lastfile} := by
  rw [unheld,unheld,inoUnlock_with]
  dsimp only
  split_ifs <;> rfl

theorem closef_with (s : State) (ofile : Pid × Fd → Option Slot) (pofile : Pid × Fd → Bool) (lastfile : Pid → Int) (fp : Slot) :
    closef {s with ofile,pofile,lastfile} fp = {closef s fp with ofile,pofile,lastfile} := by
  by_cases many : 1 < (s.files fp).count
  · rw [closef_many many]
    exact closef_many many
  rw [closef_last many,@closef_last {s with ofile,pofile,lastfile} fp many,unheld_with]
  rfl

theorem unheld_framed (s : State) (fp : Slot) : Framed s (unheld s fp) := by
  rw [unheld,inoUnlock]
  cases (s.files fp).data with
  | none => split_ifs <;> exact ⟨rfl,rfl,rfl,rfl,rfl⟩
  | some ip =>
    dsimp only
    split_ifs <;> exact ⟨rfl,rfl,rfl,rfl,rfl⟩

theorem closef_framed (s : State) (fp : Slot) : Framed s (closef s fp) := by
  by_cases many : 1 < (s.files fp).count
  · rw [closef_many many]
    exact ⟨rfl,rfl,rfl,rfl,rfl⟩
  rw [closef_last many]
  have before := unheld_framed s fp
  exact ⟨before.ofile,before.pofile,before.lastfile,before.alive,before.wait⟩

theorem closef_setOfile (p : Pid) (fd : Fd) (x : Option Slot) (fp : Slot) :
    closef (s.setOfile p fd x) fp = (closef s fp).setOfile p fd x := by
  have frame := closef_framed s fp
  refine (closef_with s (update s.ofile (p,fd) x) s.pofile s.lastfile fp).trans ?_
  rw [State.setOfile,frame.ofile,← frame.lastfile,← frame.pofile]

theorem closef_setPofile (s : State) (p : Pid) (fd : Fd) (x : Bool) (fp : Slot) :
    closef (s.setPofile p fd x) fp = (closef s fp).setPofile p fd x := by
  have frame := closef_framed s fp
  refine (closef_with s s.ofile (update s.pofile (p,fd) x) s.lastfile fp).trans ?_
  rw [State.setPofile,frame.pofile,← frame.lastfile,← frame.ofile]

theorem closef_lower (s : State) (p : Pid) (fp : Slot) : closef (FileTable.lower s p) fp = FileTable.lower (closef s fp) p := by
  have frame := closef_framed s fp
  refine (closef_with s s.ofile s.pofile (FileTable.lower s p).lastfile fp).trans ?_
  rw [FileTable.lower,FileTable.lower,State.setLastfile,State.setLastfile,frame.ofile,frame.lastfile,← frame.pofile]

theorem unheld_spec (locks : Locks s.files s.inodes) (fp : Slot) : Locks (unheld s fp).files (unheld s fp).inodes ∧
    Relocked s (unheld s fp) ∧ ((unheld s fp).files fp).flag.fShlock = false ∧
    ((unheld s fp).files fp).flag.fExlock = false := by
  have holder := locks.holder fp
  obtain ⟨after,same,shared,exclusive⟩ := inoUnlock_spec locks fp true true
  rw [unheld]
  split_ifs with held
  · refine ⟨after,same,?_,?_⟩
    · rw [shared,Bool.not_true,Bool.and_false]
    · rw [exclusive,Bool.not_true,Bool.and_false]
  refine ⟨locks,Relocked.refl s,?_,?_⟩
  · by_contra some
    rw [Bool.not_eq_false] at some
    exact held (by simp [some,(holder (.inl some)).1])
  by_contra some
  rw [Bool.not_eq_false] at some
  exact held (by simp [some,(holder (.inr some)).1])

theorem Sound.unwaited (sound : Sound fresh s) (at_fd : s.ofile (p,fd) = some fp) (awake : s.wait p = none)
    (few : ¬ 1 < (s.files fp).count) (q : Pid) (w : Wait) (waits : s.wait q = some w) : w.fp ≠ fp := by
  rintro rfl
  obtain ⟨_,_,_,other,at_other,_⟩ := sound.waits q w waits
  have elsewhere : (q,other) ≠ (p,fd) := by
    intro same
    cases same
    exact absurd (awake.symm.trans waits) (by simp)
  have two := two_le_hits elsewhere at_other at_fd
  rw [← sound.counts] at two
  exact few two

theorem Sound.release (sound : Sound fresh s) (at_fd : s.ofile (p,fd) = some fp) (awake : s.wait p = none) :
    Sound fresh (closef (s.setOfile p fd none) fp) := by
  have opened := sound.opened at_fd
  by_cases many : 1 < (s.files fp).count
  · have shape : closef (s.setOfile p fd none) fp =
        (s.setOfile p fd none).setFile fp {s.files fp with count := (s.files fp).count - 1} := closef_many many
    rw [shape]
    refine sound.change (.inr at_fd) (.inl rfl) ?_ (fun some => absurd rfl some) awake (fun _ _ => Iff.rfl) ?_
      (.inr ⟨rfl,rfl,id⟩) ?_
    · rw [at_fd,weight_self,weight_none]
      dsimp only
      omega
    · intro old type _
      exact sound.filled fp old type opened
    · refine sound.locks.refile rfl rfl ?_
      intro held
      obtain ⟨type,data,_⟩ := sound.locks.holder fp held
      exact ⟨type,data,by dsimp only; omega⟩
  obtain ⟨locks,same,shared,exclusive⟩ := unheld_spec sound.locks fp
  have after := sound.relocked same locks
  rw [closef_setOfile,closef_last many]
  refine after.change (by rw [same.ofile]; exact .inr at_fd) (.inl rfl) ?_ (fun some => absurd rfl some)
    (by rw [same.wait]; exact awake) (fun _ _ => Iff.rfl) (fun _ _ some => absurd rfl some) ?_ ?_
  · rw [same.ofile,at_fd,weight_self,weight_none,same.count]
    dsimp only [closed]
    omega
  · rw [same.wait]
    exact .inl (sound.unwaited at_fd awake many)
  refine locks.refile ?_ ?_ ?_
  · simp [closed,exTable,exclusive]
  · simp [closed,shTable,shared]
  rintro (held | held)
  · exact absurd (shared.symm.trans held) (by simp)
  · exact absurd (exclusive.symm.trans held) (by simp)

theorem setOfile_setOfile (s : State) (p : Pid) (fd : Fd) (x y : Option Slot) :
    (s.setOfile p fd x).setOfile p fd y = s.setOfile p fd y := by
  simp only [State.setOfile,update_idem]

theorem setOfile_self (s : State) (p : Pid) (fd : Fd) : s.setOfile p fd (s.ofile (p,fd)) = s := by
  simp [State.setOfile]

theorem files_setFile (s : State) (fp : Slot) (f : File) : (s.setFile fp f).files fp = f := update_self _ _ _

theorem Sound.share (sound : Sound fresh s) (empty : s.ofile (p,fd) = none) (opened : (s.files fp).count ≠ 0)
    (alive : s.alive p = true) (awake : s.wait p = none) (x : Bool) :
    Sound fresh (FileTable.raise (((s.setOfile p fd (some fp)).setPofile p fd x).setCount fp
    ((s.files fp).count + 1)) p fd) := by
  have raised := sound.raise p fd
  have changed : Sound fresh (((FileTable.raise s p fd).setOfile p fd (some fp)).setFile fp
      {s.files fp with count := (s.files fp).count + 1}) := by
    refine raised.change (.inl empty) (.inr rfl) ?_ (fun _ => ⟨?_,alive⟩) awake (fun _ _ => Iff.rfl) ?_ (.inr ⟨rfl,rfl,id⟩) ?_
    · rw [show (FileTable.raise s p fd).ofile (p,fd) = none from empty,weight_none,weight_self]
      rfl
    · exact le_of_le_of_eq (le_max_right _ _) (update_self p _ s.lastfile).symm
    · intro old type _
      exact sound.filled fp old type opened
    · refine sound.locks.refile rfl rfl ?_
      intro held
      obtain ⟨type,data,_⟩ := sound.locks.holder fp held
      exact ⟨type,data,Nat.succ_ne_zero _⟩
  exact changed.congr rfl rfl rfl rfl rfl rfl

theorem Sound.low (sound : Sound fresh s) (at_fd : s.ofile (p,fd) = some fp) :
    (fd.val : Int) ≤ s.lastfile p ∧ s.alive p = true := by
  constructor
  · by_contra beyond
    exact absurd ((sound.above p fd (not_le.mp beyond)).symm.trans at_fd) (by simp)
  by_contra gone
  exact absurd (((sound.dead p (by simpa using gone)).1 fd).symm.trans at_fd) (by simp)

section
variable (sound : Sound (insert fp fresh) s) (at_fd : s.ofile (p,fd) = some fp) (awake : s.wait p = none)
include sound at_fd awake

theorem Sound.fill {later : Set Slot} (others : ∀ g, g ≠ fp → (g ∈ later ↔ g ∈ fresh)) (count : f.count = (s.files fp).count)
    (ex : exTable s.files fp = none) (sh : shTable s.files fp = none) (unlocked : f.flag.fShlock = false ∧
    f.flag.fExlock = false)
    (filled : fp ∉ later → f.type = .inode → f.data ≠ none) : Sound later (s.setFile fp f) := by
  have shape : s.setFile fp f = (s.setOfile p fd (some fp)).setFile fp f := by
    rw [← at_fd,setOfile_self]
  rw [shape]
  refine sound.change (.inr at_fd) (.inr rfl) ?_ (fun _ => sound.low at_fd) awake ?_ (fun new type _ =>
    filled new type) (.inl ?_) ?_
  · rw [at_fd,count]
  · intro g ne
    rw [others g ne,Set.mem_insert_iff]
    exact ⟨.inr,fun either => either.resolve_left ne⟩
  · intro q w waits same
    exact (sound.waits q w waits).1 (same ▸ Set.mem_insert _ _)
  refine sound.locks.refile ?_ ?_ ?_
  · rw [ex,unlocked.2]
    rfl
  · rw [sh,unlocked.1]
    rfl
  · rintro (held | held)
    · exact absurd (unlocked.1.symm.trans held) (by simp)
    · exact absurd (unlocked.2.symm.trans held) (by simp)

theorem Sound.detach (count : (s.files fp).count = 1) (ex : exTable s.files fp = none)
    (sh : shTable s.files fp = none) : Sound fresh ((s.setCount fp 0).setOfile p fd none) := by
  have changed : Sound fresh ((s.setOfile p fd none).setFile fp {s.files fp with count := 0}) := by
    refine sound.change (.inr at_fd) (.inl rfl) ?_ (fun some => absurd rfl some) awake ?_ (fun _ _ some =>
      absurd rfl some) (.inl ?_) ?_
    · rw [at_fd,weight_self,weight_none,count]
    · intro g ne
      rw [Set.mem_insert_iff]
      exact ⟨.inr,fun either => either.resolve_left ne⟩
    · intro q w waits same
      exact (sound.waits q w waits).1 (same ▸ Set.mem_insert _ _)
    · refine sound.locks.refile rfl rfl ?_
      rintro (held | held)
      · have data := (sound.locks.holder fp (.inl held)).2.1
        exact absurd sh (by rw [shTable,if_pos held]; exact data)
      have data := (sound.locks.holder fp (.inr held)).2.1
      exact absurd ex (by rw [exTable,if_pos held]; exact data)
  exact changed

end

theorem ufalloc_sound (sound : Sound fresh s) {i : Int} (found : ufalloc s p i = some (t,fd)) :
    Sound fresh t ∧ s.ofile (p,fd) = none ∧ (fd.val : Int) ≤ t.lastfile p ∧ t.files = s.files ∧ t.ofile = s.ofile ∧
      t.alive = s.alive ∧ t.wait = s.wait ∧ t.inodes = s.inodes := by
  rw [ufalloc] at found
  cases scan : (finRange 30).find? (fun fd => decide (i ≤ fd.val) && (s.ofile (p,fd)).isNone) with
  | none =>
    rw [scan] at found
    cases found
  | some first =>
    rw [scan] at found
    cases found
    have free := List.find?_some scan
    simp only [Bool.and_eq_true,Option.isNone_iff_eq_none] at free
    exact ⟨(sound.setPofile p fd false).raise p fd,free.2,
      le_of_le_of_eq (le_max_right _ _) (update_self p _ s.lastfile).symm,rfl,rfl,rfl,rfl,rfl⟩

structure Attached (s t : State) (p : Pid) (fd : Fd) (fp : Slot) : Prop where
  empty : s.ofile (p,fd) = none
  free : (s.files fp).count = 0
  ofile : t.ofile = update s.ofile (p,fd) (some fp)
  files : t.files = update s.files fp {s.files fp with count := 1,data := none}
  alive : t.alive = s.alive
  wait : t.wait = s.wait

section
variable (attached : Attached s t p fd fp)
include attached

theorem Attached.at_fd : t.ofile (p,fd) = some fp := by
  rw [attached.ofile,update_self]

theorem Attached.file : t.files fp = {s.files fp with count := 1,data := none} := by
  rw [attached.files,update_self]

theorem Attached.exTable : exTable t.files fp = none := by
  rw [FileTable.exTable,attached.file]
  split_ifs <;> rfl

theorem Attached.shTable : shTable t.files fp = none := by
  rw [FileTable.shTable,attached.file]
  split_ifs <;> rfl

end

theorem freeFile_free (found : freeFile s = some fp) : (s.files fp).count = 0 := by
  simpa using List.find?_some found

theorem freeFile_none (none : freeFile s = none) (fp : Slot) : (s.files fp).count ≠ 0 := by
  have every := List.find?_eq_none.mp none
  have member : fp ∈ (finRange 24).drop s.lastf ++ (finRange 24).take s.lastf := by
    have whole : fp ∈ (finRange 24).take s.lastf ++ (finRange 24).drop s.lastf := by
      rw [take_append_drop]
      exact mem_finRange fp
    exact mem_append.mpr (mem_append.mp whole).symm
  simpa using every fp member

theorem ufalloc_none (none : ufalloc s p 0 = none) (fd : Fd) : s.ofile (p,fd) ≠ Option.none := by
  rw [ufalloc] at none
  cases scan : (finRange 30).find? (fun fd => decide ((0 : Int) ≤ fd.val) && (s.ofile (p,fd)).isNone) with
  | none =>
    have every := List.find?_eq_none.mp scan fd (mem_finRange fd)
    simpa using every
  | some first =>
    rw [scan] at none
    cases none

theorem falloc_sound (sound : Sound fresh s) (alive : s.alive p = true) (awake : s.wait p = none) :
    (∃ t error, falloc s p = (t,.error error) ∧ Sound fresh t ∧ (t.ofile = s.ofile ∧ t.files = s.files ∧ t.wait = s.wait) ∧
      ((∀ fd, s.ofile (p,fd) ≠ none) ∨ ∀ fp, (s.files fp).count ≠ 0)) ∨
      ∃ t fd fp, falloc s p = (t,.ok (fd,fp)) ∧ Attached s t p fd fp ∧ Sound (insert fp fresh) t := by
  rw [falloc]
  cases found : ufalloc s p 0 with
  | none => exact .inl ⟨s,24,rfl,sound,⟨rfl,rfl,rfl⟩,.inl (ufalloc_none found)⟩
  | some pair =>
    obtain ⟨middle,fd⟩ := pair
    obtain ⟨kept,empty,low,files,ofile,living,waiting,_⟩ := ufalloc_sound sound found
    cases scan : freeFile middle with
    | none =>
      refine .inl ⟨middle,23,by dsimp only; rw [scan],kept,⟨ofile,files,waiting⟩,.inr ?_⟩
      rw [← files]
      exact freeFile_none scan
    | some fp =>
      have free := freeFile_free scan
      obtain ⟨ex,sh⟩ := kept.unlocked free
      refine .inr ⟨{(middle.setOfile p fd (some fp)).setFile fp {middle.files fp with count := 1,data := none} with
        lastf := fp.val + 1},fd,fp,by dsimp only; rw [scan],⟨empty,by rw [← files]; exact free,?_,?_,living,waiting⟩,?_⟩
      · exact congrArg (fun table => update table (p,fd) (some fp)) ofile
      · rw [← files]
        rfl
      have changed : Sound (insert fp fresh)
        ((middle.setOfile p fd (some fp)).setFile fp {middle.files fp with count := 1,data := none}) := by
        refine kept.change (.inl (by rw [ofile]; exact empty)) (.inr rfl) ?_ (fun _ => ⟨low,by rw [living]; exact alive⟩)
          (by rw [waiting]; exact awake) (fun g ne => ?_) (fun new => absurd (Set.mem_insert _ _) new) (.inl ?_) ?_
        · rw [ofile,empty,weight_none,weight_self,free]
        · rw [Set.mem_insert_iff]
          exact ⟨fun either => either.resolve_left ne,.inr⟩
        · intro q w waits same
          exact kept.awaited waits (same ▸ free)
        refine kept.locks.refile ?_ ?_ ?_
        · rw [ex]
          split_ifs <;> rfl
        · rw [sh]
          split_ifs <;> rfl
        · intro held
          exact absurd free (kept.locks.holder fp held).2.2
      exact changed.congr rfl rfl rfl rfl rfl rfl

end Retrobsd.FileTable
