import Retrobsd.InodeOwners

/-! The numbers in `fs_inode` and the scans of the inode area that look for more. A scan
that has the inode list to itself stays inside the array and fails only if all is in use. -/
namespace Retrobsd.InodeAllocation
open Lib.Run List

def Pc.scans : Pc → Prop
  | .scanning _ _ _ _ => True
  | .enospc _ _ => True
  | _ => False

def Pc.Ranged (fs : Fs) : Pc → Prop
  | .waiting ino caller => ino < fs.inoEnd ∧ (caller = .ialloc → rootino < ino)
  | .reading ino caller => ino < fs.inoEnd ∧ (caller = .ialloc → rootino < ino)
  | .truncating ino _ => ino < fs.inoEnd
  | .returned ino => ino < fs.inoEnd ∧ rootino < ino
  | .scanning first ino adr seen =>
    0 < adr ∧ adr < fs.isize ∧ ino = inopb * (adr - 1) + 1 ∧ (first = false → seen.map Prod.fst = List.range' 1 (ino - 1))
  | .enospc _ seen => seen.map Prod.fst = List.range' 1 (fs.inoEnd - 1)
  | _ => True

variable {ino adr : Nat} {seen : List (Nat × Bool)} {first full : Bool}

section
variable {ι : Type}

structure Ranged (s : State ι) : Prop where
  isize : 1 < s.fs.isize
  inode : ∀ n ∈ s.fs.inode, n < s.fs.inoEnd
  lasti : ∃ k, s.fs.lasti = inopb * k + 1 ∧ k + 1 < s.fs.isize
  table : ∀ n, s.table n ≠ none → n < s.fs.inoEnd
  pcs : ∀ p, (s.pc p).Ranged s.fs

structure Sole (s : State ι) : Prop where
  few : s.fs.inode.length ≤ nicinod
  locked : ∀ p first ino adr seen, s.pc p = .scanning first ino adr seen → s.fs.ilock ≠ 0
  alone : ∀ p q, (∃ first ino adr seen, s.pc p = .scanning first ino adr seen) →
    (∃ first ino adr seen, s.pc q = .scanning first ino adr seen) → p = q
  room : ∀ p first ino adr seen, s.pc p = .scanning first ino adr seen →
    s.fs.inode.length < nicinod ∧ (s.fs.inode = [] → ∀ looked ∈ seen, looked.2 = false)
  nothing : ∀ p emsg seen, s.pc p = .enospc emsg seen → ∀ looked ∈ seen, looked.2 = false

structure Calm (s t : State ι) : Prop where
  isize : t.fs.isize = s.fs.isize
  ilock : t.fs.ilock = s.fs.ilock
  lasti : t.fs.lasti = s.fs.lasti
  inode : t.fs.inode <:+ s.fs.inode
  table : ∀ n, t.table n ≠ none → s.table n ≠ none ∨ n < s.fs.inoEnd
  pcs : ∀ q, t.pc q = s.pc q ∨ ¬ (t.pc q).scans ∧ (t.pc q).Ranged s.fs

theorem inoEnd_congr {fs gs : Fs} (same : fs.isize = gs.isize) : fs.inoEnd = gs.inoEnd := by
  rw [Fs.inoEnd,Fs.inoEnd,same]

variable {pc : Pc} {s t : State ι} {inobas : Nat} {p : ι} {op : Op ι}

theorem Pc.Ranged.congr {gs : Fs} (same : fs.isize = gs.isize) (ranged : pc.Ranged fs) : pc.Ranged gs := by
  have ends := inoEnd_congr same
  cases pc <;> simp only [Pc.Ranged,← ends,← same] at * <;> exact ranged

theorem Calm.refl (s : State ι) : Calm s s := ⟨rfl,rfl,rfl,suffix_rfl,fun _ some => .inl some,fun _ => .inl rfl⟩

theorem Calm.trans {u : State ι} (first : Calm s t) (second : Calm t u) : Calm s u := by
  refine ⟨second.isize.trans first.isize,second.ilock.trans first.ilock,second.lasti.trans first.lasti,
    second.inode.trans first.inode,?_,?_⟩
  · intro n some
    rcases second.table n some with was | inside
    · exact first.table n was
    · exact .inr (inoEnd_congr first.isize ▸ inside)
  intro q
  rcases second.pcs q with same | ⟨still,ranged⟩
  · rw [same]
    exact first.pcs q
  · exact .inr ⟨still,ranged.congr first.isize⟩

theorem Calm.ranged (calm : Calm s t) (ranged : Ranged s) : Ranged t := by
  have ends := inoEnd_congr calm.isize
  refine ⟨?_,?_,?_,?_,?_⟩
  · rw [calm.isize]
    exact ranged.isize
  · intro n member
    rw [ends]
    exact ranged.inode n (calm.inode.subset member)
  · rw [calm.lasti,calm.isize]
    exact ranged.lasti
  · intro n some
    rw [ends]
    rcases calm.table n some with was | inside
    · exact ranged.table n was
    · exact inside
  · intro q
    rcases calm.pcs q with same | ⟨-,now⟩
    · rw [same]
      exact (ranged.pcs q).congr calm.isize.symm
    · exact now.congr calm.isize.symm

theorem Calm.sole (calm : Calm s t) (sole : Sole s) (taken : t.fs.inode = s.fs.inode ∨ s.fs.ilock = 0) : Sole t := by
  have before : ∀ p first ino adr seen, t.pc p = .scanning first ino adr seen → s.pc p = .scanning first ino adr seen := by
    intro p first ino adr seen here
    rcases calm.pcs p with same | ⟨still,-⟩
    · rw [← same,here]
    rw [here] at still
    exact absurd trivial still
  refine ⟨calm.inode.length_le.trans sole.few,?_,?_,?_,?_⟩
  · intro p first ino adr seen here
    rw [calm.ilock]
    exact sole.locked p first ino adr seen (before p first ino adr seen here)
  · rintro p q ⟨f,i,a,e,here⟩ ⟨g,j,b,h,there⟩
    exact sole.alone p q ⟨f,i,a,e,before _ _ _ _ _ here⟩ ⟨g,j,b,h,before _ _ _ _ _ there⟩
  · intro p first ino adr seen here
    have was := before p first ino adr seen here
    rcases taken with same | unlocked
    · rw [same]
      exact sole.room p first ino adr seen was
    · exact absurd unlocked (sole.locked p first ino adr seen was)
  · intro p emsg seen here
    rcases calm.pcs p with same | ⟨still,-⟩
    · exact sole.nothing p emsg seen (by rw [← same,here])
    rw [here] at still
    exact absurd trivial still

theorem calm_keep (s : State ι) (inside : ino < s.fs.inoEnd) (ip : Inode ι) : Calm s (s.keep ino ip) := by
  refine ⟨rfl,rfl,rfl,suffix_rfl,?_,fun _ => .inl rfl⟩
  intro n some
  by_cases it : n = ino
  · exact .inr (it ▸ inside)
  · exact .inl (by simpa [State.keep,it] using some)

theorem calm_disown (s : State ι) (ino : Nat) :
    Calm s (s.disown ino) := ⟨rfl,rfl,rfl,suffix_rfl,fun _ some => .inl some,fun _ => .inl rfl⟩

theorem calm_settle (s : State ι) (inside : ino < s.fs.inoEnd) (ip : Inode ι) : Calm s (settle s ino ip) := by
  rw [settle]
  split_ifs
  · exact (calm_keep s inside _).trans (calm_disown _ ino)
  · exact calm_keep s inside _

theorem calm_releNow (s : State ι) (inside : ino < s.fs.inoEnd) (ip : Inode ι) : Calm s (releNow s ino ip) := by
  rw [releNow]
  split_ifs
  · exact calm_settle s inside ip
  · exact calm_keep s inside _

theorem calm_iupdat (s : State ι) (inside : ino < s.fs.inoEnd) (ip : Inode ι) : Calm s (iupdat s ino ip) := by
  rw [iupdat]
  split_ifs
  · have kept := calm_keep s inside {ip with dirty := false}
    exact ⟨rfl,rfl,rfl,suffix_rfl,kept.table,kept.pcs⟩
  · exact Calm.refl s

@[simp] theorem settle_fs (s : State ι) (ino : Nat) (ip : Inode ι) : (settle s ino ip).fs = s.fs := by
  rw [settle]
  split_ifs <;> rfl

@[simp] theorem releNow_fs (s : State ι) (ino : Nat) (ip : Inode ι) : (releNow s ino ip).fs = s.fs := by
  rw [releNow]
  split_ifs
  · exact settle_fs s ino ip
  · rfl

@[simp] theorem iupdat_fs (s : State ι) (ino : Nat) (ip : Inode ι) : (iupdat s ino ip).fs = s.fs := by
  rw [iupdat]
  split_ifs <;> rfl

theorem Ranged.fs (ranged : Ranged s) {fs : Fs} (isize : fs.isize = s.fs.isize) (inode : ∀ n ∈ fs.inode, n < s.fs.inoEnd)
    (lasti : ∃ k, fs.lasti = inopb * k + 1 ∧ k + 1 < s.fs.isize) : Ranged {s with fs} := by
  have ends : fs.inoEnd = s.fs.inoEnd := inoEnd_congr isize
  refine ⟨isize ▸ ranged.isize,?_,?_,?_,fun q => (ranged.pcs q).congr isize.symm⟩
  · change ∀ n ∈ fs.inode, n < fs.inoEnd
    rwa [ends]
  · change ∃ k, fs.lasti = _ ∧ _ < fs.isize
    rwa [isize]
  · change ∀ n, s.table n ≠ none → n < fs.inoEnd
    rw [ends]
    exact ranged.table

def Unscanned (s : State ι) : Prop := ∀ q first ino adr seen, s.pc q ≠ .scanning first ino adr seen

theorem Sole.fs (sole : Sole s) (free : Unscanned s) {fs : Fs} (few : fs.inode.length ≤ nicinod) : Sole {s with fs} := by
  refine ⟨few,?_,?_,?_,sole.nothing⟩
  · exact fun q first ino adr seen here => absurd here (free q first ino adr seen)
  · rintro q r ⟨f,i,a,e,here⟩ -
    exact absurd here (free q f i a e)
  · exact fun q first ino adr seen here => absurd here (free q first ino adr seen)

theorem Sole.unscanned (sole : Sole s) (unlocked : s.fs.ilock = 0) : Unscanned s :=
  fun q first ino adr seen here => absurd unlocked (sole.locked q first ino adr seen here)

theorem scanBlock_inside (s : State ι) (adr left ino : Nat) {inode : List Nat} (seen : List (Nat × Bool))
    (room : inode.length < nicinod) :
    ∃ result, scanBlock s adr left ino inode seen = .ok result := by
  induction left generalizing ino inode seen with
  | zero => exact ⟨_,rfl⟩
  | succ left ih =>
    rw [scanBlock]
    split_ifs with free full last
    · omega
    · exact ⟨_,rfl⟩
    · exact ih _ _ (by omega)
    · exact ih _ _ room

theorem block_base (here : (Pc.scanning first ino adr seen).Ranged s.fs) : ∃ k, ino = inopb * k + 1 ∧ k + 1 < s.fs.isize := by
  obtain ⟨low,high,start,-⟩ := here
  exact ⟨adr - 1,start,by omega⟩

/-- The file system after `mount`, with what its super block had on the disk. Each inode that
is in use has an owner. -/
def mounted (fs : Fs) (disk : Nat × Nat → Dinode) : State ι where
  fs := {fs with ilock := 0,nbehind := 0,lasti := 1}
  disk
  table := fun _ => none
  pc := fun _ => .idle
  owners := fun ino => if (disk (place ino)).mode = 0 then 0 else 1

theorem mounted_tidy (fs : Fs) (disk : Nat × Nat → Dinode) : Tidy (mounted fs disk : State ι) := by
  refine ⟨?_,?_,?_⟩
  · intro p ino busy
    cases busy
  · intro ino
    apply sound_absent rfl
    intro owned free
    exact owned (if_pos free)
  intro ino
  rw [mounted]
  dsimp only
  split_ifs
  · exact Nat.zero_le 1
  · exact Nat.le_refl 1

theorem mounted_ranged (isize : 1 < fs.isize) (inode : ∀ n ∈ fs.inode, n < fs.inoEnd) (disk : Nat × Nat → Dinode) :
    Ranged (mounted fs disk : State ι) :=
  ⟨isize,inode,⟨0,rfl,isize⟩,fun _ some => absurd rfl some,fun _ => trivial⟩

theorem mounted_sole (few : fs.inode.length ≤ nicinod) (disk : Nat × Nat → Dinode) : Sole (mounted fs disk : State ι) := by
  refine ⟨few,?_,?_,?_,?_⟩
  · intro p first ino adr seen here
    cases here
  · rintro p q ⟨first,ino,adr,seen,here⟩
    cases here
  · intro p first ino adr seen here
    cases here
  · intro p emsg seen here
    cases here

variable [DecidableEq ι]

theorem calm_at (s : State ι) (p : ι) (still : ¬ pc.scans) (ranged : pc.Ranged s.fs) : Calm s (s.at p pc) := by
  refine ⟨rfl,rfl,rfl,suffix_rfl,fun _ some => .inl some,?_⟩
  intro q
  by_cases me : q = p
  · subst me
    exact .inr (by simpa using ⟨still,ranged⟩)
  · exact .inl (at_other s pc me)

theorem calm_idle (s : State ι) (p : ι) : Calm s (s.at p .idle) := calm_at s p id trivial

theorem calm_releAsleep (s : State ι) (p : ι) (inside : ino < s.fs.inoEnd) (ip : Inode ι) (caller : Caller) :
    Calm s (releAsleep s p ino ip caller) := by
  rw [releAsleep]
  apply (calm_keep s inside _).trans (calm_at _ p _ _)
  · split_ifs <;> exact id
  split_ifs
  · exact inside
  · trivial

theorem calm_irele (s : State ι) (p : ι) (inside : ino < s.fs.inoEnd) (ip : Inode ι) : Calm s (irele s p ino ip) := by
  rw [irele]
  split_ifs
  · exact calm_releAsleep s p inside ip .other
  · exact calm_releNow s inside ip

theorem irele_fs (s : State ι) (p : ι) (ino : Nat) (ip : Inode ι) : (irele s p ino ip).fs = s.fs := by
  rw [irele]
  split_ifs
  · rfl
  · exact releNow_fs s ino ip

theorem calm_handOut (s : State ι) (p : ι) (inside : ino < s.fs.inoEnd) (high : rootino < ino) (ip : Inode ι) :
    Calm s (handOut s p ino ip) := by
  have kept := calm_keep s inside {ip with node := {ip.node with addr := replicate naddr 0,flags := 0}}
  have moved : Calm s (s.at p (.returned ino)) := calm_at s p id ⟨inside,high⟩
  exact ⟨rfl,rfl,rfl,suffix_rfl,kept.table,moved.pcs⟩

def Got.Calm (s : State ι) : Got ι → Prop
  | .full => True
  | .asleep t => InodeAllocation.Calm s t ∧ t.fs = s.fs
  | .locked t _ => InodeAllocation.Calm s t ∧ t.fs = s.fs

theorem calm_iget (s : State ι) (p : ι) {caller : Caller} (inside : ino < s.fs.inoEnd)
    (high : caller = .ialloc → rootino < ino) (full : Bool) : (iget s p ino caller full).Calm s := by
  rw [iget]
  cases s.table ino with
  | none =>
    cases full with
    | true => trivial
    | false => exact ⟨(calm_keep s inside _).trans (calm_at _ p id ⟨inside,high⟩),rfl⟩
  | some ip =>
    dsimp only
    split_ifs
    · exact ⟨calm_at s p id ⟨inside,high⟩,rfl⟩
    · exact ⟨calm_at s p id trivial,rfl⟩
    · exact ⟨calm_keep s inside _,rfl⟩

theorem loop_calm (p : ι) (full : Bool) (inode : List Nat) (same : s.fs.inode = inode) (ranged : ∀ n ∈ inode, n < s.fs.inoEnd) :
    ∃ u, Calm s u ∧ (loop p full inode s = u ∨ u.fs.inode = [] ∧ loop p full inode s = startScan u p) := by
  induction inode generalizing s with
  | nil =>
    refine ⟨{s with fs := {s.fs with inode := []}},⟨rfl,rfl,rfl,nil_suffix,?_,?_⟩,.inr ⟨rfl,rfl⟩⟩
    · exact fun _ some => .inl some
    · exact fun _ => .inl rfl
  | cons ino rest ih =>
    have popped : Calm s {s with fs := {s.fs with inode := rest}} :=
      ⟨rfl,rfl,rfl,same ▸ suffix_cons ino rest,fun _ some => .inl some,fun _ => .inl rfl⟩
    have inside : ino < s.fs.inoEnd := ranged ino mem_cons_self
    have later : ∀ n ∈ rest, n < s.fs.inoEnd := fun n member => ranged n (mem_cons_of_mem _ member)
    rw [loop]
    dsimp only
    split_ifs with low
    · obtain ⟨u,calm,ends⟩ := ih (s := {s with fs := {s.fs with inode := rest}}) rfl later
      exact ⟨u,popped.trans calm,ends⟩
    have high : rootino < ino := by omega
    have got : (iget {s with fs := {s.fs with inode := rest}} p ino .ialloc full).Calm
      {s with fs := {s.fs with inode := rest}} :=
      calm_iget {s with fs := {s.fs with inode := rest}} p inside (fun _ => high) full
    split
    · have failed := calm_at {s with fs := {s.fs with inode := rest}} p (show ¬ Pc.enfile.scans from id) trivial
      exact ⟨_,popped.trans failed,.inl rfl⟩
    · next asleep =>
      rw [asleep] at got
      exact ⟨_,popped.trans got.1,.inl rfl⟩
    next now ip locked =>
    rw [locked] at got
    obtain ⟨calm,fs⟩ := got
    have here : ino < now.fs.inoEnd := fs ▸ inside
    split_ifs
    · exact ⟨_,(popped.trans calm).trans (calm_handOut now p here high ip),.inl rfl⟩
    · exact ⟨_,(popped.trans calm).trans (calm_releAsleep now p here ip .ialloc),.inl rfl⟩
    have fs : (releNow now ino {ip with lock := none}).fs = {s.fs with inode := rest} := (releNow_fs _ _ _).trans fs
    obtain ⟨u,onward,ends⟩ := ih (congrArg Fs.inode fs) (fun n member => fs ▸ later n member)
    exact ⟨u,((popped.trans calm).trans (calm_releNow now here _)).trans onward,ends⟩

theorem Ranged.at (ranged : Ranged s) (p : ι) (here : pc.Ranged s.fs) : Ranged (s.at p pc) := by
  refine ⟨ranged.isize,ranged.inode,ranged.lasti,ranged.table,?_⟩
  intro q
  by_cases me : q = p
  · subst me
    rwa [at_pc]
  rw [at_other s pc me]
  exact ranged.pcs q

theorem startScan_ranged (ranged : Ranged s) (p : ι) : Ranged (startScan s p) := by
  obtain ⟨k,lasti,last⟩ := ranged.lasti
  have top : itod s.fs.lasti = k + 1 := by
    rw [itod,lasti,inopb]
    omega
  rcases startScan_cases s p with ⟨inside,begun⟩ | ⟨-,begun⟩ | ⟨none,-⟩
  · rw [begun]
    apply Ranged.at
    · apply ranged.fs
      · rfl
      · exact ranged.inode
      · exact ranged.lasti
    refine ⟨?_,inside,?_,fun never => by cases never⟩
    · omega
    rw [top,lasti]
    rfl
  · rw [begun]
    apply Ranged.at
    · apply ranged.fs
      · rfl
      · exact ranged.inode
      · exact ranged.lasti
    · exact ⟨Nat.one_pos,ranged.isize,rfl,fun _ => rfl⟩
  · exact absurd ranged.isize (by omega)

theorem Sole.scan (sole : Sole s) (free : Unscanned s) (p : ι) (first : Bool) (ino adr : Nat)
    (locked : s.fs.ilock ≠ 0) (room : s.fs.inode.length < nicinod) (found : s.fs.inode = [] → ∀ looked ∈ seen,
    looked.2 = false) :
    Sole (s.at p (.scanning first ino adr seen)) := by
  have mine : ∀ q f i a e, (s.at p (.scanning first ino adr seen)).pc q = .scanning f i a e → q = p ∧ e = seen := by
    intro q f i a e here
    by_cases me : q = p
    · subst me
      rw [at_pc] at here
      cases here
      exact ⟨rfl,rfl⟩
    · rw [at_other _ _ me] at here
      exact absurd here (free q f i a e)
  refine ⟨sole.few,fun _ _ _ _ _ _ => locked,?_,?_,?_⟩
  · rintro q r ⟨f,i,a,e,here⟩ ⟨g,j,b,h,there⟩
    exact (mine _ _ _ _ _ here).1.trans (mine _ _ _ _ _ there).1.symm
  · intro q f i a e here
    obtain ⟨-,rfl⟩ := mine _ _ _ _ _ here
    exact ⟨room,found⟩
  intro q emsg seen here
  by_cases me : q = p
  · subst me
    rw [at_pc] at here
    cases here
  · rw [at_other _ _ me] at here
    exact sole.nothing q emsg seen here

theorem startScan_sole (ranged : Ranged s) (sole : Sole s) (unlocked : s.fs.ilock = 0) (empty : s.fs.inode = []) (p : ι) :
    Sole (startScan s p) := by
  have free := sole.unscanned unlocked
  have room : s.fs.inode.length < nicinod := by
    rw [empty]
    decide
  have unseen : s.fs.inode = [] → ∀ looked ∈ ([] : List (Nat × Bool)), looked.2 = false := by
    intro _ looked member
    cases member
  rcases startScan_cases s p with ⟨-,begun⟩ | ⟨-,begun⟩ | ⟨none,-⟩
  · rw [begun]
    apply Sole.scan
    · exact sole.fs free sole.few
    · exact free
    · exact Nat.succ_ne_zero _
    · exact room
    · exact unseen
  · rw [begun]
    apply Sole.scan
    · exact sole.fs free sole.few
    · exact free
    · exact Nat.succ_ne_zero _
    · exact room
    · exact unseen
  · exact absurd ranged.isize (by omega)

theorem loop_ranged (ranged : Ranged s) (p : ι) (full : Bool) : Ranged (loop p full s.fs.inode s) := by
  obtain ⟨u,calm,ends⟩ := loop_calm p full s.fs.inode rfl ranged.inode
  rcases ends with ends | ⟨-,ends⟩
  · rw [ends]
    exact calm.ranged ranged
  rw [ends]
  exact startScan_ranged (calm.ranged ranged) p

theorem loop_sole (ranged : Ranged s) (sole : Sole s) (unlocked : s.fs.ilock = 0) (p : ι) (full : Bool) :
    Sole (loop p full s.fs.inode s) := by
  obtain ⟨u,calm,ends⟩ := loop_calm p full s.fs.inode rfl ranged.inode
  have kept := calm.sole sole (.inr unlocked)
  rcases ends with ends | ⟨empty,ends⟩
  · rwa [ends]
  rw [ends]
  exact startScan_sole (calm.ranged ranged) kept (calm.ilock.trans unlocked) empty p

structure Found (left ino : Nat) (inode : List Nat) (seen : List (Nat × Bool)) (inode' : List Nat)
    (seen' : List (Nat × Bool)) : Prop where
  inside : ∀ n ∈ inode', n ∈ inode ∨ n < ino + left
  few : inode.length < nicinod → inode'.length ≤ nicinod
  all : inode'.length < nicinod → seen'.map Prod.fst = seen.map Prod.fst ++ List.range' ino left
  none : inode' = [] → inode = [] ∧ ((∀ looked ∈ seen, looked.2 = false) → ∀ looked ∈ seen', looked.2 = false)

variable {inode' : List Nat} {seen' : List (Nat × Bool)}

omit [DecidableEq ι] in
theorem scanBlock_found (s : State ι) (adr left ino : Nat) (inode : List Nat) (seen : List (Nat × Bool))
    (ok : scanBlock s adr left ino inode seen = .ok (inode',seen')) : Found left ino inode seen inode' seen' := by
  induction left generalizing ino inode seen with
  | zero =>
    cases ok
    exact ⟨fun n member => .inl member,Nat.le_of_lt,fun _ => by simp,fun empty => ⟨empty,id⟩⟩
  | succ left ih =>
    rw [scanBlock] at ok
    split_ifs at ok with free full last
    · cases ok
      refine ⟨?_,?_,?_,?_⟩
      · intro n member
        rcases mem_cons.mp member with rfl | old
        · exact .inr (by omega)
        · exact .inl old
      · exact fun room => room
      · exact fun room => absurd last (by omega)
      · exact fun empty => by cases empty
    · have found := ih _ _ _ ok
      refine ⟨?_,?_,?_,?_⟩
      · intro n member
        rcases found.inside n member with old | new
        · rcases mem_cons.mp old with rfl | older
          · exact .inr (by omega)
          · exact .inl older
        · exact .inr (by omega)
      · exact fun _ => found.few (by omega)
      · intro room
        rw [found.all room,range'_succ]
        simp
      · intro empty
        have impossible := (found.none empty).1
        cases impossible
    · have found := ih _ _ _ ok
      refine ⟨?_,found.few,?_,?_⟩
      · intro n member
        rcases found.inside n member with old | new
        · exact .inl old
        · exact .inr (by omega)
      · intro room
        rw [found.all room,range'_succ]
        simp
      intro empty
      obtain ⟨was,still⟩ := found.none empty
      refine ⟨was,fun unfound => still ?_⟩
      intro looked member
      rcases mem_append.mp member with old | new
      · exact unfound looked old
      rw [mem_singleton.mp new]
      exact Bool.eq_false_iff.mpr free

theorem finish_ranged (ranged : Ranged s) (p : ι) (full : Bool) (base : ∃ k, inobas = inopb * k + 1 ∧ k + 1 < s.fs.isize)
    (all : s.fs.inode = [] → seen.map Prod.fst = range' 1 (s.fs.inoEnd - 1)) : Ranged (finish s p full inobas seen) := by
  have unlocked : Ranged (s.unlockScan inobas) := ranged.fs rfl ranged.inode base
  rw [finish]
  split_ifs with some
  · exact loop_ranged unlocked p full
  have empty : s.fs.inode = [] := by simpa [State.unlockScan] using some
  exact unlocked.at p (all empty)

theorem finish_sole (ranged : Ranged s) (sole : Sole s) (free : Unscanned s) (p : ι) (full : Bool)
    (base : ∃ k, inobas = inopb * k + 1 ∧ k + 1 < s.fs.isize)
    (none : s.fs.inode = [] → ∀ looked ∈ seen, looked.2 = false) : Sole (finish s p full inobas seen) := by
  have unlocked : Ranged (s.unlockScan inobas) := ranged.fs rfl ranged.inode base
  have kept : Sole (s.unlockScan inobas) := sole.fs free sole.few
  rw [finish]
  split_ifs with some
  · exact loop_sole unlocked kept rfl p full
  have empty : s.fs.inode = [] := by simpa [State.unlockScan] using some
  have mine : ∀ q pc, ((s.unlockScan inobas).at p (.enospc emsg seen)).pc q = pc → pc = .enospc emsg seen ∨ s.pc q = pc := by
    rintro q pc rfl
    by_cases me : q = p
    · subst me
      exact .inl (at_pc _ _ _)
    · exact .inr (at_other _ _ me).symm
  have scanless : Unscanned ((s.unlockScan inobas).at p (.enospc emsg seen)) := by
    intro q f i a e here
    rcases mine q _ here with same | was
    · cases same
    · exact free q f i a e was
  refine ⟨kept.few,?_,?_,?_,?_⟩
  · exact fun q f i a e here => absurd here (scanless q f i a e)
  · rintro q r ⟨f,i,a,e,here⟩ -
    exact absurd here (scanless q f i a e)
  · exact fun q f i a e here => absurd here (scanless q f i a e)
  intro q message looks here
  rcases mine q _ here with same | was
  · cases same
    exact none empty
  · exact sole.nothing q message looks was

theorem endPass_cases (ranged : Ranged s) (p : ι) (full first : Bool) (inobas : Nat) (seen : List (Nat × Bool)) :
    (s.fs.inode.length < nicinod ∧ endPass s p full first inobas seen = {s with fs := {s.fs with nbehind := 0}}.at p
    (.scanning false 1 1 [])) ∨
    ((s.fs.inode.length < nicinod → first = false) ∧ endPass s p full first inobas seen = finish s p full inobas seen) := by
  rw [endPass]
  split_ifs with again
  · refine .inl ⟨again.1,?_⟩
    simp [fromtop,nextBlock,ranged.isize]
  · exact .inr ⟨fun room => by simpa [room] using again,rfl⟩

def Whole (fs : Fs) (first : Bool) (seen : List (Nat × Bool)) : Prop :=
  first = false → fs.inode.length < nicinod → seen.map Prod.fst = List.range' 1 (fs.inoEnd - 1)

theorem endPass_ranged (ranged : Ranged s) (p : ι) (full : Bool)
    (base : ∃ k, inobas = inopb * k + 1 ∧ k + 1 < s.fs.isize) (whole : Whole s.fs first seen) :
    Ranged (endPass s p full first inobas seen) := by
  rcases endPass_cases ranged p full first inobas seen with ⟨-,ends⟩ | ⟨second,ends⟩
  · rw [ends]
    apply Ranged.at
    · exact ranged.fs rfl ranged.inode ranged.lasti
    · exact ⟨Nat.one_pos,ranged.isize,rfl,fun _ => rfl⟩
  rw [ends]
  apply finish_ranged ranged p full base
  intro empty
  have room : s.fs.inode.length < nicinod := by
    rw [empty]
    decide
  exact whole (second room) room

theorem endPass_sole (ranged : Ranged s) (sole : Sole s) (free : Unscanned s) (locked : s.fs.ilock ≠ 0) (p : ι)
    (full first : Bool) (base : ∃ k, inobas = inopb * k + 1 ∧ k + 1 < s.fs.isize)
    (none : s.fs.inode = [] → ∀ looked ∈ seen, looked.2 = false) : Sole (endPass s p full first inobas seen) := by
  rcases endPass_cases ranged p full first inobas seen with ⟨room,ends⟩ | ⟨-,ends⟩
  · rw [ends]
    apply Sole.scan
    · exact sole.fs free sole.few
    · exact free
    · exact locked
    · exact room
    · intro _ looked member
      cases member
  · rw [ends]
    exact finish_sole ranged sole free p full base none

theorem range_block (adr : Nat) : range' 1 (inopb * adr) ++ range' (inopb * adr + 1) inopb = range' 1 (inopb * (adr + 1)) := by
  rw [Nat.mul_succ,← range'_append_1,Nat.add_comm 1]

theorem scanned_cases (ok : scanned s p full first ino adr seen = .ok t) :
    ∃ inode' seen', Found inopb ino s.fs.inode seen inode' seen' ∧
      (inode'.length < nicinod ∧ adr + 1 < s.fs.isize ∧
          t = {s with fs := {s.fs with inode := inode'}}.at p (.scanning first (ino + inopb) (adr + 1) seen') ∨
        (inode'.length < nicinod → s.fs.isize ≤ adr + 1) ∧
        t = endPass {s with fs := {s.fs with inode := inode'}} p full first ino seen') := by
  rw [scanned] at ok
  split at ok
  · cases ok
  next inode' seen' looked =>
  cases ok
  refine ⟨inode',seen',scanBlock_found s adr inopb ino _ _ looked,?_⟩
  rw [nextBlock]
  split_ifs with full more
  · exact .inr ⟨fun room => absurd full (by omega),rfl⟩
  · exact .inl ⟨by omega,more,rfl⟩
  · exact .inr ⟨fun _ => Nat.le_of_not_lt more,rfl⟩

section
variable {s : State ι} {p : ι}

omit [DecidableEq ι] in
theorem found_ranged (ranged : Ranged s) (here : (Pc.scanning first ino adr seen).Ranged s.fs)
    (found : Found inopb ino s.fs.inode seen inode' seen') :
    Ranged {s with fs := {s.fs with inode := inode'}} := by
  obtain ⟨low,high,rfl,-⟩ := here
  refine ranged.fs rfl ?_ ranged.lasti
  intro n member
  rcases found.inside n member with old | new
  · exact ranged.inode n old
  rw [inopb] at new
  rw [Fs.inoEnd,inopb]
  omega

omit [DecidableEq ι] in
theorem seen_block (here : (Pc.scanning first ino adr seen).Ranged s.fs)
    (found : Found inopb ino s.fs.inode seen inode' seen') (second : first = false) (room : inode'.length < nicinod) :
    seen'.map Prod.fst = range' 1 (inopb * adr) := by
  obtain ⟨low,-,rfl,before⟩ := here
  obtain ⟨a,rfl⟩ := Nat.exists_eq_succ_of_ne_zero (Nat.pos_iff_ne_zero.mp low)
  rw [found.all room,before second]
  exact range_block a

theorem scanned_ranged (ranged : Ranged s) (here : (Pc.scanning first ino adr seen).Ranged s.fs)
    (ok : scanned s p full first ino adr seen = .ok t) : Ranged t := by
  obtain ⟨inode',seen',found,ends⟩ := scanned_cases ok
  have now := found_ranged ranged here found
  have sums : ino + inopb = inopb * adr + 1 := by
    obtain ⟨low,-,rfl,-⟩ := here
    rw [inopb]
    omega
  rcases ends with ⟨room,more,rfl⟩ | ⟨finished,rfl⟩
  · apply now.at
    refine ⟨Nat.succ_pos _,more,sums,fun second => ?_⟩
    rw [seen_block here found second room,sums]
    rfl
  apply endPass_ranged now p full (block_base here)
  intro second room
  have isize : s.fs.isize = adr + 1 := by
    have := here.2.1
    have := finished room
    omega
  rw [seen_block here found second room]
  simp [Fs.inoEnd,isize]

theorem scanned_sole (ranged : Ranged s) (here : (Pc.scanning first ino adr seen).Ranged s.fs) (sole : Sole s)
    (free : Unscanned s)
    (locked : s.fs.ilock ≠ 0) (room : s.fs.inode.length < nicinod) (none : s.fs.inode = [] → ∀ looked ∈ seen, looked.2 = false) :
    ∃ t, scanned s p full first ino adr seen = .ok t ∧ Sole t := by
  have inside : ∃ t, scanned s p full first ino adr seen = .ok t := by
    obtain ⟨⟨inode',seen'⟩,looked⟩ := scanBlock_inside s adr inopb ino seen room
    rw [scanned,looked]
    exact ⟨_,rfl⟩
  obtain ⟨t,ok⟩ := inside
  refine ⟨t,ok,?_⟩
  obtain ⟨inode',seen',found,ends⟩ := scanned_cases ok
  have now := found_ranged ranged here found
  have kept : Sole {s with fs := {s.fs with inode := inode'}} := sole.fs free (found.few room)
  have unfound : inode' = [] → ∀ looked ∈ seen', looked.2 = false := by
    intro empty
    obtain ⟨was,still⟩ := found.none empty
    exact still (none was)
  rcases ends with ⟨left,-,rfl⟩ | ⟨-,rfl⟩
  · exact kept.scan free p first _ _ locked left unfound
  · exact endPass_sole now kept free locked p full first (block_base here) unfound

end

/-- Whether a process that goes on comes back to `loop` in `ialloc`, from a number that was
in use after all. -/
def back (s : State ι) (p : ι) (full : Bool) : Bool :=
  match s.pc p with
  | .waiting ino .ialloc => match s.table ino with
    | some ip => ip.lock.isNone && !ip.mount && ip.node.mode != 0 && !sleeps s.fs.ronly {ip with count := ip.count + 1}
    | none => false
  | .reading ino .ialloc => match s.table ino with
    | some ip => (s.disk (place ino)).mode != 0 && !sleeps s.fs.ronly {ip with node := s.disk (place ino)}
    | none => false
  | .crossing .ialloc => !full
  | .updating _ .ialloc => true
  | _ => false

/-- No process comes back to `loop` while a scan is under way. -/
def Orderly (s : State ι) : Op ι → Prop
  | .resume p full => back s p full = true → s.fs.ilock = 0
  | _ => True

instance (s : State ι) (op : Op ι) : Decidable (Orderly s op) := by
  cases op <;> unfold Orderly <;> infer_instance

theorem gotten_calm (s : State ι) (p : ι) (ip : Inode ι) (full : Bool) {caller : Caller} (inside : ino < s.fs.inoEnd)
    (high : caller = .ialloc → rootino < ino) :
    (Calm s (gotten s p ino ip full caller) ∧ (gotten s p ino ip full caller).fs.inode = s.fs.inode) ∨
    (caller = .ialloc ∧ ip.node.mode ≠ 0 ∧ sleeps s.fs.ronly ip = false ∧
      ∃ u, Calm s u ∧ u.fs = s.fs ∧ gotten s p ino ip full caller = loop p full u.fs.inode u) := by
  cases caller with
  | other => exact .inl ⟨Calm.refl s,rfl⟩
  | ialloc =>
    rw [gotten,tested]
    split_ifs with free sleep
    · exact .inl ⟨calm_handOut s p inside (high rfl) ip,rfl⟩
    · exact .inl ⟨calm_releAsleep s p inside ip .ialloc,rfl⟩
    refine .inr ⟨rfl,free,by simpa using sleep,releNow s ino {ip with lock := none},calm_releNow s inside _,releNow_fs _ _ _,?_⟩
    rw [releNow_fs]

theorem resume_cases (ranged : Ranged s) (ok : resume s p full = .ok t) : (Calm s t ∧ t.fs.inode = s.fs.inode) ∨
    ((back s p full = true ∨ s.fs.ilock = 0) ∧ ∃ u, Calm s u ∧ u.fs = s.fs ∧ t = loop p full u.fs.inode u) ∨
    ∃ first ino adr seen, s.pc p = .scanning first ino adr seen ∧ scanned (s.at p .idle) p full first ino adr seen = .ok t := by
  have awake : Calm s (s.at p .idle) := calm_idle s p
  have fails : ∀ caller : Caller, Calm s (s.at p (if caller = .ialloc then .enfile else .idle)) := by
    intro caller
    split_ifs
    · exact calm_at s p id trivial
    · exact awake
  have mine := ranged.pcs p
  rw [resume] at ok
  dsimp only at ok
  split at ok
  · cases ok
    rw [ialloc]
    split_ifs with locked
    · exact .inl ⟨awake.trans (calm_at _ p id trivial),rfl⟩
    · exact .inr (.inl ⟨.inr (by simpa [State.at] using locked),_,awake,rfl,rfl⟩)
  · next ino caller here =>
    rw [here] at mine
    have got : (iget (s.at p .idle) p ino caller full).Calm (s.at p .idle) := calm_iget (s.at p .idle) p mine.1 mine.2 full
    split at ok
    · cases ok
      exact .inl ⟨fails caller,rfl⟩
    · next asleep =>
      cases ok
      rw [asleep] at got
      exact .inl ⟨awake.trans got.1,congrArg Fs.inode got.2⟩
    next now ip locked =>
    cases ok
    rw [locked] at got
    have inside : ino < now.fs.inoEnd := got.2 ▸ mine.1
    rcases gotten_calm now p ip full inside mine.2 with ⟨calm,same⟩ | ⟨rfl,used,awoken,u,calm,fs,goes⟩
    · exact .inl ⟨(awake.trans got.1).trans calm,same.trans (congrArg Fs.inode got.2)⟩
    refine .inr (.inl ⟨.inl ?_,u,(awake.trans got.1).trans calm,fs.trans got.2,goes⟩)
    rw [iget] at locked
    cases there : s.table ino with
    | none =>
      have absent : (s.at p .idle).table ino = none := there
      rw [absent] at locked
      dsimp only at locked
      split_ifs at locked
    | some old =>
      have present : (s.at p .idle).table ino = some old := there
      rw [present] at locked
      dsimp only at locked
      split_ifs at locked with busy mounted
      cases locked
      have still : sleeps s.fs.ronly {old with count := old.count + 1} = false := awoken
      have use : old.node.mode ≠ 0 := used
      have unlocked : old.lock.isNone = true := by simpa using busy
      simp only [back,here,there,still,unlocked]
      simp [use,mounted]
  · next ino caller here =>
    rw [here] at mine
    split at ok
    · cases ok
    next ip there =>
    cases ok
    have read : Calm s ((s.at p .idle).keep ino {ip with node := s.disk (place ino)}) :=
      awake.trans (calm_keep (s.at p .idle) mine.1 _)
    rcases gotten_calm ((s.at p .idle).keep ino {ip with node := s.disk (place ino)}) p {ip with node := s.disk (place ino)} full
      mine.1 mine.2 with ⟨calm,same⟩ | ⟨rfl,used,awoken,u,calm,fs,goes⟩
    · exact .inl ⟨read.trans calm,same⟩
    refine .inr (.inl ⟨.inl ?_,u,read.trans calm,fs,goes⟩)
    have still : sleeps s.fs.ronly {ip with node := s.disk (place ino)} = false := awoken
    have use : (s.disk (place ino)).mode ≠ 0 := used
    simp [back,here,there,still,use]
  · next caller here =>
    split at ok
    · cases ok
      exact .inl ⟨fails caller,rfl⟩
    next found =>
    cases ok
    cases caller with
    | other => exact .inl ⟨awake,rfl⟩
    | ialloc => exact .inr (.inl ⟨.inl (by simpa [back,here] using found),_,awake,rfl,rfl⟩)
  · next ino caller here =>
    split at ok
    · cases ok
    next ip there =>
    cases ok
    have inside : ino < s.fs.inoEnd := ranged.table ino (by simp [there])
    have wrote : Calm s (iupdat (s.at p .idle) ino ip) := awake.trans (calm_iupdat (s.at p .idle) inside ip)
    have settled : Calm s (settle (iupdat (s.at p .idle) ino ip) ino ip) := by
      apply wrote.trans (calm_settle _ _ ip)
      rw [iupdat_fs]
      exact inside
    have fs : (settle (iupdat (s.at p .idle) ino ip) ino ip).fs = s.fs := by
      rw [settle_fs,iupdat_fs]
      rfl
    cases caller with
    | other => exact .inl ⟨settled,congrArg Fs.inode fs⟩
    | ialloc => exact .inr (.inl ⟨.inl (by simp [back,here]),_,settled,fs,rfl⟩)
  · next first ino adr seen here => exact .inr (.inr ⟨first,ino,adr,seen,here,ok⟩)
  · cases ok

theorem scanning_sole (ranged : Ranged s) (sole : Sole s) (here : s.pc p = .scanning first ino adr seen) (full : Bool) :
    ∃ t, scanned (s.at p .idle) p full first ino adr seen = .ok t ∧ Sole t := by
  have mine := ranged.pcs p
  rw [here] at mine
  obtain ⟨room,none⟩ := sole.room p first ino adr seen here
  have free : Unscanned (s.at p .idle) := by
    intro q f i a e there
    by_cases me : q = p
    · subst me
      rw [at_pc] at there
      cases there
    · rw [at_other _ _ me] at there
      exact me (sole.alone q p ⟨f,i,a,e,there⟩ ⟨first,ino,adr,seen,here⟩)
  have kept := (calm_idle s p).sole sole (.inl rfl)
  exact scanned_sole ((calm_idle s p).ranged ranged) mine kept free (sole.locked p first ino adr seen here) room none

theorem resume_ranged (ranged : Ranged s) (ok : resume s p full = .ok t) : Ranged t := by
  rcases resume_cases ranged ok with ⟨calm,-⟩ | ⟨-,u,calm,-,rfl⟩ | ⟨first,ino,adr,seen,here,block⟩
  · exact calm.ranged ranged
  · exact loop_ranged (calm.ranged ranged) p full
  have mine := ranged.pcs p
  rw [here] at mine
  exact scanned_ranged ((calm_idle s p).ranged ranged) mine block

theorem resume_sole (ranged : Ranged s) (sole : Sole s)
    (orderly : back s p full = true → s.fs.ilock = 0) (ok : resume s p full = .ok t) : Sole t := by
  rcases resume_cases ranged ok with ⟨calm,same⟩ | ⟨why,u,calm,fs,rfl⟩ | ⟨first,ino,adr,seen,here,block⟩
  · exact calm.sole sole (.inl same)
  · have unlocked : s.fs.ilock = 0 := why.elim orderly id
    have kept := calm.sole sole (.inl (congrArg Fs.inode fs))
    exact loop_sole (calm.ranged ranged) kept (calm.ilock.trans unlocked) p full
  obtain ⟨next,goes,kept⟩ := scanning_sole ranged sole here full
  rw [goes] at block
  cases block
  exact kept

theorem step_calm (ranged : Ranged s) (ok : step s op = .ok t) :
    (Calm s t ∧ t.fs.inode = s.fs.inode) ∨ (∃ p full, op = .ialloc p full ∧ t = ialloc s p full) ∨
    (∃ p full, op = .resume p full) ∨
      ∃ u ino, Calm s u ∧ u.fs = s.fs ∧ ino < s.fs.inoEnd ∧ t = {u with fs := ifree s.fs ino} := by
  have inside : ∀ {ino : Nat} {ip : Inode ι}, s.table ino = some ip → ino < s.fs.inoEnd :=
    fun here => ranged.table _ (by simp [here])
  have calm_get : ∀ {p : ι} {ino : Nat} {full : Bool}, ino < s.fs.inoEnd → (iget s p ino .other full).Calm s :=
    fun below => calm_iget s _ below (fun never => by cases never) _
  cases step_done ok with
  | @ialloc p idle full => exact .inr (.inl ⟨p,full,rfl,rfl⟩)
  | @resume p full ok => exact .inr (.inr (.inl ⟨p,full,rfl⟩))
  | fill got here used => exact .inl ⟨(calm_keep s (inside here) _).trans (calm_at _ _ id trivial),rfl⟩
  | @giveUp p ino ip got here =>
    have awake : Calm s ((s.at p .idle).disown ino) := (calm_idle s p).trans (calm_disown _ ino)
    refine .inl ⟨awake.trans (calm_irele _ p ?_ _),congrArg Fs.inode (irele_fs _ p ino _)⟩
    exact inside here
  | failed got => exact .inl ⟨calm_at s _ id trivial,rfl⟩
  | @truncated p ino ip caller asleep here addr =>
    refine .inr (.inr (.inr ⟨((s.keep ino {ip with node := {ip.node with mode := 0,addr},dirty := true}).at p
      (.updating ino caller)).disown ino,ino,?_,rfl,inside here,rfl⟩))
    apply Calm.trans _ (calm_disown _ ino)
    exact (calm_keep s (inside here) _).trans (calm_at _ p id trivial)
  | full => exact .inl ⟨Calm.refl s,rfl⟩
  | @asleep p ino full t idle below asleep =>
    have got := @calm_get p ino full below
    rw [asleep] at got
    exact .inl ⟨got.1,congrArg Fs.inode got.2⟩
  | @locked p ino full t ip idle below locked =>
    have got := @calm_get p ino full below
    rw [locked] at got
    exact .inl ⟨got.1,congrArg Fs.inode got.2⟩
  | igrab here _ | refer here _ | ilock here _ => exact .inl ⟨calm_keep s (inside here) _,rfl⟩
  | iunlock found | mount found _ | change found _ => exact .inl ⟨calm_keep s (inside (held_some found).1) _,rfl⟩
  | iupdat here able => exact .inl ⟨calm_iupdat s (inside here) _,congrArg Fs.inode (iupdat_fs s _ _)⟩
  | iput found => exact .inl ⟨calm_irele s _ (inside (held_some found).1) _,congrArg Fs.inode (irele_fs s _ _ _)⟩
  | irele here able => exact .inl ⟨calm_irele s _ (inside here) _,congrArg Fs.inode (irele_fs s _ _ _)⟩
  | @recycle ino ip here unused =>
    refine .inl ⟨⟨rfl,rfl,rfl,suffix_rfl,fun n some => .inl ?_,fun _ => .inl rfl⟩,rfl⟩
    by_cases it : n = ino
    · simp [it] at some
    · simpa [it] using some

theorem ifree_cases (fs : Fs) (ino : Nat) :
    (ifree fs ino).isize = fs.isize ∧ (ifree fs ino).ilock = fs.ilock ∧ (ifree fs ino).lasti = fs.lasti ∧
    ((ifree fs ino).inode = fs.inode ∨ fs.ilock = 0 ∧ fs.inode.length < nicinod ∧ (ifree fs ino).inode = ino :: fs.inode) := by
  rw [ifree]
  dsimp only
  split_ifs with locked full behind
  · exact ⟨rfl,rfl,rfl,.inl rfl⟩
  · exact ⟨rfl,rfl,rfl,.inl rfl⟩
  · exact ⟨rfl,rfl,rfl,.inl rfl⟩
  · exact ⟨rfl,rfl,rfl,.inr ⟨by simpa using locked,by omega,rfl⟩⟩

omit [DecidableEq ι] in
theorem ifree_ranged (ranged : Ranged s) (inside : ino < s.fs.inoEnd) : Ranged {s with fs := ifree s.fs ino} := by
  obtain ⟨isize,-,lasti,added⟩ := ifree_cases s.fs ino
  refine ranged.fs isize ?_ (lasti ▸ ranged.lasti)
  rcases added with same | ⟨-,-,more⟩
  · rw [same]
    exact ranged.inode
  rw [more]
  intro n member
  rcases mem_cons.mp member with rfl | old
  · exact inside
  · exact ranged.inode n old

omit [DecidableEq ι] in
theorem ifree_sole (sole : Sole s) (ino : Nat) : Sole {s with fs := ifree s.fs ino} := by
  obtain ⟨-,ilock,-,added⟩ := ifree_cases s.fs ino
  rcases added with same | ⟨unlocked,room,more⟩
  · refine ⟨?_,?_,sole.alone,?_,sole.nothing⟩
    · exact same ▸ sole.few
    · exact ilock ▸ sole.locked
    · exact same ▸ sole.room
  · apply sole.fs (sole.unscanned unlocked)
    rw [more]
    exact room

section
variable (ranged : Ranged s)
include ranged

theorem step_ranged (ok : step s op = .ok t) : Ranged t := by
  rcases step_calm ranged ok with ⟨calm,-⟩ | ⟨p,full,-,rfl⟩ | ⟨p,full,rfl⟩ | ⟨u,ino,calm,fs,inside,rfl⟩
  · exact calm.ranged ranged
  · rw [ialloc]
    split_ifs
    · exact ranged.at p trivial
    · exact loop_ranged ranged p full
  · exact resume_ranged ranged ok
  · rw [← fs]
    exact ifree_ranged (calm.ranged ranged) (fs ▸ inside)

theorem step_sole (sole : Sole s) (orderly : Orderly s op) (ok : step s op = .ok t) : Sole t := by
  rcases step_calm ranged ok with ⟨calm,same⟩ | ⟨p,full,-,rfl⟩ | ⟨p,full,rfl⟩ | ⟨u,ino,calm,fs,inside,rfl⟩
  · exact calm.sole sole (.inl same)
  · rw [ialloc]
    split_ifs with locked
    · have asleep : Calm s (s.at p .ilock) := calm_at s p id trivial
      exact asleep.sole sole (.inl rfl)
    · exact loop_sole ranged sole (by simpa using locked) p full
  · exact resume_sole ranged sole orderly ok
  · rw [← fs]
    exact ifree_sole (calm.sole sole (.inl (congrArg Fs.inode fs))) ino

theorem step_inside (sole : Sole s) : step s op ≠ .error .pastEnd := by
  intro failed
  cases op with
  | resume p full =>
    simp only [step,resume] at failed
    repeat' split at failed
    all_goals try cases failed
    next first ino adr seen here =>
      obtain ⟨t,goes,-⟩ := scanning_sole ranged sole here full
      rw [goes] at failed
      cases failed
  | _ =>
    simp only [step] at failed
    repeat' split at failed
    all_goals cases failed

theorem loop_isize (p : ι) (full : Bool) : (loop p full s.fs.inode s).fs.isize = s.fs.isize := by
  obtain ⟨u,calm,ends⟩ := loop_calm p full s.fs.inode rfl ranged.inode
  rcases ends with ends | ⟨-,ends⟩
  · rw [ends]
    exact calm.isize
  rw [ends,← calm.isize]
  rcases startScan_cases u p with ⟨-,begun⟩ | ⟨-,begun⟩ | ⟨-,begun⟩ <;> rw [begun] <;> rfl

theorem endPass_isize (p : ι) (full first : Bool) (seen : List (Nat × Bool))
    (base : ∃ k, inobas = inopb * k + 1 ∧ k + 1 < s.fs.isize) : (endPass s p full first inobas seen).fs.isize = s.fs.isize := by
  rcases endPass_cases ranged p full first inobas seen with ⟨-,ends⟩ | ⟨-,ends⟩
  · rw [ends]
    rfl
  have unlocked : Ranged (s.unlockScan inobas) := ranged.fs rfl ranged.inode base
  rw [ends,finish]
  split_ifs
  · exact loop_isize unlocked p full
  · rfl

theorem step_isize (ok : step s op = .ok t) : t.fs.isize = s.fs.isize := by
  rcases step_calm ranged ok with ⟨calm,-⟩ | ⟨p,full,-,rfl⟩ | ⟨p,full,rfl⟩ | ⟨u,ino,calm,fs,inside,rfl⟩
  · exact calm.isize
  · rw [ialloc]
    split_ifs
    · rfl
    · exact loop_isize ranged p full
  · rcases resume_cases ranged ok with ⟨calm,-⟩ | ⟨-,u,calm,-,rfl⟩ | ⟨first,ino,adr,seen,here,block⟩
    · exact calm.isize
    · exact (loop_isize (calm.ranged ranged) p full).trans calm.isize
    have mine := ranged.pcs p
    rw [here] at mine
    obtain ⟨inode',seen',found,⟨-,-,rfl⟩ | ⟨-,rfl⟩⟩ := scanned_cases block
    · rfl
    · exact endPass_isize (found_ranged ((calm_idle s p).ranged ranged) mine found) p full first seen' (block_base mine)
  · exact (ifree_cases s.fs ino).1

end

theorem place_scanning
    (ranged : (Pc.scanning first ino adr seen).Ranged fs) {i : Nat} (inside : i < inopb) : place (ino + i) = (adr,i) := by
  obtain ⟨low,-,rfl,-⟩ := ranged
  simp only [place,itod,itoo,inopb,Prod.mk.injEq] at inside ⊢
  omega

theorem mounted_run (isize : 1 < fs.isize) (inode : ∀ n ∈ fs.inode, n < fs.inoEnd) (disk : Nat × Nat → Dinode)
    (ops : List (Op ι)) (ran : run step (mounted fs disk) ops = .ok s) : Tidy s ∧ Ranged s ∧ s.fs.isize = fs.isize := by
  have always : Along step (fun (_ : State ι) (_ : Op ι) => True) (mounted fs disk) ops := Along.of_forall _ fun _ _ => trivial
  have start : Tidy (mounted fs disk : State ι) ∧ Ranged (mounted fs disk : State ι) ∧
    (mounted fs disk : State ι).fs.isize = fs.isize :=
    ⟨mounted_tidy fs disk,mounted_ranged isize inode disk,rfl⟩
  have kept : ∀ (s : State ι) (op : Op ι) (t : State ι), Tidy s ∧ Ranged s ∧ s.fs.isize = fs.isize → True → step s op = .ok t →
      Tidy t ∧ Ranged t ∧ t.fs.isize = fs.isize := by
    rintro s op t ⟨tidy,ranged,same⟩ - ok
    exact ⟨step_tidy tidy ok,step_ranged ranged ok,(step_isize ranged ok).trans same⟩
  exact run_invariant kept ops _ _ start always ran

theorem orderly_run (isize : 1 < fs.isize) (few : fs.inode.length ≤ nicinod) (inode : ∀ n ∈ fs.inode, n < fs.inoEnd)
    (disk : Nat × Nat → Dinode) (ops : List (Op ι)) (orderly : Along step Orderly (mounted fs disk) ops) :
    (∃ s, run step (mounted fs disk) ops = .ok s ∧ Ranged s ∧ Sole s) ∨ run step (mounted fs disk) ops = .error .refused := by
  have goes := @run_cases (State ι) (Op ι) Fault step Orderly (fun s => Ranged s ∧ Sole s) (fun _ e => e = .refused) ?_ ops
    (mounted fs disk) ⟨mounted_ranged isize inode disk,mounted_sole few disk⟩ orderly
  · rcases goes with ended | ⟨op,-,e,failed,rfl⟩
    · exact .inl ended
    · exact .inr failed
  rintro s op ⟨ranged,sole⟩ now
  cases result : step s op with
  | ok t => exact .inl ⟨t,rfl,step_ranged ranged result,step_sole ranged sole now result⟩
  | error e =>
    cases e with
    | refused => exact .inr ⟨_,rfl,rfl⟩
    | pastEnd => exact absurd result (step_inside ranged sole)

/-- In every run, whatever numbers `fs_inode` has at first, an inode that `ialloc` returns is inside the inode
area, free in core and on the disk, and has one owner. Where no process comes back to `loop` during a scan
`fs_inode` is not overrun, and `ialloc` fails for want of inodes only after a pass over the whole area. -/
theorem inodes_allocated (isize : 1 < fs.isize) (few : fs.inode.length ≤ nicinod) (inode : ∀ n ∈ fs.inode, n < fs.inoEnd)
    (disk : Nat × Nat → Dinode) (ops : List (Op ι)) :
    (∀ s, run step (mounted fs disk) ops = .ok s → (∀ ino, s.owners ino ≤ 1) ∧
      ∀ p ino, s.pc p = .returned ino → rootino < ino ∧ ino < fs.inoEnd ∧ (s.disk (place ino)).mode = 0 ∧
        ∃ ip, s.table ino = some ip ∧ ip.lock = some p ∧ ip.node.mode = 0) ∧
    (Along step Orderly (mounted fs disk) ops → run step (mounted fs disk) ops ≠ .error .pastEnd ∧
      ∀ s, run step (mounted fs disk) ops = .ok s → s.fs.inode.length ≤ nicinod ∧
        (∀ p emsg seen, s.pc p = .enospc emsg seen → seen = (List.range' 1 (fs.inoEnd - 1)).map fun ino => (ino,false)) ∧
        ∀ p first ino adr seen, s.pc p = .scanning first ino adr seen → ∀ i < inopb, place (ino + i) = (adr,i)) := by
  constructor
  · intro s ran
    obtain ⟨tidy,ranged,same⟩ := mounted_run isize inode disk ops ran
    refine ⟨tidy.single,fun p ino got => ?_⟩
    have mine := ranged.pcs p
    rw [got] at mine
    obtain ⟨ip,here,lock⟩ := tidy.holds p ino (by rw [got]; rfl)
    obtain ⟨-,known,-⟩ := tidy.busy got rfl here
    exact ⟨mine.2,inoEnd_congr same ▸ mine.1,known.2,ip,here,lock,known.1⟩
  intro orderly
  rcases orderly_run isize few inode disk ops orderly with ⟨s,ran,ranged,sole⟩ | refused
  · rw [ran]
    refine ⟨by simp,?_⟩
    rintro t same
    cases same
    refine ⟨sole.few,?_,?_⟩
    · intro p emsg seen failed
      have mine := ranged.pcs p
      rw [failed] at mine
      have ends : s.fs.inoEnd = fs.inoEnd := inoEnd_congr (mounted_run isize inode disk ops ran).2.2
      have numbers : seen.map Prod.fst = List.range' 1 (fs.inoEnd - 1) := ends ▸ mine
      rw [← numbers,map_map]
      apply ext_getElem
      · simp
      intro i here there
      have taken := sole.nothing p emsg seen failed seen[i] (getElem_mem here)
      simp [← taken]
    · intro p first ino adr seen here i inside
      have mine := ranged.pcs p
      rw [here] at mine
      exact place_scanning mine inside
  · rw [refused]
    exact ⟨by simp,fun s never => by cases never⟩

def someFs : Fs := ⟨4,[5],0,false,false,44,1,0⟩

def someDisk : Nat × Nat → Dinode := fun spot => if spot ∈ [1,2,5,6].map place then ⟨1,1,0,[]⟩ else ⟨0,0,0,[]⟩

def someOps : List (Op Nat) := [.ialloc 0 false,.resume 0 false,.resume 0 false,.ialloc 1 false,.resume 0 false,
    .resume 0 false,.resume 0 false]

theorem inodes_allocated_someOps : ∃ s, run step (mounted someFs someDisk) someOps = .ok s ∧ s.pc 0 = .returned 36 ∧
    Along step Orderly (mounted someFs someDisk) someOps ∧ (s.disk (place 36)).mode = 0 ∧ s.fs.inode.length ≤ nicinod := by
  have orderly : Along step Orderly (mounted someFs someDisk) someOps := by decide +kernel
  have ended : returns (fun s => decide (s.pc 0 = .returned 36)) (run step (mounted someFs someDisk) someOps) = true := by
    decide +kernel
  obtain ⟨s,ran,shown⟩ := of_returns ended
  have got := of_decide_eq_true shown
  have isize : 1 < someFs.isize := by decide
  have kept := inodes_allocated isize (by decide) (by decide) someDisk someOps
  exact ⟨s,ran,got,orderly,((kept.1 s ran).2 0 36 got).2.2.1,((kept.2 orderly).2 s ran).1⟩

/-- A process comes back to `loop` while another waits for the block that it has read, and begins a scan of its
own. The other one puts the same numbers in again, and when the first has filled `fs_inode` and taken a number
out and `ifree` has put one in, stores past the end. -/
theorem second_scan_overruns : run step (mounted someFs someDisk)
    ([.ialloc 0 false,.ialloc 1 false,.resume 0 false,.resume 0 false,
    .resume 1 false,.resume 0 false,.resume 0 false,.iget 2 6 false,.resume 2 false,.change 2 6
    ⟨1,0,0,[]⟩,.iput 2 6,.truncated 2 [],
    .resume 1 false] : List (Op Nat)) = .error .pastEnd := by
  apply of_fault
  decide +kernel

end

end Retrobsd.InodeAllocation
