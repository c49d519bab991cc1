import Retrobsd.FsckBuffers

/-! The repairs that the operator of fsck declines. Many are made in a buffer before the operator is asked, and the
answer only decides whether the buffer is marked as dirty. -/
namespace Retrobsd.Fsck.Answers
open Lib.Run

/-- The questions about an entry of a directory change a copy of it, which goes back into the block when one of them is
answered with yes. -/
inductive Repair (β : Type)
  | one (op : Op β)
  | entry (b : Int) (answers : List ((β → β) × Bool))

variable {β : Type}

def combined (fs : List (β → β)) (v : β) : β := fs.foldl (fun v f => f v) v

def Repair.asked : Repair β → Op β
  | .one op => op
  | .entry b answers => if answers.any (·.2) then .dirscan b (combined (answers.map (·.1))) else .readdir b none false

/-- The operation as it should be with these answers: the changes that are declined are left out. -/
def Repair.accepted : Repair β → Op β
  | .one (.inode inumber _ false) => .ginode inumber
  | .one (.readdir b _ false) => .readdir b none false
  | .one (.expanddir inumber _ _ _ _ false) => .ginode inumber
  | .one op => op
  | .entry b answers =>
    if answers.any (·.2) then .dirscan b (combined ((answers.filter (·.2)).map (·.1))) else .readdir b none false

def perform (s : State β) (r : Repair β) : Except Fault (State β) := step s r.asked

def performAccepted (s : State β) (r : Repair β) : Except Fault (State β) := step s r.accepted

def both (p : State β × State β) (r : Repair β) : Except Fault (State β × State β) :=
  match perform p.1 r, performAccepted p.2 r with
  | .ok s,.ok t => .ok (s,t)
  | .error e,_ => .error e
  | _,.error e => .error e

/-- `errexit` may end the program between any two steps. It leaves in the buffers what is not yet written. -/
inductive Ending
  | ckfini
  | errexit

def image (s : State β) : Ending → Int → β
  | .ckfini => s.ckfini.disk
  | .errexit => s.disk

def CleanInodes (p : State β × State β) (inumber : Nat) : Prop := Covers p.1.startib (itod inumber) → p.2.inobuf = p.1.inobuf

def CleanFile (p : State β × State β) (b : Int) : Prop := p.1.fileblk.bno = b → p.2.fileblk.buf = p.1.fileblk.buf

/-- An accepted change is made in a buffer without declined ones, and a declined change in a buffer that is not dirty. No
directory is denied its expansion, for which a block has been written. -/
def Meets (p : State β × State β) : Repair β → Prop
  | .one (.inode inumber _ true) => CleanInodes p inumber
  | .one (.allocdir inumber _ _) => CleanInodes p inumber ∧ CleanFile p p.1.unused
  | .one (.inode inumber _ false) => Covers p.1.startib (itod inumber) → p.1.inodirty = false
  | .one (.readdir b (some _) true) | .one (.dirscan b _) => CleanFile p b
  | .one (.readdir b (some _) false) => p.1.fileblk.bno = b → p.1.fileblk.dirty = false
  | .one (.expanddir inumber old _ _ _ fix) => p.1.unused ≠ 0 → fix = true ∧ CleanInodes p inumber ∧ CleanFile p old
  | .entry b answers => answers.any (·.2) = true → answers.all (·.2) = true ∧ CleanFile p b
  | _ => True

structure Same (s t : State β) : Prop where
  rest : t = {s with inobuf := t.inobuf,fileblk := ⟨s.fileblk.bno,t.fileblk.buf,s.fileblk.dirty⟩}
  inodes : s.inodirty = true → t.inobuf = s.inobuf
  file : s.fileblk.dirty = true → t.fileblk.buf = s.fileblk.buf

variable {s t s' : State β}

section
variable {t' : State β} {inumber : Nat} {b : Int} {f : β → β}

theorem Same.refl (s : State β) : Same s s := ⟨rfl,fun _ => rfl,fun _ => rfl⟩

section
variable (same : Same s t)
include same

theorem Same.mk' : ∃ inobuf buf, t = {s with inobuf,fileblk := ⟨s.fileblk.bno,buf,s.fileblk.dirty⟩} ∧
    (s.inodirty = true → inobuf = s.inobuf) ∧ (s.fileblk.dirty = true → buf = s.fileblk.buf) :=
  ⟨_,_,same.rest,same.inodes,same.file⟩

theorem Same.flushInodes : Same s.flushInodes t.flushInodes := by
  obtain ⟨_,_,rfl,inodes,file⟩ := same.mk'
  unfold State.flushInodes
  dsimp only
  split
  next dirty =>
    rw [inodes dirty]
    exact ⟨rfl,fun _ => rfl,file⟩
  next => exact ⟨rfl,inodes,file⟩

theorem Same.flushFile : Same s.flushFile t.flushFile := by
  obtain ⟨_,_,rfl,inodes,file⟩ := same.mk'
  unfold State.flushFile flush
  dsimp only
  split
  next dirty =>
    rw [file dirty]
    exact ⟨rfl,inodes,fun _ => rfl⟩
  next => exact ⟨rfl,inodes,file⟩

theorem Same.ginode (done : s.ginode inumber = .ok s') : ∃ t', t.ginode inumber = .ok t' ∧ Same s' t' := by
  have flushed := same.flushInodes
  obtain ⟨_,_,rfl,inodes,file⟩ := same.mk'
  unfold State.ginode at done ⊢
  dsimp only at done ⊢
  split_ifs at done ⊢
  · cases done
    refine ⟨_,rfl,?_,fun _ => ?_,flushed.file⟩
    · rw [flushed.rest]
    · rw [flushed.rest]
  · cases done
    exact ⟨_,rfl,rfl,inodes,file⟩

theorem Same.getblk (b : Int) : Same (s.getblk b) (t.getblk b) := by
  obtain ⟨_,_,rfl,inodes,file⟩ := same.mk'
  unfold State.getblk Fsck.getblk flush
  dsimp only
  split
  · exact ⟨rfl,inodes,file⟩
  split
  next dirty =>
    rw [file dirty]
    exact ⟨rfl,inodes,fun _ => rfl⟩
  next => exact ⟨rfl,inodes,fun _ => rfl⟩

theorem Same.editInode (clean : t.inobuf = s.inobuf) : Same (s.editInode inumber f true) (t.editInode inumber f true) := by
  obtain ⟨_,_,rfl,inodes,file⟩ := same.mk'
  cases clean
  exact ⟨rfl,fun _ => rfl,file⟩

theorem Same.declineInode (unmarked : s.inodirty = false) : Same (s.editInode inumber f false) t := by
  obtain ⟨_,_,rfl,inodes,file⟩ := same.mk'
  refine ⟨rfl,fun dirty => ?_,file⟩
  exact absurd (unmarked.symm.trans dirty) (by decide)

theorem Same.editFile (clean : t.fileblk.buf = s.fileblk.buf) : Same (s.editFile f true) (t.editFile f true) := by
  obtain ⟨_,_,rfl,inodes,file⟩ := same.mk'
  cases clean
  exact ⟨rfl,inodes,fun _ => rfl⟩

theorem Same.declineFile (unmarked : s.fileblk.dirty = false) : Same (s.editFile f false) t := by
  obtain ⟨_,_,rfl,inodes,file⟩ := same.mk'
  refine ⟨rfl,inodes,fun dirty => ?_⟩
  exact absurd (unmarked.symm.trans dirty) (by decide)

theorem Same.editSuper : Same (s.editSuper f) (t.editSuper f) := by
  obtain ⟨_,_,rfl,inodes,file⟩ := same.mk'
  exact ⟨rfl,inodes,file⟩

theorem Same.setbmap (b : Int) : Same (s.setbmap b) (t.setbmap b) := by
  obtain ⟨_,_,rfl,inodes,file⟩ := same.mk'
  exact ⟨rfl,inodes,file⟩

theorem Same.clrbmap (b : Int) : Same (s.clrbmap b) (t.clrbmap b) := by
  obtain ⟨_,_,rfl,inodes,file⟩ := same.mk'
  exact ⟨rfl,inodes,file⟩

theorem Same.outrange (b : Int) : t.outrange b = s.outrange b := by rw [same.rest]; rfl

theorem Same.unused : t.unused = s.unused := by rw [same.rest]; rfl

theorem Same.pass : t.pass = s.pass := by rw [same.rest]

theorem Same.blockmap : t.blockmap = s.blockmap := by rw [same.rest]

theorem Same.ckfini : t.ckfini.disk = s.ckfini.disk := by
  have flushed : Same s.flushFile.flushSuper t.flushFile.flushSuper := by
    obtain ⟨_,_,named,inodes,file⟩ := same.flushFile.mk'
    rw [named]
    unfold State.flushSuper
    exact ⟨rfl,inodes,file⟩
  have closed : ∀ {p q : State β}, Same p q → q.flushInodes.disk = p.flushInodes.disk :=
    fun same => by rw [same.flushInodes.rest]
  unfold State.ckfini
  dsimp only
  generalize s.flushFile.flushSuper = p at flushed ⊢
  generalize t.flushFile.flushSuper = q at flushed ⊢
  obtain ⟨_,_,rfl,inodes,file⟩ := flushed.mk'
  dsimp only
  split
  · unfold State.flushSuper
    exact closed ⟨rfl,inodes,file⟩
  · exact closed ⟨rfl,inodes,file⟩

theorem Same.inobuf (clean : CleanInodes (s,t) inumber) (done : s.ginode inumber = .ok s')
    (done' : t.ginode inumber = .ok t') : t'.inobuf = s'.inobuf := by
  have flushed := same.flushInodes
  obtain ⟨_,_,rfl,inodes,file⟩ := same.mk'
  unfold State.ginode at done done'
  dsimp only at done done'
  split_ifs at done done' with range outside
  · cases done
    cases done'
    dsimp only
    rw [flushed.rest]
  · cases done
    cases done'
    exact clean (by rw [Covers]; dsimp only; omega)

theorem Same.buf (clean : CleanFile (s,t) b) : (t.getblk b).fileblk.buf = (s.getblk b).fileblk.buf := by
  have read := same.flushFile
  obtain ⟨_,_,rfl,inodes,file⟩ := same.mk'
  unfold State.getblk Fsck.getblk
  dsimp only
  split
  next here => exact clean here
  next =>
    have disk := congrArg State.disk read.rest
    exact congrArg (bread · b 0) disk

end

theorem ginode_unmarked (unmarked : Covers s.startib (itod inumber) → s.inodirty = false) (done : s.ginode inumber = .ok s') :
    s'.inodirty = false := by
  unfold State.ginode at done
  split_ifs at done with range outside
  · cases done
    dsimp only
    unfold State.flushInodes
    split
    · rfl
    next clean => exact Bool.not_eq_true _ |>.mp clean
  · cases done
    exact unmarked (by rw [Covers]; omega)

theorem ginode_file (done : s.ginode inumber = .ok s') : s'.fileblk = s.fileblk ∧ s'.unused = s.unused := by
  unfold State.ginode at done
  split_ifs at done
  · cases done
    dsimp only
    rw [flushInodes_frame]
    exact ⟨rfl,rfl⟩
  · cases done
    exact ⟨rfl,rfl⟩

theorem getblk_unmarked (unmarked : s.fileblk.bno = b → s.fileblk.dirty = false) : (s.getblk b).fileblk.dirty = false := by
  unfold State.getblk Fsck.getblk flush
  dsimp only
  split
  next here => exact unmarked here
  next =>
    split
    · rfl
    next clean => exact Bool.not_eq_true _ |>.mp clean

section
variable (same : Same s t)
include same

theorem Same.read (fix fix' : Bool) : Same (s.readdir b none fix) (t.readdir b none fix') := by
  unfold State.readdir
  rw [same.outrange]
  split
  · exact same
  · exact same.getblk b

theorem Same.readdir (clean : CleanFile (s,t) b) : Same (s.readdir b (some f) true) (t.readdir b (some f) true) := by
  unfold State.readdir
  rw [same.outrange]
  split
  · exact same
  · exact (same.getblk b).editFile (same.buf clean)

theorem Same.declineDir (unmarked : s.fileblk.bno = b → s.fileblk.dirty = false) (fix : Bool) :
    Same (s.readdir b (some f) false) (t.readdir b none fix) := by
  unfold State.readdir
  rw [same.outrange]
  split
  · exact same
  · exact (same.getblk b).declineFile (getblk_unmarked unmarked)

theorem Same.dirscan (clean : CleanFile (s,t) b) : Same (s.dirscan b f) (t.dirscan b f) := by
  unfold State.dirscan
  rw [same.outrange]
  split
  · exact same
  · exact ((same.getblk b).editFile (same.buf clean)).editSuper

theorem Same.iblock (b : Int) (f : Option (β → β)) : Same (s.iblock b f) (t.iblock b f) := by
  obtain ⟨inobuf,buf,rfl,inodes,file⟩ := same.mk'
  unfold State.iblock
  dsimp only
  have outrange : State.outrange {s with inobuf,fileblk := ⟨s.fileblk.bno,buf,s.fileblk.dirty⟩} b = s.outrange b := rfl
  rw [outrange]
  split
  · exact ⟨rfl,inodes,file⟩
  · cases f <;> exact ⟨rfl,inodes,file⟩

theorem Same.allocblk : Same s.allocblk.1 t.allocblk.1 := by
  unfold State.allocblk
  rw [same.unused]
  dsimp only
  split
  · exact same
  · exact same.setbmap _

end

theorem allocblk_frame (s : State β) : s.allocblk.1.inobuf = s.inobuf ∧ s.allocblk.1.fileblk = s.fileblk := by
  unfold State.allocblk
  dsimp only
  split <;> exact ⟨rfl,rfl⟩

theorem Same.allocdir {f : Int → β → β} {g : β → β} (same : Same s t) (inodes : CleanInodes (s,t) inumber)
    (file : CleanFile (s,t) s.unused)
    (done : s.allocdir inumber f g = .ok s') : ∃ t', t.allocdir inumber f g = .ok t' ∧ Same s' t' := by
  obtain ⟨k,sought,done⟩ := except_bind_ok done
  obtain ⟨k',sought',found⟩ := same.ginode sought
  obtain ⟨kept,unused⟩ := ginode_file sought
  have kept' := (ginode_file sought').1
  have given : k'.allocblk.2 = k.allocblk.2 := found.unused
  unfold State.allocdir
  rw [sought']
  dsimp only [bind,Except.bind] at done ⊢
  rw [given]
  split at done
  · cases done
  next some =>
    rw [if_neg some]
    cases done
    have clean : k'.allocblk.1.inobuf = k.allocblk.1.inobuf := by
      rw [(allocblk_frame k).1,(allocblk_frame k').1]
      exact same.inobuf inodes sought sought'
    have edited : Same (k.allocblk.1.editInode inumber (f k.allocblk.2) true)
      (k'.allocblk.1.editInode inumber (f k.allocblk.2) true) :=
      found.allocblk.editInode clean
    refine ⟨_,rfl,(edited.getblk _).editFile (edited.buf fun here => ?_)⟩
    change k'.allocblk.1.fileblk.buf = k.allocblk.1.fileblk.buf
    change k.allocblk.1.fileblk.bno = k.unused at here
    rw [(allocblk_frame k).2,kept] at here
    rw [(allocblk_frame k).2,(allocblk_frame k').2,kept,kept']
    exact file (here.trans unused)

theorem Same.expanddir {g : β → β} {h : Int → β → β} (same : Same s t) (inodes : CleanInodes (s,t) inumber)
    (file : CleanFile (s,t) b)
    (some : s.unused ≠ 0) (done : s.expanddir inumber b f g h true = .ok s') :
    ∃ t', t.expanddir inumber b f g h true = .ok t' ∧ Same s' t' := by
  obtain ⟨k,sought,done⟩ := except_bind_ok done
  obtain ⟨k',sought',found⟩ := same.ginode sought
  obtain ⟨kept,unused⟩ := ginode_file sought
  have kept' := (ginode_file sought').1
  have given : k'.allocblk.2 = k.allocblk.2 := found.unused
  have fresh : ¬k.allocblk.2 = 0 := fun zero => some (unused ▸ zero)
  unfold State.expanddir
  rw [sought']
  dsimp only [bind,Except.bind] at done ⊢
  rw [given]
  rw [if_neg fresh] at done ⊢
  cases done
  have clean : k'.allocblk.1.inobuf = k.allocblk.1.inobuf := by
    rw [(allocblk_frame k).1,(allocblk_frame k').1]
    exact same.inobuf inodes sought sought'
  have first : (k'.allocblk.1.getblk b).fileblk.buf = (k.allocblk.1.getblk b).fileblk.buf := found.allocblk.buf fun here => by
    rw [(allocblk_frame k).2,kept] at here
    rw [(allocblk_frame k).2,(allocblk_frame k').2,kept,kept']
    exact file here
  have read := found.allocblk.getblk b
  have second := read.buf (b := k.allocblk.2) fun _ => first
  have copied := (read.getblk k.allocblk.2).editFile (f := f) second
  have third := copied.buf (b := b) fun _ => congrArg f second
  exact ⟨_,rfl,((copied.getblk b).editFile third).editInode clean⟩

theorem expanddir_full {g : β → β} {h : Int → β → β} (none : s.unused = 0) (fix : Bool) :
    s.expanddir inumber b f g h fix = s.ginode inumber := by
  unfold State.expanddir
  cases sought : s.ginode inumber with
  | error => rfl
  | ok k =>
    have given : k.allocblk.2 = 0 := (ginode_file sought).2.trans none
    dsimp only [bind,Except.bind]
    rw [if_pos given]
    exact congrArg Except.ok (if_pos given)

theorem Same.link (same : Same s t) (fblk : List Int → β) (chunk : List Int) :
    Same (s.link fblk b chunk) (t.link fblk b chunk) := by
  obtain ⟨_,_,rfl,inodes,file⟩ := same.mk'
  exact ⟨rfl,inodes,fun _ => rfl⟩

theorem Same.salvage (fblk : List Int → β) (blks : List Int) : ∀ {s t : State β} {chunk : List Int}, Same s t →
    (salvage fblk blks t chunk).2 = (salvage fblk blks s chunk).2 ∧
    Same (salvage fblk blks s chunk).1 (salvage fblk blks t chunk).1 := by
  induction blks with
  | nil => exact fun same => ⟨rfl,same⟩
  | cons blk blks ih =>
    intro s t chunk same
    rw [Fsck.salvage,Fsck.salvage,same.blockmap]
    split_ifs
    · exact ih same
    · exact ih (same.link fblk chunk)
    · exact ih same

theorem Same.makefree (same : Same s t) (fblk : List Int → β) (sb : List Int → β → β) :
    Same (s.makefree fblk sb) (t.makefree fblk sb) := by
  have down : t.downwards = s.downwards := by rw [same.rest]; rfl
  obtain ⟨chunk,parts⟩ := @Same.salvage β fblk s.downwards s t [0] same
  unfold State.makefree
  rw [down]
  dsimp only
  rw [chunk]
  generalize (Fsck.salvage fblk s.downwards s [0]).1 = k at parts ⊢
  obtain ⟨_,_,named,inodes,file⟩ := parts.mk'
  rw [named]
  exact ⟨rfl,inodes,fun _ => rfl⟩

end

theorem during_ok {now : Bool} {next : Except Fault (State β)} : during now next = .ok s' ↔ now = true ∧ next = .ok s' := by
  cases now
  · exact ⟨nofun,nofun⟩
  · exact (and_iff_right rfl).symm

theorem Same.pass1check (same : Same s t) (b : Int) : Same (s.pass1check b) (t.pass1check b) := by
  unfold State.pass1check
  rw [same.outrange]
  split
  · exact same
  · exact same.setbmap b

theorem Same.pass4check (same : Same s t) (b : Int) : Same (s.pass4check b) (t.pass4check b) := by
  unfold State.pass4check
  rw [same.outrange]
  split
  · exact same
  · exact same.clrbmap b

theorem Same.setPass (same : Same s t) (pass : Pass) : Same {s with pass} {t with pass} := by
  obtain ⟨_,_,rfl,inodes,file⟩ := same.mk'
  exact ⟨rfl,inodes,file⟩

theorem Same.step (same : Same s t) {r : Repair β} (meets : Meets (s,t) r) (done : perform s r = .ok s') :
    ∃ t', performAccepted t r = .ok t' ∧ Same s' t' := by
  have pass := same.pass
  unfold perform at done
  unfold performAccepted
  cases r with
  | entry b answers =>
    rw [Repair.asked] at done
    rw [Repair.accepted]
    by_cases some : answers.any (·.2) = true
    · rw [if_pos some] at done ⊢
      obtain ⟨now,done⟩ := during_ok.mp done
      cases done
      obtain ⟨every,clean⟩ := meets some
      have kept : answers.filter (·.2) = answers := List.filter_eq_self.mpr fun e member => List.all_eq_true.mp every e member
      rw [kept]
      exact ⟨_,during_ok.mpr ⟨by rw [pass]; exact now,rfl⟩,same.dirscan clean⟩
    · rw [if_neg some] at done ⊢
      obtain ⟨now,done⟩ := during_ok.mp done
      cases done
      exact ⟨_,during_ok.mpr ⟨by rw [pass]; exact now,rfl⟩,same.read false false⟩
  | one op =>
    cases op
    case inode inumber f fix =>
      cases fix
      all_goals
        obtain ⟨now,done⟩ := during_ok.mp done
        obtain ⟨k,sought,done⟩ := except_bind_ok done
        cases done
        obtain ⟨k',sought',found⟩ := same.ginode sought
      · exact ⟨k',during_ok.mpr ⟨by rw [pass]; exact now,sought'⟩,found.declineInode (ginode_unmarked meets sought)⟩
      · refine ⟨_,during_ok.mpr ⟨by rw [pass]; exact now,?_⟩,found.editInode (same.inobuf meets sought sought')⟩
        rw [sought']
        rfl
    case readdir b f fix =>
      obtain ⟨now,done⟩ := during_ok.mp done
      cases done
      have now' : decide (t.pass = .two) = true := by rw [pass]; exact now
      cases f with
      | none => cases fix <;> exact ⟨_,during_ok.mpr ⟨now',rfl⟩,same.read _ _⟩
      | some f =>
        cases fix with
        | true => exact ⟨_,during_ok.mpr ⟨now',rfl⟩,same.readdir meets⟩
        | false => exact ⟨_,during_ok.mpr ⟨now',rfl⟩,same.declineDir meets false⟩
    case expanddir inumber old f g h fix =>
      obtain ⟨now,done⟩ := during_ok.mp done
      have now' : decide (t.pass = .two) = true := by rw [pass]; exact now
      by_cases none : s.unused = 0
      · rw [expanddir_full none] at done
        obtain ⟨t',done',found⟩ := same.ginode done
        have expanded := (expanddir_full (f := f) (g := g) (h := h) (b := old) (same.unused.trans none) true).trans done'
        have later : decide (t.pass ≠ .five) = true := by
          rw [of_decide_eq_true now']
          decide
        cases fix
        · exact ⟨t',during_ok.mpr ⟨later,done'⟩,found⟩
        · exact ⟨t',during_ok.mpr ⟨now',expanded⟩,found⟩
      · obtain ⟨rfl,inodes,file⟩ := meets none
        obtain ⟨t',done',found⟩ := same.expanddir inodes file none done
        exact ⟨t',during_ok.mpr ⟨now',done'⟩,found⟩
    all_goals obtain ⟨now,done⟩ := during_ok.mp done
    case allocdir inumber f g =>
      obtain ⟨t',done',found⟩ := same.allocdir meets.1 meets.2 done
      exact ⟨t',during_ok.mpr ⟨by rw [pass]; exact now,done'⟩,found⟩
    case ginode inumber =>
      obtain ⟨t',done',found⟩ := same.ginode done
      exact ⟨t',during_ok.mpr ⟨by rw [pass]; exact now,done'⟩,found⟩
    all_goals
      rw [← Except.ok.inj done]
      refine ⟨_,during_ok.mpr ⟨by rw [pass]; exact now,rfl⟩,?_⟩
    case pass1check => exact same.pass1check _
    case iblock => exact same.iblock _ _
    case pass1b => exact same.flushInodes
    case pass2 => exact same.setPass .two
    case dirscan => exact same.dirscan meets
    case pass4check => exact same.pass4check _
    case pass5 => exact same.flushFile.setPass .five
    case super => exact same.editSuper
    case freeblk =>
      obtain ⟨_,_,rfl,inodes,file⟩ := same.mk'
      exact ⟨rfl,inodes,fun _ => rfl⟩
    case freechk =>
      rw [same.outrange]
      split
      · exact same
      · exact same.getblk _
    case makefree => exact same.makefree _ _

theorem declined_run {rs : List (Repair β)} (same : Same s t) (meets : Along both Meets (s,t) rs)
    (done : run perform s rs = .ok s') :
    ∃ t', run performAccepted t rs = .ok t' ∧ Same s' t' := by
  induction rs generalizing s t with
  | nil =>
    cases done
    exact ⟨t,rfl,same⟩
  | cons r rs ih =>
    obtain ⟨k,first,done⟩ := of_run_cons done
    obtain ⟨k',first',found⟩ := same.step meets.1 first
    have next : both (s,t) r = .ok (k,k') := by rw [both,first,first']
    obtain ⟨t',rest,last⟩ := ih found (meets.2 _ next) done
    exact ⟨t',by rw [run_cons_ok rs first',rest],last⟩

/-- If the device is not open for writing, it stays as it is. -/
def Unwritten (s t : State β) : Prop := s.wfdes = false → t.disk = s.disk ∧ t.wfdes = false

section
variable {u : State β}

theorem Unwritten.refl (s : State β) : Unwritten s s := fun closed => ⟨rfl,closed⟩

theorem Unwritten.trans (first : Unwritten s t) (second : Unwritten t u) : Unwritten s u := fun closed =>
  have still := first closed
  have stays := second still.2
  ⟨stays.1.trans still.1,stays.2⟩

theorem flush_unwritten (disk : Int → β) (bp : Bufarea β) : (flush false disk bp).1 = disk := by
  rw [flush]
  split <;> rfl

theorem flushInodes_unwritten (s : State β) : Unwritten s s.flushInodes := by
  intro closed
  rw [State.flushInodes]
  split
  · exact ⟨by rw [closed]; rfl,closed⟩
  · exact ⟨rfl,closed⟩

theorem flushFile_unwritten (s : State β) : Unwritten s s.flushFile := fun closed =>
  ⟨by rw [State.flushFile,closed]; exact flush_unwritten _ _,closed⟩

theorem flushSuper_unwritten (s : State β) : Unwritten s s.flushSuper := fun closed =>
  ⟨by rw [State.flushSuper,closed]; exact flush_unwritten _ _,closed⟩

theorem getblk_unwritten (s : State β) (b : Int) : Unwritten s (s.getblk b) := by
  intro closed
  refine ⟨?_,closed⟩
  rw [State.getblk,closed]
  unfold Fsck.getblk
  split
  · rfl
  · exact flush_unwritten _ _

theorem ginode_unwritten {inumber : Nat} (done : s.ginode inumber = .ok t) : Unwritten s t := by
  unfold State.ginode at done
  split_ifs at done
  · cases done
    exact (flushInodes_unwritten s).trans fun closed => ⟨rfl,closed⟩
  · cases done
    exact Unwritten.refl s

theorem ckfini_unwritten (s : State β) : Unwritten s s.ckfini := by
  have flushed := (flushFile_unwritten s).trans (flushSuper_unwritten _)
  unfold State.ckfini
  dsimp only
  generalize s.flushFile.flushSuper = p at flushed ⊢
  split
  · have moved : Unwritten p {p with sblk := ⟨superb,p.sblk.buf,true⟩} := fun closed => ⟨rfl,closed⟩
    exact ((flushed.trans moved).trans (flushSuper_unwritten _)).trans (flushInodes_unwritten _)
  · exact flushed.trans (flushInodes_unwritten _)

theorem iblock_unwritten (s : State β) (b : Int) (f : Option (β → β)) : Unwritten s (s.iblock b f) := by
  intro closed
  unfold State.iblock
  split
  · exact ⟨rfl,closed⟩
  cases f with
  | none => exact ⟨rfl,closed⟩
  | some f => exact ⟨by rw [closed]; exact flush_unwritten _ _,closed⟩

theorem readdir_unwritten (s : State β) (b : Int) (f : Option (β → β)) (fix : Bool) : Unwritten s (s.readdir b f fix) := by
  unfold State.readdir
  split
  · exact Unwritten.refl s
  cases f with
  | none => exact getblk_unwritten s b
  | some f => exact (getblk_unwritten s b).trans fun closed => ⟨rfl,closed⟩

theorem dirscan_unwritten (s : State β) (b : Int) (f : β → β) : Unwritten s (s.dirscan b f) := by
  unfold State.dirscan
  split
  · exact Unwritten.refl s
  · exact (getblk_unwritten s b).trans fun closed => ⟨rfl,closed⟩

theorem allocblk_unwritten (s : State β) : Unwritten s s.allocblk.1 := by
  unfold State.allocblk
  dsimp only
  split
  · exact Unwritten.refl s
  · exact fun closed => ⟨rfl,closed⟩

theorem allocdir_unwritten {inumber : Nat} {f : Int → β → β} {g : β → β}
    (done : s.allocdir inumber f g = .ok t) : Unwritten s t := by
  obtain ⟨k,sought,done⟩ := except_bind_ok done
  have found := (ginode_unwritten sought).trans (allocblk_unwritten k)
  dsimp only at done
  split_ifs at done
  · cases done
  cases done
  have edited : Unwritten k.allocblk.1 (k.allocblk.1.editInode inumber (f k.allocblk.2) true) := fun closed => ⟨rfl,closed⟩
  exact ((found.trans edited).trans (getblk_unwritten _ _)).trans fun closed => ⟨rfl,closed⟩

theorem pass4check_unwritten (s : State β) (b : Int) : Unwritten s (s.pass4check b) := by
  unfold State.pass4check
  split
  · exact Unwritten.refl s
  · exact fun closed => ⟨rfl,closed⟩

theorem expanddir_unwritten {inumber : Nat} {old : Int} {f g : β → β} {h : Int → β → β} {fix : Bool}
    (done : s.expanddir inumber old f g h fix = .ok t) : Unwritten s t := by
  obtain ⟨k,sought,done⟩ := except_bind_ok done
  have found := (ginode_unwritten sought).trans (allocblk_unwritten k)
  dsimp only at done
  split_ifs at done
  · cases done
    exact found
  all_goals
    have read := ((found.trans (getblk_unwritten _ old)).trans (getblk_unwritten _ k.allocblk.2))
    have filled : Unwritten _ (((k.allocblk.1.getblk old).getblk k.allocblk.2).editFile f true) :=
      read.trans fun closed => ⟨rfl,closed⟩
    have back := filled.trans (getblk_unwritten _ old)
    cases done
  · exact back.trans fun closed => ⟨rfl,closed⟩
  · have declined : Unwritten s (((((k.allocblk.1.getblk old).getblk k.allocblk.2).editFile f true).getblk
      old).editFile g false) :=
      back.trans fun closed => ⟨rfl,closed⟩
    exact declined.trans (pass4check_unwritten _ _)

theorem salvage_unwritten (fblk : List Int → β) (blks : List Int) :
    ∀ (s : State β) (chunk : List Int), Unwritten s (salvage fblk blks s chunk).1 := by
  induction blks with
  | nil => exact fun s chunk => Unwritten.refl s
  | cons blk blks ih =>
    intro s chunk
    rw [salvage]
    split_ifs
    · exact ih s chunk
    · have linked : Unwritten s (s.link fblk blk chunk) := fun closed =>
        flushFile_unwritten {s with fileblk := ⟨blk,fblk chunk,true⟩} closed
      exact linked.trans (ih _ _)
    · exact ih s _

theorem makefree_unwritten (fblk : List Int → β) (sb : List Int → β → β) : Unwritten s (s.makefree fblk sb) := by
  unfold State.makefree
  exact (salvage_unwritten fblk s.downwards s [0]).trans fun closed => ⟨rfl,closed⟩

theorem step_unwritten {op : Op β} (done : step s op = .ok t) : Unwritten s t := by
  cases op <;> obtain ⟨now,done⟩ := during_ok.mp done
  case ginode inumber => exact ginode_unwritten done
  case inode inumber f fix =>
    obtain ⟨k,sought,done⟩ := except_bind_ok done
    cases done
    exact (ginode_unwritten sought).trans fun closed => ⟨rfl,closed⟩
  case allocdir => exact allocdir_unwritten done
  case expanddir => exact expanddir_unwritten done
  all_goals cases done
  case iblock b f => exact iblock_unwritten s b f
  case pass1b => exact flushInodes_unwritten s
  case readdir b f fix => exact readdir_unwritten s b f fix
  case dirscan b f => exact dirscan_unwritten s b f
  case pass4check b => exact pass4check_unwritten s b
  case pass5 => exact (flushFile_unwritten s).trans fun closed => ⟨rfl,closed⟩
  case freechk b =>
    split
    · exact Unwritten.refl s
    · exact getblk_unwritten s b
  case makefree fblk sb => exact makefree_unwritten fblk sb
  case pass1check b =>
    unfold State.pass1check
    split
    · exact Unwritten.refl s
    · exact fun closed => ⟨rfl,closed⟩
  all_goals exact fun closed => ⟨rfl,closed⟩

theorem unwritten_run {rs : List (Repair β)} (done : run perform s rs = .ok t) : Unwritten s t := by
  induction rs generalizing s with
  | nil =>
    cases done
    exact Unwritten.refl t
  | cons r rs ih =>
    obtain ⟨k,first,rest⟩ := of_run_cons done
    exact (step_unwritten first).trans (ih rest)

end

/-- Where every accepted change is made in a buffer without declined ones, and every declined one in a buffer
that is not dirty, the image is in the end the one with the accepted changes only; where the device is not open
for writing it stays as it is. -/
theorem declined_absent (start : State β) (rs : List (Repair β)) (s : State β) (ending : Ending)
    (ended : run perform start rs = .ok s) (meets : start.wfdes = true → Along both Meets (start,start) rs) :
    (start.wfdes = false → image s ending = start.disk) ∧
    (start.wfdes = true → ∃ t, run performAccepted start rs = .ok t ∧ image s ending = image t ending) := by
  constructor
  · intro closed
    have kept := unwritten_run ended closed
    cases ending with
    | ckfini => exact (ckfini_unwritten s kept.2).1.trans kept.1
    | errexit => exact kept.1
  intro opened
  obtain ⟨t,done,same⟩ := declined_run (Same.refl start) (meets opened) ended
  refine ⟨t,done,?_⟩
  cases ending with
  | ckfini => exact same.ckfini.symm
  | errexit => rw [image,image,same.rest]

def sample : State Nat := ⟨fun _ => 0,fun _ => 0,20,false,⟨-1,0,false⟩,⟨superb,0,false⟩,fun _ => false,16,2,20,.one,true⟩

def otherBlock : List (Repair Nat) := [.one .pass2,.one (.inode 3 (· + 1) false),.one (.readdir 5 (some (· + 2)) true)]

theorem declined_absent_otherBlock :
    ∃ s t, run perform sample otherBlock = .ok s ∧ run performAccepted sample otherBlock = .ok t ∧
    image s .ckfini = image t .ckfini := by
  have meets : Along both Meets (sample,sample) otherBlock := by
    refine ⟨trivial,fun p first => ?_⟩
    cases first
    refine ⟨fun _ => rfl,fun p second => ⟨fun here => ?_,fun _ _ => trivial⟩⟩
    cases second
    cases here
  obtain ⟨t,done,same⟩ := (declined_absent sample otherBlock _ .ckfini rfl fun _ => meets).2 rfl
  exact ⟨_,t,rfl,done,same⟩

def oneBlock : List (Repair Nat) := [.one .pass2,.one (.inode 3 (· + 1) false),.one (.inode 4 (· + 10) true)]

theorem declined_present : setup false 2 20 (fun _ => 0) = some sample ∧ ∃ s t, run perform sample oneBlock = .ok s ∧
    run performAccepted sample oneBlock = .ok t ∧ image s .ckfini 1 = 11 ∧ image t .ckfini 1 = 10 :=
  ⟨rfl,_,_,rfl,rfl,rfl,rfl⟩

end Retrobsd.Fsck.Answers
