import Retrobsd.Transfers

/-! Which transfers stay inside the memory of the user. Neither `rwuio` nor
`uiomove`, `ureadc` or `addupc` looks at an address, so that this is up to the
vectors and the profiling buffer that the user names. -/
namespace Retrobsd.Transfers
open Lib.Run

section

def Inside (addrs : List Word) : Prop := ∀ a ∈ addrs, baduaddr a = false

def Within : Word → List Iovec → Prop
  | _,[] => True
  | resid,iov :: rest => resid = 0 ∨ Inside (bytes iov.iovBase iov.iovLen.toNat) ∧ Within (resid - iov.iovLen) rest

theorem within_zero (iovs : List Iovec) : Within 0 iovs := by
  cases iovs with
  | nil => trivial
  | cons iov rest => exact .inl rfl

variable {iov : Iovec} {cnt : Word} {uio : Uio}

theorem bytes_first (part : cnt ≤ iov.iovLen) {a : Word} (member : a ∈ bytes iov.iovBase cnt.toNat) :
    a ∈ bytes iov.iovBase iov.iovLen.toNat := by
  obtain ⟨i,small,rfl⟩ := mem_bytes.mp member
  exact mem_bytes.mpr ⟨i,Nat.lt_of_lt_of_le small part,rfl⟩

theorem bytes_rest (part : cnt ≤ iov.iovLen) {a : Word}
    (member : a ∈ bytes (iov.iovBase + cnt) (iov.iovLen - cnt).toNat) : a ∈ bytes iov.iovBase iov.iovLen.toNat := by
  obtain ⟨i,small,rfl⟩ := mem_bytes.mp member
  refine mem_bytes.mpr ⟨cnt.toNat + i,?_,?_⟩
  · bv_omega
  · rw [BitVec.ofNat_add,BitVec.ofNat_toNat,BitVec.setWidth_eq,BitVec.add_assoc]

theorem within_drop {resid : Word} {rest : List Iovec} (empty : iov.iovLen = 0 ∨ resid = 0)
    (within : Within resid (iov :: rest)) : Within resid rest := by
  by_cases none : resid = 0
  · rw [none]
    exact within_zero rest
  have zero := empty.resolve_right none
  simpa [zero] using (within.resolve_left none).2

theorem move_within {rest : List Iovec} (some : uio.uioResid ≠ 0)
    (part : cnt ≤ iov.iovLen) (before : Inside uio.touched) (within : Within uio.uioResid (iov :: rest)) :
    Inside (uio.move iov rest cnt).touched ∧ Within (uio.move iov rest cnt).uioResid (uio.move iov rest cnt).uioIov := by
  obtain ⟨inside,later⟩ := within.resolve_left some
  refine ⟨?_,.inr ⟨?_,?_⟩⟩
  · intro a member
    rcases List.mem_append.mp member with old | new
    · exact before a old
    · exact inside a (bytes_first part new)
  · intro a member
    exact inside a (bytes_rest part member)
  · have left : uio.uioResid - cnt - (iov.iovLen - cnt) = uio.uioResid - iov.iovLen := by bv_omega
    change Within (uio.uioResid - cnt - (iov.iovLen - cnt)) rest
    rw [left]
    exact later

theorem uiomove_within {n : Word} {t : Uio} (before : Inside uio.touched) (within : Within uio.uioResid uio.uioIov)
    (ok : uiomove n uio = .ok t) : Inside t.touched ∧ Within t.uioResid t.uioIov := by
  fun_induction uiomove n uio with
  | case1 n uio more shape => cases ok
  | case2 n uio more iov rest shape empty ih =>
    rw [shape] at within
    exact ih before (within_drop (.inl empty) within) ok
  | case3 n uio more iov rest shape full cnt ih =>
    rw [shape] at within
    have part : cnt ≤ iov.iovLen := by
      simp only [cnt]
      split <;> bv_omega
    obtain ⟨touched,later⟩ := move_within more.2 part before within
    exact ih touched later ok
  | case4 n uio done =>
    cases ok
    exact ⟨before,within⟩

theorem ureadcLoop_within : ∀ {iovs : List Iovec} {uio t : Uio}, Inside uio.touched → Within uio.uioResid iovs →
    ureadcLoop uio iovs = .ok t → Inside t.touched ∧ Within t.uioResid t.uioIov
  | [],_,_,_,_,ok => by cases ok
  | iov :: rest,uio,t,before,within,ok => by
    rw [ureadcLoop] at ok
    split at ok
    · next empty => exact ureadcLoop_within before (within_drop empty within) ok
    next full =>
    rw [not_or] at full
    cases ok
    apply move_within full.2 _ before within
    bv_omega

theorem run_within (moves : List Move) {t : Uio} (before : Inside uio.touched) (within : Within uio.uioResid uio.uioIov)
    (ended : run step uio moves = .ok t) : Inside t.touched := by
  induction moves generalizing uio with
  | nil =>
    cases ended
    exact before
  | cons move moves ih =>
    obtain ⟨next,ok,ended⟩ := of_run_cons ended
    have kept : Inside next.touched ∧ Within next.uioResid next.uioIov := by
      cases move with
      | uiomove n => exact uiomove_within before within ok
      | ureadc => exact ureadcLoop_within before within ok
    exact ih kept.1 kept.2 ended

end

theorem uiomove_dead (n : Word) {dead live : List Iovec} (empty : ∀ iov ∈ dead, iov.iovLen = 0) {uio : Uio}
    (shape : uio.uioIov = dead ++ live) (more : n > 0 ∧ uio.uioResid ≠ 0) :
    uiomove n uio = uiomove n {uio with uioIov := live} := by
  induction dead generalizing uio with
  | nil =>
    rw [List.nil_append] at shape
    rw [← shape]
  | cons iov dead ih =>
    rw [uiomove,if_pos more]
    split
    · next none => rw [none] at shape; cases shape
    next first rest same =>
    rw [same] at shape
    obtain ⟨rfl,rfl⟩ := List.cons.inj shape
    rw [if_pos (empty _ (by simp))]
    exact ih (fun v member => empty v (by simp [member])) rfl more

theorem uiomove_whole {iov : Iovec} {rest : List Iovec} {uio : Uio} (shape : uio.uioIov = iov :: rest)
    (some : uio.uioResid ≠ 0) (full : iov.iovLen ≠ 0) : uiomove iov.iovLen uio = .ok (uio.move iov rest iov.iovLen) := by
  have more : iov.iovLen > 0 := by bv_omega
  rw [uiomove,if_pos ⟨more,some⟩]
  split
  · next none => rw [none] at shape; cases shape
  next first others same =>
  rw [same] at shape
  obtain ⟨rfl,rfl⟩ := List.cons.inj shape
  have nothing : ¬ (first.iovLen - first.iovLen > 0) := by bv_omega
  rw [if_neg full,if_neg (by bv_omega),uiomove,if_neg (fun later => nothing later.1)]

theorem reaches_outside : ∀ (live : List Iovec) (dead : List Iovec) (uio : Uio), (∀ iov ∈ dead, iov.iovLen = 0) →
    uio.uioIov = dead ++ live → ¬ Within uio.uioResid live →
    ∃ moves t, run step uio moves = .ok t ∧ ¬ Inside t.touched
  | [],_,_,_,_,outside => absurd trivial outside
  | iov :: rest,dead,uio,empty,shape,outside => by
    rw [Within,not_or,not_and_or] at outside
    obtain ⟨some,outside⟩ := outside
    by_cases zero : iov.iovLen = 0
    · have later : ¬ Within uio.uioResid rest := by
        rcases outside with bad | later
        · exact absurd (by simp [zero,bytes,Inside]) bad
        · simpa [zero] using later
      apply reaches_outside rest (dead ++ [iov]) uio _ _ later
      · intro v member
        rcases List.mem_append.mp member with old | new
        · exact empty v old
        rw [List.mem_singleton.mp new]
        exact zero
      · simp [shape]
    have more : iov.iovLen > 0 := by bv_omega
    have moved : step uio (.uiomove iov.iovLen) = .ok ({uio with uioIov := iov :: rest}.move iov rest iov.iovLen) := by
      rw [step,uiomove_dead iov.iovLen empty shape ⟨more,some⟩]
      exact uiomove_whole rfl some zero
    by_cases bad : Inside (bytes iov.iovBase iov.iovLen.toNat)
    · have later := outside.resolve_left (not_not.mpr bad)
      obtain ⟨moves,t,ended,out⟩ := reaches_outside rest [⟨iov.iovBase + iov.iovLen,0⟩]
        ({uio with uioIov := iov :: rest}.move iov rest iov.iovLen) (by simp) (by simp [Uio.move]) later
      exact ⟨.uiomove iov.iovLen :: moves,t,by rw [run_cons_ok _ moved,ended],out⟩
    refine ⟨[.uiomove iov.iovLen],_,run_cons_ok [] moved,?_⟩
    intro inside
    apply bad
    intro a member
    exact inside a (List.mem_append.mpr (.inr member))

section

def total (iovs : List Iovec) : Word := iovs.foldl (fun total iov => total + iov.iovLen) 0

def Request.vectors (word : Word → Word) : Request → List Iovec
  | .read cbuf count => [⟨cbuf,count⟩]
  | .write cbuf count => [⟨cbuf,count⟩]
  | .readv iovp iovcnt => iovecs word iovp iovcnt.toNat
  | .writev iovp iovcnt => iovecs word iovp iovcnt.toNat

def Request.rw : Request → Rw
  | .read _ _ => .read
  | .write _ _ => .write
  | .readv _ _ => .read
  | .writev _ _ => .write

def Opened (fp : Option File) : Rw → Prop
  | .read => ∃ f, fp = some f ∧ f.fread = true
  | .write => ∃ f, fp = some f ∧ f.fwrite = true

def Request.Readable : Request → Prop
  | .read _ _ => True
  | .write _ _ => True
  | .readv iovp iovcnt => iovcnt ≤ 16 ∧ baduaddr iovp = false ∧ baduaddr (iovp + iovcnt * 8 - 1) = false
  | .writev iovp iovcnt => iovcnt ≤ 16 ∧ baduaddr iovp = false ∧ baduaddr (iovp + iovcnt * 8 - 1) = false

theorem baduaddr_false {addr : Word} : baduaddr addr = false ↔
    (0x9d030000 ≤ addr.toNat ∧ addr.toNat < 0x9d080000) ∨ 0x7f008000 ≤ addr.toNat ∧ addr.toNat < 0x7f020000 := by
  rw [baduaddr]
  simp only [userFlashStart,userFlashEnd,userDataStart,userDataEnd,ge_iff_le,BitVec.le_def,BitVec.lt_def]
  simp only [BitVec.reduceMul,BitVec.reduceAdd,BitVec.reduceToNat]
  split_ifs <;> simp <;> omega

variable {iovp iovcnt : Word} {fp : Option File}

theorem array_inside (few : iovcnt ≤ 16) (first : baduaddr iovp = false)
    (last : baduaddr (iovp + iovcnt * 8 - 1) = false) : Inside (bytes iovp (iovcnt * 8).toNat) := by
  intro a member
  obtain ⟨i,small,rfl⟩ := mem_bytes.mp member
  rw [baduaddr_false] at first last ⊢
  bv_omega

theorem rwuio_opened (uio : Uio) (opened : Opened fp uio.uioRw) :
    rwuio fp uio = .ok {uio with uioResid := total uio.uioIov} := by
  cases way : uio.uioRw with
  | read | write =>
    rw [way] at opened
    obtain ⟨f,rfl,mode⟩ := opened
    simp [rwuio,way,mode,total]

theorem rwuio_closed (uio : Uio) (closed : ¬ Opened fp uio.uioRw) : rwuio fp uio = .error .ebadf := by
  cases fp with
  | none => rfl
  | some f =>
    cases way : uio.uioRw with
    | read =>
      have mode : f.fread = false := by
        by_contra opened
        rw [way] at closed
        exact closed ⟨f,rfl,by simpa using opened⟩
      simp [rwuio,way,mode]
    | write =>
      have mode : f.fwrite = false := by
        by_contra opened
        rw [way] at closed
        exact closed ⟨f,rfl,by simpa using opened⟩
      simp [rwuio,way,mode]

theorem readv_ok {word : Word → Word} {rw : Rw} (opened : Opened fp rw)
    (readable : iovcnt ≤ 16 ∧ baduaddr iovp = false ∧ baduaddr (iovp + iovcnt * 8 - 1) = false) :
    readv rw word fp iovp iovcnt = .ok ⟨iovecs word iovp iovcnt.toNat,0,total (iovecs word iovp iovcnt.toNat),rw,
      bytes iovp (iovcnt * 8).toNat⟩ := by
  rw [readv,if_neg (by bv_omega)]
  simp only [readable.2.1,readable.2.2,Bool.false_eq_true,or_self,if_false]
  exact rwuio_opened _ opened

theorem readv_error {word : Word → Word} {rw : Rw} (refused : ¬ (Opened fp rw ∧
    iovcnt ≤ 16 ∧ baduaddr iovp = false ∧ baduaddr (iovp + iovcnt * 8 - 1) = false)) :
    ∃ e, readv rw word fp iovp iovcnt = .error e := by
  rw [readv]
  split
  · exact ⟨_,rfl⟩
  next few =>
  dsimp only
  split
  · exact ⟨_,rfl⟩
  next good =>
  refine ⟨_,rwuio_closed _ ?_⟩
  intro opened
  apply refused
  simp only [not_or,Bool.not_eq_true] at good
  exact ⟨opened,by bv_omega,good⟩

theorem request_ok (word : Word → Word) {r : Request} (opened : Opened fp r.rw) (readable : r.Readable) :
    ∃ uio, request word fp r = .ok uio ∧ uio.uioIov = r.vectors word ∧ uio.uioResid = total (r.vectors word) ∧
    Inside uio.touched := by
  cases r with
  | read cbuf count =>
    have ok := rwuio_opened ⟨[⟨cbuf,count⟩],0,0,.read,[]⟩ opened
    exact ⟨_,ok,rfl,rfl,by simp [Inside]⟩
  | write cbuf count =>
    have ok := rwuio_opened ⟨[⟨cbuf,count⟩],0,0,.write,[]⟩ opened
    exact ⟨_,ok,rfl,rfl,by simp [Inside]⟩
  | readv iovp iovcnt | writev iovp iovcnt =>
    exact ⟨_,readv_ok opened readable,rfl,rfl,array_inside readable.1 readable.2.1 readable.2.2⟩

theorem request_error (word : Word → Word) {r : Request} (refused : ¬ (Opened fp r.rw ∧ r.Readable)) :
    ∃ e, request word fp r = .error e := by
  cases r with
  | read cbuf count =>
    have failed := rwuio_closed ⟨[⟨cbuf,count⟩],0,0,.read,[]⟩ fun opened => refused ⟨opened,trivial⟩
    exact ⟨_,failed⟩
  | write cbuf count =>
    have failed := rwuio_closed ⟨[⟨cbuf,count⟩],0,0,.write,[]⟩ fun opened => refused ⟨opened,trivial⟩
    exact ⟨_,failed⟩
  | readv iovp iovcnt => exact readv_error refused
  | writev iovp iovcnt => exact readv_error refused

def Confined (word : Word → Word) (fp : Option File) (r : Request) : Prop :=
  ∀ uio, request word fp r = .ok uio → ∀ moves t, run step uio moves = .ok t → Inside t.touched

theorem confined_iff (word : Word → Word) (fp : Option File) (r : Request) : Confined word fp r ↔
    (Opened fp r.rw → r.Readable → Within (total (r.vectors word)) (r.vectors word)) := by
  constructor
  · intro confined opened readable
    obtain ⟨uio,ok,vectors,resid,-⟩ := request_ok word opened readable
    by_contra outside
    rw [← resid] at outside
    obtain ⟨moves,t,ended,out⟩ := reaches_outside (r.vectors word) [] uio (by simp) (by simpa using vectors) outside
    exact out (confined uio ok moves t ended)
  intro within uio ok moves t ended
  by_cases accepted : Opened fp r.rw ∧ r.Readable
  · obtain ⟨uio',ok',vectors,resid,touched⟩ := request_ok word accepted.1 accepted.2
    obtain rfl : uio' = uio := Except.ok.inj (ok'.symm.trans ok)
    apply run_within moves touched _ ended
    rw [vectors,resid]
    exact within accepted.1 accepted.2
  · obtain ⟨e,failed⟩ := request_error word accepted
    rw [failed] at ok
    cases ok

def Counter (pc : Word) (pbuf : Uprof) (counter : Word) : Prop := pbuf.prOff ≤ pc ∧ ∃ indx < pbuf.prSize,
  indx = ((pc - pbuf.prOff) * pbuf.prScale) >>> 16 ∧ counter = pbuf.prBase + 4 * indx

theorem addupc_iff (word : Word → Word) (pc : Word) (pbuf : Uprof) (ticks : Word) :
    Inside (addupc word pc pbuf ticks).2 ↔ ∀ counter, Counter pc pbuf counter → Inside (bytes counter 4) := by
  rw [addupc]
  split
  · next below =>
    simp only [Inside,List.not_mem_nil,false_imp_iff,implies_true,true_iff]
    rintro counter ⟨above,-⟩
    exact absurd above (by bv_omega)
  next above =>
  dsimp only
  split
  · next beyond =>
    simp only [Inside,List.not_mem_nil,false_imp_iff,implies_true,true_iff]
    rintro counter ⟨-,indx,inside,rfl,-⟩
    exact absurd inside (by bv_omega)
  next short =>
  constructor
  · rintro inside counter ⟨-,indx,-,rfl,rfl⟩
    exact inside
  intro all
  exact all _ ⟨by bv_omega,_,by bv_omega,rfl,rfl⟩

/-- A transfer stays inside the memory of the user for every driver if and only if
the vectors do that it can reach, and a tick of the profiling clock if and only if
the counter does that the program counter falls on. -/
theorem transfers_confined (word : Word → Word) (fp : Option File) (r : Request)
    (bufbase bufsize pcoffset pcscale pc ticks : Word) :
    (Confined word fp r ↔ (Opened fp r.rw → r.Readable → Within (total (r.vectors word)) (r.vectors word))) ∧
    (Inside (addupc word pc (profil bufbase bufsize pcoffset pcscale) ticks).2 ↔
      ∀ counter, Counter pc (profil bufbase bufsize pcoffset pcscale) counter → Inside (bytes counter 4)) :=
  ⟨confined_iff word fp r,addupc_iff word pc (profil bufbase bufsize pcoffset pcscale) ticks⟩

/-- `read` of one byte to the first address of the kernel's memory. -/
theorem read_kernel_outside : ¬ Confined (fun _ => 0) (some ⟨true,true⟩) (.read 0x80000000 1) := by
  rw [confined_iff]
  intro within
  have vectors := within ⟨_,rfl,rfl⟩ trivial
  have inside := (vectors.resolve_left (by decide)).1
  exact absurd (inside 0x80000000 (by decide)) (by decide)

end

end Retrobsd.Transfers
