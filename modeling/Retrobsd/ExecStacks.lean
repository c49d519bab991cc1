import Retrobsd.ExecCopies
import Retrobsd.SignalCalls

/-! The stack that a program gets: its arguments and its environment, as the caller of
`execve` passed them or with what a script puts first. -/
namespace Retrobsd.ExecCalls
open Function (update update_of_ne)
open ExecArguments Lib.Pieces Transfers

variable {ι φ : Type} {w : World ι} {s : State ι φ} {r : Ready ι}

section
variable {args envs : List (List Byte)} {text : List Byte}

/-- What a program finds: the numbers of its arguments, and their strings and those of the
environment, all of it in the stack of the process. -/
structure Stacked (p : Proc ι φ) (args envs : List (List Byte)) : Prop where
  argc : p.regs .r4 = BitVec.ofNat 32 args.length
  argv : Pointers p.mem p.pSaddr.toNat dataEnd (p.regs .r5).toNat args
  env : Pointers p.mem p.pSaddr.toNat dataEnd (p.regs .r6).toNat envs
  stack : p.pSaddr.toNat + p.pSsize.toNat = dataEnd
  below : p.pSaddr.toNat ≤ (p.regs .sp).toNat ∧ (p.regs .sp).toNat ≤ (p.regs .r5).toNat
  inside : (p.regs .r5).toNat + 4 * (args.length + 1) ≤ (p.regs .r6).toNat ∧ (p.regs .r6).toNat + 4 * (envs.length + 1) ≤ dataEnd

theorem length_flatten {ts : List (List Byte)} (terminated : ∀ t ∈ ts, Terminated 0 t) : ts.length ≤ ts.flatten.length := by
  induction ts with
  | nil => exact Nat.le_refl 0
  | cons t ts ih =>
    have more := List.length_pos_of_ne_nil (terminated t List.mem_cons_self).ne_nil
    have rest := ih fun u member => terminated u (List.mem_cons_of_mem t member)
    rw [List.length_cons,List.flatten_cons,List.length_append]
    omega

theorem execsigsLoop_total (turns : Nat) {p : Signals.Proc ι} (few : (Signals.signals p.pSigcatch).card ≤ turns) :
    ∃ q, Signals.execsigsLoop turns p = .ok q := by
  induction turns generalizing p with
  | zero =>
    have none : p.pSigcatch = 0 := by
      rw [Signals.mask_eq_zero]
      intro sig first last
      by_contra set
      rw [Bool.not_eq_false] at set
      have member : sig ∈ Signals.signals p.pSigcatch := Signals.mem_signals.mpr ⟨⟨first,last⟩,set⟩
      rw [Finset.card_eq_zero.mp (Nat.le_zero.mp few)] at member
      simp at member
    exact ⟨p,by rw [Signals.execsigsLoop,if_pos none]⟩
  | succ turns ih =>
    by_cases none : p.pSigcatch = 0
    · exact ⟨p,by rw [Signals.execsigsLoop,if_pos none]⟩
    obtain ⟨low,last,set⟩ := Signals.ffs_spec none
    obtain ⟨q,ok⟩ := ih (p := p.reset (Signals.ffs p.pSigcatch)) (by
      rw [Signals.reset_signals p low,Finset.card_erase_of_mem (Signals.mem_signals.mpr ⟨⟨low,last⟩,set⟩)]
      omega)
    exact ⟨q,by rw [Signals.execsigsLoop,if_neg none,ok]⟩

theorem execsigs_total (p : Signals.Proc ι) : ∃ q, Signals.execsigs p = .ok q := by
  obtain ⟨q,ok⟩ := execsigsLoop_total 32 (p := p) (by
    apply (Finset.card_filter_le _ _).trans
    simp)
  exact ⟨_,by rw [Signals.execsigs,ok]; rfl⟩

theorem holds_going (holds : s.swap.Holds text) (ucp ap : Nat) (mem : Mem) :
    (Back.mk ucp ap 0 0 0 none s.swap mem).Going text := by
  refine ⟨fun _ => ⟨rfl,rfl⟩,nofun,nofun,fun k _ => holds.kept k,fun p _ byte there => ?_⟩
  obtain ⟨inside,rfl⟩ := List.getElem?_eq_some_iff.mp there
  exact spells_iff.mp holds.spells p inside

def arrays (args envs : List (List Byte)) (ap ucp : Nat) (m : Mem) : Mem :=
  store (rows envs (ap + 4 * args.length + 4) (ucp + args.flatten.length)
    (store (rows args ap ucp m) (ap + 4 * args.length) (wordBytes 0))) (ap + 4 * args.length + 4 + 4 * envs.length) (wordBytes 0)

theorem arrays_pointers (terminated : ∀ t ∈ args ++ envs, Terminated 0 t) (ap ucp low high : Nat) (m : Mem)
    (room : ap + 4 * args.length + 4 + 4 * envs.length + 4 ≤ ucp) (above : low ≤ ucp)
    (below : ucp + args.flatten.length + envs.flatten.length ≤ high) (small : high < 2^32) :
    Pointers (arrays args envs ap ucp m) low high ap args ∧
    Pointers (arrays args envs ap ucp m) low high (ap + 4 * args.length + 4) envs := by
  have four : (wordBytes 0).length = 4 := rfl
  have early : ∀ x, x < ap + 4 * args.length + 4 →
      arrays args envs ap ucp m x = store (rows args ap ucp m) (ap + 4 * args.length) (wordBytes 0) x := by
    intro x before
    unfold arrays
    rw [store_outside (.inl (by omega)),rows_outside envs (.inl before) (.inl (by omega))]
  constructor
  · refine rows_pointers (m := m) args _ _ (fun t member => terminated t (List.mem_append_left _ member))
      (by omega) above (by omega) small ?_ ?_ ?_
    · intro x after before
      rw [early x (by omega),store_outside (.inl before)]
    · intro x after before
      unfold arrays
      rw [store_outside (.inr (by omega)),rows_outside envs (.inr (by omega)) (.inl before),store_outside (.inr (by omega))]
    · rw [← word_store (m := rows args ap ucp m) (a := ap + 4 * args.length) (p := 0) (by decide)]
      exact word_congr fun x after before => early x before
  · refine rows_pointers (m := store (rows args ap ucp m) (ap + 4 * args.length) (wordBytes 0)) envs _ _
      (fun t member => terminated t (List.mem_append_right _ member)) (by omega) (by omega) below small
      ?_ ?_ (word_store (by decide))
    · exact fun x after before => store_outside (.inl before)
    · exact fun x after before => store_outside (.inr (by omega))

theorem finish_stacked (split : text = args.flatten ++ envs.flatten) (terminated : ∀ t ∈ args ++ envs, Terminated 0 t)
    (fits : text.length ≤ ncargs) (holds : s.swap.Holds text)
    (size : s.proc.pSsize = Stacks.ssize + nargc (rounded text.length) (args.length + envs.length))
    (start : s.proc.pSaddr = userDataEnd - s.proc.pSsize) :
    ∃ t, s.finish w r (rounded text.length) (args.length + envs.length) envs.length = .ok t ∧ Stacked t.proc args envs := by
  have length : text.length = args.flatten.length + envs.flatten.length := by rw [split,List.length_append]
  have few := length_flatten terminated
  rw [List.flatten_append,List.length_append,List.length_append] at few
  have data : dataEnd = 0x7f020000 := rfl
  generalize place : dataEnd - rounded text.length - 4 = ucp
  generalize array : ucp - (args.length + envs.length) * 4 - 8 = ap
  have rounding : text.length ≤ rounded text.length ∧ rounded text.length < text.length + 4 := by unfold rounded; omega
  unfold ncargs at fits
  obtain ⟨signals,defaults⟩ := execsigs_total s.proc.signals
  obtain ⟨c,copied,last,mem⟩ := copyback_spec (o := w.others) args envs split rfl terminated
    (holds_going holds ucp ap (store s.proc.mem (dataEnd - 4) (wordBytes ap))) (by unfold ncargs; omega)
  unfold State.finish
  dsimp only
  rw [place,array,Nat.add_comm args.length,copied]
  dsimp only
  rw [defaults]
  refine ⟨_,rfl,?_⟩
  have ss : s.proc.pSsize.toNat = 2048 + rounded text.length + (args.length + envs.length + 4) * 4 := by
    rw [size]
    unfold Stacks.ssize nargc
    rw [BitVec.toNat_add,BitVec.toNat_ofNat,BitVec.toNat_ofNat]
    omega
  have saddr : s.proc.pSaddr.toNat = dataEnd - s.proc.pSsize.toNat := by
    rw [start]
    have limit : userDataEnd.toNat = 0x7f020000 := rfl
    rw [BitVec.toNat_sub_of_le (by rw [BitVec.le_def]; omega)]
    rfl
  have final : (c.pointer 0).mem = arrays args envs ap ucp (store s.proc.mem (dataEnd - 4) (wordBytes ap)) := by
    unfold arrays
    rw [← mem,← last]
    rfl
  have r5 : (BitVec.ofNat 32 ap).toNat = ap := by rw [BitVec.toNat_ofNat]; omega
  have r6 : (BitVec.ofNat 32 (ap + (envs.length + args.length - envs.length + 1) * 4)).toNat = ap + 4 * args.length + 4 := by
    rw [BitVec.toNat_ofNat]; omega
  have sp : (BitVec.ofNat 32 ((ap - 16) / 16 * 16)).toNat = (ap - 16) / 16 * 16 := by rw [BitVec.toNat_ofNat]; omega
  have both := arrays_pointers terminated ap ucp s.proc.pSaddr.toNat dataEnd (store s.proc.mem (dataEnd - 4) (wordBytes ap))
    (by omega) (by omega) (by omega) (by rw [data]; decide)
  rw [← final] at both
  refine ⟨?_,?_,?_,?_,?_,?_⟩
  · change BitVec.ofNat 32 (envs.length + args.length - envs.length) = _
    rw [Nat.add_sub_cancel_left]
  · change Pointers _ _ _ (BitVec.ofNat 32 ap).toNat _
    rw [r5]
    exact both.1
  · change Pointers _ _ _ (BitVec.ofNat 32 (ap + (envs.length + args.length - envs.length + 1) * 4)).toNat _
    rw [r6]
    exact both.2
  · change s.proc.pSaddr.toNat + s.proc.pSsize.toNat = _
    omega
  · change s.proc.pSaddr.toNat ≤ (BitVec.ofNat 32 ((ap - 16) / 16 * 16)).toNat ∧
      (BitVec.ofNat 32 ((ap - 16) / 16 * 16)).toNat ≤ (BitVec.ofNat 32 ap).toNat
    rw [sp,r5]
    omega
  · change (BitVec.ofNat 32 ap).toNat + _ ≤ (BitVec.ofNat 32 (ap + (envs.length + args.length - envs.length + 1) * 4)).toNat ∧
      (BitVec.ofNat 32 (ap + (envs.length + args.length - envs.length + 1) * 4)).toNat + _ ≤ _
    rw [r5,r6]
    omega

end

variable {ts : List (List Byte)}

section
variable {x : Source} {c d : Cursor} {us : List (List Byte)}

theorem pickArg_counts (x : Source) (c : Cursor) : (pickArg x c).2.na = c.na ∧ (pickArg x c).2.ne = c.ne := by
  unfold pickArg nextArg
  split <;> split_ifs <;> exact ⟨rfl,rfl⟩

theorem nextEnv_counts (x : Source) (c : Cursor) :
    (nextEnv x c).2.na = c.na ∧ c.ne ≤ (nextEnv x c).2.ne ∧ (nextEnv x c).2.ne ≤ c.ne + 1 ∧
      ((nextEnv x c).1.isNull → (nextEnv x c).2.ne = c.ne) := by
  unfold nextEnv
  dsimp only
  split_ifs with array null
  · refine ⟨rfl,Nat.le_succ _,Nat.le_refl _,fun absurdly => ?_⟩
    simp [Pick.isNull,null] at absurdly
  · exact ⟨rfl,Nat.le_refl _,Nat.le_succ _,fun _ => rfl⟩
  · exact ⟨rfl,Nat.le_refl _,Nat.le_succ _,fun _ => rfl⟩

theorem pick_counts (x : Source) (c : Cursor) :
    (pick x c).2.na = c.na ∧ c.ne ≤ (pick x c).2.ne ∧ (pick x c).2.ne ≤ c.ne + 1 ∧
    ((pick x c).1.isNull → (pick x c).2.ne = c.ne) := by
  obtain ⟨na,ne⟩ := pickArg_counts x c
  have env := nextEnv_counts x (pickArg x c).2
  rw [na,ne] at env
  unfold pick
  dsimp only
  split_ifs with null
  · exact env
  · exact ⟨na,by omega,by omega,fun absurdly => absurd absurdly null⟩

theorem choose_counts (x : Source) (c : Cursor) :
    (∀ src, (choose x c).1 = .string src → (choose x c).2.na = c.na + 1 ∧ c.ne ≤ (choose x c).2.ne ∧
    (choose x c).2.ne ≤ c.ne + 1) ∧
      ((choose x c).1 = .null → (choose x c).2.na = c.na ∧ (choose x c).2.ne = c.ne) := by
  obtain ⟨na,low,high,null⟩ := pick_counts x c
  unfold choose
  dsimp only
  generalize pick x c = p at na low high null
  obtain ⟨src | ap,d⟩ := p
  · dsimp only at *
    exact ⟨fun _ _ => by omega,nofun⟩
  dsimp only at *
  split_ifs with none fault
  · exact ⟨nofun,fun _ => ⟨na,null (by simp [Pick.isNull,none])⟩⟩
  · exact ⟨nofun,nofun⟩
  · exact ⟨fun _ _ => by dsimp only; omega,nofun⟩

theorem chosen_counts (chosen : Chosen x c ts d) : d.na = c.na + ts.length ∧ c.ne ≤ d.ne ∧ d.ne ≤ c.ne + ts.length := by
  induction ts generalizing c with
  | nil => cases chosen; simp
  | cons t ts ih =>
    obtain ⟨src,e,first,-,-,rest⟩ := chosen
    obtain ⟨na,low,high⟩ := (choose_counts x c).1 src (by rw [first])
    rw [first] at na low high
    have counts := ih rest
    rw [List.length_cons]
    dsimp only at na low high
    omega

theorem chosen_terminated (chosen : Chosen x c ts d) : ∀ t ∈ ts, Terminated 0 t := by
  induction ts generalizing c with
  | nil => nofun
  | cons t ts ih =>
    obtain ⟨src,e,-,terminated,-,rest⟩ := chosen
    rintro u (_ | ⟨_,member⟩)
    · exact terminated
    · exact ih rest u member

theorem chosen_append {e : Cursor} (chosen : Chosen x c ts d) (rest : Chosen x d us e) : Chosen x c (ts ++ us) e := by
  induction ts generalizing c with
  | nil => cases chosen; exact rest
  | cons t ts ih =>
    obtain ⟨src,f,first,terminated,spells,more⟩ := chosen
    exact ⟨src,f,first,terminated,spells,ih more⟩

def Past (x : Source) (c : Cursor) : Prop := ∀ script, x.script = some script → 3 ≤ c.na ∨ c.na = 2 ∧ script.cfarg 0 = 0

theorem Past.pickArg (past : Past x c) : pickArg x c = nextArg x c := by
  unfold ExecArguments.pickArg
  cases found : x.script with
  | none => rfl
  | some script =>
    have after := past script found
    dsimp only
    rw [if_neg (by omega),if_neg (by omega),if_neg]
    rintro (first | ⟨second,arg⟩)
    · omega
    obtain after | ⟨-,zero⟩ := after
    · omega
    · exact arg zero

theorem Past.later (past : Past x c) (more : c.na ≤ d.na) : Past x d := by
  intro script found
  obtain after | ⟨after,zero⟩ := past script found
  · exact .inl (by omega)
  by_cases same : d.na = 2
  · exact .inr ⟨same,zero⟩
  · exact .inl (by omega)

theorem chosen_split {e : Cursor} {bad : Bool} (chosen : Chosen x c ts d) (all : Chosen x c us e) (ends : Ends x e bad) :
    ∃ more, us = ts ++ more ∧ Chosen x d more e := by
  induction ts generalizing c us with
  | nil =>
    subst chosen
    exact ⟨us,rfl,all⟩
  | cons t ts ih =>
    obtain ⟨src,f,first,terminated,spells,rest⟩ := chosen
    cases us with
    | nil =>
      subst all
      exact absurd (by rw [first]) ends.not_string
    | cons u us =>
      obtain ⟨src',f',first',terminated',spells',rest'⟩ := all
      cases first.symm.trans first'
      obtain ⟨more,rfl,chosen⟩ := ih rest rest'
      exact ⟨more,by rw [terminated.unique spells terminated' spells']; rfl,chosen⟩

theorem choose_sharg {src : Nat → Byte} (picked : pickArg x c = (.sharg src,d)) :
    choose x c = (.string src,{d with na := d.na + 1}) := by
  have same : pick x c = (.sharg src,d) := by
    unfold pick
    rw [picked]
    rfl
  unfold choose
  rw [same]

theorem choose_ap {p : Nat} (picked : pickArg x c = (.ap p,d)) (some : 1 ≤ p) (valid : p < 2^32 - 1) :
    choose x c = (.string (skip p x.mem),{d with na := d.na + 1}) := by
  have same : pick x c = (.ap p,d) := by
    unfold pick
    rw [picked]
    exact if_neg (by simp only [Pick.isNull,beq_iff_eq]; omega)
  unfold choose
  rw [same]
  dsimp only
  rw [if_neg (by omega),if_neg (by omega)]

section
variable (past : Past x c)
include past

theorem choose_arg {p : Nat} (array : c.argp ≠ 0) (pointer : word x.mem c.argp = p) (some : 1 ≤ p) (valid : p < 2^32 - 1) :
    choose x c = (.string (skip p x.mem),{c with argp := c.argp + 4,na := c.na + 1}) := by
  have picked : pickArg x c = (.ap p,{c with argp := c.argp + 4}) := by
    rw [past.pickArg,nextArg,if_pos array,pointer]
  exact choose_ap picked some valid

def Over (x : Source) (c : Cursor) : Prop := c.argp = 0 ∨ word x.mem c.argp = 0

theorem pick_over (beyond : Over x c) : ∃ argp, pick x c = nextEnv x {c with argp} := by
  unfold pick
  rw [past.pickArg,nextArg]
  split_ifs with array
  · rw [beyond.resolve_left array]
    exact ⟨_,rfl⟩
  · exact ⟨c.argp,rfl⟩

theorem choose_env {p : Nat} (beyond : Over x c) (array : c.envp ≠ 0) (pointer : word x.mem c.envp = p) (some : 1 ≤ p)
    (valid : p < 2^32 - 1) :
    choose x c = (.string (skip p x.mem),{c with argp := 0,envp := c.envp + 4,ne := c.ne + 1,na := c.na + 1}) := by
  obtain ⟨argp,same⟩ := pick_over past beyond
  have next : nextEnv x {c with argp} = (.ap p,{c with argp := 0,envp := c.envp + 4,ne := c.ne + 1}) := by
    unfold nextEnv
    rw [if_pos array]
    dsimp only
    rw [pointer,if_pos (by omega)]
  unfold choose
  rw [same,next]
  dsimp only
  rw [if_neg (by omega),if_neg (by omega)]

theorem choose_over (beyond : Over x c) (last : c.envp = 0 ∨ word x.mem c.envp = 0) : (choose x c).1 = .null := by
  obtain ⟨argp,same⟩ := pick_over past beyond
  have next : (nextEnv x {c with argp}).1 = .ap 0 := by
    unfold nextEnv
    dsimp only
    split_ifs with array null
    · exact absurd (last.resolve_left array) null
    · rfl
    · rfl
  unfold choose
  dsimp only
  rw [same,next]
  rfl

theorem chosen_args (array : c.argp ≠ 0) (pointers : Pointers x.mem 1 (2^32 - 1) c.argp ts) :
    ∃ d, Chosen x c ts d ∧ Past x d ∧ Over x d ∧ d.ne = c.ne ∧ d.envp = c.envp := by
  induction ts generalizing c with
  | nil => exact ⟨c,rfl,past,.inr pointers,rfl,rfl⟩
  | cons t ts ih =>
    obtain ⟨some,valid,terminated,spells,rest⟩ := pointers
    have more := List.length_pos_of_ne_nil terminated.ne_nil
    have first := choose_arg past array rfl some (by omega)
    obtain ⟨d,chosen,past',beyond,ne,envp⟩ :=
      ih (c := {c with argp := c.argp + 4,na := c.na + 1}) (past.later (Nat.le_succ _)) (by simp) rest
    exact ⟨d,⟨_,_,first,terminated,spells,chosen⟩,past',beyond,ne,envp⟩

theorem chosen_envs (beyond : Over x c) (pointers : c.envp = 0 ∧ us = [] ∨ c.envp ≠ 0 ∧ Pointers x.mem 1 (2^32 - 1) c.envp us) :
    ∃ d, Chosen x c us d ∧ Ends x d false ∧ d.ne = c.ne + us.length := by
  induction us generalizing c with
  | nil =>
    refine ⟨c,rfl,choose_over past beyond ?_,rfl⟩
    obtain ⟨none,-⟩ | ⟨-,last⟩ := pointers
    · exact .inl none
    · exact .inr last
  | cons t us ih =>
    obtain ⟨-,absurdly⟩ | ⟨array,some,valid,terminated,spells,rest⟩ := pointers
    · cases absurdly
    have more := List.length_pos_of_ne_nil terminated.ne_nil
    have first := choose_env past beyond array rfl some (by omega)
    obtain ⟨d,chosen,ends,ne⟩ := ih (c := {c with argp := 0,envp := c.envp + 4,ne := c.ne + 1,na := c.na + 1})
      (past.later (Nat.le_succ _)) (.inl rfl) (.inr ⟨by simp,rest⟩)
    refine ⟨d,⟨_,_,first,terminated,spells,chosen⟩,ends,ne.trans ?_⟩
    rw [List.length_cons]
    dsimp only
    omega

end

end

def spelled (src : Nat → Byte) (within : Nat) : List Byte := (piece 0 src within).1

theorem spelled_spec {src : Nat → Byte} {within : Nat} (ends : ∃ i < within, src i = 0) :
    Terminated 0 (spelled src within) ∧ Spells src (spelled src within) := by
  obtain ⟨spells,-,⟨-,terminated⟩ | ⟨-,full,fresh⟩⟩ := piece_spec 0 src within
  · exact ⟨terminated,spells⟩
  obtain ⟨i,inside,zero⟩ := ends
  rw [spells_iff] at spells
  have member := List.getElem_mem (l := (piece 0 src within).1) (n := i) (by omega)
  rw [← spells i (by omega),zero] at member
  exact absurd member fresh

theorem advance_le {p : Byte → Bool} (turns : Nat) {e : Nat → Byte} {cp last : Nat} (stops : p (e last) = false)
    (before : cp ≤ last) :
    advance p turns e cp ≤ last := by
  induction turns generalizing cp with
  | zero => exact before
  | succ turns ih =>
    unfold advance
    split_ifs with goes
    · refine ih (Nat.lt_of_le_of_ne before fun same => ?_)
      rw [same,stops] at goes
      cases goes
    · exact before

theorem endLine_le (turns : Nat) (e : Nat → Byte) (cp : Nat) :
    cp ≤ (endLine turns e cp).2 ∧ (endLine turns e cp).2 ≤ cp + turns := by
  induction turns generalizing e cp with
  | zero => exact ⟨Nat.le_refl _,Nat.le_refl _⟩
  | succ turns ih =>
    unfold endLine
    split_ifs
    · have rest := ih (update e cp 32) (cp + 1)
      omega
    · exact ⟨Nat.le_refl _,Nat.le_add_right _ _⟩
    · have rest := ih e (cp + 1)
      omega

theorem parseLine_ends {e rest : Nat → Byte} {line : Line} (parsed : parseLine e = some (line,rest)) :
    ∃ i < shsize + 1, line.cfarg i = 0 := by
  unfold parseLine at parsed
  have bounds := endLine_le (shsize - 2) e 2
  generalize endLine (shsize - 2) e 2 = p at parsed bounds
  obtain ⟨e,last⟩ := p
  dsimp only at parsed bounds
  by_cases open_ended : e last = 0
  · rw [if_neg (by simpa using open_ended)] at parsed
    have dirp : advance (· == 32) shsize e 2 ≤ last := advance_le shsize (by rw [open_ended]; rfl) bounds.1
    have name : advance (fun b => b != 0 && b != 32) shsize e (advance (· == 32) shsize e 2) ≤ last :=
      advance_le shsize (by rw [open_ended]; rfl) dirp
    generalize advance (fun b => b != 0 && b != 32) shsize e (advance (· == 32) shsize e 2) = cp at parsed name
    by_cases bare : e cp = 0
    · rw [if_pos bare] at parsed
      cases parsed
      exact ⟨0,by decide,rfl⟩
    rw [if_neg bare] at parsed
    have inside : cp < last := Nat.lt_of_le_of_ne name fun same => bare (by rw [same]; exact open_ended)
    have zero : update e cp 0 last = 0 := by rw [update_of_ne (by omega)]; exact open_ended
    have arg : advance (· == 32) shsize (update e cp 0) (cp + 1) ≤ last := advance_le shsize (by rw [zero]; rfl) inside
    generalize advance (· == 32) shsize (update e cp 0) (cp + 1) = start at parsed arg
    cases parsed
    dsimp only
    split
    · exact ⟨0,by decide,rfl⟩
    refine ⟨last - start,by unfold shsize at *; omega,?_⟩
    unfold skip
    rw [Nat.add_sub_cancel' arg]
    exact zero
  · rw [if_pos open_ended] at parsed
    cases parsed

def Ended (script : Script) : Prop := (∃ i < maxcomlen + 1, script.cfname i = 0) ∧ ∃ i < shsize + 1, script.cfarg i = 0

theorem comName_end (dName : Nat → Byte) : comName dName maxcomlen = 0 := if_neg (Nat.lt_irrefl _)

theorem shell_ended {exdata : Nat → Byte} {found : Inode ι × (Nat → Byte) × Script}
    (shell : w.shell exdata = .ok found) : Ended found.2.2 := by
  unfold World.shell at shell
  split_ifs at shell
  split at shell
  · cases shell
  next line rest parsed =>
  split at shell
  · cases shell
  next ip dName _ =>
  split at shell
  · cases shell
  split_ifs at shell
  cases shell
  exact ⟨⟨maxcomlen,Nat.lt_succ_self _,comName_end dName⟩,parseLine_ends parsed⟩

theorem prepare_ended {uid gid : Nat} (prepared : w.prepare uid gid = .ok r) :
    ∀ script, r.script = some script → Ended script := by
  intro script found
  unfold World.prepare at prepared
  split at prepared
  · cases prepared
  dsimp only at prepared
  split at prepared
  · cases prepared
  split at prepared
  · cases prepared
  split at prepared
  · cases prepared
    cases found
  next exdata _ _ =>
  cases shell : w.shell exdata with
  | error error =>
    rw [shell] at prepared
    cases prepared
  | ok result =>
    rw [shell] at prepared
    cases prepared
    cases found
    exact shell_ended shell

def puts (script : Script) (path : List Byte) : List (List Byte) :=
  spelled script.cfname (maxcomlen + 1) :: (if script.cfarg 0 = 0 then [path] else [spelled script.cfarg (shsize + 1),path])

theorem chosen_script {x : Source} {script : Script} {path : List Byte} (found : x.script = some script) (ended : Ended script)
    (some : 1 ≤ x.fname) (valid : x.fname < 2^32 - 1) (terminated : Terminated 0 path)
    (spells : Spells (skip x.fname x.mem) path)
    (argp envp : Nat) :
    ∃ d, Chosen x ⟨0,0,argp,envp⟩ (puts script path) d ∧ Past x d ∧ d.argp = argp + 4 ∧ d.ne = 0 ∧ d.envp = envp := by
  obtain ⟨named,name⟩ := spelled_spec ended.1
  obtain ⟨ends,arg⟩ := spelled_spec ended.2
  have first : pickArg x ⟨0,0,argp,envp⟩ = (.sharg script.cfname,⟨0,0,argp + 4,envp⟩) := by
    rw [pickArg,found]
    rfl
  unfold puts
  split_ifs with none
  · have second : pickArg x ⟨1,0,argp + 4,envp⟩ = (.ap x.fname,⟨1,0,argp + 4,envp⟩) := by
      rw [pickArg,found]
      dsimp only
      rw [if_neg (by decide),if_neg fun both => both.2 none,if_pos (.inl rfl)]
    refine ⟨⟨2,0,argp + 4,envp⟩,⟨_,_,choose_sharg first,named,name,_,_,choose_ap second some valid,terminated,spells,rfl⟩,
      fun other same => ?_,rfl,rfl,rfl⟩
    cases found.symm.trans same
    exact .inr ⟨rfl,none⟩
  have second : pickArg x ⟨1,0,argp + 4,envp⟩ = (.sharg script.cfarg,⟨1,0,argp + 4,envp⟩) := by
    rw [pickArg,found]
    dsimp only
    rw [if_neg (by decide),if_pos ⟨rfl,none⟩]
  have third : pickArg x ⟨2,0,argp + 4,envp⟩ = (.ap x.fname,⟨2,0,argp + 4,envp⟩) := by
    rw [pickArg,found]
    dsimp only
    rw [if_neg (by decide),if_neg fun both => absurd both.1 (by decide),if_pos (.inr ⟨rfl,none⟩)]
  exact ⟨⟨3,0,argp + 4,envp⟩,⟨_,_,choose_sharg first,named,name,_,_,choose_sharg second,ends,arg,_,_,
    choose_ap third some valid,terminated,spells,rfl⟩,fun other same => .inl (Nat.le_refl 3),rfl,rfl,rfl⟩

section
/-- The strings of a call: its arguments, the environment and the path of the file. A pointer is neither null
nor -1, and a string ends before the addresses do. -/
structure Passed (s : State ι φ) where
  args : List (List Byte)
  envs : List (List Byte)
  path : List Byte
  array : s.argp ≠ 0
  argv : Pointers s.proc.mem 1 (2^32 - 1) s.argp args
  env : s.envp = 0 ∧ envs = [] ∨ s.envp ≠ 0 ∧ Pointers s.proc.mem 1 (2^32 - 1) s.envp envs
  named : 1 ≤ s.fname ∧ s.fname + path.length ≤ 2^32 - 1 ∧ Terminated 0 path ∧ Spells (skip s.fname s.proc.mem) path

def arguments (script : Option Script) (args : List (List Byte)) (path : List Byte) : List (List Byte) :=
  match script with
  | none => args
  | some script => puts script path ++ args.tail

def Overrun (s : State ι φ) (p : Passed s) (r : Ready ι) : Prop :=
    r.script ≠ none ∧ p.args = [] ∧ word s.proc.mem (s.argp + 4) ≠ 0

variable {p : Passed s}

theorem Gathered.intro {x : Source} {argp envp : Nat} {args envs : List (List Byte)} {c d : Cursor} (array : argp ≠ 0)
    (first : Chosen x ⟨0,0,argp,envp⟩ args c) (even : c.ne = 0) (second : Chosen x c envs d) (ends : Ends x d false)
    (ne : d.ne = c.ne + envs.length) :
    Gathered x argp envp (args ++ envs) (args.length + envs.length) envs.length false := by
  refine ⟨fun none => absurd none array,fun _ => ⟨d,chosen_append first second,ends,?_,?_⟩⟩
  · have counts := chosen_counts (chosen_append first second)
    rw [((choose_counts x d).2 ends).1,counts.1,List.length_append]
    exact (Nat.zero_add _).symm
  · rw [((choose_counts x d).2 ends).2,ne,even,Nat.zero_add]

theorem gathered_spec (ended : ∀ script, r.script = some script → Ended script) (inside : ¬Overrun s p r) :
    Gathered ⟨s.proc.mem,s.fname,r.script⟩ s.argp s.envp (arguments r.script p.args p.path ++ p.envs)
      ((arguments r.script p.args p.path).length + p.envs.length) p.envs.length false := by
  obtain ⟨named,valid,terminated,spells⟩ := p.named
  have more := List.length_pos_of_ne_nil terminated.ne_nil
  cases found : r.script with
  | none =>
    obtain ⟨c,first,past,beyond,ne,envp⟩ :=
      chosen_args (x := ⟨s.proc.mem,s.fname,none⟩) (c := ⟨0,0,s.argp,s.envp⟩) nofun p.array p.argv
    obtain ⟨d,second,ends,ne'⟩ := chosen_envs past beyond (by rw [envp]; exact p.env)
    exact Gathered.intro p.array first ne second ends ne'
  | some script =>
    obtain ⟨c,first,past,argp,ne,envp⟩ := chosen_script (x := ⟨s.proc.mem,s.fname,some script⟩)
      rfl (ended script found) named (by dsimp only; omega) terminated spells s.argp s.envp
    have rest : ∃ d, Chosen ⟨s.proc.mem,s.fname,some script⟩ c p.args.tail d ∧ Past ⟨s.proc.mem,s.fname,some script⟩ d ∧
        Over ⟨s.proc.mem,s.fname,some script⟩ d ∧ d.ne = c.ne ∧ d.envp = c.envp := by
      cases args : p.args with
      | nil =>
        refine ⟨c,rfl,past,.inr ?_,rfl,rfl⟩
        rw [argp]
        by_contra word
        exact inside ⟨by rw [found]; nofun,args,word⟩
      | cons a as =>
        have argv := p.argv
        rw [args] at argv
        exact chosen_args past (by rw [argp]; omega) (by rw [argp]; exact argv.2.2.2.2)
    obtain ⟨d,middle,past',beyond,ne',envp'⟩ := rest
    obtain ⟨e,second,ends,ne''⟩ := chosen_envs past' beyond (by rw [envp',envp]; exact p.env)
    exact Gathered.intro p.array (chosen_append first middle) (ne'.trans ne) second ends ne''

theorem gathered_overrun (ended : ∀ script, r.script = some script → Ended script) (beyond : Overrun s p r)
    {na ne : Nat} (gathered : Gathered ⟨s.proc.mem,s.fname,r.script⟩ s.argp s.envp ts na ne false) :
    (arguments r.script p.args p.path).length < na - ne := by
  obtain ⟨named,valid,terminated,spells⟩ := p.named
  obtain ⟨scripted,none,more⟩ := beyond
  obtain ⟨script,found⟩ := Option.ne_none_iff_exists'.mp scripted
  have length := List.length_pos_of_ne_nil terminated.ne_nil
  rw [found] at gathered ⊢
  obtain ⟨c,first,past,argp,even,envp⟩ := chosen_script (x := ⟨s.proc.mem,s.fname,some script⟩)
    rfl (ended script found) named (by dsimp only; omega) terminated spells s.argp s.envp
  obtain ⟨d,all,ends,rfl,rfl⟩ := gathered.all p.array
  obtain ⟨us,rfl,rest⟩ := chosen_split first all ends
  have last := (choose_counts _ d).2 ends
  have before := chosen_counts first
  rw [last.1,last.2]
  have pointer : pickArg ⟨s.proc.mem,s.fname,some script⟩ c = (.ap (word s.proc.mem (s.argp + 4)),
    {c with argp := c.argp + 4}) := by
    rw [past.pickArg,nextArg,if_pos (by rw [argp]; omega),argp]
  have picked : pick ⟨s.proc.mem,s.fname,some script⟩ c = (.ap (word s.proc.mem (s.argp + 4)),{c with argp := c.argp + 4}) := by
    unfold pick
    rw [pointer]
    exact if_neg (by simpa [Pick.isNull] using more)
  have chosen : choose ⟨s.proc.mem,s.fname,some script⟩ c = if word s.proc.mem (s.argp + 4) = 2^32 - 1
      then (.fault,{c with argp := c.argp + 4,na := c.na + 1})
      else (.string (skip (word s.proc.mem (s.argp + 4)) s.proc.mem),{c with argp := c.argp + 4,na := c.na + 1}) := by
    unfold choose
    rw [picked]
    exact if_neg more
  cases us with
  | nil =>
    subst rest
    rw [Ends,chosen] at ends
    split at ends <;> cases ends
  | cons u us =>
    obtain ⟨src,f,next,-,-,rest⟩ := rest
    rw [chosen] at next
    split at next
    · cases next
    cases next
    have after := chosen_counts rest
    have number : (arguments (some script) p.args p.path).length = (puts script p.path).length := by simp [arguments,none]
    dsimp only at after before
    omega

section
variable {error : Nat}

theorem again_error {ip : Inode ι} {exdata : Nat → Byte} (refused : w.again ip exdata = .error error) : error ≠ 0 := by
  unfold World.again at refused
  split at refused
  · next error' found =>
    cases refused
    unfold World.refused at found
    split at found
    · next first =>
      cases found
      exact w.access_error _ _ _ first
    split at found
    · next second =>
      cases found
      split at second
      · exact w.access_error _ _ _ second
      · cases second
    · split_ifs at found
      cases found
      decide
  · dsimp only at refused
    split_ifs at refused
    cases refused
    decide

theorem load_ok (room : i.aData.toNat ≤ dataEnd - dataStart) (before : s.uError = 0) (right : ¬r.misread i) :
    ∃ t, s.load w r i = .ok t ∧ t.uError = 0 ∧ t.swap = s.swap ∧ t.proc.pSsize = i.ss ∧ t.proc.pSaddr = i.pSaddr := by
  cases loaded : s.load w r i with
  | error hang =>
    unfold State.load at loaded
    rw [if_neg (by omega)] at loaded
    cases loaded
  | ok t =>
    refine ⟨t,rfl,load_right loaded before right,?_⟩
    unfold State.load at loaded
    rw [if_neg (by omega)] at loaded
    cases loaded
    exact ⟨rfl,rfl,rfl⟩

theorem shell_error {exdata : Nat → Byte} (refused : w.shell exdata = .error error) : error ≠ 0 := by
  unfold World.shell at refused
  split_ifs at refused
  · cases refused
    decide
  split at refused
  · cases refused
    decide
  split at refused
  · next missing =>
    cases refused
    exact w.interpreter_error _ _ missing
  split at refused
  · next failed =>
    cases refused
    exact again_error failed
  split_ifs at refused
  cases refused
  decide

theorem prepare_error {uid gid : Nat} (refused : w.prepare uid gid = .error error) : error ≠ 0 := by
  unfold World.prepare at refused
  split at refused
  · next missing =>
    cases refused
    exact w.namei_error _ missing
  dsimp only at refused
  split at refused
  · cases refused
    decide
  split at refused
  · next failed =>
    cases refused
    exact again_error failed
  split at refused
  · cases refused
  next exdata _ _ =>
  cases shell : w.shell exdata with
  | error error' =>
    rw [shell] at refused
    cases refused
    exact shell_error shell
  | ok found =>
    rw [shell] at refused
    cases refused

variable [DecidableEq ι]

structure Runs (w : World ι) (s : State ι φ) (r : Ready ι) (ts : List (List Byte)) (na ne : Nat)
    (i : ExecImages.Image) : Prop where
  prepared : w.prepare s.proc.uUid s.proc.uGid = .ok r
  space : w.malloc ≠ none
  gathered : Gathered ⟨s.proc.mem,s.fname,r.script⟩ s.argp s.envp ts na ne false
  fits : ts.flatten.length ≤ ncargs
  loaded : w.image r (nargc (rounded ts.flatten.length) na) = .ok i
  room : i.aData.toNat ≤ dataEnd - dataStart
  right : ¬r.misread i

structure Loaded (s : State ι φ) (ts : List (List Byte)) (na : Nat) : Prop where
  holds : s.swap.Holds ts.flatten
  size : s.proc.pSsize = Stacks.ssize + nargc (rounded ts.flatten.length) na
  start : s.proc.pSaddr = userDataEnd - s.proc.pSsize
  right : s.uError = 0

variable {e : Entry ι φ} {t : State ι φ} {na ne : Nat} {i : ExecImages.Image}

theorem Runs.finish (runs : Runs w e.state r ts na ne i) :
    ∃ s, Loaded s ts na ∧ execve w e.state = s.finish w r (rounded ts.flatten.length) na ne := by
  obtain ⟨bno,space⟩ := Option.ne_none_iff_exists'.mp runs.space
  obtain ⟨c,result,begun,⟨us,bad,gathered,ready,whole,uError⟩ | ⟨-,-,long⟩⟩ :=
    collect_spec w.others ⟨e.state.proc.mem,e.state.fname,r.script⟩ e.state.argp e.state.envp e.clean
  · obtain ⟨rfl,rfl,rfl,rfl⟩ := runs.gathered.unique gathered
    obtain ⟨s,loaded,error,swap,size,start⟩ := load_ok (w := w)
      (s := {e.state with taken := some bno,swap := c.area.flush,uError := c.uError}) runs.room uError runs.right
    obtain ⟨-,-,image⟩ := ExecImages.getxfile_ok.mp runs.loaded
    refine ⟨s,⟨?_,?_,?_,error⟩,?_⟩
    · rw [swap]
      exact ready.flush begun
    · rw [size,image]
    · rw [start,size,image]
    unfold execve
    rw [runs.prepared,space]
    dsimp only
    rw [result]
    dsimp only
    unfold State.collected
    rw [if_neg (by rw [whole]; decide),ready.length]
    unfold State.commit State.getxfile
    rw [runs.loaded]
    dsimp only
    rw [loaded]
    dsimp only
    rw [if_neg (by rw [error]; decide)]
  · exact absurd (long ts na ne false runs.gathered) (by have := runs.fits; omega)

theorem image_error {nargc : Word} (refused : w.image r nargc = .error error) : error ≠ 0 := by
  unfold World.image ExecImages.getxfile at refused
  dsimp only at refused
  split_ifs at refused <;> cases refused <;> decide

theorem commit_success {nc : Nat} (done : s.commit w r nc na ne = .ok t) (success : t.uError = 0) :
    ∃ i, w.image r (nargc nc na) = .ok i ∧ i.aData.toNat ≤ dataEnd - dataStart ∧ s.uError = 0 ∧ ¬r.misread i := by
  unfold State.commit State.getxfile at done
  cases found : w.image r (nargc nc na) with
  | error error =>
    rw [found] at done
    dsimp only at done
    rw [if_pos (image_error found)] at done
    cases done
    exact absurd success (image_error found)
  | ok i =>
    rw [found] at done
    dsimp only at done
    by_cases room : i.aData.toNat ≤ dataEnd - dataStart
    · refine ⟨i,rfl,room,?_⟩
      by_contra wrong
      rw [not_and_or,not_not] at wrong
      obtain ⟨t',loaded,failed,-⟩ := load_same (w := w) room wrong
      rw [loaded] at done
      dsimp only at done
      rw [if_pos failed] at done
      cases done
      exact failed success
    · rw [load_wild (by omega)] at done
      cases done

theorem success_runs (done : execve w e.state = .ok t) (success : t.uError = 0) :
    ∃ r ts na ne i, Runs w e.state r ts na ne i := by
  unfold execve at done
  cases prepared : w.prepare e.state.proc.uUid e.state.proc.uGid with
  | error error =>
    rw [prepared] at done
    cases done
    exact absurd success (prepare_error prepared)
  | ok r =>
    rw [prepared] at done
    cases space : w.malloc with
    | none =>
      rw [space] at done
      cases done
      cases success
    | some bno =>
      rw [space] at done
      dsimp only at done
      obtain ⟨c,result,begun,⟨ts,bad,gathered,ready,whole,uError⟩ | ⟨-,refused,-⟩⟩ :=
        collect_spec w.others ⟨e.state.proc.mem,e.state.fname,r.script⟩ e.state.argp e.state.envp e.clean
      · rw [result] at done
        dsimp only at done
        unfold State.collected at done
        rw [if_neg (by rw [whole]; decide),ready.length] at done
        obtain ⟨i,loaded,room,before,right⟩ := commit_success done success
        cases bad
        · have small := ready.small
          have length := ready.length
          exact ⟨r,ts,c.na,c.ne,i,prepared,by rw [space]; nofun,gathered,by omega,loaded,room,right⟩
        · rw [uError] at before
          cases before
      · rw [result] at done
        dsimp only at done
        unfold State.collected at done
        rw [if_pos (by rw [refused]; decide)] at done
        cases done
        rw [refused] at success
        cases success

/-- After a call that succeeds the new stack has the arguments and the environment, exactly
where no script without arguments is called with another word after its array. -/
theorem stacked_iff (w : World ι) (e : Entry ι φ) (p : Passed e.state) :
    (∀ t r, execve w e.state = .ok t → t.uError = 0 → w.prepare e.state.proc.uUid e.state.proc.uGid = .ok r →
        Stacked t.proc (arguments r.script p.args p.path) p.envs) ↔
      ∀ r ts na ne i, Runs w e.state r ts na ne i → ¬Overrun e.state p r := by
  constructor
  · intro stacked r ts na ne i runs beyond
    have ended := prepare_ended runs.prepared
    have more := gathered_overrun ended beyond runs.gathered
    obtain ⟨d,chosen,ends,number,environment⟩ := runs.gathered.all p.array
    have counts := chosen_counts chosen
    have last := (choose_counts _ d).2 ends
    dsimp only at counts
    obtain ⟨args,envs,rfl,rest⟩ : ∃ args envs, ts = args ++ envs ∧ envs.length = ne :=
      ⟨ts.take (ts.length - ne),ts.drop (ts.length - ne),(List.take_append_drop _ _).symm,by rw [List.length_drop]; omega⟩
    have all : na = args.length + envs.length := by
      rw [List.length_append] at counts
      omega
    have terminated := chosen_terminated chosen
    have few := length_flatten terminated
    have fits := runs.fits
    subst all rest
    obtain ⟨s,loaded,result⟩ := runs.finish
    obtain ⟨t,finished,got⟩ := finish_stacked (w := w) (s := s) (r := r) List.flatten_append terminated
      runs.fits loaded.holds loaded.size loaded.start
    have right := stacked t r (result.trans finished) ((finish_error finished).trans loaded.right) runs.prepared
    have same := congrArg BitVec.toNat (got.argc.symm.trans right.argc)
    rw [BitVec.toNat_ofNat,BitVec.toNat_ofNat] at same
    rw [List.length_append] at few
    unfold ncargs at fits
    omega
  · intro free t r done success prepared
    obtain ⟨r',ts,na,ne,i,runs⟩ := success_runs done success
    cases prepared.symm.trans runs.prepared
    have ended := prepare_ended runs.prepared
    obtain ⟨rfl,rfl,rfl,-⟩ := runs.gathered.unique (gathered_spec ended (free r _ _ _ i runs))
    obtain ⟨d,chosen,-⟩ := runs.gathered.all p.array
    obtain ⟨s,loaded,result⟩ := runs.finish
    have size := loaded.size
    obtain ⟨t',finished,stacked⟩ := finish_stacked (w := w) (s := s) (r := r) List.flatten_append (chosen_terminated chosen)
      runs.fits loaded.holds size loaded.start
    rw [result,finished] at done
    cases done
    exact stacked

end

end

def scripted : World Unit := {around with
  namei := .ok (⟨(),0o100755,0,0,false,1,false,false,[0x23,0x21,0x2f,0x74,0x0a]⟩,fun _ => 0)
  interpreter := fun _ => .ok (⟨(),0o100755,0,0,false,1,false,false,tiny⟩,fun i => [0x74].getD i 0)
  namei_error := nofun
  interpreter_error := nofun}

def unargued : Entry Unit Unit := {caller with
  state := {caller.state with
    proc := {caller.state.proc with
      mem := fun a => [0,0,0,0,0x10,0x80,0,0x7f,0,0,0,0,0,0,0,0,0x78,0,0x73,0].getD (a - dataStart) 0}
    fname := dataStart + 18}}

def unarguedPassed : Passed unargued.state where
  args := []
  envs := []
  path := [0x73,0]
  array := by decide
  argv := by
    change word unargued.state.proc.mem unargued.state.argp = 0
    decide
  env := .inl ⟨rfl,rfl⟩
  named := ⟨by decide,by decide,⟨[0x73],rfl,by decide⟩,by decide,by decide,trivial⟩

theorem unargued_overrun : ∃ t r, execve scripted unargued.state = .ok t ∧ t.uError = 0 ∧
    scripted.prepare unargued.state.proc.uUid unargued.state.proc.uGid = .ok r ∧
    ¬Stacked t.proc (arguments r.script unarguedPassed.args unarguedPassed.path) unarguedPassed.envs := by
  have result : (execve scripted unargued.state).map (fun t => (t.uError,t.proc.regs .r4)) = .ok (0,3) := by decide +kernel
  have wanted : (scripted.prepare unargued.state.proc.uUid unargued.state.proc.uGid).map
      (fun r => (arguments r.script unarguedPassed.args unarguedPassed.path).length) = .ok 2 := by decide +kernel
  cases done : execve scripted unargued.state with
  | error hang =>
    rw [done] at result
    cases result
  | ok t =>
    cases prepared : scripted.prepare unargued.state.proc.uUid unargued.state.proc.uGid with
    | error error =>
      rw [prepared] at wanted
      cases wanted
    | ok r =>
      rw [done] at result
      rw [prepared] at wanted
      obtain ⟨fine,argc⟩ := Prod.mk.inj (Except.ok.inj result)
      refine ⟨t,r,rfl,fine,rfl,fun stacked => ?_⟩
      have two : (arguments r.script unarguedPassed.args unarguedPassed.path).length = 2 := Except.ok.inj wanted
      have same := argc.symm.trans stacked.argc
      rw [two] at same
      exact absurd same (by decide)

end Retrobsd.ExecCalls
