import Retrobsd.ProcessLists

/-! Runs of fork, exit and wait4: the lists, the chains and the numbers of the process
table stay in order, and every child gets a number of its own. -/
namespace Retrobsd.ProcessTable
open List
open Function
open Lib.Run Lib.Threads

variable {n : Nat} {s t : Table n} {a z f : List (Slot n)} {p : Slot n}

/-- The process table is in order: the three lists partition it, the chains hold the
processes on allproc other than the swapper, and the pids differ. -/
def Kept (s : Table n) : Prop := ∃ a z f, Tidy s a z f

def Scans (s : Table n) : Prop := s.pidchecked ≤ s.mpid + 1 ∨ 30000 ≤ s.mpid + 1

def Clear (s : Table n) : Op n → Prop
  | .fork _ _ => Scans s → ∀ m, Reached s.ids (s.mpid + 1) m → ¬ Neighbours s.ids m
  | _ => True

def Fresh (s t : Table n) : Prop := ∀ child ∈ t.known, child ∉ s.known →
  (∀ q ∈ s.known, t.pPid child ≠ s.pPid q) ∧ ∀ q ∈ s.listed .allproc, t.pPid child ≠ s.pPgrp q

def FreshAfter (s : Table n) (op : Op n) : Prop := ∀ t, step s op = .ok t → Fresh s t

theorem fresh_of_subset (known : ∀ p ∈ t.known, p ∈ s.known) :
    Fresh s t := fun child new absent => absurd (known child new) absent

theorem retry_free (tidy : Tidy s a z f) (room : 2 * (n + 2) + 100 < 30000) {uid : Int} (clear : Clear s (.fork p uid)) :
    ∃ m c, retry s.ids (4 * s.ids.length + 4) (s.mpid + 1) s.pidchecked = some (m,c) ∧ m < c ∧
      (∀ q ∈ a ++ z, ¬ (m ≤ s.pPid q ∧ s.pPid q < c)) ∧ ∀ q ∈ a, ¬ (m ≤ s.pPgrp q ∧ s.pPgrp q < c) := by
  by_cases scans : Scans s
  · have short := tidy.ordered.room
    obtain ⟨m,c,found,chosen⟩ := retry_chosen (by omega) (clear scans) scans
    have free : ∀ q ∈ a ++ z, ¬ (m ≤ s.pPid q ∧ s.pPid q < c) ∧ ¬ (m ≤ s.pPgrp q ∧ s.pPgrp q < c) := by
      intro q member
      rw [← tidy.ordered.known] at member
      exact chosen.free _ (mem_map_of_mem member)
    exact ⟨m,c,found,chosen.below,fun q member => (free q member).1,fun q member => (free q (mem_append_left _ member)).2⟩
  · rw [Scans,not_or,not_le,not_le] at scans
    have fast : retry s.ids (4 * s.ids.length + 3 + 1) (s.mpid + 1) s.pidchecked = some (s.mpid + 1,s.pidchecked) := by
      simp [retry,not_le.mpr scans.1,not_le.mpr scans.2]
    exact ⟨_,_,fast,scans.1,fun q member => tidy.numbered.pids q member,fun q member => tidy.numbered.groups q member⟩

theorem enter_numbered {child : Slot n} {m c : Int} (numbered : Numbered s a z) (parent : p ∈ a)
    (new : child ∉ a ++ z) (below : m < c)
    (pids : ∀ q ∈ a ++ z, ¬ (m ≤ s.pPid q ∧ s.pPid q < c)) (groups : ∀ q ∈ a, ¬ (m ≤ s.pPgrp q ∧ s.pPgrp q < c)) :
    Numbered (s.enter p child m c) (child :: a) z := by
  have own : (s.enter p child m c).pPid child = m := update_self _ _ _
  have other : ∀ q ∈ a ++ z, (s.enter p child m c).pPid q = s.pPid q := by
    intro q member
    refine update_of_ne ?_ _ _
    rintro rfl
    exact new member
  refine ⟨?_,?_,?_⟩
  · intro q one r two same
    rcases mem_cons.mp one with rfl | old <;> rcases mem_cons.mp two with rfl | older
    · rfl
    · rw [own,other r older] at same
      exact absurd (pids r older) (by omega)
    · rw [own,other q old] at same
      exact absurd (pids q old) (by omega)
    · rw [other q old,other r older] at same
      exact numbered.distinct q old r older same
  · intro q member
    show ¬ (m < _ ∧ _ < c)
    rcases mem_cons.mp member with rfl | old
    · rw [own]
      omega
    rw [other q old]
    have free := pids q old
    omega
  · intro q member
    show ¬ (m < _ ∧ _ < c)
    have group : (s.enter p child m c).pPgrp q = if q = child then s.pPgrp p else s.pPgrp q := update_apply _ _ _ _
    have theirs := groups p parent
    rw [group]
    split_ifs with same
    · omega
    have free := groups q ((mem_cons.mp member).resolve_left same)
    omega

section
variable (tidy : Tidy s a z f)
include tidy

theorem newproc_step (room : 2 * (n + 2) + 100 < 30000) (parent : p ∈ a) {uid : Int} (clear : Clear s (.fork p uid))
    {child : Slot n} (first : s.links.head .freeproc = some child) : ∃ t, newproc s p = .ok t ∧ Kept t ∧ Fresh s t := by
  obtain ⟨m,c,found,below,pids,groups⟩ := retry_free tidy room clear
  refine ⟨s.enter p child m c,by simp only [newproc,found,first],?_⟩
  have forward := tidy.ordered.free
  cases f with
  | nil => exact absurd (first.symm.trans forward) (by simp)
  | cons head f =>
    cases forward.1.symm.trans first
    obtain ⟨_,af,zf⟩ := tidy.ordered.apart
    have new : child ∉ a ++ z := by
      intro member
      rcases mem_append.mp member with one | two
      · exact af child one mem_cons_self
      · exact zf child two mem_cons_self
    have other : child ≠ 0 := by
      rintro rfl
      exact new (mem_append_left _ tidy.swapper)
    have ordered := @enter_ordered n s a z f p child tidy.ordered m c
    refine ⟨⟨child :: a,z,f,ordered,enter_hashed tidy.hashed (fun one => new (mem_append_left _ one)) other m c,
      enter_numbered tidy.numbered parent new below pids groups,mem_cons_of_mem _ tidy.swapper⟩,?_⟩
    intro born member unknown
    rw [ordered.known] at member
    rw [tidy.ordered.known] at unknown ⊢
    rw [tidy.ordered.listed.1]
    rcases mem_cons.mp member with rfl | member
    · have own : (s.enter p born m c).pPid born = m := update_self _ _ _
      rw [own]
      exact ⟨fun q one same => pids q one (by omega),fun q one same => groups q one (by omega)⟩
    · exact absurd member unknown

theorem fork1_step (room : 2 * (n + 2) + 100 < 30000) (parent : p ∈ a) {uid : Int} (clear : Clear s (.fork p uid)) :
    ∃ reply t, fork1 s p uid = .ok (reply,t) ∧ Kept t ∧ Fresh s t := by
  have refused : Kept s ∧ Fresh s s := ⟨⟨a,z,f,tidy⟩,fresh_of_subset fun _ member => member⟩
  rw [fork1]
  cases first : s.links.head .freeproc with
  | none => exact ⟨_,_,rfl,refused⟩
  | some child =>
    dsimp only
    generalize (if uid ≠ 0 then List.countP (fun q => decide (s.pUid q = uid)) s.known else 0) = count
    split_ifs
    · exact ⟨_,_,rfl,refused⟩
    obtain ⟨t,made,kept,fresh⟩ := newproc_step tidy room parent clear first
    rw [made]
    exact ⟨_,_,rfl,kept,fresh⟩

theorem exit_step (member : p ∈ a) (other : p ≠ 0) (rv : Int) (dead : Overlay n) :
    (∃ t, exit s p rv dead = .ok t ∧ Kept t ∧ Fresh s t) ∨ exit s p rv dead = .error (.panic "init died") := by
  by_cases init : s.pPid p = 1
  · exact .inr (by rw [exit,if_pos init])
  refine .inl ?_
  obtain ⟨pair,_,_⟩ := nodup_append.mp tidy.ordered.once
  obtain ⟨single,_,_⟩ := nodup_append.mp pair
  have lengths := tidy.ordered.length
  obtain ⟨hash,found,_⟩ := @delete_hashed n s a p s tidy.hashed single (by omega) member other fun _ => rfl
  have ran : ∃ t, exit s p rv dead = .ok t ∧ t.links = (s.links.unlink p).push .zombproc p ∧
      t.hash = {hash with next := update hash.next p dead.pHash} ∧ t.pPid = s.pPid ∧
      t.pPgrp = update s.pPgrp p dead.pPgrp ∧ t.mpid = s.mpid ∧ t.pidchecked = s.pidchecked := by
    rw [exit,if_neg init,found]
    exact ⟨_,rfl,rfl,rfl,rfl,rfl,rfl,rfl⟩
  obtain ⟨t,ran,links,chains,pid,pgrp,mpid,pidchecked⟩ := ran
  obtain ⟨_,same,hashed⟩ := @delete_hashed n s a p t tidy.hashed single (by omega) member other fun q => congrFun pid q
  cases found.symm.trans same
  have ordered := zombie_ordered tidy.ordered member links
  have known : ∀ q, q ∈ a.erase p ++ p :: z ↔ q ∈ a ++ z := by
    intro q
    have moved : (a.erase p ++ p :: z).Perm (a ++ z) := perm_middle.trans ((perm_cons_erase member).symm.append_right z)
    exact moved.mem_iff
  refine ⟨t,ran,⟨a.erase p,p :: z,f,ordered,hashed _ chains,?_,?_⟩,fresh_of_subset fun q new => ?_⟩
  · refine ⟨?_,?_,?_⟩
    · intro q one r two
      rw [pid]
      exact tidy.numbered.distinct q ((known q).mp one) r ((known r).mp two)
    · intro q one
      rw [pid,mpid,pidchecked]
      exact tidy.numbered.pids q ((known q).mp one)
    · intro q one
      have ne := (single.mem_erase_iff.mp one).1
      rw [pgrp,update_of_ne ne,mpid,pidchecked]
      exact tidy.numbered.groups q (mem_of_mem_erase one)
  · exact (mem_erase_of_ne (Ne.symm other)).mpr tidy.swapper
  · rw [ordered.known] at new
    rw [tidy.ordered.known]
    exact (known q).mp new

theorem release_tidy (member : p ∈ z) : Tidy (s.release p) a (z.erase p) (p :: f) := by
  obtain ⟨az,_,_⟩ := tidy.ordered.apart
  obtain ⟨pair,_,_⟩ := nodup_append.mp tidy.ordered.once
  obtain ⟨_,single,_⟩ := nodup_append.mp pair
  have differs : ∀ q ∈ a ++ z.erase p, q ≠ p := by
    rintro q listed rfl
    rcases mem_append.mp listed with one | two
    · exact az q one member
    · exact single.not_mem_erase two
  have pids : ∀ q ∈ a ++ z.erase p, (s.release p).pPid q = s.pPid q := fun q listed => update_of_ne (differs q listed) _ _
  have before : ∀ q ∈ a ++ z.erase p, q ∈ a ++ z := by
    intro q listed
    rcases mem_append.mp listed with one | two
    · exact mem_append_left _ one
    · exact mem_append_right _ (mem_of_mem_erase two)
  refine ⟨release_ordered tidy.ordered member,tidy.hashed.congr rfl fun q one => pids q (mem_append_left _ one),
    ⟨?_,?_,?_⟩,tidy.swapper⟩
  · intro q one r two
    rw [pids q one,pids r two]
    exact tidy.numbered.distinct q (before q one) r (before r two)
  · intro q one
    rw [pids q one]
    exact tidy.numbered.pids q (before q one)
  · intro q one
    have group : (s.release p).pPgrp q = s.pPgrp q := update_of_ne (differs q (mem_append_left _ one)) _ _
    rw [group]
    exact tidy.numbered.groups q one

theorem Tidy.congr (links : t.links = s.links) (hash : t.hash = s.hash) (pid : t.pPid = s.pPid)
    (mpid : t.mpid = s.mpid) (pidchecked : t.pidchecked = s.pidchecked)
    (groups : ∀ q ∈ a, ¬ (s.mpid < t.pPgrp q ∧ t.pPgrp q < s.pidchecked)) : Tidy t a z f := by
  obtain ⟨⟨all,zomb,free,once,whole⟩,hashed,⟨distinct,pids,_⟩,swapper⟩ := tidy
  refine ⟨⟨by rwa [links],by rwa [links],by rwa [links],once,whole⟩,hashed.congr hash fun q _ => congrFun pid q,
    ⟨?_,?_,?_⟩,swapper⟩
  · rwa [pid]
  · rwa [pid,mpid,pidchecked]
  · rwa [mpid,pidchecked]

theorem wait1_step (q : Slot n) (uap : Args) : Kept (wait1 s q uap).2 ∧ Fresh s (wait1 s q uap).2 := by
  have same : Kept s ∧ Fresh s s := ⟨⟨a,z,f,tidy⟩,fresh_of_subset fun _ member => member⟩
  rw [wait1]
  dsimp only
  cases found : (s.listed .zombproc).find? (s.waitedFor q (if uap.pid = 0 then -s.pPgrp q else uap.pid)) with
  | some p =>
    have member : p ∈ z := by
      rw [← tidy.ordered.listed.2.1]
      exact mem_of_find?_eq_some found
    have released := release_tidy tidy member
    cases uap.statusError <|> uap.rusageError with
    | some error => exact same
    | none =>
      refine ⟨⟨_,_,_,released⟩,fresh_of_subset fun r new => ?_⟩
      rw [released.ordered.known] at new
      rw [tidy.ordered.known]
      rcases mem_append.mp new with one | two
      · exact mem_append_left _ one
      · exact mem_append_right _ (mem_of_mem_erase two)
  | none =>
    dsimp only
    split
    · exact ⟨⟨a,z,f,tidy.congr rfl rfl rfl rfl rfl tidy.numbered.groups⟩,fresh_of_subset fun _ member => member⟩
    · exact same

end

theorem step_cases (kept : Kept s) (room : 2 * (n + 2) + 100 < 30000) (op : Op n) (clear : Clear s op) :
    (∃ t, step s op = .ok t ∧ Kept t ∧ Fresh s t) ∨ step s op = .error (.panic "init died") := by
  obtain ⟨a,z,f,tidy⟩ := kept
  have listed := tidy.ordered.listed.1
  rw [step]
  split_ifs with able
  · cases op with
    | fork p uid =>
      simp only [Op.able,listed,decide_eq_true_eq] at able
      obtain ⟨reply,t,ran,done⟩ := fork1_step tidy room able clear
      exact .inl ⟨t,by rw [call,ran],done⟩
    | exit p rv dead =>
      simp only [Op.able,listed,decide_eq_true_eq] at able
      exact exit_step tidy able.1 able.2 rv dead
    | wait4 p uap => exact .inl ⟨_,rfl,wait1_step tidy p uap⟩
    | setpgrp p pgrp =>
      simp only [Op.able,listed,decide_eq_true_eq] at able
      obtain ⟨_,q,member,same⟩ := able
      rw [tidy.ordered.known] at member
      refine .inl ⟨_,rfl,⟨a,z,f,tidy.congr rfl rfl rfl rfl rfl fun r one => ?_⟩,fresh_of_subset fun _ member => member⟩
      have pid := tidy.numbered.pids q member
      have group := tidy.numbered.groups r one
      dsimp only
      rw [update_apply]
      split_ifs
      · rwa [← same]
      · exact group
    | setuid p uid => exact .inl ⟨_,rfl,⟨a,z,f,tidy.congr rfl rfl rfl rfl rfl tidy.numbered.groups⟩,
      fresh_of_subset fun _ member => member⟩
    | signalled p stat traced waited =>
      exact .inl ⟨_,rfl,⟨a,z,f,tidy.congr rfl rfl rfl rfl rfl tidy.numbered.groups⟩,fresh_of_subset fun _ member => member⟩
  · exact .inl ⟨s,rfl,⟨a,z,f,tidy⟩,fresh_of_subset fun _ member => member⟩

theorem foldl_ontoFree (l : List (Slot n)) (t : Backed Head (Slot n)) (forward : Forward t.next (t.head .freeproc) f)
    (once : (l ++ f).Nodup) :
    Forward (l.foldl ontoFree t).next ((l.foldl ontoFree t).head .freeproc) (l.reverse ++ f) := by
  induction l generalizing t f with
  | nil => exact forward
  | cons p l ih =>
    rw [foldl_cons,reverse_cons,append_assoc]
    have moved : (p :: l ++ f).Perm (l ++ p :: f) := perm_middle.symm
    have twice := moved.nodup once
    have absent : p ∉ f := (nodup_cons.mp (nodup_append.mp twice).2.1).1
    have first : (ontoFree t p).head .freeproc = some p := by simp [ontoFree]
    have next : (ontoFree t p).next p = t.head .freeproc := by simp [ontoFree]
    refine ih (ontoFree t p) ⟨first,?_⟩ twice
    rw [next]
    exact forward.frame absent

theorem start_tidy (n : Nat) : Tidy (start n) [0] [] ((List.finRange (n + 1)).map Fin.succ) := by
  have once : ((List.finRange (n + 1)).map Fin.succ).Nodup := (nodup_finRange _).map (Fin.succ_injective _)
  have absent : (0 : Slot n) ∉ (List.finRange (n + 1)).map Fin.succ := by simp
  have back : (free n).reverse ++ [] = (List.finRange (n + 1)).map Fin.succ := by simp [free]
  have empty : Forward (zeroed n).links.next (update (zeroed n).links.head .freeproc none .freeproc) [] := by simp [Forward]
  have free := foldl_ontoFree (free n) {(zeroed n).links with head := update (zeroed n).links.head .freeproc none} (f := [])
    empty (by rw [← back] at once; simpa using once)
  rw [back] at free
  refine ⟨⟨⟨rfl,rfl,rfl⟩,rfl,free.frame absent,?_,?_⟩,?_,⟨?_,?_,?_⟩,mem_singleton_self _⟩
  · exact nodup_cons.mpr ⟨absent,once⟩
  · intro p
    refine Fin.cases (by simp) (fun p => ?_) p
    simp
  · intro k
    refine ⟨[],rfl,nodup_nil,fun p => ⟨fun inside => absurd inside not_mem_nil,fun ⟨listed,other,_⟩ => ?_⟩⟩
    exact absurd (mem_singleton.mp listed) other
  · intro p one q two _
    rw [mem_singleton.mp one,mem_singleton.mp two]
  · intro p _
    exact fun between => absurd between.1 (by show ¬ (0 : Int) < 0; omega)
  · intro p _
    exact fun between => absurd between.1 (by show ¬ (0 : Int) < 0; omega)

/-- In every run in which no search of a fork meets a process that bears the number it has come to and the next
one, the table stays in order, unless process 1 exits, and every child has a number that no process and no group
bears. -/
theorem processes_kept (n : Nat) (room : 2 * (n + 2) + 100 < 30000) (ops : List (Op n))
    (clear : Along step Clear (start n) ops) :
    ((∃ t, run step (start n) ops = .ok t ∧ Kept t) ∨ run step (start n) ops = .error (.panic "init died")) ∧
      Along step FreshAfter (start n) ops := by
  have begun : Kept (start n) := ⟨_,_,_,start_tidy n⟩
  constructor
  · have cases := @run_cases (Table n) (Op n) Fault step Clear Kept (fun _ e => e = .panic "init died") (fun s op kept now => by
        rcases step_cases kept room op now with ⟨t,ran,after,_⟩ | died
        · exact .inl ⟨t,ran,after⟩
        · exact .inr ⟨_,died,rfl⟩) ops (start n) begun clear
    rcases cases with done | ⟨_,_,e,ended,rfl⟩
    · exact .inl done
    · exact .inr ended
  refine @Along.of_invariant (Table n) (Op n) Fault step Clear Kept FreshAfter (fun s op kept now t ran => ?_)
    (fun s op t kept now ran => ?_) ops (start n) begun clear
  · rcases step_cases kept room op now with ⟨r,found,_,fresh⟩ | died
    · cases ran.symm.trans found
      exact fresh
    · cases ran.symm.trans died
  · rcases step_cases kept room op now with ⟨r,found,after,_⟩ | died
    · cases ran.symm.trans found
      exact after
    · cases ran.symm.trans died

instance (ids : List (Int × Int)) (m : Int) : Decidable (Taken ids m) := inferInstanceAs (Decidable (∃ i ∈ ids, _))

instance (ids : List (Int × Int)) (m : Int) : Decidable (Neighbours ids m) := inferInstanceAs (Decidable (∃ i ∈ ids, _))

instance (s : Table n) : Decidable (Scans s) := instDecidableOr

def Immediate (s : Table n) : Op n → Bool
  | .fork _ _ => ¬ Scans s ∨ ¬ Taken s.ids (wrapped (s.mpid + 1))
  | _ => true

theorem Immediate.clear (s : Table n) (op : Op n) (immediate : Immediate s op = true) : Clear s op := by
  cases op with
  | fork p uid =>
    intro scans m reached ⟨i,member,borne⟩
    have unused := (of_decide_eq_true immediate).resolve_left (not_not.mpr scans)
    cases reached.only unused
    exact unused ⟨i,member,borne.imp And.left And.left⟩
  | _ => trivial

def someOps : List (Op 8) :=
  [.fork 0 0,.fork 1 0,.fork 1 5,.setpgrp 3 2,.exit 2 7 ⟨some 3,4⟩,.fork 3 5,.wait4 1 ⟨-1,none,none,false,false⟩,.fork 1 0]

theorem processes_kept_someOps : 2 * (8 + 2) + 100 < 30000 ∧ Along step Clear (start 8) someOps ∧
      ((∃ t, run step (start 8) someOps = .ok t ∧ Kept t) ∨ run step (start 8) someOps = .error (.panic "init died")) ∧
      Along step FreshAfter (start 8) someOps := by
  have clear : Along step Clear (start 8) someOps := Along.imp Immediate.clear (by decide)
  exact ⟨by decide,clear,processes_kept 8 (by decide) someOps clear⟩

def Table.chain (s : Table n) (k : Fin 16) : List (Slot n) := walk s.hash.next (n + 2) (s.hash.head k)

/-- The swapper is on allproc but on no chain of pidhash. -/
theorem swapper_unhashed : ¬ ∀ ops t, run step (start 8) ops = .ok t → ∀ p, p ∈ t.listed .allproc ↔ ∃ k, p ∈ t.chain k := by
  intro exact
  have alone := (exact [] (start 8) rfl 0).mp (by decide)
  revert alone
  decide

end Retrobsd.ProcessTable
