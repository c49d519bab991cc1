import Retrobsd.ProcessIds

/-! The lists and the chains of the process table as `newproc`, `exit` and `wait1`
change them. -/
namespace Retrobsd.ProcessTable
open List
open Function
open Lib.Threads

variable {n : Nat} {s : Table n} {a z f : List (Slot n)} {p : Slot n}

/-- The three lists: linked both ways except for the free slots, and every slot on one
of them once. -/
structure Ordered (s : Table n) (a z f : List (Slot n)) : Prop where
  all : Linked s.links (.head .allproc) (s.links.head .allproc) a
  zomb : Linked s.links (.head .zombproc) (s.links.head .zombproc) z
  free : Forward s.links.next (s.links.head .freeproc) f
  once : (a ++ z ++ f).Nodup
  whole : ∀ p, p ∈ a ++ z ++ f

def Chain (s : Table n) (a : List (Slot n)) (k : Fin 16) (chain : List (Slot n)) : Prop :=
  Forward s.hash.next (s.hash.head k) chain ∧ chain.Nodup ∧ ∀ p, p ∈ chain ↔ p ∈ a ∧ p ≠ 0 ∧ pidhash (s.pPid p) = k

def Hashed (s : Table n) (a : List (Slot n)) : Prop := ∀ k, ∃ chain, Chain s a k chain

structure Numbered (s : Table n) (a z : List (Slot n)) : Prop where
  distinct : ∀ p ∈ a ++ z, ∀ q ∈ a ++ z, s.pPid p = s.pPid q → p = q
  pids : ∀ p ∈ a ++ z, ¬ (s.mpid < s.pPid p ∧ s.pPid p < s.pidchecked)
  groups : ∀ p ∈ a, ¬ (s.mpid < s.pPgrp p ∧ s.pPgrp p < s.pidchecked)

structure Tidy (s : Table n) (a z f : List (Slot n)) : Prop where
  ordered : Ordered s a z f
  hashed : Hashed s a
  numbered : Numbered s a z
  swapper : 0 ∈ a

section
variable (ordered : Ordered s a z f)
include ordered

theorem Ordered.apart : (∀ p ∈ a, p ∉ z) ∧ (∀ p ∈ a, p ∉ f) ∧ ∀ p ∈ z, p ∉ f := by
  obtain ⟨listed,_,rest⟩ := nodup_append.mp ordered.once
  obtain ⟨_,_,first⟩ := nodup_append.mp listed
  exact ⟨fun p one two => first p one p two rfl,fun p one two => rest p (mem_append_left _ one) p two rfl,
    fun p one two => rest p (mem_append_right _ one) p two rfl⟩

theorem Ordered.length : a.length + z.length + f.length ≤ n + 2 := by
  have most := ordered.once.length_le_card
  simpa [Nat.add_assoc] using most

theorem Ordered.listed : s.listed .allproc = a ∧ s.listed .zombproc = z ∧ s.listed .freeproc = f := by
  have lengths := ordered.length
  exact ⟨walk_eq ordered.all.forward (by omega),walk_eq ordered.zomb.forward (by omega),walk_eq ordered.free (by omega)⟩

theorem Ordered.known : s.known = a ++ z := by
  rw [Table.known,ordered.listed.1,ordered.listed.2.1]

theorem Ordered.room : s.ids.length ≤ n + 2 := by
  have lengths := ordered.length
  rw [Table.ids,length_map,ordered.known,length_append]
  omega

end

theorem enter_ordered {parent child : Slot n} (ordered : Ordered s a z (child :: f)) (m c : Int) :
    Ordered (s.enter parent child m c) (child :: a) z f := by
  obtain ⟨first,rest⟩ := ordered.free
  obtain ⟨pair,_,others⟩ := nodup_append.mp ordered.once
  obtain ⟨az,af,zf⟩ := ordered.apart
  have new : child ∉ a := fun inside => af child inside mem_cons_self
  have notZomb : child ∉ z := fun inside => zf child inside mem_cons_self
  obtain ⟨absent,_⟩ := nodup_cons.mp (nodup_append.mp ordered.once).2.1
  obtain ⟨t,named⟩ : ∃ t : Backed Head (Slot n),
    t = {s.links with head := update s.links.head .freeproc (s.links.next child)} := ⟨_,rfl⟩
  have links : (s.enter parent child m c).links = t.push .allproc child := by rw [named]; rfl
  have all : Linked t (.head .allproc) (t.head .allproc) a := by
    rw [named]
    exact ordered.all.congr (fun _ _ => rfl) fun _ _ => rfl
  have zomb : Linked t (.head .zombproc) (t.head .zombproc) z := by
    rw [named]
    exact ordered.zomb.congr (fun _ _ => rfl) fun _ _ => rfl
  refine ⟨?_,?_,?_,?_,?_⟩
  · rw [links]
    exact push_linked all (nodup_cons.mpr ⟨new,(nodup_append.mp pair).1⟩)
  · rw [links]
    exact push_other (by simp) all zomb notZomb az
  · rw [links,push_next,push_head]
    rw [update_of_ne (by simp)]
    rw [named]
    exact rest.frame absent
  · have same : (a ++ z ++ child :: f).Perm (child :: (a ++ z ++ f)) := perm_middle
    exact same.nodup ordered.once
  · intro q
    have before := ordered.whole q
    simp only [mem_append,mem_cons] at before ⊢
    tauto

theorem zombie_ordered {t : Table n} (ordered : Ordered s a z f) (member : p ∈ a)
    (links : t.links = (s.links.unlink p).push .zombproc p) :
    Ordered t (a.erase p) (p :: z) f := by
  obtain ⟨az,af,zf⟩ := ordered.apart
  obtain ⟨pair,_,_⟩ := nodup_append.mp ordered.once
  obtain ⟨single,zonce,_⟩ := nodup_append.mp pair
  have all := unlink_listed ordered.all single member
  have zomb := unlink_other (by simp) ordered.all member ordered.zomb az
  have free := unlink_forward ordered.all member ordered.free af
  refine ⟨?_,?_,?_,?_,?_⟩
  · rw [links]
    exact push_other (by simp) zomb all single.not_mem_erase fun q inside found => az q (mem_of_mem_erase found) inside
  · rw [links]
    exact push_linked zomb (nodup_cons.mpr ⟨az p member,zonce⟩)
  · rw [links,push_next,push_head,update_of_ne (by simp),unlink_head (j := Head.freeproc) (by simp) ordered.all member]
    exact free.frame (af p member)
  · have same : (a ++ z ++ f).Perm (a.erase p ++ p :: z ++ f) :=
      (((perm_cons_erase member).append_right z).trans perm_middle.symm).append_right f
    exact same.nodup ordered.once
  · intro q
    have before := ordered.whole q
    simp only [mem_append,mem_cons] at before ⊢
    rcases eq_or_ne q p with rfl | other
    · tauto
    rw [mem_erase_of_ne other]
    tauto

theorem release_ordered (ordered : Ordered s a z f) (member : p ∈ z) : Ordered (s.release p) a (z.erase p) (p :: f) := by
  obtain ⟨az,af,zf⟩ := ordered.apart
  obtain ⟨pair,_,_⟩ := nodup_append.mp ordered.once
  obtain ⟨_,single,_⟩ := nodup_append.mp pair
  have notAll : p ∉ a := fun inside => az p inside member
  have zomb := unlink_listed ordered.zomb single member
  have all := unlink_other (by simp) ordered.zomb member ordered.all fun q inside found => az q found inside
  have free := unlink_forward ordered.zomb member ordered.free zf
  have still : ∀ q, q ≠ p → (s.release p).links.next q = (s.links.unlink p).next q := fun q other => update_of_ne other _ _
  refine ⟨?_,?_,?_,?_,?_⟩
  · refine all.congr (fun q inside => still q ?_) fun _ _ => rfl
    rintro rfl
    exact notAll inside
  · refine zomb.congr (fun q inside => still q ?_) fun _ _ => rfl
    rintro rfl
    exact single.not_mem_erase inside
  · have head : (s.release p).links.next p = s.links.head .freeproc := by
      refine (update_self _ _ _).trans (unlink_head (by simp) ordered.zomb member)
    refine ⟨rfl,?_⟩
    rw [head]
    exact free.frame (zf p member)
  · have same : (a ++ z ++ f).Perm (a ++ z.erase p ++ p :: f) := by
      refine (((perm_cons_erase member).append_left a).append_right f).trans ?_
      refine (perm_middle.append_right f).trans ?_
      exact perm_middle.symm
    exact same.nodup ordered.once
  · intro q
    have before := ordered.whole q
    simp only [mem_append,mem_cons] at before ⊢
    rcases eq_or_ne q p with rfl | other
    · tauto
    rw [mem_erase_of_ne other]
    tauto

theorem Hashed.congr {t : Table n} (hashed : Hashed s a) (hash : t.hash = s.hash)
    (pids : ∀ p ∈ a, t.pPid p = s.pPid p) : Hashed t a := by
  intro k
  obtain ⟨chain,forward,once,exact⟩ := hashed k
  refine ⟨chain,by rw [hash]; exact forward,once,fun p => (exact p).trans ?_⟩
  constructor
  · rintro ⟨listed,other,same⟩
    exact ⟨listed,other,by rw [pids p listed]; exact same⟩
  rintro ⟨listed,other,same⟩
  exact ⟨listed,other,by rw [← pids p listed]; exact same⟩

theorem enter_hashed {parent child : Slot n} (hashed : Hashed s a) (new : child ∉ a) (other : child ≠ 0) (m c : Int) :
    Hashed (s.enter parent child m c) (child :: a) := by
  intro k
  obtain ⟨chain,forward,once,exact⟩ := hashed k
  have absent : child ∉ chain := fun inside => new ((exact child).mp inside).1
  have pid : (s.enter parent child m c).pPid child = m := update_self _ _ _
  have pids : ∀ p, p ≠ child → (s.enter parent child m c).pPid p = s.pPid p := fun p ne => update_of_ne ne _ _
  have old : ∀ p, p ≠ child → (p ∈ chain ↔ p ∈ child :: a ∧ p ≠ 0 ∧ pidhash ((s.enter parent child m c).pPid p) = k) := by
    intro p ne
    rw [exact p,pids p ne,mem_cons,or_iff_right ne]
  rcases eq_or_ne k (pidhash m) with rfl | elsewhere
  · have head : (s.enter parent child m c).hash.head (pidhash m) = some child := update_self _ _ _
    refine ⟨child :: chain,?_,nodup_cons.mpr ⟨absent,once⟩,fun p => ?_⟩
    · rw [head]
      exact forward.push absent
    rcases eq_or_ne p child with rfl | ne
    · exact ⟨fun _ => ⟨mem_cons_self,other,by rw [pid]⟩,fun _ => mem_cons_self⟩
    rw [mem_cons,or_iff_right ne]
    exact old p ne
  · have head : (s.enter parent child m c).hash.head k = s.hash.head k := update_of_ne elsewhere _ _
    refine ⟨chain,?_,once,fun p => ?_⟩
    · rw [head]
      exact forward.frame absent
    rcases eq_or_ne p child with rfl | ne
    · exact ⟨fun inside => absurd inside absent,fun ⟨_,_,same⟩ => absurd (same.symm.trans (congrArg pidhash pid)) elsewhere⟩
    · exact old p ne

theorem delete_hashed {t : Table n} (hashed : Hashed s a) (single : a.Nodup) (length : a.length ≤ n + 2)
    (member : p ∈ a) (other : p ≠ 0)
    (pids : ∀ q, t.pPid q = s.pPid q) :
    ∃ hash, s.hash.delete p (n + 2) (.head (pidhash (s.pPid p))) = some hash ∧
      ∀ dead, t.hash = {hash with next := update hash.next p dead} → Hashed t (a.erase p) := by
  obtain ⟨chain,forward,once,exact⟩ := hashed (pidhash (s.pPid p))
  have inside : p ∈ chain := (exact p).mpr ⟨member,other,rfl⟩
  have short : chain.length ≤ n + 2 := le_trans ((subperm_of_subset once fun q found => ((exact q).mp found).1).length_le) length
  obtain ⟨hash,found,deleted⟩ := delete_spec (.head (pidhash (s.pPid p))) forward once (fun _ _ => by simp) inside short
  refine ⟨hash,found,fun dead named k => ?_⟩
  have erased : ∀ q, q ∈ a.erase p ↔ q ≠ p ∧ q ∈ a := fun q => single.mem_erase_iff
  rcases eq_or_ne k (pidhash (s.pPid p)) with rfl | elsewhere
  · refine ⟨chain.erase p,?_,once.erase p,fun q => ?_⟩
    · rw [named]
      exact deleted.forward.frame once.not_mem_erase
    rw [once.mem_erase_iff,exact q,erased,pids q]
    tauto
  obtain ⟨others,along,twice,members⟩ := hashed k
  have outside : ∀ q ∈ others, q ∉ chain := fun q one two =>
    elsewhere (((members q).mp one).2.2.symm.trans ((exact q).mp two).2.2)
  have absent : p ∉ others := fun one => outside p one inside
  refine ⟨others,?_,twice,fun q => ?_⟩
  · rw [named]
    have head : hash.head k = s.hash.head k := deleted.heads k (fun same => elsewhere (Cell.head.inj same).symm)
    have kept : Forward hash.next (hash.head k) others := by
      rw [head]
      exact along.congr fun q one => deleted.links q (by simp) (outside q one)
    exact kept.frame absent
  rw [members q,erased,pids q]
  constructor
  · rintro ⟨listed,nonzero,same⟩
    refine ⟨⟨?_,listed⟩,nonzero,same⟩
    rintro rfl
    exact elsewhere same.symm
  · rintro ⟨⟨_,listed⟩,nonzero,same⟩
    exact ⟨listed,nonzero,same⟩

end Retrobsd.ProcessTable
