import Retrobsd.LibraryScans

/-! What `lookup` of `ld` answers, and what a library member that is not loaded leaves of the symbol table. -/
namespace Retrobsd.Linker
open List
open Relocations (Byte Nlist nUndf nComm nText nExt)
open Lib.Run Lib.Probing

def enterSym (s : Pass1) (cursym : Nlist) : Except Fault Pass1 := do
  let hp ← lookup s cursym.name
  return (← enter s cursym hp).1

inductive TableOp where
  | enter (cursym : Nlist)
  | load1 (libflg : Bool) (m : Object)

def perform (o : Flags) (s : Pass1) : TableOp → Except Fault Pass1
  | .enter cursym => enterSym s cursym
  | .load1 libflg m => (load1 o libflg s m).map Prod.fst

def tried (name : List Byte) (k : Nat) : Nat := ((hashRot13 name).toNat % symtabsz + 2 + k) % (symtabsz + 2)

/-- The entry of the name is found if there is one, and else an empty slot. -/
def Pass1.Answers (s : Pass1) (name : List Byte) : Prop := ∃ slot found, lookup s name = .ok (slot,found) ∧
  match found with
  | some i => s.keys[i]? = some (slot,cstr name)
  | none => slot ∉ s.keys.map Prod.fst ∧ cstr name ∉ s.keys.map Prod.snd

/-- The name has no entry, and before the first empty slot there is an entry whose name begins with it. -/
def Pass1.Shadows (s : Pass1) (name : List Byte) : Prop := cstr name ∉ s.keys.map Prod.snd ∧
  ∃ k other, (∀ j < k, tried name j ∈ s.keys.map Prod.fst) ∧ (tried name k,other) ∈ s.keys ∧ cstr name <+: other

def Common (e e' : Entry) : Prop :=
  e' = e ∨ (e.nType = nExt + nUndf ∨ e.nType = nExt + nComm) ∧ e' = {e with nType := nExt + nComm,nValue := e'.nValue}

/-- The tables are as they were, but for the types and sizes of common symbols. -/
structure Restored (s t : Pass1) : Prop where
  keys : t.keys = s.keys
  frame : Frame s t
  entries : ∀ (i : Nat) (e : Entry), s.symtab[i]? = some e → ∃ e', t.symtab[i]? = some e' ∧ Common e e'

section
variable {s t : Pass1} {name : List Byte}

theorem begin_lt (name : List Byte) :
    (hashRot13 name).toNat % symtabsz + 2 < symtabsz + 2 := Nat.add_lt_add_right (Nat.mod_lt _ (by decide)) 2

theorem Pass1.Sound.slots (sound : s.Sound) {i j slot : Nat} {a b : List Byte} (first : s.keys[i]? = some (slot,cstr a))
    (second : s.keys[j]? = some (slot,cstr b)) : i = j := by
  have place : ∀ {i : Nat} {a}, s.keys[i]? = some (slot,cstr a) → place s.keys slot = some i := by
    intro i a there
    obtain ⟨_,_,_,place,_⟩ := probe_passed (lookup_ok.mp (sound.own i slot a there)) (begin_lt a)
    exact place
  exact Option.some.inj ((place first).symm.trans (place second))

theorem key_cstr {slot : Nat} {key : List Byte} (member : (slot,key) ∈ s.keys) : ∃ (i : Nat) (a : List Byte),
    key = cstr a ∧ s.keys[i]? = some (slot,cstr a) := by
  obtain ⟨i,there⟩ := mem_iff_getElem?.mp member
  obtain ⟨e,_,same⟩ := mem_map.mp member
  obtain ⟨rfl,rfl⟩ := Prod.mk.inj same
  exact ⟨i,e.name,rfl,there⟩

theorem Pass1.Sound.answers_iff (sound : s.Sound) (name : List Byte) : s.Answers name ↔ ¬s.Shadows name := by
  have inside := begin_lt name
  constructor
  · rintro ⟨slot,found,looked,answer⟩ ⟨absent,k,other,taken,member,begins⟩
    cases found with
    | some i => exact absent (mem_map.mpr ⟨_,mem_of_getElem? answer,rfl⟩)
    | none =>
      obtain ⟨n,_,rfl,empty,passed⟩ := probe_passed (lookup_ok.mp looked) inside
      rcases Nat.lt_trichotomy k n with early | rfl | late
      · -- the entry with the longer name would have been taken
        obtain ⟨i,⟨slot,key⟩,here,there,missed⟩ := passed k early
        obtain ⟨key',there'⟩ := place_some here
        rw [there] at there'
        obtain ⟨i',a,rfl,at'⟩ := key_cstr (mem_of_getElem? there)
        cases there'
        obtain ⟨j,b,rfl,there''⟩ := key_cstr member
        cases sound.slots at' there''
        have same : cstr a = cstr b := congrArg Prod.snd (Option.some.inj (at'.symm.trans there''))
        rw [same, isPrefixOf_iff_prefix.mpr begins] at missed
        cases missed
      · exact answer.1 (mem_map.mpr ⟨_,member,rfl⟩)
      · exact answer.1 (taken n late)
  intro clear
  obtain ⟨⟨slot,found⟩,looked⟩ := sound.ends name
  refine ⟨slot,found,looked,?_⟩
  cases found with
  | some i =>
    obtain ⟨key,there,begins⟩ := probe_hit (lookup_ok.mp looked)
    by_cases present : cstr name ∈ s.keys.map Prod.snd
    · obtain ⟨⟨slot',_⟩,member,rfl⟩ := mem_map.mp present
      obtain ⟨j,there'⟩ := mem_iff_getElem?.mp member
      rw [sound.own j slot' name there'] at looked
      cases looked
      exact there'
    obtain ⟨n,_,rfl,_,passed⟩ := probe_passed (lookup_ok.mp looked) inside
    refine absurd ⟨present,n,key,fun j before => ?_,mem_of_getElem? there, isPrefixOf_iff_prefix.mp begins⟩ clear
    obtain ⟨i,_,here,_⟩ := passed j before
    obtain ⟨key,there⟩ := place_some here
    exact mem_map.mpr ⟨_,mem_of_getElem? there,rfl⟩
  | none =>
    obtain ⟨n,_,rfl,empty,_⟩ := probe_passed (lookup_ok.mp looked) inside
    refine ⟨not_mem_of_place empty,fun present => ?_⟩
    obtain ⟨⟨slot',_⟩,member,rfl⟩ := mem_map.mp present
    obtain ⟨j,there⟩ := mem_iff_getElem?.mp member
    rw [sound.own j slot' name there] at looked
    cases looked

theorem enterSym_sound {c : Nlist} (sound : s.Sound) (done : enterSym s c = .ok t) : t.Sound := by
  obtain ⟨⟨slot,found⟩,looked,done⟩ := except_bind_ok done
  obtain ⟨⟨u,known⟩,entered,done⟩ := except_bind_ok done
  cases done
  cases found with
  | some i => cases entered; exact sound
  | none =>
    rw [enter] at entered
    split at entered
    · cases entered
    next room =>
      cases entered
      exact sound.entered (e := ⟨c,slot⟩) looked (Nat.not_le.mp room)

theorem perform_sound {o : Flags} {op : TableOp} (sound : s.Sound) (done : perform o s op = .ok t) : t.Sound := by
  cases op with
  | enter c => exact enterSym_sound sound done
  | load1 libflg m =>
    obtain ⟨⟨_,loaded⟩,load,rfl⟩ := except_map_ok done
    exact (load1_spec sound load).1

theorem empty_sound (empty : s.symtab = []) : s.Sound where
  room := by simp [empty]
  own i slot name there := by simp [Pass1.keys,empty] at there

end

section
variable {o : Flags} {r : Rel} {l l' : Loading} {s t : Pass1} {m : Object}

theorem Common.trans {a b c : Entry} (first : Common a b) (second : Common b c) : Common a c := by
  rcases second with rfl | ⟨type,common⟩
  · exact first
  rcases first with rfl | ⟨type',common'⟩
  · exact .inr ⟨type,common⟩
  · exact .inr ⟨type',by rw [common,common']⟩

theorem redefine_common {e : Entry} {c : Nlist} (idle : (redefine e.toNlist c).2 = false) :
    Common e ⟨(redefine e.toNlist c).1,e.slot⟩ := by
  unfold redefine at idle ⊢
  split
  next => exact .inl rfl
  next =>
    split
    next old =>
      split
      next common => exact .inr ⟨old,by rw [common]⟩
      next other =>
        split
        next defined =>
          rw [if_neg ‹_›,if_pos old,if_neg other,if_pos defined] at idle
          cases idle
        next => exact .inl rfl
    next => exact .inl rfl

def Kept (s t : Pass1) : Prop := ∀ (i : Nat) (e : Entry), s.symtab[i]? = some e → ∃ e', t.symtab[i]? = some e' ∧ Common e e'

theorem Kept.trans {u : Pass1} (first : Kept s t) (second : Kept t u) : Kept s u := by
  intro i e there
  obtain ⟨e',there',common⟩ := first i e there
  obtain ⟨e'',there'',common'⟩ := second i e' there'
  exact ⟨e'',there'',common.trans common'⟩

theorem loadsym_kept (done : loadsym o r l c = .ok l') (idle : l'.ndef = l.ndef) : Kept l.ld l'.ld := by
  rcases loadsym_cases done with ⟨_,same,_⟩ | ⟨_,e,_,_,_,ld,_⟩ | ⟨_,slot,i,e,_,there,ld,ndef⟩
  · rw [same]
    exact fun i e there => ⟨e,there,.inl rfl⟩
  · rw [ld]
    intro i e there
    refine ⟨e,?_,.inl rfl⟩
    rw [Pass1.entered,List.getElem?_append_left (List.getElem?_eq_some_iff.mp there).1,there]
  have undefined : (redefine e.toNlist (symreloc r c)).2 = false := by
    rw [ndef] at idle
    by_contra defined
    rw [if_pos (Bool.not_eq_false _ ▸ defined)] at idle
    omega
  rw [ld]
  intro j e' there'
  rw [Pass1.changed,List.getElem?_set]
  split
  next same =>
    subst same
    rw [there] at there'
    cases there'
    exact ⟨_,if_pos (List.getElem?_eq_some_iff.mp there).1,redefine_common undefined⟩
  next => exact ⟨e',there',.inl rfl⟩

theorem run_kept {cs : List Nlist} (done : run (loadsym o r) l cs = .ok l') (sound : l.ld.Sound)
    (idle : l'.ndef = l.ndef) : Kept l.ld l'.ld := by
  induction cs generalizing l with
  | nil => cases done; exact fun i e there => ⟨e,there,.inl rfl⟩
  | cons c cs ih =>
    obtain ⟨k,first,done⟩ := of_run_cons done
    obtain ⟨sound',_,_,less⟩ := loadsym_spec sound first
    have more := (run_spec sound' done).2.2.2
    exact (loadsym_kept first (by omega)).trans (ih done sound' (by omega))

theorem load1_restored (sound : s.Sound) (done : load1 o true s m = .ok (t,false)) : Restored s t := by
  have alike := ((load1_spec sound done).2.2.2.2.1 rfl).1
  obtain ⟨l,ran,ended⟩ := load1_cases done
  rcases ended with ⟨bad,_⟩ | ⟨_,_,none,rfl⟩
  · cases bad
  have frame := (run_spec sound ran).2.2.1
  refine ⟨alike.1,⟨frame.1,frame.2,frame.3,frame.4,frame.5,frame.6⟩,fun i e there => ?_⟩
  obtain ⟨e',there',common⟩ := run_kept ran sound none i e there
  refine ⟨e',?_,common⟩
  rw [List.getElem?_take_of_lt (List.getElem?_eq_some_iff.mp there).1]
  exact there'

end

/-- In every table that `ld` comes to, `lookup` answers just the names that no longer one stands before, and a member
that is not loaded leaves the tables as they were. -/
theorem table_answers_iff (o : Flags) (s : Pass1) (empty : s.symtab = []) (ops : List TableOp) (t : Pass1)
    (done : run (perform o) s ops = .ok t) : (∀ name, t.Answers name ↔ ¬t.Shadows name) ∧
    ∀ m u, load1 o true t m = .ok (u,false) → Restored t u := by
  have always : Along (perform o) (fun _ _ => True) s ops := Along.of_forall s fun _ _ => trivial
  have sound : t.Sound := run_invariant (fun _ _ _ sound _ ok => perform_sound sound ok) ops s t (empty_sound empty) always done
  exact ⟨sound.answers_iff,fun m u rejected => load1_restored sound rejected⟩

def cj : Nlist := ⟨[0x63,0x6a],nExt + nText,0⟩

theorem table_answers_cj : ∃ t, run (perform noFlags) noSymbols [.enter cj] = .ok t ∧ t.Answers [0x63,0x6a] :=
  ⟨_,rfl,((table_answers_iff noFlags noSymbols rfl [.enter cj] _ rfl).1 [0x63,0x6a]).mpr fun shadowed =>
  absurd shadowed.1 (by decide)⟩

def cjTable : Pass1 := noSymbols.entered ⟨cj,1389⟩

/-- When the name `cj` is entered, `lookup` takes it for `c`. -/
theorem shadowed_name : run (perform noFlags) noSymbols [.enter cj] = .ok cjTable ∧
    (lookup cjTable [0x63]).map Prod.snd = .ok (some 0) ∧ ¬cjTable.Answers [0x63] := by
  have taken : lookup cjTable [0x63] = .ok (1389,some 0) := by rfl
  refine ⟨rfl,by rw [taken]; rfl,?_⟩
  rintro ⟨slot,found,looked,answer⟩
  cases taken.symm.trans looked
  exact absurd answer (by decide)

end Retrobsd.Linker
