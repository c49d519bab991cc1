import Retrobsd.Linker

/-! The search of a library ends, loads no member twice and leaves no symbol undefined that a member
defines. -/
namespace Retrobsd.Linker
open Option
open List
open Relocations (Byte Word Nlist nUndf nAbs nText nData nBss nComm nExt)
open Archives (Ld.Ranlib)
open Lib.Run Lib.Sweeps Lib.Probing

variable {s t : Pass1}

section
variable {u : Pass1} {name : List Byte} {slot i : Nat}

def Pass1.typ (s : Pass1) (i : Nat) : Option Word := (s.symtab[i]?).map fun e => e.nType

/-- The table has room in its slots, and every symbol is found by its name. -/
structure Pass1.Sound (s : Pass1) : Prop where
  room : s.symtab.length ≤ symtabsz
  own : ∀ i slot name, s.keys[i]? = some (slot,cstr name) → lookup s name = .ok (slot,some i)

structure Ages (s t : Pass1) : Prop where
  keys : ∃ more, t.keys = s.keys ++ more
  undf : ∀ i < s.symtab.length, t.typ i = some (nExt + nUndf) → s.typ i = some (nExt + nUndf)
  comm : ∀ i < s.symtab.length, t.typ i = some (nExt + nComm) → s.typ i = some (nExt + nUndf) ∨ s.typ i = some (nExt + nComm)

theorem Ages.refl (s : Pass1) : Ages s s := ⟨⟨[],(append_nil _).symm⟩,fun _ _ is => is,fun _ _ is => .inr is⟩

theorem length_keys (s : Pass1) : s.keys.length = s.symtab.length := length_map _

theorem Ages.length (ages : Ages s t) : s.symtab.length ≤ t.symtab.length := by
  obtain ⟨more,keys⟩ := ages.keys
  rw [← length_keys,← length_keys,keys,length_append]
  exact Nat.le_add_right _ _

theorem Ages.trans (first : Ages s t) (second : Ages t u) : Ages s u where
  keys := by
    obtain ⟨one,keys⟩ := first.keys
    obtain ⟨two,keys'⟩ := second.keys
    exact ⟨one ++ two,by rw [keys',keys,append_assoc]⟩
  undf i inside is := first.undf i inside (second.undf i (inside.trans_le first.length) is)
  comm i inside is := by
    rcases second.comm i (inside.trans_le first.length) is with was | was
    · exact .inl (first.undf i inside was)
    · exact first.comm i inside was

theorem lookup_ok {r : Option Nat} : lookup s name = .ok (slot,r) ↔
    probe (symtabsz + 2) ((cstr name).isPrefixOf ·) s.keys (symtabsz + 2)
    ((hashRot13 name).toNat % symtabsz + 2) = some (slot,r) := by
  rw [lookup]
  split
  next none => simp [none]
  next r found => rw [found]; exact ⟨fun h => congrArg some (Except.ok.inj h),fun h => congrArg Except.ok (some.inj h)⟩

theorem lookup_bound (found : lookup s name = .ok (slot,some i)) : i < s.symtab.length := by
  rw [← length_keys]
  exact probe_bound (lookup_ok.mp found)

theorem Ages.lookup (ages : Ages s t) (found : lookup s name = .ok (slot,some i)) : lookup t name = .ok (slot,some i) := by
  obtain ⟨more,keys⟩ := ages.keys
  rw [lookup_ok,keys]
  exact probe_append (lookup_ok.mp found) more

theorem lookup_keys (same : t.keys = s.keys) (name : List Byte) : lookup t name = lookup s name := by
  rw [lookup.eq_def,same]
  rfl

theorem lookup_cstr (s : Pass1) {other : List Byte} (same : cstr other = cstr name) : lookup s other = lookup s name := by
  rw [lookup.eq_def,hashRot13,same]
  rfl

theorem Pass1.Sound.of_keys (sound : s.Sound) (same : t.keys = s.keys) : t.Sound where
  room := by
    rw [← length_keys,same,length_keys]
    exact sound.room
  own i slot name there := by
    rw [lookup_keys same]
    exact sound.own i slot name (same ▸ there)

theorem isPrefixOf_self (name : List Byte) : (cstr name).isPrefixOf (cstr name) = true := by
  rw [ isPrefixOf_iff_prefix]

theorem Pass1.Sound.ends (sound : s.Sound) (name : List Byte) : ∃ r, lookup s name = .ok r := by
  have room : s.keys.length < symtabsz + 2 := by
    have room := sound.room
    rw [length_keys]
    omega
  have inside : (hashRot13 name).toNat % symtabsz + 2 < symtabsz + 2 := Nat.add_lt_add_right (Nat.mod_lt _ (by decide)) 2
  obtain ⟨r,found⟩ := probe_total ((cstr name).isPrefixOf ·) room inside
  exact ⟨r,by rw [lookup,found]⟩

def Pass1.entered (s : Pass1) (e : Entry) : Pass1 := {s with symtab := s.symtab ++ [e]}

def Pass1.changed (s : Pass1) (i : Nat) (e : Entry) : Pass1 := {s with symtab := s.symtab.set i e}

theorem keys_entered (s : Pass1) (e : Entry) : (s.entered e).keys = s.keys ++ [(e.slot,cstr e.name)] := by
  rw [Pass1.keys,Pass1.entered,map_append]
  rfl

theorem keys_changed {e e' : Entry} (there : s.symtab[i]? = some e) (slot : e'.slot = e.slot) (name : e'.name = e.name) :
    (s.changed i e').keys = s.keys := by
  have inside := (List.getElem?_eq_some_iff.mp there).1
  rw [Pass1.keys,Pass1.changed,map_set,slot,name,Pass1.keys]
  apply ext_getElem?
  intro j
  rw [List.getElem?_set]
  split
  next same =>
    subst same
    rw [length_map,if_pos inside,List.getElem?_map,there]
    rfl
  next => rfl

theorem typ_entered (s : Pass1) (e : Entry) {j : Nat} (inside : j < s.symtab.length) : (s.entered e).typ j = s.typ j := by
  rw [Pass1.typ,Pass1.typ,Pass1.entered,List.getElem?_append_left inside]

theorem typ_new (s : Pass1) (e : Entry) : (s.entered e).typ s.symtab.length = some e.nType := by
  rw [Pass1.typ,Pass1.entered,List.getElem?_concat_length]
  rfl

theorem typ_changed {e e' : Entry} (there : s.symtab[i]? = some e) (j : Nat) :
    (s.changed i e').typ j = if j = i then some e'.nType else s.typ j := by
  have inside := (List.getElem?_eq_some_iff.mp there).1
  rw [Pass1.typ,Pass1.changed,List.getElem?_set]
  by_cases same : i = j
  · rw [if_pos same,if_pos inside,if_pos same.symm]
    rfl
  rw [if_neg same,if_neg (Ne.symm same)]
  rfl

theorem lookup_entered {e : Entry} (missed : lookup s e.name = .ok (e.slot,none)) :
    lookup (s.entered e) e.name = .ok (e.slot,some s.symtab.length) := by
  rw [lookup_ok,keys_entered]
  have hits : (cstr e.name).isPrefixOf (cstr e.name) = true := isPrefixOf_self _
  have found := probe_insert (lookup_ok.mp missed) hits
  rw [length_keys] at found
  exact found

theorem ages_entered (s : Pass1) (e : Entry) : Ages s (s.entered e) where
  keys := ⟨_,keys_entered s e⟩
  undf i inside is := by rwa [typ_entered s e inside] at is
  comm i inside is := by rw [typ_entered s e inside] at is; exact .inr is

theorem Pass1.Sound.entered (sound : s.Sound) {e : Entry} (missed : lookup s e.name = .ok (e.slot,none))
    (room : s.symtab.length < symtabsz) :
    (s.entered e).Sound where
  room := by
    rw [Pass1.entered,length_append]
    exact room
  own j slot name there := by
    rw [keys_entered] at there
    rcases Nat.lt_trichotomy j s.keys.length with old | rfl | beyond
    · rw [List.getElem?_append_left old] at there
      exact (ages_entered s e).lookup (sound.own j slot name there)
    · rw [List.getElem?_concat_length] at there
      obtain ⟨rfl,same⟩ := Prod.mk.inj (some.inj there)
      rw [lookup_cstr _ same.symm,length_keys]
      exact lookup_entered missed
    · have inside := (List.getElem?_eq_some_iff.mp there).1
      rw [length_append] at inside
      exact absurd inside (by simp; omega)

end

variable {o : Flags}

section
variable {r : Rel} {l l' : Loading} {c : Nlist}

def relType (type : Word) : Word :=
  if type = nExt + nText ∨ type = nExt + nData ∨ type = nExt + nBss ∨ type = nExt + nUndf ∨
    type = nExt + nComm then type else nExt + nAbs

theorem symreloc_type (r : Rel) (ext : c.nType &&& nExt ≠ 0) : (symreloc r c).nType = relType c.nType := by
  have text : c.nType ≠ nText := by rintro is; rw [is] at ext; exact ext rfl
  have data : c.nType ≠ nData := by rintro is; rw [is] at ext; exact ext rfl
  have bss : c.nType ≠ nBss := by rintro is; rw [is] at ext; exact ext rfl
  simp only [symreloc,relType,text,data,bss,false_or]
  generalize nExt + nText = t, nExt + nData = d, nExt + nBss = b, nExt + nUndf = u, nExt + nComm = k, nExt + nAbs = a
  split_ifs <;> grind

theorem symreloc_name (r : Rel) (c : Nlist) : (symreloc r c).name = c.name := by
  rw [symreloc]
  split_ifs <;> rfl

def Flags.external (o : Flags) (c : Nlist) : Bool := !o.drops c.nType && c.nType &&& nExt != 0

def storage (type : Word) : Bool := type == nExt + nData || type == nExt + nBss

def Flags.declares (o : Flags) (c : Nlist) : Bool := o.external c && relType c.nType != nExt + nUndf

def Flags.defines (o : Flags) (c : Nlist) : Bool := o.declares c && relType c.nType != nExt + nComm

theorem redefine_spec (sp c : Nlist) :
    (redefine sp c).1.name = sp.name ∧ ((redefine sp c).1.nType = nExt + nUndf → sp.nType = nExt + nUndf) ∧
    ((redefine sp c).1.nType = nExt + nComm → sp.nType = nExt + nUndf ∨ sp.nType = nExt + nComm) ∧
    ((redefine sp c).2 = true ↔ c.nType ≠ nExt + nUndf ∧ c.nType ≠ nExt + nComm ∧
      (sp.nType = nExt + nUndf ∨ sp.nType = nExt + nComm ∧ storage c.nType = true)) ∧
    (c.nType ≠ nExt + nUndf → (redefine sp c).1.nType ≠ nExt + nUndf) ∧
    (c.nType ≠ nExt + nUndf → c.nType ≠ nExt + nComm → storage c.nType = true → (redefine sp c).1.nType ≠ nExt + nComm) := by
  have apart : nExt + nUndf ≠ nExt + nComm ∧ nExt + nData ≠ nExt + nUndf ∧ nExt + nData ≠ nExt + nComm ∧
      nExt + nBss ≠ nExt + nUndf ∧ nExt + nBss ≠ nExt + nComm := by decide
  rw [redefine,storage]
  generalize nExt + nUndf = u, nExt + nComm = k, nExt + nData = d, nExt + nBss = b at apart ⊢
  split_ifs <;> grind

theorem loadsym_cases (done : loadsym o r l c = .ok l') : (o.external c = false ∧ l'.ld = l.ld ∧ l'.ndef = l.ndef) ∨
    (o.external c = true ∧ ∃ e : Entry, e.toNlist = symreloc r c ∧ lookup l.ld c.name = .ok (e.slot,none) ∧
    l.ld.symtab.length < symtabsz ∧
      l'.ld = l.ld.entered e ∧ l'.ndef = l.ndef) ∨
    (o.external c = true ∧ ∃ slot i e, lookup l.ld c.name = .ok (slot,some i) ∧ l.ld.symtab[i]? = some e ∧
      l'.ld = l.ld.changed i ⟨(redefine e.toNlist (symreloc r c)).1,e.slot⟩ ∧
      l'.ndef = if (redefine e.toNlist (symreloc r c)).2 then l.ndef + 1 else l.ndef) := by
  rw [loadsym] at done
  by_cases drop : o.drops c.nType = true
  · rw [if_pos drop] at done
    cases done
    exact .inl ⟨by simp [Flags.external,drop],rfl,rfl⟩
  rw [if_neg drop] at done
  by_cases ext : c.nType &&& nExt = 0
  · rw [if_pos ext] at done
    refine .inl ⟨by simp [Flags.external,ext],?_⟩
    split at done <;> cases done <;> exact ⟨rfl,rfl⟩
  rw [if_neg ext] at done
  have external : o.external c = true := by
    rw [Flags.external,Bool.not_eq_true _ |>.mp drop]
    exact bne_iff_ne.mpr ext
  obtain ⟨⟨slot,sp⟩,found,done⟩ := except_bind_ok done
  rw [symreloc_name] at found
  obtain ⟨⟨ld,known⟩,entered,done⟩ := except_bind_ok done
  refine .inr ?_
  cases sp with
  | none =>
    rw [enter] at entered
    split at entered
    · cases entered
    next room =>
      cases entered
      cases done
      exact .inl ⟨external,⟨symreloc r c,slot⟩,rfl,found,by omega,rfl,rfl⟩
  | some i =>
    cases entered
    have inside := lookup_bound found
    have there : l.ld.symtab[i]? = some l.ld.symtab[i] := List.getElem?_eq_getElem inside
    dsimp only at done
    rw [there] at done
    cases done
    exact .inr ⟨external,slot,i,_,found,there,rfl,rfl⟩

theorem ages_changed {i : Nat} {e : Entry} (there : s.symtab[i]? = some e) (c : Nlist) :
    Ages s (s.changed i ⟨(redefine e.toNlist c).1,e.slot⟩) := by
  obtain ⟨name,undf,comm,_⟩ := redefine_spec e.toNlist c
  have typ : s.typ i = some e.nType := by rw [Pass1.typ,there]; rfl
  have keys : (s.changed i ⟨(redefine e.toNlist c).1,e.slot⟩).keys = s.keys := keys_changed there rfl name
  refine ⟨⟨[],by rw [keys,append_nil]⟩,fun j _ is => ?_,fun j _ is => ?_⟩
  · rw [typ_changed there] at is
    split at is
    next same => rw [same,typ,undf (some.inj is)]
    next => exact is
  rw [typ_changed there] at is
  split at is
  next same =>
    rw [same,typ]
    exact (comm (some.inj is)).imp (congrArg some) (congrArg some)
  next => exact .inr is

structure Frame (s t : Pass1) : Prop where
  tsize : t.tsize = s.tsize
  dsize : t.dsize = s.dsize
  bsize : t.bsize = s.bsize
  ssize : t.ssize = s.ssize
  nsym : t.nsym = s.nsym
  liblist : t.liblist = s.liblist

theorem loadsym_spec (sound : l.ld.Sound) (done : loadsym o r l c = .ok l') :
    l'.ld.Sound ∧ Ages l.ld l'.ld ∧ Frame l.ld l'.ld ∧ l.ndef ≤ l'.ndef := by
  have frame : ∀ s : Pass1, Frame s s := fun s => ⟨rfl,rfl,rfl,rfl,rfl,rfl⟩
  rcases loadsym_cases done with ⟨_,same,ndef⟩ | ⟨_,e,is,missed,room,ld,ndef⟩ | ⟨_,slot,i,e,found,there,ld,ndef⟩
  · rw [same,ndef]
    exact ⟨sound,Ages.refl _,frame _,Nat.le_refl _⟩
  · have name : e.name = c.name := by rw [is,symreloc_name]
    rw [ld,ndef]
    exact ⟨sound.entered (name ▸ missed) room,ages_entered _ e,⟨rfl,rfl,rfl,rfl,rfl,rfl⟩,Nat.le_refl _⟩
  · rw [ld,ndef]
    refine ⟨sound.of_keys (keys_changed there rfl (redefine_spec _ _).1),ages_changed there _,⟨rfl,rfl,rfl,rfl,rfl,rfl⟩,?_⟩
    split <;> omega

def Pass1.Settles (s : Pass1) (c : Nlist) : Prop :=
    ∃ slot i, lookup s c.name = .ok (slot,some i) ∧ s.typ i ≠ some (nExt + nUndf) ∧
    (storage (relType c.nType) = true → s.typ i ≠ some (nExt + nComm))

theorem Ages.settles (ages : Ages s t) (settles : s.Settles c) : t.Settles c := by
  obtain ⟨slot,i,found,undf,comm⟩ := settles
  have inside := lookup_bound found
  refine ⟨slot,i,ages.lookup found,fun is => undf (ages.undf i inside is),fun data is => ?_⟩
  rcases ages.comm i inside is with was | was
  · exact undf was
  · exact comm data was

theorem Flags.declares_spec : o.declares c = true ↔ o.external c = true ∧ relType c.nType ≠ nExt + nUndf := by
  simp [Flags.declares]

theorem Flags.defines_spec : o.defines c = true ↔ o.external c = true ∧ relType c.nType ≠ nExt + nUndf ∧
    relType c.nType ≠ nExt + nComm := by
  simp [Flags.defines,Flags.declares,and_assoc]

theorem external_type (external : o.external c = true) : (symreloc r c).nType = relType c.nType := by
  apply symreloc_type
  rw [Flags.external,Bool.and_eq_true] at external
  exact bne_iff_ne.mp external.2

theorem loadsym_settles (declares : o.declares c = true) (done : loadsym o r l c = .ok l') : l'.ld.Settles c := by
  obtain ⟨external,undf⟩ := Flags.declares_spec.mp declares
  have comm : storage (relType c.nType) = true → relType c.nType ≠ nExt + nComm := by
    intro data is
    rw [is] at data
    exact absurd data (by decide)
  have type := external_type (r := r) external
  rcases loadsym_cases done with ⟨other,_⟩ | ⟨_,e,is,missed,room,ld,_⟩ | ⟨_,slot,i,e,found,there,ld,_⟩
  · rw [external] at other
    cases other
  · have name : e.name = c.name := by rw [is,symreloc_name]
    have made : e.nType = relType c.nType := by rw [is,type]
    rw [ld]
    refine ⟨e.slot,_,name ▸ lookup_entered (name ▸ missed),?_,fun data => ?_⟩
    · rw [typ_new,made]
      exact fun bad => undf (some.inj bad)
    rw [typ_new,made]
    exact fun bad => comm data (some.inj bad)
  · obtain ⟨_,_,_,_,known,stored⟩ := redefine_spec e.toNlist (symreloc r c)
    rw [type] at known stored
    rw [ld]
    refine ⟨slot,i,(ages_changed there _).lookup found,?_,fun data => ?_⟩
    · rw [typ_changed there,if_pos rfl]
      exact fun bad => known undf (some.inj bad)
    rw [typ_changed there,if_pos rfl]
    exact fun bad => stored undf (comm data) data (some.inj bad)

theorem loadsym_idle (settled : o.declares c = true → l.ld.Settles c) (done : loadsym o r l c = .ok l') : l'.ndef = l.ndef := by
  rcases loadsym_cases done with ⟨_,_,ndef⟩ | ⟨_,_,_,_,_,_,ndef⟩ | ⟨external,slot,i,e,found,there,_,ndef⟩
  · exact ndef
  · exact ndef
  rw [ndef,if_neg]
  obtain ⟨_,_,_,counts,_⟩ := redefine_spec e.toNlist (symreloc r c)
  rw [counts,external_type external]
  rintro ⟨undf,comm,old⟩
  obtain ⟨slot',j,found',known,stored⟩ := settled (Flags.declares_spec.mpr ⟨external,undf⟩)
  rw [found] at found'
  cases found'
  have typ : l.ld.typ i = some e.nType := by rw [Pass1.typ,there]; rfl
  rw [typ] at known stored
  rcases old with is | ⟨is,data⟩
  · exact known (congrArg some is)
  · exact stored data (congrArg some is)

variable {cs : List Nlist}

theorem run_spec (sound : l.ld.Sound) (done : run (loadsym o r) l cs = .ok l') :
    l'.ld.Sound ∧ Ages l.ld l'.ld ∧ Frame l.ld l'.ld ∧ l.ndef ≤ l'.ndef := by
  have start : l.ld.Sound ∧ Ages l.ld l.ld ∧ Frame l.ld l.ld ∧ l.ndef ≤ l.ndef :=
    ⟨sound,Ages.refl _,⟨rfl,rfl,rfl,rfl,rfl,rfl⟩,Nat.le_refl _⟩
  have always : Along (loadsym o r) (fun _ _ => True) l cs := Along.of_forall l fun _ _ => trivial
  refine @run_invariant _ _ _ _ _ (fun k => k.ld.Sound ∧ Ages l.ld k.ld ∧ Frame l.ld k.ld ∧ l.ndef ≤ k.ndef)
    (fun k c k' here _ ok => ?_) cs l l' start always done
  obtain ⟨sound,ages,frame,ndef⟩ := here
  obtain ⟨sound',ages',frame',ndef'⟩ := loadsym_spec sound ok
  refine ⟨sound',ages.trans ages',?_,ndef.trans ndef'⟩
  exact ⟨frame'.1.trans frame.1,frame'.2.trans frame.2,frame'.3.trans frame.3,frame'.4.trans frame.4,frame'.5.trans frame.5,
    frame'.6.trans frame.6⟩

theorem run_settles (sound : l.ld.Sound) (done : run (loadsym o r) l cs = .ok l') :
    ∀ c ∈ cs, o.declares c = true → l'.ld.Settles c := by
  induction cs generalizing l with
  | nil => exact fun _ bad => (nomatch bad)
  | cons c cs ih =>
    obtain ⟨k,first,rest⟩ := of_run_cons done
    have sound' := (loadsym_spec sound first).1
    intro d member declares
    rcases mem_cons.mp member with rfl | later
    · exact (run_spec sound' rest).2.1.settles (loadsym_settles declares first)
    · exact ih sound' rest d later declares

theorem run_idle (sound : l.ld.Sound) (settled : ∀ c ∈ cs, o.declares c = true → l.ld.Settles c)
    (done : run (loadsym o r) l cs = .ok l') : l'.ndef = l.ndef := by
  induction cs generalizing l with
  | nil => cases done; rfl
  | cons c cs ih =>
    obtain ⟨k,first,done⟩ := of_run_cons done
    obtain ⟨sound',ages,_⟩ := loadsym_spec sound first
    rw [ih sound' (fun d member declares => ages.settles (settled d (mem_cons_of_mem _ member) declares)) done]
    exact loadsym_idle (settled c mem_cons_self) first

end

variable {m : Object}

section
variable {libflg loaded : Bool}

def Settled (o : Flags) (s : Pass1) (m : Object) : Prop := ∀ c ∈ m.syms, o.declares c = true → s.Settles c

def Pass1.Resolved (s : Pass1) (c : Nlist) : Prop :=
    ∀ slot i, lookup s c.name = .ok (slot,some i) → s.typ i ≠ some (nExt + nUndf)

def Alike (s t : Pass1) : Prop := t.keys = s.keys ∧ Ages s t

theorem Pass1.Resolved.stays {c : Nlist} (resolved : s.Resolved c) (alike : Alike s t) : t.Resolved c := by
  intro slot i found is
  rw [lookup_keys alike.1] at found
  exact resolved slot i found (alike.2.undf i (lookup_bound found) is)

theorem Ages.of_symtab {u : Pass1} (ages : Ages s t) (same : u.symtab = t.symtab) : Ages s u := by
  have keys : u.keys = t.keys := by rw [Pass1.keys,same,Pass1.keys]
  have typ : u.typ = t.typ := by
    funext i
    rw [Pass1.typ,same,Pass1.typ]
  exact ⟨keys ▸ ages.keys,typ ▸ ages.undf,typ ▸ ages.comm⟩

theorem load1_cases (done : load1 o libflg s m = .ok (t,loaded)) :
    ∃ l, run (loadsym o (rel s m.head)) ⟨s,0,if mkfsym o m.name ≠ 0 then 1 else 0,mkfsym o m.name⟩ m.syms = .ok l ∧
    (loaded = true ∧ (libflg = false ∨ l.ndef ≠ 0) ∧ t = {l.ld with
      tsize := alignW (s.tsize + m.head.text)
      dsize := alignW (s.dsize + m.head.data)
      bsize := alignW (s.bsize + m.head.bss)
      ssize := s.ssize + l.nloc
      nsym := s.nsym + l.nsymbol} ∨
    loaded = false ∧ libflg = true ∧ l.ndef = 0 ∧ t = {l.ld with symtab := l.ld.symtab.take s.symtab.length}) := by
  obtain ⟨_,_,done⟩ := except_bind_ok done
  obtain ⟨l,ran,done⟩ := except_bind_ok done
  refine ⟨l,ran,?_⟩
  split at done
  next wanted =>
    cases done
    exact .inl ⟨rfl,by simpa using wanted,rfl⟩
  next other =>
    cases done
    simp only [Bool.or_eq_true,Bool.not_eq_true',not_or,Bool.not_eq_false] at other
    exact .inr ⟨rfl,other.1,by simpa using other.2,rfl⟩

theorem load1_spec (sound : s.Sound) (done : load1 o libflg s m = .ok (t,loaded)) :
    t.Sound ∧ Ages s t ∧ t.liblist = s.liblist ∧ (loaded = true → Settled o t m) ∧
    (loaded = false → Alike s t ∧ ∀ c ∈ m.syms, o.declares c = true → t.Resolved c) ∧
    (libflg = true → loaded = true → ¬ Settled o s m) := by
  obtain ⟨l,ran,ended⟩ := load1_cases done
  obtain ⟨sound',ages,frame,_⟩ := run_spec sound ran
  have settles := run_settles sound ran
  rcases ended with ⟨rfl,why,rfl⟩ | ⟨rfl,lib,none,rfl⟩
  · refine ⟨sound'.of_keys rfl,ages.of_symtab rfl,frame.liblist,fun _ c member declares => ?_,fun bad => (nomatch bad),
      fun lib _ settled => ?_⟩
    · exact (Ages.of_symtab (Ages.refl _) rfl).settles (settles c member declares)
    have idle := run_idle (by exact sound) (by exact settled) ran
    rcases why with other | more
    · rw [lib] at other
      cases other
    · exact more idle
  obtain ⟨more,keys⟩ := ages.keys
  have same : Pass1.keys {l.ld with symtab := l.ld.symtab.take s.symtab.length} = s.keys := by
    rw [Pass1.keys,map_take]
    change l.ld.keys.take s.symtab.length = s.keys
    rw [keys,← length_keys,take_left]
  have typ : ∀ i < s.symtab.length, Pass1.typ {l.ld with symtab := l.ld.symtab.take s.symtab.length} i = l.ld.typ i := by
    intro i inside
    rw [Pass1.typ,Pass1.typ,List.getElem?_take_of_lt inside]
  have alike : Alike s {l.ld with symtab := l.ld.symtab.take s.symtab.length} := by
    refine ⟨same,⟨[],by rw [same,append_nil]⟩,fun i inside is => ?_,fun i inside is => ?_⟩
    · exact ages.undf i inside (typ i inside ▸ is)
    · exact ages.comm i inside (typ i inside ▸ is)
  refine ⟨sound.of_keys same,alike.2,frame.liblist,fun bad => (nomatch bad),fun _ =>
    ⟨alike,fun c member declares slot i found => ?_⟩,
    fun _ bad => (nomatch bad)⟩
  rw [lookup_keys same] at found
  obtain ⟨slot',j,there,undf,_⟩ := settles c member declares
  rw [ages.lookup found] at there
  cases there
  rw [typ i (lookup_bound found)]
  exact undf

theorem load1_ends (sound : s.Sound) (m : Object) : load1 o libflg s m ≠ .error .loops := by
  intro failed
  have symbols : ∀ l : Loading, l.ld.Sound → ∀ c, loadsym o (rel s m.head) l c ≠ .error .loops := by
    intro l here c bad
    rw [loadsym] at bad
    obtain ⟨⟨slot,sp⟩,found⟩ := here.ends (symreloc (rel s m.head) c).name
    split_ifs at bad
    simp only [found,bind,Except.bind,enter] at bad
    cases sp with
    | none =>
      dsimp only at bad
      split at bad
      next e full =>
        split at full
        · cases full
          cases bad
        · cases full
      next full =>
        split at full
        · cases full
        cases full
        cases bad
    | some i =>
      dsimp only at bad
      split at bad <;> cases bad
  rw [load1] at failed
  simp only [bind,Except.bind] at failed
  split at failed
  next e bad =>
    cases failed
    rw [readhdr] at bad
    split at bad <;> cases bad
  split at failed
  next e bad =>
    cases failed
    have always : Along (loadsym o (rel s m.head)) (fun _ _ => True)
        ⟨s,0,if mkfsym o m.name ≠ 0 then 1 else 0,mkfsym o m.name⟩ m.syms := Along.of_forall _ fun _ _ => trivial
    refine run_ne_error m.syms _ ?_ bad
    exact @Along.of_invariant _ _ _ _ _ (fun l => l.ld.Sound) _ (fun l c here _ => symbols l here c)
      (fun l c l' here _ ok => (loadsym_spec here ok).1) m.syms _ sound always
  next => split at failed <;> cases failed

end

variable {ms : List Object}

section
variable {start : Pass1}

/-- What a search has done so far: it has noted members that are settled now, each one once. -/
structure Searched (o : Flags) (ms : List Object) (start s : Pass1) : Prop where
  sound : s.Sound
  ages : Ages start s
  noted : ∃ loaded, s.liblist = start.liblist ++ loaded ∧ loaded.Nodup ∧ ∀ off ∈ loaded, ∃ m ∈ ms, m.off = off ∧ Settled o s m

theorem Settled.ages (settled : Settled o s m) (ages : Ages s t) : Settled o t m :=
  fun c member declares => ages.settles (settled c member declares)

theorem step_cases (done : step o s m = .ok t) : load1 o true s m = .ok (t,false) ∨
    ∃ u, load1 o true s m = .ok (u,true) ∧ u.liblist.length + 1 < nlibs ∧ t = {u with liblist := u.liblist ++ [m.off]} := by
  obtain ⟨⟨u,loaded⟩,one,done⟩ := except_bind_ok done
  cases loaded with
  | false => cases done; exact .inl one
  | true =>
    change addlibp u m.off = .ok t at done
    rw [addlibp] at done
    split_ifs at done with full
    cases done
    exact .inr ⟨u,one,by omega,rfl⟩

theorem step_spec (distinct : (ms.map Object.off).Nodup) (member : m ∈ ms) (searched : Searched o ms start s)
    (done : step o s m = .ok t) :
    Searched o ms start t ∧ Ages s t ∧ s.loads ≤ t.loads ∧ (t.loads ≠ s.loads → ¬ Settled o s m ∧ Settled o t m) ∧
    (t.loads = s.loads → Alike s t ∧ ∀ c ∈ m.syms, o.declares c = true → t.Resolved c) := by
  obtain ⟨loaded,liblist,once,settled⟩ := searched.noted
  rcases step_cases done with same | ⟨u,load,_,rfl⟩
  · obtain ⟨sound,ages,kept,_,alike,_⟩ := load1_spec searched.sound same
    have loads : t.loads = s.loads := congrArg List.length kept
    refine ⟨⟨sound,searched.ages.trans ages,loaded,kept.trans liblist,once,fun off listed => ?_⟩,ages,loads.ge,
      fun moved => absurd loads moved,
      fun _ => alike rfl⟩
    obtain ⟨x,inside,is,was⟩ := settled off listed
    exact ⟨x,inside,is,was.ages ages⟩
  obtain ⟨sound,ages,kept,settles,_,new⟩ := load1_spec searched.sound load
  have fresh := new rfl rfl
  have made : Settled o {u with liblist := u.liblist ++ [m.off]} m := (settles rfl).ages ((Ages.refl u).of_symtab rfl)
  have further : Ages s {u with liblist := u.liblist ++ [m.off]} := ages.of_symtab rfl
  have more : Pass1.loads {u with liblist := u.liblist ++ [m.off]} = s.loads + 1 := by
    change (u.liblist ++ [m.off]).length = s.liblist.length + 1
    rw [kept,length_append]
    rfl
  refine ⟨⟨sound.of_keys rfl,searched.ages.trans further,loaded ++ [m.off],?_,?_,?_⟩,further,by omega,fun _ => ⟨fresh,made⟩,
    fun still => absurd still (by omega)⟩
  · rw [kept,liblist,append_assoc]
  · refine nodup_append.mpr ⟨once,nodup_singleton _,fun off listed off' last => ?_⟩
    rw [mem_singleton] at last
    rintro rfl
    obtain ⟨x,inside,is,was⟩ := settled off listed
    have same : x = m := inj_on_of_nodup_map distinct inside member (is.trans last)
    exact fresh (same ▸ was)
  · intro off listed
    rcases mem_append.mp listed with old | last
    · obtain ⟨x,inside,is,was⟩ := settled off old
      exact ⟨x,inside,is,was.ages further⟩
    rw [mem_singleton] at last
    exact ⟨m,member,last.symm,made⟩

theorem step_ends (sound : s.Sound) (m : Object) : step o s m ≠ .error .loops := by
  intro failed
  rw [step] at failed
  simp only [bind,Except.bind] at failed
  split at failed
  next e bad =>
    cases failed
    exact load1_ends sound m bad
  next =>
    split at failed
    · rw [addlibp] at failed
      split_ifs at failed
      cases failed
    · cases failed

theorem randstep_cases {p : Ld.Ranlib} (done : randstep o ms s p = .ok t) :
    (t = s ∧ ∀ slot i, lookup s p.name = .ok (slot,some i) → s.typ i = some (nExt + nUndf) → ms.find? (·.off == p.off) = none) ∨
    ∃ m, ms.find? (·.off == p.off) = some m ∧ step o s m = .ok t ∧
      ∃ slot i, lookup s p.name = .ok (slot,some i) ∧ s.typ i = some (nExt + nUndf) := by
  obtain ⟨⟨slot,pp⟩,found,done⟩ := except_bind_ok done
  cases pp with
  | none =>
    cases done
    exact .inl ⟨rfl,fun slot' i found' => by rw [found] at found'; cases found'⟩
  | some i =>
    have typ : s.typ i = some (nExt + nUndf) ↔ (s.symtab[i]?).any (fun e => e.nType == nExt + nUndf) = true := by
      rw [Pass1.typ]
      cases s.symtab[i]? <;> simp
    dsimp only at done
    split at done
    next undf =>
      rw [stepAt] at done
      split at done
      next none =>
        cases done
        exact .inl ⟨rfl,fun _ _ _ _ => none⟩
      next m there => exact .inr ⟨m,there,done,slot,i,found,typ.mpr undf⟩
    next other =>
      cases done
      refine .inl ⟨rfl,fun slot' j found' is => ?_⟩
      rw [found] at found'
      cases found'
      exact absurd (typ.mp is) other

theorem find_member {off : Word} (there : ms.find? (·.off == off) = some m) : m ∈ ms ∧ m.off = off :=
  ⟨mem_of_find?_eq_some there,by simpa using List.find?_some there⟩

def Listed (o : Flags) (ms : List Object) (p : Ld.Ranlib) (s : Pass1) : Prop :=
    ∃ m, ms.find? (·.off == p.off) = some m ∧ Settled o s m

theorem plain_moves (distinct : (ms.map Object.off).Nodup) :
    Moves (step o) Pass1.loads (Searched o ms start) (fun m s => Settled o s m) ms where
  keeps s m member t searched done := by
    obtain ⟨searched',ages,more,_⟩ := step_spec distinct member searched done
    exact ⟨searched',more,fun x settled => settled.ages ages⟩
  finishes s m member t searched done moved := (step_spec distinct member searched done).2.2.2.1 moved

theorem rand_moves (distinct : (ms.map Object.off).Nodup) (rantab : List Ld.Ranlib) :
    Moves (randstep o ms) Pass1.loads (Searched o ms start) (Listed o ms) rantab where
  keeps s p _ t searched done := by
    rcases randstep_cases done with ⟨rfl,_⟩ | ⟨m,there,done,_⟩
    · exact ⟨searched,Nat.le_refl _,fun _ now => now⟩
    obtain ⟨searched',ages,more,_⟩ := step_spec distinct (find_member there).1 searched done
    exact ⟨searched',more,fun q ⟨x,listed,settled⟩ => ⟨x,listed,settled.ages ages⟩⟩
  finishes s p _ t searched done moved := by
    rcases randstep_cases done with ⟨rfl,_⟩ | ⟨m,there,done,_⟩
    · exact absurd rfl moved
    obtain ⟨fresh,made⟩ := (step_spec distinct (find_member there).1 searched done).2.2.2.1 moved
    refine ⟨fun ⟨x,listed,settled⟩ => fresh ?_,m,there,made⟩
    rw [there] at listed
    cases listed
    exact settled

theorem randstep_ends (sound : s.Sound) (p : Ld.Ranlib) : randstep o ms s p ≠ .error .loops := by
  obtain ⟨⟨slot,pp⟩,found⟩ := sound.ends p.name
  rw [randstep,found]
  intro failed
  simp only [bind,Except.bind] at failed
  cases pp with
  | none => cases failed
  | some i =>
    dsimp only at failed
    split at failed
    · rw [stepAt] at failed
      split at failed
      · cases failed
      next m _ => exact step_ends sound m failed
    · cases failed

theorem searched_start (sound : start.Sound) : Searched o ms start start :=
  ⟨sound,Ages.refl _,[],(append_nil _).symm,nodup_nil,fun _ bad => (nomatch bad)⟩

end

section
variable {rantab : List Ld.Ranlib}

theorem addlibp_ok {nloc : Word} (done : addlibp s nloc = .ok t) :
    s.liblist.length + 1 < nlibs ∧ t = {s with liblist := s.liblist ++ [nloc]} := by
  rw [addlibp] at done
  split_ifs at done with full
  cases done
  exact ⟨by omega,rfl⟩

theorem load1lib_ends (distinct : (ms.map Object.off).Nodup) (sound : s.Sound) : load1lib o ms s ≠ .error .loops := by
  intro failed
  have ends := sweeps_ends (@plain_moves o ms s distinct) (fun s m _ searched => step_ends searched.sound m)
    (Nat.lt_succ_self _) (searched_start sound)
  rw [load1lib] at failed
  simp only [bind,Except.bind] at failed
  split at failed
  next e bad =>
    cases failed
    exact ends bad
  next =>
    rw [addlibp] at failed
    split_ifs at failed
    cases failed

theorem rand_sweeps_ends (distinct : (ms.map Object.off).Nodup) (sound : s.Sound) :
    sweeps (randstep o ms) Pass1.loads .loops rantab (rantab.length + 1) s ≠ .error .loops :=
  sweeps_ends (@rand_moves o ms s distinct rantab) (fun _ p _ searched => randstep_ends searched.sound p) (Nat.lt_succ_self _)
    (searched_start sound)

theorem ldrandlib_ends (distinct : (ms.map Object.off).Nodup) (sound : s.Sound) : ldrandlib o ms rantab s ≠ .error .loops := by
  intro failed
  have ends := @rand_sweeps_ends s o ms rantab distinct sound
  rw [ldrandlib] at failed
  simp only [bind,Except.bind] at failed
  split at failed
  · cases failed
  split at failed
  next e bad =>
    cases failed
    exact ends bad
  next =>
    rw [addlibp] at failed
    split_ifs at failed
    cases failed

theorem load1lib_ok (done : load1lib o ms s = .ok t) : ∃ u, sweeps (step o) Pass1.loads .loops ms (ms.length + 1) s = .ok u ∧
    u.liblist.length + 1 < nlibs ∧ t = {u with liblist := u.liblist ++ [endlib]} := by
  obtain ⟨u,ended,done⟩ := except_bind_ok done
  exact ⟨u,ended,addlibp_ok done⟩

theorem ldrandlib_ok (done : ldrandlib o ms rantab s = .ok t) : rantab.length < Archives.Ld.rantabsz ∧
    ∃ u, sweeps (randstep o ms) Pass1.loads .loops rantab (rantab.length + 1) s = .ok u ∧
    t = {u with liblist := u.liblist ++ [endlib]} := by
  rw [ldrandlib] at done
  split at done
  · cases done
  next room =>
    obtain ⟨u,ended,done⟩ := except_bind_ok done
    exact ⟨by omega,u,ended,(addlibp_ok done).2⟩

def Resolves (o : Flags) (m : Object) (s : Pass1) : Prop := ∀ c ∈ m.syms, o.declares c = true → s.Resolved c

theorem Alike.refl (s : Pass1) : Alike s s := ⟨rfl,Ages.refl s⟩

theorem Alike.trans {u : Pass1} (first : Alike s t) (second : Alike t u) :
    Alike s u := ⟨second.1.trans first.1,first.2.trans second.2⟩

theorem Resolves.stays (resolves : Resolves o m s) (alike : Alike s t) : Resolves o m t :=
  fun c member declares => (resolves c member declares).stays alike

theorem plain_outcome (distinct : (ms.map Object.off).Nodup) (sound : s.Sound) {n : Nat}
    (ended : sweeps (step o) Pass1.loads .loops ms n s = .ok t) : Searched o ms s t ∧ ∀ m ∈ ms, Resolves o m t := by
  have moves := @plain_moves o ms s distinct
  have preserved := fun s m member t searched done => (moves.keeps s m member t searched done).1
  obtain ⟨u,searched,ran,still⟩ := sweeps_last preserved (searched_start sound) ended
  have left := moves.quiet Alike.refl (fun s t u => Alike.trans) (fun m s t (resolves : Resolves o m s) => resolves.stays)
    (fun s m member t searched done still => (step_spec distinct member searched done).2.2.2.2 still) searched ran still
  exact ⟨sweeps_invariant preserved (searched_start sound) ended,left.2⟩

def Answers (o : Flags) (ms : List Object) (p : Ld.Ranlib) (s : Pass1) : Prop :=
  ∀ m, ms.find? (·.off == p.off) = some m → ∀ c ∈ m.syms, c.name = p.name → o.declares c = true → s.Resolved c

theorem rand_outcome (distinct : (ms.map Object.off).Nodup) (sound : s.Sound) {n : Nat}
    (ended : sweeps (randstep o ms) Pass1.loads .loops rantab n s = .ok t) : Searched o ms s t ∧ ∀ p ∈ rantab,
    Answers o ms p t := by
  have moves := @rand_moves o ms s distinct rantab
  have preserved := fun s p member t searched done => (moves.keeps s p member t searched done).1
  obtain ⟨u,searched,ran,still⟩ := sweeps_last preserved (searched_start sound) ended
  have stays : ∀ (p : Ld.Ranlib) (s t : Pass1), Answers o ms p s → Alike s t → Answers o ms p t :=
    fun p s t answers alike m there c member name declares => (answers m there c member name declares).stays alike
  have left := moves.quiet Alike.refl (fun s t u => Alike.trans) stays (fun s p _ t searched done still => ?_) searched ran still
  · exact ⟨sweeps_invariant preserved (searched_start sound) ended,left.2⟩
  rcases randstep_cases done with ⟨rfl,none⟩ | ⟨m,there,done,_⟩
  · refine ⟨Alike.refl _,fun m there c _ name _ slot i found is => ?_⟩
    rw [name] at found
    rw [none slot i found is] at there
    cases there
  obtain ⟨alike,resolves⟩ := (step_spec distinct (find_member there).1 searched done).2.2.2.2 still
  refine ⟨alike,fun x listed c member _ declares => ?_⟩
  rw [there] at listed
  cases listed
  exact resolves c member declares

end

end Retrobsd.Linker
