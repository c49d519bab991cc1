import Retrobsd.LibrarySearch

/-! Which members a library is searched for, and why a scan of the members and one of the table of contents come to the
same symbols: where no lookup takes a name for a longer one, and no common is taken for undefined. -/
namespace Retrobsd.Linker
open List
open Relocations (Byte Word Nlist Exec nUndf nAbs nText nData nBss nComm nTypeMask nExt rmagic)
open Archives (Ld.Ranlib)
open Lib.Run Lib.Sweeps Lib.Probing
open Lib.Fields (text)

variable {o : Flags} {c : Nlist}

section
variable {r : Rel} {base : Pass1} {l l' : Loading}

def Demands (o : Flags) (base : Pass1) (c : Nlist) : Prop :=
    o.defines c = true ∧ ∃ i slot, base.keys[i]? = some (slot,cstr c.name) ∧
    (base.typ i = some (nExt + nUndf) ∨ base.typ i = some (nExt + nComm) ∧ storage (relType c.nType) = true)

def Touches (o : Flags) (base : Pass1) (c : Nlist) (i : Nat) : Prop :=
  o.external c = true ∧ relType c.nType ≠ nExt + nUndf ∧ ∃ slot, base.keys[i]? = some (slot,cstr c.name) ∧
    (base.typ i = some (nExt + nUndf) ∨ Demands o base c)

def Exact (s : Pass1) (c : Nlist) : Prop := ∀ slot i, lookup s c.name = .ok (slot,some i) → s.keys[i]? = some (slot,cstr c.name)

def Fresh (base s : Pass1) (c : Nlist) : Prop :=
    ∀ i slot, s.keys[i]? = some (slot,cstr c.name) → i < base.symtab.length ∧ s.typ i = base.typ i

theorem redefine_changes {sp : Nlist} (moved : (redefine sp c).1.nType ≠ sp.nType) : c.nType ≠ nExt + nUndf ∧
    (sp.nType = nExt + nUndf ∨ sp.nType = nExt + nComm ∧ c.nType ≠ nExt + nComm ∧ storage c.nType = true) := by
  revert moved
  rw [redefine,storage]
  generalize nExt + nUndf = u, nExt + nComm = k, nExt + nData = d, nExt + nBss = b
  split_ifs <;> grind

theorem Ages.keys_old {s t : Pass1} (ages : Ages s t) {i : Nat} (inside : i < s.symtab.length) : t.keys[i]? = s.keys[i]? := by
  obtain ⟨more,keys⟩ := ages.keys
  rw [keys,List.getElem?_append_left (by rwa [length_keys])]

theorem Exact.earlier {s t : Pass1} (exact : Exact t c) (ages : Ages s t) : Exact s c := by
  intro slot i found
  rw [← ages.keys_old (lookup_bound found)]
  exact exact slot i (ages.lookup found)

theorem loadsym_demands (sound : base.Sound) (ages : Ages base l.ld) (precise : o.external c = true → Exact l.ld c)
    (fresh : o.external c = true → Fresh base l.ld c) (done : loadsym o r l c = .ok l') :
    ( l'.ndef ≠ l.ndef ↔ Demands o base c) ∧ (∀ i < base.symtab.length, l'.ld.typ i ≠ l.ld.typ i → Touches o base c i) ∧
    ∀ d : Nlist, (o.external c = true → cstr d.name ≠ cstr c.name) → Fresh base l.ld d → Fresh base l'.ld d := by
  rcases loadsym_cases done with ⟨other,same,ndef⟩ | ⟨external,e,is,missed,room,ld,ndef⟩ | ⟨external,slot,i,e,
    found,there,ld,ndef⟩
  · rw [same,ndef]
    refine ⟨⟨fun bad => absurd rfl bad,fun demands => ?_⟩,fun i _ moved => absurd rfl moved,fun d _ fresh => fresh⟩
    have external := (Flags.defines_spec.mp demands.1).1
    rw [other] at external
    cases external
  · have name : e.name = c.name := by rw [is,symreloc_name]
    rw [ld,ndef]
    refine ⟨⟨fun bad => absurd rfl bad,fun demands => ?_⟩,fun i inside moved => ?_,fun d apart fresh i slot listed => ?_⟩
    · obtain ⟨_,i,slot,listed,_⟩ := demands
      have found := ages.lookup (sound.own i slot c.name listed)
      rw [missed] at found
      cases found
    · exact absurd (typ_entered _ e (inside.trans_le ages.length)) moved
    rw [keys_entered] at listed
    rcases Nat.lt_or_ge i l.ld.keys.length with old | new
    · rw [List.getElem?_append_left old] at listed
      rw [typ_entered _ e (by rwa [length_keys] at old)]
      exact fresh i slot listed
    rw [List.getElem?_append_right new,List.getElem?_singleton] at listed
    split at listed
    · have same := (Prod.mk.inj (Option.some.inj listed)).2
      rw [name] at same
      exact absurd same.symm (apart external)
    · cases listed
  have type := external_type (r := r) external
  have typ : l.ld.typ i = some e.nType := by rw [Pass1.typ,there]; rfl
  have listed := precise external slot i found
  obtain ⟨inside,was⟩ := fresh external i slot listed
  have here : base.keys[i]? = some (slot,cstr c.name) := by rw [← ages.keys_old inside]; exact listed
  obtain ⟨name,_,_,counts,_⟩ := redefine_spec e.toNlist (symreloc r c)
  have demands : (redefine e.toNlist (symreloc r c)).2 = true ↔ Demands o base c := by
    rw [counts,type]
    constructor
    · rintro ⟨undf,comm,old⟩
      refine ⟨Flags.defines_spec.mpr ⟨external,undf,comm⟩,i,slot,here,?_⟩
      rw [← was,typ]
      exact old.imp (congrArg some) (And.imp_left (congrArg some))
    rintro ⟨defines,j,slot',listed',old⟩
    obtain ⟨_,undf,comm⟩ := Flags.defines_spec.mp defines
    have found' := ages.lookup (sound.own j slot' c.name listed')
    rw [found] at found'
    cases found'
    rw [← was,typ] at old
    exact ⟨undf,comm,old.imp Option.some.inj (And.imp_left Option.some.inj)⟩
  rw [ld,ndef]
  refine ⟨?_,fun j _ moved => ?_,fun d apart fresh j slot' listed' => ?_⟩
  · rw [← demands]
    split
    next yes => exact ⟨fun _ => yes,fun _ => by omega⟩
    next no => exact ⟨fun bad => absurd rfl bad,fun yes => absurd yes no⟩
  · rw [typ_changed there] at moved
    split at moved
    next same =>
      subst same
      rw [typ] at moved
      obtain ⟨undf,old⟩ := redefine_changes fun same => moved (congrArg some same)
      rw [type] at undf
      refine ⟨external,undf,slot,here,?_⟩
      rw [← was,typ]
      refine old.imp (congrArg some) fun later => demands.mp (counts.mpr ?_)
      exact ⟨type ▸ undf,later.2.1,.inr ⟨later.1,later.2.2⟩⟩
    next => exact absurd rfl moved
  · have keys : (l.ld.changed i ⟨(redefine e.toNlist (symreloc r c)).1,e.slot⟩).keys = l.ld.keys := keys_changed there rfl name
    rw [keys] at listed'
    rw [typ_changed there]
    split
    next same =>
      subst same
      rw [listed] at listed'
      exact absurd (Prod.mk.inj (Option.some.inj listed')).2.symm (apart external)
    next => exact fresh j slot' listed'

def Distinct (o : Flags) (cs : List Nlist) : Prop :=
    cs.Pairwise fun c d => o.external c = true → o.external d = true → cstr d.name ≠ cstr c.name

theorem run_demands {cs : List Nlist} (sound : l.ld.Sound) (sound' : base.Sound) (ages : Ages base l.ld)
    (distinct : Distinct o cs)
    (precise : ∀ c ∈ cs, o.external c = true → Exact l'.ld c) (fresh : ∀ c ∈ cs, o.external c = true → Fresh base l.ld c)
    (done : run (loadsym o r) l cs = .ok l') : ( l'.ndef ≠ l.ndef ↔ ∃ c ∈ cs, Demands o base c) ∧
    ∀ i < base.symtab.length, l'.ld.typ i ≠ l.ld.typ i → ∃ c ∈ cs, Touches o base c i := by
  induction cs generalizing l with
  | nil =>
    cases done
    exact ⟨⟨fun bad => absurd rfl bad,fun ⟨_,bad,_⟩ => (nomatch bad)⟩,fun _ _ bad => absurd rfl bad⟩
  | cons c cs ih =>
    obtain ⟨k,first,done⟩ := of_run_cons done
    obtain ⟨soundk,agesk,_,less⟩ := loadsym_spec sound first
    obtain ⟨_,later,_,more⟩ := run_spec soundk done
    obtain ⟨apart,distinct⟩ := pairwise_cons.mp distinct
    obtain ⟨counts,touches,keeps⟩ := loadsym_demands sound' ages
      (fun external => (precise c mem_cons_self external).earlier (agesk.trans later)) (fresh c mem_cons_self) first
    have fresh' : ∀ d ∈ cs, o.external d = true → Fresh base k.ld d := fun d member external =>
      keeps d (fun one => apart d member one external) (fresh d (mem_cons_of_mem _ member) external)
    obtain ⟨rest,touched⟩ := ih soundk (ages.trans agesk) distinct (fun d member =>
      precise d (mem_cons_of_mem _ member)) fresh' done
    refine ⟨?_,fun i inside moved => ?_⟩
    · rw [exists_mem_cons_iff,← counts,← rest]
      omega
    by_cases one : k.ld.typ i = l.ld.typ i
    · obtain ⟨d,member,by_⟩ := touched i inside (one.symm ▸ moved)
      exact ⟨d,mem_cons_of_mem _ member,by_⟩
    · exact ⟨c,mem_cons_self,touches i inside one⟩

end

variable {s t : Pass1} {m : Object} {loaded : Bool}

def isDefinition (c : Nlist) : Bool :=
    c.nType == nExt + nText || c.nType == nExt + nData || c.nType == nExt + nBss || c.nType == nExt + nAbs

/-- An object whose external symbols `ld` takes for what they are: none is weak, each comes once, and `-S` does not
discard one. -/
structure Object.Proper (o : Flags) (m : Object) : Prop where
  typed : ∀ c ∈ m.syms, c.nType &&& nExt ≠ 0 → isDefinition c = true ∨ c.nType = nExt + nUndf ∨ c.nType = nExt + nComm
  kept : o.Sflag = true → ∀ c ∈ m.syms, c.nType ≠ nExt + nAbs
  once : m.syms.Pairwise fun c d => c.nType &&& nExt ≠ 0 → d.nType &&& nExt ≠ 0 → cstr d.name ≠ cstr c.name

theorem isDefinition_cases : isDefinition c = true ↔
    c.nType = nExt + nText ∨ c.nType = nExt + nData ∨ c.nType = nExt + nBss ∨ c.nType = nExt + nAbs := by
  simp [isDefinition,or_assoc]

theorem Object.Proper.external (proper : m.Proper o) (member : c ∈ m.syms) : o.external c = true ↔ c.nType &&& nExt ≠ 0 := by
  rw [Flags.external,Bool.and_eq_true,bne_iff_ne]
  refine ⟨And.right,fun ext => ⟨?_,ext⟩⟩
  rw [Bool.not_eq_true',Flags.drops,Bool.and_eq_false_iff]
  cases sflag : o.Sflag with
  | false => exact .inl rfl
  | true =>
    have other := proper.kept sflag c member
    refine .inr ?_
    rcases proper.typed c member ext with defined | is | is
    · rcases isDefinition_cases.mp defined with is | is | is | is
      · rw [is]; rfl
      · rw [is]; rfl
      · rw [is]; rfl
      · exact absurd is other
    · rw [is]; rfl
    · rw [is]; rfl

theorem Object.Proper.relType (proper : m.Proper o) (member : c ∈ m.syms) (ext : c.nType &&& nExt ≠ 0) :
    relType c.nType = c.nType := by
  rcases proper.typed c member ext with defined | is | is
  · rcases isDefinition_cases.mp defined with is | is | is | is <;> rw [is] <;> rfl
  · rw [is]; rfl
  · rw [is]; rfl

theorem isDefinition_ext (defined : isDefinition c = true) : c.nType &&& nExt ≠ 0 := by
  rcases isDefinition_cases.mp defined with is | is | is | is <;> rw [is] <;> decide

theorem Object.Proper.defines (proper : m.Proper o) (member : c ∈ m.syms) : o.defines c = true ↔ isDefinition c = true := by
  rw [Flags.defines_spec,proper.external member]
  constructor
  · rintro ⟨ext,undf,comm⟩
    rw [proper.relType member ext] at undf comm
    rcases proper.typed c member ext with defined | is | is
    · exact defined
    · exact absurd is undf
    · exact absurd is comm
  · intro defined
    have ext := isDefinition_ext defined
    rw [proper.relType member ext]
    refine ⟨ext,?_⟩
    rcases isDefinition_cases.mp defined with is | is | is | is <;> rw [is] <;> decide

theorem Object.Proper.distinct (proper : m.Proper o) : Distinct o m.syms := by
  refine proper.once.imp fun {c d} apart one other => ?_
  simp only [Flags.external,Bool.and_eq_true,bne_iff_ne] at one other
  exact apart one.2 other.2

def loading (o : Flags) (s : Pass1) (m : Object) : Loading := ⟨s,0,if mkfsym o m.name ≠ 0 then 1 else 0,mkfsym o m.name⟩

def Named (o : Flags) (s : Pass1) (m : Object) : Prop :=
  ∀ l, run (loadsym o (rel s m.head)) (loading o s m) m.syms = .ok l → ∀ c ∈ m.syms, o.external c = true → Exact l.ld c

def Wanted (s : Pass1) (m : Object) : Prop :=
  ∃ c ∈ m.syms, isDefinition c = true ∧ ∃ e ∈ s.symtab, e.nType = nExt + nUndf ∧ cstr e.name = cstr c.name

def Overrides (s : Pass1) (m : Object) : Prop :=
  ∃ c ∈ m.syms, storage c.nType = true ∧ ∃ e ∈ s.symtab, e.nType = nExt + nComm ∧ cstr e.name = cstr c.name

def Clear (o : Flags) (s : Pass1) (m : Object) : Prop := Named o s m ∧ (Overrides s m → Wanted s m)

theorem load1_demands (sound : s.Sound) (distinct : Distinct o m.syms) (named : Named o s m)
    (done : load1 o true s m = .ok (t,loaded)) :
    (loaded = true ↔ ∃ c ∈ m.syms, Demands o s c) ∧
    (loaded = false → ∀ i < s.symtab.length, t.typ i ≠ s.typ i → ∃ c ∈ m.syms, Touches o s c i) := by
  obtain ⟨l,ran,ended⟩ := load1_cases done
  have fresh : ∀ c ∈ m.syms, o.external c = true → Fresh s (loading o s m).ld c := fun c _ _ i slot listed => by
    have inside := (List.getElem?_eq_some_iff.mp listed).1
    rw [length_keys] at inside
    exact ⟨inside,rfl⟩
  obtain ⟨counts,touches⟩ := run_demands (l := loading o s m) sound sound (Ages.refl s) distinct (named l ran) fresh ran
  rw [← counts]
  rcases ended with ⟨rfl,why,rfl⟩ | ⟨rfl,_,none,rfl⟩
  · refine ⟨⟨fun _ => why.resolve_left (by simp),fun _ => rfl⟩,fun bad => (nomatch bad)⟩
  refine ⟨⟨fun bad => (nomatch bad),fun more => absurd none more⟩,fun _ i inside moved => touches i inside ?_⟩
  have typ : Pass1.typ {l.ld with symtab := l.ld.symtab.take s.symtab.length} i = l.ld.typ i := by
    rw [Pass1.typ,Pass1.typ,List.getElem?_take_of_lt inside]
  rw [typ] at moved
  exact moved

theorem key_entry {i slot : Nat} {name : List Byte} (listed : s.keys[i]? = some (slot,cstr name)) :
    ∃ e ∈ s.symtab, s.typ i = some e.nType ∧ cstr e.name = cstr name := by
  rw [Pass1.keys,List.getElem?_map,Option.map_eq_some_iff] at listed
  obtain ⟨e,there,same⟩ := listed
  exact ⟨e,mem_of_getElem? there,by rw [Pass1.typ,there]; rfl,(Prod.mk.inj same).2⟩

theorem entry_key {e : Entry} (member : e ∈ s.symtab) :
    ∃ i, s.keys[i]? = some (e.slot,cstr e.name) ∧ s.typ i = some e.nType := by
  obtain ⟨i,there⟩ := mem_iff_getElem?.mp member
  exact ⟨i,by rw [Pass1.keys,List.getElem?_map,there]; rfl,by rw [Pass1.typ,there]; rfl⟩

theorem load1_iff (sound : s.Sound) (proper : m.Proper o) (named : Named o s m) (done : load1 o true s m = .ok (t,loaded)) :
    loaded = true ↔ Wanted s m ∨ Overrides s m := by
  rw [(load1_demands sound proper.distinct named done).1]
  constructor
  · rintro ⟨c,member,defines,i,slot,listed,old⟩
    have defined := (proper.defines member).mp defines
    rw [proper.relType member (isDefinition_ext defined)] at old
    obtain ⟨e,inside,typ,name⟩ := key_entry listed
    rw [typ] at old
    rcases old with is | ⟨is,data⟩
    · exact .inl ⟨c,member,defined,e,inside,Option.some.inj is,name⟩
    · exact .inr ⟨c,member,data,e,inside,Option.some.inj is,name⟩
  rintro (⟨c,member,defined,e,inside,is,name⟩ | ⟨c,member,data,e,inside,is,name⟩)
  · obtain ⟨i,listed,typ⟩ := entry_key inside
    exact ⟨c,member,(proper.defines member).mpr defined,i,e.slot,name ▸ listed,.inl (typ.trans (congrArg some is))⟩
  have defined : isDefinition c = true := by
    rw [storage,Bool.or_eq_true,beq_iff_eq,beq_iff_eq] at data
    rw [isDefinition_cases]
    exact .inr (data.imp_right .inl)
  obtain ⟨i,listed,typ⟩ := entry_key inside
  refine ⟨c,member,(proper.defines member).mpr defined,i,e.slot,name ▸ listed,.inr ⟨typ.trans (congrArg some is),?_⟩⟩
  rw [proper.relType member (isDefinition_ext defined)]
  exact data

theorem load1_wanted (sound : s.Sound) (proper : m.Proper o) (clear : Clear o s m)
    (done : load1 o true s m = .ok (t,true)) : Wanted s m :=
  ((load1_iff sound proper clear.1 done).mp rfl).elim id clear.2

variable {u : Pass1}

/-- The same symbols with the same types, and the same members are noted. Sizes of commons may differ. -/
structure Twin (s t : Pass1) : Prop where
  keys : t.keys = s.keys
  typ : t.typ = s.typ
  liblist : t.liblist = s.liblist

theorem Twin.refl (s : Pass1) : Twin s s := ⟨rfl,rfl,rfl⟩

theorem Twin.length (twin : Twin s t) : t.symtab.length = s.symtab.length := by
  rw [← length_keys,twin.keys,length_keys]

theorem redefine_twin {sp sp' c' : Nlist} (type : sp'.nType = sp.nType) (same : c'.nType = c.nType) :
    (redefine sp' c').1.nType = (redefine sp c).1.nType ∧ (redefine sp' c').2 = (redefine sp c).2 := by
  rw [redefine,redefine,type,same]
  split_ifs <;> first | exact ⟨rfl,rfl⟩ | exact ⟨type,rfl⟩

theorem loadsym_twin {r r' : Rel} {k l l' : Loading} (twin : Twin l.ld k.ld) (ndef : k.ndef = l.ndef)
    (done : loadsym o r l c = .ok l') : ∃ k', loadsym o r' k c = .ok k' ∧ Twin l'.ld k'.ld ∧ k'.ndef = l'.ndef := by
  have search := lookup_keys twin.keys c.name
  rw [loadsym] at done ⊢
  by_cases drop : o.drops c.nType = true
  · rw [if_pos drop] at done ⊢
    cases done
    exact ⟨k,rfl,twin,ndef⟩
  rw [if_neg drop] at done ⊢
  by_cases ext : c.nType &&& nExt = 0
  · rw [if_pos ext] at done ⊢
    split at done <;> cases done
    next yes =>
      rw [if_pos yes]
      exact ⟨k,rfl,twin,ndef⟩
    next no =>
      rw [if_neg no]
      exact ⟨_,rfl,twin,ndef⟩
  rw [if_neg ext] at done ⊢
  obtain ⟨⟨slot,sp⟩,found,done⟩ := except_bind_ok done
  rw [symreloc_name] at found
  have type : (symreloc r' c).nType = (symreloc r c).nType := by rw [symreloc_type r' ext,symreloc_type r ext]
  have name : (symreloc r' c).name = (symreloc r c).name := by rw [symreloc_name,symreloc_name]
  simp only [symreloc_name,search,found,bind,Except.bind]
  obtain ⟨⟨ld,known⟩,entered,done⟩ := except_bind_ok done
  cases sp with
  | none =>
    simp only [enter] at entered ⊢
    split at entered
    · cases entered
    next room =>
      cases entered
      cases done
      rw [if_neg (by rw [twin.length]; exact room)]
      refine ⟨_,rfl,⟨?_,?_,twin.liblist⟩,ndef⟩
      · change (k.ld.entered ⟨symreloc r' c,slot⟩).keys = (l.ld.entered ⟨symreloc r c,slot⟩).keys
        rw [keys_entered,keys_entered,twin.keys,name]
      funext i
      change (k.ld.entered ⟨symreloc r' c,slot⟩).typ i = (l.ld.entered ⟨symreloc r c,slot⟩).typ i
      rcases Nat.lt_trichotomy i l.ld.symtab.length with old | rfl | beyond
      · rw [typ_entered _ _ old,typ_entered _ _ (by rwa [twin.length]),twin.typ]
      · rw [typ_new,← twin.length,typ_new]
        exact congrArg some type
      rw [Pass1.typ,Pass1.typ,List.getElem?_eq_none,List.getElem?_eq_none]
      · rw [Pass1.entered,length_append]
        exact beyond
      rw [Pass1.entered,length_append,twin.length]
      exact beyond
  | some i =>
    cases entered
    have inside := lookup_bound found
    have there : l.ld.symtab[i]? = some l.ld.symtab[i] := List.getElem?_eq_getElem inside
    have inside' : i < k.ld.symtab.length := by rwa [twin.length]
    have there' : k.ld.symtab[i]? = some k.ld.symtab[i] := List.getElem?_eq_getElem inside'
    have old : k.ld.symtab[i].nType = l.ld.symtab[i].nType := by
      have typ := congrFun twin.typ i
      rw [Pass1.typ,Pass1.typ,there,there'] at typ
      exact Option.some.inj typ
    obtain ⟨new,counts⟩ := redefine_twin old type
    simp only [enter] at done ⊢
    rw [there] at done
    rw [there']
    cases done
    have keys : (l.ld.changed i ⟨(redefine l.ld.symtab[i].toNlist (symreloc r c)).1,l.ld.symtab[i].slot⟩).keys = l.ld.keys :=
      keys_changed there rfl (redefine_spec _ _).1
    have keys' : (k.ld.changed i ⟨(redefine k.ld.symtab[i].toNlist (symreloc r' c)).1,k.ld.symtab[i].slot⟩).keys = k.ld.keys :=
      keys_changed there' rfl (redefine_spec _ _).1
    refine ⟨_,rfl,⟨keys'.trans (twin.keys.trans keys.symm),?_,twin.liblist⟩,?_⟩
    · funext j
      refine (typ_changed there' j).trans (Eq.trans ?_ (typ_changed there j).symm)
      rw [twin.typ]
      dsimp only
      rw [new]
    · dsimp only
      rw [counts,ndef]

theorem run_twin {r r' : Rel} {k l l' : Loading} {cs : List Nlist} (twin : Twin l.ld k.ld) (ndef : k.ndef = l.ndef)
    (done : run (loadsym o r) l cs = .ok l') : ∃ k', run (loadsym o r') k cs = .ok k' ∧ Twin l'.ld k'.ld ∧
    k'.ndef = l'.ndef := by
  induction cs generalizing l k with
  | nil => cases done; exact ⟨k,rfl,twin,ndef⟩
  | cons c cs ih =>
    obtain ⟨m,first,done⟩ := of_run_cons done
    obtain ⟨n,first',twin',ndef'⟩ : ∃ n, loadsym o r' k c = .ok n ∧ Twin m.ld n.ld ∧ n.ndef = m.ndef :=
      loadsym_twin twin ndef first
    rw [run_cons_ok cs first']
    exact ih twin' ndef' done

theorem load1_twin (twin : Twin s u) (done : load1 o true s m = .ok (t,loaded)) :
    ∃ v, load1 o true u m = .ok (v,loaded) ∧ Twin t v := by
  obtain ⟨_,header,done'⟩ := except_bind_ok done
  obtain ⟨l,ran,ended⟩ := load1_cases done
  obtain ⟨k,ran',twin',counts⟩ := @run_twin o (rel s m.head) (rel u m.head) (loading o u m) (loading o s m) l m.syms twin rfl ran
  rw [loading] at ran'
  rw [load1,header]
  simp only [bind,Except.bind]
  rw [ran']
  dsimp only
  rw [counts]
  rcases ended with ⟨rfl,why,rfl⟩ | ⟨rfl,_,none,rfl⟩
  · rw [if_pos (by simpa using why)]
    exact ⟨_,rfl,⟨twin'.keys,twin'.typ,twin'.liblist⟩⟩
  rw [if_neg (by simp [none])]
  refine ⟨_,rfl,⟨?_,?_,twin'.liblist⟩⟩
  · change (k.ld.symtab.take u.symtab.length).map _ = (l.ld.symtab.take s.symtab.length).map _
    rw [map_take,map_take,twin.length]
    exact congrArg (List.take s.symtab.length) twin'.keys
  funext i
  have typ := congrFun twin'.typ i
  rw [Pass1.typ,Pass1.typ] at typ ⊢
  rw [twin.length,List.getElem?_take,List.getElem?_take]
  split
  · exact typ
  · rfl

theorem step_twin (twin : Twin s u) (done : step o s m = .ok t) : ∃ v, step o u m = .ok v ∧ Twin t v := by
  rcases step_cases done with same | ⟨w,load,room,rfl⟩
  · obtain ⟨v,done',twin'⟩ := load1_twin twin same
    refine ⟨v,?_,twin'⟩
    rw [step,done']
    rfl
  obtain ⟨v,done',twin'⟩ := load1_twin twin load
  refine ⟨{v with liblist := v.liblist ++ [m.off]},?_,⟨twin'.keys,twin'.typ,congrArg (· ++ [m.off]) twin'.liblist⟩⟩
  rw [step,done']
  change addlibp v m.off = _
  rw [addlibp,if_neg]
  rw [twin'.liblist]
  omega

variable {ms : List Object}

def entriesOf (m : Object) : List Ld.Ranlib :=
  (m.syms.filter fun c => c.nType &&& nExt != 0 && c.nType &&& nTypeMask != nUndf).map fun c => ⟨m.off,c.name⟩

def contentsOf (ms : List Object) : List Ld.Ranlib := ms.flatMap entriesOf

theorem mem_entriesOf {p : Ld.Ranlib} : p ∈ entriesOf m ↔
    ∃ c ∈ m.syms, c.nType &&& nExt ≠ 0 ∧ c.nType &&& nTypeMask ≠ nUndf ∧ p = ⟨m.off,c.name⟩ := by
  rw [entriesOf,mem_map]
  constructor
  · rintro ⟨c,listed,rfl⟩
    obtain ⟨member,global⟩ := mem_filter.mp listed
    rw [Bool.and_eq_true,bne_iff_ne,bne_iff_ne] at global
    exact ⟨c,member,global.1,global.2,rfl⟩
  · rintro ⟨c,member,ext,undf,rfl⟩
    exact ⟨c,mem_filter.mpr ⟨member,by rw [Bool.and_eq_true,bne_iff_ne,bne_iff_ne]; exact ⟨ext,undf⟩⟩,rfl⟩

theorem run_passes {es : List Ld.Ranlib} (sound : u.Sound) (other : ∀ p ∈ es, ∀ slot i, lookup u p.name = .ok (slot,some i) →
    u.typ i ≠ some (nExt + nUndf)) : run (randstep o ms) u es = .ok u := by
  induction es with
  | nil => rfl
  | cons p es ih =>
    have here : randstep o ms u p = .ok u := by
      obtain ⟨⟨slot,pp⟩,found⟩ := sound.ends p.name
      rw [randstep,found]
      cases pp with
      | none => rfl
      | some i =>
        have apart := other p mem_cons_self slot i found
        change (if _ then _ else _) = _
        rw [if_neg]
        · rfl
        rw [Option.any_eq_true]
        rintro ⟨e,there,is⟩
        rw [Pass1.typ,there] at apart
        exact apart (congrArg some (by simpa using is))
    rw [run_cons_ok es here]
    exact ih fun q member => other q (mem_cons_of_mem _ member)

theorem randstep_undf {p : Ld.Ranlib} {slot i : Nat} (found : lookup u p.name = .ok (slot,some i))
    (undf : u.typ i = some (nExt + nUndf)) :
    randstep o ms u p = stepAt o ms u p.off := by
  rw [randstep,found]
  change (if _ then _ else _) = _
  rw [if_pos]
  rw [Pass1.typ,Option.map_eq_some_iff] at undf
  obtain ⟨e,there,is⟩ := undf
  rw [there]
  simpa using is

theorem find_off (distinct : (ms.map Object.off).Nodup) (member : m ∈ ms) : ms.find? (·.off == m.off) = some m := by
  cases found : ms.find? (·.off == m.off) with
  | none =>
    have none := List.find?_eq_none.mp found m member
    simp at none
  | some x =>
    obtain ⟨inside,same⟩ := find_member found
    rw [inj_on_of_nodup_map distinct inside member same]

theorem step_resolves (distinct : (ms.map Object.off).Nodup) (member : m ∈ ms) (sound : s.Sound) (done : step o s m = .ok t) :
    Resolves o m t := by
  intro c listed declares
  obtain ⟨_,_,_,moved,still⟩ := step_spec distinct member (searched_start sound) done
  by_cases same : t.loads = s.loads
  · exact (still same).2 c listed declares
  obtain ⟨slot,i,found,undf,_⟩ := (moved same).2 c listed declares
  intro slot' j found'
  rw [found] at found'
  cases found'
  exact undf

theorem Object.Proper.declares (proper : m.Proper o) (listed : c ∈ m.syms) (ext : c.nType &&& nExt ≠ 0)
    (global : c.nType &&& nTypeMask ≠ nUndf) : o.declares c = true := by
  rw [Flags.declares_spec,proper.external listed,proper.relType listed ext]
  refine ⟨ext,?_⟩
  rintro is
  rw [is] at global
  exact global rfl

def Awaited (s : Pass1) (m : Object) : Prop :=
    ∃ p ∈ entriesOf m, ∃ slot i, lookup s p.name = .ok (slot,some i) ∧ s.typ i = some (nExt + nUndf)

theorem run_awaited {v : Pass1} (distinct : (ms.map Object.off).Nodup) (member : m ∈ ms) (proper : m.Proper o) (sound : u.Sound)
    (stepped : step o u m = .ok v) {es : List Ld.Ranlib} (inside : ∀ p ∈ es, p ∈ entriesOf m)
    (one : ∃ p ∈ es, ∃ slot i, lookup u p.name = .ok (slot,some i) ∧ u.typ i = some (nExt + nUndf)) :
    run (randstep o ms) u es = .ok v := by
  have resolves := step_resolves distinct member sound stepped
  have sound' : v.Sound := (step_spec distinct member (searched_start sound) stepped).1.sound
  induction es with
  | nil =>
    obtain ⟨_,bad,_⟩ := one
    cases bad
  | cons p es ih =>
    have tail := fun q listed => inside q (mem_cons_of_mem p listed)
    by_cases here : ∃ slot i, lookup u p.name = .ok (slot,some i) ∧ u.typ i = some (nExt + nUndf)
    · obtain ⟨slot,i,found,undf⟩ := here
      obtain ⟨c,_,_,_,rfl⟩ := mem_entriesOf.mp (inside p mem_cons_self)
      have first : randstep o ms u ⟨m.off,c.name⟩ = .ok v := by
        rw [randstep_undf found undf,stepAt,find_off distinct member]
        exact stepped
      rw [run_cons_ok es first]
      refine run_passes sound' fun p listed slot i found => ?_
      obtain ⟨c,declared,ext,global,rfl⟩ := mem_entriesOf.mp (tail p listed)
      exact resolves c declared (proper.declares declared ext global) slot i found
    have first : run (randstep o ms) u [p] = .ok u := by
      refine run_passes sound fun q listed slot i found undf => here ⟨slot,i,?_,undf⟩
      rw [← mem_singleton.mp listed]
      exact found
    rw [← singleton_append,run_append_ok [p] es first]
    obtain ⟨q,listed,undefined⟩ := one
    rcases mem_cons.mp listed with rfl | later
    · exact absurd undefined here
    · exact ih tail ⟨q,later,undefined⟩

theorem step_unawaited (proper : m.Proper o) (sound : s.Sound) (clear : Clear o s m) (idle : ¬ Awaited s m)
    (done : step o s m = .ok t) :
    Twin t s := by
  have typed : ∀ c ∈ m.syms, o.external c = true → relType c.nType ≠ nExt + nUndf → c.nType &&& nExt ≠ 0 ∧
    c.nType &&& nTypeMask ≠ nUndf := by
    intro c listed external undf
    have ext := (proper.external listed).mp external
    rw [proper.relType listed ext] at undf
    refine ⟨ext,?_⟩
    rcases proper.typed c listed ext with defined | is | is
    · rcases isDefinition_cases.mp defined with is | is | is | is <;> rw [is] <;> decide
    · exact absurd is undf
    rw [is]
    decide
  have apart : ∀ c ∈ m.syms, o.external c = true → relType c.nType ≠ nExt + nUndf → ∀ i slot,
    s.keys[i]? = some (slot,cstr c.name) →
      s.typ i ≠ some (nExt + nUndf) := by
    intro c listed external undf i slot key is
    obtain ⟨ext,global⟩ := typed c listed external undf
    exact idle ⟨⟨m.off,c.name⟩,mem_entriesOf.mpr ⟨c,listed,ext,global,rfl⟩,slot,i,sound.own i slot c.name key,is⟩
  have unwanted : ¬ Wanted s m := by
    rintro ⟨c,listed,defined,e,inside,is,name⟩
    obtain ⟨external,undf,_⟩ := Flags.defines_spec.mp ((proper.defines listed).mpr defined)
    obtain ⟨i,key,typ⟩ := entry_key inside
    exact apart c listed external undf i e.slot (name ▸ key) (typ.trans (congrArg _ is))
  have same : load1 o true s m = .ok (t,false) := by
    rcases step_cases done with same | ⟨v,load,_⟩
    · exact same
    · exact absurd (load1_wanted sound proper clear load) unwanted
  obtain ⟨counts,touches⟩ := load1_demands sound proper.distinct clear.1 same
  obtain ⟨_,_,kept,_,alike,_⟩ := load1_spec sound same
  have keys := (alike rfl).1.1
  refine ⟨keys.symm,?_,kept.symm⟩
  funext i
  rcases Nat.lt_or_ge i s.symtab.length with inside | beyond
  · by_contra moved
    obtain ⟨c,listed,external,undf,slot,key,old | demands⟩ := touches rfl i inside (Ne.symm moved)
    · exact apart c listed external undf i slot key old
    have loaded := counts.mpr ⟨c,listed,demands⟩
    cases loaded
  · have length : t.symtab.length = s.symtab.length := by rw [← length_keys,keys,length_keys]
    rw [Pass1.typ,Pass1.typ,List.getElem?_eq_none beyond,List.getElem?_eq_none (by omega)]

theorem member_twin (distinct : (ms.map Object.off).Nodup) (member : m ∈ ms) (proper : m.Proper o)
    (sound : s.Sound) (clear : Clear o s m)
    (twin : Twin s u) (done : step o s m = .ok t) : ∃ v, run (randstep o ms) u (entriesOf m) = .ok v ∧ Twin t v := by
  have sound' : u.Sound := sound.of_keys twin.keys
  have search : ∀ name, lookup u name = lookup s name := lookup_keys twin.keys
  by_cases awaited : Awaited s m
  · obtain ⟨v,stepped,twin'⟩ := step_twin twin done
    refine ⟨v,run_awaited distinct member proper sound' stepped (fun _ listed => listed) ?_,twin'⟩
    obtain ⟨p,listed,slot,i,found,undf⟩ := awaited
    exact ⟨p,listed,slot,i,(search _).trans found,(congrFun twin.typ i).trans undf⟩
  have still := step_unawaited proper sound clear awaited done
  refine ⟨u,run_passes sound' fun p listed slot i found undf => awaited ⟨p,listed,slot,i,?_,?_⟩,?_⟩
  · exact (search _).symm.trans found
  · exact (congrFun twin.typ i).symm.trans undf
  · exact ⟨twin.keys.trans still.keys,twin.typ.trans still.typ,twin.liblist.trans still.liblist⟩

theorem turn_twin (distinct : (ms.map Object.off).Nodup) (proper : ∀ m ∈ ms, m.Proper o) {xs : List Object}
    (inside : ∀ m ∈ xs, m ∈ ms)
    (sound : s.Sound) (twin : Twin s u) (clear : Along (step o) (Clear o) s xs) (ran : run (step o) s xs = .ok t) :
    ∃ v, run (randstep o ms) u (contentsOf xs) = .ok v ∧ t.Sound ∧ Twin t v := by
  induction xs generalizing s u with
  | nil => cases ran; exact ⟨u,rfl,sound,twin⟩
  | cons m xs ih =>
    have member := inside m mem_cons_self
    obtain ⟨w,first,ran⟩ := of_run_cons ran
    obtain ⟨v,entries,twin'⟩ := member_twin distinct member (proper m member) sound clear.1 twin first
    have sound' : w.Sound := (step_spec distinct member (searched_start sound) first).1.sound
    rw [contentsOf,flatMap_cons,run_append_ok _ _ entries]
    exact ih (fun x listed => inside x (mem_cons_of_mem _ listed)) sound' twin' (clear.2 w first) ran

structure Library where
  members : List Object
  distinct : (members.map Object.off).Nodup
  small : ∀ m ∈ members, m.off ≠ endlib

/-- What a search leaves: `liblist` has the members that were loaded, each once, so that the second pass finds them, and
no symbol is undefined that a member defines. -/
def Outcome (a : Arg) (ms : List Object) (s t : Pass1) : Prop :=
  ∃ loaded, t.liblist = s.liblist ++ (loaded ++ [endlib]) ∧ loaded.Nodup ∧ (∀ off ∈ loaded, ∃ m ∈ ms, m.off = off) ∧
    (∀ later, load2arg a (t.liblist.drop s.liblist.length ++ later) = (loaded,later)) ∧
    ∀ m ∈ ms, ∀ c ∈ m.syms, isDefinition c = true → ∀ e ∈ t.symtab, cstr e.name = cstr c.name → e.nType ≠ nExt + nUndf

theorem load2lib_replays {loaded : List Word} (small : ∀ off ∈ loaded, off ≠ endlib) (later : List Word) :
    load2lib (loaded ++ [endlib] ++ later) = (loaded,later) := by
  rw [load2lib,append_assoc,singleton_append]
  have most : ∀ off ∈ loaded, (off != endlib) = true := fun off member => bne_iff_ne.mpr (small off member)
  rw [takeWhile_append_of_pos most,dropWhile_append_of_pos most]
  simp

theorem outcome_searched (lib : Library) {a : Arg} (archive : ∀ libp, load2arg a libp = load2lib libp)
    (proper : ∀ m ∈ lib.members, m.Proper o)
    (searched : Searched o lib.members s u) (resolves : ∀ m ∈ lib.members, Resolves o m u) :
    Outcome a lib.members s {u with liblist := u.liblist ++ [endlib]} := by
  obtain ⟨loaded,liblist,once,settled⟩ := searched.noted
  have noted : ∀ off ∈ loaded, ∃ m ∈ lib.members, m.off = off := fun off listed => by
    obtain ⟨m,member,is,_⟩ := settled off listed
    exact ⟨m,member,is⟩
  refine ⟨loaded,by rw [liblist,append_assoc],once,noted,fun later => ?_,fun m member c listed defined e inside name is => ?_⟩
  · rw [archive,liblist,append_assoc,drop_left]
    refine load2lib_replays (fun off listed => ?_) later
    obtain ⟨m,member,rfl⟩ := noted off listed
    exact lib.small m member
  obtain ⟨external,undf,_⟩ := Flags.defines_spec.mp (((proper m member).defines listed).mpr defined)
  obtain ⟨i,key,typ⟩ := @entry_key u e inside
  have found := searched.sound.own i e.slot c.name (name ▸ key)
  exact resolves m member c listed (Flags.declares_spec.mpr ⟨external,undf⟩) e.slot i found (typ.trans (congrArg some is))

def Looks (s : Pass1) (p : Ld.Ranlib) : Prop := ∃ slot i, lookup s p.name = .ok (slot,some i) ∧ s.typ i = some (nExt + nUndf)

/-- The search of a library ends, loads each member at most once, notes those that it loads, and leaves no
symbol undefined that a member defines. Where every member that is looked at is clear, only those are loaded
that define an undefined symbol, and the table of contents leads to the same symbols. -/
theorem library_search (o : Flags) (lib : Library) (proper : ∀ m ∈ lib.members, m.Proper o) (s : Pass1) (sound : s.Sound) :
    (∀ a ∈ [Arg.archive lib.members,Arg.outOfDate lib.members,Arg.randomized lib.members (contentsOf lib.members)],
      load1arg o s a ≠ .error .loops ∧ ∀ t, load1arg o s a = .ok t → Outcome a lib.members s t) ∧
    (∀ u m t, u.Sound → step o u m = .ok t → ∃ v loaded, load1 o true u m = .ok (v,loaded) ∧
      t.liblist = u.liblist ++ if loaded then [m.off] else []) ∧
    (AlongSweeps (step o) Pass1.loads (Clear o) lib.members (lib.members.length + 1) s →
      AlongSweeps (step o) Pass1.loads (fun s m => ∀ t, load1 o true s m = .ok (t,true) → Wanted s m) lib.members
      (lib.members.length + 1) s ∧
      ∀ t, load1arg o s (.archive lib.members) = .ok t → (contentsOf lib.members).length < Archives.Ld.rantabsz →
        ∃ v, load1arg o s (.randomized lib.members (contentsOf lib.members)) = .ok v ∧ Twin t v) ∧
    (AlongSweeps (randstep o lib.members) Pass1.loads (fun s p => Looks s p → ∀ m ∈ lib.members, m.off = p.off → Clear o s m)
        (contentsOf lib.members) ((contentsOf lib.members).length + 1) s →
      AlongSweeps (randstep o lib.members) Pass1.loads
        (fun s p => Looks s p → ∀ m ∈ lib.members, m.off = p.off → ∀ t, load1 o true s m = .ok (t,true) → Wanted s m)
        (contentsOf lib.members) ((contentsOf lib.members).length + 1) s) := by
  have start := @searched_start o lib.members s sound
  have plain : ∀ x, ∀ m ∈ lib.members, ∀ t, Searched o lib.members s x → step o x m = .ok t → Searched o lib.members s t :=
    fun x m member t searched done => (step_spec lib.distinct member searched done).1
  have rand : ∀ x, ∀ p ∈ contentsOf lib.members, ∀ t, Searched o lib.members s x → randstep o lib.members x p = .ok t →
      Searched o lib.members s t :=
    fun x p member t searched done => ((rand_moves lib.distinct _).keeps x p member t searched done).1
  refine ⟨fun a listed => ?_,fun u m t here done => ?_,fun clear => ⟨?_,fun t done room => ?_⟩,fun clear => ?_⟩
  · have members : ∀ t, load1lib o lib.members s = .ok t → ∀ a, (∀ libp, load2arg a libp = load2lib libp) →
      Outcome a lib.members s t := by
      intro t done a archive
      obtain ⟨u,ended,_,rfl⟩ := load1lib_ok done
      obtain ⟨searched,resolves⟩ := plain_outcome lib.distinct sound ended
      exact outcome_searched lib archive proper searched resolves
    simp only [mem_cons,not_mem_nil,or_false] at listed
    rcases listed with rfl | rfl | rfl
    · exact ⟨load1lib_ends lib.distinct sound,fun t done => members t done _ fun _ => rfl⟩
    · exact ⟨load1lib_ends lib.distinct sound,fun t done => members t done _ fun _ => rfl⟩
    refine ⟨ldrandlib_ends lib.distinct sound,fun t done => ?_⟩
    obtain ⟨_,u,ended,rfl⟩ := ldrandlib_ok done
    obtain ⟨searched,answers⟩ := rand_outcome lib.distinct sound ended
    refine outcome_searched lib (fun _ => rfl) proper searched fun m member c declared declares => ?_
    obtain ⟨external,undf⟩ := Flags.declares_spec.mp declares
    have ext := ((proper m member).external declared).mp external
    rw [(proper m member).relType declared ext] at undf
    have global : c.nType &&& nTypeMask ≠ nUndf := by
      rcases (proper m member).typed c declared ext with defined | is | is
      · rcases isDefinition_cases.mp defined with is | is | is | is <;> rw [is] <;> decide
      · exact absurd is undf
      rw [is]
      decide
    have listed : (⟨m.off,c.name⟩ : Ld.Ranlib) ∈ contentsOf lib.members :=
      mem_flatMap.mpr ⟨m,member,mem_entriesOf.mpr ⟨c,declared,ext,global,rfl⟩⟩
    exact answers _ listed m (find_off lib.distinct member) c declared rfl declares
  · rcases step_cases done with same | ⟨v,load,_,rfl⟩
    · exact ⟨t,false,same,by rw [(load1_spec here same).2.2.1]; simp⟩
    · exact ⟨v,true,load,by rw [(load1_spec here load).2.2.1]; rfl⟩
  · exact clear.imp_of plain (fun x m member searched clear t load =>
      load1_wanted searched.sound (proper m member) clear load) start
  · obtain ⟨u,ended,more,rfl⟩ := load1lib_ok done
    have counts : ∀ s t : Pass1, s.Sound ∧ Twin s t → s.loads = t.loads := fun s t like =>
      (congrArg List.length like.2.liblist).symm
    obtain ⟨v,ended',_,twin⟩ := sweeps_simulates counts (fun s t s' like clear ran =>
      turn_twin lib.distinct proper (fun _ member => member) like.1 like.2 clear ran)
      ⟨sound,Twin.refl s⟩ clear ended
    refine ⟨{v with liblist := v.liblist ++ [endlib]},?_,⟨twin.keys,twin.typ,congrArg (· ++ [endlib]) twin.liblist⟩⟩
    rw [load1arg,ldrandlib,if_neg (by omega)]
    change (sweeps _ _ _ _ _ _).bind _ = _
    rw [sweeps_fuel ended' (rand_sweeps_ends lib.distinct sound)]
    change addlibp v endlib = _
    rw [addlibp,if_neg]
    rw [twin.liblist]
    omega
  · exact clear.imp_of rand (fun x p _ searched clear looks m member is t load =>
      load1_wanted searched.sound (proper m member) (clear looks m member is) load) start

def noFlags : Flags := ⟨false,false,false,false⟩

def noSymbols : Pass1 := ⟨[],0,0,0,0,0,[]⟩

theorem noSymbols_sound : noSymbols.Sound := ⟨Nat.zero_le _,fun _ _ _ bad => (nomatch bad)⟩

def textOnly : Exec := ⟨rmagic,4,0,0,0,0,0,0⟩

def dataOnly : Exec := ⟨rmagic,0,4,0,0,0,0,0⟩

def textMember : Object := ⟨200,text "f.o",textOnly,[⟨text "f",nExt + nText,0⟩]⟩

def dataMember : Object := ⟨8,text "x.o",dataOnly,[⟨text "x",nExt + nData,0⟩,⟨text "y",nExt + nUndf,0⟩]⟩

def someLibrary : Library := ⟨[dataMember,textMember],by decide,by decide⟩

theorem someLibrary_proper : ∀ m ∈ someLibrary.members, m.Proper noFlags := by
  intro m member
  simp only [someLibrary,mem_cons,not_mem_nil,or_false] at member
  rcases member with rfl | rfl
  · exact ⟨by decide,by decide,by decide⟩
  · exact ⟨by decide,by decide,by decide⟩

def wantsF : Entry := ⟨⟨text "f",nExt + nUndf,0⟩,(hashRot13 (text "f")).toNat % symtabsz + 2⟩

theorem library_search_someLibrary : ∃ t, load1arg noFlags (noSymbols.entered wantsF) (.archive someLibrary.members) = .ok t ∧
      t.liblist = [200,endlib] ∧ Outcome (.archive someLibrary.members) someLibrary.members (noSymbols.entered wantsF) t := by
  have sound : (noSymbols.entered wantsF).Sound := noSymbols_sound.entered (by decide +kernel) (by decide)
  obtain ⟨t,done,noted⟩ := @of_returns _ _ (fun t : Pass1 => t.liblist == [200,endlib])
    (load1arg noFlags (noSymbols.entered wantsF) (.archive someLibrary.members)) (by decide +kernel)
  have outcome := ((library_search noFlags someLibrary someLibrary_proper _ sound).1 _ mem_cons_self).2 t done
  exact ⟨t,done,by simpa using noted,outcome⟩

def mainObject : Object := ⟨0,text "main.o",textOnly,[⟨text "f",nExt + nUndf,0⟩,⟨text "x",nExt + nComm,4⟩]⟩

def undefined (s : Pass1) : List (List Byte) := (s.symtab.filter fun e => e.nType == nExt + nUndf).map fun e => e.name

/-- The scan of the members loads one for the common, and its reference is left; the table of contents does not lead there. -/
theorem search_common : ∃ s t v, load1arg noFlags noSymbols (.regular mainObject) = .ok s ∧
    undefined s = [text "f"] ∧ dataMember.syms.all (fun c => c.name != text "f") = true ∧
    load1arg noFlags s (.archive someLibrary.members) = .ok t ∧ t.liblist = [8,200,endlib] ∧ undefined t = [text "y"] ∧
    load1arg noFlags s (.randomized someLibrary.members (contentsOf someLibrary.members)) = .ok v ∧
    v.liblist = [200,endlib] ∧ undefined v = [] := by
  obtain ⟨s,loaded,shown⟩ := @of_returns _ _ (fun s : Pass1 => undefined s == [text "f"] &&
    returns (fun t => t.liblist == [8,200,endlib] && undefined t == [text "y"])
    (load1arg noFlags s (.archive someLibrary.members)) &&
    returns (fun v => v.liblist == [200,endlib] && undefined v == [])
      (load1arg noFlags s (.randomized someLibrary.members (contentsOf someLibrary.members))))
    (load1arg noFlags noSymbols (.regular mainObject)) (by decide +kernel)
  rw [Bool.and_eq_true,Bool.and_eq_true] at shown
  obtain ⟨⟨needs,plain⟩,contents⟩ := shown
  obtain ⟨t,searched,found⟩ := of_returns plain
  obtain ⟨v,led,other⟩ := of_returns contents
  simp only [Bool.and_eq_true,beq_iff_eq] at needs found other
  exact ⟨s,t,v,loaded,needs,by decide,searched,found.1,found.2,led,other.1,other.2⟩

end Retrobsd.Linker
