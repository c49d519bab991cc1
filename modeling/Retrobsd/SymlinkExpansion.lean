import Retrobsd.Symlinks

/-! Symbolic links in a pathname. A translation of names as strings, in which the target
of a link takes the place of what led to it, and when the buffer of `namei` holds what
that translation has. -/
namespace Retrobsd.Symlinks
open List Option

open Lib.Copying

variable {m : Memory} {n : Nat}

section
variable {src dst : Nat}

theorem copyBytes_eq : copyBytes m src dst n = copyUp m src dst n := by
  induction n generalizing m src dst with
  | zero => rfl
  | succ n ih => exact ih

theorem copyWord_eq (first : src % 4 = 0) (second : dst % 4 = 0) : copyWord m src dst = copyUp m src dst 4 := by
  refine copyUp_eq (by omega) (fun i inside => ?_) fun a outside => ?_
  · rw [copyWord,if_pos (by omega),Nat.add_sub_cancel_left]
  · rw [copyWord,if_neg (by omega)]

theorem copyWords_eq (first : src % 4 = 0) (second : dst % 4 = 0) : copyWords m src dst n = copyUp m src dst (4 * n) := by
  induction n generalizing m src dst with
  | zero => rfl
  | succ n ih =>
    rw [copyWords,copyWord_eq first second,ih (by omega) (by omega),Nat.mul_succ,Nat.add_comm (4 * n),copyUp_add]

theorem copyQuads_eq (first : src % 4 = 0) (second : dst % 4 = 0) : copyQuads m src dst n = copyUp m src dst (16 * n) := by
  induction n generalizing m src dst with
  | zero => rfl
  | succ n ih =>
    have four : copyWords m src dst 4 = copyUp m src dst 16 := copyWords_eq first second
    rw [copyQuads,four,ih (by omega) (by omega),Nat.mul_succ,Nat.add_comm (16 * n),copyUp_add]

theorem bcopy_eq : bcopy m src dst n = copyUp m src dst n := by
  unfold bcopy
  split_ifs with aligned
  · obtain ⟨_,first,second⟩ := aligned
    have parts : n = 16 * (n / 16) + (4 * (n % 16 / 4) + n % 4) := by omega
    dsimp only
    rw [copyBytes_eq,copyQuads_eq first second,copyWords_eq (by omega) (by omega),← copyUp_add,← copyUp_add,← parts]
  · exact copyBytes_eq

end

def Terminated (name : List UInt8) : Prop := ∃ cs, name = cs ++ [0] ∧ 0 ∉ cs

def cstring (l : List UInt8) : List UInt8 := l.takeWhile (· ≠ 0) ++ [0]

theorem cstring_terminated (l : List UInt8) : Terminated (cstring l) := by
  refine ⟨_,rfl,fun member => ?_⟩
  have kept := all_takeWhile (p := (· ≠ (0 : UInt8))) (l := l)
  simpa using all_eq_true.mp kept 0 member

theorem cstring_append {l : List UInt8} (ended : 0 ∈ l) : ∃ junk, l = cstring l ++ junk := by
  induction l with
  | nil => cases ended
  | cons c l ih =>
    by_cases zero : c = 0
    · exact ⟨l,by simp [cstring,zero]⟩
    obtain ⟨junk,same⟩ := ih ((mem_cons.mp ended).resolve_left (Ne.symm zero))
    refine ⟨junk,?_⟩
    have first : cstring (c :: l) = c :: cstring l := by simp [cstring,zero]
    rw [first,cons_append,← same]

variable {junk : List UInt8}

section
variable {cs : List UInt8}

theorem strlen_terminated (ended : 0 ∉ cs) : strlen (cs ++ 0 :: junk) = some cs.length := by
  induction cs with
  | nil => simp [strlen]
  | cons c cs ih =>
    obtain ⟨first,later⟩ := not_or.mp (mt mem_cons.mpr ended)
    rw [cons_append,strlen,if_neg (Ne.symm first),ih later]
    rfl

theorem slashes_terminated : ∃ n, slashes (cs ++ 0 :: junk) = some n ∧
    (cs ++ 0 :: junk).drop n = ((cs ++ [0]).dropWhile (· = slash)) ++ junk := by
  induction cs with
  | nil => exact ⟨0,rfl,rfl⟩
  | cons c cs ih =>
    obtain ⟨n,counted,left⟩ := ih
    by_cases here : c = slash
    · refine ⟨n + 1,?_,?_⟩
      · rw [cons_append,slashes,if_pos here,counted]
        rfl
      · rw [cons_append,drop_succ_cons,left,cons_append,dropWhile_cons_of_pos (by simpa using here)]
    refine ⟨0,?_,?_⟩
    · rw [cons_append,slashes,if_neg here]
    rw [cons_append,drop_zero,cons_append,dropWhile_cons_of_neg (by simpa using here)]
    simp

theorem dropWhile_terminated {name : List UInt8} (ended : Terminated name) : Terminated (name.dropWhile (· = slash)) := by
  obtain ⟨cs,rfl,clean⟩ := ended
  induction cs with
  | nil => exact ⟨[],rfl,by simp⟩
  | cons c cs ih =>
    rw [cons_append]
    by_cases here : c = slash
    · rw [dropWhile_cons_of_pos (by simpa using here)]
      exact ih (fun member => clean (mem_cons_of_mem c member))
    rw [dropWhile_cons_of_neg (by simpa using here)]
    exact ⟨c :: cs,rfl,clean⟩

theorem component_terminated (delete : Bool) : ∀ {left : Nat} {cs : List UInt8}, 0 ∉ cs →
    (∃ e, component delete left (cs ++ [0]) = .error (.failed e) ∧ component delete left (cs ++ 0 :: junk) =
    .error (.failed e)) ∨
    ∃ name behind, cs = name ++ behind ∧ component delete left (cs ++ [0]) = .ok (name,behind ++ [0]) ∧
      component delete left (cs ++ 0 :: junk) = .ok (name,behind ++ 0 :: junk) := by
  intro left cs clean
  induction cs generalizing left with
  | nil => exact .inr ⟨[],[],rfl,by cases left <;> rfl,by cases left <;> rfl⟩
  | cons c cs ih =>
    obtain ⟨_,later⟩ := not_or.mp (mt mem_cons.mpr clean)
    by_cases stop : c = 0 ∨ c = slash
    · refine .inr ⟨[],c :: cs,rfl,?_,?_⟩ <;> cases left <;> simp only [cons_append,component,if_pos stop]
    cases left with
    | zero => exact .inl ⟨.enametoolong,by simp only [cons_append,component,if_neg stop],by
        simp only [cons_append,component,if_neg stop]⟩
    | succ left =>
      by_cases wild : c ≥ 128 ∧ (c = slash + 128 ∨ delete = false)
      · exact .inl ⟨.einval,by simp only [cons_append,component,if_neg stop,if_pos wild],by
          simp only [cons_append,component,if_neg stop,if_pos wild]⟩
      rcases @ih left later with ⟨e,failed,same⟩ | ⟨name,behind,parts,done,same⟩
      · exact .inl ⟨e,by simp only [cons_append,component,if_neg stop,if_neg wild,failed],by
          simp only [cons_append,component,if_neg stop,if_neg wild,same]⟩
      refine .inr ⟨c :: name,behind,by rw [parts]; rfl,?_,?_⟩
      · simp only [cons_append,component,if_neg stop,if_neg wild,done]
      · simp only [cons_append,component,if_neg stop,if_neg wild,same]

end

structure Place (σ ι : Type) where
  sys : σ
  name : List UInt8
  dp : ι
  nlink : Nat
  searching : Bool

variable {σ ι ρ : Type}

section
variable (k : Kernel σ ι ρ)

def target (size : Nat) (block : Nat → UInt8) : List UInt8 := (List.range size).map block

def Place.begin (p : Place σ ι) (absolute relative : σ → σ × ι) : Place σ ι :=
  if p.name.head? = some slash then
    let (sys,dp) := absolute p.sys
    {p with sys,name := p.name.dropWhile (· = slash),dp,searching := false}
  else
    let (sys,dp) := relative p.sys
    {p with sys,dp,searching := false}

/-- The name goes on with the text of the link and the rest of the name, from `pdp` or
from the root. -/
def Place.expand (p : Place σ ι) (pdp : ι) (l : Link) : Except (End ρ) (Place σ ι) :=
  if l.size + p.name.length ≥ maxpathlen - 1 then .error (.answer (k.bad2 p.sys p.dp pdp .enametoolong))
  else if p.nlink + 1 > maxsymlinks then .error (.answer (k.bad2 p.sys p.dp pdp .eloop))
  else match l.block with
    | none => .error (.answer (k.bad2 p.sys p.dp pdp .eio))
    | some block =>
      .ok (Place.begin {p with
        sys := k.iput p.sys p.dp
        name := cstring (target l.size block ++ p.name)
        nlink := p.nlink + 1}
        (fun sys => let sys := k.irele sys pdp; (k.hold (k.lock sys (k.rootdir sys)) (k.rootdir sys),k.rootdir sys))
        (fun sys => (k.lock sys pdp,pdp)))

def Place.linked (p : Place σ ι) : Option Link :=
  match k.link p.sys p.dp with
  | none => none
  | some l => if k.follow = true ∨ p.name.head? = some slash then some l else none

def Place.haveino (p : Place σ ι) (pdp : ι) : Except (End ρ) (Place σ ι) :=
  match p.linked k with
  | some l => p.expand k pdp l
  | none =>
    if p.name.head? = some slash then
      .ok {p with sys := k.irele p.sys pdp,name := p.name.dropWhile (· = slash),searching := false}
    else .error (.answer (k.final p.sys p.dp pdp))

def Place.dirloop2 (p : Place σ ι) : Except (End ρ) (Place σ ι × Option ι) :=
  match component k.delete maxnamlen p.name with
  | .error .outside => .error .outside
  | .error (.failed e) => .error (.answer (k.bad p.sys p.dp e))
  | .ok (name,behind) =>
    if name = [] then .error (.answer (k.degenerate p.sys p.dp))
    else match k.search p.sys p.dp name (behind.head? = some 0) with
      | .done r => .error (.answer r)
      | .mounted sys dp => .ok ({p with sys,dp},none)
      | .haveino sys dp pdp => .ok ({p with sys,name := behind,dp},some pdp)

def Place.step (p : Place σ ι) : Except (End ρ) (Place σ ι) :=
  if p.searching then
    match p.dirloop2 k with
    | .error e => .error e
    | .ok (p,none) => .ok p
    | .ok (p,some pdp) => p.haveino k pdp
  else match k.enter p.sys p.dp with
    | some e => .error (.answer (k.bad p.sys p.dp e))
    | none => .ok {p with searching := true}

def Place.run : Nat → Place σ ι → Option (End ρ)
  | 0,_ => none
  | fuel + 1,p => match p.step k with
    | .error e => some e
    | .ok p => Place.run fuel p

def Place.start (sys : σ) (name : List UInt8) : Except (End ρ) (Place σ ι) :=
  if name.length > maxpathlen then .error (.answer (k.retNULL sys .enoent))
  else .ok (Place.begin ⟨sys,name,k.cdir sys,0,false⟩ (fun sys =>
    (k.hold (k.lock sys (k.rootdir sys)) (k.rootdir sys),k.rootdir sys))
    (fun sys => (k.hold (k.lock sys (k.cdir sys)) (k.cdir sys),k.cdir sys)))

end

variable {k : Kernel σ ι ρ}

section
variable {cp size pathlen : Nat} {block : Nat → UInt8} {name : List UInt8}

theorem rest_drop : rest k m (cp + n) = (rest k m cp).drop n := by
  refine ext_getElem (by simp only [rest,length_map,length_range,length_drop]; omega) fun i _ _ => ?_
  simp only [rest,getElem_map,getElem_range,getElem_drop,Nat.add_assoc]

theorem target_length : (target size block).length = size := by rw [target,length_map,length_range]

theorem rest_shows {l : List UInt8} (fits : cp + l.length ≤ k.path + maxpathlen) :
    l <+: rest k m cp ↔ ∀ i < l.length, l[i]? = some (m (cp + i)) := by
  have long : l.length ≤ (rest k m cp).length := by
    simp only [rest,length_map,length_range]
    omega
  rw [prefix_iff_getElem]
  constructor
  · rintro ⟨_,same⟩ i inside
    rw [List.getElem?_eq_getElem inside,same i inside]
    simp only [rest,getElem_map,getElem_range]
  intro same
  refine ⟨long,fun i inside => ?_⟩
  have found := same i inside
  rw [List.getElem?_eq_getElem inside] at found
  simpa only [rest,getElem_map,getElem_range] using some.inj found

theorem massage_target {i : Nat} (inside : i < size) : massage k m cp size block pathlen (k.path + i) = block i := by
  rw [massage,copyIn,if_pos (by omega),Nat.add_sub_cancel_left]

theorem massage_rest {i : Nat} : massage k m cp size block pathlen (k.path + size + i) =
    copyUp m cp (k.path + size) pathlen (k.path + size + i) := by
  rw [massage,copyIn,if_neg (by omega),bcopy_eq]

theorem rest_within {l : List UInt8} (shown : l <+: rest k m cp) (more : l ≠ []) : cp + l.length ≤ k.path + maxpathlen := by
  have long := shown.length_le
  have some := length_pos_iff.mpr more
  simp only [rest,length_map,length_range] at long
  omega

theorem massage_exact (ended : Terminated name) (shown : name <+: rest k m cp) (fits : size + name.length < maxpathlen) :
    target size block ++ name <+: rest k (massage k m cp size block name.length) k.path ↔
      k.path + size ≤ cp ∨ cp + name.length ≤ k.path + size := by
  obtain ⟨cs,rfl,clean⟩ := ended
  have total : (target size block ++ (cs ++ [0])).length = size + (cs.length + 1) := by
    simp [target_length]
  have before := (rest_shows (rest_within shown (by simp))).mp shown
  rw [length_append,length_singleton] at fits before ⊢
  rw [rest_shows (by omega),total]
  constructor
  · intro same
    by_contra among
    have last := same (size + cs.length) (by omega)
    rw [List.getElem?_append_right (by rw [target_length]; omega),target_length,Nat.add_sub_cancel_left,
      List.getElem?_concat_length,← Nat.add_assoc,massage_rest,copyUp_within (by omega) (by omega)] at last
    -- The end of the name is overwritten by a byte in front of it.
    have back : cs.length % (k.path + size - cp) < cs.length := lt_of_lt_of_le (Nat.mod_lt _ (by omega)) (by omega)
    have earlier := before (cs.length % (k.path + size - cp)) (by omega)
    rw [List.getElem?_append_left back,← last] at earlier
    exact clean (mem_of_getElem? earlier)
  · intro apart i inside
    by_cases first : i < size
    · rw [massage_target first,List.getElem?_append_left (by rw [target_length]; exact first)]
      simp only [target,List.getElem?_map,List.getElem?_range first,map_some]
    obtain ⟨j,rfl⟩ := Nat.exists_eq_add_of_le (Nat.le_of_not_lt first)
    rw [← Nat.add_assoc,massage_rest,copyUp_apart (by omega) (by omega),← before j (by omega),
      List.getElem?_append_right (by rw [target_length]; omega),target_length,Nat.add_sub_cancel_left]

end

/-- A link that is expanded: the walk that met it, its size and text, and the length of
the rest of the name. -/
structure Expansion (σ ι : Type) where
  walk : Walk σ ι
  size : Nat
  block : Nat → UInt8
  pathlen : Nat

section
variable (k : Kernel σ ι ρ)

def expansion (w : Walk σ ι) : Option (Expansion σ ι) :=
  if w.searching then
    match dirloop2 k w with
    | .ok (w,some _) => match linked k w, strlen (rest k w.memory w.cp) with
      | some ⟨size,some block⟩,some len =>
        if size + (len + 1) ≥ maxpathlen - 1 ∨ w.nlink + 1 > maxsymlinks then none else some ⟨w,size,block,len + 1⟩
      | _,_ => none
    | _ => none
  else none

/-- The text is no longer than what is behind `cp`, or it reaches past the rest of the name. -/
def Clear (e : Expansion σ ι) : Prop := k.path + e.size ≤ e.walk.cp ∨ e.walk.cp + e.pathlen ≤ k.path + e.size

instance (e : Expansion σ ι) : Decidable (Clear k e) := instDecidableOr

def Expanded (e : Expansion σ ι) : Prop := target e.size e.block ++ (rest k e.walk.memory e.walk.cp).take e.pathlen <+:
    rest k (massage k e.walk.memory e.walk.cp e.size e.block e.pathlen) k.path

def Expansions (P : Expansion σ ι → Prop) : Nat → Walk σ ι → Prop
  | 0,_ => True
  | fuel + 1,w => (∀ e ∈ expansion k w, P e) ∧ match step k w with
    | .error _ => True
    | .ok w => Expansions P fuel w

instance decidableExpansions (P : Expansion σ ι → Prop) [DecidablePred P] : ∀ fuel w, Decidable (Expansions k P fuel w)
  | 0,_ => isTrue trivial
  | fuel + 1,w => @instDecidableAnd _ _ inferInstance (match step k w with
    | .error _ => isTrue trivial
    | .ok w => decidableExpansions P fuel w)

def namei (sys : σ) (m : Memory) (name : List UInt8) (fuel : Nat) : Option (End ρ) :=
  match start k sys m name with
  | .error e => some e
  | .ok w => run k fuel w

def NameiExpansions (P : Expansion σ ι → Prop) (sys : σ) (m : Memory) (name : List UInt8) (fuel : Nat) : Prop :=
  match start k sys m name with
  | .error _ => True
  | .ok w => Expansions k P fuel w

instance (P : Expansion σ ι → Prop) [DecidablePred P] (sys : σ) (m : Memory) (name : List UInt8) (fuel : Nat) :
    Decidable (NameiExpansions k P sys m name fuel) := by
  unfold NameiExpansions
  exact match start k sys m name with
    | .error _ => isTrue trivial
    | .ok w => decidableExpansions k P fuel w

def translate (sys : σ) (name : List UInt8) (fuel : Nat) : Option (End ρ) :=
  match Place.start k sys name with
  | .error e => some e
  | .ok p => p.run k fuel

end

/-- The name that is left in the buffer is the one of the translation of strings. -/
structure Shows {σ ι ρ : Type} (k : Kernel σ ι ρ) (w : Walk σ ι) (p : Place σ ι) : Prop where
  sys : w.sys = p.sys
  dp : w.dp = p.dp
  nlink : w.nlink = p.nlink
  searching : w.searching = p.searching
  ended : Terminated p.name
  shown : p.name <+: rest k w.memory w.cp

inductive Agree {σ ι ρ : Type} (k : Kernel σ ι ρ) : Except (End ρ) (Walk σ ι) → Except (End ρ) (Place σ ι) → Prop
  | error (e : End ρ) : Agree k (.error e) (.error e)
  | ok {w : Walk σ ι} {p : Place σ ι} (shows : Shows k w p) : Agree k (.ok w) (.ok p)

section
variable {w : Walk σ ι} {p : Place σ ι} {pdp : ι} {l : Link}

section
variable (same : Shows k w p)
include same

theorem Shows.head : (rest k w.memory w.cp).head? = p.name.head? := by
  obtain ⟨cs,named,_⟩ := same.ended
  obtain ⟨junk,shown⟩ := same.shown
  rw [← shown,List.head?_append_of_ne_nil _ (by rw [named]; simp)]

theorem Shows.strlen : strlen (rest k w.memory w.cp) = some (p.name.length - 1) := by
  obtain ⟨cs,named,clean⟩ := same.ended
  obtain ⟨junk,shown⟩ := same.shown
  rw [← shown,named,append_assoc,singleton_append,strlen_terminated clean]
  simp

theorem Shows.length : p.name.length - 1 + 1 = p.name.length := by
  obtain ⟨cs,named,_⟩ := same.ended
  rw [named,length_append,length_singleton]
  rfl

theorem Shows.slashes : ∃ n, slashes (rest k w.memory w.cp) = some n ∧
    p.name.dropWhile (· = slash) <+: rest k w.memory (w.cp + n) := by
  obtain ⟨cs,named,_⟩ := same.ended
  obtain ⟨junk,shown⟩ := same.shown
  obtain ⟨n,counted,left⟩ := @slashes_terminated junk cs
  rw [named,append_assoc,singleton_append] at shown
  exact ⟨n,shown ▸ counted,junk,by rw [rest_drop,← shown,named,left]⟩

theorem begin_agrees (absolute relative : σ → σ × ι) :
    Agree k (begin k w absolute relative) (.ok (p.begin absolute relative)) := by
  obtain ⟨n,counted,left⟩ := same.slashes
  have head := same.head
  unfold begin Place.begin
  cases buffer : rest k w.memory w.cp with
  | nil =>
    obtain ⟨cs,named,_⟩ := same.ended
    rw [buffer,named] at head
    cases cs <;> cases head
  | cons c cs =>
    rw [buffer] at head counted
    rw [← head]
    by_cases first : c = slash
    · have leads : (c :: cs).head? = some slash := by rw [first]; rfl
      simp only [if_pos first,if_pos leads,counted]
      rw [same.sys]
      exact .ok ⟨rfl,rfl,same.nlink,rfl,dropWhile_terminated same.ended,left⟩
    have leads : ¬(c :: cs).head? = some slash := fun leads => first (some.inj leads)
    simp only [if_neg first,if_neg leads]
    rw [same.sys]
    exact .ok ⟨rfl,rfl,same.nlink,rfl,same.ended,same.shown⟩

theorem expand_agrees (clear : ∀ block, l.block = some block → l.size + p.name.length < maxpathlen - 1 →
    w.nlink + 1 ≤ maxsymlinks →
      Clear k ⟨w,l.size,block,p.name.length⟩) : Agree k (expand k w pdp l) (p.expand k pdp l) := by
  unfold expand Place.expand
  simp only [same.strlen,same.length,same.nlink,same.sys,same.dp]
  by_cases long : l.size + p.name.length ≥ maxpathlen - 1
  · rw [if_pos long,if_pos long]
    exact .error _
  by_cases many : p.nlink + 1 > maxsymlinks
  · rw [if_neg long,if_neg long,if_pos many,if_pos many]
    exact .error _
  rw [if_neg long,if_neg long,if_neg many,if_neg many]
  cases readable : l.block with
  | none => exact .error _
  | some block =>
    have apart := clear block readable (by omega) (by rw [same.nlink]; omega)
    have exactly : target l.size block ++ p.name <+: rest k (massage k w.memory w.cp l.size block p.name.length) k.path :=
      (massage_exact same.ended same.shown (by omega)).mpr apart
    refine begin_agrees ?_ _ _
    refine ⟨rfl,rfl,rfl,same.searching,cstring_terminated _,?_⟩
    obtain ⟨cs,named,_⟩ := same.ended
    obtain ⟨junk,whole⟩ := cstring_append (l := target l.size block ++ p.name) (by rw [named]; simp)
    exact List.IsPrefix.trans ⟨junk,whole.symm⟩ exactly

theorem linked_agrees : linked k w = p.linked k := by
  unfold linked Place.linked
  rewrite [same.head,same.sys,same.dp]
  rfl

theorem haveino_agrees (clear : ∀ size block, linked k w = some ⟨size,some block⟩ → size + p.name.length < maxpathlen - 1 →
      w.nlink + 1 ≤ maxsymlinks → Clear k ⟨w,size,block,p.name.length⟩) : Agree k (haveino k w pdp) (p.haveino k pdp) := by
  unfold haveino Place.haveino
  rw [← linked_agrees same]
  cases link : linked k w with
  | some l =>
    refine expand_agrees same fun block readable => clear l.size block ?_
    rw [link,← readable]
  | none =>
    obtain ⟨n,counted,left⟩ := same.slashes
    have head := same.head
    cases buffer : rest k w.memory w.cp with
    | nil =>
      obtain ⟨cs,named,_⟩ := same.ended
      rw [buffer,named] at head
      cases cs <;> cases head
    | cons c cs =>
      rw [buffer] at head counted
      rw [← head]
      by_cases first : c = slash
      · have leads : (c :: cs).head? = some slash := by rw [first]; rfl
        simp only [if_pos first,if_pos leads,counted]
        exact .ok ⟨by rw [same.sys],same.dp,same.nlink,rfl,dropWhile_terminated same.ended,left⟩
      have leads : ¬(c :: cs).head? = some slash := fun leads => first (some.inj leads)
      simp only [if_neg first,if_neg leads,same.sys,same.dp]
      exact .error _

theorem dirloop2_agrees : (∃ e, dirloop2 k w = .error e ∧ p.dirloop2 k = .error e) ∨
    ∃ w' p' pdp, dirloop2 k w = .ok (w',pdp) ∧ p.dirloop2 k = .ok (p',pdp) ∧ Shows k w' p' := by
  obtain ⟨cs,named,clean⟩ := same.ended
  obtain ⟨junk,shown⟩ := same.shown
  have buffer : rest k w.memory w.cp = cs ++ 0 :: junk := by
    rw [← shown,named,append_assoc,singleton_append]
  unfold dirloop2 Place.dirloop2
  rw [buffer,named]
  rcases @component_terminated junk k.delete maxnamlen _ clean with
    ⟨e,failed,within⟩ | ⟨name,behind,parts,done,within⟩
  · rw [failed,within,same.sys,same.dp]
    exact .inl ⟨_,rfl,rfl⟩
  rw [done,within,same.sys,same.dp]
  dsimp only
  by_cases empty : name = []
  · rw [if_pos empty,if_pos empty]
    exact .inl ⟨_,rfl,rfl⟩
  have head : (behind ++ 0 :: junk).head? = (behind ++ [0]).head? := by cases behind <;> rfl
  rw [if_neg empty,if_neg empty,head]
  cases outcome : k.search p.sys p.dp name (decide ((behind ++ [0]).head? = some 0)) with
  | done r => exact .inl ⟨_,rfl,rfl⟩
  | mounted sys dp =>
    have up := congrArg List.length (k.dotdot outcome)
    have stays : w.cp + name.length - 2 = w.cp := by
      rw [up]
      rfl
    refine .inr ⟨_,_,none,rfl,rfl,rfl,rfl,same.nlink,same.searching,?_,?_⟩ <;> dsimp only <;> rw [← named]
    · exact same.ended
    rw [stays]
    exact same.shown
  | haveino sys dp parent =>
    refine .inr ⟨_,_,some parent,rfl,rfl,rfl,rfl,same.nlink,same.searching,⟨behind,rfl,fun member => ?_⟩,junk,?_⟩
    · exact clean (parts ▸ mem_append_right name member)
    rw [rest_drop,buffer,parts]
    simp

theorem step_agrees (clear : ∀ e ∈ expansion k w, Clear k e) : Agree k (step k w) (p.step k) := by
  unfold step Place.step
  rw [← same.searching]
  unfold expansion at clear
  by_cases searching : w.searching = true
  · simp only [searching,if_true] at clear ⊢
    rcases dirloop2_agrees same with ⟨e,failed,also⟩ | ⟨w',p',pdp,done,also,shows⟩
    · rw [failed,also]
      exact .error e
    rw [done] at clear ⊢
    rw [also]
    cases pdp with
    | none => exact .ok shows
    | some pdp =>
      refine haveino_agrees shows fun size block link fits few => clear _ ?_
      dsimp only
      rw [link,shows.strlen]
      dsimp only
      rw [shows.length,if_neg (by omega)]
      rfl
  · simp only [searching,if_false,Bool.false_eq_true]
    rw [same.sys,same.dp]
    cases k.enter p.sys p.dp with
    | some e => exact .error _
    | none => exact .ok ⟨rfl,rfl,same.nlink,rfl,same.ended,same.shown⟩

end

theorem run_agrees : ∀ {fuel : Nat} {w : Walk σ ι} {p : Place σ ι}, Shows k w p → Expansions k (Clear k) fuel w →
    run k fuel w = p.run k fuel := by
  intro fuel
  induction fuel with
  | zero => exact fun _ _ => rfl
  | succ fuel ih =>
    intro w p same clear
    obtain ⟨here,later⟩ := clear
    rw [run,Place.run]
    have agreed := step_agrees same here
    revert agreed later
    generalize step k w = next, p.step k = next'
    rintro later (e | shows)
    · rfl
    · exact ih shows later

theorem strlen_some : ∀ {l : List UInt8} {len : Nat}, Symlinks.strlen l = some len →
    Terminated (l.take (len + 1)) ∧ (l.take (len + 1)).length = len + 1 := by
  intro l
  induction l with
  | nil => exact fun counted => nomatch counted
  | cons c l ih =>
    intro len counted
    rw [Symlinks.strlen] at counted
    split_ifs at counted with zero
    · obtain rfl := some.inj counted
      exact ⟨⟨[],by rw [zero]; rfl,not_mem_nil⟩,rfl⟩
    obtain ⟨len,left,rfl⟩ := map_eq_some_iff.mp counted
    obtain ⟨⟨cs,same,clean⟩,long⟩ := ih left
    rw [take_succ_cons]
    refine ⟨⟨c :: cs,by rw [same]; rfl,fun member => ?_⟩,by rw [length_cons,long]⟩
    rcases mem_cons.mp member with rfl | later
    · exact zero rfl
    · exact clean later

theorem expanded_iff {e : Expansion σ ι} (met : e ∈ expansion k w) : Expanded k e ↔ Clear k e := by
  unfold expansion at met
  split at met
  case isFalse => cases met
  split at met
  case h_2 => cases met
  rename_i w' _ _
  split at met
  case h_2 => cases met
  rename_i size block len link counted
  split_ifs at met with checked
  · cases met
  obtain rfl := some.inj met
  obtain ⟨ended,long⟩ := strlen_some counted
  have exactly := @massage_exact _ _ _ _ k _ size block _ ended ( take_prefix _ _) (by omega)
  rw [long] at exactly
  exact exactly

theorem expansions_iff {fuel : Nat} : ∀ {w : Walk σ ι}, Expansions k (Expanded k) fuel w ↔ Expansions k (Clear k) fuel w := by
  induction fuel with
  | zero => exact fun {_} => Iff.rfl
  | succ fuel ih =>
    intro w
    refine and_congr (forall₂_congr fun _ met => expanded_iff met) ?_
    cases step k w with
    | error e => exact Iff.rfl
    | ok w => exact ih

theorem start_agrees {sys : σ} {name : List UInt8} (ended : Terminated name) :
    Agree k (start k sys m name) (Place.start k sys name) := by
  unfold start Place.start
  by_cases long : name.length > maxpathlen
  · rw [if_pos long,if_pos long]
    exact .error _
  rw [if_neg long,if_neg long]
  refine begin_agrees ?_ _ _
  refine ⟨rfl,rfl,rfl,rfl,ended,(rest_shows (by dsimp only; omega)).mpr fun i inside => ?_⟩
  have within : i < name.length := inside
  show name[i]? = some (copyIn m k.path name.length (fun i => name.getD i 0) (k.path + i))
  rw [copyIn,if_pos (by omega),Nat.add_sub_cancel_left,getD_eq_getElem?_getD,List.getElem?_eq_getElem within]
  rfl

theorem nameiExpansions_iff {sys : σ} {name : List UInt8} {fuel : Nat} :
    NameiExpansions k (Expanded k) sys m name fuel ↔ NameiExpansions k (Clear k) sys m name fuel := by
  unfold NameiExpansions
  cases start k sys m name with
  | error e => exact Iff.rfl
  | ok w => exact expansions_iff

end

/-- For every name, all links that are met are expanded as their text and the rest of the
name, and the answer is the one for the names put together, exactly when at every link
the rest of the name is not moved onto itself towards the end of the buffer. -/
theorem expansion_exact (k : Kernel σ ι ρ) (sys : σ) (m : Memory) (name : List UInt8) (ended : Terminated name) (fuel : Nat) :
    NameiExpansions k (Expanded k) sys m name fuel ∧ namei k sys m name fuel = translate k sys name fuel ↔
      NameiExpansions k (Clear k) sys m name fuel := by
  refine ⟨fun held => nameiExpansions_iff.mp held.1,fun clear => ⟨nameiExpansions_iff.mpr clear,?_⟩⟩
  unfold NameiExpansions at clear
  unfold namei translate
  have agreed : Agree k (start k sys m name) (Place.start k sys name) := start_agrees ended
  revert agreed clear
  generalize start k sys m name = started, Place.start k sys name = started'
  rintro clear (e | shows)
  · rfl
  · exact run_agrees shows clear

/-- A directory 0 with a link `l` to `xyz`, and a directory 2 of that name with a file `ab`. -/
def crossed : Kernel Unit Nat (Option Nat) where
  path := 0
  follow := true
  delete := false
  rootdir _ := 0
  cdir _ := 0
  hold sys _ := sys
  lock sys _ := sys
  irele sys _ := sys
  iput sys _ := sys
  enter _ _ := none
  search _ dp name _ :=
    if dp = 0 ∧ name = [108] then .haveino () 1 0
    else if dp = 0 ∧ name = [120,121,122] then .haveino () 2 0
    else if dp = 2 ∧ name = [97,98] then .haveino () 3 2
    else .done none
  dotdot found := by split_ifs at found
  link _ dp := if dp = 1 then some ⟨3,some fun i => [120,121,122].getD i 0⟩ else none
  degenerate _ dp := some dp
  final _ dp _ := some dp
  retNULL _ _ := none
  bad _ _ _ := none
  bad2 _ _ _ _ := none

theorem expansion_exact_crossed : NameiExpansions crossed (Expanded crossed) () (fun _ => 0) [108,47,97,98,0] 8 ∧
      namei crossed () (fun _ => 0) [108,47,97,98,0] 8 = translate crossed () [108,47,97,98,0] 8 ↔
      NameiExpansions crossed (Clear crossed) () (fun _ => 0) [108,47,97,98,0] 8 :=
  expansion_exact crossed () (fun _ => 0) [108,47,97,98,0] ⟨[108,47,97,98],rfl,by decide⟩ 8

/-- Of `xyz` and `/ab` the buffer has `xyz/a/a`, and the file is not found. -/
theorem crossed_torn : ¬NameiExpansions crossed (Expanded crossed) () (fun _ => 0) [108,47,97,98,0] 8 ∧
    namei crossed () (fun _ => 0) [108,47,97,98,0] 8 = some (.answer none) ∧
    translate crossed () [108,47,97,98,0] 8 = some (.answer (some 3)) := by
  refine ⟨fun held => ?_,by decide +kernel,by decide +kernel⟩
  have clear := nameiExpansions_iff.mp held
  revert clear
  decide +kernel

end Retrobsd.Symlinks
