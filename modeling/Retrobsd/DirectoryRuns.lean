import Retrobsd.DirectoryCompaction
import Retrobsd.Lib.Run

/-! The operations on a directory and runs of them: the blocks stay tiled, each
operation changes one entry, and a name is found if and only if it is there. -/
namespace Retrobsd.Directory
open List
open Function

open Lib.Run

variable {d : Dir} {l m : List Entry}

@[simp] theorem liveOf_append : liveOf (l ++ m) = liveOf l ++ liveOf m := by
  simp [liveOf]

@[simp] theorem liveOf_trimmed : liveOf (trimmed l) = liveOf l := by
  simp [liveOf,trimmed,filter_map,Function.comp_def]

theorem liveOf_free (free : ∀ r ∈ l, r.ino = 0) : liveOf l = [] := by
  simpa [liveOf] using free

theorem liveOf_used {ino reclen : Nat} {name : Name} (used : ino ≠ 0) : liveOf [⟨ino,reclen,name⟩] = [(name,ino)] := by
  simp [liveOf,used]

theorem mem_liveOf {name : Name} {ino : Nat} : (name,ino) ∈ liveOf l ↔ ∃ r ∈ l, r.has name ∧ r.ino = ino := by
  constructor
  · intro member
    obtain ⟨r,inside,same⟩ := mem_map.mp member
    obtain ⟨present,used⟩ := mem_filter.mp inside
    cases same
    exact ⟨r,present,⟨by simpa using used,rfl⟩,rfl⟩
  · rintro ⟨r,present,⟨used,rfl⟩,rfl⟩
    exact mem_map.mpr ⟨r,mem_filter.mpr ⟨present,by simpa using used⟩,rfl⟩

theorem byte_write {offset len : Nat} (f : Nat → UInt8) (inside : offset % 1024 + len ≤ 1024) (k : Nat) :
    (d.write offset len f).byte k = if offset ≤ k ∧ k < offset + len then f (k - offset) else d.byte k := by
  unfold Dir.byte Dir.write
  dsimp only
  by_cases same : k / 1024 = offset / 1024
  · rw [same,update_self,Block.byte_fill]
    by_cases written : offset ≤ k ∧ k < offset + len
    · rw [if_pos written,if_pos ⟨by omega,by omega,by omega⟩]
      congr 1
      omega
    · rw [if_neg written,if_neg (by omega)]
  · rw [update_of_ne same,if_neg (by omega)]

theorem byte_update (size q : Nat) (b : Block) (k : Nat) :
    Dir.byte ⟨size,update d.block q b⟩ k = if k / 1024 = q then b.byte (k % 1024) else d.byte k := by
  unfold Dir.byte
  dsimp only
  split_ifs with same
  · rw [same,update_self]
  · rw [update_of_ne same]

theorem Tiles.replace {d' : Dir} {a a' e : Nat} {pre mid post : List Entry} (before : Tiles d.byte 0 pre a)
    (region : Tiles d'.byte a mid a') (behind : Tiles d.byte a' post e)
    (same : ∀ k, k < a ∨ a' ≤ k → d'.byte k = d.byte k) : Tiles d'.byte 0 (pre ++ mid ++ post) e := by
  refine tiles_append_of (tiles_append_of ?_ region) ?_
  · exact before.congr fun k _ below => same k (Or.inl below)
  · exact behind.congr fun k above _ => same k (Or.inr above)

theorem enterSlot_spec {a size endoff : Nat} {pre slot post : List Entry} (e : Direct)
    (known : Slot d (dirsiz e.dName.length) a size d.iSize pre slot post) (ino : e.dIno < 2^32) :
    ∃ d', enterSlot d ⟨a,size,endoff,e⟩ = .ok d' ∧ d'.iSize = d.iSize ∧
      Tiles d'.byte 0 (pre ++ (trimmed slot ++ [⟨e.dIno,space slot,e.dName⟩]) ++ post) d.iSize := by
  have inside := known.inside
  have below := known.behind.le
  have buffer := known.region.in_buffer (k := a / 1024) (by omega) (by omega)
  rw [show a - 1024 * (a / 1024) = a % 1024 by omega,show a + size - 1024 * (a / 1024) = a % 1024 + size by omega] at buffer
  obtain ⟨c,b,run,placed,after,untouched⟩ := compaction_spec e buffer known.filled inside ino known.enough
  refine ⟨⟨d.iSize,update d.block (a / 1024) b⟩,?_,rfl,?_⟩
  · unfold enterSlot
    dsimp only
    rw [if_neg (by omega),run]
    show (placeEntry e c >>= _) = _
    rw [placed]
    rfl
  have region := after.shift (g := Dir.byte ⟨d.iSize,update d.block (a / 1024) b⟩) (c := 1024 * (a / 1024)) (by omega) (by
    intro k _ near
    rw [byte_update,if_pos (by omega)]
    congr 1
    omega)
  rw [show a % 1024 + 1024 * (a / 1024) = a by omega,show a % 1024 + size + 1024 * (a / 1024) = a + size by omega] at region
  refine known.before.replace region known.behind fun k away => ?_
  rw [byte_update]
  split_ifs with same
  · rw [untouched _ (by omega),Dir.byte,same]
  · rfl

theorem roundup_bounds (x : Nat) :
    x ≤ roundup x dirblksiz ∧ roundup x dirblksiz % 1024 = 0 ∧ roundup x dirblksiz < x + 1024 := by
  unfold roundup dirblksiz
  omega

theorem truncate_spec {length enduseful : Nat} {q : List Entry} (front : Tiles d.byte 0 l enduseful)
    (tail : Tiles d.byte enduseful q d.iSize) (free : ∀ r ∈ q, r.ino = 0) (whole : length % 1024 = 0)
    (above : enduseful ≤ length) (below : length ≤ d.iSize) :
    Tiled (d.truncate length) ∧ live (d.truncate length) = liveOf l := by
  obtain ⟨q1,q2,same,kept,_⟩ := tail.split_block (k := length / 1024) (by omega) (by omega)
  rw [show 1024 * (length / 1024) = length by omega] at kept
  have tiles : Tiles (d.truncate length).byte 0 (l ++ q1) (d.truncate length).iSize := by
    refine (tiles_append_of front kept).congr fun k _ near => ?_
    show Block.byte (if k / 1024 * 1024 < length then _ else _) _ = _
    rw [if_pos (by omega)]
    rfl
  have unused : liveOf q1 = [] := liveOf_free fun r member => free r (by rw [same]; simp [member])
  refine ⟨tiles.tiled whole,?_⟩
  rw [live,tiles.records_eq whole,liveOf_append,unused,append_nil]

theorem enterFresh_spec {endoff : Nat} (e : Direct) (tiled : Tiled d) (short : e.dName.length ≤ maxnamlen)
    (ino : e.dIno < 2^32) :
    Tiled (enterFresh d ⟨d.iSize,0,endoff,e⟩) ∧ live (enterFresh d ⟨d.iSize,0,endoff,e⟩) =
    live d ++ liveOf [⟨e.dIno,1024,e.dName⟩] := by
  have whole := tiled.1
  have size := dirsiz_bounds e.dName.length
  have small : e.dName.length ≤ 63 := short
  have grown : (enterFresh d ⟨d.iSize,0,endoff,e⟩).iSize = d.iSize + 1024 := by
    show roundup (max d.iSize (d.iSize + dirsiz e.dName.length)) dirblksiz = _
    unfold roundup dirblksiz
    omega
  have byte : ∀ k, (enterFresh d ⟨d.iSize,0,endoff,e⟩).byte k = if d.iSize ≤ k ∧ k < d.iSize + dirsiz e.dName.length then
      {e with dReclen := 1024}.image (k - d.iSize) else d.byte k := byte_write _ (by dsimp only; omega)
  have entry : entryOf (enterFresh d ⟨d.iSize,0,endoff,e⟩).byte d.iSize = ⟨e.dIno,1024,e.dName⟩ := by
    refine entryOf_image {e with dReclen := 1024} (fun k near => ?_) ino (by dsimp only; omega) (by dsimp only; omega)
    rw [byte,if_pos ⟨by omega,by dsimp only at near; omega⟩]
    congr 1
    omega
  have tiles : Tiles (enterFresh d ⟨d.iSize,0,endoff,e⟩).byte 0 (records d ++ [⟨e.dIno,1024,e.dName⟩]) (d.iSize + 1024) := by
    refine tiles_append_of (tiled.tiles.congr fun k _ near => ?_) ⟨entry,?_,?_,?_,?_⟩
    · rw [byte,if_neg (by omega)]
    · dsimp only
    · dsimp only
      omega
    · dsimp only
      omega
    · rfl
  rw [← grown] at tiles
  refine ⟨tiles.tiled (by omega),?_⟩
  rw [live,tiles.records_eq (by omega),liveOf_append]
  rfl

theorem Slot.positive {needed a size o : Nat} {pre slot post : List Entry}
    (known : Slot d needed a size o pre slot post) : 0 < size := by
  obtain ⟨x,todo,rfl⟩ := exists_cons_of_ne_nil known.filled
  have room := known.region.eq_extent
  have bound := known.region.reclen_le mem_cons_self
  simp only [extent,map_cons,sum_cons] at room
  omega

theorem direnter_slot {a size enduseful : Nat} {pre slot post q : List Entry} (name : Name) (rest : Nat → UInt8) {ino : Nat}
    (tiled : Tiled d) (known : Slot d (dirsiz name.length) a size d.iSize pre slot (post ++ q))
    (useful : Tiles d.byte (a + size) post enduseful) (free : ∀ r ∈ q, r.ino = 0) (used : ino ≠ 0) (number : ino < 2^32) :
    (∃ d', direnter d ino ⟨a,size,roundup enduseful dirblksiz,⟨0,0,name,rest⟩⟩ = .ok d' ∧ Tiled d' ∧
    (live d').Perm ((name,ino) :: live d)) ∧
    ∀ d1, enterSlot d ⟨a,size,roundup enduseful dirblksiz,⟨ino,0,name,rest⟩⟩ = .ok d1 →
      roundup enduseful dirblksiz < d1.iSize → live (d1.truncate (roundup enduseful dirblksiz)) = live d1 := by
  have whole := tiled.1
  obtain ⟨d1,entered,same,tiles⟩ := @enterSlot_spec d a size (roundup enduseful dirblksiz) pre slot (post ++ q)
    ⟨ino,0,name,rest⟩ known number
  dsimp only at tiles
  have split := tiles
  rw [← append_assoc] at split
  obtain ⟨k,front,tail⟩ := tiles_append.mp split
  have place : k = enduseful := by
    have first := tail.eq_extent
    have second := known.behind.eq_extent
    have third := useful.eq_extent
    rw [extent_append] at second
    omega
  subst place
  obtain ⟨above,aligned,near⟩ := roundup_bounds k
  have below := tail.le
  rw [← same] at tail tiles
  have positive := known.positive
  have lower := useful.le
  have order : (liveOf (pre ++ (trimmed slot ++ [⟨ino,space slot,name⟩]) ++ post)).Perm ((name,ino) :: live d) := by
    have before : records d = pre ++ slot ++ (post ++ q) :=
      (tiles_append_of (tiles_append_of known.before known.region) known.behind).records_eq whole
    rw [live,before]
    simp only [liveOf_append,liveOf_trimmed,liveOf_used used,liveOf_free free,append_nil,append_assoc]
    rw [← append_assoc,← append_assoc (liveOf pre)]
    exact perm_middle
  have all : live d1 = liveOf (pre ++ (trimmed slot ++ [⟨ino,space slot,name⟩]) ++ post) := by
    rw [live,tiles.records_eq (by omega),← append_assoc,liveOf_append,liveOf_free free,append_nil]
  have cut := fun bound => @truncate_spec d1 _ (roundup k dirblksiz) k q front tail free aligned above bound
  constructor
  · have result : direnter d ino ⟨a,size,roundup k dirblksiz,⟨0,0,name,rest⟩⟩ =
        .ok (if roundup k dirblksiz ≠ 0 ∧ roundup k dirblksiz < d1.iSize then d1.truncate (roundup k dirblksiz) else d1) := by
      unfold direnter
      dsimp only
      rw [if_neg (by omega),entered]
      rfl
    refine ⟨_,result,?_⟩
    split_ifs with shrinks
    · obtain ⟨tiled',live'⟩ := cut shrinks.2.le
      exact ⟨tiled',by rw [live']; exact order⟩
    · exact ⟨tiles.tiled (by omega),by rw [all]; exact order⟩
  · intro d2 again shrinks
    rw [entered] at again
    cases again
    rw [(cut shrinks.le).2,all]

theorem write_record {l1 l2 : List Entry} {x : Entry} {ino : Nat} (rest : Nat → UInt8) (tiled : Tiled d)
    (same : records d = l1 ++ x :: l2) (number : ino < 2^32) :
    Tiled (d.write (extent l1) (dirsiz x.name.length) (Direct.image ⟨ino,x.reclen,x.name,rest⟩)) ∧
    live (d.write (extent l1) (dirsiz x.name.length) (Direct.image ⟨ino,x.reclen,x.name,rest⟩)) =
      liveOf l1 ++ liveOf [⟨ino,x.reclen,x.name⟩] ++ liveOf l2 := by
  have tiles := tiled.tiles
  rw [same] at tiles
  obtain ⟨k,before,here⟩ := tiles_append.mp tiles
  have place := before.eq_extent
  rw [Nat.zero_add] at place
  subst place
  obtain ⟨_,even,room,inside,behind⟩ := here
  have bounds := tiles.reclen_le (r := x) (by simp)
  have below := behind.le
  generalize changed : d.write (extent l1) (dirsiz x.name.length) (Direct.image ⟨ino,x.reclen,x.name,rest⟩) = d'
  have byte : ∀ k, d'.byte k = if extent l1 ≤ k ∧ k < extent l1 + dirsiz x.name.length then
      Direct.image ⟨ino,x.reclen,x.name,rest⟩ (k - extent l1) else d.byte k := by
    rw [← changed]
    exact byte_write _ (by omega)
  have size : d'.iSize = d.iSize := by
    rw [← changed]
    show max d.iSize (extent l1 + dirsiz x.name.length) = _
    omega
  have entry : entryOf d'.byte (extent l1) = ⟨ino,x.reclen,x.name⟩ := by
    refine entryOf_image ⟨ino,x.reclen,x.name,rest⟩ (fun k near => ?_) number (by dsimp only; omega) (by dsimp only; omega)
    dsimp only at near
    rw [byte,if_pos ⟨by omega,by omega⟩]
    congr 1
    omega
  have region : Tiles d'.byte (extent l1) [⟨ino,x.reclen,x.name⟩] (extent l1 + x.reclen) := ⟨entry,even,room,inside,rfl⟩
  have after := before.replace region behind fun k away => by rw [byte,if_neg (by omega)]
  rw [← size] at after
  have whole : d'.iSize % 1024 = 0 := by
    rw [size]
    exact tiled.1
  exact ⟨after.tiled whole,by rw [live,after.records_eq whole,liveOf_append,liveOf_append]⟩

theorem dirremove_merges {l0 l2 : List Entry} {x y : Entry} {e : Direct} (tiled : Tiled d)
    (same : records d = l0 ++ [y] ++ x :: l2) (inner : extent (l0 ++ [y]) % 1024 ≠ 0) (length : e.dReclen = x.reclen) :
    Tiled (dirremove d ⟨extent (l0 ++ [y]),y.reclen,0,e⟩) ∧
      live (dirremove d ⟨extent (l0 ++ [y]),y.reclen,0,e⟩) = liveOf l0 ++ liveOf [y] ++ liveOf l2 := by
  have tiles := tiled.tiles
  rw [same,append_assoc] at tiles
  obtain ⟨k,before,here⟩ := tiles_append.mp tiles
  have place := before.eq_extent
  rw [Nat.zero_add] at place
  subst place
  have buffer := here.in_block
  obtain ⟨_,even,room,inside,_,even',room',inside',behind⟩ := here
  have size := dirsiz_bounds y.name.length
  have sum : extent (l0 ++ [y]) = extent l0 + y.reclen := by
    rw [extent_append]
    simp [extent]
  rw [sum] at inner ⊢
  have merged : dirremove d ⟨extent l0 + y.reclen,y.reclen,0,e⟩ = ⟨d.iSize,update d.block (extent l0 / 1024)
      (setReclen (d.block (extent l0 / 1024)) (extent l0 % 1024) (y.reclen + x.reclen))⟩ := by
    unfold dirremove
    dsimp only
    rw [if_neg (by omega),Nat.add_sub_cancel,dReclen_eq,buffer,length]
  generalize dirremove d ⟨extent l0 + y.reclen,y.reclen,0,e⟩ = d' at merged
  have byte : ∀ k, d'.byte k = if k / 1024 = extent l0 / 1024 then
      (setReclen (d.block (extent l0 / 1024)) (extent l0 % 1024) (y.reclen + x.reclen)).byte (k % 1024) else d.byte k := by
    rw [merged]
    exact byte_update _ _ _
  have kept : d'.iSize = d.iSize := by rw [merged]
  have entry : entryOf d'.byte (extent l0) = {y with reclen := y.reclen + x.reclen} := by
    have longer := @entryOf_setReclen (d.block (extent l0 / 1024)) (extent l0 % 1024) (y.reclen + x.reclen) (by omega) (by omega)
    rw [buffer] at longer
    rw [← longer]
    refine entryOf_congr fun k near => ?_
    rw [longer] at near
    dsimp only at near
    rw [byte,if_pos (by omega),show (extent l0 + k) % 1024 = extent l0 % 1024 + k by omega]
  have region : Tiles d'.byte (extent l0) [{y with reclen := y.reclen + x.reclen}] (extent l0 + y.reclen + x.reclen) :=
    ⟨entry,by dsimp only; omega,by dsimp only; omega,by dsimp only; omega,by rw [Nat.add_assoc]; rfl⟩
  have after := before.replace region behind fun k away => by
    rw [byte]
    split_ifs with near
    · rw [byte_setReclen (by omega),Dir.byte,near]
    · rfl
  rw [← kept] at after
  have whole : d'.iSize % 1024 = 0 := by
    rw [kept]
    exact tiled.1
  refine ⟨after.tiled whole,?_⟩
  rw [live,after.records_eq whole,liveOf_append,liveOf_append]
  congr 2
  simp only [liveOf,filter_cons,filter_nil]
  split_ifs <;> rfl

def names (d : Dir) : List Name := (live d).map Prod.fst

theorem mem_names {name : Name} : name ∈ names d ↔ ∃ r ∈ records d, r.has name := by
  unfold names live
  rw [mem_map]
  constructor
  · rintro ⟨⟨_,ino⟩,member,rfl⟩
    obtain ⟨r,present,has,_⟩ := mem_liveOf.mp member
    exact ⟨r,present,has⟩
  · rintro ⟨r,present,has⟩
    exact ⟨(name,r.ino),mem_liveOf.mpr ⟨r,present,has,rfl⟩,rfl⟩

theorem not_mem_names {name : Name} (missed : ∀ r ∈ records d, ¬ r.has name) : name ∉ names d := by
  intro present
  obtain ⟨r,member,has⟩ := mem_names.mp present
  exact missed r member has

theorem live_at {l1 l2 : List Entry} {x : Entry} {name : Name} (same : records d = l1 ++ x :: l2) (has : x.has name) :
    live d = liveOf l1 ++ (name,x.ino) :: liveOf l2 := by
  have one : liveOf [x] = [(x.name,x.ino)] := liveOf_used has.1
  rw [live,same,liveOf_append,← singleton_append,liveOf_append,one,has.2]
  rfl

def Finds (d : Dir) (name : Name) (ino : Nat) : Prop :=
  ∀ hint : Option Nat, (∀ p ∈ hint, p % dirblksiz = 0) → ∃ p, lookup d hint name = some (ino,p)

def Misses (d : Dir) (name : Name) : Prop := ∀ hint : Option Nat, (∀ p ∈ hint, p % dirblksiz = 0) → lookup d hint name = none

section
variable (tiled : Tiled d)
include tiled

theorem Tiled.finds {name : Name} {ino : Nat} (present : (name,ino) ∈ live d)
    (only : ∀ other, (name,other) ∈ live d → other = ino) : Finds d name ino := by
  intro hint saved
  rcases lookup_spec tiled saved name with ⟨x,member,has,p,found⟩ | ⟨_,absent⟩
  · rw [only x.ino (mem_liveOf.mpr ⟨x,member,has,rfl⟩)] at found
    exact ⟨p,found⟩
  obtain ⟨r,member,has,_⟩ := mem_liveOf.mp present
  exact absurd has (absent r member)

theorem Tiled.misses {name : Name} (absent : name ∉ names d) : Misses d name := by
  intro hint saved
  rcases lookup_spec tiled saved name with ⟨x,member,has,_⟩ | ⟨missed,_⟩
  · exact absurd (mem_names.mpr ⟨x,member,has⟩) absent
  · exact missed

def Legal : Op → Prop
  | .create name _ ino => name.length ≤ maxnamlen ∧ ino ≠ 0 ∧ ino < 2^32
  | .remove _ _ => True
  | .rewrite _ _ ino => ino ≠ 0 ∧ ino < 2^32

def Uncut (d : Dir) (name : Name) (rest : Nat → UInt8) (ino : Nat) : Prop :=
  ∀ a size endoff e d', nameiCreate d name rest = .ok ⟨a,size,endoff,e⟩ → size ≠ 0 →
    enterSlot d ⟨a,size,endoff,{e with dIno := ino}⟩ = .ok d' → endoff < d'.iSize → live (d'.truncate endoff) = live d'

/-- An operation changes its entry and no other, and fails only for a name that is
already there, or not there. -/
def Correct (d : Dir) (op : Op) : Prop :=
  match op with
  | .create name rest ino =>
    Uncut d name rest ino ∧
    ((name ∈ names d ∧ step d op = .error (.errno eexist)) ∨
    (name ∉ names d ∧ ∃ d', step d op = .ok d' ∧ Tiled d' ∧ (live d').Perm ((name,ino) :: live d) ∧ Finds d' name ino))
  | .remove name _ =>
    (name ∉ names d ∧ step d op = .error (.errno enoent)) ∨
    (∃ d' ino, step d op = .ok d' ∧ Tiled d' ∧ (live d).Perm ((name,ino) :: live d') ∧
    ((names d).count name = 1 → Misses d' name))
  | .rewrite name _ ino =>
    (name ∉ names d ∧ step d op = .error (.errno enoent)) ∨
    (∃ d' old pre post, step d op = .ok d' ∧ Tiled d' ∧ live d = pre ++ (name,old) :: post ∧
      live d' = pre ++ (name,ino) :: post ∧ ((names d).count name = 1 → Finds d' name ino))

theorem create_correct (name : Name) (rest : Nat → UInt8) {ino : Nat}
    (legal : Legal (.create name rest ino)) : Correct d (.create name rest ino) := by
  obtain ⟨short,used,number⟩ := legal
  have found : ∀ d', Tiled d' → (live d').Perm ((name,ino) :: live d) → name ∉ names d → Finds d' name ino := by
    intro d' tiled' order absent
    refine tiled'.finds (order.mem_iff.mpr mem_cons_self) fun other member => ?_
    rcases mem_cons.mp (order.mem_iff.mp member) with same | old
    · exact congrArg Prod.snd same
    · exact absurd (mem_map.mpr ⟨_,old,rfl⟩) absent
  have start : step d (.create name rest ino) = (nameiCreate d name rest).bind fun ndp => direnter d ino ndp := rfl
  rcases nameiCreate_spec tiled name rest with ⟨failed,present⟩ |
    ⟨missed,fresh | ⟨a,size,enduseful,pre,slot,post,q,ok,known,useful,free⟩⟩
  · refine ⟨fun a size endoff e d' ok => ?_,Or.inl ⟨mem_names.mpr present,by rw [start,failed]; rfl⟩⟩
    rw [failed] at ok
    cases ok
  · have absent := not_mem_names missed
    obtain ⟨tiled',live'⟩ := @enterFresh_spec d d.iSize ⟨ino,0,name,rest⟩ tiled short number
    have order : (live (enterFresh d ⟨d.iSize,0,d.iSize,⟨ino,0,name,rest⟩⟩)).Perm ((name,ino) :: live d) := by
      rw [live',liveOf_used used]
      exact perm_append_singleton _ _
    refine ⟨fun a size endoff e d' ok some => ?_,Or.inr ⟨absent,_,?_,tiled',order,found _ tiled' order absent⟩⟩
    · rw [fresh] at ok
      cases ok
      exact absurd rfl some
    have whole : d.iSize % dirblksiz = 0 := tiled.1
    rw [start,fresh]
    show direnter d ino ⟨d.iSize,0,d.iSize,⟨0,0,name,rest⟩⟩ = .ok _
    unfold direnter
    dsimp only
    rw [if_pos rfl,if_neg (by simp [whole])]
  · have absent := not_mem_names missed
    obtain ⟨⟨d',entered,tiled',order⟩,uncut⟩ := direnter_slot name rest tiled known useful free used number
    refine ⟨fun a' size' endoff e d1 found' _ entering shrinks =>
      ?_,Or.inr ⟨absent,d',?_,tiled',order,found d' tiled' order absent⟩⟩
    · rw [ok] at found'
      cases found'
      exact uncut d1 entering shrinks
    · rw [start,ok]
      exact entered

theorem remove_correct (name : Name) (rest : Nat → UInt8) : Correct d (.remove name rest) := by
  have start : step d (.remove name rest) = (nameiDelete d name rest).bind fun ndp => .ok (dirremove d ndp) := rfl
  rcases nameiDelete_spec tiled name rest with ⟨failed,missed⟩ | ⟨l1,x,l2,count,same,has,ok,where'⟩
  · exact Or.inl ⟨not_mem_names missed,by rw [start,failed]; rfl⟩
  have removed : Tiled (dirremove d ⟨extent l1,count,0,⟨x.ino,x.reclen,name,rest⟩⟩) ∧
      live (dirremove d ⟨extent l1,count,0,⟨x.ino,x.reclen,name,rest⟩⟩) = liveOf l1 ++ liveOf l2 := by
    rcases where' with ⟨_,first⟩ | ⟨inner,l0,y,split,size⟩
    · have written := write_record rest tiled same (show 0 < 2^32 by decide)
      rw [first]
      unfold dirremove
      rw [if_pos rfl]
      rw [has.2] at written
      rw [liveOf_free (l := [⟨0,x.reclen,name⟩]) (by simp),append_nil] at written
      exact written
    · subst split size
      have merged := dirremove_merges (e := ⟨x.ino,x.reclen,name,rest⟩) tiled same inner rfl
      rw [← liveOf_append] at merged
      exact merged
  obtain ⟨tiled',live'⟩ := removed
  have before := live_at same has
  have order : (live d).Perm ((name,x.ino) :: live (dirremove d ⟨extent l1,count,0,⟨x.ino,x.reclen,name,rest⟩⟩)) := by
    rw [before,live']
    exact perm_middle
  refine Or.inr ⟨_,x.ino,by rw [start,ok]; rfl,tiled',order,fun once => tiled'.misses ?_⟩
  have counted := (order.map Prod.fst).count_eq name
  simp only [map_cons,count_cons_self] at counted
  intro again
  have positive := count_pos_iff.mpr again
  unfold names at once positive
  omega

theorem rewrite_correct (name : Name) (rest : Nat → UInt8) {ino : Nat}
    (legal : Legal (.rewrite name rest ino)) : Correct d (.rewrite name rest ino) := by
  have start : step d (.rewrite name rest ino) = (nameiRewrite d name rest).bind fun ndp => .ok (dirrewrite d ino ndp) := rfl
  rcases nameiRewrite_spec tiled name rest with ⟨failed,missed⟩ | ⟨l1,x,l2,same,has,ok⟩
  · exact Or.inl ⟨not_mem_names missed,by rw [start,failed]; rfl⟩
  obtain ⟨tiled',live'⟩ := write_record rest tiled same legal.2
  rw [liveOf_used legal.1,has.2,append_assoc,singleton_append] at live'
  rw [has.2] at tiled'
  have before := live_at same has
  refine Or.inr ⟨_,x.ino,_,_,by rw [start,ok]; rfl,tiled',before,live',fun once => tiled'.finds ?_ ?_⟩
  · rw [live']
    simp
  intro other member
  rw [names,before,map_append,map_cons,count_append,count_cons_self] at once
  rw [live'] at member
  have away : ∀ l : List (Name × Nat), (name,other) ∈ l → 0 < (l.map Prod.fst).count name := fun l member =>
    count_pos_iff.mpr (mem_map.mpr ⟨_,member,rfl⟩)
  rcases mem_append.mp member with first | rest
  · have positive := away _ first
    omega
  rcases mem_cons.mp rest with same | last
  · exact congrArg Prod.snd same
  have positive := away _ last
  omega

theorem step_correct (op : Op) (legal : Legal op) : Correct d op := by
  cases op with
  | create name rest ino => exact create_correct tiled name rest legal
  | remove name rest => exact remove_correct tiled name rest
  | rewrite name rest ino => exact rewrite_correct tiled name rest legal

end

theorem Correct.outcome {op : Op} (correct : Correct d op) :
    (∃ d', step d op = .ok d' ∧ Tiled d') ∨ ∃ e, step d op = .error (.errno e) := by
  cases op with
  | create name rest ino =>
    rcases correct.2 with ⟨_,failed⟩ | ⟨_,d',ok,tiled,_⟩
    · exact Or.inr ⟨_,failed⟩
    · exact Or.inl ⟨d',ok,tiled⟩
  | remove name rest =>
    rcases correct with ⟨_,failed⟩ | ⟨d',_,ok,tiled,_⟩
    · exact Or.inr ⟨_,failed⟩
    · exact Or.inl ⟨d',ok,tiled⟩
  | rewrite name rest ino =>
    rcases correct with ⟨_,failed⟩ | ⟨d',_,_,_,ok,tiled,_⟩
    · exact Or.inr ⟨_,failed⟩
    · exact Or.inl ⟨d',ok,tiled⟩

/-- Every run of operations meets tiled directories only, at each of which the next
operation does what it should; it ends without a panic. -/
theorem directory_kept (tiled : Tiled d) (ops : List Op) (legal : ∀ op ∈ ops, Legal op) :
    Along step Correct d ops ∧ ((∃ d', run step d ops = .ok d' ∧ Tiled d') ∨ ∃ e, run step d ops = .error (.errno e)) := by
  have along : Along step (fun _ op => Legal op) d ops := Along.of_forall d legal
  constructor
  · refine Along.of_invariant (fun d op (tiled : Tiled d) legal => step_correct tiled op legal) ?_ ops d tiled along
    intro d op d' tiled legal ok
    rcases (step_correct tiled op legal).outcome with ⟨d'',done,kept⟩ | ⟨e,failed⟩
    · rw [ok] at done
      cases done
      exact kept
    · rw [ok] at failed
      cases failed
  have progress : ∀ d op, Tiled d → Legal op → (∃ d', step d op = .ok d' ∧ Tiled d') ∨ ∃ e,
    step d op = .error e ∧ ∃ n, e = .errno n := by
    intro d op tiled legal
    exact (step_correct tiled op legal).outcome.imp_right fun ⟨n,failed⟩ => ⟨_,failed,n,rfl⟩
  rcases @run_cases _ _ _ step (fun _ op => Legal op) Tiled (fun _ e => ∃ n, e = .errno n) progress ops d tiled along with
    done | ⟨_,_,e,failed,n,rfl⟩
  · exact Or.inl done
  · exact Or.inr ⟨n,failed⟩

def twoEntries (first second : Direct) : Dir :=
  ⟨1024,fun _ => (Block.zero.fill 0 12 {first with dReclen := 12}.image).fill 12 12 {second with dReclen := 1012}.image⟩

theorem twoEntries_tiled {first second : Direct} {l : List Entry}
    (tiles : Tiles ((twoEntries first second).block 0).byte 0 l 1024) :
    Tiled (twoEntries first second) :=
  ⟨Nat.mod_self 1024,fun _ _ => ⟨l,tiles⟩⟩

def mastertemplate : Dir := twoEntries ⟨2,0,[46],fun _ => 0⟩ ⟨2,0,[46,46],fun _ => 0⟩

theorem mastertemplate_tiled : Tiled mastertemplate := @twoEntries_tiled _ _ [⟨2,12,[46]⟩,⟨2,1012,[46,46]⟩] (by decide +kernel)

def someChanges : List Op :=
  [.create [97] (fun _ => 0) 3,.create [98,98] (fun _ => 1) 4,.remove [97] (fun _ => 0),.rewrite [98,98] (fun _ => 0) 5,
    .create [99,99,99,99] (fun _ => 0) 6]

theorem directory_kept_someChanges : Along step Correct mastertemplate someChanges ∧
    ((∃ d', run step mastertemplate someChanges = .ok d' ∧ Tiled d') ∨ ∃ e,
    run step mastertemplate someChanges = .error (.errno e)) := by
  apply directory_kept mastertemplate_tiled
  simp [someChanges,Legal,maxnamlen]

def sameName : Dir := twoEntries ⟨5,0,[97],fun _ => 0⟩ ⟨6,0,[97],fun _ => 0⟩

def findsOther (d : Dir) : Bool := decide (lookup d none [97] = some (6,0))

/-- A `LOOKUP` goes on to find a name that is removed, if there is another entry with it. -/
theorem sameName_found : Tiled sameName ∧ ∃ d', step sameName (.remove [97] fun _ => 0) = .ok d' ∧
    lookup d' none [97] = some (6,0) := by
  refine ⟨@twoEntries_tiled _ _ [⟨5,12,[97]⟩,⟨6,1012,[97]⟩] (by decide +kernel),?_⟩
  obtain ⟨d',ok,found⟩ := @of_returns _ _ findsOther (step sameName (.remove [97] fun _ => 0)) (by decide +kernel)
  exact ⟨d',ok,of_decide_eq_true found⟩

end Retrobsd.Directory
