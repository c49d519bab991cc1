import Retrobsd.DirectoryRecords

/-! The search of `namei` over the records of a directory: what it stops at, and what
its variables say about the free space that it has passed. -/
namespace Retrobsd.Directory

def Dir.byte (d : Dir) (x : Nat) : UInt8 := (d.block (x / 1024)).byte (x % 1024)

def Tiled (d : Dir) : Prop := d.iSize % 1024 = 0 ∧ ∀ k < d.iSize / 1024, ∃ l, Tiles (d.block k).byte 0 l 1024

def records (d : Dir) : List Entry := (List.range (d.iSize / 1024)).flatMap fun k => entriesFrom (d.block k).byte 1024 1024 0

def liveOf (l : List Entry) : List (Name × Nat) := (l.filter fun r => r.ino ≠ 0).map fun r => (r.name,r.ino)

def live (d : Dir) : List (Name × Nat) := liveOf (records d)

variable {d : Dir} {o e : Nat} {l : List Entry} {r : Entry} {k : Nat} {s : Search}

theorem block_byte {x : Nat} (inside : x < 1024) : d.byte (x + 1024 * k) = (d.block k).byte x := by
  rw [Dir.byte,show (x + 1024 * k) / 1024 = k by omega,show (x + 1024 * k) % 1024 = x by omega]

theorem Tiles.split_block {f : Nat → UInt8} (tiles : Tiles f o l e) (above : o ≤ 1024 * k) (below : 1024 * k ≤ e) :
    ∃ l1 l2, l = l1 ++ l2 ∧ Tiles f o l1 (1024 * k) ∧ Tiles f (1024 * k) l2 e := by
  induction l generalizing o with
  | nil =>
    have same : o = e := tiles
    exact ⟨[],[],rfl,(by omega : o = 1024 * k),(by omega : 1024 * k = e)⟩
  | cons r l ih =>
    by_cases here : o = 1024 * k
    · exact ⟨[],r :: l,rfl,here,here ▸ tiles⟩
    obtain ⟨first,even,room,inside,rest⟩ := tiles
    obtain ⟨l1,l2,same,left,right⟩ := ih rest (by omega)
    exact ⟨r :: l1,l2,by simp [same],⟨first,even,room,inside,left⟩,right⟩

theorem Tiled.tiles (tiled : Tiled d) : Tiles d.byte 0 (records d) d.iSize := by
  have prefixes : ∀ n, n ≤ d.iSize / 1024 →
      Tiles d.byte 0 ((List.range n).flatMap fun k => entriesFrom (d.block k).byte 1024 1024 0) (1024 * n) := by
    intro n
    induction n with
    | zero => intro _; rfl
    | succ n ih =>
      intro bound
      obtain ⟨l,tiles⟩ := tiled.2 n (by omega)
      have short := tiles.length_le
      have last := tiles.shift (g := d.byte) (c := 1024 * n) (by omega) fun k _ below => block_byte below
      rw [List.range_succ,List.flatMap_append,List.flatMap_singleton,tiles.entriesFrom_eq (by omega)]
      refine tiles_append_of (ih (by omega)) ?_
      rw [show 1024 * (n + 1) = 1024 + 1024 * n by omega]
      simpa using last
  have whole := prefixes (d.iSize / 1024) (le_refl _)
  have size := tiled.1
  rwa [show 1024 * (d.iSize / 1024) = d.iSize by omega] at whole

theorem Tiles.in_buffer (tiles : Tiles d.byte o l e) (above : 1024 * k ≤ o) (below : e ≤ 1024 * (k + 1)) :
    Tiles (d.block k).byte (o - 1024 * k) l (e - 1024 * k) := by
  induction l generalizing o with
  | nil =>
    have same : o = e := tiles
    exact congrArg (· - 1024 * k) same
  | cons r l ih =>
    obtain ⟨here,even,room,inside,rest⟩ := tiles
    have bound := rest.le
    have next := ih rest (by omega)
    rw [show o + r.reclen - 1024 * k = o - 1024 * k + r.reclen by omega] at next
    refine ⟨?_,even,room,by omega,next⟩
    rw [← here]
    refine entryOf_congr fun j near => ?_
    rw [here] at near
    have byte := @block_byte d k (o - 1024 * k + j) (by omega)
    rw [show o - 1024 * k + j + 1024 * k = o + j by omega] at byte
    exact byte.symm

theorem Tiles.tiled (tiles : Tiles d.byte 0 l d.iSize) (whole : d.iSize % 1024 = 0) : Tiled d := by
  refine ⟨whole,fun k bound => ?_⟩
  obtain ⟨_,rest,_,_,right⟩ := tiles.split_block (k := k) (by omega) (by omega)
  obtain ⟨middle,_,_,tiles,_⟩ := right.split_block (k := k + 1) (by omega) (by omega)
  have buffer := tiles.in_buffer (k := k) (le_refl _) (le_refl _)
  rw [Nat.sub_self,show 1024 * (k + 1) - 1024 * k = 1024 by omega] at buffer
  exact ⟨middle,buffer⟩

theorem Tiles.records_eq (tiles : Tiles d.byte 0 l d.iSize) (whole : d.iSize % 1024 = 0) : records d = l :=
  (tiles.tiled whole).tiles.unique tiles

theorem Tiles.in_block (tiles : Tiles d.byte o (r :: l) e) : entryOf (d.block (o / 1024)).byte (o % 1024) = r := by
  obtain ⟨here,_,room,inside,_⟩ := tiles
  rw [← here]
  refine entryOf_congr fun k near => ?_
  rw [here] at near
  rw [Dir.byte,show (o + k) / 1024 = o / 1024 by omega,show (o + k) % 1024 = o % 1024 + k by omega]

def Located (s : Search) (o : Nat) : Prop := s.niOffset = o ∧ (o % 1024 ≠ 0 → s.bp = o / 1024 ∧ s.entryoffsetinblock = o % 1024)

structure Reading (s : Search) (o : Nat) : Prop where
  offset : s.niOffset = o
  bp : s.bp = o / 1024
  inblock : s.entryoffsetinblock = o % 1024

theorem Located.nextBlock (located : Located s o) : Reading (nextBlock s) o := by
  obtain ⟨offset,buffer⟩ := located
  have kept : ∀ t : Search, Reading t o → Reading (if t.slotstatus = .none ∧ t.entryoffsetinblock % dirblksiz = 0 then
        {t with slotoffset := -1,slotfreespace := 0} else t) o := by
    intro t reading
    split_ifs
    · exact ⟨reading.offset,reading.bp,reading.inblock⟩
    · exact reading
  unfold Directory.nextBlock
  apply kept
  split_ifs with boundary
  · rw [offset] at boundary
    exact ⟨offset,by rw [← offset],boundary.symm⟩
  rw [offset] at boundary
  exact ⟨offset,(buffer boundary).1,(buffer boundary).2⟩

theorem noteSlot_fields (slotneeded ino reclen namlen : Nat) (s : Search) :
    (noteSlot slotneeded ino reclen namlen s).niOffset = s.niOffset ∧
    (noteSlot slotneeded ino reclen namlen s).bp = s.bp ∧
    (noteSlot slotneeded ino reclen namlen s).entryoffsetinblock = s.entryoffsetinblock ∧
    (noteSlot slotneeded ino reclen namlen s).prevoff = s.prevoff ∧
    (noteSlot slotneeded ino reclen namlen s).enduseful = s.enduseful := by
  unfold noteSlot
  dsimp only
  split_ifs <;> exact ⟨rfl,rfl,rfl,rfl,rfl⟩

theorem nextBlock_fields (s : Search) : (nextBlock s).niOffset = s.niOffset ∧ (nextBlock s).prevoff = s.prevoff ∧
    (nextBlock s).enduseful = s.enduseful ∧ (nextBlock s).slotstatus = s.slotstatus ∧ (nextBlock s).slotsize = s.slotsize := by
  unfold nextBlock
  dsimp only
  split_ifs <;> exact ⟨rfl,rfl,rfl,rfl,rfl⟩

def noted (slotneeded : Nat) (r : Entry) (s : Search) : Search := noteSlot slotneeded r.ino r.reclen r.name.length (nextBlock s)

def passed (slotneeded : Nat) (r : Entry) (s : Search) : Search := advance r.ino r.reclen (noted slotneeded r s)

theorem Located.reading (located : Located s o) (slotneeded : Nat) (r : Entry) : Reading (noted slotneeded r s) o := by
  obtain ⟨offset,bp,inblock⟩ := located.nextBlock
  obtain ⟨same,same',same'',_⟩ := noteSlot_fields slotneeded r.ino r.reclen r.name.length (Directory.nextBlock s)
  exact ⟨same.trans offset,same'.trans bp,same''.trans inblock⟩

theorem Located.next (located : Located s o) (slotneeded : Nat) (inside : o % 1024 + r.reclen ≤ 1024)
    (positive : 0 < r.reclen) : Located (passed slotneeded r s) (o + r.reclen) := by
  obtain ⟨offset,bp,inblock⟩ := located.reading slotneeded r
  refine ⟨congrArg (· + r.reclen) offset,fun away => ⟨?_,?_⟩⟩
  · show (noted slotneeded r s).bp = _
    rw [bp]
    omega
  show (noted slotneeded r s).entryoffsetinblock + r.reclen = _
  rw [inblock]
  omega

def Entry.has (r : Entry) (name : Name) : Prop := r.ino ≠ 0 ∧ r.name = name

theorem searchloop_turn (slotneeded fuel : Nat) (name : Name) {endsearch : Nat} (located : Located s o)
    (tiles : Tiles d.byte o (r :: l) endsearch) :
    (r.has name → searchloop d slotneeded name endsearch (fuel + 1) s = (noted slotneeded r s,true)) ∧
    (¬ r.has name → searchloop d slotneeded name endsearch (fuel + 1) s =
      searchloop d slotneeded name endsearch fuel (passed slotneeded r s)) := by
  have reading := located.nextBlock
  have record := tiles.in_block
  obtain ⟨_,_,room,_,rest⟩ := tiles
  have positive := (dirsiz_bounds r.name.length).1
  have bound := rest.le
  have ino : dIno (d.block (Directory.nextBlock s).bp) (Directory.nextBlock s).entryoffsetinblock = r.ino := by
    rw [dIno_eq,reading.bp,reading.inblock,record]
  have reclen : dReclen (d.block (Directory.nextBlock s).bp) (Directory.nextBlock s).entryoffsetinblock = r.reclen := by
    rw [dReclen_eq,reading.bp,reading.inblock,record]
  have namlen : dNamlen (d.block (Directory.nextBlock s).bp) (Directory.nextBlock s).entryoffsetinblock = r.name.length := by
    rw [dNamlen_eq,reading.bp,reading.inblock,record]
  have names : dName (d.block (Directory.nextBlock s).bp) (Directory.nextBlock s).entryoffsetinblock = r.name := by
    rw [dName_eq,reading.bp,reading.inblock,record]
  have go : s.niOffset < endsearch := by
    rw [located.1]
    omega
  have step : searchloop d slotneeded name endsearch (fuel + 1) s = if r.ino ≠ 0 ∧ r.name = name then
      (noted slotneeded r s,true) else searchloop d slotneeded name endsearch fuel (passed slotneeded r s) := by
    rw [searchloop,if_pos go]
    dsimp only
    rw [ino,reclen,namlen,names,if_neg (by omega)]
    rfl
  rw [step]
  exact ⟨fun same => if_pos same,fun other => if_neg other⟩

theorem searchloop_rule {P : Nat → Search → Prop} {slotneeded endsearch : Nat} {name : Name}
    (turn : ∀ o s r l, Located s o → P o s → Tiles d.byte o (r :: l) endsearch → P (o + r.reclen) (passed slotneeded r s)) :
    ∀ (l : List Entry) (o fuel : Nat) (s : Search), Tiles d.byte o l endsearch → Located s o → P o s → l.length ≤ fuel →
      (∃ t, searchloop d slotneeded name endsearch fuel s = (t,false) ∧ Located t endsearch ∧ P endsearch t ∧
      ∀ r ∈ l, ¬ r.has name) ∨
      (∃ l1 x l2 t, l = l1 ++ x :: l2 ∧ searchloop d slotneeded name endsearch fuel s = (noted slotneeded x t,true) ∧
        x.has name ∧ (∀ r ∈ l1, ¬ r.has name) ∧ Located t (o + extent l1) ∧ P (o + extent l1) t) := by
  intro l
  induction l with
  | nil =>
    intro o fuel s tiles located start _
    have same : o = endsearch := tiles
    subst same
    refine .inl ⟨s,?_,located,start,by simp⟩
    cases fuel with
    | zero => rfl
    | succ fuel => rw [searchloop,if_neg (by rw [located.1]; omega)]
  | cons r l ih =>
    intro o fuel s tiles located start enough
    cases fuel with
    | zero => simp at enough
    | succ fuel =>
      obtain ⟨stop,next⟩ := searchloop_turn slotneeded fuel name located tiles
      by_cases hit : r.has name
      · exact .inr ⟨[],r,l,s,rfl,stop hit,hit,by simp,by simpa [extent] using located,by simpa [extent] using start⟩
      rw [next hit]
      obtain ⟨_,_,room,inside,rest⟩ := tiles
      have positive := (dirsiz_bounds r.name.length).1
      rcases ih (o + r.reclen) fuel (passed slotneeded r s) rest (located.next slotneeded inside (by omega))
        (turn o s r l located start ⟨by assumption,by assumption,room,inside,rest⟩) (by simpa using enough) with
          ⟨t,done,there,kept,missed⟩ | ⟨l1,x,l2,t,same,done,found,missed,there,kept⟩
      · exact .inl ⟨t,done,there,kept,by simpa [hit] using missed⟩
      refine .inr ⟨r :: l1,x,l2,t,by simp [same],done,found,by simpa [hit] using missed,?_,?_⟩
      · simpa [extent,Nat.add_assoc] using there
      · simpa [extent,Nat.add_assoc] using kept

theorem roundup_whole {x : Nat} (whole : x % 1024 = 0) : roundup x dirblksiz = x := by
  unfold roundup dirblksiz
  omega

theorem startSearch_located (boundary : o % 1024 = 0) (status : SlotStatus) : Located (startSearch o status) o :=
  ⟨rfl,fun away => absurd boundary away⟩

theorem Tiles.at_record {l1 l2 : List Entry} {x : Entry} (tiles : Tiles d.byte o (l1 ++ x :: l2) e) :
    Tiles d.byte (o + extent l1) (x :: l2) e := by
  obtain ⟨k,first,second⟩ := tiles_append.mp tiles
  rwa [first.eq_extent] at second

theorem Located.found (located : Located s o) (slotneeded : Nat) (tiles : Tiles d.byte o (r :: l) e) :
    dIno (d.block (noted slotneeded r s).bp) (noted slotneeded r s).entryoffsetinblock = r.ino ∧
    dReclen (d.block (noted slotneeded r s).bp) (noted slotneeded r s).entryoffsetinblock = r.reclen := by
  obtain ⟨_,bp,inblock⟩ := located.reading slotneeded r
  rw [bp,inblock,dIno_eq,dReclen_eq,tiles.in_block]
  exact ⟨rfl,rfl⟩

theorem search_finds {name : Name} (tiles : Tiles d.byte o l e) (located : Located s o) (slotneeded : Nat) :
    (∃ t, search d slotneeded name s e = (t,false) ∧ ∀ r ∈ l, ¬ r.has name) ∨
    (∃ x ∈ l, ∃ t, search d slotneeded name s e = (t,true) ∧ x.has name ∧ dIno (d.block t.bp) t.entryoffsetinblock = x.ino) := by
  have short := tiles.length_le
  rcases searchloop_rule (P := fun _ _ => True) (fun _ _ _ _ _ _ _ => trivial) l o e s tiles located trivial (by omega) with
    ⟨t,done,_,_,missed⟩ | ⟨l1,x,l2,t,same,done,found,_,there,_⟩
  · exact .inl ⟨t,done,missed⟩
  subst same
  exact .inr ⟨x,by simp,_,done,found,(there.found slotneeded tiles.at_record).1⟩

theorem lookup_spec (tiled : Tiled d) {hint : Option Nat} (saved : ∀ p ∈ hint, p % 1024 = 0) (name : Name) :
    (∃ x ∈ records d, x.has name ∧ ∃ p, lookup d hint name = some (x.ino,p)) ∨
    (lookup d hint name = none ∧ ∀ r ∈ records d, ¬ r.has name) := by
  have tiles := tiled.tiles
  cases hint with
  | none =>
    simp only [lookup,wholeSearch,roundup_whole tiled.1]
    rcases search_finds tiles (startSearch_located rfl .found) (dirsiz name.length) with ⟨t,done,missed⟩ |
      ⟨x,member,t,done,has,ino⟩
    · exact .inr ⟨by rw [done]; rfl,missed⟩
    · exact .inl ⟨x,member,has,_,by rw [done,if_pos rfl,ino]⟩
  | some prevoffset =>
    simp only [lookup,roundup_whole tiled.1]
    generalize start : (if prevoffset > d.iSize then 0 else prevoffset) = p
    have boundary : p % 1024 = 0 := by
      have aligned := saved prevoffset rfl
      split_ifs at start <;> omega
    have below : p ≤ d.iSize := by split_ifs at start <;> omega
    obtain ⟨l1,l2,same,left,right⟩ := tiles.split_block (k := p / 1024) (by omega) (by omega)
    rw [show 1024 * (p / 1024) = p by omega] at left right
    rw [same]
    rcases search_finds right (startSearch_located boundary .found) 0 with ⟨t,done,missed⟩ | ⟨x,member,t,done,has,ino⟩
    · have again : Located {t with niOffset := 0} 0 := ⟨rfl,fun away => absurd rfl away⟩
      rw [done]
      rcases search_finds left again 0 with ⟨u,ended,absent⟩ | ⟨x,member,u,ended,has,ino⟩
      · refine .inr ⟨by rw [if_neg (by simp),ended]; rfl,fun r member => ?_⟩
        rcases List.mem_append.mp member with first | second
        · exact absent r first
        · exact missed r second
      · exact .inl ⟨x,by simp [member],has,_,by rw [if_neg (by simp),ended,if_pos rfl,ino]⟩
    · exact .inl ⟨x,by simp [member],has,_,by rw [done,if_pos rfl,ino]⟩

/-- The variable `prevoff` is the record before the one that the search is at. -/
def Follows (d : Dir) (o : Nat) (s : Search) : Prop := o = 0 ∨ ∃ l0 y, Tiles d.byte 0 (l0 ++ [y]) o ∧ s.prevoff = extent l0

theorem Follows.next {slotneeded : Nat} (before : ∃ l0, Tiles d.byte 0 l0 o) (located : Located s o)
    (tiles : Tiles d.byte o (r :: l) e) : Follows d (o + r.reclen) (passed slotneeded r s) := by
  obtain ⟨l0,upto⟩ := before
  obtain ⟨here,even,room,inside,_⟩ := tiles
  refine .inr ⟨l0,r,tiles_append_of upto ⟨here,even,room,inside,rfl⟩,?_⟩
  have extent := upto.eq_extent
  have reading := located.reading slotneeded r
  show (noted slotneeded r s).niOffset = _
  rw [reading.offset]
  omega

theorem nameiDelete_spec (tiled : Tiled d) (name : Name) (rest : Nat → UInt8) :
    (nameiDelete d name rest = .error (.errno enoent) ∧ ∀ r ∈ records d, ¬ r.has name) ∨
    (∃ l1 x l2 count, records d = l1 ++ x :: l2 ∧ x.has name ∧
    nameiDelete d name rest = .ok ⟨extent l1,count,0,⟨x.ino,x.reclen,name,rest⟩⟩ ∧
      (extent l1 % 1024 = 0 ∧ count = 0 ∨ extent l1 % 1024 ≠ 0 ∧ ∃ l0 y, l1 = l0 ++ [y] ∧ count = y.reclen)) := by
  have tiles := tiled.tiles
  have short := tiles.length_le
  have turn : ∀ o s r l, Located s o → ((∃ l0, Tiles d.byte 0 l0 o) ∧ Follows d o s) → Tiles d.byte o (r :: l) d.iSize →
      (∃ l0, Tiles d.byte 0 l0 (o + r.reclen)) ∧ Follows d (o + r.reclen) (passed (dirsiz name.length) r s) := by
    rintro o s r l located ⟨⟨l0,upto⟩,_⟩ tiles
    refine ⟨⟨l0 ++ [r],?_⟩,Follows.next ⟨l0,upto⟩ located tiles⟩
    exact tiles_append_of upto ⟨tiles.1,tiles.2.1,tiles.2.2.1,tiles.2.2.2.1,rfl⟩
  unfold nameiDelete wholeSearch search
  rw [roundup_whole tiled.1]
  rcases searchloop_rule (d := d) turn (records d) 0 d.iSize (startSearch 0 .found) tiles
    (startSearch_located rfl .found) ⟨⟨[],rfl⟩,.inl rfl⟩ (by omega) with
      ⟨t,done,_,_,missed⟩ | ⟨l1,x,l2,t,same,done,found,_,there,_,follows⟩
  · exact .inl ⟨by rw [done]; rfl,missed⟩
  rw [same] at tiles
  simp only [Nat.zero_add] at there follows
  have reading := there.reading (dirsiz name.length) x
  have here := tiles.at_record
  rw [Nat.zero_add] at here
  obtain ⟨ino,reclen⟩ := there.found (dirsiz name.length) here
  refine .inr ⟨l1,x,l2,if extent l1 % 1024 = 0 then 0 else extent l1 - (noted (dirsiz name.length) x t).prevoff,same,found,?_,?_⟩
  · rw [done]
    simp [dent,ino,reclen,reading.offset,dirblksiz]
  by_cases first : extent l1 % 1024 = 0
  · exact .inl ⟨first,if_pos first⟩
  refine .inr ⟨first,?_⟩
  rcases follows with start | ⟨l0,y,upto,prevoff⟩
  · rw [start] at first
    exact absurd rfl first
  obtain ⟨k,front,_⟩ := tiles_append.mp tiles
  have length := front.eq_extent
  rw [Nat.zero_add] at length
  subst length
  have equal := front.unique upto
  refine ⟨l0,y,equal,?_⟩
  have kept : (noted (dirsiz name.length) x t).prevoff = t.prevoff := by
    rw [noted,(noteSlot_fields _ _ _ _ _).2.2.2.1,(nextBlock_fields t).2.1]
  rw [if_neg first,kept,prevoff,equal]
  simp [extent]

theorem nameiRewrite_spec (tiled : Tiled d) (name : Name) (rest : Nat → UInt8) :
    (nameiRewrite d name rest = .error (.errno enoent) ∧ ∀ r ∈ records d, ¬ r.has name) ∨
    (∃ l1 x l2, records d = l1 ++ x :: l2 ∧ x.has name ∧
    nameiRewrite d name rest = .ok ⟨extent l1,0,0,⟨x.ino,x.reclen,name,rest⟩⟩) := by
  have tiles := tiled.tiles
  have short := tiles.length_le
  unfold nameiRewrite wholeSearch search
  rw [roundup_whole tiled.1]
  rcases searchloop_rule (d := d) (P := fun _ _ => True) (fun _ _ _ _ _ _ _ => trivial) (records d) 0 d.iSize
    (startSearch 0 .none) tiles (startSearch_located rfl .none) trivial (by omega) with
      ⟨t,done,_,_,missed⟩ | ⟨l1,x,l2,t,same,done,found,_,there,_⟩
  · exact .inl ⟨by rw [done]; rfl,missed⟩
  rw [same] at tiles
  simp only [Nat.zero_add] at there
  have reading := there.reading (dirsiz name.length) x
  have here := tiles.at_record
  rw [Nat.zero_add] at here
  obtain ⟨ino,reclen⟩ := there.found (dirsiz name.length) here
  refine .inr ⟨l1,x,l2,same,found,?_⟩
  rw [done]
  simp [dent,ino,reclen,reading.offset]

end Retrobsd.Directory
