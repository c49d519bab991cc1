import Retrobsd.DirectorySearch

/-! The place for a new entry. The search for a name that is to be created notes the
first record with enough free space, or neighbouring records of one block that have
it together, and the end of the last record in use. -/
namespace Retrobsd.Directory
open List

variable {d : Dir} {o e : Nat} {l : List Entry} {r : Entry}

def Entry.space (r : Entry) : Nat := if r.ino ≠ 0 then r.reclen - dirsiz r.name.length else r.reclen

def space (l : List Entry) : Nat := (l.map Entry.space).sum

theorem space_append (l m : List Entry) : space (l ++ m) = space l + space m := by
  simp [space]

/-- Records of one block, among those before `o`, that have the space together. -/
structure Slot (d : Dir) (needed a size o : Nat) (pre slot post : List Entry) : Prop where
  before : Tiles d.byte 0 pre a
  region : Tiles d.byte a slot (a + size)
  behind : Tiles d.byte (a + size) post o
  filled : slot ≠ []
  enough : needed ≤ space slot
  inside : a % 1024 + size ≤ 1024

/-- Records with free space, up to `o` and in its block, which are not enough yet. -/
structure Gathered (d : Dir) (a o : Nat) (free : Int) (pre gathered : List Entry) : Prop where
  before : Tiles d.byte 0 pre a
  region : Tiles d.byte a gathered o
  filled : gathered ≠ []
  block : a / 1024 = o / 1024
  sum : free = space gathered

/-- What is known of the slot when the search is at `o`, at or behind a boundary. -/
def SlotAt (d : Dir) (needed o : Nat) (s : Search) : Prop := (s.slotstatus = .none ∧ (s.slotoffset = -1 ∧ s.slotfreespace = 0 ∨
    ∃ a pre gathered, s.slotoffset = (a : Nat) ∧ Gathered d a o s.slotfreespace pre gathered)) ∨
  (s.slotstatus ≠ .none ∧ ∃ (a size : Nat) (pre slot post : List Entry), s.slotoffset = a ∧ s.slotsize = size ∧
    Slot d needed a size o pre slot post)

structure Watched (d : Dir) (needed o : Nat) (s : Search) : Prop where
  before : ∃ l0, Tiles d.byte 0 l0 o
  useful : ∃ p q, Tiles d.byte 0 p s.enduseful ∧ Tiles d.byte s.enduseful q o ∧ ∀ r ∈ q, r.ino = 0
  slot : (o % 1024 = 0 ∧ s.slotstatus = .none) ∨ SlotAt d needed o s

variable {needed a : Nat} {pre : List Entry} {s : Search}

theorem Slot.extend {size : Nat} {slot post : List Entry} (known : Slot d needed a size o pre slot post)
    (tiles : Tiles d.byte o [r] e) : Slot d needed a size e pre slot (post ++ [r]) :=
  ⟨known.before,known.region,tiles_append_of known.behind tiles,known.filled,known.enough,known.inside⟩

theorem nextBlock_slot (located : Located s o) (watched : Watched d needed o s) : SlotAt d needed o (nextBlock s) := by
  have reading := located.nextBlock
  obtain ⟨_,_,_,status,size⟩ := nextBlock_fields s
  have reset : s.slotstatus = .none → o % 1024 = 0 → (nextBlock s).slotoffset = -1 ∧ (nextBlock s).slotfreespace = 0 := by
    intro none boundary
    have first : s.niOffset % 1024 = 0 := by rw [located.1]; exact boundary
    simp [nextBlock,first,none]
  have keep : ¬ (s.slotstatus = .none ∧ o % 1024 = 0) → (nextBlock s).slotoffset = s.slotoffset ∧
      (nextBlock s).slotfreespace = s.slotfreespace := by
    intro away
    unfold nextBlock
    dsimp only
    by_cases boundary : o % 1024 = 0
    · have other : s.slotstatus ≠ .none := fun none => away ⟨none,boundary⟩
      split_ifs <;> simp_all
    have first : ¬ s.niOffset % 1024 = 0 := by rw [located.1]; exact boundary
    have inblock := (located.2 boundary).2
    simp [first,inblock,dirblksiz,boundary]
  by_cases fresh : s.slotstatus = .none ∧ o % 1024 = 0
  · exact Or.inl ⟨status.trans fresh.1,Or.inl (reset fresh.1 fresh.2)⟩
  obtain ⟨offset,free⟩ := keep fresh
  rcases watched.slot with both | known
  · exact absurd both.symm fresh
  unfold SlotAt at known ⊢
  rw [status,offset,free,size]
  exact known

theorem Watched.alone (watched : Watched d needed o s) (tiles : Tiles d.byte o (r :: l) e)
    (enough : needed ≤ r.space) : ∃ pre, Slot d needed o r.reclen (o + r.reclen) pre [r] [] := by
  obtain ⟨pre,before⟩ := watched.before
  obtain ⟨here,even,room,inside,_⟩ := tiles
  exact ⟨pre,before,⟨here,even,room,inside,rfl⟩,rfl,by simp,by simpa [space] using enough,inside⟩

theorem noteSlot_eq (needed : Nat) (u : Search) (room : dirsiz r.name.length ≤ r.reclen) :
    noteSlot needed r.ino r.reclen r.name.length u =
      if u.slotstatus = .found ∨ r.space = 0 then u
      else if needed ≤ r.space then {u with slotstatus := .found,slotoffset := u.niOffset,slotsize := r.reclen}
      else if u.slotstatus = .none then
        if u.slotfreespace + r.space ≥ needed then
          {u with
            slotoffset := if u.slotoffset = -1 then (u.niOffset : Int) else u.slotoffset
            slotfreespace := u.slotfreespace + r.space
            slotstatus := .compact
            slotsize := u.niOffset + r.reclen - (if u.slotoffset = -1 then (u.niOffset : Int) else u.slotoffset)}
        else
          {u with
            slotoffset := if u.slotoffset = -1 then (u.niOffset : Int) else u.slotoffset
            slotfreespace := u.slotfreespace + r.space}
      else u := by
  have size : (if r.ino ≠ 0 then (r.reclen : Int) - dirsiz r.name.length else (r.reclen : Int)) = r.space := by
    unfold Entry.space
    split_ifs
    · omega
    · rfl
  unfold noteSlot
  simp only [size]
  by_cases found : u.slotstatus = .found
  · simp [found]
  by_cases none : r.space = 0
  · simp [none]
  have positive : (r.space : Int) > 0 := by omega
  simp [found,none,Nat.cast_le]

theorem Gathered.extend {free : Int} {gathered : List Entry} (known : Gathered d a o free pre gathered)
    (tiles : Tiles d.byte o (r :: l) e) (inside : (o + r.reclen) / 1024 = o / 1024) :
    Gathered d a (o + r.reclen) (free + r.space) pre (gathered ++ [r]) := by
  obtain ⟨here,even,room,bound,_⟩ := tiles
  refine ⟨known.before,tiles_append_of known.region ⟨here,even,room,bound,rfl⟩,by simp,known.block.trans inside.symm,?_⟩
  rw [known.sum,space_append]
  simp [space]

theorem SlotAt.keep {u : Search} (known : SlotAt d needed o u) (tiles : Tiles d.byte o (r :: l) e)
    (nothing : u.slotstatus ≠ .none ∨ r.space = 0) :
    ((o + r.reclen) % 1024 = 0 ∧ u.slotstatus = .none) ∨ SlotAt d needed (o + r.reclen) u := by
  have single : Tiles d.byte o [r] (o + r.reclen) := ⟨tiles.1,tiles.2.1,tiles.2.2.1,tiles.2.2.2.1,rfl⟩
  rcases known with ⟨status,known⟩ | ⟨status,a,size,pre,slot,post,offset,length,known⟩
  · by_cases boundary : (o + r.reclen) % 1024 = 0
    · exact Or.inl ⟨boundary,status⟩
    apply Or.inr
    apply Or.inl
    rcases known with fresh | ⟨a,pre,gathered,offset,known⟩
    · exact ⟨status,Or.inl fresh⟩
    have inside := tiles.2.2.2.1
    have none : r.space = 0 := nothing.resolve_left fun other => other status
    have longer := known.extend tiles (by omega)
    rw [none,Nat.cast_zero,add_zero] at longer
    exact ⟨status,Or.inr ⟨a,pre,gathered ++ [r],offset,longer⟩⟩
  · exact Or.inr (Or.inr ⟨status,a,size,pre,slot,post ++ [r],offset,length,known.extend single⟩)

theorem Gathered.slot {free : Int} {gathered : List Entry} (known : Gathered d a o free pre gathered)
    (tiles : Tiles d.byte o (r :: l) e) (enough : (needed : Int) ≤ free + r.space) :
    a ≤ o ∧ Slot d needed a (o + r.reclen - a) (o + r.reclen) pre (gathered ++ [r]) [] := by
  obtain ⟨here,even,room,inside,_⟩ := tiles
  have below := known.region.le
  have block := known.block
  have together : a + (o + r.reclen - a) = o + r.reclen := by omega
  refine ⟨below,known.before,?_,together,by simp,?_,by omega⟩
  · rw [together]
    exact tiles_append_of known.region ⟨here,even,room,inside,rfl⟩
  rw [known.sum] at enough
  rw [space_append]
  simp only [space,map_cons,map_nil,sum_cons,sum_nil] at enough ⊢
  omega

theorem noted_slot (located : Located s o) (watched : Watched d needed o s) (tiles : Tiles d.byte o (r :: l) e) :
    ((o + r.reclen) % 1024 = 0 ∧ (noted needed r s).slotstatus = .none) ∨ SlotAt d needed (o + r.reclen) (noted needed r s) := by
  have known := nextBlock_slot located watched
  have offset := located.nextBlock.offset
  have inside := tiles.2.2.2.1
  rw [noted,noteSlot_eq needed _ tiles.2.2.1]
  generalize nextBlock s = u at known offset
  by_cases idle : u.slotstatus = .found ∨ r.space = 0
  · rw [if_pos idle]
    apply known.keep tiles
    rcases idle with found | nothing
    · exact Or.inl (by rw [found]; simp)
    · exact Or.inr nothing
  rw [if_neg idle]
  by_cases alone : needed ≤ r.space
  · rw [if_pos alone]
    obtain ⟨pre,slot⟩ := watched.alone tiles alone
    exact Or.inr (Or.inr ⟨by simp,o,r.reclen,pre,[r],[],congrArg _ offset,rfl,slot⟩)
  rw [if_neg alone]
  by_cases status : u.slotstatus = .none
  · rw [if_pos status]
    rcases known with ⟨_,⟨fresh,free⟩ | ⟨a,pre,gathered,start,known⟩⟩ | ⟨other,_⟩
    · obtain ⟨pre,before⟩ := watched.before
      rw [if_neg (by omega)]
      by_cases boundary : (o + r.reclen) % 1024 = 0
      · exact Or.inl ⟨boundary,status⟩
      have first : Gathered d o (o + r.reclen) (u.slotfreespace + r.space) pre [r] :=
        ⟨before,⟨tiles.1,tiles.2.1,tiles.2.2.1,inside,rfl⟩,by simp,by omega,by simp [free,space]⟩
      refine Or.inr (Or.inl ⟨status,Or.inr ⟨o,pre,[r],?_,first⟩⟩)
      dsimp only
      rw [if_pos fresh,offset]
    · have away : u.slotoffset ≠ -1 := by omega
      by_cases enough : u.slotfreespace + r.space ≥ needed
      · rw [if_pos enough]
        obtain ⟨below,slot⟩ := known.slot tiles enough
        refine Or.inr (Or.inr ⟨by simp,a,o + r.reclen - a,pre,gathered ++ [r],[],?_,?_,slot⟩)
        · dsimp only
          rw [if_neg away,start]
        dsimp only
        rw [if_neg away,start,offset]
        omega
      · rw [if_neg enough]
        by_cases boundary : (o + r.reclen) % 1024 = 0
        · exact Or.inl ⟨boundary,status⟩
        refine Or.inr (Or.inl ⟨status,Or.inr ⟨a,pre,gathered ++ [r],?_,known.extend tiles (by omega)⟩⟩)
        dsimp only
        rw [if_neg away,start]
    · exact absurd status other
  · rw [if_neg status]
    exact known.keep tiles (Or.inl status)

theorem Watched.next (located : Located s o) (watched : Watched d needed o s)
    (tiles : Tiles d.byte o (r :: l) e) : Watched d needed (o + r.reclen) (passed needed r s) := by
  have single : Tiles d.byte o [r] (o + r.reclen) := ⟨tiles.1,tiles.2.1,tiles.2.2.1,tiles.2.2.2.1,rfl⟩
  refine ⟨?_,?_,noted_slot located watched tiles⟩
  · obtain ⟨pre,before⟩ := watched.before
    exact ⟨pre ++ [r],tiles_append_of before single⟩
  have reading := located.reading needed r
  show ∃ p q, Tiles d.byte 0 p (if r.ino ≠ 0 then (noted needed r s).niOffset + r.reclen else (noted needed r s).enduseful) ∧
    Tiles d.byte (if r.ino ≠ 0 then (noted needed r s).niOffset + r.reclen else (noted needed r s).enduseful) q _ ∧ _
  by_cases free : r.ino = 0
  · obtain ⟨p,q,front,tail,unused⟩ := watched.useful
    have kept : (noted needed r s).enduseful = s.enduseful := by
      rw [noted,(noteSlot_fields _ _ _ _ _).2.2.2.2,(nextBlock_fields s).2.2.1]
    rw [if_neg (by simpa using free),kept]
    refine ⟨p,q ++ [r],front,tiles_append_of tail single,?_⟩
    · intro x member
      rcases mem_append.mp member with first | last
      · exact unused x first
      rw [mem_singleton.mp last]
      exact free
  · obtain ⟨pre,before⟩ := watched.before
    rw [if_pos free,reading.offset]
    exact ⟨pre ++ [r],[],tiles_append_of before single,rfl,by simp⟩

theorem startSearch_watched (d : Dir) (needed : Nat) : Watched d needed 0 (startSearch 0 .none) :=
  ⟨⟨[],rfl⟩,⟨[],[],rfl,rfl,by simp⟩,Or.inl ⟨rfl,rfl⟩⟩

theorem Tiles.tail_split {f : Nat → UInt8} {x y : Nat} {p q m n : List Entry} (first : Tiles f o p x) (tail : Tiles f x q e)
    (second : Tiles f o m y) (rest : Tiles f y n e) (below : x ≤ y) : ∃ c, q = c ++ n ∧ Tiles f x c y := by
  have same := (tiles_append_of first tail).unique (tiles_append_of second rest)
  have upper := first.eq_extent
  have lower := second.eq_extent
  rcases append_eq_append_iff.mp same with ⟨c,longer,both⟩ | ⟨c,longer,_⟩
  · subst longer
    obtain ⟨k,front,region⟩ := tiles_append.mp second
    have here := front.eq_extent
    rw [← upper] at here
    exact ⟨c,both,here ▸ region⟩
  rw [longer] at upper
  simp only [extent,map_append,sum_append] at upper lower
  have here : x = y := by omega
  subst here
  exact ⟨[],tail.unique rest,rfl⟩

/-- What `CREATE` leaves for `direnter`: nothing found, so that a fresh block is
needed, or a slot. What is cut off has no entry in it. -/
theorem nameiCreate_spec (tiled : Tiled d) (name : Name) (rest : Nat → UInt8) :
    (nameiCreate d name rest = .error (.errno eexist) ∧ ∃ r ∈ records d, r.has name) ∨
    ((∀ r ∈ records d, ¬ r.has name) ∧ (nameiCreate d name rest = .ok ⟨d.iSize,0,d.iSize,⟨0,0,name,rest⟩⟩ ∨
    ∃ a size enduseful pre slot post q,
        nameiCreate d name rest = .ok ⟨a,size,roundup enduseful dirblksiz,⟨0,0,name,rest⟩⟩ ∧
        Slot d (dirsiz name.length) a size d.iSize pre slot (post ++ q) ∧ Tiles d.byte (a + size) post enduseful ∧
        ∀ r ∈ q, r.ino = 0)) := by
  have tiles := tiled.tiles
  have short := tiles.length_le
  unfold nameiCreate wholeSearch search
  rw [roundup_whole tiled.1]
  have turn : ∀ o s r l, Located s o → Watched d (dirsiz name.length) o s → Tiles d.byte o (r :: l) d.iSize →
      Watched d (dirsiz name.length) (o + r.reclen) (passed (dirsiz name.length) r s) :=
    fun o s r l located watched tiles => watched.next located tiles
  rcases searchloop_rule (d := d) turn (records d) 0 d.iSize (startSearch 0 .none) tiles
    (startSearch_located rfl .none) (startSearch_watched d _) (by omega) with
      ⟨t,done,_,watched,missed⟩ | ⟨l1,x,l2,t,same,done,found,_⟩
  · refine Or.inr ⟨missed,?_⟩
    rw [done]
    obtain ⟨p,q,front,tail,unused⟩ := watched.useful
    have known : t.slotstatus = .none ∨ SlotAt d (dirsiz name.length) d.iSize t := watched.slot.imp_left And.right
    by_cases status : t.slotstatus = .none
    · simp only [status,roundup_whole tiled.1]
      exact Or.inl rfl
    rcases known.resolve_left status with ⟨none,_⟩ | ⟨_,a,size,pre,slot,post,offset,length,known⟩
    · exact absurd none status
    have total : ((a : Int) + (size : Int)).toNat = a + size := by omega
    simp only [status,if_false,offset,length,total,Int.toNat_natCast,Bool.false_eq_true]
    apply Or.inr
    have upto := tiles_append_of known.before known.region
    by_cases behind : t.enduseful < a + size
    · rw [if_pos behind]
      obtain ⟨c,same,_⟩ := front.tail_split tail upto known.behind behind.le
      refine ⟨a,size,a + size,pre,slot,[],post,rfl,known,rfl,fun r member => unused r ?_⟩
      rw [same]
      exact mem_append_right c member
    · rw [if_neg behind]
      obtain ⟨c,same,region⟩ := upto.tail_split known.behind front tail (by omega)
      exact ⟨a,size,t.enduseful,pre,slot,c,q,rfl,same ▸ known,region,unused⟩
  · exact Or.inl ⟨by rw [done]; rfl,x,by rw [same]; simp,found⟩

end Retrobsd.Directory
