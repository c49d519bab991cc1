import Retrobsd.DirectorySlots

/-! The loop of `direnter` that moves the entries of a slot together, so that their
free space becomes the space of the new entry. -/
namespace Retrobsd.Directory
open List

variable {b : Block} {base fin : Nat} {c : Compaction} {x y : Entry} {done todo l : List Entry}

def trimmed (l : List Entry) : List Entry := (l.filter fun r => r.ino ≠ 0).map fun r => {r with reclen := dirsiz r.name.length}

theorem trimmed_append (l m : List Entry) : trimmed (l ++ m) = trimmed l ++ trimmed m := by
  simp [trimmed]

theorem extent_append (l m : List Entry) : extent (l ++ m) = extent l + extent m := by
  simp [extent]

theorem extent_trimmed (room : ∀ r ∈ l, dirsiz r.name.length ≤ r.reclen) : extent (trimmed l) + space l = extent l := by
  induction l with
  | nil => rfl
  | cons r l ih =>
    have rest := ih fun r' member => room r' (mem_cons_of_mem r member)
    have first := room r mem_cons_self
    simp only [extent,trimmed,space,map_cons,sum_cons,Entry.space,filter_cons] at rest ⊢
    by_cases free : r.ino = 0
    · simp only [free,ne_eq,not_true_eq_false,decide_false,Bool.false_eq_true,if_false] at rest ⊢
      omega
    simp only [free,ne_eq,not_false_eq_true,decide_true,if_true,map_cons,sum_cons] at rest ⊢
    omega

theorem Tiles.room {f : Nat → UInt8} {o e : Nat} (tiles : Tiles f o l e) : ∀ r ∈ l, dirsiz r.name.length ≤ r.reclen := by
  induction l generalizing o with
  | nil => simp
  | cons r l ih =>
    obtain ⟨_,_,room,_,rest⟩ := tiles
    intro r' member
    rcases mem_cons.mp member with same | later
    · rw [same]
      exact room
    · exact ih rest r' later

/-- The state of the loop in the middle of a slot: the records `done` are packed, `x`
lies behind them and `todo` is not read yet. -/
structure Compacting (b : Block) (base fin : Nat) (done : List Entry) (x : Entry) (todo : List Entry)
    (c : Compaction) : Prop where
  packed : Tiles c.dirbuf.byte base (trimmed done) c.ep
  ino : (entryOf c.dirbuf.byte c.ep).ino = x.ino
  name : (entryOf c.dirbuf.byte c.ep).name = x.name
  dsize : c.dsize = dirsiz x.name.length
  free : 0 ≤ c.spacefree
  total : c.spacefree + c.dsize + c.ep = base + c.loc
  unread : Tiles c.dirbuf.byte (base + c.loc) todo fin
  untouched : ∀ k, k < base ∨ base + c.loc ≤ k → c.dirbuf.byte k = b.byte k

theorem Compacting.start (tiles : Tiles b.byte base (x :: todo) fin) : Compacting b base fin [] x todo
      ⟨b,base,dirsiz (dNamlen b base),dReclen b base - dirsiz (dNamlen b base),dReclen b base⟩ := by
  obtain ⟨here,_,room,_,rest⟩ := tiles
  rw [dNamlen_eq,dReclen_eq,here]
  exact ⟨rfl,by rw [here],by rw [here],rfl,by simpa using room,by ring,rest,fun _ _ => rfl⟩

/-- The buffer, the place and the free space when the last entry is trimmed, or given
up if it is not in use. -/
def settled (c : Compaction) : Block × Nat × Int :=
  if dIno c.dirbuf c.ep ≠ 0 then (setReclen c.dirbuf c.ep c.dsize,c.ep + c.dsize,c.spacefree)
  else (c.dirbuf,c.ep,c.spacefree + c.dsize)

theorem compactStep_eq (base : Nat) (c : Compaction) : compactStep base c =
    ⟨(settled c).1.bcopy (base + c.loc) (settled c).2.1 (dirsiz (dNamlen (settled c).1 (base + c.loc))),(settled c).2.1,
      dirsiz (dNamlen (settled c).1 (base + c.loc)),
      (settled c).2.2 + dReclen (settled c).1 (base + c.loc) - dirsiz (dNamlen (settled c).1 (base + c.loc)),
      c.loc + dReclen (settled c).1 (base + c.loc)⟩ := rfl

theorem byte_setReclen {o v k : Nat} (away : k < o + 4 ∨ o + 6 ≤ k) : (setReclen b o v).byte k = b.byte k := by
  rw [setReclen,Block.byte_fill,if_neg (by omega)]

structure Settled (b : Block) (base loc : Nat) (done : List Entry) (u : Block × Nat × Int) : Prop where
  packed : Tiles u.1.byte base (trimmed done) u.2.1
  free : 0 ≤ u.2.2
  total : u.2.2 + u.2.1 = base + loc
  untouched : ∀ k, k < base ∨ base + loc ≤ k → u.1.byte k = b.byte k

theorem Compacting.settled (state : Compacting b base fin done x todo c) (small : fin ≤ 1024) :
    Settled b base c.loc (done ++ [x]) (settled c) := by
  have free := state.free
  have total := state.total
  have size := dirsiz_bounds x.name.length
  have dsize := state.dsize
  have read := state.unread.le
  have below := state.packed.le
  unfold Directory.settled
  by_cases used : x.ino = 0
  · rw [if_neg (by rw [dIno_eq,state.ino]; simpa using used)]
    have nothing : trimmed (done ++ [x]) = trimmed done := by
      rw [trimmed_append]
      simp [trimmed,used]
    refine ⟨?_,by dsimp only; omega,by dsimp only; omega,state.untouched⟩
    rw [nothing]
    exact state.packed
  rw [if_pos (by rw [dIno_eq,state.ino]; exact used)]
  have one : trimmed (done ++ [x]) = trimmed done ++ [{x with reclen := dirsiz x.name.length}] := by
    rw [trimmed_append]
    simp [trimmed,used]
  have entry : entryOf (setReclen c.dirbuf c.ep c.dsize).byte c.ep = {x with reclen := dirsiz x.name.length} := by
    rw [entryOf_setReclen c.dirbuf (by omega) (by omega)]
    dsimp only
    rw [state.ino,state.name,dsize]
  refine ⟨?_,free,by dsimp only; omega,?_⟩
  · rw [one]
    refine tiles_append_of (state.packed.congr fun k _ near => byte_setReclen (by omega)) ?_
    exact ⟨entry,size.2.2,le_refl _,by dsimp only; omega,by rw [dsize]; rfl⟩
  · intro k away
    rw [byte_setReclen (by omega),state.untouched k away]

theorem compactStep_spec (state : Compacting b base fin done x (y :: todo) c) (small : fin ≤ 1024) :
    Compacting b base fin (done ++ [x]) y todo (compactStep base c) := by
  obtain ⟨packed,free,total,untouched⟩ := state.settled small
  rw [compactStep_eq]
  generalize settled c = u at packed free total untouched
  obtain ⟨dirbuf,ep,spacefree⟩ := u
  dsimp only at packed free total untouched ⊢
  have same : ∀ k, base + c.loc ≤ k → dirbuf.byte k = c.dirbuf.byte k := fun k above =>
    (untouched k (.inr above)).trans (state.untouched k (.inr above)).symm
  obtain ⟨here,_,room,_,rest⟩ := state.unread.congr fun k above _ => same k above
  have size := dirsiz_bounds y.name.length
  have upper := rest.le
  rw [dNamlen_eq,dReclen_eq,here]
  have moved : ∀ k, (dirbuf.bcopy (base + c.loc) ep (dirsiz y.name.length)).byte k =
      if ep ≤ k ∧ k < ep + dirsiz y.name.length ∧ k < 1024 then dirbuf.byte (base + c.loc + (k - ep)) else dirbuf.byte k :=
    Block.byte_bcopy dirbuf (by omega) _
  have copied : entryOf (dirbuf.bcopy (base + c.loc) ep (dirsiz y.name.length)).byte ep = y := by
    rw [← here]
    refine entryOf_congr fun k near => ?_
    rw [here] at near ⊢
    rw [moved,if_pos ⟨by omega,by omega,by omega⟩]
    congr 1
    omega
  refine ⟨?_,by rw [copied],by rw [copied],rfl,by dsimp only; omega,by dsimp only; omega,?_,?_⟩
  · refine packed.congr fun k _ near => ?_
    dsimp only
    rw [moved,if_neg (by omega)]
  · dsimp only
    rw [← Nat.add_assoc]
    refine rest.congr fun k above _ => ?_
    rw [moved,if_neg (by omega)]
  · intro k away
    dsimp only at away ⊢
    have bottom := packed.le
    rw [moved,if_neg (by omega),untouched k (by omega)]

theorem compact_spec {count fuel : Nat} (small : base + count ≤ 1024) (state : Compacting b base (base + count) done x todo c)
    (enough : todo.length < fuel) : ∃ c' done' x', compact base count fuel c = .ok c' ∧ done' ++ [x'] = done ++ x :: todo ∧
      Compacting b base (base + count) done' x' [] c' := by
  induction todo generalizing done x c fuel with
  | nil =>
    have ended : base + c.loc = base + count := state.unread
    cases fuel with
    | zero => simp at enough
    | succ fuel => exact ⟨c,done,x,by rw [compact,if_neg (by omega)],rfl,state⟩
  | cons y todo ih =>
    have size := (state.unread.reclen_le mem_cons_self).1
    have upper := state.unread.2.2.2.2.le
    cases fuel with
    | zero => simp at enough
    | succ fuel =>
      obtain ⟨c',done',x',run,same,last⟩ := ih (compactStep_spec state small) (Nat.lt_of_succ_lt_succ enough)
      exact ⟨c',done',x',by rw [compact,if_pos (by omega),run],by simpa using same,last⟩

theorem unsigned_small {n : Int} (positive : 0 ≤ n) (small : n < 2^32) : (unsigned n : Int) = n := by
  unfold unsigned
  omega

theorem placeEntry_eq (e : Direct) (c : Compaction) (free : 0 ≤ c.spacefree) (small : c.spacefree + c.dsize < 2^32)
    (enough : (dirsiz e.dName.length : Int) ≤ (settled c).2.2) :
    placeEntry e c = .ok ((settled c).1.fill (settled c).2.1 (dirsiz e.dName.length)
    {e with dReclen := (settled c).2.2.toNat}.image) := by
  unfold placeEntry
  unfold settled at enough ⊢
  by_cases used : dIno c.dirbuf c.ep = 0
  · have value := unsigned_small (n := c.spacefree + c.dsize) (by omega) small
    simp only [used,ne_eq,not_true_eq_false,if_false,if_true] at enough ⊢
    rw [if_neg (by omega),show unsigned (c.spacefree + c.dsize) = (c.spacefree + c.dsize).toNat by omega]
  have value := unsigned_small (n := c.spacefree) free (by omega)
  simp only [used,ne_eq,not_false_eq_true,if_false,if_true] at enough ⊢
  rw [if_neg (by omega),show unsigned c.spacefree = c.spacefree.toNat by omega]

theorem placeEntry_spec (e : Direct) (state : Compacting b base fin done x [] c) (small : fin ≤ 1024) (ino : e.dIno < 2^32)
    (whole : (fin - base) % 4 = 0) (enough : (dirsiz e.dName.length : Int) ≤ (settled c).2.2) :
    ∃ b', placeEntry e c = .ok b' ∧ Tiles b'.byte base (trimmed (done ++ [x]) ++ [⟨e.dIno,(settled c).2.2.toNat,e.dName⟩]) fin ∧
      ∀ k, k < base ∨ fin ≤ k → b'.byte k = b.byte k := by
  have free := state.free
  have total := state.total
  have ended : base + c.loc = fin := state.unread
  have equal := placeEntry_eq e c free (by omega) enough
  refine ⟨_,equal,?_⟩
  obtain ⟨packed,_,sum,untouched⟩ := state.settled small
  generalize settled c = u at packed sum untouched enough
  obtain ⟨dirbuf,ep,spacefree⟩ := u
  dsimp only at packed sum untouched enough ⊢
  have size := dirsiz_bounds e.dName.length
  have bottom := packed.le
  have even := packed.even
  have inside : ∀ k, k < dirsiz e.dName.length → (dirbuf.fill ep (dirsiz e.dName.length)
      {e with dReclen := spacefree.toNat}.image).byte (ep + k) = {e with dReclen := spacefree.toNat}.image k := by
    intro k near
    rw [Block.byte_fill,if_pos ⟨by omega,by omega,by omega⟩]
    congr 1
    omega
  have entry := entryOf_image {e with dReclen := spacefree.toNat} inside ino (by dsimp only; omega) (by dsimp only; omega)
  constructor
  · refine tiles_append_of (packed.congr fun k _ near => ?_) ⟨entry,?_,?_,?_,?_⟩
    · rw [Block.byte_fill,if_neg (by omega)]
    · dsimp only
      omega
    · dsimp only
      omega
    · dsimp only
      omega
    · show ep + spacefree.toNat = fin
      omega
  · intro k away
    rw [Block.byte_fill,if_neg (by omega),untouched k (by omega)]

theorem compaction_spec {count : Nat} {slot : List Entry} (e : Direct) (tiles : Tiles b.byte base slot (base + count))
    (filled : slot ≠ []) (small : base + count ≤ 1024) (ino : e.dIno < 2^32) (enough : dirsiz e.dName.length ≤ space slot) :
    ∃ c b', compact base count (count + 1) ⟨b,base,dirsiz (dNamlen b base),dReclen b base - dirsiz (dNamlen b base),
    dReclen b base⟩ = .ok c ∧
      placeEntry e c = .ok b' ∧
      Tiles b'.byte base (trimmed slot ++ [⟨e.dIno,space slot,e.dName⟩]) (base + count) ∧
      ∀ k, k < base ∨ base + count ≤ k → b'.byte k = b.byte k := by
  obtain ⟨x,todo,rfl⟩ := exists_cons_of_ne_nil filled
  have short := tiles.length_le
  simp only [length_cons] at short
  have enough : todo.length < count + 1 := by omega
  obtain ⟨c,done',x',run,same,state⟩ := compact_spec small (Compacting.start tiles) enough
  rw [nil_append] at same
  have settled := state.settled small
  have ended : base + c.loc = base + count := state.unread
  have value : (Directory.settled c).2.2 = (space (x :: todo) : Nat) := by
    have place := settled.packed.eq_extent
    have length := tiles.eq_extent
    have sum := extent_trimmed tiles.room
    have total := settled.total
    rw [same] at place
    omega
  have whole := tiles.even
  obtain ⟨b',placed,after,untouched⟩ := placeEntry_spec e state small ino whole (by omega)
  rw [same,value] at after
  exact ⟨c,b',run,placed,after,untouched⟩

end Retrobsd.Directory
