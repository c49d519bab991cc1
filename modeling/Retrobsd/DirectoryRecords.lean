import Retrobsd.Directory

/-! Records as runs of bytes. A sequence of bytes is tiled by records if each one
starts where the last one ends, has room for its name and stays in one block. -/
namespace Retrobsd
open List

namespace Block

theorem byteAt_eq (b : Block) (k : Nat) : b.byteAt k = (b.byte k).toNat := by
  unfold byteAt byte
  split_ifs <;> rfl

theorem byte_bcopy (b : Block) {src dst : Nat} (down : dst ≤ src) (len k : Nat) :
    (b.bcopy src dst len).byte k = if dst ≤ k ∧ k < dst + len ∧ k < 1024 then b.byte (src + (k - dst)) else b.byte k := by
  induction len generalizing k with
  | zero =>
    rw [if_neg (by omega)]
    rfl
  | succ len ih =>
    rw [bcopy,byte_fill]
    by_cases last : k = dst + len
    · subst last
      by_cases inside : dst + len < 1024
      · rw [if_pos ⟨by omega,by omega,inside⟩,if_pos ⟨by omega,by omega,inside⟩,ih (src + len),if_neg (by omega)]
        congr 1
        omega
      · rw [if_neg (by omega),if_neg (by omega),ih,if_neg (by omega)]
    · rw [if_neg (by omega),ih]
      by_cases copied : dst ≤ k ∧ k < dst + len ∧ k < 1024
      · rw [if_pos copied,if_pos (by omega)]
      · rw [if_neg copied,if_neg (by omega)]

end Block

namespace Directory

structure Entry where
  ino : Nat
  reclen : Nat
  name : Name
deriving DecidableEq

def halfOf (f : Nat → UInt8) (o : Nat) : Nat := (f o).toNat + 2^8 * (f (o + 1)).toNat

def quadOf (f : Nat → UInt8) (o : Nat) : Nat :=
    (f o).toNat + 2^8 * (f (o + 1)).toNat + 2^16 * (f (o + 2)).toNat + 2^24 * (f (o + 3)).toNat

def entryOf (f : Nat → UInt8) (o : Nat) : Entry :=
    ⟨quadOf f o,halfOf f (o + 4),(List.range (halfOf f (o + 6))).map fun k => f (o + 8 + k)⟩

theorem dIno_eq (b : Block) (o : Nat) : dIno b o = (entryOf b.byte o).ino := by
  simp only [dIno,Block.quad,Block.byteAt_eq]
  rfl

theorem dReclen_eq (b : Block) (o : Nat) : dReclen b o = (entryOf b.byte o).reclen := by
  simp only [dReclen,Block.half,Block.byteAt_eq]
  rfl

theorem dNamlen_eq (b : Block) (o : Nat) : dNamlen b o = (entryOf b.byte o).name.length := by
  simp only [dNamlen,Block.half,Block.byteAt_eq,entryOf,length_map,length_range]
  rfl

theorem dName_eq (b : Block) (o : Nat) : dName b o = (entryOf b.byte o).name := by
  simp only [dName,dNamlen,Block.half,Block.byteAt_eq]
  rfl

theorem dirsiz_bounds (n : Nat) : 9 + n ≤ dirsiz n ∧ dirsiz n ≤ 12 + n ∧ dirsiz n % 4 = 0 := by
  unfold dirsiz
  omega

theorem entryOf_congr {f g : Nat → UInt8} {o o' : Nat}
    (same : ∀ k, k < dirsiz (entryOf f o).name.length → g (o' + k) = f (o + k)) : entryOf g o' = entryOf f o := by
  have room := (dirsiz_bounds (entryOf f o).name.length).1
  have count : (entryOf f o).name.length = halfOf f (o + 6) := by simp [entryOf]
  have length : halfOf g (o' + 6) = halfOf f (o + 6) := by
    simp only [halfOf,Nat.add_assoc]
    rw [same 6 (by omega),same (6 + 1) (by omega)]
  have reclen : halfOf g (o' + 4) = halfOf f (o + 4) := by
    simp only [halfOf,Nat.add_assoc]
    rw [same 4 (by omega),same (4 + 1) (by omega)]
  have ino : quadOf g o' = quadOf f o := by
    have zero := same 0 (by omega)
    simp only [Nat.add_zero] at zero
    simp only [quadOf]
    rw [zero,same 1 (by omega),same 2 (by omega),same 3 (by omega)]
  have name : (List.range (halfOf g (o' + 6))).map (fun k => g (o' + 8 + k)) = (List.range (halfOf f (o + 6))).map
    (fun k => f (o + 8 + k)) := by
    rw [length]
    refine map_congr_left fun k member => ?_
    have bound : k < halfOf f (o + 6) := mem_range.mp member
    rw [Nat.add_assoc,Nat.add_assoc]
    exact same (8 + k) (by omega)
  simp only [entryOf,ino,reclen,name]

theorem toNat_ofNat_div (v k : Nat) : (UInt8.ofNat (v / 256^k)).toNat = v / 256^k % 256 := by simp

theorem entryOf_setReclen (b : Block) {o v : Nat} (inside : o + 6 ≤ 1024) (small : v < 2^16) :
    entryOf (setReclen b o v).byte o = {entryOf b.byte o with reclen := v} := by
  have outside : ∀ k, k < 4 ∨ 6 ≤ k → (setReclen b o v).byte (o + k) = b.byte (o + k) := by
    intro k away
    rw [setReclen,Block.byte_fill,if_neg (by omega)]
  have low : (setReclen b o v).byte (o + 4) = UInt8.ofNat (v / 256^0) := by
    rw [setReclen,Block.byte_fill,if_pos (by omega),show o + 4 - (o + 4) = 0 by omega]
  have high : (setReclen b o v).byte (o + 4 + 1) = UInt8.ofNat (v / 256^1) := by
    rw [setReclen,Block.byte_fill,if_pos (by omega),show o + 4 + 1 - (o + 4) = 1 by omega]
  have reclen : halfOf (setReclen b o v).byte (o + 4) = v := by
    rw [halfOf,low,high,toNat_ofNat_div,toNat_ofNat_div]
    norm_num
    omega
  have length : halfOf (setReclen b o v).byte (o + 6) = halfOf b.byte (o + 6) := by
    simp only [halfOf,Nat.add_assoc]
    rw [outside 6 (by omega),outside (6 + 1) (by omega)]
  have ino : quadOf (setReclen b o v).byte o = quadOf b.byte o := by
    have zero := outside 0 (by omega)
    simp only [Nat.add_zero] at zero
    simp only [quadOf]
    rw [zero,outside 1 (by omega),outside 2 (by omega),outside 3 (by omega)]
  simp only [entryOf,reclen,ino,length]
  congr 1
  refine map_congr_left fun k _ => ?_
  rw [Nat.add_assoc]
  exact outside (8 + k) (by omega)

theorem entryOf_image {f : Nat → UInt8} {o : Nat} (e : Direct)
    (same : ∀ k, k < dirsiz e.dName.length → f (o + k) = e.image k) (ino : e.dIno < 2^32) (reclen : e.dReclen < 2^16)
    (short : e.dName.length < 2^16) : entryOf f o = ⟨e.dIno,e.dReclen,e.dName⟩ := by
  have room := (dirsiz_bounds e.dName.length).1
  have length : halfOf f (o + 6) = e.dName.length := by
    simp only [halfOf,Nat.add_assoc]
    rw [same 6 (by omega),same (6 + 1) (by omega)]
    simp [Direct.image]
    omega
  have size : halfOf f (o + 4) = e.dReclen := by
    simp only [halfOf,Nat.add_assoc]
    rw [same 4 (by omega),same (4 + 1) (by omega)]
    simp [Direct.image]
    omega
  have number : quadOf f o = e.dIno := by
    have zero := same 0 (by omega)
    simp only [Nat.add_zero] at zero
    simp only [quadOf]
    rw [zero,same 1 (by omega),same 2 (by omega),same 3 (by omega)]
    simp [Direct.image]
    omega
  simp only [entryOf,number,size,length]
  congr 1
  refine ext_getElem (by simp) fun k first second => ?_
  have bound : k < e.dName.length := second
  simp only [getElem_map,getElem_range]
  rw [Nat.add_assoc,same (8 + k) (by omega),Direct.image]
  have away : ¬ 8 + k < 4 ∧ ¬ 8 + k < 6 ∧ ¬ 8 + k < 8 := by omega
  simp [away,bound]

def Tiles (f : Nat → UInt8) : Nat → List Entry → Nat → Prop
  | o,[],e => o = e
  | o,r :: l,e => entryOf f o = r ∧ r.reclen % 4 = 0 ∧ dirsiz r.name.length ≤ r.reclen ∧ o % 1024 + r.reclen ≤ 1024 ∧
    Tiles f (o + r.reclen) l e

instance Tiles.decidable (f : Nat → UInt8) : ∀ o l e, Decidable (Tiles f o l e)
  | o,[],e => inferInstanceAs (Decidable (o = e))
  | o,r :: l,e =>
    have := Tiles.decidable f (o + r.reclen) l e
    inferInstanceAs (Decidable (_ ∧ _ ∧ _ ∧ _ ∧ Tiles f (o + r.reclen) l e))

section
variable {f g : Nat → UInt8} {o e : Nat} {l m : List Entry}

theorem tiles_append : Tiles f o (l ++ m) e ↔ ∃ k, Tiles f o l k ∧ Tiles f k m e := by
  induction l generalizing o with
  | nil => simp [Tiles]
  | cons r l ih =>
    simp only [cons_append,Tiles,ih]
    constructor
    · rintro ⟨here,even,room,inside,k,first,second⟩
      exact ⟨k,⟨here,even,room,inside,first⟩,second⟩
    rintro ⟨k,⟨here,even,room,inside,first⟩,second⟩
    exact ⟨here,even,room,inside,k,first,second⟩

theorem tiles_append_of {k : Nat} (first : Tiles f o l k) (second : Tiles f k m e) :
    Tiles f o (l ++ m) e := tiles_append.mpr ⟨k,first,second⟩

def extent (l : List Entry) : Nat := (l.map Entry.reclen).sum

theorem Tiles.eq_extent (tiles : Tiles f o l e) : e = o + extent l := by
  induction l generalizing o with
  | nil => simpa [extent,Tiles] using tiles.symm
  | cons r l ih =>
    have rest := ih tiles.2.2.2.2
    simp only [extent,map_cons,sum_cons] at rest ⊢
    omega

theorem Tiles.le (tiles : Tiles f o l e) : o ≤ e := by
  have extent := tiles.eq_extent
  omega

theorem Tiles.even (tiles : Tiles f o l e) : (e - o) % 4 = 0 := by
  induction l generalizing o with
  | nil =>
    have same : o = e := tiles
    omega
  | cons r l ih =>
    obtain ⟨_,even,_,_,rest⟩ := tiles
    have later := ih rest
    have bound := rest.le
    omega

theorem Tiles.shift {c : Nat} (whole : c % 1024 = 0) (tiles : Tiles f o l e)
    (same : ∀ k, o ≤ k → k < e → g (k + c) = f k) : Tiles g (o + c) l (e + c) := by
  induction l generalizing o with
  | nil =>
    have equal : o = e := tiles
    exact congrArg (· + c) equal
  | cons r l ih =>
    obtain ⟨here,even,room,inside,rest⟩ := tiles
    have bound := rest.le
    have record : entryOf g (o + c) = r := by
      rw [← here]
      refine entryOf_congr fun k near => ?_
      rw [here] at near
      rw [show o + c + k = o + k + c by omega]
      exact same (o + k) (by omega) (by omega)
    have next := ih rest fun k above below => same k (by omega) below
    rw [show o + r.reclen + c = o + c + r.reclen by omega] at next
    exact ⟨record,even,room,by omega,next⟩

theorem Tiles.congr (tiles : Tiles f o l e) (same : ∀ k, o ≤ k → k < e → g k = f k) :
    Tiles g o l e := tiles.shift (c := 0) rfl same

theorem Tiles.unique (first : Tiles f o l e) (second : Tiles f o m e) : l = m := by
  induction l generalizing o m with
  | nil =>
    cases m with
    | nil => rfl
    | cons r m =>
      obtain ⟨_,_,room,_,rest⟩ := second
      have bound := rest.le
      have same : o = e := first
      have positive := (dirsiz_bounds r.name.length).1
      omega
  | cons r l ih =>
    obtain ⟨here,_,room,_,rest⟩ := first
    cases m with
    | nil =>
      have bound := rest.le
      have same : o = e := second
      have positive := (dirsiz_bounds r.name.length).1
      omega
    | cons r' m =>
      obtain ⟨here',_,_,_,rest'⟩ := second
      have same : r = r' := here.symm.trans here'
      subst same
      rw [ih rest rest']

theorem Tiles.reclen_le (tiles : Tiles f o l e) {r : Entry} (member : r ∈ l) :
    12 ≤ r.reclen ∧ r.reclen ≤ 1024 ∧ r.name.length < 1024 := by
  induction l generalizing o with
  | nil => cases member
  | cons r' l ih =>
    obtain ⟨_,even,room,inside,rest⟩ := tiles
    rcases mem_cons.mp member with same | later
    · subst same
      have bounds := dirsiz_bounds r.name.length
      omega
    · exact ih rest later

theorem Tiles.length_le (tiles : Tiles f o l e) : 12 * l.length ≤ e - o := by
  induction l generalizing o with
  | nil => simp
  | cons r l ih =>
    have size := (tiles.reclen_le (mem_cons_self)).1
    have rest := ih tiles.2.2.2.2
    have bound := tiles.2.2.2.2.le
    simp only [length_cons]
    omega

end

def entriesFrom (f : Nat → UInt8) (e : Nat) : Nat → Nat → List Entry
  | 0,_ => []
  | fuel + 1,o => if o < e then entryOf f o :: entriesFrom f e fuel (o + (entryOf f o).reclen) else []

theorem Tiles.entriesFrom_eq {f : Nat → UInt8} {e fuel : Nat} {l : List Entry} :
    ∀ {o : Nat}, Tiles f o l e → l.length < fuel → entriesFrom f e fuel o = l := by
  induction l generalizing fuel with
  | nil =>
    intro o tiles enough
    have same : o = e := tiles
    cases fuel with
    | zero => rfl
    | succ fuel => simp [entriesFrom,same]
  | cons r l ih =>
    intro o tiles enough
    obtain ⟨here,_,room,_,rest⟩ := tiles
    have positive := (dirsiz_bounds r.name.length).1
    have bound := rest.le
    cases fuel with
    | zero => simp at enough
    | succ fuel =>
      rw [entriesFrom,if_pos (by omega),here,ih rest (by simpa using enough)]

end Directory
end Retrobsd
