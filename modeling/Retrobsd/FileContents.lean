import Retrobsd.FileTruncation

/-! A regular file as an array of bytes that is zero where nothing was written, and
that every sequence of writes, reads and truncations refines it. -/
namespace Retrobsd.FileData
open List

open FreeList (Volume)
open Lib.Radix Layout Lib.Run

/-- What a file is for: its length, and bytes that are 0 behind it. -/
@[ext] structure Contents where
  length : Nat
  byte : Nat → UInt8

namespace Contents

def write (c : Contents) (offset : Nat) (data : List UInt8) : Contents :=
  if data = [] then c
  else ⟨max c.length (offset + data.length),fun k => if offset ≤ k ∧
    k < offset + data.length then data.getD (k - offset) 0 else c.byte k⟩

def read (c : Contents) (offset count : Nat) : List UInt8 :=
    (List.range (min count (c.length - offset))).map fun k => c.byte (offset + k)

def truncate (c : Contents) (length : Nat) : Contents := ⟨length,fun k => if k < length then c.byte k else 0⟩

end Contents

def byteAt (f : File) (k : Nat) : UInt8 := (blockAt f (k / 1024)).byte (k % 1024)

structure Represents (f : File) (c : Contents) : Prop where
  size : f.ip.iSize = c.length
  bytes : ∀ k < 2^31, byteAt f k = c.byte k
  clear : ∀ k, c.length ≤ k → c.byte k = 0
  bound : c.length < 2^31

variable {f : File} {c : Contents} {others : Multiset Nat} {l : List Nat}

theorem uiomove_spec (n : Nat) (iov : List (List UInt8)) :
    (uiomove n iov).1 = iov.flatten.take n ∧ (uiomove n iov).2.flatten = iov.flatten.drop n := by
  induction iov generalizing n with
  | nil => simp [uiomove]
  | cons base iov ih =>
    rw [uiomove,flatten_cons]
    split_ifs with none empty long exact
    · simp [none]
    · rw [length_eq_zero_iff.mp empty,nil_append]
      exact ih n
    · rw [take_append_of_le_length long.le,drop_append_of_le_length long.le]
      exact ⟨rfl,rfl⟩
    · have same : n = base.length := by omega
      subst same
      simp
    · obtain ⟨bytes,left⟩ := ih (n - base.length)
      have whole : base.take n = base := take_of_length_le (by omega)
      have gone : base.drop n = [] := drop_of_length_le (by omega)
      dsimp only
      rw [bytes,left,take_append,drop_append,whole,gone]
      exact ⟨rfl,rfl⟩

theorem block_lt {k : Nat} (small : k < 2^31) : k / 1024 < maxBlocks := by
  unfold maxBlocks
  omega

variable {offset : Nat}

theorem write_chunk (sound : Sound f others l) {n : Nat} (data : Nat → UInt8) (positive : 0 < n)
    (inside : offset % 1024 + n ≤ 1024) (small : offset + n ≤ 2^31) :
    (∃ v' m', bmap f (offset / 1024) true (n ≠ 1024) = .error (.enospc v') ∧ Held v' m' []) ∨
    ∃ f1 b l', bmap f (offset / 1024) true (n ≠ 1024) = .ok (f1,some b) ∧
      Sound (storeBlock f1 b ((f1.volume.disk b).fill (offset % 1024) n data)) others l' ∧
      f1.ip.iNumber = f.ip.iNumber ∧ f1.ip.iSize = f.ip.iSize ∧ f1.ip.append = f.ip.append ∧
      ∀ k < 2^31, byteAt (storeBlock f1 b ((f1.volume.disk b).fill (offset % 1024) n data)) k =
        if offset ≤ k ∧ k < offset + n then data (k - offset) else byteAt f k := by
  rcases bmap_write sound (@block_lt offset (by omega)) (n ≠ 1024) with failed | ⟨f1,b,l',done,sound1,mapped⟩
  · exact Or.inl failed
  obtain ⟨stored,blocks⟩ := storeBlock_spec sound1 (@block_lt offset (by omega)) mapped.leaf mapped.used
    ((f1.volume.disk b).fill (offset % 1024) n data)
  refine Or.inr ⟨f1,b,l',done,stored,mapped.number,mapped.size,mapped.append,fun k bound => ?_⟩
  have current : blockAt f1 (offset / 1024) = f1.volume.disk b := by
    unfold blockAt blockIn contents
    rw [mapped.leaf,if_neg mapped.used]
  unfold byteAt
  rw [blocks _ (block_lt bound)]
  by_cases here : k / 1024 = offset / 1024
  · rw [if_pos here,Block.byte_fill]
    by_cases written : offset ≤ k ∧ k < offset + n
    · rw [if_pos written,if_pos ⟨by omega,by omega,by omega⟩]
      congr 1
      omega
    have part : decide (n ≠ 1024) = true := by
      simp only [decide_eq_true_eq]
      omega
    rw [if_neg written,if_neg (by omega),← current,mapped.here part,here]
  · rw [if_neg here,if_neg (by omega),mapped.others _ here]

theorem Contents.write_byte (c : Contents) (offset : Nat) (data : List UInt8) (k : Nat) :
    (c.write offset data).byte k = if offset ≤ k ∧ k < offset + data.length then data.getD (k - offset) 0 else c.byte k := by
  unfold write
  split_ifs with empty inside
  · rw [empty,length_nil] at inside
    omega
  · rfl
  all_goals dsimp only
  · rw [if_pos (by assumption)]
  · rw [if_neg (by assumption)]

theorem Contents.write_length (c : Contents) (offset : Nat) {data : List UInt8} (some : data ≠ []) :
    (c.write offset data).length = max c.length (offset + data.length) := by
  rw [write,if_neg some]

theorem Contents.write_write (c : Contents) (offset n : Nat) (data : List UInt8) (positive : 0 < n) (inner : n < data.length) :
    (c.write offset (data.take n)).write (offset + n) (data.drop n) = c.write offset data := by
  have first : data.take n ≠ [] := by
    rw [Ne,take_eq_nil_iff]
    rintro (zero | empty)
    · omega
    rw [empty] at inner
    simp at inner
  have second : data.drop n ≠ [] := by
    rw [Ne,drop_eq_nil_iff]
    omega
  have whole : data ≠ [] := by
    rintro rfl
    simp at inner
  have size : (data.take n).length = n := length_take_of_le inner.le
  have rest : (data.drop n).length = data.length - n := length_drop
  have lengths : ((c.write offset (data.take n)).write (offset + n) (data.drop n)).length = (c.write offset data).length := by
    rw [write_length _ _ second,write_length _ _ first,write_length _ _ whole,size,rest]
    omega
  have bytes : ((c.write offset (data.take n)).write (offset + n) (data.drop n)).byte = (c.write offset data).byte := by
    funext k
    rw [write_byte,write_byte,write_byte,size,rest]
    by_cases later : offset + n ≤ k ∧ k < offset + n + (data.length - n)
    · rw [if_pos later,if_pos (by omega)]
      simp only [getD_eq_getElem?_getD,List.getElem?_drop]
      congr 2
      omega
    rw [if_neg later]
    by_cases early : offset ≤ k ∧ k < offset + n
    · rw [if_pos early,if_pos (by omega)]
      simp only [getD_eq_getElem?_getD,List.getElem?_take]
      rw [if_pos (by omega)]
    · rw [if_neg early,if_neg (by omega)]
  exact Contents.ext lengths bytes

theorem extendTo_volume (f : File) (upto : Nat) : (extendTo f upto).volume = f.volume ∧ (extendTo f upto).ip.iAddr = f.ip.iAddr ∧
    (extendTo f upto).ip.iNumber = f.ip.iNumber ∧ (extendTo f upto).ip.append = f.ip.append ∧
    (extendTo f upto).ip.iSize = max f.ip.iSize upto := by
  unfold extendTo
  split_ifs with longer
  · exact ⟨rfl,rfl,rfl,rfl,by dsimp only; omega⟩
  · exact ⟨rfl,rfl,rfl,rfl,by omega⟩

theorem Represents.change {f' : File} (represents : Represents f c) {n : Nat} {data : List UInt8} (length : data.length = n)
    (positive : 0 < n) (small : offset + n < 2^31) (size : f'.ip.iSize = max f.ip.iSize (offset + n))
    (bytes : ∀ k < 2^31, byteAt f' k = if offset ≤ k ∧ k < offset + n then data.getD (k - offset) 0 else byteAt f k) :
    Represents f' (c.write offset data) := by
  have some : data ≠ [] := by
    rintro rfl
    simp only [length_nil] at length
    omega
  have bound := represents.bound
  refine ⟨?_,fun k near => ?_,fun k behind => ?_,?_⟩
  · rw [size,represents.size,Contents.write_length _ _ some,length]
  · rw [bytes k near,Contents.write_byte,length,represents.bytes k near]
  · rw [Contents.write_length _ _ some,length] at behind
    rw [Contents.write_byte,length,if_neg (by omega)]
    exact represents.clear k (by omega)
  · rw [Contents.write_length _ _ some,length]
    omega

def Becomes (others : Multiset Nat) (f : File) (c : Contents) (result : Except Fault File) : Prop :=
  (∃ v' m', result = .error (.enospc v') ∧ Held v' m' []) ∨
  ∃ f' l', result = .ok f' ∧ Sound f' others l' ∧ Represents f' c ∧ f'.ip.append = f.ip.append

def written (f : File) (b offset n : Nat) (iov : List (List UInt8)) : File := storeBlock (extendTo f (offset + n)) b
    (((extendTo f (offset + n)).volume.disk b).fill (offset % 1024) n fun k => (uiomove n iov).1.getD k 0)

theorem writeLoop_succ {fuel : Nat} {f1 : File} {b resid n : Nat} {iov : List (List UInt8)}
    (size : min (1024 - offset % 1024) resid = n) (done : bmap f (offset / 1024) true (n ≠ 1024) = .ok (f1,some b)) :
    writeLoop (fuel + 1) f offset iov resid =
      if resid - n ≠ 0 ∧ n ≠ 0 then writeLoop fuel (written f1 b offset n iov) (offset + n) (uiomove n iov).2 (resid - n)
      else .ok (written f1 b offset n iov) := by
  rw [writeLoop,size]
  dsimp only
  rw [done]
  rfl

theorem writeLoop_spec (fuel : Nat) : ∀ {f : File} {c : Contents} {l : List Nat} {offset : Nat} {iov : List (List UInt8)},
    Sound f others l → Represents f c → 0 < iov.flatten.length → iov.flatten.length ≤ fuel → offset + iov.flatten.length < 2^31 →
    Becomes others f (c.write offset iov.flatten) (writeLoop fuel f offset iov iov.flatten.length) := by
  induction fuel with
  | zero =>
    intro f c l offset iov _ _ positive enough
    omega
  | succ fuel ih =>
    intro f c l offset iov sound represents positive enough small
    generalize size : min (1024 - offset % 1024) iov.flatten.length = n
    obtain ⟨moved,left⟩ := uiomove_spec n iov
    have nonempty : 0 < n := by omega
    rcases @write_chunk f others l offset sound n (fun k => (uiomove n iov).1.getD k 0) nonempty (by omega) (by omega) with
      ⟨v',m',failed,full⟩ | ⟨f1,b,l1,done,stored,number,sizes,append,bytes⟩
    · refine Or.inl ⟨v',m',?_,full⟩
      rw [writeLoop,size]
      dsimp only
      rw [failed]
      rfl
    rw [writeLoop_succ size done]
    obtain ⟨volume,addr,_,append',longer⟩ := extendTo_volume f1 (offset + n)
    have same : (written f1 b offset n iov).volume =
        (storeBlock f1 b ((f1.volume.disk b).fill (offset % 1024) n fun k => (uiomove n iov).1.getD k 0)).volume ∧
        (written f1 b offset n iov).ip = (extendTo f1 (offset + n)).ip := by
      rw [written,storeBlock,volume]
      exact ⟨rfl,rfl⟩
    generalize written f1 b offset n iov = f2 at same
    have sound2 : Sound f2 others l1 := by
      unfold Sound
      rw [same.1,same.2,addr]
      exact stored
    have bytes2 : ∀ k < 2^31, byteAt f2 k =
        if offset ≤ k ∧ k < offset + n then (iov.flatten.take n).getD (k - offset) 0 else byteAt f k := by
      intro k near
      rw [← moved,← bytes k near]
      unfold byteAt blockAt
      rw [same.1,same.2,addr]
      rfl
    have size2 : f2.ip.iSize = max f.ip.iSize (offset + n) := by rw [same.2,longer,sizes]
    have append2 : f2.ip.append = f.ip.append := by rw [same.2,append',append]
    have represents2 := represents.change (length_take_of_le (by omega)) nonempty (by omega) size2 bytes2
    by_cases more : iov.flatten.length - n ≠ 0 ∧ n ≠ 0
    · rw [if_pos more]
      have rest : (uiomove n iov).2.flatten.length = iov.flatten.length - n := by rw [left,length_drop]
      have next := @ih f2 _ l1 (offset + n) (uiomove n iov).2 sound2 represents2 (by omega) (by omega) (by omega)
      rw [rest,left,Contents.write_write c offset n iov.flatten nonempty (by omega)] at next
      rcases next with failed | ⟨f',l',ok,kept,final,flag⟩
      · exact Or.inl failed
      · exact Or.inr ⟨f',l',ok,kept,final,flag.trans append2⟩
    · rw [if_neg more]
      have whole : iov.flatten.take n = iov.flatten := take_of_length_le (by omega)
      rw [whole] at represents2
      exact Or.inr ⟨f2,l1,rfl,sound2,represents2,append2⟩

theorem readLoop_spec (represents : Represents f c) (fuel : Nat) : ∀ {offset resid : Nat}, 0 < resid → resid ≤ fuel →
    readLoop f fuel offset resid = .ok (c.read offset resid) := by
  have size := represents.size
  have bound := represents.bound
  induction fuel with
  | zero =>
    intro offset resid positive enough
    omega
  | succ fuel ih =>
    intro offset resid positive enough
    rw [readLoop]
    by_cases ended : f.ip.iSize ≤ offset
    · rw [if_pos ended,Contents.read,show min resid (c.length - offset) = 0 by omega]
      rfl
    rw [if_neg ended]
    dsimp only
    generalize count : min (min (1024 - offset % 1024) resid) (f.ip.iSize - offset) = n
    obtain ⟨nb,mapped,block⟩ := @bmap_read (offset / 1024) f (block_lt (by omega)) false
    have bytes : (List.range n).map (fun k => (blockAt f (offset / 1024)).byte (offset % 1024 + k)) =
        (List.range n).map fun k => c.byte (offset + k) := by
      refine map_congr_left fun k member => ?_
      have near := mem_range.mp member
      rw [← represents.bytes (offset + k) (by omega),byteAt,show (offset + k) / 1024 = offset / 1024 by omega,
        show (offset + k) % 1024 = offset % 1024 + k by omega]
    rw [mapped]
    show (if resid - n ≠ 0 ∧ n ≠ 0 then _ else _) = _
    dsimp only
    rw [block,bytes]
    by_cases more : resid - n ≠ 0 ∧ n ≠ 0
    · rw [if_pos more,ih (by omega) (by omega)]
      show Except.ok _ = _
      congr 1
      unfold Contents.read
      rw [show min resid (c.length - offset) = n + min (resid - n) (c.length - (offset + n)) by omega,range_add,
        map_append,map_map]
      congr 1
      refine map_congr_left fun k _ => ?_
      rw [Function.comp_apply,Nat.add_assoc]
    · rw [if_neg more,Contents.read,show min resid (c.length - offset) = n by omega]
      rfl

theorem read_spec (represents : Represents f c) (offset resid : Nat) :
    FileData.read f offset resid = .ok (c.read offset resid) := by
  unfold FileData.read
  split_ifs with nothing
  · rw [nothing,Contents.read,Nat.zero_min]
    rfl
  · exact readLoop_spec represents resid (by omega) le_rfl

theorem truncate_byte (c : Contents) (length k : Nat) : (c.truncate length).byte k = if k < length then c.byte k else 0 := rfl

theorem zeroTail_spec (sound : Sound f others l) {length : Nat} (small : length < 2^31) :
    (∃ v' m', zeroTail f length = .error (.enospc v') ∧ Held v' m' []) ∨
    ∃ f' l', zeroTail f length = .ok f' ∧ Sound f' others l' ∧ f'.ip.append = f.ip.append ∧
      ∀ k < 2^31, byteAt f' k = if k / 1024 = length / 1024 ∧ length ≤ k ∧ length % 1024 ≠ 0 then 0 else byteAt f k := by
  unfold zeroTail
  by_cases whole : length % 1024 = 0
  · refine Or.inr ⟨f,l,by simp [whole],sound,rfl,fun k _ => ?_⟩
    rw [if_neg (by omega)]
  rcases bmap_write sound (@block_lt length small) true with ⟨v',m',failed,full⟩ | ⟨f1,b,l',done,sound1,mapped⟩
  · exact Or.inl ⟨v',m',by simp only [whole,ne_eq,not_false_eq_true,if_true,failed]; rfl,full⟩
  obtain ⟨stored,blocks⟩ := storeBlock_spec sound1 (@block_lt length small) mapped.leaf mapped.used
    ((f1.volume.disk b).fill (length % 1024) (1024 - length % 1024) fun _ => 0)
  refine Or.inr ⟨_,l',by simp only [whole,ne_eq,not_false_eq_true,if_true,done]; rfl,stored,mapped.append,fun k near => ?_⟩
  have current : blockAt f1 (length / 1024) = f1.volume.disk b := by
    unfold blockAt blockIn contents
    rw [mapped.leaf,if_neg mapped.used]
  unfold byteAt
  rw [blocks _ (block_lt near)]
  by_cases here : k / 1024 = length / 1024
  · rw [if_pos here,Block.byte_fill]
    by_cases behind : length ≤ k
    · rw [if_pos ⟨by omega,by omega,by omega⟩,if_pos ⟨here,behind,whole⟩]
    · rw [if_neg (by omega),if_neg (by omega),← current,mapped.here rfl,here]
  · rw [if_neg here,if_neg fun both => here both.1,mapped.others _ here]

theorem shrink_spec (sound : Sound f others l) (represents : Represents f c) {length : Nat} (shorter : length < f.ip.iSize) :
    Becomes others f (c.truncate length) (shrink f length) := by
  have bound := represents.bound
  have size := represents.size
  unfold shrink
  rcases @zeroTail_spec f others l sound length (by omega) with ⟨v',m',failed,full⟩ | ⟨f1,l1,done,sound1,append1,bytes1⟩
  · exact Or.inl ⟨v',m',by rw [failed]; rfl,full⟩
  have small : (((length + 1024 - 1) / 1024 : Nat) : Int) - 1 < maxBlocks := by
    unfold maxBlocks
    omega
  obtain ⟨v',l',cut,sound',_,_,_,blocks⟩ := freeBlocks_spec sound1 small length
  generalize last : (((length + 1024 - 1) / 1024 : Nat) : Int) - 1 = lastblock at cut sound' blocks
  refine Or.inr ⟨⟨v',{f1.ip with iSize := length,iAddr := keptAddr f1.ip lastblock}⟩,l',?_,sound',?_,append1⟩
  · rw [done]
    show (freeBlocks f1.ip lastblock f1.volume >>= _) = _
    rw [cut]
    rfl
  refine ⟨rfl,fun k near => ?_,fun k behind => ?_,by show length < _; omega⟩
  · have result : byteAt ⟨v',{f1.ip with iSize := length,iAddr := keptAddr f1.ip lastblock}⟩ k =
        if ((k / 1024 : Nat) : Int) ≤ lastblock then byteAt f1 k else 0 := by
      unfold byteAt
      rw [blocks _ (block_lt near)]
      split_ifs
      · rfl
      · simp [Block.byte,Block.zero]
    rw [result,bytes1 k near,truncate_byte,represents.bytes k near]
    by_cases inside : k < length
    · rw [if_pos (by omega),if_neg (by omega),if_pos inside]
    rw [if_neg inside]
    by_cases kept : ((k / 1024 : Nat) : Int) ≤ lastblock
    · rw [if_pos kept,if_pos (by omega)]
    · rw [if_neg kept]
  · rw [truncate_byte]
    exact if_neg (by change length ≤ k at behind; omega)

theorem itrunc_spec (sound : Sound f others l) (represents : Represents f c) {length : Nat} (small : length < 2^31) :
    Becomes others f (c.truncate length) (itrunc f length) := by
  have size := represents.size
  unfold itrunc
  by_cases same : f.ip.iSize = length
  · rw [if_pos same]
    refine Or.inr ⟨f,l,rfl,sound,⟨same,fun k near => ?_,fun k behind => ?_,small⟩,rfl⟩
    · rw [represents.bytes k near,truncate_byte]
      split_ifs with inside
      · rfl
      · exact represents.clear k (by omega)
    · rw [truncate_byte]
      exact if_neg (by change length ≤ k at behind; omega)
  rw [if_neg same]
  by_cases longer : f.ip.iSize < length
  · rw [if_pos longer]
    rcases bmap_write sound (@block_lt (length - 1) (by omega)) true with ⟨v',m',failed,full⟩ | ⟨f1,b,l',done,sound1,mapped⟩
    · exact Or.inl ⟨v',m',by rw [failed]; rfl,full⟩
    refine Or.inr ⟨{f1 with ip := {f1.ip with iSize := length}},l',by rw [done]; rfl,sound1,
      ⟨rfl,fun k near => ?_,fun k behind => ?_,small⟩,
      mapped.append⟩
    · have kept : byteAt {f1 with ip := {f1.ip with iSize := length}} k = byteAt f k := by
        unfold byteAt
        by_cases here : k / 1024 = (length - 1) / 1024
        · rw [here,← mapped.here rfl]
          rfl
        rw [← mapped.others _ here]
        rfl
      rw [kept,represents.bytes k near,truncate_byte]
      split_ifs with inside
      · rfl
      · exact represents.clear k (by omega)
    · rw [truncate_byte]
      exact if_neg (by change length ≤ k at behind; omega)
  · rw [if_neg longer]
    exact shrink_spec sound represents (by omega)

inductive Op where
  | write (append : Bool) (offset : Nat) (iov : List (List UInt8))
  | read (offset resid : Nat)
  | itrunc (length : Nat)

structure Tracked where
  file : File
  contents : Contents

def startOf (s : Tracked) (append : Bool) (offset : Nat) : Nat := if append then s.contents.length else offset

def step (rlim : Nat) (s : Tracked) : Op → Except Fault Tracked
  | .write append offset iov => match FileData.write rlim s.file append offset iov with
    | .ok f => .ok ⟨f,s.contents.write (startOf s append offset) iov.flatten⟩
    | .error .efbig => .ok s
    | .error .eperm => .ok s
    | .error e => .error e
  | .read offset resid => do
    let _ ← FileData.read s.file offset resid
    return s
  | .itrunc length => do
    let f ← itrunc s.file length
    return ⟨f,s.contents.truncate length⟩

def Legal (s : Tracked) : Op → Prop
  | .write append offset iov => startOf s append offset + iov.flatten.length < 2^31
  | .read offset resid => offset + resid < 2^31
  | .itrunc length => length < 2^31

/-- The size is the length of the contents, a read returns what they have, and a write
is refused only because of the limit or because the file may only be appended to. -/
def Agrees (rlim : Nat) (s : Tracked) (op : Op) : Prop := s.file.ip.iSize = s.contents.length ∧ match op with
  | .write append offset iov =>
    (FileData.write rlim s.file append offset iov = .error .efbig → rlim < startOf s append offset + iov.flatten.length) ∧
    (FileData.write rlim s.file append offset iov = .error .eperm → s.file.ip.append = true ∧
    startOf s append offset ≠ s.contents.length)
  | .read offset resid => FileData.read s.file offset resid = .ok (s.contents.read offset resid)
  | .itrunc _ => True

def Tracked.Sound (s : Tracked) : Prop := Represents s.file s.contents ∧ ∃ others l, FileData.Sound s.file others l

theorem write_cases (sound : Sound f others l) (represents : Represents f c) (rlim : Nat) (append : Bool)
    {iov : List (List UInt8)} (small : (if append then c.length else offset) + iov.flatten.length < 2^31) :
    (FileData.write rlim f append offset iov = .error .eperm ∧ f.ip.append = true ∧
    (if append then c.length else offset) ≠ c.length) ∨
    (FileData.write rlim f append offset iov = .error .efbig ∧
    rlim < (if append then c.length else offset) + iov.flatten.length) ∨
    Becomes others f (c.write (if append then c.length else offset) iov.flatten) (FileData.write rlim f append offset iov) := by
  unfold FileData.write
  rw [represents.size]
  generalize (if append then c.length else offset) = start at small ⊢
  by_cases only : f.ip.append = true ∧ start ≠ c.length
  · exact Or.inl ⟨if_pos only,only⟩
  simp only [only,if_false]
  by_cases nothing : iov.flatten.length = 0
  · rw [if_pos nothing,length_eq_zero_iff.mp nothing,Contents.write,if_pos rfl]
    exact Or.inr (Or.inr (Or.inr ⟨f,l,rfl,sound,represents,rfl⟩))
  rw [if_neg nothing]
  by_cases big : start + iov.flatten.length > rlim
  · rw [if_pos big]
    exact Or.inr (Or.inl ⟨rfl,big⟩)
  rw [if_neg big]
  exact Or.inr (Or.inr (writeLoop_spec _ sound represents (by omega) le_rfl small))

theorem step_sound (rlim : Nat) (s : Tracked) (op : Op) (sound : s.Sound) (legal : Legal s op) :
    (∃ s', step rlim s op = .ok s' ∧ s'.Sound) ∨ ∃ e, step rlim s op = .error e ∧ ∃ v m, e = .enospc v ∧ Held v m [] := by
  obtain ⟨represents,others,l,held⟩ := sound
  cases op with
  | write append offset iov =>
    rcases write_cases held represents rlim append legal with ⟨refused,_⟩ | ⟨refused,_⟩ | ⟨v,m,failed,full⟩ |
      ⟨f,l',ok,kept,final,_⟩
    · exact Or.inl ⟨s,by rw [step,refused],represents,others,l,held⟩
    · exact Or.inl ⟨s,by rw [step,refused],represents,others,l,held⟩
    · exact Or.inr ⟨_,by rw [step,failed],v,m,rfl,full⟩
    · exact Or.inl ⟨_,by rw [step,ok],final,others,l',kept⟩
  | read offset resid =>
    exact Or.inl ⟨s,by rw [step,read_spec represents]; rfl,represents,others,l,held⟩
  | itrunc length =>
    rcases itrunc_spec held represents legal with ⟨v,m,failed,full⟩ | ⟨f,l',ok,kept,final,_⟩
    · exact Or.inr ⟨_,by rw [step,failed]; rfl,v,m,rfl,full⟩
    · exact Or.inl ⟨_,by rw [step,ok]; rfl,final,others,l',kept⟩

theorem sound_agrees (rlim : Nat) (s : Tracked) (op : Op) (sound : s.Sound) (legal : Legal s op) : Agrees rlim s op := by
  obtain ⟨represents,others,l,held⟩ := sound
  refine ⟨represents.size,?_⟩
  cases op with
  | write append offset iov =>
    rcases write_cases held represents rlim append legal with ⟨refused,flag,away⟩ | ⟨refused,above⟩ |
      ⟨v,m,failed,_⟩ | ⟨f,l',ok,_⟩
    · dsimp only
      rw [refused]
      exact ⟨nofun,fun _ => ⟨flag,away⟩⟩
    · dsimp only
      rw [refused]
      exact ⟨fun _ => above,nofun⟩
    · dsimp only
      rw [failed]
      exact ⟨nofun,nofun⟩
    · dsimp only
      rw [ok]
      exact ⟨nofun,nofun⟩
  | read offset resid => exact read_spec represents offset resid
  | itrunc length => trivial

/-- Every run of writes, reads and truncations goes as on an array of bytes, unless the
volume is full. -/
theorem contents_refined (rlim : Nat) (s : Tracked) (sound : s.Sound) (ops : List Op) (legal : Along (step rlim) Legal s ops) :
    Along (step rlim) (Agrees rlim) s ops ∧ ((∃ s', run (step rlim) s ops = .ok s' ∧ Represents s'.file s'.contents) ∨
        ∃ v m, run (step rlim) s ops = .error (.enospc v) ∧ Held v m []) := by
  constructor
  · refine Along.of_invariant (sound_agrees rlim) ?_ ops s sound legal
    intro s op s' sound legal ok
    rcases step_sound rlim s op sound legal with ⟨s'',done,kept⟩ | ⟨e,failed,_⟩
    · rw [ok] at done
      cases done
      exact kept
    · rw [ok] at failed
      cases failed
  · rcases @run_cases _ _ _ (step rlim) Legal Tracked.Sound (fun _ e => ∃ v m, e = .enospc v ∧ Held v m [])
      (step_sound rlim) ops s
      sound legal with ⟨s',done,kept⟩ | ⟨_,_,e,failed,v,m,rfl,full⟩
    · exact Or.inl ⟨s',done,kept.1⟩
    · exact Or.inr ⟨v,m,failed,full⟩

def newFile (v : Volume) (ino : Nat) : Tracked := ⟨⟨v,⟨ino,0,fun _ => 0,false⟩⟩,⟨0,fun _ => 0⟩⟩

theorem newFile_sound {v : Volume} {held : List Nat} (accounted : FreeList.Accounted v held l) (ino : Nat) :
    (newFile v ino).Sound := by
  have empty : blocksOf (newFile v ino).file.volume.disk (newFile v ino).file.ip.iAddr = 0 :=
    Finset.sum_eq_zero fun i _ => owned_empty
  refine ⟨⟨rfl,fun k _ => ?_,fun _ _ => rfl,Nat.two_pow_pos 31⟩,held,l,?_⟩
  · have hole : blockAt (newFile v ino).file (k / 1024) = Block.zero := contents_empty
    rw [byteAt,hole]
    simp [Block.byte,Block.zero,newFile]
  · rw [FileData.Sound,empty,zero_add]
    exact ⟨held,accounted,rfl⟩

def someWrites : List Op := [.write false 5 [[1,2],[3]],.read 0 10,.itrunc 6,.write false 9 [[4]],.read 0 10,.itrunc 20]

theorem contents_refined_someWrites : Along (step 1000) (Agrees 1000) (newFile FreeList.smallVolume 3) someWrites ∧
      ((∃ s', run (step 1000) (newFile FreeList.smallVolume 3) someWrites = .ok s' ∧ Represents s'.file s'.contents) ∨
        ∃ v m, run (step 1000) (newFile FreeList.smallVolume 3) someWrites = .error (.enospc v) ∧ Held v m []) := by
  apply contents_refined 1000 _ (newFile_sound FreeList.smallVolume_accounted 3)
  simp [someWrites,Along,Legal,startOf]

end Retrobsd.FileData
