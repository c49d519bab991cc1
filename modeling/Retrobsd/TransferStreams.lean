import Retrobsd.TransferCounts

/-! The bytes of the user that a request names, in order, and what `uiomove` and `ureadc` take of them. -/
namespace Retrobsd.Transfers
open List BitVec

def Uio.stream (uio : Uio) : List Word := uio.uioIov.flatMap fun iov => bytes iov.iovBase iov.iovLen.toNat

/-- `uio_resid` is the sum of the lengths, as `rwuio` sets it for a sum that it can hold. -/
def Uio.Sized (uio : Uio) : Prop := uio.uioResid.toNat = size uio.uioIov

/-- The vectors have room for `uio_resid` bytes, also where `rwuio` has reduced a sum that it cannot hold. -/
def Uio.Covers (uio : Uio) : Prop := uio.uioResid.toNat ≤ size uio.uioIov

def between (uio t : Uio) : List Word := t.touched.drop uio.touched.length

structure Took (uio t : Uio) (n : Word) : Prop where
  part : n ≤ uio.uioResid
  resid : t.uioResid = uio.uioResid - n
  covers : t.Covers
  touched : t.touched = uio.touched ++ uio.stream.take n.toNat
  stream : t.stream = uio.stream.drop n.toNat

section
variable {uio t : Uio} {n : Word}

theorem length_bytes (addr : Word) (n : Nat) : (bytes addr n).length = n := by
  rw [bytes,length_map,length_range]

theorem length_stream (uio : Uio) : uio.stream.length = size uio.uioIov := by
  rw [Uio.stream,length_flatMap,size]
  exact congrArg sum (map_congr_left fun iov _ => length_bytes _ _)

theorem Uio.Sized.covers (sized : uio.Sized) : uio.Covers := Nat.le_of_eq sized

theorem Uio.Sized.length (sized : uio.Sized) : uio.stream.length = uio.uioResid.toNat := by
  rw [length_stream,sized]

theorem Uio.Covers.length (covers : uio.Covers) : uio.uioResid.toNat ≤ uio.stream.length := by
  rw [length_stream]
  exact covers

theorem Uio.Sized.empty (sized : uio.Sized) : uio.stream = [] ↔ uio.uioResid = 0 := by
  rw [← length_eq_zero_iff,sized.length]
  exact ⟨fun none => eq_of_toNat_eq none,fun none => by rw [none]; rfl⟩

theorem bytes_add (addr : Word) (m n : Nat) : bytes addr (m + n) = bytes addr m ++ bytes (addr + BitVec.ofNat 32 m) n := by
  rw [bytes,range_add,map_append,map_map,bytes,bytes]
  congr 1
  refine map_congr_left fun i _ => ?_
  rw [Function.comp_apply,BitVec.ofNat_add,BitVec.add_assoc]

theorem bytes_take (iov : Iovec) {cnt : Word} (part : cnt ≤ iov.iovLen) :
    bytes iov.iovBase iov.iovLen.toNat = bytes iov.iovBase cnt.toNat ++ bytes (iov.iovBase + cnt) (iov.iovLen - cnt).toNat := by
  have whole : iov.iovLen.toNat = cnt.toNat + (iov.iovLen - cnt).toNat := by bv_omega
  rw [whole,bytes_add,ofNat_toNat,setWidth_eq]

theorem between_took (took : Took uio t n) : between uio t = uio.stream.take n.toNat := by
  rw [between,took.touched,drop_left]

theorem move_took {iov : Iovec} {rest : List Iovec} {cnt : Word} (shape : uio.uioIov = iov :: rest) (part : cnt ≤ iov.iovLen)
    (fits : cnt ≤ uio.uioResid) (covers : uio.Covers) : Took uio (uio.move iov rest cnt) cnt := by
  have whole : uio.stream = bytes iov.iovBase cnt.toNat ++ (uio.move iov rest cnt).stream := by
    change _ = _ ++ (bytes (iov.iovBase + cnt) (iov.iovLen - cnt).toNat ++ _)
    rw [Uio.stream,shape,List.flatMap_cons,bytes_take iov part,List.append_assoc]
    rfl
  have taken : (bytes iov.iovBase cnt.toNat).length = cnt.toNat := length_bytes _ _
  refine ⟨fits,rfl,?_,?_,?_⟩
  · rw [Uio.Covers,shape,size_cons] at covers
    change (uio.uioResid - cnt).toNat ≤ (iov.iovLen - cnt).toNat + size rest
    bv_omega
  · rw [whole,take_left' taken]
    rfl
  · rw [whole,drop_left' taken]

theorem leave_covers {iov : Iovec} {rest : List Iovec} (shape : uio.uioIov = iov :: rest)
    (empty : iov.iovLen = 0) (covers : uio.Covers) :
    ({uio with uioIov := rest} : Uio).Covers ∧ ({uio with uioIov := rest} : Uio).stream = uio.stream := by
  have zero : iov.iovLen.toNat = 0 := by
    rw [empty]
    rfl
  rw [Uio.Covers,shape,size_cons,zero,Nat.zero_add] at covers
  refine ⟨covers,?_⟩
  rw [Uio.stream,Uio.stream,shape,flatMap_cons,zero]
  rfl

theorem Took.none (covers : uio.Covers) : Took uio uio 0 := by
  refine ⟨by bv_omega,by bv_omega,covers,?_,rfl⟩
  change _ = _ ++ []
  rw [append_nil]

theorem Took.more {next : Uio} {m k : Word} (first : Took uio next m) (second : Took next t k) : Took uio t (m + k) := by
  have left := first.resid
  have fits := first.part
  have part := second.part
  have sum : (m + k).toNat = m.toNat + k.toNat := by bv_omega
  refine ⟨by bv_omega,?_,second.covers,?_,?_⟩
  · rw [second.resid,left]
    bv_omega
  · rw [second.touched,first.touched,first.stream,List.append_assoc,← List.take_add,sum]
  · rw [second.stream,first.stream,drop_drop,sum]

theorem Took.sized (took : Took uio t n) (sized : uio.Sized) : t.Sized := by
  have part : n.toNat ≤ uio.uioResid.toNat := took.part
  rw [Uio.Sized,← length_stream,took.stream,took.resid,length_drop,sized.length,toNat_sub_of_le took.part]

def moving (n : Word) (uio : Uio) : Word := if n ≤ uio.uioResid then n else uio.uioResid

theorem uiomove_took (covers : uio.Covers) (exact : n ≤ uio.uioResid ∨ uio.Sized) :
    ∃ t, uiomove n uio = .ok t ∧ Took uio t (moving n uio) := by
  fun_induction uiomove n uio with
  | case1 n uio more shape =>
    rw [Uio.Covers,shape] at covers
    exact absurd (eq_of_toNat_eq (Nat.le_zero.mp covers)) more.2
  | case2 n uio more iov rest shape empty ih =>
    obtain ⟨left,same⟩ := leave_covers shape empty covers
    have zero : iov.iovLen.toNat = 0 := by
      rw [empty]
      rfl
    obtain ⟨t,ran,took⟩ := ih left (exact.imp id fun sized => by
      rw [Uio.Sized,shape,size_cons,zero,Nat.zero_add] at sized
      exact sized)
    exact ⟨t,ran,took.part,took.resid,took.covers,same ▸ took.touched,same ▸ took.stream⟩
  | case3 n uio more iov rest shape full cnt ih =>
    have part : cnt ≤ iov.iovLen := by
      simp only [cnt]
      split <;> bv_omega
    have asks : cnt ≤ n := by
      simp only [cnt]
      split <;> bv_omega
    have fits : cnt ≤ uio.uioResid := by
      rcases exact with less | sized
      · bv_omega
      rw [Uio.Sized,shape,size_cons] at sized
      bv_omega
    have first := move_took shape part fits covers
    obtain ⟨t,ran,took⟩ := ih first.covers (by
      refine exact.imp (fun less => ?_) first.sized
      change n - cnt ≤ uio.uioResid - cnt
      bv_omega)
    have sum : cnt + moving (n - cnt) (uio.move iov rest cnt) = moving n uio := by
      change cnt + (if n - cnt ≤ uio.uioResid - cnt then n - cnt else uio.uioResid - cnt) = if n ≤
        uio.uioResid then n else uio.uioResid
      split <;> split <;> bv_omega
    exact ⟨t,ran,sum ▸ first.more took⟩
  | case4 n uio done =>
    have nothing : moving n uio = 0 := by
      rw [moving]
      split <;> bv_omega
    rw [nothing]
    exact ⟨uio,rfl,Took.none covers⟩

theorem uiomove_next (memory : Word → UInt8) (size : Word) (covers : uio.Covers) :
    ∃ t, uiomove (if uio.uioResid < size then uio.uioResid else size) uio = .ok t ∧ t.Covers ∧
      (between uio t).map memory ++ (t.stream.take t.uioResid.toNat).map memory =
      (uio.stream.take uio.uioResid.toNat).map memory := by
  generalize part : (if uio.uioResid < size then uio.uioResid else size) = cc
  have within : cc ≤ uio.uioResid := by
    rw [← part]
    split
    · exact BitVec.le_refl _
    · bv_omega
  obtain ⟨t,ran,took⟩ := uiomove_took covers (.inl within)
  rw [moving,if_pos within] at took
  have left : t.uioResid.toNat = uio.uioResid.toNat - cc.toNat := by rw [took.resid,toNat_sub_of_le within]
  have sum : cc.toNat + (uio.uioResid.toNat - cc.toNat) = uio.uioResid.toNat := by bv_omega
  exact ⟨t,ran,took.covers,by rw [between_took took,took.stream,left,← map_append,← take_add,sum]⟩

theorem uiomove_stream (n : Word) (sized : uio.Sized) :
    ∃ t, uiomove n uio = .ok t ∧ between uio t = uio.stream.take n.toNat ∧ t.stream = uio.stream.drop n.toNat ∧ t.Sized := by
  obtain ⟨t,ran,took⟩ := uiomove_took sized.covers (.inr sized)
  have total := sized.length
  refine ⟨t,ran,?_,?_,took.sized sized⟩
  · rw [between_took took,take_eq_take_iff,moving]
    split <;> bv_omega
  rw [took.stream,drop_eq_drop_iff,moving]
  split <;> bv_omega

theorem ureadc_took (covers : uio.Covers) (room : uio.uioResid ≠ 0) : ∃ t, ureadc uio = .ok t ∧ Took uio t 1 := by
  have loop : ∀ (iovs : List Iovec) (uio : Uio), uio.uioIov = iovs → uio.Covers → uio.uioResid ≠ 0 →
      ∃ t, ureadcLoop uio iovs = .ok t ∧ Took uio t 1 := by
    intro iovs
    induction iovs with
    | nil =>
      intro uio shape covers room
      rw [Uio.Covers,shape] at covers
      exact absurd (eq_of_toNat_eq (Nat.le_zero.mp covers)) room
    | cons iov rest ih =>
      intro uio shape covers room
      rw [ureadcLoop]
      by_cases empty : iov.iovLen = 0
      · rw [if_pos (.inl empty),← ureadcLoop_leave uio rest]
        obtain ⟨left,same⟩ := leave_covers shape empty covers
        obtain ⟨t,ran,took⟩ := ih {uio with uioIov := rest} rfl left room
        exact ⟨t,ran,took.part,took.resid,took.covers,same ▸ took.touched,same ▸ took.stream⟩
      · rw [if_neg (not_or.mpr ⟨empty,room⟩)]
        exact ⟨_,rfl,move_took shape (by bv_omega) (by bv_omega) covers⟩
  exact loop uio.uioIov uio rfl covers room

theorem ureadc_none (none : uio.uioResid = 0) : ureadc uio = .error .ureadc := by
  have loop : ∀ iovs : List Iovec, ureadcLoop uio iovs = .error .ureadc := by
    intro iovs
    induction iovs with
    | nil => rfl
    | cons iov rest ih => rw [ureadcLoop,if_pos (.inr none),ih]
  exact loop uio.uioIov

end

end Retrobsd.Transfers
