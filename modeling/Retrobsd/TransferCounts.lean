import Retrobsd.TransferConfinement

/-! What `rwuio` adds up: the bytes that are asked for, before the driver of the file is
called, and the bytes that have been transferred, after it. -/
namespace Retrobsd.Transfers
open Relation Lib.Run

/-- What a driver does to a `uio` at a time: a vector is left, or bytes of the first
one are moved. -/
inductive Turn : Uio → Uio → Prop
  | leave {uio : Uio} {iov : Iovec} {rest : List Iovec} : uio.uioIov = iov :: rest → iov.iovLen = 0 ∨ uio.uioResid = 0 →
      Turn uio {uio with uioIov := rest}
  | move {uio : Uio} {iov : Iovec} {rest : List Iovec} {cnt : Word} : uio.uioIov = iov :: rest → cnt ≤ iov.iovLen →
      Turn uio (uio.move iov rest cnt)

/-- `writep`, and `ttywrite` under `FLUSHO`, set `uio_resid` themselves. -/
inductive Act : Uio → Uio → Prop
  | turn {uio t : Uio} : Turn uio t → Act uio t
  | assign {uio : Uio} (resid : Word) : Act uio {uio with uioResid := resid}

theorem ureadcLoop_leave (uio : Uio) (left : List Iovec) : ∀ iovs,ureadcLoop {uio with uioIov := left} iovs = ureadcLoop uio iovs
  | [] => rfl
  | iov :: rest => by
    rw [ureadcLoop,ureadcLoop,ureadcLoop_leave uio left rest]
    rfl

def size (iovs : List Iovec) : Nat := (iovs.map fun iov => iov.iovLen.toNat).sum

@[simp] theorem size_cons (iov : Iovec) (rest : List Iovec) : size (iov :: rest) = iov.iovLen.toNat + size rest := rfl

theorem total_toNat (iovs : List Iovec) : (total iovs).toNat = size iovs % 2^32 := by
  have sum : ∀ (iovs : List Iovec) (start : Word),
      (iovs.foldl (fun total iov => total + iov.iovLen) start).toNat = (start.toNat + size iovs) % 2^32 := by
    intro iovs
    induction iovs with
    | nil =>
      intro start
      exact (Nat.mod_eq_of_lt start.isLt).symm
    | cons iov rest ih =>
      intro start
      rw [List.foldl_cons,ih,BitVec.toNat_add,size_cons,Nat.mod_add_mod,Nat.add_assoc]
  rw [total,sum]
  exact congrArg (· % 2^32) (Nat.zero_add _)

/-- `uio_resid` is what is left of the vectors, and what has been moved is gone from it. -/
structure Balanced (first uio : Uio) : Prop where
  left : uio.uioResid.toNat = size uio.uioIov
  moved : uio.uioResid.toNat + uio.touched.length = first.uioResid.toNat + first.touched.length
  grown : first.touched.length ≤ uio.touched.length

theorem turn_balanced {first uio t : Uio} (before : Balanced first uio) (turn : Turn uio t) : Balanced first t := by
  obtain ⟨left,moved,grown⟩ := before
  cases turn with
  | leave shape empty =>
    rw [shape,size_cons] at left
    refine ⟨?_,moved,grown⟩
    rcases empty with empty | empty
    · simpa [empty] using left
    have none : uio.uioResid.toNat = 0 := by rw [empty]; rfl
    dsimp only
    omega
  | @move iov rest cnt shape part =>
    rw [shape,size_cons] at left
    have short : cnt.toNat ≤ iov.iovLen.toNat := part
    have enough : cnt ≤ uio.uioResid := by bv_omega
    constructor
    · simp only [Uio.move,size_cons,BitVec.toNat_sub_of_le part,BitVec.toNat_sub_of_le enough]
      omega
    · simp only [Uio.move,List.length_append,bytes,List.length_map,List.length_range,BitVec.toNat_sub_of_le enough]
      omega
    · simp only [Uio.move,List.length_append]
      omega

theorem acts_bounded {first t : Uio} (acts : ReflTransGen Act first t) :
    first.touched.length ≤ t.touched.length ∧ size t.uioIov + (t.touched.length - first.touched.length) ≤ size first.uioIov := by
  induction acts with
  | refl => exact ⟨Nat.le_refl _,by omega⟩
  | @tail uio t _ act ih =>
    obtain ⟨grown,less⟩ := ih
    cases act with
    | assign resid => exact ⟨grown,less⟩
    | turn turn =>
      cases turn with
      | leave shape empty =>
        rw [shape,size_cons] at less
        exact ⟨grown,by dsimp only; omega⟩
      | @move iov rest cnt shape part =>
        rw [shape,size_cons] at less
        have short : cnt.toNat ≤ iov.iovLen.toNat := part
        simp only [Uio.move,size_cons,BitVec.toNat_sub_of_le part,List.length_append,bytes,List.length_map,List.length_range]
        omega

theorem turns_balanced {first t : Uio} (start : first.uioResid.toNat = size first.uioIov) (turns : ReflTransGen Turn first t) :
    Balanced first t := by
  induction turns with
  | refl => exact ⟨start,rfl,Nat.le_refl _⟩
  | tail _ turn ih => exact turn_balanced ih turn

section

/-- How the driver ends: it returns after it has given back the count of `cc` bytes that it
had moved, or a signal takes the process out of it. -/
inductive Ending where
  | returned (cc : Word)
  | longjmp
deriving DecidableEq

def uRval (count : Word) (uio : Uio) : Ending → Option Word
  | .returned cc => some (count - (uio.uioResid + cc))
  | .longjmp => if uio.uioResid = count then none else some (count - uio.uioResid)

def Ending.back : Ending → Nat
  | .returned cc => cc.toNat
  | .longjmp => 0

/-- What the driver of the file may make of a `uio`, and how it may end. -/
structure Driver where
  ends : Uio → Uio → Ending → Prop
  acts : ∀ uio t ending, ends uio t ending → ReflTransGen Act uio t
  back : ∀ uio t ending, ends uio t ending → ending.back ≤ t.touched.length - uio.touched.length

structure Counted (word : Word → Word) (fp : Option File) (r : Request) (d : Driver) : Prop where
  refused : Opened fp r.rw → r.Readable → 2^32 ≤ size (r.vectors word) → request word fp r = .error .einval
  accepted : ∀ uio, request word fp r = .ok uio → uio.uioResid.toNat = size (r.vectors word)
  returned : ∀ uio t ending, request word fp r = .ok uio → d.ends uio t ending →
    ((uRval uio.uioResid t ending).getD 0).toNat = t.touched.length - uio.touched.length - ending.back

/-- The driver has set nothing, or leaves in `uio_resid` what it has not moved. -/
def Left (uio t : Uio) : Prop :=
  ReflTransGen Turn uio t ∨ t.uioResid.toNat + (t.touched.length - uio.touched.length) = uio.uioResid.toNat

variable {word : Word → Word} {fp : Option File} {r : Request} {d : Driver}

theorem Counted.small (counted : Counted word fp r d) (opened : Opened fp r.rw) (readable : r.Readable) :
    size (r.vectors word) < 2^32 := by
  obtain ⟨uio,ok,-,-,-⟩ := request_ok word opened readable
  by_contra large
  rw [counted.refused opened readable (by omega)] at ok
  cases ok

theorem request_started (small : Opened fp r.rw → r.Readable → size (r.vectors word) < 2^32) {uio : Uio}
    (ok : request word fp r = .ok uio) :
    uio.uioResid.toNat = size (r.vectors word) ∧ uio.uioIov = r.vectors word := by
  by_cases accepted : Opened fp r.rw ∧ r.Readable
  · obtain ⟨uio',ok',vectors,resid,-⟩ := request_ok word accepted.1 accepted.2
    obtain rfl : uio' = uio := Except.ok.inj (ok'.symm.trans ok)
    rw [resid,total_toNat,Nat.mod_eq_of_lt (small accepted.1 accepted.2)]
    exact ⟨rfl,vectors⟩
  · obtain ⟨e,failed⟩ := request_error word accepted
    rw [failed] at ok
    cases ok

theorem uRval_iff {uio t : Uio} {ending : Ending} (start : uio.uioResid.toNat = size uio.uioIov) (acts : ReflTransGen Act uio t)
    (back : ending.back ≤ t.touched.length - uio.touched.length) :
    ((uRval uio.uioResid t ending).getD 0).toNat = t.touched.length - uio.touched.length - ending.back ↔ Left uio t := by
  have bounded := (acts_bounded acts).2
  have left : Left uio t ↔ t.uioResid.toNat + (t.touched.length - uio.touched.length) = uio.uioResid.toNat := by
    refine or_iff_right_of_imp fun turns => ?_
    obtain ⟨-,moved,grown⟩ := turns_balanced start turns
    omega
  rw [left]
  cases ending with
  | returned cc =>
    simp only [uRval,Ending.back,Option.getD_some] at back ⊢
    bv_omega
  | longjmp =>
    simp only [uRval,Ending.back]
    split
    · next none =>
      rw [none]
      change 0 = _ ↔ _
      omega
    · simp only [Option.getD_some]
      bv_omega

/-- A call counts exactly if and only if, once it gets to the sum, the sum is below 2^32, and the driver leaves in `uio_resid`
what it has not moved, as every one does that does not set it. -/
theorem transfers_counted_iff (word : Word → Word) (fp : Option File) (r : Request) (d : Driver) : Counted word fp r d ↔
    (Opened fp r.rw → r.Readable → size (r.vectors word) < 2^32) ∧
      ∀ uio t ending, request word fp r = .ok uio → d.ends uio t ending → Left uio t := by
  have right : (Opened fp r.rw → r.Readable → size (r.vectors word) < 2^32) → ∀ uio t ending, request word fp r = .ok uio →
      d.ends uio t ending → (((uRval uio.uioResid t ending).getD 0).toNat = t.touched.length - uio.touched.length - ending.back ↔
        Left uio t) := by
    intro small uio t ending ok ends
    obtain ⟨resid,vectors⟩ := request_started small ok
    exact uRval_iff (vectors ▸ resid) (d.acts _ _ _ ends) (d.back _ _ _ ends)
  constructor
  · intro counted
    exact ⟨counted.small,fun uio t ending ok ends => (right counted.small _ _ _ ok ends).mp (counted.returned _ _ _ ok ends)⟩
  · rintro ⟨small,leaves⟩
    exact ⟨fun opened readable large => absurd (small opened readable) (by omega),fun uio ok => (request_started small ok).1,
      fun uio t ending ok ends => (right small _ _ _ ok ends).mpr (leaves _ _ _ ok ends)⟩

def idle : Driver := ⟨fun uio t ending => t = uio ∧ ending = .returned 0,by rintro _ _ _ ⟨rfl,-⟩; exact .refl,
  by rintro _ _ _ ⟨-,rfl⟩; exact Nat.zero_le _⟩

def wrapping (a : Word) : Word :=
  if a = userDataStart + 4 then 0xffffffff else if a = userDataStart + 12 then 2 else userDataStart

theorem writev_wraps : ¬ Counted wrapping (some ⟨true,true⟩) (.writev userDataStart 2) idle := by
  intro counted
  have readable : (Request.writev userDataStart 2).Readable := ⟨by decide,by decide,by decide⟩
  exact absurd (counted.small ⟨_,rfl,rfl⟩ readable) (by decide)

end

end Retrobsd.Transfers
