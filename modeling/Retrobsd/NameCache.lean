import Retrobsd.Lib.Indices

/-! Invalidation of the entries of the name cache that lead to an inode. -/
namespace Retrobsd.NameCache
open Function

structure Namecache (ι : Type) where
  ncIp : Option ι
  ncId : BitVec 16

structure Cache (n : Nat) (ι : Type) where
  iId : ι → BitVec 32
  nextinodeid : BitVec 32
  namecache : Fin n → Namecache ι

section
variable {n : Nat} {ι : Type}

/-- The test of `namei`: `nc_id` is extended to the type of `i_id`. -/
def Cache.Matches (c : Cache n ι) (ncp : Fin n) : Prop :=
    ∃ ip, (c.namecache ncp).ncIp = some ip ∧ (c.namecache ncp).ncId.setWidth 32 = c.iId ip

def cinvalall (c : Cache n ι) : Cache n ι := {c with namecache := fun ncp => {c.namecache ncp with ncId := 0}}

def cacheinval [DecidableEq ι] (c : Cache n ι) (ip : ι) : Cache n ι :=
  let nextinodeid := c.nextinodeid + 1
  let c := {c with iId := update c.iId ip nextinodeid,nextinodeid}
  if nextinodeid = 0 then cinvalall c else c

structure Invalidated (c d : Cache n ι) (ip : ι) : Prop where
  stale : ∀ ncp, (d.namecache ncp).ncIp = some ip → ¬d.Matches ncp
  kept : ∀ ncp, ¬c.Matches ncp → ¬d.Matches ncp

variable [DecidableEq ι] {c : Cache n ι} {ip : ι} {ncp : Fin n}

theorem matches_next (next : c.nextinodeid + 1 ≠ 0) : (cacheinval c ip).Matches ncp ↔
    if (c.namecache ncp).ncIp = some ip then (c.namecache ncp).ncId.setWidth 32 = c.nextinodeid + 1 else c.Matches ncp := by
  simp only [cacheinval,if_neg next,Cache.Matches]
  split_ifs with same
  · rw [same]
    simp
  refine exists_congr fun other => and_congr_right fun leads => ?_
  rw [update_of_ne fun equal : other = ip => same (equal ▸ leads)]

theorem matches_wrap (wrap : c.nextinodeid + 1 = 0) : (cacheinval c ip).Matches ncp ↔
    ∃ other, (c.namecache ncp).ncIp = some other ∧ (other = ip ∨ c.iId other = 0) := by
  simp only [cacheinval,if_pos wrap,cinvalall,Cache.Matches]
  refine exists_congr fun other => and_congr_right fun _ => ?_
  by_cases same : other = ip
  · rw [same,update_self,wrap]
    simp
  rw [update_of_ne same,or_iff_right same]
  exact eq_comm

/-- At the wrap the identifiers of the inode and of all entries are 0, and so they agree. -/
theorem cacheinval_iff : Invalidated c (cacheinval c ip) ip ↔
    if c.nextinodeid + 1 = 0 then
      (∀ ncp, (c.namecache ncp).ncIp ≠ some ip) ∧
      ∀ ncp other, (c.namecache ncp).ncIp = some other → c.iId other = 0 → (c.namecache ncp).ncId = 0
    else ∀ ncp, (c.namecache ncp).ncIp = some ip → (c.namecache ncp).ncId.setWidth 32 ≠ c.nextinodeid + 1 := by
  have leads : ∀ ncp, ((cacheinval c ip).namecache ncp).ncIp = (c.namecache ncp).ncIp := fun ncp => by
    simp only [cacheinval,cinvalall]
    split_ifs <;> rfl
  split_ifs with next
  · constructor
    · intro done
      have none : ∀ ncp, (c.namecache ncp).ncIp ≠ some ip := fun ncp there =>
        done.stale ncp ((leads ncp).trans there) ((matches_wrap next).mpr ⟨ip,there,.inl rfl⟩)
      refine ⟨none,fun ncp other there zero => ?_⟩
      obtain ⟨_,same,equal⟩ := not_not.mp fun before => done.kept ncp before ((matches_wrap next).mpr ⟨other,there,.inr zero⟩)
      cases there.symm.trans same
      rw [zero] at equal
      bv_omega
    · rintro ⟨none,zeros⟩
      refine ⟨fun ncp there => absurd ((leads ncp).symm.trans there) (none ncp),fun ncp before after => ?_⟩
      obtain ⟨other,there,same | zero⟩ := (matches_wrap next).mp after
      · exact none ncp (same ▸ there)
      · exact before ⟨other,there,by rw [zeros ncp other there zero,zero]; rfl⟩
  · constructor
    · intro done ncp there equal
      exact done.stale ncp ((leads ncp).trans there) ((matches_next next).mpr (by rwa [if_pos there]))
    intro other
    refine ⟨fun ncp there after => ?_,fun ncp before after => ?_⟩
    · have there := (leads ncp).symm.trans there
      rw [matches_next next,if_pos there] at after
      exact other ncp there after
    rw [matches_next next] at after
    split_ifs at after with there
    · exact other ncp there after
    · exact before after

end

def last : Cache 1 Unit := ⟨fun _ => 7,0xffffffff,fun _ => ⟨some (),7⟩⟩

theorem wrap_matches : ¬Invalidated last (cacheinval last ()) () := fun done =>
  done.stale 0 rfl ⟨(),rfl,rfl⟩

end Retrobsd.NameCache
