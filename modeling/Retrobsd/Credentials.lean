import Retrobsd.Lib.Indices

/-! The user and group ids of a process: `kern_prot.c`, `kern_prot2.c` and what `getxfile` does with the ids of a new image. An
`execve` that fails before that changes nothing here. -/
namespace Retrobsd.Credentials
open List

/-- `pUid` is in the proc entry, a `short`; `uGroups` has the effective group at its head and NGROUPS entries. -/
structure User where
  pUid : Int
  uUid : Nat
  uRuid : Nat
  uSvuid : Nat
  uRgid : Nat
  uSvgid : Nat
  uGroups : List Nat

inductive Errno where
  | eperm
  | efault
  | einval

def ngroups : Nat := 16
def nogroup : Nat := 65535

inductive Call where
  | setuid (uid : Nat)
  | seteuid (euid : Nat)
  | setgid (gid : Nat)
  | setegid (egid : Nat)
  | setgroups (gidset : List Nat) (readable : Bool)
  /-- The owner and the group of the file where its mode sets the id and the filesystem lets it. -/
  | execve (suid sgid : Option Nat) (traced : Bool)

def suser (u : User) : Bool := u.uUid = 0

def effective (groups : List Nat) : Nat := groups.headD nogroup

def setEffective (u : User) (gid : Nat) : List Nat := gid :: u.uGroups.tail

/-- What a `short` keeps of a user id. -/
def short (uid : Nat) : Int := (BitVec.ofNat 16 uid).toInt

def setuid (u : User) (uid : Nat) : User × Option Errno :=
  if uid ≠ u.uRuid ∧ suser u = false then (u,some .eperm) else
    ({u with pUid := short uid,uUid := uid,uRuid := uid,uSvuid := uid},none)

def seteuid (u : User) (euid : Nat) : User × Option Errno :=
  if euid ≠ u.uRuid ∧ euid ≠ u.uSvuid ∧ suser u = false then (u,some .eperm) else ({u with uUid := euid},none)

def setgid (u : User) (gid : Nat) : User × Option Errno :=
  if gid ≠ u.uRgid ∧ suser u = false then (u,some .eperm) else
    ({u with uGroups := setEffective u gid,uRgid := gid,uSvgid := gid},none)

def setegid (u : User) (egid : Nat) : User × Option Errno :=
  if egid ≠ u.uRgid ∧ egid ≠ u.uSvgid ∧ suser u = false then (u,some .eperm) else ({u with uGroups := setEffective u egid},none)

def setgroups (u : User) (gidset : List Nat) (readable : Bool) : User × Option Errno :=
  if suser u = false then (u,some .eperm)
  else if gidset.length > ngroups then (u,some .einval)
  else if readable = false then (u,some .efault)
  else ({u with uGroups := gidset ++ replicate (ngroups - gidset.length) nogroup},none)

def getxfile (u : User) (uid gid : Nat) (traced : Bool) : User :=
  let u := if traced then u else {u with pUid := short uid,uUid := uid,uGroups := setEffective u gid}
  {u with uSvuid := u.uUid,uSvgid := effective u.uGroups}

def perform (u : User) : Call → User
  | .setuid uid => (setuid u uid).1
  | .seteuid euid => (seteuid u euid).1
  | .setgid gid => (setgid u gid).1
  | .setegid egid => (setegid u egid).1
  | .setgroups gidset readable => (setgroups u gidset readable).1
  | .execve suid sgid traced => getxfile u (suid.getD u.uUid) (sgid.getD (effective u.uGroups)) traced

def getgroups (u : User) : List Nat := u.uGroups.rdropWhile (· == nogroup)

def groupmember (u : User) (gid : Nat) : Bool := gid ∈ u.uGroups.takeWhile (· != nogroup)

def uids (u : User) : List Nat := [u.uUid,u.uRuid,u.uSvuid]

def gids (u : User) : List Nat := [effective u.uGroups,u.uRgid,u.uSvgid]

/-- What a process may have got since `u` with the users `U` and the groups `G`. -/
structure Confined (U G : List Nat) (u v : User) : Prop where
  ruid : v.uRuid = u.uRuid
  rgid : v.uRgid = u.uRgid
  uids : ∀ x ∈ uids v, x ∈ U
  pUid : v.pUid = u.pUid ∨ ∃ x ∈ U, v.pUid = short x
  gids : ∀ x ∈ gids v, x ∈ G
  groups : v.uGroups.tail = u.uGroups.tail

def suids (calls : List Call) : List Nat := calls.filterMap fun | .execve suid _ _ => suid | _ => none

def sgids (calls : List Call) : List Nat := calls.filterMap fun | .execve _ sgid _ => sgid | _ => none

variable {U G : List Nat} {u v : User}

@[simp] theorem effective_set (gid : Nat) : effective (setEffective u gid) = gid := rfl

theorem perform_confined (c : Call) (plain : 0 ∉ U) (confined : Confined U G u v) (suid : ∀ x ∈ suids [c], x ∈ U)
    (sgid : ∀ x ∈ sgids [c], x ∈ G) : Confined U G u (perform v c) := by
  have common : suser v = false := by
    have user : v.uUid ≠ 0 := fun zero => plain (zero ▸ confined.uids _ (by simp [uids]))
    simpa [suser] using user
  have inU := confined.uids
  have inG := confined.gids
  simp only [uids,gids,mem_cons,not_mem_nil,or_false,forall_eq_or_imp,forall_eq] at inU inG
  obtain ⟨uUid,uRuid,uSvuid⟩ := inU
  obtain ⟨uGid,uRgid,uSvgid⟩ := inG
  cases c with
  | setuid uid =>
    rw [perform,setuid]
    split_ifs with refused
    · exact confined
    obtain rfl : uid = v.uRuid := by simpa [common] using refused
    exact {confined with uids := by simp [uids,uRuid],pUid := .inr ⟨_,uRuid,rfl⟩}
  | seteuid euid =>
    rw [perform,seteuid]
    split_ifs with refused
    · exact confined
    have old : euid ∈ U := by
      by_contra new
      exact refused ⟨fun same => new (same ▸ uRuid),fun same => new (same ▸ uSvuid),common⟩
    exact {confined with uids := by simp [*,uids]}
  | setgid gid =>
    rw [perform,setgid]
    split_ifs with refused
    · exact confined
    obtain rfl : gid = v.uRgid := by simpa [common] using refused
    exact {confined with gids := by simp [gids,uRgid]}
  | setegid egid =>
    rw [perform,setegid]
    split_ifs with refused
    · exact confined
    have old : egid ∈ G := by
      by_contra new
      exact refused ⟨fun same => new (same ▸ uRgid),fun same => new (same ▸ uSvgid),common⟩
    exact {confined with gids := by simp [*,gids]}
  | setgroups gidset readable =>
    rw [perform,setgroups,if_pos common]
    exact confined
  | execve suid' sgid' traced =>
    have owner : suid'.getD v.uUid ∈ U := by
      cases suid' with
      | none => exact uUid
      | some x => exact suid x (by simp [suids])
    have group : sgid'.getD (effective v.uGroups) ∈ G := by
      cases sgid' with
      | none => exact uGid
      | some x => exact sgid x (by simp [sgids])
    cases traced
    · exact {confined with uids := by simp [*,perform,getxfile,uids],pUid := .inr ⟨_,owner,rfl⟩,gids := by simp [*,perform,getxfile,gids]}
    · exact {confined with uids := by simp [*,perform,getxfile,uids],gids := by simp_all [perform,getxfile,gids]}

/-- A process that has no id of the superuser, and executes no file that gives it, only gets ids that it has already or that such a
file gives, and no other group. Its entry has what a `short` keeps of one of them. -/
theorem ids_confined (calls : List Call) (plain : 0 ∉ uids u ++ suids calls) :
    Confined (uids u ++ suids calls) (gids u ++ sgids calls) u (calls.foldl perform u) := by
  refine foldlRecOn (motive := fun t => Confined _ _ u t) calls _ ?_ fun v confined c member => ?_
  · exact ⟨rfl,rfl,fun _ => mem_append_left _,.inl rfl,fun _ => mem_append_left _,rfl⟩
  have one := singleton_sublist.mpr member
  exact perform_confined c plain confined (fun x given => mem_append_right _ ((one.filterMap _).subset given))
    fun x given => mem_append_right _ ((one.filterMap _).subset given)

def daemon : User := ⟨1,1,1,1,1,1,1 :: replicate 15 nogroup⟩

theorem ids_confined_daemon : Confined (uids daemon ++ suids [.execve (some 7) none false,.setuid 1])
    (gids daemon ++ sgids [.execve (some 7) none false,.setuid 1]) daemon
    ([Call.execve (some 7) none false,.setuid 1].foldl perform daemon) := ids_confined _ (by decide)

theorem takeWhile_groups {m r : List Nat} (plain : nogroup ∉ m) (rest : ∀ x ∈ r, x = nogroup) :
    (m ++ r).takeWhile (· != nogroup) = m := by
  rw [takeWhile_append_of_pos fun x member => bne_iff_ne.mpr (ne_of_mem_of_not_mem member plain)]
  cases r with
  | nil => exact append_nil m
  | cons x r => rw [takeWhile_cons_of_neg (by simp [rest x mem_cons_self]),append_nil]

/-- The superuser reads back the groups it sets but for empty ones at the end. Honoured are those before the first empty one, which
are all that it reads back unless there is an empty one among these. -/
theorem groups_agree (root : suser u = true) (gidset : List Nat) (few : gidset.length ≤ ngroups) :
    ∃ v, setgroups u gidset true = (v,none) ∧ getgroups v = gidset.rdropWhile (· == nogroup) ∧
      (∀ gid, groupmember v gid = true ↔ gid ∈ gidset.takeWhile (· != nogroup)) ∧
      ((∀ gid, groupmember v gid = true ↔ gid ∈ getgroups v) ↔ nogroup ∉ getgroups v) := by
  rw [setgroups,if_neg (by simp [root]),if_neg (not_lt.mpr few),if_neg (by decide)]
  have read : ∀ k, (gidset ++ replicate k nogroup).rdropWhile (· == nogroup) = gidset.rdropWhile (· == nogroup) := by
    intro k
    induction k with
    | zero => rw [replicate_zero,append_nil]
    | succ k ih => rw [replicate_succ',← append_assoc,rdropWhile_concat_pos _ _ _ (by decide),ih]
  refine ⟨_,rfl,read _,fun gid => ?_,?_⟩
  · simp only [groupmember,decide_eq_true_eq]
    rw [takeWhile_append]
    split_ifs with whole
    · have all : gidset.takeWhile (· != nogroup) = gidset := ( takeWhile_prefix _).eq_of_length whole
      rw [takeWhile_replicate_eq_filter,filter_replicate_of_neg (by decide),append_nil,all]
    · rfl
  simp only [getgroups,groupmember,decide_eq_true_eq]
  constructor
  · intro same among
    have empty := mem_takeWhile_imp ((same nogroup).mpr among)
    simp at empty
  intro plain gid
  generalize gidset ++ replicate (ngroups - gidset.length) nogroup = groups at *
  have rest : ∀ x ∈ groups.rtakeWhile (· == nogroup), x = nogroup := fun x member => by
    have empty := mem_rtakeWhile_imp member
    exact eq_of_beq empty
  have parts := takeWhile_groups plain rest
  rw [rdropWhile_append_rtakeWhile] at parts
  rw [parts]

theorem groups_agree_root : ∃ v, setgroups {daemon with uUid := 0} [5,nogroup,6,nogroup] true = (v,none) ∧
    getgroups v = [5,nogroup,6,nogroup].rdropWhile (· == nogroup) ∧
    (∀ gid, groupmember v gid = true ↔ gid ∈ [5,nogroup,6,nogroup].takeWhile (· != nogroup)) ∧
    ((∀ gid, groupmember v gid = true ↔ gid ∈ getgroups v) ↔ nogroup ∉ getgroups v) := groups_agree rfl _ (by decide)

end Retrobsd.Credentials
