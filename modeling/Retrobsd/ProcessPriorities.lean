import Retrobsd.Lib.Indices

/-! The processor usage `p_cpu` of a process, of `kern_synch.c`: what `schedcpu` does with it once a
second, and `updatepri`, which `wakeup` and `setrun` call for a process with a `p_slptime` of more than 1.
What `schedcpu` does about alarms is left out. -/
namespace Retrobsd.ProcessPriorities

def puser : Int := 50

inductive Stat where
  | sleep
  | wait
  | run
  | idl
  | zomb
  | stop
deriving DecidableEq

structure Proc where
  stat : Stat
  time : Int
  cpu : BitVec 8
  nice : Int
  slptime : Int
  pri : Int

structure Cpu where
  curpri : Int
  runrun : Int

def stored (a : Int) : BitVec 8 :=
  let a := if a < 0 then 0 else a
  let a := if a > 255 then 255 else a
  BitVec.ofInt 8 a

def setpri (g : Cpu) (p : Proc) : Cpu × Proc :=
  let pri := p.cpu.toNat / 16 + (puser + p.nice)
  let pri := if pri > 127 then 127 else pri
  ({g with runrun := if pri < g.curpri then g.runrun + 1 else g.runrun},{p with pri})

/-- The loop of `updatepri`: the same words as in `schedcpu` come before the operand here. -/
def updateLoop (a slptime : Int) : Int × Int :=
  if a = 0 then (a,slptime)
  else if slptime - 1 = 0 then (a,slptime - 1)
  else updateLoop (8 / 10 * a) (slptime - 1)
termination_by a.natAbs
decreasing_by
  rw [show (8 / 10 : Int) * a = 0 by omega]
  omega

def updatepri (g : Cpu) (p : Proc) : Cpu × Proc :=
  let (a,slptime) := updateLoop p.cpu.toNat (p.slptime - 1)
  setpri g {p with slptime,cpu := stored a}

def schedcpu (g : Cpu) (p : Proc) : Cpu × Proc :=
  let time := if p.time = 127 then p.time else p.time + 1
  let slptime := if (p.stat = .sleep ∨ p.stat = .stop) ∧ p.slptime ≠ 127 then p.slptime + 1 else p.slptime
  let p := {p with time,slptime}
  if p.slptime > 1 then (g,p)
  else
    let p := {p with cpu := stored (p.cpu.toNat * 8 / 10 + p.nice)}
    if p.pri ≥ puser then setpri g p else (g,p)

/-- The step of `schedcpu` without the nice term. -/
def decay (a : Nat) : Nat := a * 8 / 10

def vanishing : Nat → Nat
  | 0 => 0
  | n + 1 => (10 * vanishing n + 9) / 8

/-- A process has slept for `k` seconds: `p_slptime` stays at 127. -/
def Slept (k : Nat) (p : Proc) : Prop := p.slptime = min k 127

def Asleep (p : Proc) : Prop := p.stat = .sleep ∨ p.stat = .stop

section
variable {g : Cpu} {p : Proc} {k : Nat}

theorem setpri_cpu : (setpri g p).2.cpu = p.cpu := rfl

theorem updateLoop_fst {a slptime : Int} : (updateLoop a slptime).1 = if slptime = 1 then a else 0 := by
  rw [updateLoop]
  split_ifs with gone last last
  · rfl
  · exact gone
  · rfl
  · omega
  · omega
  · rw [show (8 / 10 : Int) * a = 0 by omega,updateLoop,if_pos rfl]

theorem stored_toNat {a : Int} (low : 0 ≤ a) (high : a ≤ 255) : ((stored a).toNat : Int) = a := by
  unfold stored
  dsimp only
  rw [if_neg (by omega),if_neg (by omega),BitVec.toNat_ofInt]
  omega

theorem schedcpu_stat : (schedcpu g p).2.stat = p.stat := by
  unfold schedcpu setpri
  dsimp only
  split_ifs <;> rfl

theorem schedcpu_slptime : (schedcpu g p).2.slptime =
    if (p.stat = .sleep ∨ p.stat = .stop) ∧ p.slptime ≠ 127 then p.slptime + 1 else p.slptime := by
  unfold schedcpu setpri
  dsimp only
  split_ifs <;> rfl

theorem schedcpu_cpu (nice : p.nice = 0) : (schedcpu g p).2.cpu.toNat =
    if (schedcpu g p).2.slptime ≤ 1 then decay p.cpu.toNat else p.cpu.toNat := by
  have small := p.cpu.isLt
  rw [schedcpu_slptime]
  generalize later : (if (p.stat = .sleep ∨ p.stat = .stop) ∧ p.slptime ≠ 127 then p.slptime + 1 else p.slptime) = slptime
  by_cases early : slptime ≤ 1
  · have left : (schedcpu g p).2.cpu = stored (p.cpu.toNat * 8 / 10 + p.nice) := by
      unfold schedcpu
      dsimp only
      rw [later,if_neg (by omega)]
      split_ifs <;> rfl
    have exact : ((schedcpu g p).2.cpu.toNat : Int) = (decay p.cpu.toNat : Nat) := by
      rw [left,nice,stored_toNat (by omega) (by omega),decay]
      omega
    rw [if_pos early]
    exact Int.ofNat_inj.mp exact
  · have left : (schedcpu g p).2.cpu = p.cpu := by
      unfold schedcpu
      dsimp only
      rw [later,if_pos (by omega)]
    rw [if_neg early,left]

/-- Nothing but `schedcpu` counts: a process that sleeps from a `p_slptime` of 0 on has slept for as many seconds as there are calls. -/
theorem schedcpu_slept (asleep : Asleep p) (begins : p.slptime = 0) (gs : List Cpu) :
    Slept gs.length (gs.foldl (fun p g => (schedcpu g p).2) p) := by
  suffices counts : ∀ (gs : List Cpu) (p : Proc) (k : Nat), Asleep p → Slept k p →
      Slept (k + gs.length) (gs.foldl (fun p g => (schedcpu g p).2) p) by
    have counted := counts gs p 0 asleep begins
    rwa [Nat.zero_add] at counted
  intro gs
  induction gs with
  | nil => exact fun p k asleep slept => slept
  | cons g gs ih =>
    intro p k asleep slept
    have step : Slept (k + 1) (schedcpu g p).2 := by
      rw [Slept] at slept ⊢
      rw [schedcpu_slptime]
      split_ifs with counts
      · omega
      · have full : p.slptime = 127 := not_not.mp fun less => counts ⟨asleep,less⟩
        omega
    have still : Asleep (schedcpu g p).2 := by
      rw [Asleep,schedcpu_stat]
      exact asleep
    have counted := ih (schedcpu g p).2 (k + 1) still step
    rwa [Nat.add_right_comm] at counted

theorem updatepri_cpu (seconds : 1 < k) (slept : Slept k p) :
    (updatepri g p).2.cpu.toNat = if k = 2 then p.cpu.toNat else 0 := by
  have small := p.cpu.isLt
  have looped : (updateLoop p.cpu.toNat (p.slptime - 1)).1 = if k = 2 then (p.cpu.toNat : Int) else 0 := by
    rw [Slept] at slept
    rw [updateLoop_fst]
    by_cases two : k = 2
    · rw [if_pos (by omega),if_pos two]
    · rw [if_neg (by omega),if_neg two]
  have exact : ((updatepri g p).2.cpu.toNat : Int) = if k = 2 then (p.cpu.toNat : Int) else 0 := by
    rw [updatepri,setpri_cpu,← looped]
    refine stored_toNat ?_ ?_ <;> rw [looped] <;> split_ifs <;> omega
  split_ifs with two
  · rw [if_pos two] at exact
    exact Int.ofNat_inj.mp exact
  rw [if_neg two] at exact
  exact Int.ofNat_inj.mp exact

end

theorem decay_vanishes {n a : Nat} : decay^[n] a = 0 ↔ a ≤ vanishing n := by
  induction n generalizing a with
  | zero => exact Nat.le_zero.symm
  | succ n ih =>
    rw [Function.iterate_succ_apply,ih,decay,vanishing]
    omega

structure Decays (g : Cpu) (k : Nat) (p : Proc) : Prop where
  agrees : (updatepri g p).2.cpu.toNat = decay^[k - 2] p.cpu.toNat
  monotone : ∀ q : Proc, Slept k q → q.cpu.toNat ≤ p.cpu.toNat → (updatepri g q).2.cpu.toNat ≤ (updatepri g p).2.cpu.toNat
  below : (updatepri g p).2.cpu.toNat ≤ p.cpu.toNat

/-- After two seconds nothing is to be done; after more, `updatepri` leaves 0. -/
theorem updatepri_decays_iff (g : Cpu) (p : Proc) (k : Nat) (seconds : 1 < k) (slept : Slept k p) :
    Decays g k p ↔ k = 2 ∨ p.cpu.toNat ≤ vanishing (k - 2) := by
  have left := updatepri_cpu (g := g) seconds slept
  constructor
  · intro decays
    by_cases two : k = 2
    · exact .inl two
    have agrees := decays.agrees
    rw [left,if_neg two] at agrees
    exact .inr (decay_vanishes.mp agrees.symm)
  intro holds
  refine ⟨?_,fun q slow less => ?_,?_⟩
  · rw [left]
    split_ifs with two
    · rw [two]
      rfl
    · exact (decay_vanishes.mpr (holds.resolve_left two)).symm
  · rw [left,updatepri_cpu seconds slow]
    split_ifs
    · exact less
    · exact Nat.le_refl 0
  · rw [left]
    split_ifs
    · exact Nat.le_refl _
    · exact Nat.zero_le _

def sleeper (k : Nat) (cpu : BitVec 8) : Proc := ⟨.sleep,0,cpu,0,min k 127,20⟩

theorem updatepri_decays_small : Decays ⟨50,0⟩ 5 (sleeper 5 3) :=
  (updatepri_decays_iff ⟨50,0⟩ (sleeper 5 3) 5 (by decide) rfl).mpr (.inr (by decide))

/-- After three seconds of sleep a usage of 100 is to be 80. -/
theorem updatepri_forgets : ¬ Decays ⟨50,0⟩ 3 (sleeper 3 100) := by
  intro decays
  have left := updatepri_cpu (g := ⟨50,0⟩) (k := 3) (p := sleeper 3 100) (by decide) rfl
  have agrees := decays.agrees
  rw [left] at agrees
  exact absurd agrees (by decide)

end Retrobsd.ProcessPriorities
