import Retrobsd.ProcessPriorities

/-! The load averages of `vm_sched.c`, which have eight bits behind the point. What `vmtotal` does under `UCB_METER` is left out. -/
namespace Retrobsd.LoadAverages
open List
open ProcessPriorities (Stat)

def cexp : Fin 3 → Int
  | 0 => 0o353
  | 1 => 0o373
  | 2 => 0o376

def loadav (i : Fin 3) (avg n : Int) : Int := ((cexp i * (avg - n * 256) + n * 65536).bmod (2^32) / 256).bmod (2^16)

structure Proc where
  stat : Stat
  ssys : Bool
  sintr : Bool

def Proc.counted (p : Proc) : Bool := !p.ssys && match p.stat with
  | .sleep => !p.sintr
  | .run | .idl => true
  | _ => false

def vmtotal (avenrun : Fin 3 → Int) (allproc : List Proc) (i : Fin 3) : Int := loadav i (avenrun i) (allproc.countP Proc.counted)

def avenrun (ticks : List (List Proc)) : Fin 3 → Int := ticks.foldl vmtotal 0

/-- How far below the load an average comes to rest that rises. -/
def gap : Fin 3 → Int
  | 0 => 12
  | 1 => 51
  | 2 => 127

def settled (i : Fin 3) (avg n : Int) : Int := max (256 * n - gap i) (min avg (256 * n))

variable {i : Fin 3} {avg : Int} {n nproc : Nat}

theorem cexp_gap : ∀ i, cexp i = 235 ∧ gap i = 12 ∨ cexp i = 251 ∧ gap i = 51 ∨ cexp i = 254 ∧ gap i = 127 := by decide

theorem loadav_eq (low : 0 ≤ avg) (high : avg ≤ 256 * 127) (few : n ≤ 127) :
    loadav i avg n = 256 * n + cexp i * (avg - 256 * n) / 256 := by
  rw [loadav]
  rcases cexp_gap i with ⟨c,-⟩ | ⟨c,-⟩ | ⟨c,-⟩ <;> rw [c] <;> simp (disch := omega) only [Int.bmod_eq_of_le] <;> omega

theorem vmtotal_settles (few : n ≤ 127) (later : List (List Proc)) :
    (∀ t ∈ later, t.countP Proc.counted = n) → ∀ a : Fin 3 → Int,
    0 ≤ a i → a i ≤ 256 * 127 → a i - settled i (a i) n ≤ later.length → settled i (a i) n - a i ≤ later.length →
    later.foldl vmtotal a i = settled i (a i) n := by
  induction later with
  | nil =>
    intro _ a low high above below
    rw [length_nil] at above below
    rw [foldl_nil]
    omega
  | cons t later ih =>
    intro steady a low high above below
    rw [length_cons] at above below
    have next : vmtotal a t i = 256 * n + cexp i * (a i - 256 * n) / 256 := by
      rw [vmtotal,steady t mem_cons_self,loadav_eq low high few]
    have nearer : settled i (vmtotal a t i) n = settled i (a i) n ∧ vmtotal a t i - settled i (a i) n ≤ later.length ∧
        settled i (a i) n - vmtotal a t i ≤ later.length ∧ 0 ≤ vmtotal a t i ∧ vmtotal a t i ≤ 256 * 127 := by
      rcases cexp_gap i with ⟨c,g⟩ | ⟨c,g⟩ | ⟨c,g⟩ <;> simp only [next,settled,c,g] at * <;> omega
    obtain ⟨same,above,below,low,high⟩ := nearer
    rw [foldl_cons,ih (fun t member => steady t (mem_cons_of_mem _ member)) _ low high (by rwa [same]) (by rwa [same]),same]

/-- An average never leaves the numbers of processes that there were, and no count overflows. While `n` of them run it goes down
to `n`, but what is below comes to rest at `gap` before it. -/
theorem averages_settle (small : nproc ≤ 127) (early later : List (List Proc)) (fits : ∀ t ∈ early ++ later, t.length ≤ nproc)
    (steady : ∀ t ∈ later, t.countP Proc.counted = n) (long : 256 * nproc < later.length) (i : Fin 3) :
    0 ≤ avenrun early i ∧ avenrun early i ≤ 256 * nproc ∧
      (∀ t : List Proc, t.length ≤ nproc → vmtotal (avenrun early) t i =
        (cexp i * (avenrun early i - t.countP Proc.counted * 256) + t.countP Proc.counted * 65536) / 256) ∧
      avenrun (early ++ later) i = max (256 * n - gap i) (min (avenrun early i) (256 * n)) := by
  have few : ∀ t ∈ early ++ later, t.countP Proc.counted ≤ nproc := fun t member => countP_le_length.trans (fits t member)
  have kept : 0 ≤ avenrun early i ∧ avenrun early i ≤ 256 * nproc := by
    refine foldlRecOn (motive := fun a : Fin 3 → Int => 0 ≤ a i ∧ a i ≤ 256 * nproc) early _ (by simp) fun a kept t member => ?_
    have load := few t (mem_append_left _ member)
    rw [vmtotal,loadav_eq kept.1 (by omega) (load.trans small)]
    rcases cexp_gap i with ⟨c,-⟩ | ⟨c,-⟩ | ⟨c,-⟩ <;> rw [c] <;> omega
  refine ⟨kept.1,kept.2,fun t inside => ?_,?_⟩
  · have load : t.countP Proc.counted ≤ t.length := countP_le_length
    rw [vmtotal,loadav_eq kept.1 (by omega) (by omega)]
    rcases cexp_gap i with ⟨c,-⟩ | ⟨c,-⟩ | ⟨c,-⟩ <;> rw [c] <;> omega
  obtain ⟨t,member⟩ := exists_mem_of_length_pos (Nat.zero_lt_of_lt long)
  have load := few t (mem_append_right _ member)
  rw [steady t member] at load
  have run : avenrun (early ++ later) = later.foldl vmtotal (avenrun early) := foldl_append
  rw [run]
  refine vmtotal_settles (by omega) later steady _ kept.1 (by omega) ?_ ?_ <;> rw [settled] <;>
    rcases cexp_gap i with ⟨-,g⟩ | ⟨-,g⟩ | ⟨-,g⟩ <;> rw [g] <;> omega

theorem averages_settle_idle : let early := [[],[⟨.run,false,false⟩]]; let later := replicate 257 []
    0 ≤ avenrun early 2 ∧ avenrun early 2 ≤ 256 * 1 ∧
      avenrun (early ++ later) 2 = max (256 * 0 - gap 2) (min (avenrun early 2) (256 * 0)) := by
  obtain ⟨low,high,_,rest⟩ := averages_settle (by decide : 1 ≤ 127) [[],[⟨.run,false,false⟩]] (replicate 257 [])
    (forall_mem_append.mpr ⟨by decide,fun _ member => by simp [eq_of_mem_replicate member]⟩)
    (fun _ member => by rw [eq_of_mem_replicate member]) (by rw [length_replicate]; decide) 2
  exact ⟨low,high,rest⟩

end Retrobsd.LoadAverages
