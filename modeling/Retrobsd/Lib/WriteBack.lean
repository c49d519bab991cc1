import Retrobsd.Lib.Indices

/-! Buffers over a disk that are written back when they are given up. Each may hold copies of many blocks and modifies
those at home in it. As long as no block is modified while another buffer holds it, the disk comes to what the
modifications make of it, one after the other. -/
namespace Retrobsd.Lib.WriteBack
open Function

variable {ι κ β : Type}

structure Buffer (κ β : Type) where
  copy : κ → Option β
  dirty : Bool

structure Store (ι κ β : Type) where
  disk : κ → β
  bufs : ι → Buffer κ β

/-- Every copy is what the modifications have made of its block, and so is the disk where no dirty buffer has a copy of a
block at home in it. -/
structure Coherent (home : ι → κ → Prop) (made : κ → β) (s : Store ι κ β) : Prop where
  copies : ∀ i k v, (s.bufs i).copy k = some v → v = made k
  rest : ∀ k, (∀ i, (s.bufs i).dirty = true → home i k → (s.bufs i).copy k = none) → s.disk k = made k

variable {home : ι → κ → Prop} {made : κ → β} {s : Store ι κ β} {i : ι}

theorem Coherent.settled (coherent : Coherent home made s) (clean : ∀ i, (s.bufs i).dirty = false) : s.disk = made := by
  funext k
  refine coherent.rest k fun i dirty _ => ?_
  rw [clean i] at dirty
  cases dirty

theorem Coherent.release {t : Store ι κ β} (coherent : Coherent home made s) (disk : ∀ k, t.disk k = s.disk k)
    (fewer : ∀ i k v, (t.bufs i).copy k = some v → (s.bufs i).copy k = some v)
    (kept : ∀ i, (s.bufs i).dirty = true → (t.bufs i).dirty = true ∧ ∀ k, (t.bufs i).copy k = (s.bufs i).copy k) :
    Coherent home made t := by
  refine ⟨fun i k v held => coherent.copies i k v (fewer i k v held),fun k rest => ?_⟩
  rw [disk]
  refine coherent.rest k fun i dirty own => ?_
  obtain ⟨dirty,same⟩ := kept i dirty
  rw [← same]
  exact rest i dirty own

theorem Coherent.release_at {t : Store ι κ β} (coherent : Coherent home made s) (i : ι)
    (others : ∀ j, j ≠ i → t.bufs j = s.bufs j)
    (disk : ∀ k, t.disk k = s.disk k) (fewer : ∀ k v, (t.bufs i).copy k = some v → (s.bufs i).copy k = some v)
    (kept : (s.bufs i).dirty = true → (t.bufs i).dirty = true ∧ ∀ k, (t.bufs i).copy k = (s.bufs i).copy k) :
    Coherent home made t := by
  refine coherent.release disk (fun j k v held => ?_) fun j dirty => ?_
  · by_cases here : j = i
    · subst here
      exact fewer k v held
    · rwa [← others j here]
  · by_cases here : j = i
    · subst here
      exact kept dirty
    · rw [others j here]
      exact ⟨dirty,fun _ => rfl⟩

theorem Coherent.flushed {t : Store ι κ β} (coherent : Coherent home made s) (i : ι) (others : ∀ j, j ≠ i → t.bufs j = s.bufs j)
    (disk : ∀ k, t.disk k = ((s.bufs i).copy k).getD (s.disk k))
    (fewer : ∀ k v, (t.bufs i).copy k = some v → (s.bufs i).copy k = some v) : Coherent home made t := by
  refine ⟨fun j k v held => ?_,fun k rest => ?_⟩
  · by_cases here : j = i
    · subst here
      exact coherent.copies j k v (fewer k v held)
    · rw [others j here] at held
      exact coherent.copies j k v held
  rw [disk]
  cases held : (s.bufs i).copy k with
  | some v => exact coherent.copies i k v held
  | none =>
    refine coherent.rest k fun j dirty own => ?_
    by_cases here : j = i
    · rwa [here]
    · rw [← others j here] at dirty ⊢
      exact rest j dirty own

theorem Coherent.loaded {t : Store ι κ β} (coherent : Coherent home made s) (ks : κ → Prop) (clean : (s.bufs i).dirty = false)
    (apart : ∀ j ≠ i, ∀ k, ks k → (s.bufs j).dirty = true → home j k → (s.bufs j).copy k = none)
    (others : ∀ j, j ≠ i → t.bufs j = s.bufs j) (disk : ∀ k, t.disk k = s.disk k)
    (fewer : ∀ k v, (t.bufs i).copy k = some v → ks k ∧ v = s.disk k) : Coherent home made t := by
  refine ⟨fun j k v held => ?_,fun k rest => ?_⟩
  · by_cases here : j = i
    · subst here
      obtain ⟨wanted,rfl⟩ := fewer k v held
      refine coherent.rest k fun j' dirty own => ?_
      by_cases same : j' = j
      · rw [same,clean] at dirty
        cases dirty
      · exact apart j' same k wanted dirty own
    · rw [others j here] at held
      exact coherent.copies j k v held
  rw [disk]
  refine coherent.rest k fun j dirty own => ?_
  by_cases here : j = i
  · rw [here,clean] at dirty
    cases dirty
  · rw [← others j here] at dirty ⊢
    exact rest j dirty own

variable [DecidableEq κ]

theorem Coherent.write {t : Store ι κ β} (coherent : Coherent home made s) {k : κ} (v : β)
    (apart : ∀ j, (s.bufs j).copy k = none)
    (disk : t.disk = update s.disk k v) (bufs : t.bufs = s.bufs) : Coherent home (update made k v) t := by
  refine ⟨fun j q w there => ?_,fun q clean => ?_⟩
  · rw [bufs] at there
    have other : q ≠ k := by
      rintro rfl
      rw [apart j] at there
      cases there
    rw [update_of_ne other]
    exact coherent.copies j q w there
  rw [bufs] at clean
  rw [disk,update_apply,update_apply]
  split
  next => rfl
  next => exact coherent.rest q clean

theorem Coherent.stored {t : Store ι κ β} (coherent : Coherent home made s) {k : κ} (v : β) (own : home i k)
    (apart : ∀ j ≠ i, (s.bufs j).copy k = none) (others : ∀ j, j ≠ i → t.bufs j = s.bufs j) (disk : ∀ k, t.disk k = s.disk k)
    (copied : ∀ q, (t.bufs i).copy q = update (s.bufs i).copy k (some v) q) (dirty : (t.bufs i).dirty = true) :
    Coherent home (update made k v) t := by
  refine ⟨fun j q w there => ?_,fun q clean => ?_⟩
  · by_cases here : j = i
    · subst here
      rw [copied,update_apply] at there
      rw [update_apply]
      split at there
      next same =>
        rw [if_pos same]
        exact (Option.some.inj there).symm
      next other =>
        rw [if_neg other]
        exact coherent.copies j q w there
    · rw [others j here] at there
      have other : q ≠ k := by
        rintro rfl
        rw [apart j here] at there
        cases there
      rw [update_of_ne other]
      exact coherent.copies j q w there
  have mine := clean i dirty
  rw [copied] at mine
  by_cases this : q = k
  · have absent := mine (this ▸ own)
    rw [this,update_self] at absent
    cases absent
  rw [update_of_ne this] at mine ⊢
  rw [disk]
  refine coherent.rest q fun j dirty there => ?_
  by_cases here : j = i
  · rw [here] at there ⊢
    exact mine there
  · rw [← others j here] at dirty ⊢
    exact clean j dirty there

end Retrobsd.Lib.WriteBack
