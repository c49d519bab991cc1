import Retrobsd.Lib.Indices

/-! Runs of a fallible transition function and the rules that carry an invariant
along them. Nothing here depends on a particular machine: states, operations and
faults are arbitrary types. -/
namespace Retrobsd.Lib.Run

def run {σ ο ε : Type} (step : σ → ο → Except ε σ) : σ → List ο → Except ε σ
  | s,[] => .ok s
  | s,op :: ops => match step s op with
    | .error e => .error e
    | .ok t => run step t ops

/-- Each operation of the list is allowed in the state that it meets. -/
def Along {σ ο ε : Type} (step : σ → ο → Except ε σ) (allowed : σ → ο → Prop) : σ → List ο → Prop
  | _,[] => True
  | s,op :: ops => allowed s op ∧ ∀ t, step s op = .ok t → Along step allowed t ops

variable {σ ο ε : Type} {step : σ → ο → Except ε σ}

theorem except_bind_ok {α β : Type} {first : Except ε α} {next : α → Except ε β} {result : β}
    (ok : first.bind next = .ok result) : ∃ value, first = .ok value ∧ next value = .ok result := by
  cases first with
  | error e => cases ok
  | ok value => exact ⟨value,rfl,ok⟩

theorem except_map_ok {α β : Type} {first : Except ε α} {f : α → β} {result : β} (ok : first.map f = .ok result) :
    ∃ value, first = .ok value ∧ f value = result := by
  cases first with
  | error e => cases ok
  | ok value => exact ⟨value,rfl,Except.ok.inj ok⟩

/-- A test of what a fallible computation returns, which can be evaluated. -/
def returns {α : Type} (test : α → Bool) : Except ε α → Bool
  | .ok value => test value
  | .error _ => false

theorem of_returns {α : Type} {test : α → Bool} {result : Except ε α} (passed : returns test result = true) :
    ∃ value, result = .ok value ∧ test value = true := by
  cases result with
  | error e => cases passed
  | ok value => exact ⟨value,rfl,passed⟩

def fault {α : Type} : Except ε α → Option ε
  | .ok _ => none
  | .error e => some e

theorem of_fault {α : Type} {e : ε} {result : Except ε α} (failed : fault result = some e) : result = .error e := by
  cases result with
  | error other => exact congrArg Except.error (Option.some.inj failed)
  | ok value => cases failed

theorem run_cons_ok {s t : σ} {op : ο} (ops : List ο) (ok : step s op = .ok t) : run step s (op :: ops) = run step t ops := by
  simp [run,ok]

theorem run_cons_error {s : σ} {op : ο} {e : ε} (ops : List ο) (failed : step s op = .error e) :
    run step s (op :: ops) = .error e := by
  simp [run,failed]

theorem of_run_cons {s t : σ} {op : ο} {ops : List ο} (ended : run step s (op :: ops) = .ok t) :
    ∃ next, step s op = .ok next ∧ run step next ops = .ok t := by
  cases ok : step s op with
  | error e => rw [run_cons_error ops ok] at ended; cases ended
  | ok next => exact ⟨next,rfl,run_cons_ok ops ok ▸ ended⟩

theorem run_append_ok (ops later : List ο) {s t : σ} (ended : run step s ops = .ok t) :
    run step s (ops ++ later) = run step t later := by
  induction ops generalizing s with
  | nil => cases ended; rfl
  | cons op ops ih =>
    obtain ⟨next,ok,ended⟩ := of_run_cons ended
    rw [List.cons_append,run_cons_ok _ ok,ih ended]

variable {allowed : σ → ο → Prop}

theorem Along.imp {weaker : σ → ο → Prop} (implied : ∀ s op, allowed s op → weaker s op) :
    ∀ {s : σ} {ops : List ο}, Along step allowed s ops → Along step weaker s ops
  | _,[],_ => trivial
  | _,_ :: _,along => ⟨implied _ _ along.1,fun t ok => Along.imp implied (along.2 t ok)⟩

theorem Along.of_forall {allowed : ο → Prop} :
    ∀ {ops : List ο} (s : σ), (∀ op ∈ ops, allowed op) → Along step (fun _ op => allowed op) s ops
  | [],_,_ => trivial
  | _ :: _,_,all => ⟨all _ List.mem_cons_self,fun t _ => Along.of_forall t fun op member =>
    all op (List.mem_cons_of_mem _ member)⟩

theorem Along.and {first second : σ → ο → Prop} : ∀ {s : σ} {ops : List ο}, Along step first s ops → Along step second s ops →
    Along step (fun s op => first s op ∧ second s op) s ops
  | _,[],_,_ => trivial
  | _,_ :: _,one,other => ⟨⟨one.1,other.1⟩,fun t ok => Along.and (one.2 t ok) (other.2 t ok)⟩

instance Along.decidable {allowed : σ → ο → Prop} [∀ s op, Decidable (allowed s op)] :
    ∀ (s : σ) (ops : List ο), Decidable (Along step allowed s ops)
  | _,[] => .isTrue trivial
  | s,op :: ops => match found : step s op with
    | .error _ => decidable_of_iff (allowed s op) (by simp [Along,found])
    | .ok t =>
      have : Decidable (Along step allowed t ops) := Along.decidable t ops
      decidable_of_iff (allowed s op ∧ Along step allowed t ops) (by simp [Along,found])

theorem run_ne_error {e : ε} (ops : List ο) (s : σ) (along : Along step (fun s op => step s op ≠ .error e) s ops) :
    run step s ops ≠ .error e := by
  induction ops generalizing s with
  | nil => simp [run]
  | cons op ops ih =>
    cases ok : step s op with
    | error other =>
      rw [run_cons_error ops ok]
      exact ok ▸ along.1
    | ok t =>
      rw [run_cons_ok ops ok]
      exact ih t (along.2 t ok)

variable {inv : σ → Prop}

/-- Where every allowed operation keeps the invariant or ends in a fault that is
expected of it, a whole allowed run keeps the invariant or ends in such a fault. -/
theorem run_cases {expected : ο → ε → Prop} (progress : ∀ s op, inv s → allowed s op →
      (∃ t, step s op = .ok t ∧ inv t) ∨ ∃ e, step s op = .error e ∧ expected op e)
    (ops : List ο) (s : σ) (start : inv s) (along : Along step allowed s ops) :
    (∃ t, run step s ops = .ok t ∧ inv t) ∨ ∃ op ∈ ops, ∃ e, run step s ops = .error e ∧ expected op e := by
  induction ops generalizing s with
  | nil => exact Or.inl ⟨s,rfl,start⟩
  | cons op ops ih =>
    rcases progress s op start along.1 with ⟨next,ok,kept⟩ | ⟨e,failed,known⟩
    · rw [run_cons_ok ops ok]
      rcases ih next kept (along.2 next ok) with done | ⟨later,member,stopped⟩
      · exact Or.inl done
      · exact Or.inr ⟨later,by simp [member],stopped⟩
    · exact Or.inr ⟨op,by simp,e,run_cons_error ops failed,known⟩

/-- An invariant under which every allowed operation succeeds and which it keeps
carries a whole allowed run to its end. -/
theorem run_total (progress : ∀ s op, inv s → allowed s op → ∃ t, step s op = .ok t ∧ inv t)
    (ops : List ο) (s : σ) (start : inv s) (along : Along step allowed s ops) :
    ∃ t, run step s ops = .ok t ∧ inv t := by
  have cases := @run_cases σ ο ε step allowed inv (fun _ _ => False) (fun s op here now =>
    Or.inl (progress s op here now)) ops s start along
  simpa using cases

/-- Two conditions that agree wherever the invariant holds, one of which keeps
it, hold along the same runs. -/
theorem Along.congr {first second : σ → ο → Prop} (agree : ∀ s op, inv s → allowed s op → (first s op ↔ second s op))
    (preserved : ∀ s op t, inv s → allowed s op → second s op → step s op = .ok t → inv t)
    (ops : List ο) (s : σ) (start : inv s) (along : Along step allowed s ops) :
    Along step first s ops ↔ Along step second s ops := by
  induction ops generalizing s with
  | nil => exact Iff.rfl
  | cons op ops ih =>
    have here := agree s op start along.1
    constructor
    · intro holds
      have now := here.mp holds.1
      exact ⟨now,fun t ok => (ih t (preserved s op t start along.1 now ok) (along.2 t ok)).mp (holds.2 t ok)⟩
    intro holds
    refine ⟨here.mpr holds.1,fun t ok => ?_⟩
    exact (ih t (preserved s op t start along.1 holds.1 ok) (along.2 t ok)).mpr (holds.2 t ok)

theorem Along.results_iff {clean : σ → ο → Prop} {good : σ → Prop}
    (turn : ∀ s op, inv s → allowed s op → ∃ t, step s op = .ok t ∧ (clean s op → inv t) ∧ (good t ↔ clean s op))
    (ops : List ο) (s : σ) (start : inv s) (along : Along step allowed s ops) :
    Along step (fun s op => ∃ t, step s op = .ok t ∧ good t) s ops ↔ Along step clean s ops := by
  refine Along.congr (fun s op here now => ?_) (fun s op t here now holds ok => ?_) ops s start along
  · obtain ⟨t,ran,-,same⟩ := turn s op here now
    rw [ran,← same]
    exact ⟨fun ⟨_,ok,shown⟩ => Except.ok.inj ok ▸ shown,fun shown => ⟨t,rfl,shown⟩⟩
  obtain ⟨t',ran,next,-⟩ := turn s op here now
  cases ran.symm.trans ok
  exact next holds

theorem Along.of_invariant {good : σ → ο → Prop} (here : ∀ s op, inv s → allowed s op → good s op)
    (preserved : ∀ s op t, inv s → allowed s op → step s op = .ok t → inv t)
    (ops : List ο) (s : σ) (start : inv s) (along : Along step allowed s ops) : Along step good s ops := by
  induction ops generalizing s with
  | nil => trivial
  | cons op ops ih =>
    exact ⟨here s op start along.1,fun t ok => ih t (preserved s op t start along.1 ok) (along.2 t ok)⟩

theorem run_invariant (preserved : ∀ s op t, inv s → allowed s op → step s op = .ok t → inv t)
    (ops : List ο) (s t : σ) (start : inv s) (along : Along step allowed s ops)
    (ended : run step s ops = .ok t) : inv t := by
  induction ops generalizing s with
  | nil => cases ended; exact start
  | cons op ops ih =>
    obtain ⟨next,ok,ended⟩ := of_run_cons ended
    exact ih next (preserved s op next start along.1 ok) (along.2 next ok) ended

end Retrobsd.Lib.Run
