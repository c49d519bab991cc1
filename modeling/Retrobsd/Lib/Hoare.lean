import Retrobsd.Lib.Indices

/-! Pre- and postconditions for programs with a state and errors. A program may
end in an error that `stops` admits; any other error refutes the triple. -/
namespace Retrobsd.Lib.Hoare

variable {σ ε α β : Type}

def Triple (stops : ε → Prop) (pre : σ → Prop) (c : StateT σ (Except ε) α) (post : α → σ → Prop) : Prop :=
  ∀ s, pre s → (∃ a t, c s = .ok (a,t) ∧ post a t) ∨ ∃ e, c s = .error e ∧ stops e

variable {stops : ε → Prop} {pre : σ → Prop}

variable {post : α → σ → Prop} {c : StateT σ (Except ε) α} {d : α → StateT σ (Except ε) β} {p : Prop}

theorem Triple.pure (a : α) (holds : ∀ s, pre s → post a s) :
    Triple stops pre (Pure.pure a) post := fun s start => .inl ⟨a,s,rfl,holds s start⟩

theorem Triple.keep {a : α} : Triple stops pre (Pure.pure a) fun _ => pre := Triple.pure a fun _ start => start

theorem bind_ok {s t : σ} {a : α} (done : c s = .ok (a,t)) : (c >>= d) s = d a t := by
  simp [bind,StateT.bind,done,Except.bind]

theorem bind_error {s : σ} {e : ε} (failed : c s = .error e) : (c >>= d) s = .error e := by
  simp [bind,StateT.bind,failed,Except.bind]

theorem Triple.bind {middle : α → σ → Prop} {post : β → σ → Prop} (first : Triple stops pre c middle)
    (second : ∀ a, Triple stops (middle a) (d a) post) : Triple stops pre (c >>= d) post := by
  intro s start
  rcases first s start with ⟨a,t,done,between⟩ | ⟨e,failed,known⟩
  · rw [bind_ok done]
    exact second a t between
  · exact .inr ⟨e,bind_error failed,known⟩

theorem Triple.weaken {pre' : σ → Prop} {post' : α → σ → Prop}
    (triple : Triple stops pre c post) (before : ∀ s, pre' s → pre s) (after : ∀ a s, post a s → post' a s) :
    Triple stops pre' c post' := by
  intro s start
  rcases triple s (before s start) with ⟨a,t,done,final⟩ | stopped
  · exact .inl ⟨a,t,done,after a t final⟩
  · exact .inr stopped

theorem Triple.ite [Decidable p] {d : StateT σ (Except ε) α} (yes : p → Triple stops pre c post)
    (no : ¬ p → Triple stops pre d post) :
    Triple stops pre (if p then c else d) post := by
  split_ifs with holds
  · exact yes holds
  · exact no holds

theorem Triple.absurd (never : ∀ s, ¬ pre s) : Triple stops pre c post := fun s start => (never s start).elim

theorem Triple.assume (fact : ∀ s, pre s → p) (triple : p → Triple stops pre c post) : Triple stops pre c post :=
  fun s start => triple (fact s start) s start

/-- What a program gives from a state, if it ends without an error. -/
def Yields (c : StateT σ (Except ε) α) (s : σ) (post : α → σ → Prop) : Prop := ∀ a t, c s = .ok (a,t) → post a t

variable {s : σ} {post : α → σ → Prop}

@[simp] theorem yields_pure (a : α) : Yields (Pure.pure a : StateT σ (Except ε) α) s post ↔ post a s := by
  constructor
  · exact fun yields => yields a s rfl
  rintro holds b t done
  cases done
  exact holds

@[simp] theorem yields_bind {post : β → σ → Prop} :
    Yields (c >>= d) s post ↔ Yields c s fun a t => Yields (d a) t post := by
  constructor
  · intro yields a t done b u next
    exact yields b u ((bind_ok done).trans next)
  intro yields b u done
  cases first : c s with
  | error e =>
    rw [bind_error first] at done
    cases done
  | ok r =>
    obtain ⟨a,t⟩ := r
    rw [bind_ok first] at done
    exact yields a t first b u done

@[simp] theorem yields_map {f : α → β} {post : β → σ → Prop} :
    Yields (f <$> c) s post ↔ Yields c s fun a => post (f a) := by
  rw [← bind_pure_comp,yields_bind]
  simp only [yields_pure]

@[simp] theorem yields_throw (e : ε) : Yields (throw e : StateT σ (Except ε) α) s post := by
  intro a t done
  cases done

@[simp] theorem yields_get {post : σ → σ → Prop} : Yields (get : StateT σ (Except ε) σ) s post ↔ post s s := by
  constructor
  · exact fun yields => yields s s rfl
  rintro holds a t done
  cases done
  exact holds

@[simp] theorem yields_modify {f : σ → σ} {post : PUnit → σ → Prop} :
    Yields (modify f : StateT σ (Except ε) PUnit) s post ↔ post ⟨⟩ (f s) := by
  constructor
  · exact fun yields => yields ⟨⟩ (f s) rfl
  rintro holds a t done
  cases done
  exact holds

theorem Yields.ite [Decidable p] {d : StateT σ (Except ε) α} (yes : p → Yields c s post) (no : ¬ p → Yields d s post) :
    Yields (if p then c else d) s post := by
  split_ifs with holds
  · exact yes holds
  · exact no holds

theorem Yields.imp {weaker : α → σ → Prop} (yields : Yields c s post)
    (implied : ∀ a t, post a t → weaker a t) : Yields c s weaker :=
  fun a t done => implied a t (yields a t done)

theorem yields_self (c : StateT σ (Except ε) α) : Yields c s fun a t => c s = .ok (a,t) := fun _ _ done => done

theorem Yields.and {other : α → σ → Prop} (yields : Yields c s post) (also : Yields c s other) :
    Yields c s fun a t => post a t ∧ other a t :=
  fun a t done => ⟨yields a t done,also a t done⟩

end Retrobsd.Lib.Hoare
