import Retrobsd.MallocArena

/-! What the calls of `malloc.c` do to the arena: the top is raised, a free segment is
divided, a block is let go or has its words written. -/
namespace Retrobsd.Malloc
open List
open Function
open Lib.Segments

section
variable {m m' : Memory} {granted granted' : Nat → Prop} {allocs top a nw : Nat} {k : Kind}
  {segs l r : List (Nat × Kind)} {b : Block}

theorem Fits.mono {e : Nat} (fits : Fits m granted a k e) (more : ∀ x, granted x → granted' x) : Fits m granted' a k e :=
  ⟨fits.order,fits.word,fun x other from_ to_ => more x (fits.inside x other from_ to_),fits.size,fits.data⟩

theorem setbusy_pointer (x : Nat) : setbusy (pointer x) = 4 * x + 1 := by
  unfold setbusy pointer
  omega

theorem Shown.extend {s : State} (shown : Shown s.memory granted s.allocs s.alloct segs) {q temp : Nat} (above : s.alloct < q)
    (large : 2 ≤ temp) : Shown (s.extend q temp).memory (fun x => granted x ∨ q ≤ x ∧ x < q + temp) s.allocs (q + temp - 1)
      (segs ++ [(s.alloct,if q ≠ s.alloct + 1 then .gap else .free),(q,.free)]) := by
  have memory : ∀ x, x < s.alloct → (s.extend q temp).memory x = s.memory x := by
    intro x below
    show update (update (update s.memory s.alloct _) q _) (q + temp - 1) _ x = _
    rw [update_of_ne (by omega),update_of_ne (by omega),update_of_ne (by omega)]
  have link : (s.extend q temp).memory s.alloct = if q ≠ s.alloct + 1 then setbusy (pointer q) else pointer q := by
    show update (update (update s.memory s.alloct _) q _) (q + temp - 1) _ s.alloct = _
    rw [update_of_ne (by omega),update_of_ne (by omega),update_self]
  have head : (s.extend q temp).memory q = pointer (q + temp - 1) := by
    show update (update _ q _) (q + temp - 1) _ q = _
    rw [update_of_ne (by omega),update_self]
  have last : (s.extend q temp).memory (q + temp - 1) = setbusy (pointer s.allocs) := update_self _ _ _
  refine ⟨?_,?_,?_,fun c k member => ?_,.inr (.inr (by omega))⟩
  · rw [every_append]
    refine ⟨?_,⟨above,?_,fun x other from_ to_ => ?_,fun c live => ?_,fun c i v live => ?_⟩,⟨?_,?_,fun x _ from_ to_ => ?_,
      fun _ live => (nomatch live),fun _ _ _ live => (nomatch live)⟩,trivial⟩
    · exact (every_congr shown.every fun x _ below => memory x below).imp Fits.order fun _ _ _ _ _ _ fits =>
        fits.mono fun _ => .inl
    · rw [link]
      split_ifs with gap
      · exact setbusy_pointer q
      · rfl
    · have from_' : s.alloct < x := from_
      have to_' : x < q := to_
      split_ifs at other with gap
      · exact absurd rfl other
      · omega
    · split_ifs at live
    · split_ifs at live
    · show q < q + temp - 1
      omega
    · rw [head]
      rfl
    · have to_' : x < q + temp - 1 := to_
      exact .inr ⟨from_.le,by omega⟩
  · obtain ⟨rest,rfl⟩ := shown.start
    exact ⟨_,rfl⟩
  · rw [last]
    exact setbusy_pointer _
  · rcases mem_append.mp member with old | new
    · exact (shown.headers c k old).imp_right (Or.imp_right .inl)
    rcases mem_cons.mp new with same | new
    · obtain ⟨rfl,_⟩ := Prod.mk.inj same
      exact shown.topmost.elim (fun low => .inr (.inl low)) fun there => .inr (.inr (.inl there))
    obtain ⟨rfl,_⟩ := Prod.mk.inj (mem_singleton.mp new)
    exact .inr (.inr (.inr ⟨Nat.le_refl _,by omega⟩))

theorem Shown.release (shown : Shown m granted allocs top (l ++ (a,.live b) :: r)) :
    Shown (update m a (clearbusy (m a))) granted allocs top (l ++ (a,.free) :: r) := by
  obtain ⟨fits,_⟩ := (every_append.mp shown.every).2
  have one : Shown m granted allocs top (l ++ ([(a,.live b)] ++ r)) := shown
  have order : a < Lib.Segments.first top r := fits.order
  refine one.replace [(a,.free)] (shown.later (by simp)) (fun x outside => ?_) rfl
    ⟨⟨order,?_,fun x _ => ?_,fun _ live => (nomatch live),
    fun _ _ _ live => (nomatch live)⟩,trivial⟩ fun c k member => ?_
  · have apart : x < a ∨ Lib.Segments.first top r ≤ x := outside
    exact update_of_ne (by omega) _ _
  · rw [update_self,fits.word]
    simp only [Kind.busy,clearbusy,Lib.Segments.first]
    omega
  · exact fits.inside x (by simp)
  · obtain ⟨rfl,_⟩ := Prod.mk.inj (mem_singleton.mp member)
    exact shown.headers c (.live b) (by simp)

theorem Shown.write (shown : Shown m granted allocs top (l ++ (a,.live b) :: r)) (b' : Block)
    (same : ∀ x, x ≤ a ∨ Lib.Segments.first top r ≤ x → m' x = m x) (size : b'.nbytes ≤ 4 * (Lib.Segments.first top r - (a + 1)))
    (data : ∀ i v, b'.data i = some v → 4 * i < b'.nbytes ∧ m' (a + 1 + i) = v) :
    Shown m' granted allocs top (l ++ (a,.live b') :: r) := by
  obtain ⟨fits,_⟩ := (every_append.mp shown.every).2
  have one : Shown m granted allocs top (l ++ ([(a,.live b)] ++ r)) := shown
  refine one.replace [(a,.live b')] (shown.later (by simp)) (fun x outside => ?_) rfl
    ⟨⟨fits.order,?_,fun x _ => ?_,fun c live => ?_,
    fun c i v live => ?_⟩,trivial⟩ fun c k member => ?_
  · exact same x (outside.imp_left Nat.le_of_lt)
  · rw [same a (.inl (Nat.le_refl a))]
    exact fits.word
  · exact fits.inside x (by simp)
  · cases live
    exact size
  · cases live
    exact data i v
  · obtain ⟨rfl,_⟩ := Prod.mk.inj (mem_singleton.mp member)
    exact shown.headers c (.live b) (by simp)

theorem Shown.take {s : State} (shown : Shown s.memory granted s.allocs s.alloct (l ++ (a,.free) :: r)) (b : Block)
    (room : a + nw ≤ Lib.Segments.first s.alloct r) (some_ : 1 ≤ nw) (size : b.nbytes ≤ 4 * (nw - 1))
    (data : ∀ i, b.data i = none) :
    ∃ r', Shown (s.take a nw).memory granted s.allocs s.alloct (l ++ (a,.live b) :: r') ∧
      (a + nw = Lib.Segments.first s.alloct r ∧ r' = r ∧ (∀ x, x ≠ a → (s.take a nw).memory x = s.memory x) ∨
        a + nw < Lib.Segments.first s.alloct r ∧ r' = (a + nw,.free) :: r ∧ (s.take a nw).allocx = s.memory (a + nw) ∧
          ∀ x, x ≠ a → x ≠ a + nw → (s.take a nw).memory x = s.memory x) := by
  obtain ⟨fits,_⟩ := (every_append.mp shown.every).2
  have word : s.memory a = 4 * Lib.Segments.first s.alloct r + Kind.free.busy := fits.word
  have next : target (s.memory a) = Lib.Segments.first s.alloct r := by rw [word,target_word]
  have one : Shown s.memory granted s.allocs s.alloct (l ++ ([(a,.free)] ++ r)) := shown
  have new : ∀ {m' : Memory}, m' a = setbusy (pointer (a + nw)) → Fits m' granted a (.live b) (a + nw) := by
    intro m' head
    refine ⟨by omega,head.trans (setbusy_pointer _),fun x _ from_ to_ => fits.inside x (by simp) from_ (lt_of_lt_of_le to_ room),
      fun c live => ?_,fun c i v live stored => ?_⟩
    · cases live
      omega
    cases live
    rw [data] at stored
    cases stored
  rcases room.eq_or_lt with exact_ | more
  · have memory : (s.take a nw).memory = update s.memory a (setbusy (pointer (a + nw))) := by
      simp [State.take,next,exact_]
    refine ⟨r,?_,.inl ⟨exact_,rfl,fun x other => by rw [memory,update_of_ne other]⟩⟩
    refine one.replace [(a,.live b)] (shown.later (by simp)) (fun x outside => ?_) rfl ⟨?_,trivial⟩ fun c k member => ?_
    · have apart : x < a ∨ Lib.Segments.first s.alloct r ≤ x := outside
      rw [memory,update_of_ne (by omega)]
    · have ends : Lib.Segments.first (Lib.Segments.first s.alloct r) ([] : List (Nat × Kind)) = a + nw := exact_.symm
      rw [ends]
      exact new (by rw [memory,update_self])
    · obtain ⟨rfl,_⟩ := Prod.mk.inj (mem_singleton.mp member)
      exact shown.headers c .free (by simp)
  have memory : (s.take a nw).memory = update (update s.memory (a + nw) (s.memory a)) a (setbusy (pointer (a + nw))) := by
    simp only [State.take,next,gt_iff_lt,if_pos more]
  have allocx : (s.take a nw).allocx = s.memory (a + nw) := by
    simp only [State.take,next,gt_iff_lt,if_pos more]
  refine ⟨(a + nw,.free) :: r,?_,.inr ⟨more,rfl,allocx,fun x other apart => by
    rw [memory,update_of_ne other,update_of_ne apart]⟩⟩
  refine one.replace [(a,.live b),(a + nw,.free)] (shown.later (by simp)) (fun x outside => ?_) rfl
    ⟨?_,⟨more,?_,fun x _ from_ to_ => ?_,
    fun _ live => (nomatch live),fun _ _ _ live => (nomatch live)⟩,trivial⟩ fun c k member => ?_
  · have apart : x < a ∨ Lib.Segments.first s.alloct r ≤ x := outside
    rw [memory,update_of_ne (by omega),update_of_ne (by omega)]
  · exact new (by rw [memory,update_self])
  · rw [memory,update_of_ne (by omega),update_self]
    exact word
  · exact fits.inside x (by simp) (by omega) to_
  · rcases mem_cons.mp member with same | other
    · obtain ⟨rfl,_⟩ := Prod.mk.inj same
      exact shown.headers c .free (by simp)
    obtain ⟨rfl,_⟩ := Prod.mk.inj (mem_singleton.mp other)
    exact .inr (.inr (fits.inside _ (by simp) (by omega) more))

end

structure Arena (s : State) (granted : Nat → Prop) (segs : List (Nat × Kind)) : Prop where
  shown : Shown s.memory granted s.allocs s.alloct segs
  below : s.alloct < s.brk
  bounded : s.brk ≤ space

def Within (regions : List (Nat × Nat)) (x : Nat) : Prop := ∃ g ∈ regions, g.1 ≤ x ∧ x < g.1 + g.2

/-- A block that a search has made, and what it has left of the memory below the old top. -/
structure Made (s s' : State) (segs segs' : List (Nat × Kind)) (nw : Nat) (b : Block) (a : Nat) : Prop where
  split : ∃ l r, segs' = l ++ (a,.live b) :: r ∧ first s'.alloct r = a + nw ∧ ∀ c d, (c,.live d) ∈ l ++ r ↔ (c,.live d) ∈ segs
  place : (∃ k, (a,k) ∈ segs) ∨ s.alloct ≤ a
  kept : ∀ x, x < s.alloct → (∀ k, (x,k) ∉ segs) → (x ≠ a + nw → s'.memory x = s.memory x) ∧
    (x = a + nw → s'.allocx = s.memory x)

structure Outcome (s : State) (segs : List (Nat × Kind)) (nw : Nat) (b : Block) (base : Nat → Prop) (res : Result) : Prop where
  allocs : res.state.allocs = s.allocs
  arena : ∃ segs', Arena res.state (fun x => Within res.regions x ∨ base x) segs' ∧ match res.block with
    | none => ∀ a c, (a,.live c) ∈ segs' ↔ (a,.live c) ∈ segs
    | some p => ∃ a, p = a + 1 ∧ Made s res.state segs segs' nw b a

section
variable {s : State} {granted base : Nat → Prop} {nw : Nat} {b : Block} {segs segs' : List (Nat × Kind)}

theorem Shown.mono {granted' : Nat → Prop} {m : Memory} {allocs top : Nat} (shown : Shown m granted allocs top segs)
    (more : ∀ x, granted x → granted' x) : Shown m granted' allocs top segs :=
  ⟨shown.every.imp Fits.order fun _ _ _ _ _ _ fits => fits.mono more,shown.start,shown.around,
    fun a k member => (shown.headers a k member).imp_right (Or.imp_right (more a)),shown.topmost.imp_right (more top)⟩

theorem Shown.length_lt {m : Memory} {allocs top : Nat} (shown : Shown m granted allocs top segs) : segs.length ≤ top := by
  have long := shown.every.length_le Fits.order
  omega

theorem Swept.live_iff {m m' : Memory} (swept : Swept m m' segs segs') (a : Nat) (c : Block) :
    (a,Kind.live c) ∈ segs' ↔ (a,Kind.live c) ∈ segs :=
  ⟨swept.fewer _,swept.live a c⟩

theorem Outcome.raised {m : Memory} {q temp : Nat} {res : Result} (swept : Swept s.memory m segs segs')
    (above : s.alloct < q) (large : 2 ≤ temp) {k : Kind} (idle : ∀ c, k ≠ .live c)
    (outcome : Outcome (({s with memory := m} : State).extend q temp) (segs' ++ [(s.alloct,k),(q,.free)]) nw b base res) :
    Outcome s segs nw b base res := by
  obtain ⟨statics,segs'',arena,result⟩ := outcome
  have live : ∀ a c, (a,Kind.live c) ∈ segs' ++ [(s.alloct,k),(q,.free)] ↔ (a,Kind.live c) ∈ segs := by
    intro a c
    rw [← swept.live_iff a c]
    refine ⟨fun member => ?_,mem_append_left _⟩
    rcases mem_append.mp member with old | new
    · exact old
    rcases mem_cons.mp new with same | new
    · exact absurd (Prod.mk.inj same).2.symm (idle c)
    · exact nomatch (Prod.mk.inj (mem_singleton.mp new)).2
  refine ⟨statics,segs'',arena,?_⟩
  cases block : res.block with
  | none =>
    rw [block] at result
    exact fun a c => (result a c).trans (live a c)
  | some p =>
    rw [block] at result
    obtain ⟨a,rfl,⟨l,r,parts,ends,lives⟩,place,kept⟩ := result
    refine ⟨a,rfl,⟨l,r,parts,ends,fun c d => (lives c d).trans (live c d)⟩,?_,fun x low absent => ?_⟩
    · rcases place with ⟨k',member⟩ | high
      · rcases mem_append.mp member with old | new
        · exact .inl ⟨k',swept.fewer _ old⟩
        rcases mem_cons.mp new with same | new
        · exact .inr (Nat.le_of_eq (Prod.mk.inj same).1.symm)
        obtain ⟨rfl,_⟩ := Prod.mk.inj (mem_singleton.mp new)
        exact .inr above.le
      · have top : (({s with memory := m} : State).extend q temp).alloct = q + temp - 1 := rfl
        exact .inr (by omega)
    have memory : (({s with memory := m} : State).extend q temp).memory x = s.memory x := by
      show update (update (update m s.alloct _) q _) (q + temp - 1) _ x = _
      rw [update_of_ne (by omega),update_of_ne (by omega),update_of_ne (by omega)]
      exact swept.kept x absent
    have top : (({s with memory := m} : State).extend q temp).alloct = q + temp - 1 := rfl
    rw [← memory]
    refine kept x (by omega) fun k' member => ?_
    rcases mem_append.mp member with old | new
    · exact absent k' (swept.fewer _ old)
    rcases mem_cons.mp new with same | new
    · exact absurd (Prod.mk.inj same).1 (by omega)
    · exact absurd (Prod.mk.inj (mem_singleton.mp new)).1 (by omega)

end

end Retrobsd.Malloc
