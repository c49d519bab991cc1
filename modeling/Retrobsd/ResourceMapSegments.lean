import Retrobsd.ResourceMapExtents

/-! `malloc3` carves three pieces off the free extents or leaves the map alone.
While it searches, the array is described by how much has been taken from each
entry; the addresses follow in a second pass, in the order of the segments. -/
namespace Retrobsd.ResourceMap
open List
open Function
open Lib.Extents

def due (sizes : Fin 3 → Nat) (madd : Fin 3 → Option Nat) (ks : List (Fin 3)) (j : Nat) : Nat :=
  (ks.map (fun k => if madd k = some j then sizes k else 0)).sum

/-- Entries of which `taken` units are gone and whose address has moved by `moved`. -/
def partly (l : List Extent) (taken moved : Nat → Nat) : List Mapent := l.mapIdx (fun j e => ⟨e.len - taken j,e.start + moved j⟩)

def advance (l : List Extent) (moved : Nat → Nat) : List Extent := l.mapIdx (fun j e => ⟨e.start + moved j,e.len - moved j⟩)

variable {limit : Nat} {name : String} {l : List Extent} {rest : List Mapent}

theorem read_partly {taken moved : Nat → Nat} {i : Nat} {e : Extent} (at_i : l[i]? = some e) :
    read ⟨partly l taken moved ++ terminator :: rest,limit,name⟩ i = .ok ⟨e.len - taken i,e.start + moved i⟩ := by
  have inside : i < (partly l taken moved).length := by
    simpa [partly] using (List.getElem?_eq_some_iff.mp at_i).1
  simp only [read,List.getElem?_append_left inside]
  simp [partly,List.getElem?_mapIdx,at_i]

theorem read_partly_end {taken moved : Nat → Nat} :
    read ⟨partly l taken moved ++ terminator :: rest,limit,name⟩ l.length = .ok terminator := by
  have past := @read_middle limit name (partly l taken moved) rest terminator
  simpa [partly] using past

theorem write_partly {taken moved taken' moved' : Nat → Nat} {i : Nat} {e : Extent} (at_i : l[i]? = some e)
    (others : ∀ j, j ≠ i → taken' j = taken j ∧ moved' j = moved j) :
    write ⟨partly l taken moved ++ terminator :: rest,limit,name⟩ i ⟨e.len - taken' i,e.start + moved' i⟩ =
      .ok ⟨partly l taken' moved' ++ terminator :: rest,limit,name⟩ := by
  have inside : i < l.length := (List.getElem?_eq_some_iff.mp at_i).1
  have within : i < (partly l taken moved).length := by simpa [partly] using inside
  have same : (partly l taken moved).set i ⟨e.len - taken' i,e.start + moved' i⟩ = partly l taken' moved' := by
    apply ext_getElem?
    intro j
    by_cases here : j = i
    · subst j
      rw [List.getElem?_set_self within]
      simp [partly,List.getElem?_mapIdx,at_i]
    · rw [List.getElem?_set_ne (Ne.symm here)]
      simp [partly,List.getElem?_mapIdx,others j here]
  simp only [write,length_append,Nat.lt_add_right _ within,if_true,set_append_left _ _ within,same]

theorem carve_advance (moved : Nat → Nat) (i n : Nat) :
    carve i n (advance l moved) = advance l (fun j => moved j + if i = j then n else 0) := by
  apply ext_getElem?
  intro j
  by_cases here : i = j
  · subst j
    cases found : l[i]? with
    | none => simp [carve,advance,List.getElem?_mapIdx,found]
    | some e => simp [carve,advance,List.getElem?_mapIdx,found,Nat.add_assoc,Nat.sub_sub]
  · simp [carve,advance,List.getElem?_mapIdx,here]

theorem advance_zero : advance l (fun _ => 0) = l := by
  apply ext_getElem?
  intro j
  cases found : l[j]? <;> simp [advance,List.getElem?_mapIdx,found]

theorem partly_advance (moved : Nat → Nat) : partly l moved moved = (advance l moved).map entry := by
  apply ext_getElem?
  intro j
  cases found : l[j]? <;> simp [partly,advance,List.getElem?_mapIdx,found,entry]

theorem due_cons (sizes : Fin 3 → Nat) (madd : Fin 3 → Option Nat) (k : Fin 3) (ks : List (Fin 3)) (j : Nat) :
    due sizes madd (k :: ks) j = (if madd k = some j then sizes k else 0) + due sizes madd ks j := by
  simp [due]

theorem of_advance_at {moved : Nat → Nat} {j : Nat} {x : Extent} (at_j : (advance l moved)[j]? = some x) :
    ∃ e, l[j]? = some e ∧ x = ⟨e.start + moved j,e.len - moved j⟩ := by
  simp only [advance,List.getElem?_mapIdx,Option.map_eq_some_iff] at at_j
  obtain ⟨e,at_e,same⟩ := at_j
  exact ⟨e,at_e,same.symm⟩

theorem allocate_first {n i : Nat} {e : Extent} (more : 0 < n) (at_i : l[i]? = some e) (fits : n ≤ e.len)
    (short : ∀ j f, j < i → l[j]? = some f → f.len < n) : allocate n (dropEmpty l) = some (e.start,dropEmpty (carve i n l)) := by
  induction l generalizing i with
  | nil => simp at at_i
  | cons f l ih =>
    cases i with
    | zero =>
      cases Option.some.inj at_i
      have filled : 0 < e.len := by omega
      rw [carve_cons_zero,dropEmpty,filter_cons_of_pos (by simpa using filled),allocate,if_pos fits,dropEmpty]
      by_cases all : e.len = n
      · rw [if_pos all,filter_cons_of_neg (by simp [all])]
      · rw [if_neg all,filter_cons_of_pos (by simp; omega)]
    | succ i =>
      have small := short 0 f (Nat.succ_pos i) rfl
      have later := ih (i := i) at_i fun j g low at_j => short (j + 1) g (by omega) at_j
      rw [carve_cons_succ]
      by_cases filled : 0 < f.len
      · rw [dropEmpty,filter_cons_of_pos (by simpa using filled),allocate,if_neg (by omega),← dropEmpty,later,dropEmpty,
          dropEmpty,filter_cons_of_pos (by simpa using filled)]
        rfl
      · rw [dropEmpty,filter_cons_of_neg (by simpa using filled),← dropEmpty,later,dropEmpty,dropEmpty,
          filter_cons_of_neg (by simpa using filled)]

theorem allocate_advance {moved : Nat → Nat} {n i : Nat} {e : Extent} (more : 0 < n) (at_i : l[i]? = some e)
    (fits : moved i + n ≤ e.len) (short : ∀ j f, j < i → l[j]? = some f → f.len < n + moved j) :
    allocate n (dropEmpty (advance l moved)) =
    some (e.start + moved i,dropEmpty (advance l fun j => moved j + if i = j then n else 0)) := by
  rw [← carve_advance]
  refine allocate_first (e := ⟨e.start + moved i,e.len - moved i⟩) more (by simp [advance,List.getElem?_mapIdx,at_i])
    (by simp only; omega) fun j f low at_j => ?_
  obtain ⟨g,at_g,rfl⟩ := of_advance_at at_j
  have := short j g low at_g
  simp only
  omega

def allocates : List Nat → List Extent → Option (List Nat × List Extent)
  | [],l => some ([],l)
  | n :: ns,l => (allocate n l).bind fun r => (allocates ns r.2).map fun s => (r.1 :: s.1,s.2)

/-- No entry before the one chosen has room for the segment. -/
def Fitted (l : List Extent) (sizes : Fin 3 → Nat) (madd : Fin 3 → Option Nat) : List (Fin 3) → (Nat → Nat) → Prop
  | [],_ => True
  | k :: ks,moved => (∀ j e, l[j]? = some e → (∀ i, madd k = some i → j < i) → e.len < sizes k + moved j) ∧
    Fitted l sizes madd ks fun j => moved j + if madd k = some j then sizes k else 0

theorem resolve_carves (bounded : Bounded l) (sizes : Fin 3 → Nat) (madd : Fin 3 → Option Nat) (taken : Nat → Nat)
    (within : ∀ j e, l[j]? = some e → taken j ≤ e.len) (ks : List (Fin 3)) (moved : Nat → Nat)
    (chosen : ∀ k ∈ ks, ∃ i, madd k = some i ∧ i < l.length)
    (balance : ∀ j, moved j + due sizes madd ks j = taken j) :
    ∃ addrs, resolve sizes madd ks ⟨partly l taken moved ++ terminator :: rest,limit,name⟩ =
        .ok (⟨partly l taken taken ++ terminator :: rest,limit,name⟩,addrs) ∧
      Carved (advance l moved) (ks.map sizes) addrs (advance l taken) ∧
      (Fitted l sizes madd ks moved → allocates ((ks.map sizes).filter (0 < ·)) (dropEmpty (advance l moved)) =
        some ((dropEmpty (pieces (ks.map sizes) addrs)).map (·.start),dropEmpty (advance l taken))) := by
  induction ks generalizing moved with
  | nil =>
    have same : moved = taken := funext fun j => by simpa [due] using balance j
    subst same
    exact ⟨[],rfl,.nil _,fun _ => rfl⟩
  | cons k ks ih =>
    obtain ⟨i,picked,inside⟩ := chosen k (by simp)
    have at_i : l[i]? = some l[i] := List.getElem?_eq_getElem inside
    have limits := bounded l[i] (getElem_mem inside)
    have bound := within i _ at_i
    have here := balance i
    rw [due_cons,if_pos picked] at here
    have next := ih (fun j => moved j + if i = j then sizes k else 0) (fun k member => chosen k (by simp [member])) (by
        intro j
        have total := balance j
        rw [due_cons,picked] at total
        simp only [Option.some.injEq] at total
        omega)
    obtain ⟨addrs,done,carved,later⟩ := next
    have small : sizeT (l[i].start + moved i + sizes k) = l[i].start + (moved i + sizes k) := by
      rw [Nat.add_assoc]
      refine sizeT_of_lt ?_
      simp only [Extent.stop] at limits
      omega
    have wrote := @write_partly limit name l rest taken moved taken (fun j => moved j + if i = j then sizes k else 0) i _ at_i
      (fun j other => ⟨rfl,by simp [Ne.symm other]⟩)
    simp only [if_true] at wrote
    refine ⟨(l[i].start + moved i) :: addrs,?_,?_,fun fitted => ?_⟩
    · simp only [resolve,picked,read_partly at_i,bind,Except.bind,small,wrote,done]
      rfl
    · rw [← carve_advance] at carved
      have at_moved : (advance l moved)[i]? = some ⟨l[i].start + moved i,l[i].len - moved i⟩ := by
        simp [advance,List.getElem?_mapIdx,at_i]
      exact .cons (e := ⟨l[i].start + moved i,l[i].len - moved i⟩) at_moved (by simp only; omega) carved
    obtain ⟨short,fitted⟩ := fitted
    simp only [picked,Option.some.injEq] at short fitted
    have later := later fitted
    by_cases more : 0 < sizes k
    · have first := allocate_advance more at_i (by omega) fun j f low at_j => short j f at_j fun q same => same ▸ low
      rw [map_cons,filter_cons_of_pos (by simpa using more),allocates,first,Option.bind_some]
      dsimp only
      rw [later]
      simp only [pieces,zipWith_cons_cons,dropEmpty,filter_cons,more,decide_true,if_true]
      rfl
    · have zero : sizes k = 0 := by omega
      simp only [zero,ite_self,Nat.add_zero] at later
      rw [map_cons,filter_cons_of_neg (by simpa using more),later]
      simp only [pieces,zipWith_cons_cons,dropEmpty,filter_cons,more,decide_false,Bool.false_eq_true,if_false]

theorem restore_undoes (bounded : Bounded l) (sizes : Fin 3 → Nat) (madd : Fin 3 → Option Nat) (ks : List (Fin 3))
    (within : ∀ j e, l[j]? = some e → due sizes madd ks j ≤ e.len)
    (chosen : ∀ k i, madd k = some i → i < l.length) :
    restore sizes madd ks ⟨partly l (due sizes madd ks) (fun _ => 0) ++ terminator :: rest,limit,name⟩ =
      .ok ⟨l.map entry ++ terminator :: rest,limit,name⟩ := by
  induction ks with
  | nil =>
    have none : due sizes madd [] = fun _ => 0 := rfl
    rw [restore,none,partly_advance,advance_zero]
  | cons k ks ih =>
    have smaller : ∀ j e, l[j]? = some e → due sizes madd ks j ≤ e.len := by
      intro j e at_j
      have total := within j e at_j
      rw [due_cons] at total
      omega
    cases picked : madd k with
    | none =>
      have same : due sizes madd (k :: ks) = due sizes madd ks := funext fun j => by simp [due_cons,picked]
      rw [same,restore,picked]
      exact ih smaller
    | some i =>
      have inside := chosen k i picked
      have at_i : l[i]? = some l[i] := List.getElem?_eq_getElem inside
      have limits := bounded l[i] (getElem_mem inside)
      have total := within i _ at_i
      rw [due_cons,if_pos picked] at total
      have size : sizeT (l[i].len - due sizes madd (k :: ks) i + sizes k) = l[i].len - due sizes madd ks i := by
        rw [due_cons,if_pos picked]
        have whole : l[i].len - (sizes k + due sizes madd ks i) + sizes k = l[i].len - due sizes madd ks i := by omega
        rw [whole]
        refine sizeT_of_lt ?_
        simp only [Extent.stop] at limits
        omega
      have wrote := @write_partly limit name l rest (due sizes madd (k :: ks)) (fun _ => 0) (due sizes madd ks)
        (fun _ => 0) i _ at_i
        (fun j other => ⟨by simp [due_cons,picked,Ne.symm other],rfl⟩)
      simp only [restore,picked,read_partly at_i,bind,Except.bind,size,wrote]
      exact ih smaller

theorem due_untouched {sizes : Fin 3 → Nat} {madd : Fin 3 → Option Nat} {j : Nat} (untouched : ∀ k, madd k ≠ some j) :
    due sizes madd [0,1,2] j = 0 := by
  simp [due,untouched]

theorem due_update (sizes : Fin 3 → Nat) (madd : Fin 3 → Option Nat) (next : Fin 3) (bp j : Nat) (unset : madd next = none) :
    due sizes (update madd next (some bp)) [0,1,2] j = due sizes madd [0,1,2] j + if bp = j then sizes next else 0 := by
  fin_cases next <;> simp_all [due,update] <;> split_ifs <;> omega

def placed (madd : Fin 3 → Option Nat) : Nat := [0,1,2].countP (fun k : Fin 3 => (madd k).isSome)

theorem placed_update (madd : Fin 3 → Option Nat) (next : Fin 3) (bp : Nat) (unset : madd next = none) :
    placed (update madd next (some bp)) = placed madd + 1 := by
  fin_cases next <;> simp_all [placed,update,countP_cons] <;> split_ifs <;> omega

theorem placed_all {madd : Fin 3 → Option Nat} (all : placed madd = 3) (k : Fin 3) : ∃ i, madd k = some i := by
  have every : ∀ k ∈ [0,1,2], (madd k).isSome = true := countP_eq_length.mp all
  exact Option.isSome_iff_exists.mp (every k (by fin_cases k <;> simp))

/-- Where the search stands: the segments placed so far have taken their sizes
from entries below `top`, and `remap` is the first entry that is used up. -/
structure Searching (l : List Extent) (rest : List Mapent) (limit : Nat) (name : String) (sizes : Fin 3 → Nat)
    (top : Nat) (s : Search) : Prop where
  map : s.map = ⟨partly l (due sizes s.madd [0,1,2]) (fun _ => 0) ++ terminator :: rest,limit,name⟩
  within : ∀ j e, l[j]? = some e → due sizes s.madd [0,1,2] j ≤ e.len
  chosen : ∀ k i, s.madd k = some i → i < top ∧ i < l.length
  found : s.found = placed s.madd
  unused : s.remap = none → ∀ j e, l[j]? = some e → due sizes s.madd [0,1,2] j < e.len
  first : ∀ r, s.remap = some r → (∃ e, l[r]? = some e ∧ due sizes s.madd [0,1,2] r = e.len) ∧
    ∀ j e, j < r → l[j]? = some e → due sizes s.madd [0,1,2] j < e.len

theorem Searching.beyond {sizes : Fin 3 → Nat} {top : Nat} {s : Search} (at_s : Searching l rest limit name sizes top s)
    {j : Nat} (high : top ≤ j) : due sizes s.madd [0,1,2] j = 0 :=
  due_untouched fun k same => absurd (at_s.chosen k j same).1 (not_lt.mpr high)

theorem Searching.widen {sizes : Fin 3 → Nat} {top : Nat} {s : Search} (at_s : Searching l rest limit name sizes top s) :
    Searching l rest limit name sizes (top + 1) s :=
  {at_s with chosen := fun k i picked => ⟨Nat.lt_succ_of_lt (at_s.chosen k i picked).1,(at_s.chosen k i picked).2⟩}

theorem tryEntry_searches (positive : Positive l) (sizes : Fin 3 → Nat) {bp : Nat} {e : Extent} (at_bp : l[bp]? = some e)
    (next : Fin 3) {s : Search} (at_s : Searching l rest limit name sizes (bp + 1) s) :
    ∃ t done, tryEntry sizes bp next s = .ok (t,done) ∧ Searching l rest limit name sizes (bp + 1) t ∧
    (done = true → placed t.madd = 3) := by
  by_cases set : s.madd next = none
  · by_cases fits : sizes next ≤ e.len - due sizes s.madd [0,1,2] bp
    · have inside := (List.getElem?_eq_some_iff.mp at_bp).1
      have room := at_s.within bp e at_bp
      have taken := due_update sizes s.madd next bp
      have there : due sizes (update s.madd next (some bp)) [0,1,2] bp =
        due sizes s.madd [0,1,2] bp + sizes next := by simpa using taken bp set
      have elsewhere : ∀ j, j ≠ bp → due sizes (update s.madd next (some bp)) [0,1,2] j =
          due sizes s.madd [0,1,2] j := fun j other => by simpa [Ne.symm other] using taken j set
      have wrote := @write_partly limit name l rest (due sizes s.madd [0,1,2]) (fun _ => 0)
        (due sizes (update s.madd next (some bp)) [0,1,2]) (fun _ => 0) bp e at_bp
        (fun j other => ⟨elsewhere j other,rfl⟩)
      have left : e.len - due sizes s.madd [0,1,2] bp - sizes next = e.len - due sizes
        (update s.madd next (some bp)) [0,1,2] bp := by omega
      refine ⟨_,_,by
        simp only [tryEntry,set,ne_eq,not_true_eq_false,if_false,at_s.map,read_partly at_bp,bind,Except.bind,
          fits,if_true,left,wrote]
        rfl,?_,?_⟩
      · refine ⟨rfl,?_,?_,?_,?_,?_⟩
        · intro j f at_j
          by_cases here : j = bp
          · subst j
            cases at_bp.symm.trans at_j
            simp only [there]
            omega
          · simp only [elsewhere j here]
            exact at_s.within j f at_j
        · intro k i picked
          by_cases same : k = next
          · subst k
            simp only [update_self,Option.some.injEq] at picked
            omega
          · exact at_s.chosen k i (by simpa [update_of_ne same] using picked)
        · simp only [at_s.found,placed_update s.madd next bp set]
        · intro none j f at_j
          simp only at none
          split_ifs at none with used
          by_cases here : j = bp
          · subst j
            cases at_bp.symm.trans at_j
            have some_left : ¬ (e.len - due sizes (update s.madd next (some bp)) [0,1,2] bp = 0) := fun zero => used ⟨zero,none⟩
            simp only
            omega
          · simp only [elsewhere j here]
            exact at_s.unused none j f at_j
        · intro r remap
          simp only at remap ⊢
          split_ifs at remap with used
          · cases remap
            refine ⟨⟨e,at_bp,by omega⟩,?_⟩
            intro j f low at_j
            rw [elsewhere j (by omega)]
            exact at_s.unused used.2 j f at_j
          obtain ⟨⟨f,at_r,whole⟩,before⟩ := at_s.first r remap
          have filled := positive f (mem_of_getElem? at_r)
          have low : r < bp + 1 := by
            by_contra high
            rw [at_s.beyond (not_lt.mp high)] at whole
            omega
          refine ⟨⟨f,at_r,?_⟩,?_⟩
          · by_cases here : r = bp
            · subst r
              cases at_bp.symm.trans at_r
              omega
            · rw [elsewhere r here,whole]
          · intro j g below at_j
            rw [elsewhere j (by omega)]
            exact before j g below at_j
      · intro all
        simp only [at_s.found,decide_eq_true_eq] at all
        simp only [placed_update s.madd next bp set,all]
    · exact ⟨s,false,by
        simp only [tryEntry,set,ne_eq,not_true_eq_false,if_false,at_s.map,read_partly at_bp,bind,Except.bind,fits]
        rfl,at_s,by simp⟩
  · exact ⟨s,false,by simp [tryEntry,set],at_s,by simp⟩

theorem tryEntries_searches (positive : Positive l) (sizes : Fin 3 → Nat) {bp : Nat} {e : Extent} (at_bp : l[bp]? = some e)
    (ks : List (Fin 3)) {s : Search} (at_s : Searching l rest limit name sizes (bp + 1) s) :
    ∃ t done, tryEntries sizes bp ks s = .ok (t,done) ∧ Searching l rest limit name sizes (bp + 1) t ∧
    (done = true → placed t.madd = 3) := by
  induction ks generalizing s with
  | nil => exact ⟨s,false,rfl,at_s,by simp⟩
  | cons k ks ih =>
    obtain ⟨t,done,tried,at_t,all⟩ := tryEntry_searches positive sizes at_bp k at_s
    simp only [tryEntries,tried,bind,Except.bind]
    cases done with
    | true => exact ⟨t,true,rfl,at_t,all⟩
    | false => exact ih at_t

theorem search_searches (positive : Positive l) (sizes : Fin 3 → Nat) (fuel bp : Nat) (enough : l.length < bp + fuel)
    (inside : bp ≤ l.length) {s : Search} (at_s : Searching l rest limit name sizes bp s) :
    ∃ t done top, search sizes fuel s bp = .ok (t,done) ∧ Searching l rest limit name sizes top t ∧
    (done = true → placed t.madd = 3) := by
  induction fuel generalizing bp s with
  | zero => omega
  | succ fuel ih =>
    rcases Nat.lt_or_eq_of_le inside with low | rfl
    · have at_bp : l[bp]? = some l[bp] := List.getElem?_eq_getElem low
      have filled := positive l[bp] (getElem_mem low)
      have size : ¬ (l[bp].len - due sizes s.madd [0,1,2] bp = 0) := by rw [at_s.beyond le_rfl]; omega
      obtain ⟨t,done,tried,at_t,all⟩ := tryEntries_searches positive sizes at_bp [0,1,2] at_s.widen
      have first := at_s.map
      simp only [search,first,read_partly at_bp,bind,Except.bind,size,if_false]
      rw [tried]
      cases done with
      | true => exact ⟨t,true,bp + 1,rfl,at_t,all⟩
      | false => exact ih (bp + 1) (by omega) (by omega) at_t
    · refine ⟨s,false,l.length,?_,at_s,by simp⟩
      simp only [search,at_s.map,read_partly_end,bind,Except.bind]
      rfl

/-- Between the kept entries and those still to be looked at lies at least one
slot whose entry is used up. -/
theorem compress_drops (todo : List Extent) (address : ∀ e ∈ todo, 0 < e.start) (done gap rest : List Mapent)
    (open_gap : gap ≠ []) (fuel : Nat) (enough : todo.length < fuel) :
    ∃ next, compress fuel ⟨done ++ (gap ++ (todo.map entry ++ terminator :: rest)),limit,name⟩ done.length
        (done.length + gap.length) = .ok next ∧ next.mLimit = limit ∧ next.mName = name ∧
      next.mMap.length = (done ++ (gap ++ (todo.map entry ++ terminator :: rest))).length ∧
      ∃ after, next.mMap = done ++ ((dropEmpty todo).map entry ++ terminator :: after) := by
  induction todo generalizing done gap fuel with
  | nil =>
    obtain _ | fuel := fuel
    · omega
    obtain ⟨g,gap,rfl⟩ := exists_cons_of_ne_nil open_gap
    have at_bp := @read_middle limit name (done ++ g :: gap) rest terminator
    simp only [length_append,append_assoc] at at_bp
    have put := @write_middle limit name done (gap ++ terminator :: rest) g terminator
    refine ⟨⟨done ++ terminator :: (gap ++ terminator :: rest),limit,name⟩,?_,rfl,rfl,by simp,gap ++ terminator :: rest,rfl⟩
    simp only [cons_append] at at_bp
    have zero : terminator.mAddr = 0 := rfl
    simp only [compress,map_nil,nil_append,cons_append,at_bp,bind,Except.bind,zero,or_true,if_true,put]
    rfl
  | cons e todo ih =>
    obtain _ | fuel := fuel
    · omega
    have here : ¬ (entry e).mAddr = 0 := Nat.pos_iff_ne_zero.mp (address e (by simp))
    have others : ∀ f ∈ todo, 0 < f.start := fun f member => address f (by simp [member])
    have shorter : todo.length < fuel := by simpa using enough
    have at_bp := @read_middle limit name (done ++ gap) (todo.map entry ++ terminator :: rest) (entry e)
    simp only [length_append,append_assoc] at at_bp
    by_cases empty : e.len = 0
    · obtain ⟨next,ok,same_limit,same_name,slots,after,shape⟩ := ih others done (gap ++ [entry e]) (by simp) fuel shorter
      simp only [append_assoc,singleton_append,length_append,length_singleton] at ok slots
      refine ⟨next,?_,same_limit,same_name,?_,after,?_⟩
      · simp only [compress,map_cons,cons_append,at_bp,bind,Except.bind,here,entry_mSize,empty,ne_eq,
          not_true_eq_false,or_false,if_false]
        exact ok
      · simpa using slots
      · simpa [dropEmpty,empty] using shape
    obtain ⟨g,gap,rfl⟩ := exists_cons_of_ne_nil open_gap
    have put := @write_middle limit name done (gap ++ (entry e :: (todo.map entry ++ terminator :: rest))) g (entry e)
    obtain ⟨next,ok,same_limit,same_name,slots,after,shape⟩ :=
      ih others (done ++ [entry e]) (gap ++ [entry e]) (by simp) fuel shorter
    simp only [append_assoc,singleton_append,length_append,length_singleton] at ok slots
    have filled : 0 < e.len := Nat.pos_iff_ne_zero.mpr empty
    refine ⟨next,?_,same_limit,same_name,?_,after,?_⟩
    · simp only [cons_append,length_cons] at at_bp
      simp only [compress,map_cons,cons_append,length_cons,at_bp,bind,Except.bind,here,entry_mSize,empty,
        ne_eq,not_false_eq_true,true_or,if_true,put,if_false]
      rw [show done.length + (gap.length + 1) + 1 = done.length + 1 + (gap.length + 1) by omega]
      exact ok
    · simp at slots ⊢
      omega
    · simpa [dropEmpty,filled] using shape

theorem compress_removes (before after : List Extent) (used : Extent) (rest : List Mapent) (kept : Positive before)
    (empty : used.len = 0) (address : ∀ e ∈ after, 0 < e.start) (fuel : Nat) (enough : after.length < fuel) :
    ∃ next, compress fuel ⟨(before ++ used :: after).map entry ++ terminator :: rest,limit,name⟩ before.length
    (before.length + 1) = .ok next ∧
      Becomes ⟨(before ++ used :: after).map entry ++ terminator :: rest,limit,name⟩ next
      (dropEmpty (before ++ used :: after)) := by
  obtain ⟨next,ok,same_limit,same_name,slots,final,shape⟩ := @compress_drops limit name after address
    (before.map entry) [entry used] rest (by simp) fuel enough
  have same : before.map entry ++ ([entry used] ++ (after.map entry ++ terminator :: rest)) =
      (before ++ used :: after).map entry ++ terminator :: rest := by simp
  have dropped : dropEmpty (before ++ used :: after) = before ++ dropEmpty after := by
    simpa [dropEmpty,empty] using dropEmpty_of_positive kept
  rw [same] at ok slots
  simp only [length_map,length_singleton] at ok
  refine ⟨next,ok,⟨slots,same_limit,same_name⟩,final,?_⟩
  rw [shape,dropped,map_append,append_assoc]

theorem positive_advance {moved : Nat → Nat} (free : ∀ j e, l[j]? = some e → moved j < e.len) : Positive (advance l moved) := by
  intro x member
  obtain ⟨j,at_j⟩ := mem_iff_getElem?.mp member
  obtain ⟨e,at_e,rfl⟩ := of_advance_at at_j
  have left := free j e at_e
  simp only
  omega

theorem advance_split {moved : Nat → Nat} {r : Nat} {e : Extent} (bounded : Bounded l) (at_r : l[r]? = some e)
    (whole : moved r = e.len) (before : ∀ j f, j < r → l[j]? = some f → moved j < f.len) :
    ∃ init used tail, advance l moved = init ++ used :: tail ∧ init.length = r ∧ used.len = 0 ∧ Positive init ∧
    ∀ x ∈ tail, 0 < x.start := by
  have inside : r < (advance l moved).length := by
    simpa [advance] using (List.getElem?_eq_some_iff.mp at_r).1
  refine ⟨(advance l moved).take r,(advance l moved)[r],(advance l moved).drop (r + 1),?_,?_,?_,?_,?_⟩
  · exact (take_append_drop r _).symm.trans (by rw [← drop_eq_getElem_cons inside])
  · simp only [length_take]
    omega
  · obtain ⟨f,at_f,same⟩ := of_advance_at (List.getElem?_eq_getElem inside)
    cases at_r.symm.trans at_f
    simp only [same]
    omega
  · intro x member
    obtain ⟨j,low,at_j⟩ := mem_take_iff_getElem.mp member
    obtain ⟨f,at_f,rfl⟩ := of_advance_at (List.getElem?_eq_some_iff.mpr ⟨_,at_j⟩)
    have free := before j f (by omega) at_f
    simp only
    omega
  · intro x member
    obtain ⟨j,at_j⟩ := mem_iff_getElem?.mp (mem_of_mem_drop member)
    obtain ⟨f,at_f,rfl⟩ := of_advance_at at_j
    have low := (bounded f (mem_of_getElem? at_f)).1
    simp only
    omega

theorem searching_start (positive : Positive l) (sizes : Fin 3 → Nat) : Searching l rest limit name sizes 0
    ⟨⟨l.map entry ++ terminator :: rest,limit,name⟩,fun _ => none,none,0⟩ := by
  have none_due : due sizes (fun _ => none) [0,1,2] = fun _ => 0 := funext fun j => due_untouched (by simp)
  refine ⟨?_,?_,by simp,rfl,?_,by simp⟩
  · simp only [none_due,partly_advance,advance_zero]
  · intro j e at_j
    simp only [none_due,Nat.zero_le]
  intro _ j e at_j
  simp only [none_due]
  exact positive e (mem_of_getElem? at_j)

theorem malloc3_cases (positive : Positive l) (bounded : Bounded l) (dSize sSize uSize : Nat) : ∃ t done top,
    search ![dSize,sSize,uSize] (l.map entry ++ terminator :: rest).length
      ⟨⟨l.map entry ++ terminator :: rest,limit,name⟩,fun _ => none,none,0⟩ 0 = .ok (t,done) ∧
    Searching l rest limit name ![dSize,sSize,uSize] top t ∧ (done = true → placed t.madd = 3) ∧
    (done = false → malloc3 ⟨l.map entry ++ terminator :: rest,limit,name⟩ dSize sSize uSize =
      .ok (⟨l.map entry ++ terminator :: rest,limit,name⟩,none)) ∧
    (done = true → ∃ next addrs, malloc3 ⟨l.map entry ++ terminator :: rest,limit,name⟩ dSize sSize uSize =
    .ok (next,some addrs) ∧
      (resolve ![dSize,sSize,uSize] t.madd [0,1,2] t.map).map Prod.snd = .ok addrs ∧
      Carved l [dSize,sSize,uSize] addrs (advance l (due ![dSize,sSize,uSize] t.madd [0,1,2])) ∧
      Becomes ⟨l.map entry ++ terminator :: rest,limit,name⟩ next
      (dropEmpty (advance l (due ![dSize,sSize,uSize] t.madd [0,1,2])))) := by
  obtain ⟨t,done,top,searched,at_t,all⟩ := search_searches positive ![dSize,sSize,uSize]
    (l.map entry ++ terminator :: rest).length 0 (by simp) (Nat.zero_le _)
    (@searching_start limit name l rest positive ![dSize,sSize,uSize])
  refine ⟨t,done,top,searched,at_t,all,?_,?_⟩
  · rintro rfl
    have undone := @restore_undoes limit name l rest bounded ![dSize,sSize,uSize] t.madd [0,1,2] at_t.within
      (fun k i picked => (at_t.chosen k i picked).2)
    simp only [malloc3,searched,bind,Except.bind,Bool.false_eq_true,if_false,at_t.map,undone]
    rfl
  rintro rfl
  have chosen : ∀ k ∈ [0,1,2], ∃ i, t.madd k = some i ∧ i < l.length := by
    intro k _
    obtain ⟨i,picked⟩ := placed_all (all rfl) k
    exact ⟨i,picked,(at_t.chosen k i picked).2⟩
  obtain ⟨addrs,resolved,carved,-⟩ := @resolve_carves limit name l rest bounded ![dSize,sSize,uSize] t.madd
    (due ![dSize,sSize,uSize] t.madd [0,1,2]) at_t.within [0,1,2] (fun _ => 0) chosen (by simp)
  rw [advance_zero] at carved
  have listed : (resolve ![dSize,sSize,uSize] t.madd [0,1,2] t.map).map Prod.snd = .ok addrs := by
    rw [at_t.map,resolved]
    rfl
  cases remap : t.remap with
  | none =>
    have left := positive_advance (at_t.unused remap)
    refine ⟨⟨(advance l (due ![dSize,sSize,uSize] t.madd [0,1,2])).map entry ++ terminator :: rest,limit,name⟩,
      addrs,?_,listed,carved,⟨by simp [advance],rfl,rfl⟩,rest,by rw [dropEmpty_of_positive left]⟩
    simp only [malloc3,searched,bind,Except.bind,if_true,at_t.map,resolved,remap,partly_advance]
    rfl
  | some r =>
    obtain ⟨⟨e,at_r,whole⟩,before⟩ := at_t.first r remap
    obtain ⟨init,used,tail,parts,place,empty,kept,address⟩ := advance_split bounded at_r whole before
    obtain ⟨next,compressed,becomes⟩ := @compress_removes limit name init tail used rest kept empty address
      ((init ++ used :: tail).map entry ++ terminator :: rest).length (by simp; omega)
    rw [← parts] at compressed becomes
    subst place
    refine ⟨next,addrs,?_,listed,carved,?_⟩
    · simp only [malloc3,searched,bind,Except.bind,if_true,at_t.map,resolved,remap,partly_advance,compressed]
      rfl
    · exact ⟨⟨becomes.slots.trans (by simp [advance]),becomes.limit,becomes.name⟩,becomes.shape⟩

theorem malloc3_carves {mp : Map} (represents : Represents mp l) (dSize sSize uSize : Nat) :
    (∃ next, malloc3 mp dSize sSize uSize = .ok (next,none) ∧ Becomes mp next l) ∨
    ∃ next addrs final, malloc3 mp dSize sSize uSize = .ok (next,some addrs) ∧
      Carved l [dSize,sSize,uSize] addrs final ∧ Becomes mp next (dropEmpty final) := by
  obtain ⟨⟨rest,shape⟩,positive,bounded⟩ := represents
  obtain ⟨mMap,limit,name⟩ := mp
  cases shape
  obtain ⟨t,done,-,-,-,-,failed,succeeded⟩ := @malloc3_cases limit name l rest positive bounded dSize sSize uSize
  cases done with
  | false => exact .inl ⟨_,failed rfl,⟨rfl,rfl,rfl⟩,rest,rfl⟩
  | true =>
    obtain ⟨next,addrs,done,-,carved,becomes⟩ := succeeded rfl
    exact .inr ⟨next,addrs,_,done,carved,becomes⟩

end Retrobsd.ResourceMap
