import Retrobsd.ResourceMapRuns

/-! The single pass of `malloc3` finds what calls of `malloc` for one segment after the other find. -/
namespace Retrobsd.ResourceMap
open Function List Option
open Lib.Extents

def mallocs (mp : Map) : List Nat → Except Fault (Map × Option (List Nat))
  | [] => .ok (mp,some [])
  | size :: sizes => do
    let (mp,addr) ← malloc mp size
    if addr = 0 then return (mp,none)
    let (mp,addrs) ← mallocs mp sizes
    return (mp,addrs.map (addr :: ·))

variable {limit : Nat} {name : String} {l : List Extent} {rest : List Mapent} {e : Extent} {sizes : Fin 3 → Nat} {s : Search}

/-- What the segments before `k` take from the entry `j`. -/
def before (sizes : Fin 3 → Nat) (madd : Fin 3 → Option Nat) (k : Fin 3) (j : Nat) : Nat :=
    due sizes madd ([0,1,2].filter (· < k)) j

/-- Each segment is placed in the first entry that has room for it after those before it. The segments before
`next` have been tried in the entry `bp`. -/
structure FirstFit (l : List Extent) (sizes : Fin 3 → Nat) (bp : Nat) (next : Nat) (madd : Fin 3 → Option Nat) : Prop where
  tried : ∀ k i, madd k = some i → i < bp ∨ i = bp ∧ k.val < next
  short : ∀ k j e, l[j]? = some e → (∀ i, madd k = some i → j < i) → (j < bp ∨ j = bp ∧ k.val < next) →
    e.len < sizes k + before sizes madd k j

theorem before_update {madd : Fin 3 → Option Nat} {next k : Fin 3} {bp j : Nat} (unset : madd next = none) :
    before sizes (update madd next (some bp)) k j = before sizes madd k j + if next < k ∧ bp = j then sizes next else 0 := by
  fin_cases next <;> fin_cases k <;> simp_all [before,due,update] <;> split_ifs <;> omega

theorem before_all {madd : Fin 3 → Option Nat} {k : Fin 3} {j : Nat} (last : ∀ q, madd q = some j → q.val < k.val) :
    before sizes madd k j = due sizes madd [0,1,2] j := by
  have zero := last 0
  have one := last 1
  have two := last 2
  clear last
  fin_cases k <;> simp_all [before,due]

theorem FirstFit.pass {bp : Nat} {next : Fin 3} {madd : Fin 3 → Option Nat} (fit : FirstFit l sizes bp next madd)
    (refused : ∀ f, l[bp]? = some f → (∀ i, madd next = some i → bp < i) → f.len < sizes next + before sizes madd next bp) :
    FirstFit l sizes bp (next + 1) madd := by
  refine ⟨fun k i picked => (fit.tried k i picked).imp_right fun here => ⟨here.1,by omega⟩,fun k j f at_j free low => ?_⟩
  by_cases same : k = next ∧ j = bp
  · obtain ⟨rfl,rfl⟩ := same
    exact refused f at_j free
  refine fit.short k j f at_j free (low.imp_right fun here => ⟨here.1,?_⟩)
  have : k.val ≠ next.val := fun equal => same ⟨Fin.ext equal,here.1⟩
  omega

theorem tryEntry_fitted {bp : Nat} {next : Fin 3} {t : Search} {done : Bool} (at_bp : l[bp]? = some e)
    (at_s : Searching l rest limit name sizes (bp + 1) s) (fit : FirstFit l sizes bp next s.madd)
    (ok : tryEntry sizes bp next s = .ok (t,done)) : FirstFit l sizes bp (next + 1) t.madd := by
  rw [tryEntry] at ok
  split_ifs at ok with set
  · cases ok
    refine fit.pass fun f _ free => ?_
    obtain ⟨i,picked⟩ := ne_none_iff_exists'.mp set
    have := free i picked
    have := fit.tried next i picked
    omega
  have unset := not_not.mp set
  have left : before sizes s.madd next bp = due sizes s.madd [0,1,2] bp := before_all fun q picked => by
    have := fit.tried q bp picked
    omega
  have inside := at_s.within bp e at_bp
  simp only [at_s.map,read_partly at_bp,bind,Except.bind] at ok
  by_cases room : sizes next ≤ e.len - due sizes s.madd [0,1,2] bp
  · have placed : t.madd = update s.madd next (some bp) := by
      rw [if_pos room] at ok
      split at ok
      · cases ok
      cases ok
      rfl
    rw [placed]
    refine ⟨fun k i picked => ?_,fun k j f at_j free low => ?_⟩
    · by_cases same : k = next
      · subst same
        rw [update_self] at picked
        cases picked
        exact .inr ⟨rfl,Nat.lt_succ_self _⟩
      · rw [update_of_ne same] at picked
        exact (fit.tried k i picked).imp_right fun here => ⟨here.1,by omega⟩
    rw [before_update unset]
    by_cases same : k = next
    · subst same
      have lower := free bp (update_self _ _ _)
      have := fit.short k j f at_j (fun i picked => absurd (picked.symm.trans unset) (Option.some_ne_none i)) (.inl lower)
      omega
    rw [update_of_ne same] at free
    have : k.val ≠ next.val := fun equal => same (Fin.ext equal)
    have := fit.short k j f at_j free (low.imp_right fun here => ⟨here.1,by omega⟩)
    omega
  · rw [if_neg room] at ok
    cases ok
    refine fit.pass fun f at_f _ => ?_
    cases at_bp.symm.trans at_f
    omega

theorem FirstFit.step {bp : Nat} {madd : Fin 3 → Option Nat} (fit : FirstFit l sizes bp 3 madd) :
    FirstFit l sizes (bp + 1) 0 madd := by
  refine ⟨fun k i picked => ?_,fun k j f at_j free low => fit.short k j f at_j free ?_⟩
  · have := fit.tried k i picked
    omega
  have := k.isLt
  omega

theorem FirstFit.all {bp next : Nat} {madd : Fin 3 → Option Nat} (fit : FirstFit l sizes bp next madd)
    (all : placed madd = 3) {top last : Nat}
    (above : bp < top) : FirstFit l sizes top last madd := by
  refine ⟨fun k i picked => ?_,fun k j f at_j free _ => ?_⟩
  · have := fit.tried k i picked
    omega
  obtain ⟨i,picked⟩ := placed_all all k
  have := free i picked
  have := fit.tried k i picked
  exact fit.short k j f at_j free (by omega)

theorem tryEntry_placed {bp : Nat} {next : Fin 3} {t : Search} {done : Bool}
    (at_t : Searching l rest limit name sizes (bp + 1) t)
    (fewer : placed s.madd ≠ 3) (ok : tryEntry sizes bp next s = .ok (t,done)) : done = false → placed t.madd ≠ 3 := by
  rw [tryEntry] at ok
  by_cases set : s.madd next ≠ none
  · rw [if_pos set] at ok
    cases ok
    exact fun _ => fewer
  rw [if_neg set] at ok
  cases got : read s.map bp with
  | error => simp only [got,bind,Except.bind] at ok; cases ok
  | ok e =>
    simp only [got,bind,Except.bind] at ok
    by_cases room : sizes next ≤ e.mSize
    · rw [if_pos room] at ok
      split at ok
      · cases ok
      cases ok
      have counted := at_t.found
      simp only [decide_eq_false_iff_not] at counted ⊢
      omega
    · rw [if_neg room] at ok
      cases ok
      exact fun _ => fewer

theorem tryEntries_fitted (positive : Positive l) {bp : Nat} {t : Search} {done : Bool} (at_bp : l[bp]? = some e)
    (at_s : Searching l rest limit name sizes (bp + 1) s) (fit : FirstFit l sizes bp 0 s.madd) (fewer : placed s.madd ≠ 3)
    (ok : tryEntries sizes bp [0,1,2] s = .ok (t,done)) : Searching l rest limit name sizes (bp + 1) t ∧
      (done = true → placed t.madd = 3 ∧ ∃ next, FirstFit l sizes bp next t.madd) ∧
      (done = false → placed t.madd ≠ 3 ∧ FirstFit l sizes bp 3 t.madd) := by
  obtain ⟨u,d,one,at_u,all⟩ := tryEntry_searches positive sizes at_bp 0 at_s
  have fit := tryEntry_fitted at_bp at_s fit one
  have fewer := tryEntry_placed at_u fewer one
  simp only [tryEntries,one,bind,Except.bind] at ok
  cases d with
  | true =>
    cases ok
    exact ⟨at_u,fun _ => ⟨all rfl,_,fit⟩,by rintro ⟨⟩⟩
  | false =>
    obtain ⟨v,d,two,at_v,all⟩ := tryEntry_searches positive sizes at_bp 1 at_u
    have fit := tryEntry_fitted at_bp at_u fit two
    have fewer := tryEntry_placed at_v (fewer rfl) two
    simp only [Bool.false_eq_true,if_false,two] at ok
    cases d with
    | true =>
      cases ok
      exact ⟨at_v,fun _ => ⟨all rfl,_,fit⟩,by rintro ⟨⟩⟩
    | false =>
      obtain ⟨w,d,three,at_w,all⟩ := tryEntry_searches positive sizes at_bp 2 at_v
      have fit := tryEntry_fitted at_bp at_v fit three
      have fewer := tryEntry_placed at_w (fewer rfl) three
      simp only [Bool.false_eq_true,if_false,three] at ok
      cases d with
      | true =>
        cases ok
        exact ⟨at_w,fun _ => ⟨all rfl,_,fit⟩,by rintro ⟨⟩⟩
      | false =>
        cases ok
        exact ⟨at_w,by rintro ⟨⟩,fun _ => ⟨fewer rfl,fit⟩⟩

theorem search_fitted (positive : Positive l) {fuel bp : Nat} {t : Search} {done : Bool} (inside : bp ≤ l.length)
    (at_s : Searching l rest limit name sizes bp s) (fit : FirstFit l sizes bp 0 s.madd) (fewer : placed s.madd ≠ 3)
    (ok : search sizes fuel s bp = .ok (t,done)) :
    FirstFit l sizes l.length 0 t.madd ∧ (done = false → placed t.madd ≠ 3) := by
  induction fuel generalizing bp s with
  | zero => cases ok
  | succ fuel ih =>
    rw [search] at ok
    rcases Nat.lt_or_eq_of_le inside with lower | rfl
    · have at_bp : l[bp]? = some l[bp] := List.getElem?_eq_getElem lower
      have filled := positive l[bp] (getElem_mem lower)
      have untouched := at_s.beyond (Nat.le_refl bp)
      have here : read s.map bp = .ok ⟨l[bp].len,l[bp].start⟩ := by rw [at_s.map,read_partly at_bp,untouched]; rfl
      simp only [here,bind,Except.bind] at ok
      rw [if_neg (by omega)] at ok
      split at ok
      · cases ok
      next r tried =>
        obtain ⟨u,d⟩ := r
        obtain ⟨at_u,last,more⟩ := tryEntries_fitted positive at_bp at_s.widen fit fewer tried
        cases d with
        | true =>
          cases ok
          obtain ⟨all,next,fit⟩ := last rfl
          exact ⟨fit.all all lower,by rintro ⟨⟩⟩
        | false =>
          obtain ⟨fewer,fit⟩ := more rfl
          exact ih lower at_u fit.step fewer ok
    · have here : read s.map l.length = .ok terminator := by rw [at_s.map,read_partly_end]
      simp only [here,bind,Except.bind,terminator] at ok
      cases ok
      exact ⟨fit,fun _ => fewer⟩

theorem FirstFit.fitted {madd : Fin 3 → Option Nat} (fit : FirstFit l sizes l.length 0 madd) :
    Fitted l sizes madd [0,1,2] fun _ => 0 := by
  have short := fun k j f (at_j : l[j]? = some f) free =>
    fit.short k j f at_j free (.inl (List.getElem?_eq_some_iff.mp at_j).1)
  refine ⟨fun j f at_j free => ?_,fun j f at_j free => ?_,fun j f at_j free => ?_,trivial⟩
  · simpa [before,due] using short 0 j f at_j free
  · simpa [before,due] using short 1 j f at_j free
  · simpa [before,due] using short 2 j f at_j free

theorem allocates_short {madd : Fin 3 → Option Nat} {ks : List (Fin 3)} {moved : Nat → Nat}
    (within : ∀ j e, l[j]? = some e → moved j + due sizes madd ks j ≤ e.len) (fitted : Fitted l sizes madd ks moved)
    (inside : ∀ k i, madd k = some i → i < l.length) {k : Fin 3} (member : k ∈ ks) (unset : madd k = none) (more : 0 < sizes k) :
    allocates ((ks.map sizes).filter (0 < ·)) (dropEmpty (advance l moved)) = none := by
  induction ks generalizing moved with
  | nil => cases member
  | cons q ks ih =>
    obtain ⟨short,fitted⟩ := fitted
    have later := ih (fun j f at_j => by have := within j f at_j; rw [due_cons] at this; omega) fitted
    by_cases filled : 0 < sizes q
    · rw [map_cons,filter_cons_of_pos (by simpa using filled),allocates]
      cases picked : madd q with
      | none =>
        have none_left : allocate (sizes q) (dropEmpty (advance l moved)) = none := allocate_eq_none.mpr fun f member => by
          obtain ⟨j,at_j⟩ := mem_iff_getElem?.mp (mem_of_mem_filter member)
          obtain ⟨g,at_g,rfl⟩ := of_advance_at at_j
          have := short j g at_g fun i same => absurd (same.symm.trans picked) (Option.some_ne_none i)
          simp only
          omega
        rw [none_left,bind_none]
      | some i =>
        have lower := inside q i picked
        have at_i : l[i]? = some l[i] := List.getElem?_eq_getElem lower
        have room := within i _ at_i
        rw [due_cons,if_pos picked] at room
        have first := allocate_advance filled at_i (by omega) fun j f low at_j =>
          short j f at_j fun q same => Option.some.inj (picked.symm.trans same) ▸ low
        have other : k ≠ q := by
          rintro rfl
          cases unset.symm.trans picked
        simp only [picked,Option.some.injEq] at later
        rw [first,bind_some]
        dsimp only
        rw [later ((mem_cons.mp member).resolve_left other)]
        rfl
    · have zero : sizes q = 0 := by omega
      have other : k ≠ q := fun same => by rw [same,zero] at more; omega
      simp only [zero,ite_self,Nat.add_zero] at later
      rw [map_cons,filter_cons_of_neg (by simpa using filled),later ((mem_cons.mp member).resolve_left other)]

theorem bounded_allocate {n a : Nat} {final : List Extent} (bounded : Bounded l) (found : allocate n l = some (a,final)) :
    0 < a ∧ Bounded final := by
  induction l generalizing a final with
  | nil => cases found
  | cons f l ih =>
    have first := bounded f mem_cons_self
    have others : Bounded l := fun g member => bounded g (mem_cons_of_mem _ member)
    rw [allocate] at found
    by_cases fits : n ≤ f.len
    · rw [if_pos fits] at found
      cases found
      refine ⟨first.1,?_⟩
      split_ifs
      · exact others
      refine forall_mem_cons.mpr ⟨?_,others⟩
      simp only [Extent.stop] at first ⊢
      omega
    · rw [if_neg fits,map_eq_some_iff] at found
      obtain ⟨⟨b,tail⟩,later,same⟩ := found
      cases same
      obtain ⟨low,kept⟩ := ih others later
      exact ⟨low,forall_mem_cons.mpr ⟨first,kept⟩⟩

theorem mallocs_allocates {mp : Map} {ns : List Nat} (represents : Represents mp l) (nonzero : ∀ n ∈ ns, n ≠ 0) :
    ∃ next, mallocs mp ns = .ok (next,(allocates ns l).map Prod.fst) ∧ ∀ addrs final, allocates ns l = some (addrs,final) →
      live next = final := by
  induction ns generalizing mp l with
  | nil =>
    obtain ⟨rest,shape⟩ := represents.shape
    exact ⟨mp,rfl,fun addrs final same => by cases same; exact live_of_shape represents.positive shape⟩
  | cons n ns ih =>
    obtain ⟨next,ok,becomes⟩ := malloc_allocates represents (nonzero n mem_cons_self)
    rw [mallocs,ok]
    cases found : allocate n l with
    | none =>
      simp only [allocates,found]
      exact ⟨next,rfl,by rintro _ _ ⟨⟩⟩
    | some piece =>
      obtain ⟨a,left⟩ := piece
      rw [found] at becomes
      obtain ⟨low,bounded⟩ := bounded_allocate represents.bounded found
      obtain ⟨middle,-,rfl⟩ := allocate_carved represents.positive found
      obtain ⟨after,later,same⟩ := ih ⟨becomes.shape,positive_dropEmpty middle,bounded⟩ fun m member =>
        nonzero m (mem_cons_of_mem _ member)
      have address : ¬ a = 0 := by omega
      simp only [bind,Except.bind,map_some,getD_some,address,if_false,later,allocates,found,bind_some]
      refine ⟨after,?_,fun addrs final all => ?_⟩
      · cases allocates ns (dropEmpty middle) <;> rfl
      obtain ⟨⟨bs,tail⟩,others,rest⟩ := map_eq_some_iff.mp all
      cases rest
      exact same bs _ others

/-- The pass over the entries places the segments as the calls one after the other do, and a segment of size 0 takes nothing. -/
theorem malloc3_mallocs {mp : Map} (represents : Represents mp l) (dSize sSize uSize : Nat) (nonzero : uSize ≠ 0) :
    ∃ next found after addrs, malloc3 mp dSize sSize uSize = .ok (next,found) ∧
      mallocs mp ([dSize,sSize,uSize].filter (0 < ·)) = .ok (after,addrs) ∧
      (found = none → addrs = none ∧ next = mp) ∧
      ∀ all, found = some all → all.length = 3 ∧ live next = live after ∧
        addrs = some ((dropEmpty (pieces [dSize,sSize,uSize] all)).map (·.start)) ∧
        (dSize ≠ 0 → sSize ≠ 0 → addrs = some all) := by
  have nonzeros : ∀ n ∈ [dSize,sSize,uSize].filter (0 < ·), n ≠ 0 := fun n member => by
    have := (mem_filter.mp member).2
    simp only [decide_eq_true_eq] at this
    omega
  obtain ⟨after,called,final⟩ := mallocs_allocates represents nonzeros
  obtain ⟨⟨rest,shape⟩,positive,bounded⟩ := represents
  obtain ⟨mMap,limit,name⟩ := mp
  cases shape
  obtain ⟨t,done,top,searched,at_t,all,failed,succeeded⟩ := @malloc3_cases limit name l rest positive bounded dSize sSize uSize
  obtain ⟨fit,fewer⟩ := search_fitted positive (Nat.zero_le _) (searching_start positive _) ⟨by rintro _ _ ⟨⟩,
    fun k j f at_j _ low => by omega⟩
    (show placed (fun _ => none) ≠ 3 by decide) searched
  have whole : dropEmpty (advance l fun _ => 0) = l := by rw [advance_zero,dropEmpty_of_positive positive]
  cases done with
  | false =>
    refine ⟨_,none,after,_,failed rfl,called,fun _ => ⟨?_,rfl⟩,by rintro _ ⟨⟩⟩
    obtain ⟨k,unset,more⟩ : ∃ k, t.madd k = none ∧ 0 < ![dSize,sSize,uSize] k := by
      by_contra! none_left
      obtain ⟨i,picked⟩ : ∃ i, t.madd 2 = some i := ne_none_iff_exists'.mp fun unset => by
        have zero : uSize ≤ 0 := none_left 2 unset
        omega
      have inside := (at_t.chosen 2 i picked).2
      have at_i : l[i]? = some l[i] := List.getElem?_eq_getElem inside
      have every : ∀ k, (t.madd k).isSome := by
        intro k
        by_contra unset
        rw [not_isSome_iff_eq_none] at unset
        have short := fit.short k i _ at_i (fun j same => absurd (same.symm.trans unset) (Option.some_ne_none j)) (.inl inside)
        have zero := none_left k unset
        have room := at_t.within i _ at_i
        have part : before ![dSize,sSize,uSize] t.madd k i ≤ due ![dSize,sSize,uSize] t.madd [0,1,2] i :=
          (filter_sublist.map _).sum_le_sum fun _ _ => Nat.zero_le _
        omega
      exact fewer rfl (by simp [placed,every])
    have none_left := allocates_short (fun j f at_j => by simpa using at_t.within j f at_j) fit.fitted
      (fun k i picked => (at_t.chosen k i picked).2) (by fin_cases k <;> simp) unset more
    rw [whole] at none_left
    exact congrArg (Option.map Prod.fst) none_left
  | true =>
    obtain ⟨next,addrs,ok,listed,carved,becomes⟩ := succeeded rfl
    obtain ⟨same,resolved,-,placing⟩ := @resolve_carves limit name l rest bounded ![dSize,sSize,uSize] t.madd
      (due ![dSize,sSize,uSize] t.madd [0,1,2]) at_t.within [0,1,2] (fun _ => 0) (fun k _ => by
        obtain ⟨i,picked⟩ := placed_all (all rfl) k
        exact ⟨i,picked,(at_t.chosen k i picked).2⟩) (by simp)
    rw [at_t.map,resolved] at listed
    cases listed
    have placing := placing fit.fitted
    rw [whole] at placing
    refine ⟨next,some same,after,_,ok,called,by rintro ⟨⟩,fun _ is => ?_⟩
    cases is
    have starts : (allocates ([dSize,sSize,uSize].filter (0 < ·)) l).map Prod.fst =
        some ((dropEmpty (pieces [dSize,sSize,uSize] same)).map (·.start)) := congrArg (Option.map Prod.fst) placing
    have count : same.length = 3 := by simpa using addrs_carved carved
    refine ⟨count,?_,starts,fun data stack => ?_⟩
    · rw [becomes.live_eq (positive_dropEmpty _)]
      exact (final _ _ placing).symm
    rw [starts]
    obtain ⟨a,b,c,rfl⟩ := length_eq_three.mp count
    simp [pieces,dropEmpty,Nat.pos_iff_ne_zero.mpr data,Nat.pos_iff_ne_zero.mpr stack,Nat.pos_iff_ne_zero.mpr nonzero]

def threeHoles : Map := ⟨[⟨4,1⟩,⟨20,10⟩,⟨5,40⟩,⟨0,0⟩],4,"swapmap"⟩

theorem malloc3_mallocs_threeHoles : ∃ next after, malloc3 threeHoles 4 0 5 = .ok (next,some [1,5,10]) ∧
    mallocs threeHoles [4,5] = .ok (after,some [1,10]) ∧ live next = live after := by
  obtain ⟨next,found,after,addrs,single,calls,-,same⟩ := malloc3_mallocs (l := [⟨1,4⟩,⟨10,20⟩,⟨40,5⟩])
    (show Represents threeHoles _ from ⟨⟨[],rfl⟩,by simp [Positive],by simp [Bounded,Extent.stop]⟩) 4 0 5 (by decide)
  have result : (malloc3 threeHoles 4 0 5).map Prod.snd = .ok (some [1,5,10]) := rfl
  rw [single] at result
  cases result
  obtain ⟨-,free,rfl,-⟩ := same _ rfl
  exact ⟨next,after,single,calls,free⟩

end Retrobsd.ResourceMap
