import Retrobsd.ArchiveCalls

/-! What the commands of `ar` do to the list of the members. -/
namespace Retrobsd.Archives
open List Option Bool
open Relocations (Byte)
open Lib.Fields

def sort (argv : List Path) : List Member → List (Member × Option Path) × List Path
  | [] => ([],argv)
  | m :: ms =>
    match files m.name argv with
    | some (p,argv) => ((m,some p) :: (sort argv ms).1,(sort argv ms).2)
    | none => ((m,none) :: (sort argv ms).1,(sort argv ms).2)

def passes (skip : Member → Path → Bool) (x : Member × Option Path) : Bool :=
  match x.2 with
  | some p => if skip x.1 p then x.1.skips else x.1.copies
  | none => x.1.copies

theorem files_rname {name : List Byte} {argv left : List Path} {p : Path} (found : files name argv = some (p,left)) :
    rname p.bytes = name ∧ p ∈ argv ∧ ∀ q ∈ left, q ∈ argv := by
  induction argv generalizing left with
  | nil => cases found
  | cons q argv ih =>
    rw [files] at found
    split at found
    next same =>
      cases found
      exact ⟨same.symm,mem_cons_self,fun q member => mem_cons_of_mem _ member⟩
    next =>
      rw [map_eq_some_iff] at found
      obtain ⟨⟨p',left'⟩,found,same⟩ := found
      cases same
      obtain ⟨named,member,inside⟩ := ih found
      refine ⟨named,mem_cons_of_mem _ member,fun q' listed => ?_⟩
      rcases mem_cons.mp listed with rfl | listed
      · exact mem_cons_self
      · exact mem_cons_of_mem _ (inside q' listed)

theorem sort_members (argv : List Path) (ms : List Member) : (sort argv ms).1.map Prod.fst = ms := by
  induction ms generalizing argv with
  | nil => rfl
  | cons m ms ih =>
    rw [sort]
    split <;> exact congrArg (m :: ·) (ih _)

theorem sort_named {argv : List Path} {ms : List Member} :
    (∀ x ∈ (sort argv ms).1, ∀ p ∈ x.2, rname p.bytes = x.1.name ∧ p ∈ argv) ∧
    ∀ p ∈ (sort argv ms).2, p ∈ argv := by
  induction ms generalizing argv with
  | nil => exact ⟨fun _ member => (nomatch member),fun _ member => member⟩
  | cons m ms ih =>
    rw [sort]
    split
    next p left found =>
      obtain ⟨named,member,inside⟩ := files_rname found
      obtain ⟨marked,remaining⟩ := @ih left
      refine ⟨fun x listed q is => ?_,fun q listed => inside q (remaining q listed)⟩
      rcases mem_cons.mp listed with rfl | listed
      · cases is
        exact ⟨named,member⟩
      · exact (marked x listed q is).imp_right (inside q)
    next =>
      obtain ⟨marked,remaining⟩ := @ih argv
      refine ⟨fun x listed q is => ?_,remaining⟩
      rcases mem_cons.mp listed with rfl | listed
      · cases is
      · exact marked x listed q is

def unmarked (x : Member × Option Path) : Bool := x.2.isNone

variable {σ : Type} {act : Chdr → List Byte → σ → Except Fault (σ × Option (List Byte))}

theorem encodeAll_cons (m : Member) (ms : List Member) : encodeAll (m :: ms) = m.encode ++ encodeAll ms := flatMap_cons

theorem encodeAll_append (ms ns : List Member) : encodeAll (ms ++ ns) = encodeAll ms ++ encodeAll ns := flatMap_append

theorem eachArobj_nil (n : Nat) (s : σ) : eachArobj act (n + 1) (encodeAll []) s = .ok s := rfl

theorem eachArobj_cons (n : Nat) (m : Member) (ms : List Member) {s t : σ}
    (turn : act m.chdr (m.body ++ encodeAll ms) s = .ok (t,some (encodeAll ms))) :
    eachArobj act (n + 1) (encodeAll (m :: ms)) s = eachArobj act n (encodeAll ms) t := by
  rw [eachArobj,encodeAll_cons,getArobj_encode]
  change (act m.chdr (m.body ++ encodeAll ms) s >>= _) = _
  rw [turn]
  rfl

theorem length_encodeAll (ms : List Member) : ms.length ≤ (encodeAll ms).length := by
  induction ms with
  | nil => exact Nat.zero_le _
  | cons m ms ih =>
    have some : 0 < m.encode.length := by
      rw [Member.encode,length_append,length_append,length_header,arhdrsz]
      omega
    rw [encodeAll_cons,length_append,length_cons]
    omega

theorem openArchive_encode (f : List Byte) : openArchive (armag ++ f) = .ok f := by
  have take : (armag ++ f).take sarmag = armag := take_left' rfl
  have drop : (armag ++ f).drop sarmag = f := drop_left' rfl
  rw [openArchive,if_pos take,drop]

theorem copyAll_eq (tfd : List Byte) : copyAll tfd = .ok tfd := by
  rw [copyAll,copyAr]
  by_cases empty : tfd = []
  · subst empty
    rfl
  have some : tfd.length ≠ 0 := fun none => empty (length_eq_zero_iff.mp none)
  rw [if_neg (by omega),if_neg (by omega)]
  simp [Except.map]

def added (disk : Disk) (argv : List Path) : List Member := argv.filterMap fun p => (disk p).map (Member.of p)

theorem putAll_eq (disk : Disk) (argv : List Path) :
    putAll disk argv = .ok (encodeAll (added disk argv),if argv.all fun p => (disk p).isSome then 0 else 1) := by
  induction argv with
  | nil => rfl
  | cons p argv ih =>
    rw [putAll]
    cases found : disk p with
    | none =>
      dsimp only
      rw [ih]
      simp [added,found,bind,Except.bind,pure,Except.pure]
    | some sb =>
      dsimp only
      rw [putDisk_eq,ih]
      simp [added,found,bind,Except.bind,pure,Except.pure,encodeAll_cons]

variable {ms : List Member} {argv : List Path}

theorem append_encode (disk : Disk) (argv : List Path) (ms : List Member) : append disk argv (some (armag ++ encodeAll ms)) =
      .ok (some (armag ++ encodeAll (ms ++ added disk argv)),if argv.all fun p => (disk p).isSome then 0 else 1) := by
  rw [append]
  dsimp only
  rw [openArchive_encode,putAll_eq,encodeAll_append,← append_assoc]
  rfl

theorem append_new (disk : Disk) (argv : List Path) :
    append disk argv none = .ok (some (armag ++ encodeAll (added disk argv)),if argv.all fun p =>
    (disk p).isSome then 0 else 1) := by
  rw [append]
  dsimp only
  rw [putAll_eq]
  rfl

section
variable {τ : Type} (act) in
theorem eachArobj_sort (mk : List Path → τ → σ) (next : τ → Member × Option Path → τ) (pass : Member × Option Path → Bool)
    (marked : ∀ m p argv left t rest, files m.name argv = some (p,left) → pass (m,some p) = true →
      act m.chdr (m.body ++ rest) (mk argv t) = .ok (mk left (next t (m,some p)),some rest))
    (plain : ∀ m argv t rest, files m.name argv = none → pass (m,none) = true →
      act m.chdr (m.body ++ rest) (mk argv t) = .ok (mk argv (next t (m,none)),some rest))
    {n : Nat} (fuel : ms.length < n) (argv : List Path) (t : τ) (passed : ∀ x ∈ (sort argv ms).1, pass x = true) :
    eachArobj act n (encodeAll ms) (mk argv t) = .ok (mk (sort argv ms).2 ((sort argv ms).1.foldl next t)) := by
  induction ms generalizing n argv t with
  | nil =>
    obtain _ | n := n
    · omega
    rw [eachArobj_nil]
    rfl
  | cons m ms ih =>
    obtain _ | n := n
    · omega
    have enough : ms.length < n := by simpa using fuel
    cases found : files m.name argv with
    | some r =>
      obtain ⟨p,left⟩ := r
      have sorted : sort argv (m :: ms) = ((m,some p) :: (sort left ms).1,(sort left ms).2) := by simp only [sort,found]
      rw [sorted] at passed ⊢
      rw [eachArobj_cons n m ms (marked m p argv left t _ found (passed _ mem_cons_self)),
        ih enough left _ fun x member => passed x (mem_cons_of_mem _ member)]
      rfl
    | none =>
      have sorted : sort argv (m :: ms) = ((m,none) :: (sort argv ms).1,(sort argv ms).2) := by simp only [sort,found]
      rw [sorted] at passed ⊢
      rw [eachArobj_cons n m ms (plain m argv t _ found (passed _ mem_cons_self)),
        ih enough argv _ fun x member => passed x (mem_cons_of_mem _ member)]
      rfl

end

def deleted (argv : List Path) (ms : List Member) : List Member := ((sort argv ms).1.filter unmarked).map Prod.fst

theorem encode_unmarked (xs : List (Member × Option Path)) (tfd : List Byte) :
    xs.foldl (fun tfd x => if unmarked x then tfd ++ x.1.encode else tfd) tfd = tfd ++ encodeAll
    ((xs.filter unmarked).map Prod.fst) := by
  induction xs generalizing tfd with
  | nil => simp [encodeAll]
  | cons x xs ih =>
    rw [foldl_cons,ih]
    cases plain : unmarked x with
    | true => rw [filter_cons_of_pos plain,map_cons,encodeAll_cons,if_pos rfl,append_assoc]
    | false => rw [filter_cons_of_neg (by simp [plain])]; rfl

theorem delete_encode (pass : ∀ x ∈ (sort argv ms).1, passes (fun _ _ => true) x = true) :
    delete argv (some (armag ++ encodeAll ms)) =
      .ok (some (armag ++ encodeAll (deleted argv ms)),if (sort argv ms).2 = [] then 0 else 1) := by
  have loop := eachArobj_sort deleteAct (fun argv tfd => ⟨argv,tfd⟩) (fun tfd x =>
    if unmarked x then tfd ++ x.1.encode else tfd) (passes fun _ _ => true)
    (fun m p argv left tfd rest found skips => by
      rw [deleteAct,show m.chdr.name = m.name from rfl]
      simp only [found]
      rw [skipArobj_body m skips]
      rfl)
    (fun m argv tfd rest found copies => by
      rw [deleteAct,show m.chdr.name = m.name from rfl]
      simp only [found]
      rw [putHeld_body m copies]
      rfl)
    (Nat.lt_succ_of_le (length_encodeAll ms)) argv [] pass
  rw [encode_unmarked,nil_append] at loop
  simp only [delete,bind,Except.bind,openArchive_encode]
  rw [loop]
  simp only [copyAll_eq,pure,Except.pure,deleted]

section
variable {α : Type}

def halves (behind : Bool) (key : α → Bool) : List α → Option (List α × List α)
  | [] => none
  | x :: xs =>
    if key x then some (if behind then ([x],xs) else ([],x :: xs)) else (halves behind key xs).map fun (a,b) => (x :: a,b)

def parted (place : Option Place) (key : α → Bool) (xs : List α) : Option (List α × List α) :=
  match place with
  | none => some (xs,[])
  | some p => halves p.behind key xs

theorem halves_append {behind : Bool} {key : α → Bool} {xs a b : List α}
    (found : halves behind key xs = some (a,b)) : xs = a ++ b := by
  induction xs generalizing a with
  | nil => cases found
  | cons x xs ih =>
    rw [halves] at found
    split at found
    next =>
      cases behind <;>
      · cases found
        rfl
    next =>
      rw [map_eq_some_iff] at found
      obtain ⟨⟨a',b'⟩,found,same⟩ := found
      cases same
      rw [ih found]
      rfl

theorem parted_append {place : Option Place} {key : α → Bool} {xs a b : List α}
    (found : parted place key xs = some (a,b)) : xs = a ++ b := by
  cases place with
  | none =>
    cases found
    exact (append_nil _).symm
  | some p => exact halves_append found

def Parts.pass (s : Parts) (behind key : Bool) (out : List Byte) : Parts :=
  if s.mods && key then
    if behind then {s.put out with later := true,mods := false} else {s with later := true,mods := false}.put out
  else s.put out

variable {behind : Bool} {key : α → Bool} {enc : α → List Byte}

theorem pass_plain (xs : List α) (t u : List Byte) (later : Bool) :
    xs.foldl (fun (s : Parts) x => s.pass behind (key x) (enc x)) ⟨t,u,later,false⟩ =
      if later then ⟨t,u ++ xs.flatMap enc,true,false⟩ else ⟨t ++ xs.flatMap enc,u,false,false⟩ := by
  induction xs generalizing t u with
  | nil => cases later <;> simp
  | cons x xs ih =>
    have turn : Parts.pass ⟨t,u,later,false⟩ behind (key x) (enc x) =
        if later then ⟨t,u ++ enc x,true,false⟩ else ⟨t ++ enc x,u,false,false⟩ := by
      cases later <;> rfl
    rw [foldl_cons,turn]
    cases later with
    | true =>
      have rest := ih t (u ++ enc x)
      simp only [if_true] at rest ⊢
      rw [rest,flatMap_cons,append_assoc]
    | false =>
      have rest := ih (t ++ enc x) u
      simp only [false_eq_true,if_false] at rest ⊢
      rw [rest,flatMap_cons,append_assoc]

theorem pass_halves (xs : List α) (t : List Byte) :
    xs.foldl (fun (s : Parts) x => s.pass behind (key x) (enc x)) ⟨t,[],false,true⟩ =
      match halves behind key xs with
      | some (a,b) => ⟨t ++ a.flatMap enc,b.flatMap enc,true,false⟩
      | none => ⟨t ++ xs.flatMap enc,[],false,true⟩ := by
  induction xs generalizing t with
  | nil => simp [halves]
  | cons x xs ih =>
    rw [foldl_cons,halves]
    cases here : key x with
    | true =>
      cases behind with
      | true =>
        have turn : Parts.pass ⟨t,[],false,true⟩ true true (enc x) = ⟨t ++ enc x,[],true,false⟩ := rfl
        rw [turn,pass_plain]
        simp
      | false =>
        have turn : Parts.pass ⟨t,[],false,true⟩ false true (enc x) = ⟨t,[] ++ enc x,true,false⟩ := rfl
        rw [turn,pass_plain]
        simp
    | false =>
      have turn : Parts.pass ⟨t,[],false,true⟩ behind false (enc x) = ⟨t ++ enc x,[],false,true⟩ := rfl
      rw [turn,ih]
      cases halves behind key xs with
      | none => simp
      | some r => simp

variable (key enc) in
theorem pass_parted (place : Option Place) (xs : List α) :
    xs.foldl (fun (s : Parts) x => s.pass (place.any Place.behind) (key x) (enc x)) (Parts.start place) =
      match parted place key xs with
      | some (a,b) => ⟨a.flatMap enc,b.flatMap enc,place.isSome,false⟩
      | none => ⟨xs.flatMap enc,[],false,true⟩ := by
  cases place with
  | none =>
    rw [show Parts.start none = ⟨[],[],false,false⟩ from rfl,pass_plain]
    simp [parted]
  | some p =>
    rw [show Parts.start (some p) = ⟨[],[],false,true⟩ from rfl,pass_halves]
    rfl

end

def swaps (disk : Disk) (update : Bool) (m : Member) (p : Path) : Bool :=
    (disk p).any fun sb => !(update && sb.mtime ≤ m.stat.mtime)

def now (disk : Disk) (update : Bool) (x : Member × Option Path) : Member :=
  match x.2 with
  | some p =>
    match disk p with
    | some sb => if update && sb.mtime ≤ x.1.stat.mtime then x.1 else Member.of p sb
    | none => x.1
  | none => x.1

def keyed (place : Option Place) (x : Member × Option Path) : Bool := unmarked x && isKey place x.1.name

def replaced (disk : Disk) (update : Bool) (place : Option Place) (argv : List Path) (ms : List Member) : List Member :=
  match parted place (keyed place) (sort argv ms).1 with
  | some (a,b) => a.map (now disk update) ++ added disk (sort argv ms).2 ++ b.map (now disk update)
  | none => ms

theorem flatMap_encode {α : Type} (xs : List α) (f : α → Member) :
    (xs.flatMap fun x => (f x).encode) = encodeAll (xs.map f) := by
  rw [encodeAll,flatMap_map]

theorem replace_encode (disk : Disk) (update : Bool) (place : Option Place)
    (pass : ∀ x ∈ (sort argv ms).1, passes (swaps disk update) x = true) :
    ∃ status, replace disk update place argv (some (armag ++ encodeAll ms)) =
      .ok (some (armag ++ encodeAll (replaced disk update place argv ms)),status) := by
  have loop := eachArobj_sort (replaceAct disk update place) (fun argv (t : Parts × Nat) => ⟨argv,t.1,t.2⟩)
    (fun t x => (t.1.pass (place.any Place.behind) (keyed place x) (now disk update x).encode,
      if x.2.any fun p => (disk p).isNone then 1 else t.2)) (passes (swaps disk update))
    (fun m p argv left t rest found passed => by
      rw [replaceAct,show m.chdr.name = m.name from rfl]
      simp only [found]
      rw [passes] at passed
      dsimp only at passed
      rw [swaps] at passed
      have plain : ∀ out, t.1.pass (place.any Place.behind) (keyed place (m,some p)) out = t.1.put out := by
        intro out
        rw [Parts.pass,show keyed place (m,some p) = false from rfl,Bool.and_false]
        rfl
      cases opened : disk p with
      | none =>
        rw [opened] at passed
        have same : now disk update (m,some p) = m := by simp [now,opened]
        dsimp only
        rw [putHeld_body m passed,plain,same]
        simp [opened,bind,Except.bind,pure,Except.pure]
      | some sb =>
        rw [opened] at passed
        dsimp only
        rw [plain,show m.chdr.date = m.stat.mtime from rfl]
        by_cases older : (update && decide (sb.mtime ≤ m.stat.mtime)) = true
        · have same : now disk update (m,some p) = m := by simp only [now,opened,older,if_true]
          simp only [any_some,older,Bool.not_true,false_eq_true,if_false] at passed
          rw [if_pos older,putHeld_body m passed,same]
          simp [opened,bind,Except.bind,pure,Except.pure]
        have same : now disk update (m,some p) = Member.of p sb := by simp only [now,opened,older]; rfl
        rw [not_eq_true] at older
        simp only [any_some,older,Bool.not_false,if_true] at passed
        rw [older,if_neg Bool.false_ne_true,putDisk_eq,skipArobj_body m passed,same]
        simp [opened,bind,Except.bind,pure,Except.pure])
    (fun m argv t rest found copies => by
      rw [replaceAct,show m.chdr.name = m.name from rfl]
      simp only [found]
      rw [putHeld_body m copies]
      rfl)
    (Nat.lt_succ_of_le (length_encodeAll ms)) argv (.start place,0) pass
  have parts : ∀ (xs : List (Member × Option Path)) (t : Parts × Nat), (xs.foldl (fun (t : Parts × Nat) x =>
      (t.1.pass (place.any Place.behind) (keyed place x) (now disk update x).encode,
        if x.2.any fun p => (disk p).isNone then 1 else t.2)) t).1 =
      xs.foldl (fun (s : Parts) x => s.pass (place.any Place.behind) (keyed place x) (now disk update x).encode) t.1 := by
    intro xs
    induction xs with
    | nil => exact fun _ => rfl
    | cons x xs ih => exact fun t => ih _
  have kept := pass_parted (keyed place) (fun x => (now disk update x).encode) place (sort argv ms).1
  rw [← parts _ (.start place,0)] at kept
  generalize (sort argv ms).1.foldl _ (Parts.start place,0) = t at loop kept
  simp only [replace,bind,Except.bind,openArchive_encode]
  rw [loop]
  dsimp only
  rw [kept,replaced]
  cases found : parted place (keyed place) (sort argv ms).1 with
  | none => exact ⟨1,rfl⟩
  | some r =>
    obtain ⟨a,b⟩ := r
    refine ⟨max t.2 (if (sort argv ms).2.all fun p => (disk p).isSome then 0 else 1),?_⟩
    simp only [false_eq_true,if_false,putAll_eq,copyAll_eq,flatMap_encode,pure,Except.pure]
    refine congrArg (fun f => Except.ok (some f,_)) ?_
    cases place with
    | none =>
      cases found
      simp [encodeAll]
    | some p => simp [encodeAll_append]

theorem replace_new (disk : Disk) (update : Bool) (place : Option Place) (argv : List Path) :
    ∃ status, replace disk update place argv none =
    .ok (some (armag ++ encodeAll (if place.isSome then [] else added disk argv)),status) := by
  cases place with
  | none =>
    refine ⟨if argv.all fun p => (disk p).isSome then 0 else 1,?_⟩
    simp [replace,bind,Except.bind,putAll_eq,copyAll_eq,pure,Except.pure]
  | some p =>
    by_cases any : (argv.any fun p => (disk p).isSome) = true
    · exact ⟨1,by simp [replace,any,encodeAll,pure,Except.pure]⟩
    refine ⟨if argv.all fun p => (disk p).isSome then 0 else 1,?_⟩
    have none : added disk argv = [] := by
      rw [added,filterMap_eq_nil_iff]
      intro q member
      have missing : (disk q).isSome = false := by
        by_contra some
        exact any (any_eq_true.mpr ⟨q,member,not_eq_false _ ▸ some⟩)
      simpa using missing
    simp [replace,any,bind,Except.bind,putAll_eq,copyAll_eq,none,pure,Except.pure]

def selected (argv : List Path) (ms : List Member) : List Member := ((sort argv ms).1.filter fun x => !unmarked x).map Prod.fst

def moved (place : Option Place) (argv : List Path) (ms : List Member) : List Member :=
  match parted place (fun m : Member => isKey place m.name) (deleted argv ms) with
  | some (a,b) => a ++ selected argv ms ++ b
  | none => ms

theorem move_encode (place : Option Place) (pass : ∀ x ∈ (sort argv ms).1, passes (fun _ _ => false) x = true) :
    ∃ status, move place argv (some (armag ++ encodeAll ms)) = .ok (some (armag ++ encodeAll (moved place argv ms)),status) := by
  have copied : ∀ (c : Chdr) (f : List Byte) (s : Moving) out f', putHeld c f = .ok (out,f') → moveAct place c f s =
      match files c.name s.argv with
      | some (_,argv) => .ok ({s with argv,selected := s.selected ++ out},some f')
      | none => .ok ({s with parts := s.parts.keep place c.name out},some f') := by
    intro c f s out f' put
    rw [moveAct,put]
    cases files c.name s.argv <;> rfl
  have loop := eachArobj_sort (moveAct place) (fun argv (t : Parts × List Byte) => ⟨argv,t.1,t.2⟩)
    (fun t x => if unmarked x then (t.1.pass (place.any Place.behind) (isKey place x.1.name) x.1.encode,t.2)
      else (t.1,t.2 ++ x.1.encode)) (passes fun _ _ => false)
    (fun m p argv left t rest found copies => by
      rw [copied _ _ _ _ _ (putHeld_body m copies rest),show m.chdr.name = m.name from rfl]
      simp only [found]
      rfl)
    (fun m argv t rest found copies => by
      rw [copied _ _ _ _ _ (putHeld_body m copies rest),show m.chdr.name = m.name from rfl]
      simp only [found]
      rfl)
    (Nat.lt_succ_of_le (length_encodeAll ms)) argv (.start place,[]) pass
  have parts : ∀ (xs : List (Member × Option Path)) (t : Parts × List Byte), xs.foldl (fun (t : Parts × List Byte) x =>
      if unmarked x then (t.1.pass (place.any Place.behind) (isKey place x.1.name) x.1.encode,t.2) else
        (t.1,t.2 ++ x.1.encode)) t =
      (((xs.filter unmarked).map Prod.fst).foldl (fun (s : Parts) m =>
      s.pass (place.any Place.behind) (isKey place m.name) m.encode) t.1,
        t.2 ++ encodeAll ((xs.filter fun x => !unmarked x).map Prod.fst)) := by
    intro xs
    induction xs with
    | nil => intro t; simp [encodeAll]
    | cons x xs ih =>
      intro t
      rw [foldl_cons,ih]
      cases plain : unmarked x with
      | true => simp [plain]
      | false => simp [plain,encodeAll_cons]
  rw [parts,nil_append] at loop
  have kept := pass_parted (fun m : Member => isKey place m.name) Member.encode place (deleted argv ms)
  rw [deleted] at kept
  rw [kept] at loop
  simp only [move,bind,Except.bind,openArchive_encode]
  rw [loop,moved,deleted]
  dsimp only
  cases parted place (fun m : Member => isKey place m.name) (((sort argv ms).1.filter unmarked).map Prod.fst) with
  | none => exact ⟨1,rfl⟩
  | some r =>
    obtain ⟨a,b⟩ := r
    refine ⟨if (sort argv ms).2 = [] then 0 else 1,?_⟩
    simp only [false_eq_true,if_false,copyAll_eq,pure,Except.pure]
    refine congrArg (fun f => Except.ok (some f,_)) ?_
    simp [encodeAll,selected,flatMap_append]

section
variable (mtimes : List Extracted → List Byte → Option Int) (writes : List Extracted → List Byte → Bool) (update all : Bool)

def taken (m : Member) (argv : List Path) : Option (List Byte × List Path) :=
  if all then some (m.name,argv) else (files m.name argv).map fun (p,argv) => (p.bytes,argv)

/-- The files that `extract` has written after a list of members, and the arguments that are left. -/
def extracted : List Path → List Extracted → List Member → List Extracted × List Path
  | argv,out,[] => (out,argv)
  | argv,out,m :: ms =>
    match taken all m argv with
    | none => extracted argv out ms
    | some (file,argv) =>
      if update && (mtimes out file).any (· > m.stat.mtime) || !writes out file then extracted argv out ms
      else if !all && argv = [] then (out ++ [⟨file,m.stat.contents,m.stat.mode⟩],argv)
      else extracted argv (out ++ [⟨file,m.stat.contents,m.stat.mode⟩]) ms

/-- Each member that `extract` comes to is left behind as a whole. -/
def extractable : List Path → List Extracted → List Member → Bool
  | _,_,[] => true
  | argv,out,m :: ms =>
    match taken all m argv with
    | none => m.skips && extractable argv out ms
    | some (file,argv) =>
      if update && (mtimes out file).any (· > m.stat.mtime) then m.size == 0 && extractable argv out ms
      else if !writes out file then m.skips && extractable argv out ms
      else m.copies && (!all && argv = [] || extractable argv (out ++ [⟨file,m.stat.contents,m.stat.mode⟩]) ms)

variable {mtimes writes update all}

theorem extract_loop {n : Nat} (fuel : ms.length < n) (argv : List Path) (out : List Extracted)
    (able : extractable mtimes writes update all argv out ms = true) :
    eachArobj (extractAct mtimes writes update all) n (encodeAll ms) ⟨argv,out⟩ =
      .ok ⟨(extracted mtimes writes update all argv out ms).2,(extracted mtimes writes update all argv out ms).1⟩ := by
  induction ms generalizing n argv out with
  | nil =>
    obtain _ | n := n
    · omega
    rw [eachArobj_nil]
    simp [extracted]
  | cons m ms ih =>
    obtain _ | n := n
    · omega
    have enough : ms.length < n := by simpa using fuel
    have picked : (if all then some (m.chdr.name,argv) else (files m.chdr.name argv).map fun (p,argv) => (p.bytes,argv)) =
        taken all m argv := rfl
    rw [extractable] at able
    rw [extracted]
    cases found : taken all m argv with
    | none =>
      simp only [found,and_eq_true] at able ⊢
      have turn : extractAct mtimes writes update all m.chdr (m.body ++ encodeAll ms) ⟨argv,out⟩ =
        .ok (⟨argv,out⟩,some (encodeAll ms)) := by
        simp only [extractAct,picked,found]
        rw [skipArobj_body m able.1]
        rfl
      rw [eachArobj_cons n m ms turn,ih enough argv out able.2]
    | some r =>
      obtain ⟨file,left⟩ := r
      simp only [found] at able ⊢
      by_cases newer : (update && (mtimes out file).any fun t => decide (t > m.stat.mtime)) = true
      · rw [if_pos newer,and_eq_true,beq_iff_eq] at able
        have none : m.body = [] := by
          have contents : m.stat.contents = [] := length_eq_zero_iff.mp able.1
          rw [Member.body,contents,Member.pad,if_neg fun odd => odd.1 able.1]
          rfl
        have turn : extractAct mtimes writes update all m.chdr (m.body ++ encodeAll ms) ⟨argv,out⟩ =
          .ok (⟨left,out⟩,some (encodeAll ms)) := by
          simp only [extractAct,picked,found,none,nil_append,show m.chdr.date = m.stat.mtime from rfl]
          rw [if_pos newer]
          rfl
        rw [eachArobj_cons n m ms turn,ih enough left out able.2,if_pos (by rw [newer,Bool.true_or])]
      rw [if_neg newer] at able
      rw [not_eq_true] at newer
      rw [newer,Bool.false_or]
      by_cases shut : (!writes out file) = true
      · rw [if_pos shut,and_eq_true] at able
        have turn : extractAct mtimes writes update all m.chdr (m.body ++ encodeAll ms) ⟨argv,out⟩ =
          .ok (⟨left,out⟩,some (encodeAll ms)) := by
          simp only [extractAct,picked,found,show m.chdr.date = m.stat.mtime from rfl,newer,false_eq_true,if_false]
          rw [if_pos shut,skipArobj_body m able.1]
          rfl
        rw [eachArobj_cons n m ms turn,ih enough left out able.2,if_pos shut]
      rw [if_neg shut,and_eq_true] at able
      rw [if_neg shut]
      have copied : copyAr true false m.chdr.size 0 (m.body ++ encodeAll ms) = .ok (m.stat.contents,encodeAll ms) := by
        have with_ := copyAr_body m able.1 false (encodeAll ms)
        have same : copyAr true false m.chdr.size 0 (m.body ++ encodeAll ms) = copyAr true false m.size m.lname
          (m.body ++ encodeAll ms) := rfl
        rw [same,with_]
        simp
      have turn : extractAct mtimes writes update all m.chdr (m.body ++ encodeAll ms) ⟨argv,out⟩ =
          .ok (⟨left,out ++ [⟨file,m.stat.contents,m.stat.mode⟩]⟩,if !all && left = [] then none else some (encodeAll ms)) := by
        simp only [extractAct,picked,found,show m.chdr.date = m.stat.mtime from rfl,newer,false_eq_true,if_false]
        rw [if_neg shut,copied]
        rfl
      by_cases last : (!all && decide (left = [])) = true
      · rw [if_pos last] at turn ⊢
        rw [eachArobj,encodeAll_cons,getArobj_encode]
        change (extractAct mtimes writes update all m.chdr (m.body ++ encodeAll ms) ⟨argv,out⟩ >>= _) = _
        rw [turn]
        rfl
      rw [if_neg last] at turn ⊢
      have able' := able.2
      rw [not_eq_true] at last
      rw [last,Bool.false_or] at able'
      rw [eachArobj_cons n m ms turn,ih enough left _ able']

theorem extract_encode (argv : List Path) (able : extractable mtimes writes update argv.isEmpty argv [] ms = true) :
    extract mtimes writes update argv (some (armag ++ encodeAll ms)) =
    .ok ((extracted mtimes writes update argv.isEmpty argv [] ms).1,
        if (extracted mtimes writes update argv.isEmpty argv [] ms).2 = [] then 0 else 1) := by
  have loop := extract_loop (Nat.lt_succ_of_le (length_encodeAll ms)) argv [] able
  simp only [extract,bind,Except.bind,openArchive_encode]
  rw [loop]
  rfl

end

end Retrobsd.Archives
