import Retrobsd.ArchiveLists
import Retrobsd.Lib.Run

/-! Sequences of commands on an archive: it stays a list of members, and no command changes or moves
the members that it does not name. -/
namespace Retrobsd.Archives
open List Option
open Relocations (Byte)
open Lib.Fields Lib.Run

section
variable (archive : List Byte)

def objects (ms : List Member) : List Member := ms.filter fun m => m.name != ranlibmag

def rlibs : List Member → Nat → Except Fault (List Rlib)
  | [],_ => .ok []
  | m :: ms,wOff =>
    if m.name = ranlibmag then rlibs ms wOff
    else do
      let found ← rexec archive (archive.length - (m.body ++ encodeAll ms).length) wOff
      let more ← rlibs ms (wOff + m.encode.length)
      return found ++ more

def built (m : Member) : Bool := if m.name = ranlibmag then m.skips else m.copies

variable {archive} (archive) in
theorem build_loop {n : Nat} {ms : List Member} (fuel : ms.length < n) (tfd : List Byte) (rs : List Rlib)
    (pass : ∀ m ∈ ms, built m = true) :
    eachArobj (buildAct archive) n (encodeAll ms) ⟨tfd,rs⟩ =
      (rlibs archive ms tfd.length).map fun found => ⟨tfd ++ encodeAll (objects ms),rs ++ found⟩ := by
  induction ms generalizing n tfd rs with
  | nil =>
    obtain _ | n := n
    · omega
    rw [eachArobj_nil]
    simp [rlibs,objects,encodeAll,Except.map]
  | cons m ms ih =>
    obtain _ | n := n
    · omega
    have enough : ms.length < n := by simpa using fuel
    have here := pass m mem_cons_self
    replace ih := fun tfd rs => ih enough tfd rs fun x member => pass x (mem_cons_of_mem _ member)
    rw [built] at here
    by_cases table : m.name = ranlibmag
    · rw [if_pos table] at here
      have turn : buildAct archive m.chdr (m.body ++ encodeAll ms) ⟨tfd,rs⟩ = .ok (⟨tfd,rs⟩,some (encodeAll ms)) := by
        rw [buildAct,show m.chdr.name = m.name from rfl,if_pos table,skipArobj_body m here]
        rfl
      have rest : objects (m :: ms) = objects ms := filter_cons_of_neg (by simp [table])
      rw [eachArobj_cons n m ms turn,ih,rlibs,if_pos table,rest]
    rw [if_neg table] at here
    have rest : objects (m :: ms) = m :: objects ms := filter_cons_of_pos (by simp [table])
    have act : buildAct archive m.chdr (m.body ++ encodeAll ms) ⟨tfd,rs⟩ =
        (rexec archive (archive.length - (m.body ++ encodeAll ms).length) tfd.length).map fun found =>
          (⟨tfd ++ m.encode,rs ++ found⟩,some (encodeAll ms)) := by
      rw [buildAct,show m.chdr.name = m.name from rfl,if_neg table,putHeld_body m here]
      cases rexec archive (archive.length - (m.body ++ encodeAll ms).length) tfd.length <;> rfl
    rw [rlibs,if_neg table,rest]
    cases saved : rexec archive (archive.length - (m.body ++ encodeAll ms).length) tfd.length with
    | error e =>
      rw [saved] at act
      rw [eachArobj,encodeAll_cons,getArobj_encode]
      change (buildAct archive m.chdr (m.body ++ encodeAll ms) ⟨tfd,rs⟩ >>= _) = _
      rw [act]
      rfl
    | ok found =>
      rw [saved] at act
      rw [eachArobj_cons n m ms act,ih,length_append,encodeAll_cons]
      cases rlibs archive ms (tfd.length + m.encode.length) with
      | error e => rfl
      | ok more => simp [Except.map,bind,Except.bind,pure,Except.pure]

theorem length_symobj (rs : List Rlib) : (symobj rs).length = ransize rs := by
  have sizes : (rs.flatMap fun r => BitVec.ofNat 8 r.sym.length ::
      (Relocations.fputword (BitVec.ofNat 32 (sarmag + arhdrsz + ransize rs + r.pos)) ++ r.sym)).length =
      (rs.map fun r => r.sym.length + 5).sum := by
    rw [length_flatMap]
    refine congrArg List.sum (map_congr_left fun r _ => ?_)
    rw [length_cons,length_append,show ∀ w, (Relocations.fputword w).length = 4 from fun _ => rfl]
    omega
  rw [symobj,length_append,sizes,length_replicate,ransize]

theorem ransize_even (rs : List Rlib) : ransize rs % 4 = 0 := by
  rw [ransize]
  omega

/-- Who runs `ranlib` has an owner of six digits, and the time is one of 32 bits. -/
structure Runner extends User where
  owner : uid < 10^6 ∧ gid < 10^6
  clock : (time + ranlibskew).natAbs < 10^10

def symdef (runner : Runner) (rs : List Rlib) (small : (symobj rs).length < 2^31) : Member where
  name := ranlibmag
  stat := {
    mtime := runner.time + ranlibskew
    uid := runner.uid
    gid := runner.gid
    mode := 0o666 &&& (0o777 ^^^ runner.umask % 0o1000)
    contents := symobj rs
    time := runner.clock
    owner := runner.owner
    bits := Nat.and_le_left.trans_lt (by decide)
    small := small }
  named := by decide

theorem symdef_encode (runner : Runner) (rs : List Rlib) (small : (symobj rs).length < 2^31) (rest : List Byte) :
    settime (armag ++ (symdefHeader runner.toUser 0 (ransize rs)).take arhdrsz ++ symobj rs ++ rest) runner.time =
      armag ++ (symdef runner rs small).encode ++ rest := by
  set m := symdef runner rs small with whole
  have size : m.size = ransize rs := length_symobj rs
  have lname : m.lname = 0 := rfl
  have pad : m.pad = [] := if_neg fun odd => by
    have even := ransize_even rs
    rw [size,lname] at odd
    omega
  obtain ⟨uid,gid⟩ := length_digits_owner m.stat
  have mode := length_left (length_digits_mode m.stat)
  have length := length_left (length_digits_size m)
  rw [lname,Nat.add_zero,size] at length
  replace uid := length_left uid
  replace gid := length_left gid
  have date := length_left (length_decimal_mtime m.stat)
  have old : (left 12 (decimal 0)).length = 12 := rfl
  have name : (left 16 (ranlibmag.take 16)).length = 16 := rfl
  -- the header before `settime`, and behind it
  have before : (symdefHeader runner.toUser 0 (ransize rs)).take arhdrsz = left 16 (ranlibmag.take 16) ++ (left 12 (decimal 0) ++
      (left 6 (digits 10 m.stat.uid) ++ (left 6 (digits 10 m.stat.gid) ++ (left 8 (digits 8 m.stat.mode) ++
        (left 10 (digits 10 (ransize rs)) ++ arfmag))))) := by
    rw [take_of_length_le]
    · simp only [symdefHeader,append_assoc]
      rfl
    simp only [symdefHeader,length_append]
    rw [name,old,length,show (left 6 (digits 10 runner.uid)).length = 6 from uid,
      show (left 6 (digits 10 runner.gid)).length = 6 from gid,
      show (left 8 (digits 8 (0o666 &&& (0o777 ^^^ runner.umask % 0o1000)))).length = 8 from mode]
    decide
  have behind : m.header = left 16 (ranlibmag.take 16) ++ (left 12 (decimal m.stat.mtime) ++
      (left 6 (digits 10 m.stat.uid) ++ (left 6 (digits 10 m.stat.gid) ++ (left 8 (digits 8 m.stat.mode) ++
        (left 10 (digits 10 (ransize rs)) ++ arfmag))))) := by
    rw [header_eq,numbers,lname,Nat.add_zero,size]
    rfl
  rw [settime,before,Member.encode,behind,Member.body,pad,lname]
  have magic : armag.length = 8 := rfl
  simp only [append_assoc,ne_eq,not_true_eq_false,if_false,nil_append]
  rw [drop_fields magic 28,drop_fields name 12,drop_left' old]
  have front : ∀ more : List Byte, (armag ++ (left 16 (ranlibmag.take 16) ++ more)).take 24 = armag ++ left 16
    (ranlibmag.take 16) := by
    intro more
    rw [← append_assoc]
    exact take_left' rfl
  have stamp : (left 12 (decimal (runner.time + ranlibskew))).take 12 = left 12 (decimal m.stat.mtime) :=
    take_of_length_le (le_of_eq date)
  rw [front,stamp]
  simp only [append_assoc]
  rfl

theorem build_encode (runner : Runner) {ms : List Member} (pass : ∀ m ∈ ms, built m = true)
    (even : (encodeAll (objects ms)).length % 2 = 0) :
    build runner.toUser (some (armag ++ encodeAll ms)) = (rlibs (armag ++ encodeAll ms) ms 0).map fun rs => (some (settime
        (armag ++ (symdefHeader runner.toUser 0 (ransize rs)).take arhdrsz ++ symobj rs ++ encodeAll
        (objects ms)) runner.time),0) := by
  have loop := build_loop (armag ++ encodeAll ms) (Nat.lt_succ_of_le (length_encodeAll ms)) [] [] pass
  simp only [nil_append,length_nil] at loop
  simp only [build,bind,Except.bind,openArchive_encode]
  rw [loop]
  cases rlibs (armag ++ encodeAll ms) ms 0 with
  | error e => rfl
  | ok rs =>
    simp only [Except.map]
    have whole : copyAr true true (encodeAll (objects ms)).length 0 (encodeAll (objects ms)) =
      .ok (encodeAll (objects ms),[]) := by
      rw [copyAr]
      by_cases none : (encodeAll (objects ms)).length = 0
      · rw [if_pos (by omega),length_eq_zero_iff.mp none]
      rw [if_neg (by omega),if_neg (by omega)]
      simp [even]
    rw [whole]
    simp [pure,Except.pure]

end

section
variable {argv : List Path} {ms : List Member}

def other (argv : List Path) (m : Member) : Bool := !argv.any fun p => rname p.bytes == m.name

theorem other_named {p : Path} {m : Member} (listed : p ∈ argv) (named : rname p.bytes = m.name) : other argv m = false := by
  rw [other,Bool.not_eq_false',List.any_eq_true]
  exact ⟨p,listed,by simpa using named⟩

theorem sort_marked : ∀ x ∈ (sort argv ms).1, unmarked x = false → other argv x.1 = false := by
  intro x listed marked
  obtain ⟨m,p⟩ := x
  cases p with
  | none => cases marked
  | some p =>
    obtain ⟨named,member⟩ := sort_named.1 _ listed p rfl
    exact other_named member named

theorem added_other (disk : Disk) {left : List Path} (inside : ∀ p ∈ left, p ∈ argv) :
    (added disk left).filter (other argv) = [] := by
  rw [filter_eq_nil_iff]
  intro m member
  rw [added,mem_filterMap] at member
  obtain ⟨p,listed,made⟩ := member
  rw [map_eq_some_iff] at made
  obtain ⟨sb,_,rfl⟩ := made
  rw [other_named (inside p listed) rfl]
  exact Bool.false_ne_true

theorem filter_unmarked {xs : List (Member × Option Path)} (marked : ∀ x ∈ xs, unmarked x = false → other argv x.1 = false) :
    ((xs.filter unmarked).map Prod.fst).filter (other argv) = (xs.map Prod.fst).filter (other argv) := by
  induction xs with
  | nil => rfl
  | cons x xs ih =>
    replace ih := ih fun y member => marked y (mem_cons_of_mem _ member)
    cases plain : unmarked x with
    | true =>
      rw [filter_cons_of_pos plain,map_cons,map_cons,filter_cons,filter_cons,ih]
    | false =>
      have named := marked x mem_cons_self plain
      rw [filter_cons_of_neg (by simp [plain]),map_cons,ih,filter_cons_of_neg (by simp [named])]

theorem deleted_other : (deleted argv ms).filter (other argv) = ms.filter (other argv) := by
  rw [deleted,filter_unmarked sort_marked,sort_members]

theorem selected_other : (selected argv ms).filter (other argv) = [] := by
  rw [List.filter_eq_nil_iff]
  intro m member
  rw [selected,List.mem_map] at member
  obtain ⟨x,listed,rfl⟩ := member
  obtain ⟨inside,marked⟩ := mem_filter.mp listed
  rw [sort_marked x inside (by simpa using marked)]
  exact Bool.false_ne_true

theorem moved_other (place : Option Place) : (moved place argv ms).filter (other argv) = ms.filter (other argv) := by
  rw [moved]
  split
  next a b found =>
    have whole := parted_append found
    rw [filter_append,filter_append,selected_other,append_nil,← filter_append,← whole,deleted_other]
  next => rfl

theorem now_other (disk : Disk) (update : Bool) {x : Member × Option Path} (listed : x ∈ (sort argv ms).1) :
    now disk update x = x.1 ∨ other argv x.1 = false ∧ other argv (now disk update x) = false := by
  obtain ⟨m,p⟩ := x
  cases p with
  | none => exact .inl rfl
  | some p =>
    obtain ⟨named,member⟩ := sort_named.1 _ listed p rfl
    rw [now]
    dsimp only
    split
    next sb _ =>
      split
      · exact .inl rfl
      · exact .inr ⟨other_named member named,other_named member rfl⟩
    next => exact .inl rfl

theorem map_now_other (disk : Disk) (update : Bool) {xs : List (Member × Option Path)}
    (inside : ∀ x ∈ xs, x ∈ (sort argv ms).1) :
    (xs.map (now disk update)).filter (other argv) = (xs.map Prod.fst).filter (other argv) := by
  induction xs with
  | nil => rfl
  | cons x xs ih =>
    replace ih := ih fun y member => inside y (mem_cons_of_mem _ member)
    rw [map_cons,map_cons]
    rcases now_other disk update (inside x mem_cons_self) with same | ⟨old,new⟩
    · rw [same,filter_cons,filter_cons,ih]
    · rw [filter_cons_of_neg (by simp [new]),filter_cons_of_neg (by simp [old]),ih]

theorem replaced_other (disk : Disk) (update : Bool) (place : Option Place) :
    (replaced disk update place argv ms).filter (other argv) = ms.filter (other argv) := by
  rw [replaced]
  split
  next a b found =>
    have whole := parted_append found
    have front : ∀ x ∈ a, x ∈ (sort argv ms).1 := fun x member => by rw [whole]; exact mem_append_left _ member
    have back : ∀ x ∈ b, x ∈ (sort argv ms).1 := fun x member => by rw [whole]; exact mem_append_right _ member
    rw [filter_append,filter_append,added_other disk sort_named.2,append_nil,map_now_other disk update front,
      map_now_other disk update back,← filter_append,← map_append,← whole,sort_members]
  next => rfl

end

def parseAct (c : Chdr) (f : List Byte)
    (s : List (List Byte × List Byte)) : Except Fault (List (List Byte × List Byte) × Option (List Byte)) :=
  let size := c.size.toNat
  .ok (s ++ [(c.name,f.take size)],some (f.drop (size + if size ≠ 0 ∧ (size + c.lname) % 2 = 1 then 1 else 0)))

def parse (archive : List Byte) : Except Fault (List (List Byte × List Byte)) := do
  let f ← openArchive archive
  eachArobj parseAct (f.length + 1) f []

theorem parse_loop {n : Nat} {ms : List Member} (fuel : ms.length < n) (s : List (List Byte × List Byte)) :
    eachArobj parseAct n (encodeAll ms) s = .ok (s ++ ms.map fun m => (m.name,m.stat.contents)) := by
  induction ms generalizing n s with
  | nil =>
    obtain _ | n := n
    · omega
    rw [eachArobj_nil]
    simp
  | cons m ms ih =>
    obtain _ | n := n
    · omega
    have turn : parseAct m.chdr (m.body ++ encodeAll ms) s = .ok (s ++ [(m.name,m.stat.contents)],some (encodeAll ms)) := by
      have taken : (m.body ++ encodeAll ms).take m.size = m.stat.contents := by
        rw [Member.body,append_assoc]
        exact take_left' rfl
      have length : m.body.length = m.size + if m.size ≠ 0 ∧ (m.size + m.lname) % 2 = 1 then 1 else 0 := by
        rw [Member.body,length_append,Member.pad,show m.stat.contents.length = m.size from rfl]
        split <;> rfl
      have dropped : (m.body ++ encodeAll ms).drop _ = encodeAll ms := drop_left' length
      change Except.ok (s ++ [(m.name,(m.body ++ encodeAll ms).take m.size)],some ((m.body ++ encodeAll ms).drop _)) = _
      rw [taken,show m.chdr.lname = m.lname from rfl,show m.chdr.size.toNat = m.size from rfl,dropped]
    rw [eachArobj_cons n m ms turn,ih (by simpa using fuel),append_assoc]
    rfl

theorem parse_encode (ms : List Member) : parse (armag ++ encodeAll ms) = .ok (ms.map fun m => (m.name,m.stat.contents)) := by
  simp only [parse,bind,Except.bind,openArchive_encode]
  exact parse_loop (Nat.lt_succ_of_le (length_encodeAll ms)) []

inductive Command where
  | append (disk : Disk) (argv : List Path)
  | replace (disk : Disk) (update : Bool) (place : Option Place) (argv : List Path)
  | delete (argv : List Path)
  | move (place : Option Place) (argv : List Path)
  | ranlib (runner : Runner)

def Command.result : Command → Option (List Byte) → Except Fault (Option (List Byte) × Nat)
  | .append disk argv => Archives.append disk argv
  | .replace disk update place argv => Archives.replace disk update place argv
  | .delete argv => Archives.delete argv
  | .move place argv => Archives.move place argv
  | .ranlib runner => build runner.toUser

def step (archive : Option (List Byte)) (c : Command) : Except Fault (Option (List Byte)) :=
  match c.result archive with
  | .ok (archive,_) => .ok archive
  | .error _ => .ok archive

def Command.list : Command → Option (List Member) → Option (List Member)
  | .append disk argv,none => some (added disk argv)
  | .append disk argv,some ms => some (ms ++ added disk argv)
  | .replace disk _ place argv,none => some (if place.isSome then [] else added disk argv)
  | .replace disk update place argv,some ms => some (replaced disk update place argv ms)
  | .delete _,none => none
  | .delete argv,some ms => some (deleted argv ms)
  | .move _ _,none => none
  | .move place argv,some ms => some (moved place argv ms)
  | .ranlib _,none => none
  | .ranlib runner,some ms =>
    match rlibs (armag ++ encodeAll ms) ms 0 with
    | .ok rs => if small : (symobj rs).length < 2^31 then some (symdef runner rs small :: objects ms) else some ms
    | .error _ => some ms

def Command.finds : Command → Option (List Member) → Bool
  | .append _ _,_ | _,none => true
  | .replace disk update _ argv,some ms => (sort argv ms).1.all (passes (swaps disk update))
  | .delete argv,some ms => (sort argv ms).1.all (passes fun _ _ => true)
  | .move _ argv,some ms => (sort argv ms).1.all (passes fun _ _ => false)
  | .ranlib _,some ms => ms.all built && (encodeAll (objects ms)).length % 2 == 0 &&
    match rlibs (armag ++ encodeAll ms) ms 0 with
    | .ok rs => (symobj rs).length < 2^31
    | .error _ => true

def Command.others : Command → Member → Bool
  | .append _ argv,m | .replace _ _ _ argv,m | .delete argv,m | .move _ argv,m => other argv m
  | .ranlib _,m => m.name != ranlibmag

def file (ms : List Member) : List Byte := armag ++ encodeAll ms

theorem step_list (c : Command) (ms : Option (List Member)) (finds : c.finds ms = true) :
    step (ms.map file) c = .ok ((c.list ms).map file) := by
  cases ms with
  | none =>
    cases c with
    | append disk argv =>
      rw [step,Command.result,map_none,append_new]
      rfl
    | replace disk update place argv =>
      obtain ⟨status,ran⟩ := replace_new disk update place argv
      rw [step,Command.result,map_none,ran]
      rfl
    | delete argv => rfl
    | move place argv => rfl
    | ranlib runner => rfl
  | some ms =>
    rw [map_some]
    cases c with
    | append disk argv =>
      rw [step,Command.result,file,append_encode]
      rfl
    | replace disk update place argv =>
      obtain ⟨status,ran⟩ := replace_encode disk update place (all_eq_true.mp finds)
      rw [step,Command.result,file,ran]
      rfl
    | delete argv =>
      rw [step,Command.result,file,delete_encode (all_eq_true.mp finds)]
      rfl
    | move place argv =>
      obtain ⟨status,ran⟩ := move_encode place (all_eq_true.mp finds)
      rw [step,Command.result,file,ran]
      rfl
    | ranlib runner =>
      simp only [Command.finds,Bool.and_eq_true,List.all_eq_true,beq_iff_eq] at finds
      obtain ⟨⟨pass,even⟩,small⟩ := finds
      rw [step,Command.result,file,build_encode runner pass even,Command.list]
      cases found : rlibs (armag ++ encodeAll ms) ms 0 with
      | error e => rfl
      | ok rs =>
        rw [found] at small
        have fits : (symobj rs).length < 2^31 := by simpa using small
        simp only [Except.map,dif_pos fits,map_some,file,encodeAll_cons]
        rw [symdef_encode runner rs fits,append_assoc]

theorem list_others (c : Command) {ms ns : List Member} (after : c.list (some ms) = some ns) :
    ns.filter c.others = ms.filter c.others := by
  cases c with
  | append disk argv =>
    cases after
    have none := added_other disk (fun p member => member : ∀ p ∈ argv, p ∈ argv)
    rw [filter_append]
    exact (congrArg _ none).trans (append_nil _)
  | replace disk update place argv =>
    cases after
    exact replaced_other disk update place
  | delete argv =>
    cases after
    exact deleted_other
  | move place argv =>
    cases after
    exact moved_other place
  | ranlib runner =>
    simp only [Command.list] at after
    split at after
    · split at after
      · cases after
        rw [List.filter_cons_of_neg (by simp [Command.others,symdef]),objects,List.filter_filter]
        exact List.filter_congr fun m _ => Bool.and_self _
      · cases after
        rfl
    · cases after
      rfl

def listStep (ms : Option (List Member)) (c : Command) : Except Fault (Option (List Member)) := .ok (c.list ms)

/-- A file that commands have written is an archive: it is read as the list of members that they make,
and its members are extracted as they were put in. No command touches a member that it does not name. -/
theorem archive_list (cs : List Command) {start final : Option (List Member)} (ran : run listStep start cs = .ok final)
    (found : Along listStep (fun ms c => c.finds ms = true) start cs) :
    run step (start.map file) cs = .ok (final.map file) ∧
    (∀ ms ∈ final, parse (file ms) = .ok (ms.map fun m => (m.name,m.stat.contents))) ∧
    (∀ ms ∈ final, ∀ mtimes writes update argv, extractable mtimes writes update argv.isEmpty argv [] ms = true →
      ∃ status, extract mtimes writes update argv (some (file ms)) =
      .ok ((extracted mtimes writes update argv.isEmpty argv [] ms).1,status)) ∧
    ∀ c ∈ cs, ∀ ms ns, c.list (some ms) = some ns → ns.filter c.others = ms.filter c.others := by
  refine ⟨?_,fun ms _ => parse_encode ms,fun ms _ mtimes writes update argv able => ⟨_,extract_encode argv able⟩,
    fun c _ ms ns after => list_others c after⟩
  induction cs generalizing start with
  | nil =>
    cases ran
    rfl
  | cons c cs ih =>
    have next : run listStep (c.list start) cs = .ok final := ran
    rw [run_cons_ok cs (step_list c start found.1)]
    exact ih next (found.2 _ rfl)

def someStat (contents : List Byte) (small : contents.length < 2^31) : Stat where
  mtime := 7
  uid := 0
  gid := 0
  mode := 0o100644
  contents
  time := by decide
  owner := by decide
  bits := by decide
  small

def pathA : Path := ⟨text "a",by decide⟩

def pathB : Path := ⟨text "b",by decide⟩

def someDisk : Disk := fun p => if p = pathA then some (someStat [0x78,0x79] (by decide)) else some (someStat [] (by decide))

def someCommands : List Command := [.append someDisk [pathA,pathB],.delete [pathA],.move none [pathB]]

theorem archive_list_someCommands : ∃ ms, run step none someCommands = .ok (some (file ms)) ∧ ms.length = 1 := by
  obtain ⟨final,ran,shown⟩ := @of_returns _ _ (fun l : Option (List Member) => l.any fun ms => ms.length == 1)
    (run listStep none someCommands) (by decide +kernel)
  have whole := (archive_list someCommands ran (by decide +kernel)).1
  obtain ⟨ms,rfl,one⟩ := (any_eq_true _ _).mp shown
  exact ⟨ms,whole,by simpa using one⟩

def oddDisk : Disk := fun p => if p = pathA then some (someStat [0x78] (by decide)) else some (someStat [] (by decide))

def oddCommands : List Command := [.append oddDisk [pathA,pathB],.delete [pathA]]

/-- `delete` does not skip the padding behind the first member: it fails, and that stays. -/
theorem archive_odd : run step none oddCommands = run step none [.append oddDisk [pathA,pathB]] ∧
    returns (fun a : Option (List Byte) => a.any fun f => returns (fun ms => ms.length == 2) (parse f))
    (run step none oddCommands) = true ∧
    returns (fun l : Option (List Member) => l.any fun ms => ms.length == 1) (run listStep none oddCommands) = true := by
  decide +kernel

end Retrobsd.Archives
