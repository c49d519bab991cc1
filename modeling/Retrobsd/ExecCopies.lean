import Retrobsd.ExecCalls

/-! The loop of `execve` that copies the arguments back from their blocks, as a layout of
pointers and strings in the memory of the user. -/
namespace Retrobsd.ExecCalls
open ExecArguments Lib.Pieces Transfers List

section
variable {m n : Mem} {a b x : Nat} {bytes rest : List Byte}

theorem store_inside {i : Nat} (inside : i < bytes.length) : store m a bytes (a + i) = bytes[i] := by
  unfold store
  rw [if_pos ⟨by omega,by omega⟩,Nat.add_sub_cancel_left,List.getD,List.getElem?_eq_getElem inside]
  rfl

theorem store_outside (outside : x < a ∨ a + bytes.length ≤ x) : store m a bytes x = m x := if_neg (by omega)

theorem store_append (m : Mem) (a : Nat) (bytes rest : List Byte) :
    store (store m a bytes) (a + bytes.length) rest = store m a (bytes ++ rest) := by
  funext x
  by_cases first : a ≤ x ∧ x < a + bytes.length
  · obtain ⟨i,rfl⟩ := Nat.exists_eq_add_of_le first.1
    have inside : i < bytes.length := by omega
    rw [store_outside (.inl (by omega)),store_inside inside,store_inside (by rw [length_append]; omega),
      getElem_append_left inside]
  by_cases second : a + bytes.length ≤ x ∧ x < a + bytes.length + rest.length
  · obtain ⟨i,rfl⟩ := Nat.exists_eq_add_of_le second.1
    have inside : i < rest.length := by omega
    rw [store_inside inside,Nat.add_assoc,store_inside (by rw [length_append]; omega),getElem_append_right (by omega)]
    simp
  · rw [store_outside (by omega),store_outside (by omega),store_outside (by rw [length_append]; omega)]

theorem word_congr (same : ∀ x, a ≤ x → x < a + 4 → m x = n x) : word m a = word n a := by
  unfold word
  rw [same a (by omega) (by omega),same (a + 1) (by omega) (by omega),same (a + 2) (by omega) (by omega),
    same (a + 3) (by omega) (by omega)]

theorem word_store {p : Nat} (small : p < 2^32) : word (store m a (wordBytes p)) a = p := by
  have byte : ∀ i (inside : i < (wordBytes p).length), store m a (wordBytes p) (a + i) = (wordBytes p)[i] :=
    fun i inside => store_inside inside
  have first := byte 0 (by simp [wordBytes])
  rw [Nat.add_zero] at first
  unfold word
  rw [first,byte 1 (by simp [wordBytes]),byte 2 (by simp [wordBytes]),byte 3 (by simp [wordBytes])]
  simp only [wordBytes,getElem_cons_zero,getElem_cons_succ,BitVec.toNat_ofNat]
  omega

theorem spells_store : Spells (skip a (store m a bytes)) bytes := by
  rw [spells_iff]
  exact fun i inside => store_inside inside

theorem spells_skip_congr (same : ∀ x, a ≤ x → x < a + bytes.length → m x = n x) :
    Spells (skip a m) bytes ↔ Spells (skip a n) bytes :=
  spells_congr fun i inside => same _ (by omega) (by omega)

end

section

/-- The rest of the text is in its blocks, of which the one that is being copied is busy. -/
structure Back.Going (b : Back) (text : List Byte) : Prop where
  start : b.bp = none → b.nc = 0 ∧ b.cc = 0
  place : ∀ k, b.bp = some k → b.nc = devBsize * k + b.cp ∧ b.cp + b.cc = devBsize
  held : ∀ i < b.cc, ∀ byte, text[b.nc + i]? = some byte → b.source i = byte
  kept : ∀ k, b.nc + b.cc ≤ devBsize * k → devBsize * k < text.length → (b.swap.slot k).Kept
  rest : ∀ p, b.nc + b.cc ≤ p → ∀ byte, text[p]? = some byte → b.swap.content p = byte

variable {o : Others} {b : Back} {text : List Byte}

theorem release_other {k : Nat} (other : b.bp ≠ some k) : b.release.slot k = b.swap.slot k := by
  unfold Back.release
  cases held : b.bp with
  | none => rfl
  | some j =>
    unfold brelse Swap.onBuf
    exact put_other (fun same => other (by rw [held,same]))

theorem cancel_data (s : Slot) : Slot.data {s with cache := s.cache.map fun b => {b with delwri := false}} = s.data := by
  cases cached : s.cache <;> simp [Slot.data,cached]

theorem Back.Going.fill (going : b.Going text) (o : Others) (more : b.nc < text.length) :
    (b.fill o).Going text ∧ 0 < (b.fill o).cc ∧ ((b.fill o).cc = b.cc ∨ b.cc = 0 ∧ (b.fill o).cc = devBsize) ∧
      ((b.fill o).nc,(b.fill o).ucp,(b.fill o).ap,(b.fill o).mem) = (b.nc,b.ucp,b.ap,b.mem) := by
  unfold Back.fill
  split_ifs with empty
  · have start : b.nc = devBsize * (b.nc / devBsize) ∧ b.bp ≠ some (b.nc / devBsize) := by
      cases held : b.bp with
      | none => exact ⟨by rw [(going.start held).1]; rfl,nofun⟩
      | some k =>
        obtain ⟨nc,cc⟩ := going.place k held
        unfold devBsize at *
        exact ⟨by omega,fun same => by have := Option.some.inj same; omega⟩
    generalize b.nc / devBsize = j at start
    obtain ⟨nc,other⟩ := start
    have fresh : ∀ k, j ≤ k → b.release.slot k = b.swap.slot k := by
      intro k after
      refine release_other fun held => ?_
      have place := going.place k held
      unfold devBsize at *
      omega
    have kept : (b.release.slot j).Kept := by
      rw [fresh j (Nat.le_refl j)]
      exact going.kept j (by omega) (by omega)
    have slot : ((cancel (bread o b.release j) j).slot j).data = (b.swap.slot j).data := by
      unfold cancel Swap.onBuf bread
      dsimp only
      rw [put_same,put_same,cancel_data,hold_data,kept.sleep_data,fresh j (Nat.le_refl j)]
    have past : ∀ k, j < k → (cancel (bread o b.release j) j).slot k = (b.release.sleep o).slot k := by
      intro k after
      unfold cancel Swap.onBuf bread
      dsimp only
      rw [put_other (by omega),put_other (by omega)]
    refine ⟨⟨nofun,?_,?_,?_,?_⟩,by simp [devBsize],.inr ⟨empty,rfl⟩,rfl⟩
    · rintro _ ⟨⟩
      exact ⟨nc,rfl⟩
    · intro i small byte there
      change ((cancel (bread o b.release j) j).slot j).data (0 + i) = _
      rw [slot,Nat.zero_add,← content_place _ small,← nc]
      exact going.rest (b.nc + i) (by omega) byte there
    · intro k after before
      dsimp only at after
      have later : j < k := by unfold devBsize at *; omega
      dsimp only
      rw [past k later]
      refine Slot.Kept.sleep ?_
      rw [fresh k (by omega)]
      exact going.kept k (by omega) before
    · intro p after byte there
      have inside := (List.getElem?_eq_some_iff.mp there).1
      dsimp only at after ⊢
      have later : j < p / devBsize := by unfold devBsize at *; omega
      rw [← going.rest p (by omega) byte there]
      unfold Swap.content
      rw [past _ later,Slot.Kept.sleep_data]
      · rw [fresh _ (by omega)]
      rw [fresh _ (by omega)]
      exact going.kept _ (by unfold devBsize at *; omega) (by unfold devBsize at *; omega)
  · exact ⟨going,by omega,.inl rfl,rfl⟩

theorem Back.Going.copy (going : b.Going text) {piece : List Byte} (fits : piece.length ≤ b.cc) : (b.copy piece).Going text := by
  refine ⟨fun none => ?_,fun k held => ?_,fun i small byte there => ?_,fun k after => ?_,fun p after => ?_⟩
  · have start := going.start none
    simp only [Back.copy]
    omega
  · have place := going.place k held
    simp only [Back.copy]
    omega
  · simp only [Back.copy] at small there
    rw [Nat.add_assoc] at there
    rw [← going.held (piece.length + i) (by omega) byte there]
    simp only [Back.copy,Back.source,skip,Nat.add_assoc]
  · simp only [Back.copy] at after
    exact going.kept k (by omega)
  · simp only [Back.copy] at after
    exact going.rest p (by omega)

theorem Back.Going.source_piece (going : b.Going text) {front t more : List Byte} (split : text = front ++ t ++ more)
    (at_front : b.nc = front.length) (terminated : Terminated 0 t) :
    copystr b.source b.cc = (t.take b.cc,decide (t.length ≤ b.cc)) := by
  have there : ∀ i (inside : i < t.length), text[b.nc + i]? = some t[i] := by
    intro i inside
    rw [split,append_assoc,List.getElem?_append_right (by omega),at_front,Nat.add_sub_cancel_left,
      List.getElem?_append_left inside,List.getElem?_eq_getElem inside]
  have spells : Spells (fun i => if i < b.cc then b.source i else t.getD i 0) t := by
    rw [spells_iff]
    intro i inside
    split_ifs with small
    · exact going.held i small _ (there i inside)
    · simp [List.getD,inside]
  rw [← piece_text b.cc spells terminated]
  exact piece_congr b.cc fun i small => (if_pos small).symm

theorem copyout_spec (turns : Nat) (front t : List Byte) {more : List Byte} (split : text = front ++ t ++ more)
    (at_front : b.nc = front.length)
    (terminated : Terminated 0 t) (going : b.Going text)
    (enough : t.length + (if b.cc = 0 then 0 else devBsize - b.cc) ≤ turns * devBsize) :
    ∃ c, copyout o turns b = .ok c ∧ c.Going text ∧
    (c.nc,c.ucp,c.ap,c.mem) = (b.nc + t.length,b.ucp + t.length,b.ap,store b.mem b.ucp t) := by
  induction turns generalizing b front t with
  | zero =>
    have some := length_pos_of_ne_nil terminated.ne_nil
    omega
  | succ turns ih =>
    have some := length_pos_of_ne_nil terminated.ne_nil
    have length : text.length = front.length + t.length + more.length := by rw [split,length_append,length_append]
    obtain ⟨filled,room,size,fields⟩ := going.fill o (by omega)
    unfold copyout
    dsimp only
    generalize b.fill o = c at filled room size fields
    obtain ⟨nc,ucp,ap,mem⟩ : c.nc = b.nc ∧ c.ucp = b.ucp ∧ c.ap = b.ap ∧ c.mem = b.mem := by simpa using fields
    rw [filled.source_piece split (by omega) terminated]
    by_cases whole : t.length ≤ c.cc
    · simp only [take_of_length_le whole,whole,decide_true,if_true]
      exact ⟨_,rfl,filled.copy whole,by simp only [Back.copy,nc,ucp,ap,mem]⟩
    simp only [whole,decide_false,Bool.false_eq_true,if_false]
    have short : (t.take c.cc).length = c.cc := by rw [length_take]; omega
    have empty : (c.copy (t.take c.cc)).cc = 0 := by simp only [Back.copy]; omega
    obtain ⟨d,result,going',fields'⟩ := ih (b := c.copy (t.take c.cc)) (front ++ t.take c.cc) (t.drop c.cc)
      (by rw [split]; simp) (by simp only [Back.copy,length_append]; omega) (terminated.drop (by omega))
      (filled.copy (Nat.le_of_eq short)) (by
        rw [empty,if_pos rfl,length_drop]
        unfold devBsize at *
        split_ifs at enough <;> omega)
    refine ⟨d,result,going',fields'.trans ?_⟩
    simp only [Back.copy,nc,ucp,ap,mem,short,length_drop,Prod.mk.injEq,true_and]
    refine ⟨by omega,by omega,?_⟩
    have joined := store_append b.mem b.ucp (t.take c.cc) (t.drop c.cc)
    rwa [short,take_append_drop] at joined

/-- The memory with the strings from `ucp` on and the pointers to them from `ap` on. -/
def rows : List (List Byte) → Nat → Nat → Mem → Mem
  | [],_,_,m => m
  | t :: ts,ap,ucp,m => rows ts (ap + 4) (ucp + t.length) (store (store m ap (wordBytes ucp)) ucp t)

theorem Back.Going.divide (going : b.Going text) (na ne : Nat) : (b.divide na ne).Going text := by
  unfold Back.divide
  split
  · exact ⟨going.start,going.place,going.held,going.kept,going.rest⟩
  · exact going

theorem divide_fields (b : Back) (na ne : Nat) : (b.divide na ne).nc = b.nc ∧ (b.divide na ne).ucp = b.ucp := by
  unfold Back.divide
  split <;> exact ⟨rfl,rfl⟩

theorem copyback_step (na ne : Nat) {front t more : List Byte} (split : text = front ++ t ++ more)
    (at_front : b.nc = front.length)
    (terminated : Terminated 0 t) (going : b.Going text) (fits : text.length ≤ ncargs) :
    ∃ c, copyback o ne (na + 1) b = copyback o ne na c ∧ c.Going text ∧ c.nc = b.nc + t.length ∧ c.ucp = b.ucp + t.length ∧
      c.ap = (b.divide (na + 1) ne).ap + 4 ∧
      c.mem = store (store (b.divide (na + 1) ne).mem (b.divide (na + 1) ne).ap (wordBytes b.ucp)) b.ucp t := by
  have fields := divide_fields b (na + 1) ne
  have divided := going.divide (na + 1) ne
  rw [copyback]
  generalize b.divide (na + 1) ne = d at fields divided
  obtain ⟨nc,ucp⟩ := fields
  have ready : (d.pointer d.ucp).Going text := ⟨divided.start,divided.place,divided.held,divided.kept,divided.rest⟩
  have length : text.length = front.length + t.length + more.length := by rw [split,length_append,length_append]
  obtain ⟨c,result,going',fields⟩ := copyout_spec (o := o) (b := d.pointer d.ucp) 7 front t split
    (nc.trans at_front) terminated ready (by
    unfold ncargs devBsize at *
    split_ifs <;> omega)
  simp only [Prod.mk.injEq] at fields
  refine ⟨{c with ap := c.ap + 4},by simp only [result],⟨going'.start,going'.place,going'.held,going'.kept,going'.rest⟩,
    fields.1.trans (by rw [← nc]; rfl),fields.2.1.trans (by rw [← ucp]; rfl),congrArg (· + 4) fields.2.2.1,
    fields.2.2.2.trans (by rw [← ucp]; rfl)⟩

theorem copyback_rows (ne n : Nat) (ts : List (List Byte)) (front : List Byte) {more : List Byte}
    (split : text = front ++ ts.flatten ++ more)
    (at_front : b.nc = front.length) (terminated : ∀ t ∈ ts, Terminated 0 t) (going : b.Going text)
    (fits : text.length ≤ ncargs) (never : ∀ k, n < k → k ≤ n + ts.length → k ≠ ne) :
    ∃ c, copyback o ne (n + ts.length) b = copyback o ne n c ∧ c.Going text ∧
      (c.nc,c.ucp,c.ap,c.mem) = (b.nc + ts.flatten.length,b.ucp + ts.flatten.length,b.ap + 4 * ts.length,
      rows ts b.ap b.ucp b.mem) := by
  induction ts generalizing b front with
  | nil => exact ⟨b,rfl,going,rfl⟩
  | cons t ts ih =>
    rw [flatten_cons,← append_assoc,append_assoc _ _ more] at split
    obtain ⟨c,first,going',nc,ucp,ap,mem⟩ :=
      copyback_step (o := o) (n + ts.length) ne split at_front (terminated t mem_cons_self) going fits
    have undivided : b.divide (n + ts.length + 1) ne = b := if_neg (never _ (by omega) (by rw [length_cons]; omega))
    rw [undivided] at ap mem
    rw [← append_assoc] at split
    obtain ⟨d,rest,going'',fields⟩ := ih (b := c) _ split (by rw [nc,at_front,length_append])
      (fun u member => terminated u (mem_cons_of_mem t member)) going' fun k low high =>
        never k low (by rw [length_cons]; omega)
    refine ⟨d,first.trans rest,going'',fields.trans ?_⟩
    rw [nc,ucp,ap,mem,flatten_cons,length_append,length_cons,rows]
    simp only [Prod.mk.injEq]
    exact ⟨by omega,by omega,by omega,trivial⟩

theorem copyback_spec (args envs : List (List Byte)) (split : text = args.flatten ++ envs.flatten) (start : b.nc = 0)
    (terminated : ∀ t ∈ args ++ envs, Terminated 0 t) (going : b.Going text) (fits : text.length ≤ ncargs) :
    ∃ c, copyback o envs.length (envs.length + args.length) b = .ok c ∧ c.ap = b.ap + 4 * args.length + 4 + 4 * envs.length ∧
      c.mem = rows envs (b.ap + 4 * args.length + 4) (b.ucp + args.flatten.length)
        (store (rows args b.ap b.ucp b.mem) (b.ap + 4 * args.length) (wordBytes 0)) := by
  obtain ⟨c,first,going',fields⟩ := copyback_rows (o := o) (b := b) envs.length envs.length args [] split start
    (fun t member => terminated t (mem_append_left _ member)) going fits (by omega)
  simp only [Prod.mk.injEq] at fields
  obtain ⟨nc,ucp,ap,mem⟩ := fields
  rw [first]
  cases envs with
  | nil =>
    refine ⟨_,rfl,?_,?_⟩
    · change c.ap + 4 = _
      rw [ap,length_nil,Nat.mul_zero,Nat.add_zero]
    change store c.mem c.ap (wordBytes 0) = _
    rw [mem,ap]
    rfl
  | cons e es =>
    have divided : c.divide (es.length + 1) (es.length + 1) = {c.pointer 0 with ap := c.ap + 4} := if_pos rfl
    rw [flatten_cons,← append_assoc] at split
    obtain ⟨d,second,going'',nc',ucp',ap',mem'⟩ :=
      copyback_step (o := o) es.length (es.length + 1) split (by rw [nc,start,Nat.zero_add])
      (terminated e (by simp)) going' fits
    rw [divided] at ap' mem'
    obtain ⟨f,third,-,fields⟩ := copyback_rows (o := o) (b := d) (es.length + 1) 0 es _
      (split.trans (append_nil _).symm) (by rw [nc',nc,start,Nat.zero_add,length_append])
      (fun t member => terminated t (by simp [member])) going'' fits (by omega)
    simp only [Prod.mk.injEq] at fields
    rw [Nat.zero_add] at third
    refine ⟨f,?_,?_,?_⟩
    · rw [length_cons,second,third]
      rfl
    · rw [fields.2.2.1,ap',length_cons]
      change c.ap + 4 + 4 + 4 * es.length = _
      omega
    · rw [fields.2.2.2,ap',ucp',mem',rows]
      change rows es (c.ap + 4 + 4) (c.ucp + e.length)
        (store (store (store c.mem c.ap (wordBytes 0)) (c.ap + 4) (wordBytes c.ucp)) c.ucp e) = _
      rw [mem,ap,ucp]

end

section
variable {m n : Mem} {low high : Nat}

theorem rows_outside (ts : List (List Byte)) {ap ucp x : Nat} (pointers : x < ap ∨ ap + 4 * ts.length ≤ x)
    (strings : x < ucp ∨ ucp + ts.flatten.length ≤ x) : rows ts ap ucp m x = m x := by
  induction ts generalizing ap ucp m with
  | nil => rfl
  | cons t ts ih =>
    rw [length_cons] at pointers
    rw [flatten_cons,length_append] at strings
    have four : (wordBytes ucp).length = 4 := rfl
    rw [rows,ih (by omega) (by omega),store_outside (by omega),store_outside (by omega)]

def Pointers (m : Mem) (low high : Nat) : Nat → List (List Byte) → Prop
  | a,[] => word m a = 0
  | a,t :: ts => low ≤ word m a ∧ word m a + t.length ≤ high ∧ Terminated 0 t ∧ Spells (skip (word m a) m) t ∧
      Pointers m low high (a + 4) ts

theorem rows_pointers (ts : List (List Byte)) (ap ucp : Nat) (terminated : ∀ t ∈ ts, Terminated 0 t)
    (room : ap + 4 * ts.length ≤ ucp)
    (above : low ≤ ucp) (below : ucp + ts.flatten.length ≤ high) (small : high < 2^32)
    (pointers : ∀ x, ap ≤ x → x < ap + 4 * ts.length → n x = rows ts ap ucp m x)
    (strings : ∀ x, ucp ≤ x → x < ucp + ts.flatten.length → n x = rows ts ap ucp m x)
    (last : word n (ap + 4 * ts.length) = 0) : Pointers n low high ap ts := by
  induction ts generalizing ap ucp m with
  | nil => exact last
  | cons t ts ih =>
    rw [length_cons] at room pointers last
    rw [flatten_cons,length_append] at below strings
    have four : (wordBytes ucp).length = 4 := rfl
    have pointer : word n ap = ucp := by
      rw [← word_store (m := m) (a := ap) (p := ucp) (by omega)]
      refine word_congr fun x after before => ?_
      rw [pointers x after (by omega),rows,rows_outside ts (.inl (by omega)) (.inl (by omega)),store_outside (.inl (by omega))]
    have string : Spells (skip ucp n) t := by
      refine (spells_skip_congr fun x after before => ?_).mp (spells_store (m := store m ap (wordBytes ucp)))
      rw [strings x after (by omega),rows,rows_outside ts (.inr (by omega)) (.inl before)]
    refine ⟨by omega,by omega,terminated t mem_cons_self,by rwa [pointer],?_⟩
    refine ih (ap + 4) (ucp + t.length) (m := store (store m ap (wordBytes ucp)) ucp t)
      (fun u member => terminated u (mem_cons_of_mem t member)) (by omega) (by omega) (by omega) ?_ ?_ ?_
    · exact fun x after before => pointers x (by omega) (by omega)
    · exact fun x after before => strings x (by omega) (by omega)
    rw [← last]
    congr 1
    omega

end

end Retrobsd.ExecCalls
