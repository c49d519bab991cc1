import Retrobsd.Smux

/-! The receivers of `smux` and the bytes on the way to them, the telnet filter, and what both sides may log. -/
namespace Retrobsd.Smux
open List
open Function
open Lib.Framing Telnet

def receive (r : Receiver) (inch : Byte) : Receiver × Option Message :=
  ((rxLinkData r inch).1,if (rxLinkData r inch).2 then some (rxLinkData r inch).1.rx.message else none)

def Receiver.between (r : Receiver) : Prop := r.phase = 0

section
variable {r : Receiver} {p : Packet}

theorem range_update (data : Nat → Byte) (n : Nat) (b : Byte) :
    (List.range (n + 1)).map (update data n b) = (List.range n).map data ++ [b] := by
  rw [range_succ,map_append,map_singleton,update_self]
  congr 1
  refine map_congr_left fun i member => update_of_ne ?_ _ _
  exact (mem_range.mp member).ne

theorem receive_data : ∀ (cs : List Byte) {r : Receiver}, cs ≠ [] → r.phase = 3 → r.pos + cs.length = r.rx.len.toNat →
    (feeds receive r cs).2 = [⟨r.rx.type,r.rx.stream,(List.range r.pos).map r.rx.data ++ cs⟩] ∧ (feeds receive r cs).1.phase = 0
  | [],_,nonempty,_,_ => absurd rfl nonempty
  | c :: cs,r,_,inside,left => by
    have step : rxLinkData r c = if r.pos + 1 = r.rx.len.toNat
        then ({r with rx := {r.rx with data := update r.rx.data r.pos c},pos := r.pos + 1,phase := 0},true)
        else ({r with rx := {r.rx with data := update r.rx.data r.pos c},pos := r.pos + 1},false) := by
      simp only [rxLinkData,inside]
    rw [length_cons] at left
    cases cs with
    | nil =>
      rw [if_pos (by simpa using left)] at step
      have whole : r.rx.len.toNat = r.pos + 1 := by simpa using left.symm
      simp only [feeds,receive,step,if_true,Option.toList,append_nil,Packet.message,Packet.payload,whole,range_update]
      exact ⟨trivial,trivial⟩
    | cons d cs =>
      rw [if_neg (by simp only [length_cons] at left; omega)] at step
      obtain ⟨answered,between⟩ := receive_data (d :: cs) (r :=
        {r with rx := {r.rx with data := update r.rx.data r.pos c},pos := r.pos + 1})
        (cons_ne_nil d cs) inside (by dsimp only; omega)
      rw [feeds]
      simp only [receive,step]
      refine ⟨?_,between⟩
      rw [show (feeds receive _ (d :: cs)).2 = _ from answered]
      simp [range_update]

theorem length_payload : p.payload.length = p.len.toNat := by
  rw [Packet.payload,length_map,length_range]

theorem packet_encodes (known : p.type ≤ cMax) : Encodes receive Receiver.between p.bytes [p.message] := by
  intro r between
  have first : rxLinkData r p.type = ({r with phase := 1,rx := {r.rx with type := p.type}},false) := by
    have phase : r.phase = 0 := between
    simp only [rxLinkData,phase]
    exact if_neg fun both => absurd both.1 (UInt8.not_lt.mpr known)
  rw [Packet.bytes,feeds,feeds,feeds]
  simp only [receive,first]
  by_cases empty : p.len = 0
  · have none : p.payload = [] := eq_nil_of_length_eq_zero (by rw [length_payload,empty]; rfl)
    simp only [rxLinkData,empty,if_true,none,feeds]
    refine ⟨?_,rfl⟩
    simp [Packet.message,Packet.payload,empty]
  have filled : p.payload ≠ [] := fun none => empty <| by
    have length := length_payload (p := p)
    rw [none] at length
    exact UInt8.toNat_inj.mp length.symm
  simp only [rxLinkData,empty,if_false]
  obtain ⟨answered,done⟩ := receive_data p.payload
    (r := ⟨3,0,⟨p.type,p.stream,p.len,r.rx.data⟩⟩) filled rfl (by rw [Nat.zero_add,length_payload])
  refine ⟨?_,done⟩
  simpa [Packet.message] using answered

theorem return_encodes : Encodes receive Receiver.between [cr] [] := by
  intro r between
  have skipped : rxLinkData r cr = (r,false) := by
    have phase : r.phase = 0 := between
    simp only [rxLinkData,phase]
    exact if_pos (by decide)
  simp only [feeds,receive,skipped]
  exact ⟨rfl,between⟩

end
section
variable {buffer : Nat → Byte} {nr : Nat}

def Plain (chunk : List Byte) : Prop := iac ∉ chunk ∧ cr ∉ chunk.dropLast

instance (chunk : List Byte) : Decidable (Plain chunk) := instDecidableAnd

theorem filter_plain (free : ∀ k, k < nr → buffer k ≠ iac) (last : ∀ k, k < nr → buffer k = cr → k + 1 = nr) :
    ∀ (fuel : Nat) (f : Filtering), f.i = f.j → f.i + fuel = nr → (∀ k, k < f.j → f.data k = buffer k) →
      ∃ f', filter buffer nr fuel f = .ok f' ∧ f'.j = nr ∧ f'.replies = f.replies ∧ ∀ k, k < nr → f'.data k = buffer k := by
  intro fuel
  induction fuel with
  | zero => exact fun f same whole kept => ⟨f,rfl,by omega,rfl,fun k below => kept k (by omega)⟩
  | succ fuel ih =>
    intro f same whole kept
    have more : ∀ k, k < f.j + 1 → update f.data f.j (buffer f.i) k = buffer k := fun k below => by
      by_cases here : k = f.j
      · rw [here,update_self,same]
      rw [update_of_ne here]
      exact kept k (by omega)
    rw [filter,if_neg (by omega : ¬nr ≤ f.i)]
    by_cases return_ : buffer f.i = cr
    · have ended := last f.i (by omega) return_
      obtain rfl : fuel = 0 := by omega
      rw [if_pos return_]
      refine ⟨_,rfl,?_,rfl,fun k below => more k (by omega)⟩
      show f.j + 1 = nr
      omega
    · rw [if_neg return_,if_neg (free f.i (by omega))]
      exact ih _ (show f.i + 1 = f.j + 1 by omega) (show f.i + 1 + fuel = nr by omega) more

theorem fillBuffer_plain {chunk : List Byte} (plain : Plain chunk) : ∃ f, filter (Linux.fillBuffer buffer chunk) chunk.length
    chunk.length ⟨0,0,data,[]⟩ = .ok f ∧ f.j = chunk.length ∧ f.replies = [] ∧ (List.range chunk.length).map f.data = chunk := by
  have filled : ∀ k (h : k < chunk.length), Linux.fillBuffer buffer chunk k = chunk[k] := fun k h => dif_pos h
  obtain ⟨f,done,count,quiet,kept⟩ := @filter_plain (Linux.fillBuffer buffer chunk) chunk.length
    (fun k below found => plain.1 (by rw [← found,filled k below]; exact getElem_mem below))
    (fun k below found => by
      by_contra other
      have inside : k < chunk.dropLast.length := by rw [length_dropLast]; omega
      apply plain.2
      rw [← found,filled k below,← getElem_dropLast inside]
      exact getElem_mem inside)
    chunk.length ⟨0,0,data,[]⟩ rfl (Nat.zero_add _) (fun k below => absurd below (Nat.not_lt_zero _))
  refine ⟨f,done,count,quiet,ext_getElem (by simp) fun k left right => ?_⟩
  rw [getElem_map,getElem_range,kept k right,filled k right]

end

inductive Mode where
  | plain
  | command
  | option
  | sub
  | subEnd

def stripFrom : Mode → List Byte → List Byte
  | _,[] => []
  | .plain,b :: bytes => if b = iac then stripFrom .command bytes else b :: stripFrom .plain bytes
  | .command,b :: bytes =>
    if b = iac then iac :: stripFrom .plain bytes
    else if b = will ∨ b = wont ∨ b = do_ ∨ b = dont then stripFrom .option bytes
    else if b = sb then stripFrom .sub bytes
    else stripFrom .plain bytes
  | .option,_ :: bytes => stripFrom .plain bytes
  | .sub,b :: bytes => if b = iac then stripFrom .subEnd bytes else stripFrom .sub bytes
  | .subEnd,b :: bytes => if b = se then stripFrom .plain bytes else stripFrom .sub bytes

def strip : List Byte → List Byte := stripFrom .plain

theorem strip_plain : ∀ {bytes : List Byte}, iac ∉ bytes → strip bytes = bytes
  | [],_ => rfl
  | b :: bytes,free => by
    have other : b ≠ iac := fun same => free (by rw [same]; exact mem_cons_self)
    have rest : stripFrom .plain bytes = bytes := strip_plain fun member => free (mem_cons_of_mem b member)
    rw [strip,stripFrom,if_neg other,rest]

theorem strip_sessions {sessions : List (List Byte)} (free : ∀ session ∈ sessions, iac ∉ session) :
    sessions.reverse.flatMap strip = sessions.reverse.flatten := by
  have each : sessions.reverse.map strip = sessions.reverse.map id :=
    map_congr_left fun session member => strip_plain (free session (mem_reverse.mp member))
  rw [flatMap_def,each,map_id]

theorem extend_flatten : ∀ (sessions : List (List Byte)) (chunk : List Byte),
    (extend sessions chunk).reverse.flatten = sessions.reverse.flatten ++ chunk
  | [],chunk => by simp [extend]
  | session :: sessions,chunk => by simp [extend]

theorem extend_free {sessions : List (List Byte)} {chunk : List Byte} (free : ∀ session ∈ sessions, iac ∉ session)
    (plain : iac ∉ chunk) : ∀ session ∈ extend sessions chunk, iac ∉ session := by
  intro session member
  cases sessions with
  | nil =>
    rw [mem_singleton.mp member]
    exact plain
  | cons first sessions =>
    rcases mem_cons.mp member with rfl | later
    · rw [mem_append]
      exact fun both => both.elim (free first mem_cons_self) plain
    · exact free session (mem_cons_of_mem first later)

section
variable {sent : List Message} {got : List (Message × Option Nat)} {r : Receiver} {link code : List Byte} {m : Message}

def payloads (i : Nat) (sent : List Message) : List Byte :=
    (sent.filter fun m => m.type = cData ∧ m.stream.toNat = i).flatMap Message.data

def delivered (got : List (Message × Option Nat)) : List (Nat × List Byte) :=
  got.filterMap fun e => if e.1.type = cData then e.2.map fun fd => (fd,e.1.data) else none

theorem payloads_append (i : Nat) (sent : List Message) (m : Message) :
    payloads i (sent ++ [m]) = payloads i sent ++ if m.type = cData ∧ m.stream.toNat = i then m.data else [] := by
  rw [payloads,filter_append,flatMap_append]
  congr 1
  by_cases here : m.type = cData ∧ m.stream.toNat = i
  · simp [here.1,here.2]
  · simp [here]

theorem delivered_append (got : List (Message × Option Nat)) (m : Message) (fd : Option Nat) : delivered (got ++ [(m,fd)]) =
    delivered got ++ if m.type = cData then (fd.map fun fd => (fd,m.data)).toList else [] := by
  rw [delivered,filterMap_append]
  congr 1
  by_cases data : m.type = cData
  · cases fd <;> simp [data]
  · simp [data]

/-- The packets that were sent are those that were received, in their order, and those that are under way. -/
def Synchronised (sent : List Message) (got : List (Message × Option Nat)) (r : Receiver) (link : List Byte) : Prop :=
  ∃ pending, sent = got.map Prod.fst ++ pending ∧ Carries receive Receiver.between r link pending

theorem Synchronised.send {packets : List Message} (synchronised : Synchronised sent got r link)
    (encodes : Encodes receive Receiver.between code packets) : Synchronised (sent ++ packets) got r (link ++ code) := by
  obtain ⟨pending,order,carries⟩ := synchronised
  exact ⟨pending ++ packets,by rw [order,append_assoc],carries.send encodes⟩

theorem Synchronised.within {b : Byte} (synchronised : Synchronised sent got r (b :: link)) (more : (rxLinkData r b).2 = false) :
    Synchronised sent got (rxLinkData r b).1 link := by
  obtain ⟨pending,order,carries⟩ := synchronised
  obtain ⟨rest,same,carries⟩ := carries.take
  have none : (receive r b).2 = none := by rw [receive,more]; rfl
  rw [none] at same
  exact ⟨rest,by rw [order,same]; rfl,carries⟩

theorem Synchronised.complete {b : Byte} (synchronised : Synchronised sent got r (b :: link))
    (done : (rxLinkData r b).2 = true) :
    (rxLinkData r b).1.rx.message ∈ sent ∧ ∀ fd, Synchronised sent (got ++ [((rxLinkData r b).1.rx.message,fd)])
    (rxLinkData r b).1 link := by
  obtain ⟨pending,order,carries⟩ := synchronised
  obtain ⟨rest,same,carries⟩ := carries.take
  have answered : (receive r b).2 = some (rxLinkData r b).1.rx.message := by rw [receive,done]; rfl
  rw [answered] at same
  refine ⟨?_,fun fd => ⟨rest,?_,carries⟩⟩
  · rw [order,same]
    simp
  rw [order,same]
  simp

end
end Retrobsd.Smux
