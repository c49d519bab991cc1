import Retrobsd.SmuxLink

/-! Runs of both programs of `smux` with any clients and terminals. -/
namespace Retrobsd.Smux
open List Option
open Function
open Lib.Run Telnet

structure Faithful (s : System) : Prop where
  toRetro : Synchronised s.host.log.sent s.retro.log.got s.retro.receiver s.toRetro
  toHost : Synchronised s.retro.log.sent s.host.log.got s.host.receiver s.toHost
  terminals : s.retro.log.written = delivered s.retro.log.got
  clients : s.host.log.written = delivered s.host.log.got
  typed : ∀ i, i ≠ 0 → payloads i s.host.log.sent = (s.host.log.read i).reverse.flatMap strip
  printed : ∀ i, payloads i s.retro.log.sent = (s.retro.log.read i).reverse.flatten
  clientsApart : ∀ i j fd, s.host.fds i = some fd → s.host.fds j = some fd → i = j
  terminalsApart : ∀ i j fd, s.retro.fds i = some fd → s.retro.fds j = some fd → i = j

/-- A packet of the host: it names a stream of its table, and no client has the stream of the link. -/
structure Proper (m : Message) : Prop where
  inside : m.stream.toNat < 10
  connects : m.type = cConnect ∨ m.type = cDisconnect → m.stream.toNat ≠ 0
  console : m.type = cData → m.stream.toNat = 0 → m.data = [cr]

structure Sound (s : System) : Prop extends Faithful s where
  pipe : s.host.fds 0 = some s.host.pipeFd
  sock : s.host.fds 1 = some s.host.sockfd
  console : s.retro.fds 0 = some 0
  ready : ∀ i, s.host.ready i = true → 2 ≤ i ∧ i < 10
  known : ∀ i fd, s.retro.fds i = some fd → i < 10
  fromHost : ∀ m ∈ s.host.log.sent, Proper m
  fromRetro : ∀ m ∈ s.retro.log.sent, m.stream.toNat < 10
  plain : ∀ i, ∀ session ∈ s.host.log.read i, iac ∉ session

variable {s : System} {type stream len : Byte} {data : Nat → Byte}

section
theorem mem_snoc {P : Message → Prop} {sent : List Message} {m : Message} (all : ∀ m ∈ sent, P m) (last : P m) :
    ∀ x ∈ sent ++ [m], P x := by
  intro x member
  rcases mem_append.mp member with before | now
  · exact all x before
  rw [mem_singleton.mp now]
  exact last

theorem Sound.hostSends (sound : Sound s) (known : type ≤ cMax) (proper : Proper (⟨type,stream,len,data⟩ : Packet).message)
    (silent : type ≠ cData ∨ stream.toNat = 0) : Sound (Linux.send s type stream len data) where
  toRetro := sound.toRetro.send (packet_encodes known)
  toHost := sound.toHost
  terminals := sound.terminals
  clients := sound.clients
  typed i other := by
    show payloads i (s.host.log.sent ++ [_]) = _
    rw [payloads_append,if_neg,append_nil]
    · exact sound.typed i other
    rintro ⟨isData,here⟩
    exact silent.elim (fun no => no isData) fun zero => other (here.symm.trans zero)
  printed := sound.printed
  clientsApart := sound.clientsApart
  terminalsApart := sound.terminalsApart
  pipe := sound.pipe
  sock := sound.sock
  console := sound.console
  ready := sound.ready
  known := sound.known
  fromHost := mem_snoc sound.fromHost proper
  fromRetro := sound.fromRetro
  plain := sound.plain

variable {i : Nat}

theorem Sound.place (sound : Sound s) {fd : Nat} (here : s.host.fds i = some fd) :
    (fd = s.host.pipeFd → i = 0) ∧ (fd = s.host.sockfd → i = 1) :=
  ⟨fun same => sound.clientsApart i 0 fd here (same ▸ sound.pipe),fun same => sound.clientsApart i 1 fd here (same ▸ sound.sock)⟩

theorem toNat_stream (small : i < 10) : (UInt8.ofNat i).toNat = i := by
  rw [UInt8.toNat_ofNat']
  omega

theorem proper_control (small : i < 10) (client : i ≠ 0) (control : type ≠ cData) :
    Proper (⟨type,UInt8.ofNat i,0,data⟩ : Packet).message where
  inside := (toNat_stream small).trans_lt small
  connects _ := fun zero => client ((toNat_stream small).symm.trans zero)
  console isData := absurd isData control

theorem Sound.connect (sound : Sound s) : Sound (Linux.connect s i) := by
  rw [Linux.connect]
  split_ifs with waits
  · obtain ⟨low,high⟩ := sound.ready i waits
    have proper : Proper (⟨cConnect,UInt8.ofNat i,0,s.host.tx.data⟩ : Packet).message :=
      proper_control high (by omega) (by decide)
    have sent := sound.hostSends (by decide) proper (.inl (by decide))
    refine {sent with ready := fun j now => ?_}
    by_cases here : j = i
    · subst here
      exact ⟨low,high⟩
    · exact sound.ready j ((update_of_ne here _ _).symm.trans now)
  · exact sound

theorem Sound.closes (sound : Sound s) (low : 2 ≤ i) : Sound (Linux.setFd s i none) := by
  have others : ∀ j fd, update s.host.fds i none j = some fd → s.host.fds j = some fd := fun j fd now => by
    by_cases here : j = i
    · subst here
      rw [update_self] at now
      cases now
    · rwa [update_of_ne here] at now
  exact {sound with
    clientsApart := fun j k fd first second => sound.clientsApart j k fd (others j fd first) (others k fd second)
    pipe := (update_of_ne (by omega : 0 ≠ i) _ _).trans sound.pipe
    sock := (update_of_ne (by omega : 1 ≠ i) _ _).trans sound.sock}

theorem Sound.quits (sound : Sound s) : Sound (Linux.quits s) := {sound with}

theorem spare_some {fds : Nat → Option Nat} (found : Linux.spare fds = some i) : i < 10 ∧ fds i = none :=
  ⟨mem_range.mp (mem_of_find?_eq_some found),by simpa using List.find?_some found⟩

theorem Sound.accepts (sound : Sound s) {infd : Nat} (fresh : ∀ i, s.host.fds i ≠ some infd) : Sound (Linux.accepts s infd) := by
  rw [Linux.accepts]
  cases found : Linux.spare s.host.fds with
  | none => exact sound
  | some i =>
    obtain ⟨small,unused⟩ := spare_some found
    dsimp only
    have zero : 0 ≠ i := fun same => by
      rw [← same,sound.pipe] at unused
      cases unused
    have one : 1 ≠ i := fun same => by
      rw [← same,sound.sock] at unused
      cases unused
    have entry : ∀ j fd, update s.host.fds i (some infd) j = some fd → (j = i ∧ fd = infd) ∨
      (j ≠ i ∧ s.host.fds j = some fd) := by
      intro j fd now
      by_cases here : j = i
      · subst here
        rw [update_self] at now
        exact .inl ⟨rfl,(some.inj now).symm⟩
      · rw [update_of_ne here] at now
        exact .inr ⟨here,now⟩
    refine {sound with
      typed := fun j other => ?_
      clientsApart := fun j k fd first second => ?_
      pipe := (update_of_ne zero _ _).trans sound.pipe
      sock := (update_of_ne one _ _).trans sound.sock
      ready := fun j now => ?_
      plain := fun j session member => ?_}
    · show payloads j s.host.log.sent = (update s.host.log.read i ([] :: s.host.log.read i) j).reverse.flatMap strip
      rw [sound.typed j other]
      by_cases here : j = i
      · subst here
        rw [update_self,reverse_cons,flatMap_append]
        simp [strip,stripFrom]
      · rw [update_of_ne here]
    · rcases entry j fd first with ⟨one,same⟩ | ⟨_,old⟩
      · rcases entry k fd second with ⟨other,_⟩ | ⟨_,old⟩
        · rw [one,other]
        · exact absurd (same ▸ old) (fresh k)
      rcases entry k fd second with ⟨_,same⟩ | ⟨_,old'⟩
      · exact absurd (same ▸ old) (fresh j)
      · exact sound.clientsApart j k fd old old'
    · by_cases here : j = i
      · subst here
        omega
      · exact sound.ready j ((update_of_ne here _ _).symm.trans now)
    · change session ∈ update s.host.log.read i ([] :: s.host.log.read i) j at member
      by_cases here : j = i
      · subst here
        rw [update_self] at member
        rcases mem_cons.mp member with rfl | before
        · exact not_mem_nil
        · exact sound.plain j session before
      · rw [update_of_ne here] at member
        exact sound.plain j session member

theorem Sound.client (sound : Sound s) {fd : Nat} {got : Option (List Byte)} (low : 2 ≤ i) (high : i < 10)
    (clean : ∀ chunk, got = some chunk → Plain chunk ∧ chunk.length ≤ 255) :
    ∃ t, Linux.client s i fd got = .ok t ∧ Sound t := by
  rw [Linux.client]
  split_ifs with ended
  · have proper : Proper (⟨cDisconnect,UInt8.ofNat i,0,s.host.tx.data⟩ : Packet).message :=
      proper_control high (by omega) (by decide)
    have sent := sound.hostSends (by decide) proper (.inl (by decide))
    exact ⟨_,rfl,sent.closes low⟩
  obtain ⟨chunk,rfl⟩ : ∃ chunk, got = some chunk := isSome_iff_exists.mp <| by
    cases got with
    | none => exact absurd rfl ended
    | some chunk => rfl
  obtain ⟨plain,short⟩ := clean chunk rfl
  have some_ : 0 < chunk.length := length_pos_iff.mpr ended
  obtain ⟨f,done,count,_,copied⟩ := @fillBuffer_plain s.host.buffer s.host.tx.data chunk plain
  dsimp only [getD_some]
  rw [done]
  refine ⟨_,rfl,?_⟩
  dsimp only
  rw [if_pos (count ▸ some_),count]
  have size : (UInt8.ofNat chunk.length).toNat = chunk.length := by
    rw [UInt8.toNat_ofNat']
    omega
  have told : ∀ last : Byte, (⟨cData,UInt8.ofNat i,UInt8.ofNat chunk.length,update f.data chunk.length last⟩ : Packet).message =
      ⟨cData,UInt8.ofNat i,chunk⟩ := by
    intro last
    rw [Packet.message,Packet.payload]
    dsimp only
    rw [size]
    congr 1
    refine Eq.trans (map_congr_left fun k member => ?_) copied
    exact update_of_ne (mem_range.mp member).ne _ _
  have free : ∀ j, ∀ session ∈ update s.host.log.read i (extend (s.host.log.read i) chunk) j, iac ∉ session := by
    intro j
    by_cases here : j = i
    · subst here
      rw [update_self]
      exact extend_free (sound.plain j) plain.1
    · rw [update_of_ne here]
      exact sound.plain j
  exact {sound with
    toRetro := sound.toRetro.send (packet_encodes (show cData ≤ cMax by decide))
    typed := fun j other => by
      show payloads j (s.host.log.sent ++ [Packet.message _]) =
        (update s.host.log.read i (extend (s.host.log.read i) chunk) j).reverse.flatMap strip
      rw [told,payloads_append,strip_sessions (free j),sound.typed j other,strip_sessions (sound.plain j)]
      by_cases here : j = i
      · subst here
        rw [update_self,extend_flatten,if_pos ⟨rfl,toNat_stream high⟩]
      · rw [update_of_ne here,if_neg (fun both => here (both.2.symm.trans (toNat_stream high))),append_nil]
    fromHost := by
      refine mem_snoc sound.fromHost ?_
      rw [told]
      exact ⟨(toNat_stream high).trans_lt high,fun control =>
        absurd control (show ¬(cData = cConnect ∨ cData = cDisconnect) by decide),
        fun _ zero => absurd ((toNat_stream high).symm.trans zero) (by omega)⟩
    plain := free}

theorem Sound.hostLink (sound : Sound s) : ∃ t, Linux.link s 0 = .ok t ∧ Sound t := by
  rw [Linux.link]
  cases waiting : s.toHost with
  | nil => exact ⟨s,rfl,sound⟩
  | cons b rest =>
    have synchronised := sound.toHost
    rw [waiting] at synchronised
    dsimp only
    split_ifs with done
    · obtain ⟨member,received⟩ := synchronised.complete done
      have inside := sound.fromRetro _ member
      have index : (rxLinkData s.host.receiver b).1.rx.stream.toNat < Linux.maxfd := inside
      have after : ∀ written, written = delivered (s.host.log.got ++ [((rxLinkData s.host.receiver b).1.rx.message,
          s.host.fds (rxLinkData s.host.receiver b).1.rx.stream.toNat)]) →
          Sound {s with
            toHost := rest
            host := {s.host with
              receiver := (rxLinkData s.host.receiver b).1
              log := {s.host.log.gets (rxLinkData s.host.receiver b).1.rx.message
                (s.host.fds (rxLinkData s.host.receiver b).1.rx.stream.toNat) with written}}} :=
        fun written same => {sound with
          toHost := received _
          clients := same}
      generalize rxLinkData s.host.receiver b = r at done index after
      have quiet : r.1.rx.type ≠ cData → s.host.log.written =
          delivered (s.host.log.got ++ [(r.1.rx.message,s.host.fds r.1.rx.stream.toNat)]) := fun other => by
        rw [delivered_append,if_neg (show r.1.rx.message.type ≠ cData from other),append_nil]
        exact sound.clients
      rw [Linux.packet]
      dsimp only
      rw [if_pos index]
      split_ifs with isData outside answers
      · exact absurd index (Nat.not_lt.mpr outside)
      · cases found : s.host.fds r.1.rx.stream.toNat with
        | none =>
          rw [found] at after
          refine ⟨_,rfl,after _ ?_⟩
          rw [delivered_append,if_pos (show r.1.rx.message.type = cData from isData)]
          simpa using sound.clients
        | some fd =>
          rw [found] at after
          refine ⟨_,rfl,after _ ?_⟩
          rw [delivered_append,if_pos (show r.1.rx.message.type = cData from isData)]
          exact congrArg (· ++ [(fd,r.1.rx.payload)]) sound.clients
      · refine ⟨_,rfl,(after _ (quiet isData)).hostSends (by decide) ?_ (.inr rfl)⟩
        exact ⟨show (0 : Byte).toNat < 10 by decide,fun control =>
          absurd control (show ¬(cData = cConnect ∨ cData = cDisconnect) by decide),
          fun _ _ => rfl⟩
      · exact ⟨_,rfl,after _ (quiet isData)⟩
    · exact ⟨_,rfl,{sound with toHost := synchronised.within (by simpa using done)}⟩

theorem Sound.hostTurn (sound : Sound s) (i : Fin 10) {t : Linux.Turn}
    (fresh : ∀ fd, t.accepted = some fd → ∀ j, s.host.fds j ≠ some fd)
    (clean : ∀ chunk, t.read = some chunk → Plain chunk ∧ chunk.length ≤ 255) : ∃ s', Linux.turn s i t = .ok s' ∧ Sound s' := by
  have told := sound.connect (i := i)
  have same : (Linux.connect s i).host.fds = s.host.fds := by
    rw [Linux.connect]
    split_ifs <;> rfl
  rw [← same] at fresh
  rw [Linux.turn]
  generalize Linux.connect s i = s at told fresh
  cases here : s.host.fds i with
  | none => exact ⟨s,rfl,told⟩
  | some fd =>
    have place := told.place here
    have client : fd ≠ s.host.pipeFd → fd ≠ s.host.sockfd → 2 ≤ i.val := fun other another => by
      by_contra low
      have cases : i.val = 0 ∨ i.val = 1 := by omega
      rcases cases with zero | one
      · rw [zero,told.pipe] at here
        exact other (some.inj here).symm
      rw [one,told.sock] at here
      exact another (some.inj here).symm
    dsimp only
    split_ifs with exceptional own readable sock pipe
    · exact ⟨_,rfl,told.quits⟩
    · exact ⟨_,rfl,told.closes (client (fun same => own (.inr same)) fun same => own (.inl same))⟩
    · cases accepted : t.accepted with
      | none => exact ⟨s,rfl,told⟩
      | some infd => exact ⟨_,rfl,told.accepts (fresh infd accepted)⟩
    · rw [place.1 pipe]
      exact told.hostLink
    · exact told.client (client pipe sock) i.isLt clean
    · exact ⟨s,rfl,told⟩

end
theorem Sound.targetSends (sound : Sound s) (known : type ≤ cMax) (inside : stream.toNat < 10) (silent : type ≠ cData) :
    Sound (Bsd.send s type stream len data) :=
  {sound with
    toHost := sound.toHost.send (packet_encodes known)
    printed := fun i => by
      show payloads i (s.retro.log.sent ++ [Packet.message _]) = _
      rw [payloads_append,if_neg (fun both => silent both.1),append_nil]
      exact sound.printed i
    fromRetro := mem_snoc sound.fromRetro inside}

theorem Sound.targetQuits (sound : Sound s) : Sound (Bsd.quits s) := {sound with}

theorem Sound.sets (sound : Sound s) {i : Nat} {fd : Option Nat} (other : i ≠ 0)
    (fresh : ∀ x, fd = some x → i < 10 ∧ ∀ j, s.retro.fds j ≠ some x) : Sound (Bsd.setFd s i fd) := by
  have entry : ∀ j x, update s.retro.fds i fd j = some x → (j = i ∧ fd = some x) ∨ s.retro.fds j = some x := by
    intro j x now
    by_cases here : j = i
    · subst here
      rw [update_self] at now
      exact .inl ⟨rfl,now⟩
    · rw [update_of_ne here] at now
      exact .inr now
  refine {sound with
    terminalsApart := fun j k x first second => ?_
    console := (update_of_ne other.symm _ _).trans sound.console
    known := fun j x now => ?_}
  · rcases entry j x first with ⟨one,same⟩ | old
    · rcases entry k x second with ⟨another,_⟩ | old
      · rw [one,another]
      · exact absurd old ((fresh x same).2 k)
    rcases entry k x second with ⟨_,same⟩ | old'
    · exact absurd old ((fresh x same).2 j)
    · exact sound.terminalsApart j k x old old'
  · rcases entry j x now with ⟨rfl,same⟩ | old
    · exact (fresh x same).1
    · exact sound.known j x old

theorem allocatePty_some {devices : List (Bool × Int)} {fd : Nat} (found : Bsd.allocatePty devices = some fd) :
    0 < fd ∧ ∃ device ∈ devices, device.2 = fd := by
  induction devices with
  | nil => cases found
  | cons device devices ih =>
    rw [Bsd.allocatePty] at found
    split_ifs at found with there open_
    · refine ⟨?_,device,mem_cons_self,?_⟩ <;> (have same := some.inj found; omega)
    obtain ⟨positive,other,member,same⟩ := ih found
    exact ⟨positive,other,mem_cons_of_mem _ member,same⟩

theorem Sound.targetConnects (sound : Sound s) {i : Nat} {ptys : List (Bool × Int)} (other : i ≠ 0) (inside : i < 10)
    (fresh : ∀ device ∈ ptys, ∀ j fd, s.retro.fds j = some fd → device.2 ≠ fd) : ∃ t,
    Bsd.connect s i ptys = .ok t ∧ Sound t := by
  rw [Bsd.connect]
  cases found : Bsd.allocatePty (ptys.take Bsd.maxpty) with
  | none => exact ⟨_,rfl,sound.targetSends (by decide) (by decide) (by decide)⟩
  | some fd =>
    dsimp only
    rw [if_neg (by rw [Bsd.maxfd]; omega)]
    split_ifs with unused
    · obtain ⟨_,device,member,same⟩ := allocatePty_some found
      have set : Sound (Bsd.setFd s i (some fd)) := sound.sets other fun x now => ⟨inside,fun j used =>
        fresh device (mem_of_mem_take member) j x used (by rw [same,some.inj now])⟩
      refine ⟨_,rfl,Sound.targetSends {set with printed := fun j => ?_} (by decide)
        ((toNat_stream inside).trans_lt inside) (by decide)⟩
      show payloads j s.retro.log.sent = (update s.retro.log.read i ([] :: s.retro.log.read i) j).reverse.flatten
      rw [sound.printed j]
      by_cases here : j = i
      · subst here
        rw [update_self,reverse_cons,flatten_append]
        simp
      · rw [update_of_ne here]
    · exact ⟨s,rfl,sound⟩

theorem Sound.terminal (sound : Sound s) {i fd : Nat} {chunk : List Byte} (used : s.retro.fds i = some fd)
    (short : chunk.length ≤ 255) :
    Sound (Bsd.terminal s i (some chunk)) := by
  have small := sound.known i fd used
  have size : (UInt8.ofNat chunk.length).toNat = chunk.length := by
    rw [UInt8.toNat_ofNat']
    omega
  have told : (⟨cData,UInt8.ofNat i,UInt8.ofNat chunk.length,Bsd.fillData s.retro.tx.data chunk⟩ : Packet).message =
      ⟨cData,UInt8.ofNat i,chunk⟩ := by
    rw [Packet.message,Packet.payload]
    dsimp only
    rw [size]
    congr 1
    refine ext_getElem (by simp) fun k left right => ?_
    rw [getElem_map,getElem_range]
    exact dif_pos right
  refine {sound with
    toHost := sound.toHost.send (packet_encodes (show cData ≤ cMax by decide))
    printed := fun j => ?_
    fromRetro := mem_snoc sound.fromRetro ((toNat_stream small).trans_lt small)}
  show payloads j (s.retro.log.sent ++ [Packet.message _]) =
    (update s.retro.log.read i (extend (s.retro.log.read i) chunk) j).reverse.flatten
  rw [told,payloads_append,sound.printed j]
  by_cases here : j = i
  · subst here
    rw [update_self,extend_flatten,if_pos ⟨rfl,toNat_stream small⟩]
  · rw [update_of_ne here,if_neg (fun both => here (both.2.symm.trans (toNat_stream small))),append_nil]

theorem Sound.targetLink (sound : Sound s) {ptys : List (Bool × Int)}
    (fresh : ∀ device ∈ ptys, ∀ j fd, s.retro.fds j = some fd → device.2 ≠ fd) : ∃ t, Bsd.link s ptys = .ok t ∧ Sound t := by
  rw [Bsd.link]
  cases waiting : s.toRetro with
  | nil => exact ⟨s,rfl,sound⟩
  | cons b rest =>
    have synchronised := sound.toRetro
    rw [waiting] at synchronised
    dsimp only
    split_ifs with done
    · obtain ⟨member,received⟩ := synchronised.complete done
      have proper := sound.fromHost _ member
      generalize rxLinkData s.retro.receiver b = r at done member received proper
      have inside : r.1.rx.stream.toNat < 10 := proper.inside
      have index : r.1.rx.stream.toNat < Bsd.maxfd := inside.trans (by decide)
      have after : r.1.rx.type ≠ cData → Sound {s with
          toRetro := rest
          retro := {s.retro with
            receiver := r.1
            log := s.retro.log.gets r.1.rx.message (s.retro.fds r.1.rx.stream.toNat)}} := fun other => {sound with
        toRetro := received _
        terminals := by
          show s.retro.log.written = delivered (s.retro.log.got ++ [_])
          rw [delivered_append,if_neg (show r.1.rx.message.type ≠ cData from other),append_nil]
          exact sound.terminals}
      rw [Bsd.packet]
      dsimp only
      rw [if_pos index]
      split_ifs with isPing isConnect isDisconnect outside isData outside isQuit
      · exact ⟨_,rfl,(after (by rw [isPing]; decide)).targetSends (by decide) (by decide) (by decide)⟩
      · exact (after (by rw [isConnect]; decide)).targetConnects (proper.connects (.inl isConnect)) inside fresh
      · exact absurd index (Nat.not_lt.mpr outside)
      · exact ⟨_,rfl,(after (by rw [isDisconnect]; decide)).sets (proper.connects (.inr isDisconnect)) fun _ now => by cases now⟩
      · exact absurd index (Nat.not_lt.mpr outside)
      · cases found : s.retro.fds r.1.rx.stream.toNat with
        | none =>
          refine ⟨_,rfl,{sound with toRetro := received _,terminals := ?_}⟩
          show s.retro.log.written = delivered (s.retro.log.got ++ [_])
          rw [delivered_append,if_pos (show r.1.rx.message.type = cData from isData)]
          simpa using sound.terminals
        | some fd =>
          have terminals : s.retro.log.written ++ [(fd,r.1.rx.payload)] =
            delivered (s.retro.log.got ++ [(r.1.rx.message,some fd)]) := by
            rw [delivered_append,if_pos (show r.1.rx.message.type = cData from isData)]
            exact congrArg (· ++ [(fd,r.1.rx.payload)]) sound.terminals
          refine ⟨_,rfl,{sound with toRetro := received _,terminals,toHost := ?_}⟩
          show Synchronised s.retro.log.sent s.host.log.got s.host.receiver
            (if fd = 0 then s.toHost ++ r.1.rx.payload else s.toHost)
          split_ifs with own
          · subst own
            have zero := sound.terminalsApart _ 0 0 found sound.console
            have return_ : r.1.rx.payload = [cr] := proper.console isData zero
            rw [return_,← append_nil s.retro.log.sent]
            exact sound.toHost.send return_encodes
          · exact sound.toHost
      · exact ⟨_,rfl,(after isData).targetQuits⟩
      · exact ⟨_,rfl,after isData⟩
    · exact ⟨_,rfl,{sound with toRetro := synchronised.within (by simpa using done)}⟩

theorem Sound.targetTurn (sound : Sound s) (i : Nat) {t : Bsd.Turn}
    (fresh : ∀ device ∈ t.ptys, ∀ j fd, s.retro.fds j = some fd → device.2 ≠ fd)
    (clean : ∃ chunk, t.read = some chunk ∧ chunk.length ≤ 255) : ∃ s', Bsd.turn s i t = .ok s' ∧ Sound s' := by
  rw [Bsd.turn]
  cases here : s.retro.fds i with
  | none => exact ⟨s,rfl,sound⟩
  | some fd =>
    obtain ⟨chunk,read,short⟩ := clean
    dsimp only
    split_ifs with readable own
    · exact sound.targetLink fresh
    · rw [read]
      exact ⟨_,rfl,sound.terminal here short⟩
    · exact ⟨s,rfl,sound⟩

section
variable {ops : List Op}

/-- What the system promises: a read answers no more than was asked for, and `accept` and `open` answer a descriptor that is
not in use. -/
def Possible (s : System) : Op → Prop
  | .linux _ t => (∀ fd, t.accepted = some fd → ∀ j, s.host.fds j ≠ some fd) ∧ ∀ chunk, t.read = some chunk → chunk.length ≤ 255
  | .bsd _ t => (∀ device ∈ t.ptys, ∀ j fd, s.retro.fds j = some fd → device.2 ≠ fd) ∧ ∀ chunk,
    t.read = some chunk → chunk.length ≤ 255
  | _ => True

/-- No terminal's read fails, and no client sends a telnet command or more in a read after a carriage return. -/
def Clean : Op → Prop
  | .linux _ t => ∀ chunk, t.read = some chunk → Plain chunk
  | .bsd _ t => t.read ≠ none
  | _ => True

theorem step_sound (sound : Sound s) {op : Op} (possible : Possible s op) (clean : Clean op) :
    ∃ t, step s op = .ok t ∧ Sound t := by
  cases op with
  | linux i t =>
    rw [step]
    split_ifs with running
    · exact sound.hostTurn i possible.1 fun chunk read => ⟨clean chunk read,possible.2 chunk read⟩
    · exact ⟨s,rfl,sound⟩
  | ping =>
    refine ⟨_,rfl,?_⟩
    split_ifs with running
    · exact sound.hostSends (by decide) ⟨show (0 : Byte).toNat < 10 by decide,
        fun control => absurd control (show ¬(cPing = cConnect ∨ cPing = cDisconnect) by decide),
        fun isData => absurd isData (show cPing ≠ cData by decide)⟩ (.inl (by decide))
    · exact sound
  | linuxTimeout => exact ⟨_,rfl,sound.quits⟩
  | bsd i t =>
    rw [step]
    split_ifs with running
    · obtain ⟨chunk,read⟩ := ne_none_iff_exists'.mp clean
      exact sound.targetTurn i possible.1 ⟨chunk,read,possible.2 chunk read⟩
    · exact ⟨s,rfl,sound⟩
  | bsdTimeout => exact ⟨_,rfl,sound.targetQuits⟩

theorem start_sound {pipeFd sockfd : Nat} (apart : pipeFd ≠ sockfd) (buffer : Nat → Byte) :
    Sound (start pipeFd sockfd buffer) where
  toRetro := ⟨[],rfl,.start rfl⟩
  toHost := ⟨[],rfl,.start rfl⟩
  terminals := rfl
  clients := rfl
  typed _ _ := rfl
  printed _ := rfl
  clientsApart i j fd first second := by
    simp only [start] at first second
    split_ifs at first second with zero one zero' one' <;> simp_all
  terminalsApart i j fd first second := by
    simp only [start] at first second
    split_ifs at first second with zero zero'
    omega
  pipe := rfl
  sock := rfl
  console := rfl
  ready _ now := by cases now
  known i fd used := by
    simp only [start] at used
    split_ifs at used with zero
    omega
  fromHost _ member := by cases member
  fromRetro _ member := by cases member
  plain _ _ member := by cases member

/-- Where no terminal's read fails and no client sends a telnet command or more after a carriage return, both sides stay
faithful and use no index outside of their tables. -/
theorem multiplexer_faithful {pipeFd sockfd : Nat} (apart : pipeFd ≠ sockfd) (buffer : Nat → Byte)
    (possible : Along step Possible (start pipeFd sockfd buffer) ops) (clean : ∀ op ∈ ops, Clean op) :
    ∃ s, run step (start pipeFd sockfd buffer) ops = .ok s ∧ Faithful s := by
  have progress : ∀ s op, Sound s → Possible s op ∧ Clean op → ∃ t, step s op = .ok t ∧ Sound t :=
    fun s op sound allowed => step_sound sound allowed.1 allowed.2
  obtain ⟨s,ended,sound⟩ := run_total progress ops _ (start_sound apart buffer) (possible.and (Along.of_forall _ clean))
  exact ⟨s,ended,sound.toFaithful⟩

def quiet : Linux.Turn := ⟨false,true,none,none⟩

def someOps : List Op := [.linux 1 {quiet with accepted := some 7},.linux 2 {quiet with read := some [108,115,cr]},
    .bsd 0 ⟨true,some [],[]⟩,.bsd 0 ⟨true,some [],[]⟩,.bsd 0 ⟨true,some [],[(true,5)]⟩]

theorem start_fresh {infd : Nat} (three : infd ≠ 3) (four : infd ≠ 4) (j : Nat) :
    (start 3 4 fun _ => 0).host.fds j ≠ some infd := by
  simp only [start]
  split_ifs <;> simp [three.symm,four.symm]

theorem someOps_possible : Along step Possible (start 3 4 fun _ => 0) someOps := by
  have short : ∀ chunk : List Byte, some [108,115,cr] = some chunk → chunk.length ≤ 255 := fun chunk same =>
    some.inj same ▸ by decide
  have none_ : ∀ chunk : List Byte, some [] = some chunk → chunk.length ≤ 255 := fun chunk same => some.inj same ▸ by decide
  refine ⟨⟨fun fd same => some.inj same ▸ start_fresh (by decide) (by decide),nofun⟩,fun t ok => ?_⟩
  cases ok
  refine ⟨⟨nofun,short⟩,fun t ok => ?_⟩
  cases ok
  refine ⟨⟨nofun,none_⟩,fun t ok => ?_⟩
  cases ok
  refine ⟨⟨nofun,none_⟩,fun t ok => ?_⟩
  cases ok
  refine ⟨⟨fun device member j fd used => ?_,none_⟩,fun _ _ => trivial⟩
  change (if j = 0 then some 0 else none) = some fd at used
  rw [mem_singleton.mp member]
  split_ifs at used
  cases used
  decide

theorem multiplexer_faithful_someOps : ∃ s, run step (start 3 4 fun _ => 0) someOps = .ok s ∧ Faithful s := by
  refine multiplexer_faithful (by decide) _ someOps_possible fun op member => ?_
  fin_cases member
  · exact nofun
  · exact fun chunk same => Option.some.inj same ▸ by decide
  all_goals exact Option.some_ne_none _

def offeringOps : List Op := [.linux 1 {quiet with accepted := some 7},.linux 2 {quiet with read := some [iac,will,teloptEcho]}]

theorem option_typed : ¬∀ (pipeFd sockfd : Nat) (buffer : Nat → Byte) (ops : List Op), pipeFd ≠ sockfd →
    Along step Possible (start pipeFd sockfd buffer) ops → ∃ s, run step (start pipeFd sockfd buffer) ops =
    .ok s ∧ Faithful s := by
  intro faithful
  have possible : Along step Possible (start 3 4 fun _ => 0) offeringOps := by
    refine ⟨⟨fun fd same => Option.some.inj same ▸ start_fresh (by decide) (by decide),nofun⟩,fun t ok => ?_⟩
    cases ok
    exact ⟨⟨nofun,fun chunk same => Option.some.inj same ▸ by decide⟩,fun _ _ => trivial⟩
  obtain ⟨s,ended,sound⟩ := faithful 3 4 (fun _ => 0) offeringOps (by decide) possible
  have differs : returns (fun s => decide (payloads 2 s.host.log.sent ≠ (s.host.log.read 2).reverse.flatMap strip))
      (run step (start 3 4 fun _ => 0) offeringOps) = true := by decide +kernel
  rw [ended] at differs
  exact of_decide_eq_true differs (sound.typed 2 (by decide))

end
end Retrobsd.Smux
