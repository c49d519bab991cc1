import Retrobsd.Lib.Run
import Retrobsd.Lib.Framing

/-! The two programs of `smux`. One connects clients on the network with numbered streams, the other connects the streams
with pseudo-terminals, and packets pass between them over a serial link. -/
namespace Retrobsd.Smux
open Function

abbrev Byte := UInt8

/-- `struct smux_packet`. Behind the 255 bytes of data is padding. -/
structure Packet where
  type : Byte
  stream : Byte
  len : Byte
  data : Nat → Byte

def cConnect : Byte := 0x01
def cConnectok : Byte := 0x02
def cConnectfail : Byte := 0x03
def cDisconnect : Byte := 0x04
def cData : Byte := 0x05
def cQuit : Byte := 0x06
def cPing : Byte := 0x07
def cPong : Byte := 0x08
def cMax : Byte := 0x08

def cr : Byte := 13

structure Message where
  type : Byte
  stream : Byte
  data : List Byte
deriving DecidableEq

def Packet.payload (p : Packet) : List Byte := (List.range p.len.toNat).map p.data

def Packet.message (p : Packet) : Message := ⟨p.type,p.stream,p.payload⟩

def Packet.bytes (p : Packet) : List Byte := p.type :: p.stream :: p.len :: p.payload

structure Receiver where
  phase : Nat
  pos : Nat
  rx : Packet

/-- `rx_link_data` on a byte that was read. A `char` has a sign. -/
def rxLinkData (r : Receiver) (inch : Byte) : Receiver × Bool :=
  match r.phase with
  | 0 =>
    if cMax < inch ∧ inch < 128 then (r,false)
    else ({r with phase := 1,rx := {r.rx with type := inch}},false)
  | 1 => ({r with phase := 2,rx := {r.rx with stream := inch}},false)
  | 2 =>
    let r := {r with phase := 3,rx := {r.rx with len := inch},pos := 0}
    if inch = 0 then ({r with phase := 0},true) else (r,false)
  | 3 =>
    let r := {r with rx := {r.rx with data := update r.rx.data r.pos inch},pos := r.pos + 1}
    if r.pos = r.rx.len.toNat then ({r with phase := 0},true) else (r,false)
  | _ => (r,false)

/-- What an observer writes down about one side: the packets that it sent and received, these with the
descriptor that was connected under the stream, the payloads that it wrote to a descriptor, and what it read for
each stream, one list for a connection with the latest first. -/
structure Log where
  sent : List Message
  got : List (Message × Option Nat)
  written : List (Nat × List Byte)
  read : Nat → List (List Byte)

def extend : List (List Byte) → List Byte → List (List Byte)
  | [],chunk => [chunk]
  | session :: sessions,chunk => (session ++ chunk) :: sessions

def Log.reads (l : Log) (stream : Nat) (chunk : List Byte) : Log :=
    {l with read := update l.read stream (extend (l.read stream) chunk)}

def Log.connects (l : Log) (stream : Nat) : Log := {l with read := update l.read stream ([] :: l.read stream)}

def Log.gets (l : Log) (m : Message) (fd : Option Nat) : Log := {l with got := l.got ++ [(m,fd)]}

def Log.sends (l : Log) (m : Message) : Log := {l with sent := l.sent ++ [m]}

def Log.writes (l : Log) (fd : Nat) (payload : List Byte) : Log := {l with written := l.written ++ [(fd,payload)]}

/-- `fds[MAXFD]` with `none` for -1, and the variables of the program on the host. -/
structure Host where
  pipeFd : Nat
  sockfd : Nat
  fds : Nat → Option Nat
  ready : Nat → Bool
  tx : Packet
  receiver : Receiver
  buffer : Nat → Byte
  replies : List (Nat × List Byte)
  running : Bool
  log : Log

structure Retro where
  fds : Nat → Option Nat
  tx : Packet
  receiver : Receiver
  running : Bool
  log : Log

structure System where
  host : Host
  retro : Retro
  toRetro : List Byte
  toHost : List Byte

inductive Fault where
  | stream (n : Nat)
  | buffer
deriving DecidableEq

namespace Telnet

def iac : Byte := 255
def dont : Byte := 254
def do_ : Byte := 253
def wont : Byte := 252
def will : Byte := 251
def sb : Byte := 250
def se : Byte := 240
def teloptEcho : Byte := 1
def teloptSga : Byte := 3
def teloptLinemode : Byte := 34

end Telnet
open Telnet

/-- The place in the buffer, `tx.data` and its end, and the answers to the client. -/
structure Filtering where
  i : Nat
  j : Nat
  data : Nat → Byte
  replies : List (List Byte)

def bufferSize : Nat := 300

/-- The loop that looks for the end of a subnegotiation; it ends outside of the buffer where there is none. -/
def skipSub (buffer : Nat → Byte) : Nat → Nat → Except Fault Nat
  | 0,_ => .error .buffer
  | fuel + 1,i =>
    if bufferSize ≤ i then .error .buffer
    else if buffer i ≠ se ∧ buffer (i - 1) ≠ se then skipSub buffer fuel (i + 1)
    else .ok i

def Filtering.keep (f : Filtering) (buffer : Nat → Byte) : Filtering :=
    {f with data := update f.data f.j (buffer f.i),j := f.j + 1}

def Filtering.reply (f : Filtering) (bytes : List Byte) : Filtering := {f with replies := f.replies ++ [bytes]}

def Filtering.next (f : Filtering) : Filtering := {f with i := f.i + 1}

def option (f : Filtering) (buffer : Nat → Byte) : Filtering :=
  if buffer f.i = teloptSga then f.reply [iac,will,teloptSga]
  else if buffer f.i = teloptEcho then f
  else if buffer f.i = teloptLinemode then f.reply [iac,sb,34,1,0,iac,se]
  else f.reply [iac,wont,buffer f.i]

def command (f : Filtering) (buffer : Nat → Byte) : Except Fault Filtering :=
  let c := buffer f.i
  if c = will then .ok (f.next.reply [iac,dont,buffer (f.i + 1)])
  else if c = wont ∨ c = do_ then .ok (option f.next buffer)
  else if c = dont then .ok f.next
  else if c = sb then
    let f := f.next
    let f := if buffer f.i = 34 then f.reply [iac,sb,34,1,4,iac,se] else f
    (skipSub buffer bufferSize f.i).map fun i => {f with i := i + 1}
  else if c = se then .ok f
  else if c = iac then .ok (f.keep buffer)
  else .ok f.next

def filter (buffer : Nat → Byte) (nr : Nat) : Nat → Filtering → Except Fault Filtering
  | 0,f => .ok f
  | fuel + 1,f =>
    if nr ≤ f.i then .ok f
    else if buffer f.i = cr then filter buffer nr fuel (f.keep buffer).next.next
    else if buffer f.i = iac then
      (command f.next buffer).bind fun f =>
        if bufferSize ≤ f.i then .error .buffer else filter buffer nr fuel (f.keep buffer).next
    else filter buffer nr fuel (f.keep buffer).next

namespace Linux

def maxfd : Nat := 10

def sendTx (s : System) : System :=
  {s with host := {s.host with log := s.host.log.sends s.host.tx.message},toRetro := s.toRetro ++ s.host.tx.bytes}

def send (s : System) (type stream len : Byte) (data : Nat → Byte) : System :=
    sendTx {s with host := {s.host with tx := ⟨type,stream,len,data⟩}}

def setFd (s : System) (stream : Nat) (fd : Option Nat) : System :=
    {s with host := {s.host with fds := update s.host.fds stream fd}}

def spare (fds : Nat → Option Nat) : Option Nat := (List.range maxfd).find? fun i => (fds i).isNone

def fillBuffer (buffer : Nat → Byte) (chunk : List Byte) : Nat → Byte := fun i =>
  if h : i < chunk.length then chunk[i] else if i = chunk.length then 0 else buffer i

def accepts (s : System) (infd : Nat) : System :=
  let greeting := [iac,do_,teloptLinemode,iac,will,teloptEcho]
  match spare s.host.fds with
  | none => s
  | some i =>
    let s := setFd s i (some infd)
    {s with host := {s.host with
      ready := update s.host.ready i true
      buffer := fillBuffer s.host.buffer greeting
      replies := s.host.replies ++ [(infd,greeting)]
      log := s.host.log.connects i}}

def packet (s : System) (stream : Nat) : Except Fault System :=
  let rx := s.host.receiver.rx
  let fd := if rx.stream.toNat < maxfd then s.host.fds rx.stream.toNat else none
  let s := {s with host := {s.host with log := s.host.log.gets rx.message fd}}
  if rx.type = cData then
    if maxfd ≤ rx.stream.toNat then .error (.stream rx.stream.toNat)
    else match s.host.fds rx.stream.toNat with
      | none => .ok s
      | some fd => .ok {s with host := {s.host with log := s.host.log.writes fd rx.payload}}
  else if rx.type = cConnectok then
    .ok (send s cData (UInt8.ofNat stream) 1 (update (update s.host.tx.data 0 cr) 1 0))
  else .ok s

def link (s : System) (stream : Nat) : Except Fault System :=
  match s.toHost with
  | [] => .ok s
  | b :: rest =>
    let r := rxLinkData s.host.receiver b
    let s := {s with toHost := rest,host := {s.host with receiver := r.1}}
    if r.2 then packet s stream else .ok s

/-- A client is read; `none` is an error, and no bytes are the end. -/
def client (s : System) (stream fd : Nat) (got : Option (List Byte)) : Except Fault System :=
  if got.getD [] = [] then .ok (setFd (send s cDisconnect (UInt8.ofNat stream) 0 s.host.tx.data) stream none)
  else
    let chunk := got.getD []
    let buffer := fillBuffer s.host.buffer chunk
    let s := {s with host := {s.host with buffer,log := s.host.log.reads stream chunk}}
    (filter buffer chunk.length chunk.length ⟨0,0,s.host.tx.data,[]⟩).map fun f =>
      let s := {s with host := {s.host with
        replies := s.host.replies ++ f.replies.map fun bytes => (fd,bytes)
        tx := {s.host.tx with type := cData,stream := UInt8.ofNat stream,data := f.data}}}
      if 0 < f.j then send s cData (UInt8.ofNat stream) (UInt8.ofNat f.j) (update f.data f.j 0) else s

structure Turn where
  exceptional : Bool
  readable : Bool
  accepted : Option Nat
  read : Option (List Byte)

def quits (s : System) : System := {s with host := {s.host with running := false}}

def connect (s : System) (stream : Nat) : System :=
  if s.host.ready stream then
    let s := send s cConnect (UInt8.ofNat stream) 0 s.host.tx.data
    {s with host := {s.host with ready := update s.host.ready stream false}}
  else s

def turn (s : System) (stream : Nat) (t : Turn) : Except Fault System :=
  let s := connect s stream
  match s.host.fds stream with
  | none => .ok s
  | some fd =>
    -- The other side is not told of a client that is closed here.
    if t.exceptional then
      if fd = s.host.sockfd ∨ fd = s.host.pipeFd then .ok (quits s) else .ok (setFd s stream none)
    else if t.readable then
      if fd = s.host.sockfd then .ok ((t.accepted.map (accepts s)).getD s)
      else if fd = s.host.pipeFd then link s stream
      else client s stream fd t.read
    else .ok s

def ping (s : System) : System := send s cPing 0 0 s.host.tx.data

end Linux

namespace Bsd

def maxfd : Nat := 20

def maxpty : Nat := 10

def sendTx (s : System) : System :=
  {s with retro := {s.retro with log := s.retro.log.sends s.retro.tx.message}, toHost := s.toHost ++ s.retro.tx.bytes}

def send (s : System) (type stream len : Byte) (data : Nat → Byte) : System :=
  sendTx {s with retro := {s.retro with tx := ⟨type,stream,len,data⟩}}

def setFd (s : System) (stream : Nat) (fd : Option Nat) : System :=
    {s with retro := {s.retro with fds := update s.retro.fds stream fd}}

/-- The loop over the devices: whether there is one, and what `open` answers. -/
def allocatePty : List (Bool × Int) → Option Nat
  | [] => none
  | (found,fd) :: devices => if ¬found then none else if 0 < fd then some fd.toNat else allocatePty devices

def write (s : System) (fd : Nat) (bytes : List Byte) : System := {s with
    toHost := if fd = 0 then s.toHost ++ bytes else s.toHost
    retro := {s.retro with log := s.retro.log.writes fd bytes}}

/-- `C_CONNECT`; a stream that is connected gets no answer, and the descriptor is not used. -/
def connect (s : System) (stream : Nat) (ptys : List (Bool × Int)) : Except Fault System :=
  match allocatePty (ptys.take maxpty) with
  | none => .ok (send s cConnectfail 0 0 s.retro.tx.data)
  | some fd =>
    if maxfd ≤ stream then .error (.stream stream)
    else if s.retro.fds stream = none then
      let s := setFd s stream (some fd)
      let s := {s with retro := {s.retro with log := s.retro.log.connects stream}}
      .ok (send s cConnectok (UInt8.ofNat stream) 0 s.retro.tx.data)
    else .ok s

def quits (s : System) : System := {s with retro := {s.retro with running := false}}

def packet (s : System) (ptys : List (Bool × Int)) : Except Fault System :=
  let rx := s.retro.receiver.rx
  let stream := rx.stream.toNat
  let fd := if stream < maxfd then s.retro.fds stream else none
  let s := {s with retro := {s.retro with log := s.retro.log.gets rx.message fd}}
  if rx.type = cPing then .ok (send s cPong 0 0 s.retro.tx.data)
  else if rx.type = cConnect then connect s stream ptys
  else if rx.type = cDisconnect then
    if maxfd ≤ stream then .error (.stream stream) else .ok (setFd s stream none)
  else if rx.type = cData then
    if maxfd ≤ stream then .error (.stream stream)
    else match s.retro.fds stream with
      | none => .ok s
      | some fd => .ok (write s fd rx.payload)
  else if rx.type = cQuit then .ok (quits s)
  else .ok s

def link (s : System) (ptys : List (Bool × Int)) : Except Fault System :=
  match s.toRetro with
  | [] => .ok s
  | b :: rest =>
    let r := rxLinkData s.retro.receiver b
    let s := {s with toRetro := rest,retro := {s.retro with receiver := r.1}}
    if r.2 then packet s ptys else .ok s

def fillData (data : Nat → Byte) (chunk : List Byte) : Nat → Byte := fun i => if h : i < chunk.length then chunk[i] else data i

def terminal (s : System) (stream : Nat) (got : Option (List Byte)) : System :=
  let s := {s with retro := {s.retro with log := s.retro.log.reads stream (got.getD [])}}
  match got with
  | none => send s cData (UInt8.ofNat stream) 255 s.retro.tx.data
  | some chunk => send s cData (UInt8.ofNat stream) (UInt8.ofNat chunk.length) (fillData s.retro.tx.data chunk)

structure Turn where
  readable : Bool
  read : Option (List Byte)
  ptys : List (Bool × Int)

def turn (s : System) (i : Nat) (t : Turn) : Except Fault System :=
  match s.retro.fds i with
  | none => .ok s
  | some fd =>
    if t.readable then
      if fd = 0 then link s t.ptys else .ok (terminal s i t.read)
    else .ok s

end Bsd

/-- What happens next: a turn of a loop, a packet that is sent when it is time to, or the end of a program. -/
inductive Op where
  | linux (stream : Fin 10) (t : Linux.Turn)
  | ping
  | linuxTimeout
  | bsd (i : Fin 20) (t : Bsd.Turn)
  | bsdTimeout

def step (s : System) : Op → Except Fault System
  | .linux stream t => if s.host.running then Linux.turn s stream t else .ok s
  | .ping => .ok (if s.host.running then Linux.ping s else s)
  | .linuxTimeout => .ok (Linux.quits s)
  | .bsd i t => if s.retro.running then Bsd.turn s i t else .ok s
  | .bsdTimeout => .ok (Bsd.quits s)

def start (pipeFd sockfd : Nat) (buffer : Nat → Byte) : System :=
  let packet : Packet := ⟨0,0,0,fun _ => 0⟩
  let log : Log := ⟨[],[],[],fun _ => []⟩
  {host := ⟨pipeFd,sockfd,fun i => if i = 0 then some pipeFd else if i = 1 then some sockfd else none,fun _ => false,packet,
      ⟨0,0,packet⟩,buffer,[],true,log⟩
   retro := ⟨fun i => if i = 0 then some 0 else none,packet,⟨0,0,packet⟩,true,log⟩
   toRetro := []
   toHost := []}

end Retrobsd.Smux
