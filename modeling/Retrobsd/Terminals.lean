import Retrobsd.CharacterLists

/-! The flags and the special characters of a terminal, as `tty.c` compares them with a character. -/
namespace Retrobsd.Terminals
open CharacterLists (charValue)

structure Flags where
  raw : Bool
  cbreak : Bool
  crmod : Bool
  pass8 : Bool
  litout : Bool
  xtabs : Bool
  flusho : Bool
  crtkil : Bool
  echo : Bool
  crtbs : Bool
  noflsh : Bool
deriving DecidableEq

structure Ttychars where
  erase : UInt8
  kill : UInt8
  intrc : UInt8
  quitc : UInt8
  startc : UInt8
  stopc : UInt8
  eofc : UInt8
  brkc : UInt8
  suspc : UInt8
  dsuspc : UInt8
  rprntc : UInt8
  flushc : UInt8
  werasc : UInt8
  lnextc : UInt8
deriving DecidableEq

/-- `CCEQ` for a character of a queue, which is not negative. `_POSIX_VDISABLE` is 255. -/
def cceq (val : UInt8) (c : UInt8) : Bool := decide ((c.toNat : Int) = charValue val) && decide (charValue val ≠ 255)

def newline : UInt8 := 10

def carriageReturn : UInt8 := 13

def ttbreakc (flags : Flags) (chars : Ttychars) (c : UInt8) : Bool :=
  decide (c = newline) || cceq chars.eofc c || cceq chars.brkc c || decide (c = carriageReturn) && flags.crmod

def partab (c : UInt8) : Nat :=
    ([0o001,0o201,0o201,0o001,0o201,0o001,0o001,0o201,0o202,0o004,0o003,0o201,0o005,0o206,0o201,0o001,
    0o201,0o001,0o001,0o201,0o001,0o201,0o201,0o001,
    0o001,0o201,0o201,0o001,0o201,0o001,0o001,0o201,
    0o200,0o000,0o000,0o200,0o000,0o200,0o200,0o000,
    0o000,0o200,0o200,0o000,0o200,0o000,0o000,0o200,
    0o000,0o200,0o200,0o000,0o200,0o000,0o000,0o200,
    0o200,0o000,0o000,0o200,0o000,0o200,0o200,0o000,
    0o200,0o000,0o000,0o200,0o000,0o200,0o200,0o000,
    0o000,0o200,0o200,0o000,0o200,0o000,0o000,0o200,
    0o000,0o200,0o200,0o000,0o200,0o000,0o000,0o200,
    0o200,0o000,0o000,0o200,0o000,0o200,0o200,0o000,
    0o000,0o200,0o200,0o000,0o200,0o000,0o000,0o200,
    0o200,0o000,0o000,0o200,0o000,0o200,0o200,0o000,
    0o200,0o000,0o000,0o200,0o000,0o200,0o200,0o000,
    0o000,0o200,0o200,0o000,0o200,0o000,0o000,0o201] : List Nat)[c.toNat]?.getD 0o007

end Retrobsd.Terminals
