import Retrobsd.Lib.Indices

/-! Packets on a stream of bytes. A receiver takes one byte at a time and answers a packet when it has taken the last byte
of it. Bytes that are under way stand for the packets that the receiver is yet to answer. -/
namespace Retrobsd.Lib.Framing

variable {σ α π : Type} {feed : σ → α → σ × Option π} {idle : σ → Prop} {s : σ} {b : α} {bytes code : List α}
  {pending packets : List π}

/-- The receiver after some bytes, and the packets that it answers on them. -/
def feeds (feed : σ → α → σ × Option π) : σ → List α → σ × List π
  | s,[] => (s,[])
  | s,b :: bytes => ((feeds feed (feed s b).1 bytes).1,(feed s b).2.toList ++ (feeds feed (feed s b).1 bytes).2)

theorem feeds_append (first second : List α) : ∀ s, feeds feed s (first ++ second) =
    ((feeds feed (feeds feed s first).1 second).1,(feeds feed s first).2 ++ (feeds feed (feeds feed s first).1 second).2) := by
  induction first with
  | nil => exact fun s => rfl
  | cons b first ih =>
    intro s
    rw [List.cons_append,feeds,ih,feeds]
    dsimp only
    rw [List.append_assoc]

/-- A receiver between two packets answers the packets on the bytes, and is between two packets again. -/
def Encodes (feed : σ → α → σ × Option π) (idle : σ → Prop) (code : List α) (packets : List π) : Prop :=
  ∀ s, idle s → (feeds feed s code).2 = packets ∧ idle (feeds feed s code).1

/-- What the receiver will answer on the bytes that are under way. -/
structure Carries (feed : σ → α → σ × Option π) (idle : σ → Prop) (s : σ) (bytes : List α) (pending : List π) : Prop where
  packets : (feeds feed s bytes).2 = pending
  between : idle (feeds feed s bytes).1

theorem Carries.start (between : idle s) : Carries feed idle s [] [] := ⟨rfl,between⟩

theorem Carries.take (carries : Carries feed idle s (b :: bytes) pending) :
    ∃ rest, pending = (feed s b).2.toList ++ rest ∧ Carries feed idle (feed s b).1 bytes rest :=
  ⟨_,carries.packets.symm,rfl,carries.between⟩

theorem Carries.send (carries : Carries feed idle s bytes pending) (encodes : Encodes feed idle code packets) :
    Carries feed idle s (bytes ++ code) (pending ++ packets) := by
  obtain ⟨answered,between⟩ := encodes _ carries.between
  constructor
  · rw [feeds_append,carries.packets,answered]
  rw [feeds_append]
  exact between

end Retrobsd.Lib.Framing
