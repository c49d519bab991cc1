import Mathlib.Data.List.DropRight
import Mathlib.Data.UInt
import Mathlib.Tactic

/-! The sizes of the index types that have numerals: with these a numeral is the same term wherever it stands. -/
namespace Retrobsd.Lib

instance (priority := high) addTwoNeZero (n : Nat) : NeZero (n + 2) := ⟨by omega⟩

instance (priority := high) oneAddTwoNeZero : NeZero (1 + 2) := ⟨by decide⟩

instance (priority := high) twoNeZero : NeZero 2 := ⟨by decide⟩

instance (priority := high) sevenNeZero : NeZero 7 := ⟨by decide⟩

instance (priority := high) tenNeZero : NeZero 10 := ⟨by decide⟩

instance (priority := high) twentyFourNeZero : NeZero 24 := ⟨by decide⟩

instance (priority := high) twoHundredNeZero : NeZero 200 := ⟨by decide⟩

end Retrobsd.Lib
