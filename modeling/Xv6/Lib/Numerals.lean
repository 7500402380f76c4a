import Mathlib

/-!
# Numerals of finite types

A numeral of `Fin n` needs that `n` is not 0. Each size has one instance for that, so a numeral means the same term
wherever it is written.
-/

namespace Xv6

instance neZero_one : NeZero 1 := ⟨by decide⟩

instance neZero_two : NeZero 2 := ⟨by decide⟩

instance neZero_sixteen : NeZero 16 := ⟨by decide⟩

instance neZero_fifty : NeZero 50 := ⟨by decide⟩

instance neZero_sixtyFour : NeZero 64 := ⟨by decide⟩

instance neZero_hundred : NeZero 100 := ⟨by decide⟩

instance neZero_fiveHundredTwelve : NeZero 512 := ⟨by decide⟩

end Xv6
