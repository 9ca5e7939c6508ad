import Mathlib.Algebra.Order.Ring.Int

/-!
# Numerals as indices

A numeral is an index of a table if the table is not empty. The sizes of the tables that are read at
fixed places are named here once, so that a numeral means the same index in every module.
-/

namespace Minix.Lib

instance neZero_eight : NeZero 8 := ⟨by decide⟩
instance neZero_nine : NeZero 9 := ⟨by decide⟩
instance neZero_eleven : NeZero 11 := ⟨by decide⟩
instance neZero_thirty : NeZero 30 := ⟨by decide⟩
instance neZero_thirtyTwo : NeZero 32 := ⟨by decide⟩
instance neZero_ascii : NeZero 128 := ⟨by decide⟩

end Minix.Lib
