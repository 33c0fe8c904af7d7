import Mathlib.Data.List.DropRight

/-!
# The last entries of a log

A log that is cut to its last `n` entries whenever something is appended holds the last `n` of all that
has ever been appended: cutting in between does not matter (`rtake_append_rtake`).
-/

namespace DistRes.Lib

variable {α : Type*}

theorem rtake_append_rtake (n : ℕ) (l m : List α) : (l.rtake n ++ m).rtake n = (l ++ m).rtake n := by
  simp only [List.rtake_eq_reverse_take_reverse, List.reverse_append, List.reverse_reverse, List.take_append,
    List.take_take]
  have hmin : min (n - m.reverse.length) n = n - m.reverse.length := by omega
  rw [hmin]

end DistRes.Lib
