import Mathlib.Algebra.BigOperators.Group.Finset.Basic
import Mathlib.Algebra.Order.BigOperators.Group.Finset
import Mathlib.Data.Multiset.UnionInter
import DistRes.Lib.Dict

/-!
# Entries backed by tokens

Parties hold tokens, each for a key.  A set of keys is *backed* when for every one of them somebody
holds a token.  Tokens may come at any time; a token goes only with the key that it is for.

* `Backed.size_le` — a dictionary whose keys are backed has at most as many items as there are tokens.
-/

namespace DistRes.Lib

variable {H K V : Type*}

/-- For every key of the set somebody holds a token. -/
def Backed (tokens : H → Multiset K) (keys : K → Prop) : Prop := ∀ k, keys k → ∃ h, k ∈ tokens h

namespace Backed

variable {tokens : H → Multiset K} {keys keys' : K → Prop}

theorem anti (hb : Backed tokens keys) (hk : ∀ k, keys' k → keys k) : Backed tokens keys' :=
  fun k h => hb k (hk k h)

variable [DecidableEq H]

/-- A party gets a token. -/
theorem take (hb : Backed tokens keys) (h : H) (k : K) :
    Backed (Function.update tokens h (k ::ₘ tokens h)) keys := by
  intro j hj
  obtain ⟨i, hi⟩ := hb j hj
  refine ⟨i, ?_⟩
  by_cases hih : i = h
  · subst hih
    rw [Function.update_self]
    exact Multiset.mem_cons_of_mem hi
  · rwa [Function.update_of_ne hih]

/-- A token goes, with its key. -/
theorem spend [DecidableEq K] (hb : Backed tokens keys) (h : H) {k : K}
    (hkeys : ∀ j, keys' j → keys j ∧ j ≠ k) :
    Backed (Function.update tokens h ((tokens h).erase k)) keys' := by
  intro j hj
  obtain ⟨hj, hne⟩ := hkeys j hj
  obtain ⟨i, hi⟩ := hb j hj
  refine ⟨i, ?_⟩
  by_cases hih : i = h
  · subst hih
    rw [Function.update_self]
    exact (Multiset.mem_erase_of_ne hne).2 hi
  · rwa [Function.update_of_ne hih]

omit [DecidableEq H] in
/-- **There are at most as many items as tokens.** -/
theorem size_le [Fintype H] [DecidableEq K] {d : Dict K V}
    (hb : Backed tokens fun k => d.has k = true) : d.size ≤ ∑ h, (tokens h).card := by
  have hmem : ∀ k ∈ d.items.map Prod.fst, k ∈ ∑ h, tokens h := by
    intro k hk
    have hhas : d.has k = true := by
      by_contra hno
      exact Dict.get?_eq_none.1 (Option.not_isSome_iff_eq_none.1 hno) hk
    obtain ⟨h, hh⟩ := hb k hhas
    exact Multiset.mem_sum.2 ⟨h, Finset.mem_univ h, hh⟩
  have hle : (d.items.map Prod.fst : Multiset K) ≤ ∑ h, tokens h :=
    (Multiset.le_iff_subset (Multiset.coe_nodup.2 d.nodup)).2 fun k hk => hmem k hk
  calc d.size = Multiset.card (d.items.map Prod.fst : Multiset K) := by
        rw [Multiset.coe_card, List.length_map, Dict.size]
    _ ≤ Multiset.card (∑ h, tokens h) := Multiset.card_le_card hle
    _ = ∑ h, (tokens h).card := Multiset.card_sum _ _

end Backed

end DistRes.Lib
