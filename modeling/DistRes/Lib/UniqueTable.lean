import Mathlib.Data.List.Nodup
import Mathlib.Tactic.Common

/-!
# Tables with two unique columns

A table whose rows are pairs, no value standing twice in a column, and the insertion that ignores a row
which would break this.

* `accepts` — nothing of the row is taken;
* `mem_insertAll` — what is in a table after rows that do not conflict among themselves;
* `insertAll_again` — inserting the same rows again changes nothing.
-/

namespace DistRes.Lib

/-- A table of pairs, both columns of which are unique. -/
structure UniqueTable (K V : Type*) where
  rows : List (K × V)
  keys : (rows.map Prod.fst).Nodup
  values : (rows.map Prod.snd).Nodup

namespace UniqueTable

variable {K V : Type*} [DecidableEq K] [DecidableEq V] {t t' : UniqueTable K V} {r s : K × V}
  {rs : List (K × V)}

def empty : UniqueTable K V := ⟨[], List.nodup_nil, List.nodup_nil⟩

/-- Neither the key nor the value of the row is taken. -/
def accepts (t : UniqueTable K V) (r : K × V) : Bool := t.rows.all fun s => s.1 ≠ r.1 ∧ s.2 ≠ r.2

theorem accepts_iff : t.accepts r = true ↔ ∀ s ∈ t.rows, s.1 ≠ r.1 ∧ s.2 ≠ r.2 := by
  simp only [accepts, List.all_eq_true, decide_eq_true_eq]

/-- The row goes in, or is ignored. -/
def insertOrIgnore (t : UniqueTable K V) (r : K × V) : UniqueTable K V :=
  if h : t.accepts r = true then
    ⟨t.rows ++ [r], by
      rw [List.map_append, List.nodup_append]
      refine ⟨t.keys, by simp, fun k hk l hl => ?_⟩
      obtain ⟨s, hs, rfl⟩ := List.mem_map.1 hk
      rw [List.map_singleton, List.mem_singleton] at hl
      exact hl ▸ (accepts_iff.1 h s hs).1, by
      rw [List.map_append, List.nodup_append]
      refine ⟨t.values, by simp, fun k hk l hl => ?_⟩
      obtain ⟨s, hs, rfl⟩ := List.mem_map.1 hk
      rw [List.map_singleton, List.mem_singleton] at hl
      exact hl ▸ (accepts_iff.1 h s hs).2⟩
  else t

def insertAll (t : UniqueTable K V) (rs : List (K × V)) : UniqueTable K V := rs.foldl insertOrIgnore t

/-! ## One row -/

theorem mem_insertOrIgnore : s ∈ (t.insertOrIgnore r).rows ↔ s ∈ t.rows ∨ s = r ∧ t.accepts r = true := by
  unfold insertOrIgnore
  split
  · rename_i h
    rw [List.mem_append, List.mem_singleton]
    exact or_congr_right ⟨fun hs => ⟨hs, h⟩, And.left⟩
  · rename_i h
    exact ⟨.inl, fun hs => hs.resolve_right fun hr => h hr.2⟩

theorem insertOrIgnore_eq_self (h : t.accepts r = false) : t.insertOrIgnore r = t := by
  rw [insertOrIgnore, dif_neg (by simp [h])]

/-- A table accepts what it accepts with another row, unless this conflicts with it. -/
theorem accepts_insertOrIgnore : (t.insertOrIgnore r).accepts s = true ↔
    t.accepts s = true ∧ (t.accepts r = true → r.1 ≠ s.1 ∧ r.2 ≠ s.2) := by
  simp only [accepts_iff (r := s), mem_insertOrIgnore]
  constructor
  · exact fun h => ⟨fun x hx => h x (.inl hx), fun hr => h r (.inr ⟨rfl, hr⟩)⟩
  · rintro ⟨h, hr⟩ x (hx | ⟨rfl, hx⟩)
    · exact h x hx
    · exact hr hx

/-- A row that has been offered is not accepted any more. -/
theorem insertOrIgnore_offered (t : UniqueTable K V) (r : K × V) : (t.insertOrIgnore r).accepts r = false := by
  rw [Bool.eq_false_iff]
  intro h
  obtain ⟨ha, hr⟩ := accepts_insertOrIgnore.1 h
  exact (hr ha).1 rfl

/-! ## Many rows -/

theorem accepts_of_insertAll (h : (t.insertAll rs).accepts s = true) : t.accepts s = true := by
  induction rs generalizing t with
  | nil => exact h
  | cons r rs ih => exact (accepts_insertOrIgnore.1 (ih h)).1

/-- **What is in the table after the insertions**: what was there, and each row of which nothing was
taken. -/
theorem mem_insertAll (hrs : rs.Pairwise fun r s => r.1 ≠ s.1 ∧ r.2 ≠ s.2) :
    s ∈ (t.insertAll rs).rows ↔ s ∈ t.rows ∨ s ∈ rs ∧ t.accepts s = true := by
  induction rs generalizing t with
  | nil => exact ⟨.inl, fun h => h.resolve_right fun hs => List.not_mem_nil hs.1⟩
  | cons r rs ih =>
    obtain ⟨hr, hrs⟩ := List.pairwise_cons.1 hrs
    have hstep := ih (t := t.insertOrIgnore r) hrs
    rw [insertAll, List.foldl_cons, ← insertAll, hstep, mem_insertOrIgnore, List.mem_cons,
      accepts_insertOrIgnore]
    constructor
    · rintro ((hs | ⟨rfl, ha⟩) | ⟨hs, ha, -⟩)
      · exact .inl hs
      · exact .inr ⟨.inl rfl, ha⟩
      · exact .inr ⟨.inr hs, ha⟩
    · rintro (hs | ⟨rfl | hs, ha⟩)
      · exact .inl (.inl hs)
      · exact .inl (.inr ⟨rfl, ha⟩)
      · exact .inr ⟨hs, ha, fun _ => hr s hs⟩

theorem insertAll_offered (h : r ∈ rs) : (t.insertAll rs).accepts r = false := by
  induction rs generalizing t with
  | nil => cases h
  | cons s rs ih =>
    rcases List.mem_cons.1 h with rfl | h
    · rw [Bool.eq_false_iff]
      intro ha
      have hlast : ((t.insertOrIgnore r).insertAll rs).accepts r = true := ha
      have hoffered := insertOrIgnore_offered t r
      rw [accepts_of_insertAll hlast] at hoffered
      cases hoffered
    · exact ih h

theorem insertAll_eq_self (h : ∀ r ∈ rs, t.accepts r = false) : t.insertAll rs = t := by
  induction rs with
  | nil => rfl
  | cons r rs ih =>
    rw [insertAll, List.foldl_cons, insertOrIgnore_eq_self (h r List.mem_cons_self), ← insertAll]
    exact ih fun s hs => h s (List.mem_cons_of_mem _ hs)

/-- **Inserting the same rows again changes nothing.** -/
theorem insertAll_again (t : UniqueTable K V) (rs : List (K × V)) :
    (t.insertAll rs).insertAll rs = t.insertAll rs :=
  insertAll_eq_self fun _ hr => insertAll_offered hr

end UniqueTable

end DistRes.Lib
