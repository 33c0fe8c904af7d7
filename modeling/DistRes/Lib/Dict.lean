import Mathlib.Data.List.Nodup

/-!
# Insertion-ordered dictionaries

A dictionary is the list of its items in the order in which their keys were first inserted, with no
key twice.  Setting a key that is there keeps its place; popping it and setting it again moves it to
the end.

* `get?_set`, `get?_pop` — what an operation does to every key;
* `has_set_of_ne`, `has_pop_of_ne` — what it does to the keys that are there;
* `mem_items` — the items are the keys with their values.
-/

namespace DistRes.Lib

/-- A dictionary with the order of insertion. -/
structure Dict (K V : Type*) where
  items : List (K × V)
  nodup : (items.map Prod.fst).Nodup

namespace Dict

variable {K V : Type*} [DecidableEq K]

def empty : Dict K V := ⟨[], List.nodup_nil⟩

/-- `d.get(k)`. -/
def get? (d : Dict K V) (k : K) : Option V := (d.items.find? fun e => e.1 = k).map Prod.snd

/-- `k in d`. -/
def has (d : Dict K V) (k : K) : Bool := (d.get? k).isSome

/-- The items with the value of `k` replaced. -/
def replace (l : List (K × V)) (k : K) (v : V) : List (K × V) :=
  l.map fun e => if e.1 = k then (k, v) else e

theorem map_fst_replace (l : List (K × V)) (k : K) (v : V) :
    (replace l k v).map Prod.fst = l.map Prod.fst := by
  rw [replace, List.map_map]
  refine List.map_congr_left fun e _ => ?_
  by_cases h : e.1 = k
  · simp [h]
  · simp [h]

/-- `d[k] = v`. -/
def set (d : Dict K V) (k : K) (v : V) : Dict K V :=
  if h : k ∈ d.items.map Prod.fst then
    ⟨replace d.items k v, (map_fst_replace d.items k v).symm ▸ d.nodup⟩
  else
    ⟨d.items ++ [(k, v)], by
      rw [List.map_append, List.nodup_append]
      refine ⟨d.nodup, by simp, fun a ha b hb => ?_⟩
      rw [List.map_cons, List.map_nil, List.mem_singleton] at hb
      rintro rfl
      have hk : a = k := hb
      exact h (hk ▸ ha)⟩

/-- `d.pop(k, None)`, without the value. -/
def pop (d : Dict K V) (k : K) : Dict K V :=
  ⟨d.items.filter fun e => e.1 ≠ k, d.nodup.sublist (List.filter_sublist.map _)⟩

/-- `len(d)`. -/
def size (d : Dict K V) : ℕ := d.items.length

@[simp] theorem get?_empty (k : K) : (empty : Dict K V).get? k = none := rfl

theorem mem_items {d : Dict K V} {k : K} {v : V} : (k, v) ∈ d.items ↔ d.get? k = some v := by
  obtain ⟨l, hl⟩ := d
  simp only [get?]
  induction l with
  | nil => simp
  | cons e l ih =>
    obtain ⟨hnot, hnd⟩ := List.nodup_cons.1 hl
    by_cases he : e.1 = k
    · rw [List.find?_cons_of_pos (by simpa using he)]
      constructor
      · intro hm
        rcases List.mem_cons.1 hm with rfl | hm
        · rfl
        · exact absurd (List.mem_map.2 ⟨_, hm, he.symm⟩) hnot
      · intro hv
        obtain rfl : e.2 = v := Option.some.inj hv
        exact List.mem_cons.2 (.inl (by rw [← he]))
    · rw [List.find?_cons_of_neg (by simpa using he), ← ih hnd]
      constructor
      · intro hm
        rcases List.mem_cons.1 hm with rfl | hm
        · exact absurd rfl he
        · exact hm
      · exact List.mem_cons_of_mem _

theorem get?_eq_none {d : Dict K V} {k : K} : d.get? k = none ↔ k ∉ d.items.map Prod.fst := by
  constructor
  · intro h hm
    obtain ⟨⟨k', v⟩, he, rfl⟩ := List.mem_map.1 hm
    rw [mem_items.1 he] at h
    cases h
  · intro h
    rw [Option.eq_none_iff_forall_not_mem]
    intro v hv
    exact h (List.mem_map.2 ⟨_, mem_items.2 hv, rfl⟩)

theorem items_eq_nil {d : Dict K V} (h : ∀ k, d.get? k = none) : d.items = [] := by
  refine List.eq_nil_iff_forall_not_mem.2 fun e he => ?_
  have := mem_items.1 he
  rw [h] at this
  cases this

theorem get?_congr {d e : Dict K V} {k : K} (h : ∀ v, (k, v) ∈ d.items ↔ (k, v) ∈ e.items) :
    d.get? k = e.get? k := by
  ext v
  rw [← mem_items, ← mem_items]
  exact h v

@[simp] theorem get?_set_self (d : Dict K V) (k : K) (v : V) : (d.set k v).get? k = some v := by
  rw [← mem_items]
  unfold set
  split
  · rename_i h
    obtain ⟨e, he, hk⟩ := List.mem_map.1 h
    exact List.mem_map.2 ⟨e, he, if_pos hk⟩
  · simp

theorem get?_set_of_ne (d : Dict K V) {k k' : K} (v : V) (h : k' ≠ k) :
    (d.set k v).get? k' = d.get? k' := by
  refine get?_congr fun w => ?_
  unfold set
  split
  · simp only [replace, List.mem_map]
    constructor
    · rintro ⟨e, he, heq⟩
      by_cases hk : e.1 = k
      · rw [if_pos hk] at heq
        exact absurd (congrArg Prod.fst heq).symm h
      · rw [if_neg hk] at heq
        exact heq ▸ he
    · exact fun hm => ⟨_, hm, if_neg h⟩
  · simp [h]

@[simp] theorem get?_pop_self (d : Dict K V) (k : K) : (d.pop k).get? k = none := by
  rw [get?_eq_none]
  simp [pop]

theorem get?_pop_of_ne (d : Dict K V) {k k' : K} (h : k' ≠ k) : (d.pop k).get? k' = d.get? k' := by
  refine get?_congr fun w => ?_
  simp [pop, h]

theorem get?_set (d : Dict K V) (k k' : K) (v : V) :
    (d.set k v).get? k' = if k' = k then some v else d.get? k' := by
  by_cases h : k' = k
  · rw [h, if_pos rfl, get?_set_self]
  · rw [if_neg h, get?_set_of_ne d v h]

theorem get?_pop (d : Dict K V) (k k' : K) :
    (d.pop k).get? k' = if k' = k then none else d.get? k' := by
  by_cases h : k' = k
  · rw [h, if_pos rfl, get?_pop_self]
  · rw [if_neg h, get?_pop_of_ne d h]

theorem has_iff_mem {d : Dict K V} {k : K} : d.has k = true ↔ k ∈ d.items.map Prod.fst := by
  rw [has, Option.isSome_iff_ne_none, ne_eq, get?_eq_none, not_not]

@[simp] theorem has_set_self (d : Dict K V) (k : K) (v : V) : (d.set k v).has k = true := by
  rw [has, get?_set_self]
  rfl

theorem has_set_of_ne (d : Dict K V) {k k' : K} (v : V) (h : k' ≠ k) : (d.set k v).has k' = d.has k' := by
  rw [has, get?_set_of_ne d v h, has]

@[simp] theorem has_pop_self (d : Dict K V) (k : K) : (d.pop k).has k = false := by
  rw [has, get?_pop_self]
  rfl

theorem has_pop_of_ne (d : Dict K V) {k k' : K} (h : k' ≠ k) : (d.pop k).has k' = d.has k' := by
  rw [has, get?_pop_of_ne d h, has]

theorem has_set_of_has {d : Dict K V} {k k' : K} {v : V} (h : d.has k' = true) :
    (d.set k v).has k' = true := by
  by_cases hk : k' = k
  · rw [hk, has_set_self]
  · rwa [has_set_of_ne d v hk]

theorem has_of_set {d : Dict K V} {k j : K} {v : V} (h : (d.set k v).has j = true) :
    j = k ∨ d.has j = true := by
  by_cases hj : j = k
  · exact .inl hj
  · right
    rwa [has, get?_set_of_ne d v hj] at h

theorem has_of_pop {d : Dict K V} {k j : K} (h : (d.pop k).has j = true) :
    d.has j = true ∧ j ≠ k := by
  by_cases hj : j = k
  · rw [hj, has, get?_pop_self] at h
    cases h
  · rw [has, get?_pop_of_ne d hj] at h
    exact ⟨h, hj⟩

end Dict

end DistRes.Lib
