import Mathlib.Data.List.Chain
import Mathlib.Data.List.Nodup
import DistRes.Protocol

/-!
# Surrogate pairs

A Python string may hold a high surrogate in front of a low one.  `json.dumps` escapes them one by one,
and `json.loads` reads the two escapes as one code point: what arrives is `Json.joined`
(`loads_dumpText` in `JsonRoundTrip`).

* `joinPairs_eq_self` and `joined_eq_self` — a value without pairs arrives as it is, and no other does;
* `field?_joined` — a field whose key is ASCII is found where it was.
-/

namespace DistRes

open Lib

/-! ## Strings -/

/-- `chr`. -/
def chr (n : ℕ) : CodePoint := ⟨n % 0x110000, Nat.mod_lt _ (by decide)⟩

theorem val_chr {n : ℕ} (h : n < 0x110000) : (chr n).val = n := Nat.mod_eq_of_lt h

def isHigh (n : ℕ) : Bool := 0xD800 ≤ n && n < 0xDC00

def isLow (n : ℕ) : Bool := 0xDC00 ≤ n && n < 0xE000

/-- The code point that a high and a low surrogate encode. -/
def joinedChar (m n : ℕ) : CodePoint := chr (0x10000 + (m - 0xD800) * 0x400 + (n - 0xDC00))

/-- The code point of a pair is none of a surrogate. -/
theorem joinedChar_val {m n : ℕ} (h : isHigh m = true ∧ isLow n = true) :
    0x10000 ≤ (joinedChar m n).val := by
  simp only [isHigh, isLow, Bool.and_eq_true, decide_eq_true_eq] at h
  rw [joinedChar, val_chr (by omega)]
  omega

/-- No high surrogate stands in front of a low one. -/
def PairFree (s : Text) : Prop := s.IsChain fun a b => ¬(isHigh a.val = true ∧ isLow b.val = true)

instance (s : Text) : Decidable (PairFree s) := by
  unfold PairFree
  infer_instance

/-- A string with its pairs joined. -/
def joinPairs : Text → Text
  | c :: d :: s =>
    if isHigh c.val ∧ isLow d.val then joinedChar c.val d.val :: joinPairs s else c :: joinPairs (d :: s)
  | s => s

theorem joinPairs_of_pairFree {s : Text} (h : PairFree s) : joinPairs s = s := by
  fun_induction joinPairs s with
  | case1 c d s hpair => exact absurd hpair (List.isChain_cons_cons.1 h).1
  | case2 c d s _ ih => rw [ih h.tail]
  | case3 s => rfl

theorem length_joinPairs_le (s : Text) : (joinPairs s).length ≤ s.length := by
  fun_induction joinPairs s with
  | case1 c d s _ ih =>
    simp only [List.length_cons]
    omega
  | case2 c d s _ ih =>
    simp only [List.length_cons] at ih ⊢
    omega
  | case3 s => exact Nat.le_refl _

/-- **Pairs of a string.**  Joining them makes the string shorter. -/
theorem joinPairs_eq_self {s : Text} : joinPairs s = s ↔ PairFree s := by
  refine ⟨fun h => ?_, joinPairs_of_pairFree⟩
  fun_induction joinPairs s with
  | case1 c d s _ ih =>
    have hle := length_joinPairs_le s
    have hlen := congrArg List.length h
    simp only [List.length_cons] at hlen
    omega
  | case2 c d s hpair ih => exact List.isChain_cons_cons.2 ⟨hpair, ih (List.cons.inj h).2⟩
  | case3 s hs =>
    rcases s with _ | ⟨c, _ | ⟨d, s⟩⟩
    · exact .nil
    · exact .singleton c
    · exact absurd rfl (hs c d s)

def isAscii (s : Text) : Bool := s.all fun c => c.val < 0x80

theorem isAscii_cons {c : CodePoint} {s : Text} :
    isAscii (c :: s) = true ↔ c.val < 0x80 ∧ isAscii s = true := by
  simp [isAscii]

/-- An ASCII string is joined from itself only. -/
theorem joinPairs_eq_iff {s t : Text} (ht : isAscii t = true) : joinPairs s = t ↔ s = t := by
  constructor
  · intro h
    fun_induction joinPairs s generalizing t with
    | case1 c d s hpair ih =>
      subst h
      have := (isAscii_cons.1 ht).1
      have := joinedChar_val hpair
      omega
    | case2 c d s hpair ih =>
      subst h
      exact congrArg (List.cons c) (ih (isAscii_cons.1 ht).2 rfl)
    | case3 s => exact h
  · rintro rfl
    refine joinPairs_of_pairFree (List.Pairwise.isChain
      (List.pairwise_of_forall_mem_list fun a ha b _ hpair => ?_))
    have := of_decide_eq_true (List.all_eq_true.1 ht a ha)
    simp only [isHigh, Bool.and_eq_true, decide_eq_true_eq] at hpair
    omega

theorem joinPairs_cons (c : CodePoint) (s : Text) :
    ∃ e t, joinPairs (c :: s) = e :: t ∧ (e = c ∨ 0x10000 ≤ e.val) := by
  cases s with
  | nil => exact ⟨c, [], rfl, .inl rfl⟩
  | cons d s =>
    rw [joinPairs]
    split
    · rename_i hpair
      exact ⟨_, _, rfl, .inr (joinedChar_val hpair)⟩
    · exact ⟨_, _, rfl, .inl rfl⟩

/-- What has been joined has no pairs left. -/
theorem joinPairs_pairFree (s : Text) : PairFree (joinPairs s) := by
  have large : ∀ {c : CodePoint} {s : Text}, 0x10000 ≤ c.val → PairFree s → PairFree (c :: s) := by
    intro c s hc hs
    refine List.isChain_cons.2 ⟨fun d _ hpair => ?_, hs⟩
    simp only [isHigh, Bool.and_eq_true, decide_eq_true_eq] at hpair
    omega
  fun_induction joinPairs s with
  | case1 c d s hpair ih => exact large (joinedChar_val hpair) ih
  | case2 c d s hpair ih =>
    refine List.isChain_cons.2 ⟨fun e he hce => ?_, ih⟩
    obtain ⟨e', t, heq, hor⟩ := joinPairs_cons d s
    rw [heq] at he
    cases he
    rcases hor with rfl | hor
    · exact hpair hce
    · simp only [isLow, Bool.and_eq_true, decide_eq_true_eq] at hce
      omega
  | case3 s hs =>
    rcases s with _ | ⟨c, _ | ⟨d, s⟩⟩
    · exact .nil
    · exact .singleton c
    · exact absurd rfl (hs c d s)

/-- What UTF-8 encodes has no pairs. -/
theorem PairFree.of_encodable {s : Text} (h : encodable s = true) : PairFree s := by
  refine List.Pairwise.isChain (List.pairwise_of_forall_mem_list fun a ha b _ => ?_)
  have := List.all_eq_true.1 h a ha
  simp only [isSurrogate, isHigh, isLow, Bool.not_eq_true', Bool.and_eq_false_iff, Bool.and_eq_true,
    decide_eq_false_iff_not, decide_eq_true_eq] at this ⊢
  omega

/-- Text around a text that has no surrogates itself makes no pair. -/
theorem PairFree.around {s t u : Text} (hs : encodable s = true) (h : PairFree t)
    (hu : encodable u = true) : PairFree (s ++ t ++ u) := by
  have plain : ∀ {v : Text}, encodable v = true → ∀ c ∈ v, isHigh c.val = false ∧ isLow c.val = false := by
    intro v hv c hc
    have := List.all_eq_true.1 hv c hc
    simp only [isSurrogate, isHigh, isLow, Bool.not_eq_true', Bool.and_eq_false_iff,
      decide_eq_false_iff_not] at this ⊢
    omega
  refine List.isChain_append.2 ⟨List.isChain_append.2 ⟨PairFree.of_encodable hs, h,
    fun a ha b _ => ?_⟩, PairFree.of_encodable hu, fun a _ b hb => ?_⟩
  · simp [(plain hs a (List.mem_of_mem_getLast? ha)).1]
  · simp [(plain hu b (List.mem_of_mem_head? hb)).2]

/-! ## Values -/

mutual

/-- What `json.loads` makes of the text of a value: the pairs in its strings are joined, and of keys that
are one then, the last value counts. -/
def Json.joined : Json → Json
  | .str s => .str (joinPairs s)
  | .arr xs => .arr (Json.joinedItems xs)
  | .obj fields => .obj (mergeFields [] (Json.joinedFields fields))
  | x => x

def Json.joinedItems : List Json → List Json
  | [] => []
  | x :: xs => Json.joined x :: Json.joinedItems xs

def Json.joinedFields : List (Text × Json) → List (Text × Json)
  | [] => []
  | (k, x) :: fields => (joinPairs k, Json.joined x) :: Json.joinedFields fields

end

theorem joinedItems_eq_map (xs : List Json) : Json.joinedItems xs = xs.map Json.joined := by
  induction xs with
  | nil => rfl
  | cons x xs ih => rw [Json.joinedItems, ih, List.map_cons]

theorem joinedFields_eq_map (fields : List (Text × Json)) :
    Json.joinedFields fields = fields.map fun e => (joinPairs e.1, e.2.joined) := by
  induction fields with
  | nil => rfl
  | cons e fields ih => rw [Json.joinedFields, ih, List.map_cons]

/-- A dict as it arrives. -/
def joinFields (fields : List (Text × Json)) : List (Text × Json) := mergeFields [] (Json.joinedFields fields)

theorem keys_joinFields (fields : List (Text × Json)) : ((joinFields fields).map Prod.fst).Nodup :=
  (mergeFields_items _).1

/-- The items of a dict that has arrived. -/
theorem mem_joinFields {fields : List (Text × Json)} {e : Text × Json} (he : e ∈ joinFields fields) :
    ∃ f ∈ fields, e = (joinPairs f.1, f.2.joined) := by
  have := (mergeFields_items _).2 e he
  rw [joinedFields_eq_map] at this
  obtain ⟨f, hf, rfl⟩ := List.mem_map.1 this
  exact ⟨f, hf, rfl⟩

/-- A dict arrives as it is if its keys and its values do. -/
theorem joinFields_eq_self {fields : List (Text × Json)} (hnd : (fields.map Prod.fst).Nodup)
    (h : ∀ e ∈ fields, PairFree e.1 ∧ e.2.joined = e.2) : joinFields fields = fields := by
  have hmap : Json.joinedFields fields = fields := by
    rw [joinedFields_eq_map]
    refine (List.map_congr_left fun e he => ?_).trans (List.map_id fields)
    exact Prod.ext (joinPairs_of_pairFree (h e he).1) (h e he).2
  rw [joinFields, hmap]
  exact mergeFields_of_nodup (by simpa using hnd)

/-- What has arrived arrives again as it is. -/
theorem joined_joined (x : Json) : x.joined.joined = x.joined := by
  induction x using Json.rec_parts with
  | null | bool | int | float => rfl
  | str s => simp only [Json.joined, joinPairs_of_pairFree (joinPairs_pairFree s)]
  | arr xs ih =>
    simp only [Json.joined, joinedItems_eq_map, List.map_map, Json.arr.injEq]
    exact List.map_congr_left ih
  | obj fields ih =>
    have hself : joinFields (joinFields fields) = joinFields fields := by
      refine joinFields_eq_self (keys_joinFields fields) fun e he => ?_
      obtain ⟨f, hf, rfl⟩ := mem_joinFields he
      exact ⟨joinPairs_pairFree f.1, ih f hf⟩
    exact congrArg Json.obj hself

/-- **A field of a message that has arrived**, under an ASCII key. -/
theorem field?_joined {fields : List (Text × Json)} (hnd : (fields.map Prod.fst).Nodup) {key : Text}
    (hkey : isAscii key = true) :
    field? (joinFields fields) key = (field? fields key).map Json.joined := by
  have hlast : field? (joinFields fields) key = field? (Json.joinedFields fields).reverse key := by
    rw [joinFields, field?_mergeFields_reverse]
    exact Option.or_none
  have hfirst : field? fields.reverse key = field? fields key := by
    have := field?_mergeFields_reverse [] fields key
    rw [mergeFields_of_nodup (by simpa using hnd), List.nil_append] at this
    exact (this.trans Option.or_none).symm
  rw [hlast, ← hfirst, joinedFields_eq_map, ← List.map_reverse]
  have hmap : ∀ es : List (Text × Json), field? (es.map fun e => (joinPairs e.1, e.2.joined)) key =
      (field? es key).map Json.joined := by
    intro es
    have hiff : ∀ e : Text × Json, (joinPairs e.1 = key) = (e.1 = key) :=
      fun e => propext (joinPairs_eq_iff hkey)
    simp only [field?, List.find?_map, Function.comp_def, hiff, Option.map_map]
  exact hmap fields.reverse

end DistRes
