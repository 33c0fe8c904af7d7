import Mathlib.Algebra.Group.Nat.Defs
import DistRes.JsonGrammar

/-!
# Round trips of JSON values

What comes back when a value is dumped and loaded again.

* `loads_dumpText` — it is the value with its surrogate pairs joined;
* `loads_dumps_iff` — so that it is the value itself exactly if no string in it has such a pair;
* `loaded_sends_on` — what is loaded from UTF-8 has none: if `dumps` takes it, it comes back.
-/

namespace DistRes

open Lib

/-! ## Values -/

section Interpreter

variable (I : Interpreter)

/-- `float` of the `repr` gives the float; the special floats have no numeral. -/
def Interpreter.holdsFloat (repr : Text) (int? : Option ℤ) : Bool :=
  (int? = none && (repr = lit "nan" || repr = lit "inf" || repr = lit "-inf")) ||
    match scanNumeral repr with
    | some (n, []) => n.isFloat && I.float repr = (repr, int?)
    | _ => false

/-- What Python documents of `float`: `float(repr(x)) == x`. -/
def Interpreter.ReprExact : Prop :=
  ∀ n : Numeral, n.Valid → n.isFloat = true → I.holdsFloat (I.float n.text).1 (I.float n.text).2 = true

/-- A value of Python: its floats are floats, and no dict has a key twice. -/
def Json.genuine : Json → Bool :=
  Json.all fun
    | .float r i => I.holdsFloat r i
    | .obj fields => decide (fields.map Prod.fst).Nodup
    | _ => true

/-- A value of Python whose integers the interpreter converts. -/
def Json.held (x : Json) : Bool := x.genuine I && x.short I

/-- No string of the value has a surrogate pair. -/
def Json.pairFree : Json → Bool :=
  Json.all fun
    | .str s => PairFree s
    | .obj fields => fields.all fun e => PairFree e.1
    | _ => true

/-- A value that comes back from `loads` as it is. -/
def Json.sendable (x : Json) : Bool := x.held I && x.pairFree && x.depth ≤ I.maxDepth

end Interpreter

/-! ### The parts of a value -/

theorem allItems_iff {p : Json → Bool} {xs : List Json} :
    Json.allItems p xs = true ↔ ∀ x ∈ xs, Json.all p x = true := by
  induction xs with
  | nil => simp [Json.allItems]
  | cons x xs ih => simp [Json.allItems, ih]

theorem allFields_iff {p : Json → Bool} {fields : List (Text × Json)} :
    Json.allFields p fields = true ↔ ∀ e ∈ fields, Json.all p e.2 = true := by
  induction fields with
  | nil => simp [Json.allFields]
  | cons e fields ih =>
    obtain ⟨k, x⟩ := e
    simp only [Json.allFields, Bool.and_eq_true, ih, List.forall_mem_cons]

section Parts

variable {I : Interpreter} {xs : List Json} {fields : List (Text × Json)}

theorem genuine_arr : (Json.arr xs).genuine I = true ↔ ∀ x ∈ xs, x.genuine I = true := by
  simp only [Json.genuine, Json.all, Bool.true_and]
  exact allItems_iff

theorem genuine_obj : (Json.obj fields).genuine I = true ↔
    (fields.map Prod.fst).Nodup ∧ ∀ e ∈ fields, e.2.genuine I = true := by
  simp only [Json.genuine, Json.all, Bool.and_eq_true, decide_eq_true_eq, allFields_iff]

theorem short_arr : (Json.arr xs).short I = true ↔ ∀ x ∈ xs, x.short I = true := by
  simp only [Json.short, Json.all, Bool.true_and]
  exact allItems_iff

theorem short_obj : (Json.obj fields).short I = true ↔ ∀ e ∈ fields, e.2.short I = true := by
  simp only [Json.short, Json.all, Bool.true_and]
  exact allFields_iff

theorem held_arr : (Json.arr xs).held I = true ↔ ∀ x ∈ xs, x.held I = true := by
  simp only [Json.held, Bool.and_eq_true, genuine_arr, short_arr, forall_and]

theorem held_obj : (Json.obj fields).held I = true ↔
    (fields.map Prod.fst).Nodup ∧ ∀ e ∈ fields, e.2.held I = true := by
  simp only [Json.held, Bool.and_eq_true, genuine_obj, short_obj, forall_and, and_assoc]

theorem pairFree_arr : (Json.arr xs).pairFree = true ↔ ∀ x ∈ xs, x.pairFree = true := by
  simp only [Json.pairFree, Json.all, Bool.true_and]
  exact allItems_iff

theorem pairFree_obj : (Json.obj fields).pairFree = true ↔
    (∀ e ∈ fields, PairFree e.1) ∧ ∀ e ∈ fields, e.2.pairFree = true := by
  simp only [Json.pairFree, Json.all, Bool.and_eq_true, allFields_iff, List.all_eq_true,
    decide_eq_true_eq]

end Parts

/-- What has arrived has no pairs. -/
theorem joined_pairFree (x : Json) : x.joined.pairFree = true := by
  induction x using Json.rec_parts with
  | null | bool | int | float => rfl
  | str s => exact decide_eq_true (joinPairs_pairFree s)
  | arr xs ih =>
    rw [Json.joined, pairFree_arr, joinedItems_eq_map]
    intro y hy
    obtain ⟨x, hx, rfl⟩ := List.mem_map.1 hy
    exact ih x hx
  | obj fields ih =>
    refine pairFree_obj.2 ⟨fun e he => ?_, fun e he => ?_⟩ <;> obtain ⟨f, hf, rfl⟩ := mem_joinFields he
    · exact joinPairs_pairFree f.1
    · exact ih f hf

/-- **Pairs of a value.**  It arrives as it is if it has none. -/
theorem joined_eq_self {I : Interpreter} {x : Json} (hx : x.genuine I = true) :
    x.joined = x ↔ x.pairFree = true := by
  refine ⟨fun h => h ▸ joined_pairFree x, fun h => ?_⟩
  induction x using Json.rec_parts with
  | null | bool | int | float => rfl
  | str s => exact congrArg Json.str (joinPairs_of_pairFree (of_decide_eq_true h))
  | arr xs ih =>
    rw [genuine_arr] at hx
    rw [pairFree_arr] at h
    rw [Json.joined, joinedItems_eq_map]
    exact congrArg Json.arr ((List.map_congr_left fun x hm => ih x hm (hx x hm) (h x hm)).trans (List.map_id xs))
  | obj fields ih =>
    rw [genuine_obj] at hx
    rw [pairFree_obj] at h
    exact congrArg Json.obj (joinFields_eq_self hx.1 fun e he =>
      ⟨h.1 e he, ih e he (hx.2 e he) (h.2 e he)⟩)

/-! ## Strings -/

/-- What a dumped code point is read as. -/
def piecesOf (c : CodePoint) : List StringPiece :=
  if c.val < 0x10000 then
    if (shortEscapes.any fun e => e.2 = c.val) || (0x20 ≤ c.val && c.val ≤ 0x7E) then [.plain c]
    else [.unit c.val]
  else [.unit (0xD800 + (c.val - 0x10000) / 0x400), .unit (0xDC00 + (c.val - 0x10000) % 0x400)]

theorem hexValue_hexDigit {n : ℕ} (h : n < 16) : hexValue (hexDigit n) = some n := by
  have hall : ∀ n : Fin 16, hexValue (hexDigit n.val) = some n.val := by decide
  exact hall ⟨n, h⟩

theorem unitText {n : ℕ} (h : n < 0x10000) : PieceText (unitEscape n) (.unit n) := by
  have := PieceText.unit (hexValue_hexDigit (n := n / 0x1000) (by omega))
    (hexValue_hexDigit (n := n / 0x100 % 0x10) (by omega))
    (hexValue_hexDigit (n := n / 0x10 % 0x10) (by omega)) (hexValue_hexDigit (n := n % 0x10) (by omega))
  have hn : 0x1000 * (n / 0x1000) + 0x100 * (n / 0x100 % 0x10) + 0x10 * (n / 0x10 % 0x10) + n % 0x10 = n := by
    omega
  rwa [hn] at this

theorem escapeChar_text (c : CodePoint) : Concat PieceText (escapeChar c) (piecesOf c) := by
  have one : ∀ {t : Text} {x : StringPiece}, PieceText t x → Concat PieceText t [x] := fun {t x} h => by
    have := Concat.cons h .nil
    rwa [List.append_nil] at this
  have hc := c.isLt
  unfold escapeChar
  split
  · rename_i hslash
    have hp : piecesOf c = [.plain c] := by simp [piecesOf, hslash]
    rw [hp]
    refine one (.plain ?_ ?_ (by omega))
    · rintro rfl
      exact absurd hslash (by decide)
    · rintro rfl
      exact absurd hslash (by decide)
  · split
    · rename_i e hfind
      obtain ⟨e, n⟩ := e
      have hmem := List.mem_of_find?_eq_some hfind
      obtain rfl : n = c.val := by simpa using List.find?_some hfind
      have hlt : ∀ x ∈ shortEscapes, x.2 < 0x10000 := by decide
      have hp : piecesOf c = [.plain c] := by
        have hany : (shortEscapes.any fun e => e.2 = c.val) = true :=
          List.any_eq_true.2 ⟨_, hmem, by simp⟩
        simp only [piecesOf, if_pos (hlt _ hmem), hany, Bool.true_or, if_true]
      rw [hp]
      have := PieceText.escape hmem
      rw [chr_val] at this
      exact one this
    · rename_i hfind
      have hany : (shortEscapes.any fun e => e.2 = c.val) = false := by
        rw [Bool.eq_false_iff]
        intro h
        obtain ⟨e, he, heq⟩ := List.any_eq_true.1 h
        exact absurd heq (by simpa using List.find?_eq_none.1 hfind e he)
      split
      · rename_i h20
        have hp : piecesOf c = [.plain c] := by
          simp [piecesOf, h20, show c.val < 0x10000 by omega]
        rw [hp]
        refine one (.plain ?_ ?_ h20.1)
        · rintro rfl
          exact absurd hany (by decide)
        · rintro rfl
          exact absurd hany (by decide)
      · rename_i h20
        split
        · rename_i hlt
          have hp : piecesOf c = [.unit c.val] := by
            simp only [piecesOf, if_pos hlt, hany, Bool.false_or, Bool.and_eq_true, decide_eq_true_eq,
              if_neg h20]
          rw [hp]
          exact one (unitText hlt)
        · rename_i hlt
          rw [piecesOf, if_neg hlt]
          exact (one (unitText (by omega))).append (one (unitText (by omega)))

theorem joinPieces_plain (c : CodePoint) (ps : List StringPiece) :
    joinPieces (.plain c :: ps) = c :: joinPieces ps := by
  rw [joinPieces]

/-- A piece that is not an escaped low surrogate. -/
def StringPiece.notLow : StringPiece → Bool
  | .plain _ => true
  | .unit n => !isLow n

theorem joinPieces_unit {m : ℕ} {ps : List StringPiece}
    (h : isHigh m = true → ∀ x ∈ ps.head?, x.notLow = true) :
    joinPieces (.unit m :: ps) = chr m :: joinPieces ps := by
  rcases ps with _ | ⟨x | n, ps⟩
  · simp [joinPieces]
  · simp [joinPieces]
  · rw [joinPieces, if_neg]
    rintro ⟨hm, hn⟩
    have := h hm _ rfl
    simp [StringPiece.notLow, hn] at this

theorem piecesOf_head (c : CodePoint) (h : isLow c.val = false) (ps : List StringPiece) :
    ∀ x ∈ (piecesOf c ++ ps).head?, x.notLow = true := by
  unfold piecesOf
  split
  · split
    · simp [StringPiece.notLow]
    · simp [StringPiece.notLow, h]
  · have hc := c.isLt
    simp only [List.cons_append, List.head?_cons, Option.mem_some_iff, forall_eq', StringPiece.notLow,
      isLow, Bool.not_eq_true', Bool.and_eq_false_iff, decide_eq_false_iff_not]
    omega

theorem piecesOf_cases (c : CodePoint) : piecesOf c = [.plain c] ∨ piecesOf c = [.unit c.val] ∨
    0x10000 ≤ c.val ∧ piecesOf c =
      [.unit (0xD800 + (c.val - 0x10000) / 0x400), .unit (0xDC00 + (c.val - 0x10000) % 0x400)] := by
  unfold piecesOf
  split
  · split
    · exact .inl rfl
    · exact .inr (.inl rfl)
  · rename_i hc
    exact .inr (.inr ⟨Nat.not_lt.1 hc, rfl⟩)

theorem joinPieces_char (c : CodePoint) {ps : List StringPiece}
    (hnext : isHigh c.val = true → ∀ x ∈ ps.head?, x.notLow = true) :
    joinPieces (piecesOf c ++ ps) = c :: joinPieces ps := by
  have hlt := c.isLt
  rcases piecesOf_cases c with h | h | ⟨hc, h⟩ <;> rw [h]
  · rw [List.singleton_append, joinPieces_plain]
  · rw [List.singleton_append, joinPieces_unit hnext, chr_val]
  · have hpair : isHigh (0xD800 + (c.val - 0x10000) / 0x400) = true ∧
        isLow (0xDC00 + (c.val - 0x10000) % 0x400) = true := by
      simp only [isHigh, isLow, Bool.and_eq_true, decide_eq_true_eq]
      omega
    have hval : 0x10000 + (0xD800 + (c.val - 0x10000) / 0x400 - 0xD800) * 0x400 +
        (0xDC00 + (c.val - 0x10000) % 0x400 - 0xDC00) = c.val := by
      omega
    rw [List.cons_append, List.singleton_append, joinPieces, if_pos hpair, joinedChar, hval, chr_val]

/-- A surrogate is escaped as one unit. -/
theorem piecesOf_surrogate {c : CodePoint} (h : isHigh c.val = true ∨ isLow c.val = true) :
    piecesOf c = [.unit c.val] := by
  have hall : ∀ e ∈ shortEscapes, e.2 < 0xD800 := by decide
  have hc : 0xD800 ≤ c.val ∧ c.val < 0xE000 := by
    simp only [isHigh, isLow, Bool.and_eq_true, decide_eq_true_eq] at h
    omega
  rw [piecesOf, if_pos (by omega), if_neg]
  simp only [Bool.or_eq_true, List.any_eq_true, Bool.and_eq_true, decide_eq_true_eq, not_or]
  refine ⟨?_, by omega⟩
  rintro ⟨e, he, heq⟩
  have := hall e he
  omega

theorem joinPieces_piecesOf (s : Text) : joinPieces (s.flatMap piecesOf) = joinPairs s := by
  fun_induction joinPairs s with
  | case1 c d s hpair ih =>
    rw [List.flatMap_cons, List.flatMap_cons, piecesOf_surrogate (.inl hpair.1),
      piecesOf_surrogate (.inr hpair.2), List.singleton_append, List.singleton_append, joinPieces,
      if_pos hpair, ih]
  | case2 c d s hpair ih =>
    rw [List.flatMap_cons, joinPieces_char c fun hc => ?_, ih]
    rw [List.flatMap_cons]
    exact piecesOf_head d (Bool.eq_false_iff.2 fun hd => hpair ⟨hc, hd⟩) _
  | case3 s hs =>
    rcases s with _ | ⟨c, _ | ⟨d, s⟩⟩
    · rfl
    · rw [List.flatMap_cons, List.flatMap_nil]
      refine joinPieces_char c fun _ x hx => ?_
      cases hx
    · exact absurd rfl (hs c d s)

theorem dumpString_text (s : Text) : StringText (s.flatMap escapeChar ++ [quote]) (joinPairs s) := by
  refine ⟨_, s.flatMap piecesOf, rfl, ?_, (joinPieces_piecesOf s).symm⟩
  induction s with
  | nil => exact .nil
  | cons c s ih =>
    rw [List.flatMap_cons, List.flatMap_cons]
    exact (escapeChar_text c).append ih

/-! ## Numbers -/

def intNumeral (n : ℤ) : Numeral where
  sign := if n < 0 then [minus] else []
  int := (Nat.toDigits 10 n.natAbs).map codePoint

theorem intNumeral_text (n : ℤ) : (intNumeral n).text = lit (toString n) := by
  have hlit : lit (toString n) = (Int.repr n).toList.map codePoint := rfl
  rw [hlit]
  cases n with
  | ofNat m =>
    have hneg : ¬(Int.ofNat m < 0) := by simp
    simp [Numeral.text, intNumeral, Int.repr]
  | negSucc m =>
    simp [Numeral.text, intNumeral, Int.repr, codePoint, minus]

theorem digit_of_toDigits {n : ℕ} {c : CodePoint} (h : c ∈ (Nat.toDigits 10 n).map codePoint) :
    isDigit c = true := by
  obtain ⟨d, hd, rfl⟩ := List.mem_map.1 h
  have := Nat.isDigit_of_mem_toDigits (by decide) (by decide) hd
  simp only [Char.isDigit, Bool.and_eq_true, decide_eq_true_eq, UInt32.le_iff_toNat_le] at this
  simp only [isDigit, codePoint, Bool.and_eq_true, Char.toNat]
  exact ⟨decide_eq_true this.1, decide_eq_true this.2⟩

theorem toDigits_head {n : ℕ} (h : 0 < n) : ∃ c l, Nat.toDigits 10 n = c :: l ∧ c.toNat ≠ 0x30 := by
  induction n using Nat.base_induction 10 (by decide) with
  | single m hm =>
    refine ⟨m.digitChar, [], Nat.toDigits_of_lt_base hm, ?_⟩
    have hall : ∀ m : Fin 10, 0 < m.val → m.val.digitChar.toNat ≠ 0x30 := by decide
    exact hall ⟨m, hm⟩ h
  | digit m k hk hm ih =>
    obtain ⟨c, l, heq, hc⟩ := ih hm
    refine ⟨c, l ++ Nat.toDigits 10 k, ?_, hc⟩
    rw [← Nat.toDigits_append_toDigits (by decide) hm hk, heq]
    rfl

theorem intNumeral_valid (n : ℤ) : (intNumeral n).Valid where
  sign := by
    unfold intNumeral
    split <;> simp
  int := by
    rcases Nat.eq_zero_or_pos n.natAbs with h | h
    · left
      simp [intNumeral, h, codePoint, chr]
    · obtain ⟨c, l, heq, hc⟩ := toDigits_head h
      refine .inr ⟨codePoint c, l.map codePoint, by simp [intNumeral, heq], hc, by simp [intNumeral], ?_⟩
      exact fun d hd => digit_of_toDigits hd
  frac := .inl rfl
  exp := .inl rfl

theorem digitsValue_toDigits (n : ℕ) : digitsValue ((Nat.toDigits 10 n).map codePoint) = n := by
  have h : ∀ (l : List Char) (k : ℕ), (l.map codePoint).foldl (fun n c => 10 * n + (c.val - 0x30)) k =
      Nat.ofDigitChars 10 l k := by
    intro l
    induction l with
    | nil => exact fun k => rfl
    | cons c l ih =>
      intro k
      rw [List.map_cons, List.foldl_cons, ih, Nat.ofDigitChars_cons]
      rfl
  rw [digitsValue, h, Nat.ofDigitChars_ten_toDigits]

theorem digitsValue_lt (ds : Text) (hds : ∀ c ∈ ds, isDigit c = true) : digitsValue ds < 10 ^ ds.length := by
  have h : ∀ (l : Text) (k : ℕ), (∀ c ∈ l, isDigit c = true) →
      l.foldl (fun n c => 10 * n + (c.val - 0x30)) k < 10 ^ l.length * (k + 1) := by
    intro l
    induction l with
    | nil =>
      intro k _
      rw [List.foldl_nil, List.length_nil, Nat.pow_zero, Nat.one_mul]
      exact Nat.lt_succ_self k
    | cons c l ih =>
      intro k hl
      have hc := hl c List.mem_cons_self
      simp only [isDigit, Bool.and_eq_true, decide_eq_true_eq] at hc
      rw [List.foldl_cons, List.length_cons, Nat.pow_succ, Nat.mul_assoc]
      refine Nat.lt_of_lt_of_le (ih _ fun d hd => hl d (List.mem_cons_of_mem _ hd)) ?_
      exact Nat.mul_le_mul_left _ (by omega)
  have hzero := h ds 0 hds
  rw [Nat.zero_add, Nat.mul_one] at hzero
  exact hzero

section Value

variable {I : Interpreter}

theorem intNumeral_value {n : ℤ} (h : (Nat.toDigits 10 n.natAbs).length ≤ I.maxDigits) :
    (intNumeral n).value I = some (.int n) := by
  have hlen : (intNumeral n).int.length ≤ I.maxDigits := by simpa [intNumeral] using h
  have hval : digitsValue (intNumeral n).int = n.natAbs := digitsValue_toDigits _
  rw [Numeral.value, if_neg (by simp [Numeral.isFloat, intNumeral]), if_pos hlen, hval]
  by_cases hn : n < 0
  · simp only [intNumeral, if_pos hn, reduceCtorEq, if_false]
    congr 2
    omega
  · simp only [intNumeral, if_neg hn, if_true]
    congr 2
    omega

/-- The integer of a numeral has no more digits than the numeral. -/
theorem value_held (hI : I.ReprExact) {n : Numeral} (hn : n.Valid) {x : Json} (hx : n.value I = some x) :
    x.held I = true ∧ x.pairFree = true ∧ x.depth = 0 := by
  unfold Numeral.value at hx
  split at hx
  · rename_i hf
    cases hx
    have hfloat := hI n hn hf
    exact ⟨by simp [Json.held, Json.genuine, Json.short, Json.all, hfloat], rfl, rfl⟩
  · split at hx
    · rename_i hlen
      cases hx
      refine ⟨?_, rfl, rfl⟩
      have hds : ∀ c ∈ n.int, isDigit c = true := by
        rcases hn.int with h | ⟨c, ds, h, -, -, hds⟩
        · rw [h]
          exact List.forall_mem_singleton.2 rfl
        · exact hds
      have hpos : 0 < n.int.length := by
        rcases hn.int with h | ⟨c, ds, h, -⟩ <;> rw [h] <;> simp
      have hlt : (Nat.toDigits 10 (digitsValue n.int)).length ≤ n.int.length :=
        (Nat.length_toDigits_le_iff (by decide) hpos).2 (digitsValue_lt _ hds)
      have habs : ∀ k : ℕ, (if n.sign = [] then (k : ℤ) else -(k : ℤ)).natAbs = k := fun k => by
        split
        · exact Int.natAbs_natCast k
        · rw [Int.natAbs_neg, Int.natAbs_natCast]
      simp only [Json.held, Json.genuine, Json.short, Json.all, Bool.true_and, decide_eq_true_eq, habs]
      exact hlt.trans hlen
    · cases hx

/-! ## Values that come back -/

theorem dumpFloat_text {r : Text} {i : Option ℤ} (h : I.holdsFloat r i = true) :
    Scalar I (dumpFloat r) (.float r i) := by
  by_cases hr : r ∈ [lit "nan", lit "inf", lit "-inf"]
  · have hspecial : ∀ r ∈ [lit "nan", lit "inf", lit "-inf"], (scanNumeral r).isNone = true := by decide
    have hi : i = none := by
      have hnone := Option.isNone_iff_eq_none.1 (hspecial r hr)
      simp only [Interpreter.holdsFloat, hnone, Bool.or_false, Bool.and_eq_true, decide_eq_true_eq] at h
      exact h.1
    subst hi
    simp only [List.mem_cons, List.not_mem_nil, or_false] at hr
    rcases hr with rfl | rfl | rfl
    · exact .word (by simp [jsonWords, dumpFloat])
    · exact .word (by simp [jsonWords, dumpFloat]; decide)
    · exact .word (by simp [jsonWords, dumpFloat]; decide)
  · simp only [List.mem_cons, List.not_mem_nil, or_false, not_or] at hr
    obtain ⟨h1, h2, h3⟩ := hr
    have hd : dumpFloat r = r := by
      rw [dumpFloat, if_neg h1, if_neg h2, if_neg h3]
    rw [hd]
    simp only [Interpreter.holdsFloat, h1, h2, h3, decide_false, Bool.or_false, Bool.and_false,
      Bool.false_or] at h
    split at h
    · rename_i n hn
      obtain ⟨t, hr, rfl, hvalid⟩ := scans_numeral.sound _ _ _ hn
      rw [List.append_nil] at hr
      simp only [Bool.and_eq_true, decide_eq_true_eq] at h
      rw [hr]
      refine .number hvalid ?_
      rw [Numeral.value, if_pos h.1, ← hr, h.2]
    · cases h

theorem dumpItems_eq (xs : List Json) : dumpItems xs = (lit ", ").intercalate (xs.map dumpText) := by
  induction xs with
  | nil => rfl
  | cons x xs ih =>
    cases xs with
    | nil => rw [dumpItems, List.map_singleton, List.intercalate_singleton]
    | cons y xs =>
      rw [dumpItems, ih, List.map_cons, List.map_cons, List.map_cons, List.intercalate_cons_cons]
      exact List.cons_ne_nil _ _

/-- The text of a key and its value. -/
def dumpMember (e : Text × Json) : Text := dumpString e.1 ++ lit ": " ++ dumpText e.2

theorem dumpFields_eq (fields : List (Text × Json)) :
    dumpFields fields = (lit ", ").intercalate (fields.map dumpMember) := by
  induction fields with
  | nil => rfl
  | cons e fields ih =>
    obtain ⟨k, x⟩ := e
    have hmember : dumpMember (k, x) = dumpString k ++ lit ": " ++ dumpText x := rfl
    cases fields with
    | nil => rw [dumpFields, List.map_singleton, List.intercalate_singleton, hmember]
    | cons e fields =>
      rw [dumpFields, ih, List.map_cons, List.map_cons, List.map_cons, List.intercalate_cons_cons, hmember]
      exact List.cons_ne_nil _ _

theorem dumpMember_text {R : Text → Json → Prop} {e : Text × Json} (h : R (dumpText e.2) e.2.joined) :
    MemberText R (dumpMember e) (joinPairs e.1, e.2.joined) := by
  have hspace : Blanks [chr 0x20] := List.forall_mem_singleton.2 rfl
  have := MemberText.mk (w := []) (dumpString_text e.1) (List.forall_mem_nil _) hspace h
  simpa [dumpMember, dumpString, lit, colon, chr] using this

/-- **A dumped value.**  Its text is one of the grammar, for the value with its pairs joined. -/
theorem dumpText_text (x : Json) : ∀ d, x.held I = true → x.depth ≤ d →
    ValueText I d (dumpText x) x.joined := by
  have scalar : ∀ {t x} d, Scalar I t x → ValueText I d t x := fun d h => by
    cases d with
    | zero => exact h
    | succ d => exact .scalar h
  have hspace : ∀ c ∈ [chr 0x20], isBlank c = true := List.forall_mem_singleton.2 rfl
  induction x using Json.rec_parts with
  | null => exact fun d _ _ => scalar d (.word (by simp [jsonWords, dumpText, Json.joined]))
  | bool b => exact fun d _ _ => scalar d (.word (by cases b <;> simp [jsonWords, dumpText, Json.joined]))
  | int n =>
    intro d hheld _
    have hshort := ((Bool.and_eq_true _ _).mp hheld).2
    have := Scalar.number (intNumeral_valid n) (intNumeral_value (of_decide_eq_true hshort))
    rw [intNumeral_text] at this
    rw [dumpText]
    exact scalar d this
  | float r i =>
    intro d hheld _
    rw [dumpText]
    exact scalar d (dumpFloat_text ((Bool.and_eq_true _ _).mp hheld).1)
  | str s =>
    intro d _ _
    rw [dumpText]
    exact scalar d (.string (dumpString_text s))
  | arr xs ih =>
    intro d hheld hdepth
    obtain _ | d := d
    · simp [Json.depth] at hdepth
    · rw [held_arr] at hheld
      rw [depth_arr] at hdepth
      rw [dumpText, dumpItems_eq, Json.joined, joinedItems_eq_map]
      exact .array (block_intercalate (b := arrayBrackets) hspace fun x hx =>
        ih x hx d (hheld x hx) (hdepth x hx))
  | obj fields ih =>
    intro d hheld hdepth
    obtain _ | d := d
    · simp [Json.depth] at hdepth
    · rw [held_obj] at hheld
      rw [depth_obj] at hdepth
      have hblock : Block objectBrackets (MemberText (ValueText I d)) (dumpFields fields ++ [closeBrace])
          (Json.joinedFields fields) := by
        rw [dumpFields_eq, joinedFields_eq_map]
        exact block_intercalate (b := objectBrackets) hspace fun e he =>
          dumpMember_text (ih e he d (hheld.2 e he) (hdepth e he))
      rw [dumpText, Json.joined]
      exact Nested.object (I := I) hblock

theorem dumps_eq_some {x : Json} {t : Text} :
    dumps I x = some t ↔ x.depth ≤ I.dumpDepth ∧ x.short I = true ∧ t = dumpText x := by
  rw [dumps, Option.ite_none_right_eq_some, Option.some.injEq, and_assoc, within_iff, eq_comm (a := dumpText x)]

/-- **What arrives** of a value is the value with its pairs joined. -/
theorem loads_dumpText {x : Json} (hx : x.held I = true) (hd : x.depth ≤ I.maxDepth) :
    loads I (dumpText x) = some x.joined :=
  (loads_exact I _ _).2 ⟨[], dumpText x, [], by simp, nofun, nofun, dumpText_text x _ hx hd⟩

/-- A value without pairs comes back as it is. -/
theorem loads_sendable {x : Json} (h : x.sendable I = true) : loads I (dumpText x) = some x := by
  simp only [Json.sendable, Json.held, Bool.and_eq_true, decide_eq_true_eq] at h
  obtain ⟨⟨⟨hgen, hshort⟩, hfree⟩, hdepth⟩ := h
  rw [loads_dumpText (by simp [Json.held, hgen, hshort]) hdepth, (joined_eq_self hgen).2 hfree]

/-! ## What is loaded -/

/-- A piece as it comes from a text without surrogates. -/
def StringPiece.clean : StringPiece → Prop
  | .plain c => isSurrogate c = false
  | .unit n => n < 0x10000

theorem joinPieces_head {ps : List StringPiece} (hps : ∀ x ∈ ps, x.clean)
    (hlow : ∀ x ∈ ps.head?, x.notLow = true) : ∀ c ∈ (joinPieces ps).head?, isLow c.val = false := by
  intro c hc
  have hunit : ∀ n, StringPiece.unit n ∈ ps → (StringPiece.unit n).notLow = true →
      isLow (chr n).val = false := by
    intro n hn h
    rw [val_chr (Nat.lt_trans (hps _ hn) (by decide))]
    simpa [StringPiece.notLow] using h
  fun_cases joinPieces ps with
  | case1 => cases hc
  | case2 d ps =>
    have hd : isSurrogate d = false := hps _ List.mem_cons_self
    rw [joinPieces_plain] at hc
    cases hc
    simp only [isSurrogate, Bool.and_eq_false_iff, decide_eq_false_iff_not] at hd
    simp only [isLow, Bool.and_eq_false_iff, decide_eq_false_iff_not]
    omega
  | case3 m n ps h =>
    rw [joinPieces, if_pos h, List.head?_cons, Option.mem_some_iff] at hc
    rw [← hc]
    have := joinedChar_val h
    simp only [isLow, Bool.and_eq_false_iff, decide_eq_false_iff_not]
    omega
  | case4 m n ps h =>
    rw [joinPieces, if_neg h] at hc
    cases hc
    exact hunit m List.mem_cons_self (hlow _ rfl)
  | case5 m ps h =>
    rw [joinPieces.eq_4 m ps h] at hc
    cases hc
    exact hunit m List.mem_cons_self (hlow _ rfl)

/-- **Loaded strings.**  Pieces of a text without surrogates make no surrogate pair. -/
theorem joinPieces_pairFree {ps : List StringPiece} (hps : ∀ x ∈ ps, x.clean) : PairFree (joinPieces ps) := by
  have cons : ∀ {c : CodePoint} {s : Text}, (isHigh c.val = true → ∀ d ∈ s.head?, isLow d.val = false) →
      PairFree s → PairFree (c :: s) := by
    intro c s hc hs
    refine List.isChain_cons.2 ⟨fun d hd => ?_, hs⟩
    rintro ⟨h1, h2⟩
    rw [hc h1 d hd] at h2
    cases h2
  fun_induction joinPieces ps with
  | case1 => exact .nil
  | case2 c ps ih =>
    have hc : isSurrogate c = false := hps _ List.mem_cons_self
    refine cons (fun h => ?_) (ih fun x hx => hps x (List.mem_cons_of_mem _ hx))
    simp only [isSurrogate, isHigh, Bool.and_eq_false_iff, Bool.and_eq_true, decide_eq_false_iff_not,
      decide_eq_true_eq] at hc h
    omega
  | case3 m n ps h ih =>
    refine cons (fun hh => ?_)
      (ih fun x hx => hps x (List.mem_cons_of_mem _ (List.mem_cons_of_mem _ hx)))
    have := joinedChar_val h
    simp only [isHigh, Bool.and_eq_true, decide_eq_true_eq] at hh
    omega
  | case4 m n ps h ih =>
    have hrest : ∀ x ∈ StringPiece.unit n :: ps, x.clean := fun x hx => hps x (List.mem_cons_of_mem _ hx)
    have hm : m < 0x10000 := hps _ List.mem_cons_self
    refine cons (fun hh => joinPieces_head hrest ?_) (ih hrest)
    rw [val_chr (by omega)] at hh
    rintro x hx
    cases hx
    simpa [StringPiece.notLow, hh] using h
  | case5 m ps h ih =>
    have hrest : ∀ x ∈ ps, x.clean := fun x hx => hps x (List.mem_cons_of_mem _ hx)
    refine cons (fun _ => joinPieces_head hrest ?_) (ih hrest)
    rintro x hx
    cases x with
    | plain c => rfl
    | unit n =>
      obtain ⟨ps', rfl⟩ := List.head?_eq_some_iff.1 hx
      exact absurd rfl (h n ps')

theorem hexValue_lt {c : CodePoint} {n : ℕ} (h : hexValue c = some n) : n < 16 := by
  unfold hexValue at h
  simp only [isDigit, Bool.and_eq_true, decide_eq_true_eq] at h
  split at h
  · cases h
    omega
  · split at h
    · cases h
      omega
    · split at h
      · cases h
        omega
      · cases h

theorem pieces_clean {t : Text} {ps : List StringPiece} (h : Concat PieceText t ps)
    (ht : encodable t = true) : ∀ x ∈ ps, x.clean := by
  induction h with
  | nil => nofun
  | cons hx _ ih =>
    rw [encodable_append, Bool.and_eq_true] at ht
    intro y hy
    rcases List.mem_cons.1 hy with rfl | hy
    · cases hx with
      | plain =>
        have hc := ht.1
        simp only [encodable, List.all_cons, List.all_nil, Bool.and_true, Bool.not_eq_true'] at hc
        exact hc
      | escape he =>
        have hall : ∀ e ∈ shortEscapes, isSurrogate (chr e.2) = false := by decide
        exact hall _ he
      | unit ha hb hc hd =>
        have h1 := hexValue_lt ha
        have h2 := hexValue_lt hb
        have h3 := hexValue_lt hc
        have h4 := hexValue_lt hd
        simp only [StringPiece.clean]
        omega
    · exact ih ht.2 y hy

theorem stringText_pairFree {t s : Text} (h : StringText t s) (ht : encodable t = true) : PairFree s := by
  obtain ⟨t', ps, rfl, hcat, rfl⟩ := h
  rw [encodable_append, Bool.and_eq_true] at ht
  exact joinPieces_pairFree (pieces_clean hcat ht.1)

/-- What is so of the values of a block is so of all of them. -/
theorem block_forall {β : Type} {b : Brackets CodePoint} {R : Text → β → Prop} {P : β → Prop}
    (hR : ∀ t x, R t x → encodable t = true → P x) {t : Text} {xs : List β} (h : Block b R t xs)
    (ht : encodable t = true) : ∀ x ∈ xs, P x := by
  have hitems : ∀ {t xs}, Items b R t xs → encodable t = true → ∀ x ∈ xs, P x := by
    intro t xs h
    induction h with
    | last hx _ =>
      intro ht y hy
      rw [encodable_append, Bool.and_eq_true] at ht
      rw [List.mem_singleton.1 hy]
      exact hR _ _ hx ht.1
    | @cons t w w' ts x xs hx _ _ _ ih =>
      intro ht y hy
      have hsplit : t ++ (w ++ b.sep :: (w' ++ ts)) = t ++ ((w ++ [b.sep] ++ w') ++ ts) := by simp
      rw [hsplit, encodable_append, encodable_append, Bool.and_eq_true, Bool.and_eq_true] at ht
      rcases List.mem_cons.1 hy with rfl | hy
      · exact hR _ _ hx ht.1
      · exact ih ht.2.2 y hy
  cases h with
  | empty => nofun
  | items _ h =>
    rw [encodable_append, Bool.and_eq_true] at ht
    exact hitems h ht.2

theorem scalar_sendable (hI : I.ReprExact) {t : Text} {x : Json} (h : Scalar I t x)
    (ht : encodable t = true) : x.held I = true ∧ x.pairFree = true ∧ x.depth = 0 := by
  cases h with
  | word hmem =>
    simp only [jsonWords, List.mem_cons, Prod.mk.injEq, List.not_mem_nil, or_false] at hmem
    rcases hmem with ⟨-, rfl⟩ | ⟨-, rfl⟩ | ⟨-, rfl⟩ | ⟨-, rfl⟩ | ⟨-, rfl⟩ | ⟨-, rfl⟩ <;>
      refine ⟨?_, rfl, rfl⟩ <;>
      simp [Json.held, Json.genuine, Json.short, Json.all, Interpreter.holdsFloat]
  | number hn hx => exact value_held hI hn hx
  | @string t s hs =>
    have ht' : encodable t = true := by
      have : encodable ([quote] ++ t) = true := ht
      rw [encodable_append, Bool.and_eq_true] at this
      exact this.2
    exact ⟨rfl, decide_eq_true (stringText_pairFree hs ht'), rfl⟩

/-- The text of a value without surrogates. -/
theorem valueText_sendable (hI : I.ReprExact) : ∀ (d : ℕ) (t : Text) (x : Json), ValueText I d t x →
    encodable t = true → x.held I = true ∧ x.pairFree = true ∧ x.depth ≤ d := by
  intro d
  induction d with
  | zero =>
    intro t x h ht
    obtain ⟨h1, h2, h3⟩ := scalar_sendable hI h ht
    exact ⟨h1, h2, h3.le⟩
  | succ d ih =>
    intro t x h ht
    have htail : ∀ {c : CodePoint} {t : Text}, encodable (c :: t) = true → encodable t = true := by
      intro c t h
      have : encodable ([c] ++ t) = true := h
      rw [encodable_append, Bool.and_eq_true] at this
      exact this.2
    cases h with
    | scalar h =>
      obtain ⟨h1, h2, h3⟩ := scalar_sendable hI h ht
      exact ⟨h1, h2, h3 ▸ Nat.zero_le _⟩
    | array h =>
      have hall := block_forall (P := fun x => x.held I = true ∧ x.pairFree = true ∧ x.depth ≤ d) ih h (htail ht)
      exact ⟨held_arr.2 fun x hx => (hall x hx).1, pairFree_arr.2 fun x hx => (hall x hx).2.1,
        depth_arr.2 fun x hx => (hall x hx).2.2⟩
    | @object t es h =>
      have hall : ∀ e ∈ es, PairFree e.1 ∧ e.2.held I = true ∧ e.2.pairFree = true ∧ e.2.depth ≤ d := by
        refine block_forall (fun t e he ht => ?_) h (htail ht)
        obtain ⟨hs, -, -, hx⟩ := he
        rename_i k s w w' t x
        have hsplit : k ++ (w ++ colon :: (w' ++ t)) = k ++ ((w ++ [colon] ++ w') ++ t) := by simp
        have ht := htail ht
        rw [hsplit, encodable_append, encodable_append, Bool.and_eq_true, Bool.and_eq_true] at ht
        exact ⟨stringText_pairFree hs ht.1, ih _ _ hx ht.2.2⟩
      obtain ⟨hnd, hmem⟩ := mergeFields_items es
      exact ⟨held_obj.2 ⟨hnd, fun e he => (hall e (hmem e he)).2.1⟩,
        pairFree_obj.2 ⟨fun e he => (hall e (hmem e he)).1, fun e he => (hall e (hmem e he)).2.2.1⟩,
        depth_obj.2 fun e he => (hall e (hmem e he)).2.2.2⟩

/-- What was loaded from a text without surrogates, such as UTF-8 decodes to. -/
theorem sendable_of_loads (hI : I.ReprExact) {t : Text} (ht : encodable t = true) {x : Json}
    (hx : loads I t = some x) : x.sendable I = true := by
  obtain ⟨w, v, w', rfl, -, -, hv⟩ := (loads_exact I t x).1 hx
  rw [encodable_append, encodable_append, Bool.and_eq_true, Bool.and_eq_true] at ht
  obtain ⟨h1, h2, h3⟩ := valueText_sendable hI _ _ _ hv ht.2.1
  simp [Json.sendable, h1, h2, h3]

/-! ## The text of a value -/

/-- Printable ASCII. -/
def Printable (t : Text) : Prop := ∀ c ∈ t, 0x20 ≤ c.val ∧ c.val ≤ 0x7E

instance (t : Text) : Decidable (Printable t) := by
  unfold Printable
  exact List.decidableBAll ..

theorem Printable.append {t u : Text} (ht : Printable t) (hu : Printable u) : Printable (t ++ u) :=
  fun c hc => (List.mem_append.1 hc).elim (ht c) (hu c)

theorem Printable.cons {c : CodePoint} {t : Text} (hc : 0x20 ≤ c.val ∧ c.val ≤ 0x7E) (ht : Printable t) :
    Printable (c :: t) := List.forall_mem_cons.2 ⟨hc, ht⟩

theorem Printable.intercalate {t : Text} (ht : Printable t) {ts : List Text}
    (h : ∀ u ∈ ts, Printable u) : Printable (t.intercalate ts) := by
  induction ts with
  | nil => exact List.forall_mem_nil _
  | cons u ts ih =>
    obtain ⟨hu, hts⟩ := List.forall_mem_cons.1 h
    cases ts with
    | nil => rwa [List.intercalate_singleton]
    | cons v ts =>
      rw [List.intercalate_cons_cons]
      exact (hu.append ht).append (ih hts)

theorem printable_digits {ds : Text} (h : ∀ c ∈ ds, isDigit c = true) : Printable ds := fun c hc => by
  have := h c hc
  simp only [isDigit, Bool.and_eq_true, decide_eq_true_eq] at this
  omega

theorem Numeral.Valid.printable {n : Numeral} (hn : n.Valid) : Printable n.text := by
  refine ((Printable.append ?_ ?_).append ?_).append ?_
  · rcases hn.sign with h | h <;> rw [h] <;> decide
  · rcases hn.int with h | ⟨c, ds, h, -, -, hds⟩
    · rw [h]
      decide
    · exact printable_digits hds
  · rcases hn.frac with h | ⟨ds, h, -, hds⟩ <;> rw [h]
    · decide
    · exact .cons (by decide) (printable_digits hds)
  · rcases hn.exp with h | ⟨e, sign, ds, h, he, hsign, -, hds⟩ <;> rw [h]
    · decide
    · refine .cons (by omega) (.append ?_ (printable_digits hds))
      rcases hsign with h | ⟨c, h, hc⟩ <;> rw [h]
      · decide
      · refine .cons ?_ nofun
        rcases hc with hc | rfl
        · omega
        · decide

theorem printable_hexDigit {n : ℕ} (h : n < 16) :
    0x20 ≤ (hexDigit n).val ∧ (hexDigit n).val ≤ 0x7E := by
  have hall : ∀ n : Fin 16, 0x20 ≤ (hexDigit n.val).val ∧ (hexDigit n.val).val ≤ 0x7E := by decide
  exact hall ⟨n, h⟩

theorem printable_unitEscape {n : ℕ} (h : n < 0x10000) : Printable (unitEscape n) := by
  refine .cons (by decide) (.cons (by decide) ?_)
  exact .cons (printable_hexDigit (by omega)) (.cons (printable_hexDigit (by omega))
    (.cons (printable_hexDigit (by omega)) (.cons (printable_hexDigit (by omega)) nofun)))

theorem printable_escapeChar (c : CodePoint) : Printable (escapeChar c) := by
  have hc := c.isLt
  unfold escapeChar
  split
  · exact .cons (by omega) nofun
  · split
    · rename_i e hfind
      have hall : ∀ e ∈ shortEscapes, Printable [backslash, chr e.1] := by decide
      exact hall e (List.mem_of_find?_eq_some hfind)
    · split
      · rename_i h
        exact .cons h nofun
      · split
        · rename_i h
          exact printable_unitEscape h
        · exact .append (printable_unitEscape (by omega)) (printable_unitEscape (by omega))

theorem printable_dumpString (s : Text) : Printable (dumpString s) := by
  refine .cons (by decide) (.append (fun c hc => ?_) (by decide))
  obtain ⟨d, -, hd⟩ := List.mem_flatMap.1 hc
  exact printable_escapeChar d c hd

theorem printable_dumpFloat {r : Text} {i : Option ℤ} (h : I.holdsFloat r i = true) :
    Printable (dumpFloat r) := by
  have hs := dumpFloat_text h
  generalize dumpFloat r = t at hs
  cases hs with
  | word hmem =>
    have hall : ∀ t ∈ jsonWords.map Prod.fst, Printable t := by decide
    exact hall t (List.mem_map_of_mem hmem)
  | number hn => exact hn.printable

/-- **The text of a value** is printable ASCII: it has no line break, and UTF-8 keeps it as it is. -/
theorem printable_dumpText (x : Json) : x.held I = true → Printable (dumpText x) := by
  have hsep : Printable (lit ", ") ∧ Printable (lit ": ") := by decide
  induction x using Json.rec_parts with
  | null => exact fun _ => by decide
  | bool b => exact fun _ => by cases b <;> decide
  | int n =>
    intro _
    rw [dumpText, ← intNumeral_text]
    exact (intNumeral_valid n).printable
  | float r i =>
    intro h
    rw [dumpText]
    exact printable_dumpFloat ((Bool.and_eq_true _ _).mp h).1
  | str s =>
    intro _
    rw [dumpText]
    exact printable_dumpString s
  | arr xs ih =>
    intro h
    rw [held_arr] at h
    rw [dumpText, dumpItems_eq]
    refine .cons (by decide) (.append (.intercalate hsep.1 fun t ht => ?_) (by decide))
    obtain ⟨x, hx, rfl⟩ := List.mem_map.1 ht
    exact ih x hx (h x hx)
  | obj fields ih =>
    rw [held_obj]
    rintro ⟨-, h⟩
    rw [dumpText, dumpFields_eq]
    refine .cons (by decide) (.append (.intercalate hsep.1 fun t ht => ?_) (by decide))
    obtain ⟨e, he, rfl⟩ := List.mem_map.1 ht
    exact ((printable_dumpString e.1).append hsep.2).append (ih e he (h e he))

theorem Printable.encodable {t : Text} (h : Printable t) : encodable t = true := by
  refine List.all_eq_true.2 fun c hc => ?_
  have := h c hc
  simp only [isSurrogate, Bool.not_eq_true', Bool.and_eq_false_iff, decide_eq_false_iff_not]
  omega

/-- **Round trip of a value.**  What `dumps` has written of a value of Python is loaded as the value
with its pairs joined, if it is nested no deeper than `loads` goes; so that it is the value itself exactly
if, besides, no string in it has a pair. -/
theorem loads_dumps_iff (hI : I.ReprExact) {x : Json} (hx : x.genuine I = true) {t : Text}
    (ht : dumps I x = some t) :
    (loads I t = some x ↔ x.pairFree = true ∧ x.depth ≤ I.maxDepth) ∧
      (x.depth ≤ I.maxDepth → loads I t = some x.joined) := by
  obtain ⟨-, hshort, rfl⟩ := dumps_eq_some.1 ht
  have hheld : x.held I = true := by simp [Json.held, hx, hshort]
  refine ⟨⟨fun h => ?_, fun ⟨hfree, hdepth⟩ => ?_⟩, loads_dumpText hheld⟩
  · have := sendable_of_loads hI (printable_dumpText x hheld).encodable h
    simp only [Json.sendable, Bool.and_eq_true, decide_eq_true_eq] at this
    exact ⟨this.1.2, this.2⟩
  · exact loads_sendable (by simp [Json.sendable, hheld, hfree, hdepth])

/-- **What is loaded is sent on.**  A value that was loaded from a text without surrogates, such as UTF-8
decodes to, is refused by `dumps` only if it is nested more deeply than `dumps` goes, and otherwise comes
back as it is. -/
theorem loaded_sends_on (hI : I.ReprExact) {t : Text} (ht : encodable t = true) {x : Json}
    (hx : loads I t = some x) :
    (dumps I x = none ↔ I.dumpDepth < x.depth) ∧ ∀ t', dumps I x = some t' → loads I t' = some x := by
  have hsend := sendable_of_loads hI ht hx
  have hheld := hsend
  simp only [Json.sendable, Json.held, Bool.and_eq_true] at hheld
  refine ⟨?_, fun t' ht' => ?_⟩
  · rw [dumps, ite_eq_right_iff, ← Nat.not_le, within_iff]
    simp [hheld.1.1.2]
  · obtain ⟨-, -, rfl⟩ := dumps_eq_some.1 ht'
    exact loads_sendable hsend

end Value

/-! ### An interpreter -/

/-- Python's default limits, as they stand in the thread of a handler; every float is its own `repr`, as
the short ones are. -/
def plainInterpreter : Interpreter := ⟨990, 985, 4300, fun t => (t, none)⟩

theorem plainInterpreter_exact : plainInterpreter.ReprExact := by
  intro n hn hf
  have hscan := scans_numeral.complete n.text n [] ⟨rfl, hn⟩ (noHead_nil _)
  rw [List.append_nil] at hscan
  simp [Interpreter.holdsFloat, plainInterpreter, hscan, hf]

/-- A value with high surrogates, alone and in front of a letter. -/
def loneSurrogates : Json :=
  .obj [(lit "v", .arr [.int (-12), .float (lit "0.5") none, .str [chr 0xD83D], .str [chr 0xD83D, chr 0x61]])]

/-- A string of a high and a low surrogate. -/
def splitPair : Json := .str [chr 0xD83D, chr 0xDE00]

/-- High surrogates come back, but not in front of a low one. -/
theorem surrogates_come_back :
    (∃ t, dumps plainInterpreter loneSurrogates = some t ∧ loads plainInterpreter t = some loneSurrogates) ∧
    ∃ t, dumps plainInterpreter splitPair = some t ∧
      loads plainInterpreter t = some (.str [chr 0x1F600]) ∧ loads plainInterpreter t ≠ some splitPair := by
  have hlone : dumps plainInterpreter loneSurrogates = some (dumpText loneSurrogates) :=
    dumps_eq_some.2 ⟨by decide, by decide, rfl⟩
  have hpair : dumps plainInterpreter splitPair = some (dumpText splitPair) :=
    dumps_eq_some.2 ⟨by decide, by decide, rfl⟩
  refine ⟨⟨_, hlone, ?_⟩, ⟨_, hpair, ?_, fun h => ?_⟩⟩
  · exact (loads_dumps_iff plainInterpreter_exact (by decide) hlone).1.2 ⟨by decide, by decide⟩
  · exact (loads_dumps_iff plainInterpreter_exact (by decide) hpair).2 (by decide)
  · exact absurd ((loads_dumps_iff plainInterpreter_exact (by decide) hpair).1.1 h).1 (by decide)

/-- An escaped pair is sent on as one code point.  A list in a list is not, where `dumps` goes one level
deep only. -/
theorem escaped_pair_sends_on :
    (∃ x t, loads plainInterpreter (lit "[\"\\ud83d\\ude00\"]") = some x ∧
      dumps plainInterpreter x = some t ∧ loads plainInterpreter t = some x) ∧
    ∃ x, loads { plainInterpreter with dumpDepth := 1 } (lit "[[]]") = some x ∧
      dumps { plainInterpreter with dumpDepth := 1 } x = none := by
  constructor
  · have hx : (loads plainInterpreter (lit "[\"\\ud83d\\ude00\"]")).map Json.depth = some 1 := by
      decide +kernel
    obtain ⟨x, hx, hdepth⟩ := Option.map_eq_some_iff.1 hx
    obtain ⟨hnone, hback⟩ := loaded_sends_on plainInterpreter_exact (by decide) hx
    have hsome : dumps plainInterpreter x ≠ none := fun h => absurd (hnone.1 h) (by rw [hdepth]; decide)
    obtain ⟨t, ht⟩ := Option.ne_none_iff_exists'.1 hsome
    exact ⟨x, t, hx, ht, hback t ht⟩
  · have hx : (loads { plainInterpreter with dumpDepth := 1 } (lit "[[]]")).map Json.depth = some 2 := by
      decide +kernel
    obtain ⟨x, hx, hdepth⟩ := Option.map_eq_some_iff.1 hx
    have hiff := (loaded_sends_on (I := { plainInterpreter with dumpDepth := 1 }) plainInterpreter_exact
      (by decide) hx).1
    exact ⟨x, hx, hiff.2 (by rw [hdepth]; decide)⟩

end DistRes
