import DistRes.JsonText

/-!
# What `json.loads` accepts

The grammar of the JSON texts of a value, by depth of nesting, and the scanner against it.

* `JsonText` — the grammar;
* `loads_exact` — `loads` gives a value exactly for the texts of this value.
-/

namespace DistRes

open Lib

/-! ## The grammar -/

def Blanks (w : Text) : Prop := ∀ c ∈ w, isBlank c = true

def Digits (ds : Text) : Prop := ds ≠ [] ∧ ∀ c ∈ ds, isDigit c = true

/-- One piece of a string. -/
inductive PieceText : Text → StringPiece → Prop
  | plain {c : CodePoint} : c ≠ quote → c ≠ backslash → 0x20 ≤ c.val → PieceText [c] (.plain c)
  | escape {e n : ℕ} : (e, n) ∈ shortEscapes → PieceText [backslash, chr e] (.plain (chr n))
  | unit {a b c d : CodePoint} {k l m n : ℕ} : hexValue a = some k → hexValue b = some l →
      hexValue c = some m → hexValue d = some n →
      PieceText [backslash, letterU, a, b, c, d] (.unit (0x1000 * k + 0x100 * l + 0x10 * m + n))

/-- The text of a string, from behind its opening quote. -/
def StringText (t s : Text) : Prop :=
  ∃ t' ps, t = t' ++ [quote] ∧ Concat PieceText t' ps ∧ s = joinPieces ps

/-- The parts of a numeral are written as they have to be. -/
structure Numeral.Valid (n : Numeral) : Prop where
  sign : n.sign = [] ∨ n.sign = [minus]
  int : n.int = [chr 0x30] ∨ ∃ c ds, n.int = c :: ds ∧ c.val ≠ 0x30 ∧ Digits n.int
  frac : n.frac = [] ∨ ∃ ds, n.frac = dot :: ds ∧ Digits ds
  exp : n.exp = [] ∨ ∃ e sign ds, n.exp = e :: (sign ++ ds) ∧ (e.val = 0x65 ∨ e.val = 0x45) ∧
    (sign = [] ∨ ∃ c : CodePoint, sign = [c] ∧ (c.val = 0x2B ∨ c = minus)) ∧ Digits ds

section Values

variable (I : Interpreter)

/-- The text of a value that is no container. -/
inductive Scalar : Text → Json → Prop
  | word {t : Text} {x : Json} : (t, x) ∈ jsonWords → Scalar t x
  | number {n : Numeral} {x : Json} : n.Valid → n.value I = some x → Scalar n.text x
  | string {t s : Text} : StringText t s → Scalar (quote :: t) (.str s)

/-- The text of a key and its value. -/
inductive MemberText (R : Text → Json → Prop) : Text → Text × Json → Prop
  | mk {k s w w' t : Text} {x : Json} : StringText k s → Blanks w → Blanks w' → R t x →
      MemberText R (quote :: (k ++ (w ++ colon :: (w' ++ t)))) (s, x)

/-- The text of a value whose parts have the texts `R`. -/
inductive Nested (R : Text → Json → Prop) : Text → Json → Prop
  | scalar {t : Text} {x : Json} : Scalar I t x → Nested R t x
  | array {t : Text} {xs : List Json} : Block arrayBrackets R t xs → Nested R (openBracket :: t) (.arr xs)
  | object {t : Text} {es : List (Text × Json)} : Block objectBrackets (MemberText R) t es →
      Nested R (openBrace :: t) (.obj (mergeFields [] es))

/-- The text of a value with containers nested to the given depth at most. -/
def ValueText : ℕ → Text → Json → Prop
  | 0 => Scalar I
  | d + 1 => Nested I (ValueText d)

/-- **The JSON texts of a value.** -/
def JsonText (t : Text) (x : Json) : Prop :=
  ∃ w v w', t = w ++ (v ++ w') ∧ Blanks w ∧ Blanks w' ∧ ValueText I I.maxDepth v x

end Values

/-! ## Strings -/

@[simp] theorem chr_val (c : CodePoint) : chr c.val = c := by
  ext
  exact Nat.mod_eq_of_lt c.isLt

theorem scanHex4_eq_some {s rest : Text} {n : ℕ} : scanHex4 s = some (n, rest) ↔
    ∃ a b c d k l m o, s = a :: b :: c :: d :: rest ∧ hexValue a = some k ∧ hexValue b = some l ∧
      hexValue c = some m ∧ hexValue d = some o ∧ n = 0x1000 * k + 0x100 * l + 0x10 * m + o := by
  constructor
  · intro h
    unfold scanHex4 at h
    split at h
    · rename_i a b c d s
      simp only [Option.bind_eq_bind, Option.bind_eq_some_iff, Option.pure_def, Option.some.injEq,
        Prod.mk.injEq] at h
      obtain ⟨k, hk, l, hl, m, hm, o, ho, rfl, rfl⟩ := h
      exact ⟨a, b, c, d, k, l, m, o, rfl, hk, hl, hm, ho, rfl⟩
    · cases h
  · rintro ⟨a, b, c, d, k, l, m, o, rfl, hk, hl, hm, ho, rfl⟩
    simp [scanHex4, hk, hl, hm, ho]

theorem scanPiece_sound (c : CodePoint) (s : Text) (x : StringPiece) (rest : Text) (hc : c ≠ quote)
    (h : scanPiece (c :: s) = some (x, rest)) : ∃ t, c :: s = t ++ rest ∧ PieceText t x := by
  rw [scanPiece] at h
  split at h
  · rename_i hb
    subst hb
    unfold scanEscape at h
    split at h
    · cases h
    · rename_i e s
      split at h
      · rename_i he
        obtain ⟨⟨n, rest'⟩, hn, heq⟩ := Option.map_eq_some_iff.1 h
        cases heq
        obtain ⟨a, b, c, d, k, l, m, o, rfl, hk, hl, hm, ho, rfl⟩ := scanHex4_eq_some.1 hn
        exact ⟨_, by rw [he]; rfl, .unit hk hl hm ho⟩
      · obtain ⟨⟨e', n⟩, hfind, heq⟩ := Option.map_eq_some_iff.1 h
        cases heq
        obtain rfl : e' = e.val := by simpa using List.find?_some hfind
        refine ⟨[backslash, e], rfl, ?_⟩
        have := PieceText.escape (List.mem_of_find?_eq_some hfind)
        rwa [chr_val] at this
  · rename_i hb
    split at h
    · cases h
    · rename_i h20
      cases h
      exact ⟨[c], rfl, .plain hc hb (Nat.not_lt.1 h20)⟩

theorem scanPiece_complete (t : Text) (x : StringPiece) (rest : Text) (h : PieceText t x) :
    scanPiece (t ++ rest) = some (x, rest) := by
  cases h with
  | @plain c hq hb h20 =>
    rw [List.singleton_append, scanPiece, if_neg hb, if_neg (Nat.not_lt.2 h20)]
  | @escape e n he =>
    have hall : ∀ x ∈ shortEscapes, chr x.1 ≠ letterU ∧
        shortEscapes.find? (fun y => y.1 = (chr x.1).val) = some x := by decide
    obtain ⟨hu, hfind⟩ := hall _ he
    simp only [List.cons_append, List.nil_append]
    rw [scanPiece, if_pos rfl, scanEscape, if_neg hu, hfind]
    rfl
  | @unit a b c d k l m n ha hb hc hd =>
    simp only [List.cons_append, List.nil_append]
    rw [scanPiece, if_pos rfl, scanEscape, if_pos rfl,
      scanHex4_eq_some.2 ⟨a, b, c, d, k, l, m, n, rfl, ha, hb, hc, hd, rfl⟩]
    rfl

theorem pieceText_head (t : Text) (x : StringPiece) (h : PieceText t x) : ∃ a l, t = a :: l ∧ a ≠ quote := by
  cases h with
  | plain hq => exact ⟨_, _, rfl, hq⟩
  | escape | unit => exact ⟨_, _, rfl, by decide⟩

theorem scans_string : Scans scanString StringText fun _ => True := by
  have hmany := scans_manyTill scanPiece_sound scanPiece_complete pieceText_head
  refine ⟨fun s x rest h => ?_, fun t x rest h _ => ?_⟩
  · obtain ⟨⟨ps, rest'⟩, hps, heq⟩ := Option.map_eq_some_iff.1 h
    cases heq
    obtain ⟨t, rfl, t', ht, hcat⟩ := hmany.sound _ _ _ hps
    exact ⟨t, rfl, t', ps, ht, hcat, rfl⟩
  · obtain ⟨t', ps, rfl, hcat, rfl⟩ := h
    have := hmany.complete _ ps rest ⟨t', rfl, hcat⟩ trivial
    simp only [scanString]
    rw [this]
    rfl

/-! ## Numbers -/

/-- What a numeral may go on with. -/
def inNumeral (c : CodePoint) : Bool := isDigit c || c = dot || c.val = 0x65 || c.val = 0x45

theorem noHead_digit {rest : Text} (h : NoHead inNumeral rest) : NoHead isDigit rest := by
  intro c hc
  have := h c hc
  simp only [inNumeral, Bool.or_eq_false_iff] at this
  exact this.1.1.1

theorem noHead_of_head {p : CodePoint → Bool} {t rest : Text} (ht : t = [] ∨ ∃ c l, t = c :: l ∧ p c = false)
    (hr : NoHead p rest) : NoHead p (t ++ rest) := by
  rcases ht with rfl | ⟨c, l, rfl, hc⟩
  · exact hr
  · simpa using hc

theorem Digits.of_takeWhile {s : Text} (h : s.takeWhile isDigit ≠ []) : Digits (s.takeWhile isDigit) :=
  ⟨h, fun _ => List.mem_takeWhile_imp⟩

/-- A minus sign in front of what does not begin with one. -/
theorem scanMinus_spec (s : Text) : s = (scanMinus s).1 ++ (scanMinus s).2 ∧
    ((scanMinus s).1 = [] ∨ (scanMinus s).1 = [minus]) := by
  unfold scanMinus
  split
  · simp
  · split
    · rename_i hc
      simp [hc]
    · simp

theorem scanMinus_append {sign s : Text} (hsign : sign = [] ∨ sign = [minus])
    (hs : NoHead (fun c => c = minus) s) : scanMinus (sign ++ s) = (sign, s) := by
  rcases hsign with rfl | rfl
  · cases s with
    | nil => rfl
    | cons c s => simpa [scanMinus] using hs
  · rfl

theorem scanInt_sound {s int rest : Text} (h : scanInt s = some (int, rest)) : s = int ++ rest ∧
    (int = [chr 0x30] ∨ ∃ c ds, int = c :: ds ∧ c.val ≠ 0x30 ∧ Digits int) := by
  unfold scanInt at h
  split at h
  · cases h
  · rename_i c s
    split at h
    · rename_i hc
      cases h
      refine ⟨rfl, .inl ?_⟩
      rw [← hc, chr_val]
    · rename_i hc
      split at h
      · rename_i hd
        cases h
        refine ⟨by simp [List.takeWhile_append_dropWhile], .inr ⟨c, _, rfl, hc, by simp, fun d hm => ?_⟩⟩
        rcases List.mem_cons.1 hm with rfl | hm
        · exact hd
        · exact List.mem_takeWhile_imp hm
      · cases h

theorem scanInt_complete {int rest : Text}
    (hint : int = [chr 0x30] ∨ ∃ c ds, int = c :: ds ∧ c.val ≠ 0x30 ∧ Digits int)
    (hr : NoHead isDigit rest) : scanInt (int ++ rest) = some (int, rest) := by
  rcases hint with rfl | ⟨c, ds, rfl, hc, -, hds⟩
  · rfl
  · have hds' : ∀ d ∈ ds, isDigit d = true := fun d hd => hds d (List.mem_cons_of_mem _ hd)
    rw [List.cons_append, scanInt, if_neg hc, if_pos (hds c List.mem_cons_self),
      takeWhile_append_of_noHead hds' hr, dropWhile_append_of_noHead hds' hr]

theorem scanFrac_spec (s : Text) : s = (scanFrac s).1 ++ (scanFrac s).2 ∧
    ((scanFrac s).1 = [] ∨ ∃ ds, (scanFrac s).1 = dot :: ds ∧ Digits ds) := by
  unfold scanFrac
  split
  · simp
  · rename_i c s
    split
    · rename_i hc
      exact ⟨by simp [List.takeWhile_append_dropWhile], .inr ⟨_, by rw [hc.1], .of_takeWhile hc.2⟩⟩
    · simp

theorem scanFrac_append {frac s : Text} (hfrac : frac = [] ∨ ∃ ds, frac = dot :: ds ∧ Digits ds)
    (hs : NoHead isDigit s) (hdot : NoHead (fun c => c = dot) s) : scanFrac (frac ++ s) = (frac, s) := by
  rcases hfrac with rfl | ⟨ds, rfl, hne, hds⟩
  · cases s with
    | nil => rfl
    | cons c s =>
      have hc : c ≠ dot := by simpa using hdot
      simp [scanFrac, hc]
  · rw [List.cons_append, scanFrac, takeWhile_append_of_noHead hds hs, dropWhile_append_of_noHead hds hs,
      if_pos ⟨rfl, hne⟩]

theorem scanSign_spec (s : Text) : s = (scanSign s).1 ++ (scanSign s).2 ∧ ((scanSign s).1 = [] ∨
    ∃ c : CodePoint, (scanSign s).1 = [c] ∧ (c.val = 0x2B ∨ c = minus)) := by
  unfold scanSign
  split
  · simp
  · split
    · rename_i hc
      simp [hc]
    · simp

theorem scanSign_append {sign s : Text}
    (hsign : sign = [] ∨ ∃ c : CodePoint, sign = [c] ∧ (c.val = 0x2B ∨ c = minus))
    (hs : ∀ c ∈ s.head?, isDigit c = true) : scanSign (sign ++ s) = (sign, s) := by
  rcases hsign with rfl | ⟨c, rfl, hc⟩
  · cases s with
    | nil => rfl
    | cons c s =>
      have hd := hs c rfl
      rw [List.nil_append, scanSign, if_neg]
      rintro (h | rfl)
      · simp [isDigit, h] at hd
      · exact absurd hd (by decide)
  · rw [List.singleton_append, scanSign, if_pos hc]

theorem scanExp_spec (s : Text) : s = (scanExp s).1 ++ (scanExp s).2 ∧ ((scanExp s).1 = [] ∨
    ∃ e sign ds, (scanExp s).1 = e :: (sign ++ ds) ∧ (e.val = 0x65 ∨ e.val = 0x45) ∧
      (sign = [] ∨ ∃ c : CodePoint, sign = [c] ∧ (c.val = 0x2B ∨ c = minus)) ∧ Digits ds) := by
  unfold scanExp
  split
  · simp
  · rename_i e s
    split
    · rename_i hc
      obtain ⟨hs, hsign⟩ := scanSign_spec s
      refine ⟨?_, .inr ⟨e, _, _, rfl, hc.1, hsign, .of_takeWhile hc.2⟩⟩
      simp only [List.cons_append, List.append_assoc, List.takeWhile_append_dropWhile]
      exact congrArg _ hs
    · simp

theorem scanExp_append {exp rest : Text} (hexp : exp = [] ∨ ∃ e sign ds, exp = e :: (sign ++ ds) ∧
      (e.val = 0x65 ∨ e.val = 0x45) ∧
      (sign = [] ∨ ∃ c : CodePoint, sign = [c] ∧ (c.val = 0x2B ∨ c = minus)) ∧ Digits ds)
    (hr : NoHead inNumeral rest) : scanExp (exp ++ rest) = (exp, rest) := by
  rcases hexp with rfl | ⟨e, sign, ds, rfl, he, hsign, hne, hds⟩
  · cases rest with
    | nil => rfl
    | cons c l =>
      simp only [noHead_cons, inNumeral, Bool.or_eq_false_iff, decide_eq_false_iff_not] at hr
      rw [List.nil_append, scanExp, if_neg]
      rintro ⟨h | h, -⟩
      · exact hr.1.2 h
      · exact hr.2 h
  · have hhead : ∀ c ∈ (ds ++ rest).head?, isDigit c = true := by
      obtain ⟨d, ds, rfl⟩ := List.exists_cons_of_ne_nil hne
      simpa using hds d List.mem_cons_self
    have hr' := noHead_digit hr
    rw [List.cons_append, List.append_assoc, scanExp, scanSign_append hsign hhead,
      takeWhile_append_of_noHead hds hr', dropWhile_append_of_noHead hds hr', if_pos ⟨he, hne⟩]
    simp

theorem scans_numeral :
    Scans scanNumeral (fun t n => t = n.text ∧ n.Valid) (NoHead inNumeral) where
  sound s n rest h := by
    obtain ⟨⟨int, s'⟩, hint, heq⟩ := Option.map_eq_some_iff.1 h
    cases heq
    obtain ⟨hminus, hsign⟩ := scanMinus_spec s
    obtain ⟨hs, hint⟩ := scanInt_sound hint
    obtain ⟨hfrac, hf⟩ := scanFrac_spec s'
    obtain ⟨hexp, he⟩ := scanExp_spec (scanFrac s').2
    refine ⟨_, ?_, rfl, ⟨hsign, hint, hf, he⟩⟩
    simp only [Numeral.text, List.append_assoc]
    rw [← hexp, ← hfrac, ← hs, ← hminus]
  complete t n rest h hr := by
    obtain ⟨rfl, hn⟩ := h
    have hexp : n.exp = [] ∨ ∃ c l, n.exp = c :: l ∧ isDigit c = false ∧ c ≠ dot := by
      refine hn.exp.imp_right ?_
      rintro ⟨e, sign, ds, heq, he, -⟩
      refine ⟨e, _, heq, ?_, ?_⟩
      · rcases he with he | he <;> simp [isDigit, he]
      · rintro rfl
        exact absurd he (by decide)
    have hdot : NoHead (fun c => c = dot) rest := by
      intro c hc
      have := hr c hc
      simp only [inNumeral, Bool.or_eq_false_iff] at this
      exact this.1.1.2
    have htail : NoHead isDigit (n.exp ++ rest) :=
      noHead_of_head (hexp.imp_right fun ⟨c, l, h1, h2, _⟩ => ⟨c, l, h1, h2⟩) (noHead_digit hr)
    have htail' : NoHead (fun c => c = dot) (n.exp ++ rest) :=
      noHead_of_head (hexp.imp_right fun ⟨c, l, h1, _, h2⟩ => ⟨c, l, h1, by simpa using h2⟩) hdot
    have hfrac : NoHead isDigit (n.frac ++ (n.exp ++ rest)) := by
      refine noHead_of_head (hn.frac.imp_right ?_) htail
      rintro ⟨ds, heq, -⟩
      exact ⟨dot, ds, heq, by decide⟩
    have hint : NoHead (fun c => c = minus) (n.int ++ (n.frac ++ (n.exp ++ rest))) := by
      rcases hn.int with heq | ⟨c, ds, heq, -, -, hds⟩
      · rw [heq]
        simp [NoHead, chr, minus]
      · have hd := hds c (heq ▸ List.mem_cons_self)
        rw [heq, List.cons_append, noHead_cons, decide_eq_false_iff_not]
        rintro rfl
        exact absurd hd (by decide)
    simp only [scanNumeral, Numeral.text, List.append_assoc]
    rw [scanMinus_append hn.sign hint]
    simp only [scanInt_complete hn.int hfrac, Option.map_some, scanFrac_append hn.frac htail htail',
      scanExp_append hn.exp hr]

/-! ## Values -/

section Scan

variable {I : Interpreter}

/-- A quote, a minus sign, a digit or a letter. -/
def opensScalar (c : CodePoint) : Bool :=
  c = quote || c = minus || isDigit c || (0x41 ≤ c.val && c.val ≤ 0x5A) || (0x61 ≤ c.val && c.val ≤ 0x7A)

theorem opensScalar_plain {c : CodePoint} (h : opensScalar c = true) : isBlank c = false ∧
    c ≠ openBracket ∧ c ≠ openBrace ∧ c ≠ closeBracket ∧ c ≠ closeBrace := by
  refine ⟨?_, ?_, ?_, ?_, ?_⟩
  · simp only [opensScalar, isDigit, quote, minus, Bool.or_eq_true, Bool.and_eq_true,
      decide_eq_true_eq, Fin.ext_iff] at h
    simp only [isBlank, Bool.or_eq_false_iff, decide_eq_false_iff_not]
    omega
  all_goals
    rintro rfl
    exact absurd h (by decide)

/-- The first two code points of a text do not begin a numeral. -/
def notNumeral : Text → Bool
  | c :: d :: _ => !isDigit c && !(c = minus && isDigit d)
  | _ => false

theorem jsonWords_head : ∀ w ∈ jsonWords.map Prod.fst,
    notNumeral w = true ∧ ∃ c l, w = c :: l ∧ opensScalar c = true ∧ c ≠ quote := by
  have h : ∀ w ∈ jsonWords.map Prod.fst,
      notNumeral w = true ∧ (w.head?.any fun c => opensScalar c && decide (c ≠ quote)) = true := by decide
  intro w hw
  obtain ⟨h1, h2⟩ := h w hw
  refine ⟨h1, ?_⟩
  cases w with
  | nil => cases h2
  | cons c l => exact ⟨c, l, rfl, by simpa using h2⟩

theorem words_complete {t : Text} {x : Json} (h : (t, x) ∈ jsonWords) (rest : Text) :
    (jsonWords.findSome? fun w => word w.1 w.2 (t ++ rest)) = some (x, rest) := by
  simp only [jsonWords, List.mem_cons, Prod.mk.injEq, List.not_mem_nil, or_false] at h
  rcases h with ⟨rfl, rfl⟩ | ⟨rfl, rfl⟩ | ⟨rfl, rfl⟩ | ⟨rfl, rfl⟩ | ⟨rfl, rfl⟩ | ⟨rfl, rfl⟩ <;> rfl

theorem words_sound {s rest : Text} {x : Json}
    (h : (jsonWords.findSome? fun w => word w.1 w.2 s) = some (x, rest)) :
    ∃ t, (t, x) ∈ jsonWords ∧ s = t ++ rest := by
  obtain ⟨⟨t, y⟩, hmem, hw⟩ := List.exists_of_findSome?_eq_some h
  obtain ⟨rfl, rfl⟩ := word_eq_some.1 hw
  exact ⟨t, hmem, rfl⟩

theorem numeral_head {n : Numeral} (hn : n.Valid) : ∃ c l, n.text = c :: l ∧ opensScalar c = true ∧
    c ≠ quote ∧ ∀ rest, notNumeral (n.text ++ rest) = false := by
  obtain ⟨c, ds, hint, hd⟩ : ∃ c ds, n.int = c :: ds ∧ isDigit c = true := by
    rcases hn.int with h | ⟨c, ds, h, -, -, hds⟩
    · exact ⟨_, _, h, by decide⟩
    · exact ⟨c, ds, h, hds c (h ▸ List.mem_cons_self)⟩
  have hquote : c ≠ quote := by
    rintro rfl
    exact absurd hd (by decide)
  rcases hn.sign with hs | hs
  · refine ⟨c, ds ++ (n.frac ++ n.exp), by simp [Numeral.text, hs, hint], by simp [opensScalar, hd],
      hquote, fun rest => ?_⟩
    simp only [Numeral.text, hs, hint, List.nil_append, List.cons_append, List.append_assoc]
    unfold notNumeral
    split
    · rename_i heq
      obtain ⟨rfl, -⟩ := List.cons.inj heq
      simp [hd]
    · rfl
  · refine ⟨minus, c :: (ds ++ (n.frac ++ n.exp)), by simp [Numeral.text, hs, hint], by decide,
      by decide, fun rest => ?_⟩
    simp [Numeral.text, hs, hint, notNumeral, hd]

theorem scalar_head {t : Text} {x : Json} (h : Scalar I t x) : ∃ c l, t = c :: l ∧ opensScalar c = true := by
  cases h with
  | word hmem =>
    obtain ⟨-, c, l, h, hc, -⟩ := jsonWords_head t (List.mem_map_of_mem hmem)
    exact ⟨c, l, h, hc⟩
  | number hn =>
    obtain ⟨c, l, h, hc, -⟩ := numeral_head hn
    exact ⟨c, l, h, hc⟩
  | string => exact ⟨quote, _, rfl, by decide⟩

theorem scans_scalar : Scans (scanScalar I) (Scalar I) (NoHead inNumeral) where
  sound s x rest h := by
    unfold scanScalar at h
    split at h
    · cases h
    · rename_i c s
      split at h
      · rename_i hc
        obtain ⟨⟨y, rest'⟩, hstr, heq⟩ := Option.map_eq_some_iff.1 h
        cases heq
        obtain ⟨t, rfl, ht⟩ := scans_string.sound _ _ _ hstr
        exact ⟨c :: t, rfl, hc ▸ .string ht⟩
      · split at h
        · rename_i r hw
          cases h
          obtain ⟨t, hmem, hs⟩ := words_sound hw
          exact ⟨t, hs, .word hmem⟩
        · obtain ⟨⟨n, rest'⟩, hn, h⟩ := Option.bind_eq_some_iff.1 h
          obtain ⟨y, hy, heq⟩ := Option.map_eq_some_iff.1 h
          cases heq
          obtain ⟨t, hs, rfl, hvalid⟩ := scans_numeral.sound _ _ _ hn
          exact ⟨n.text, hs, .number hvalid hy⟩
  complete t x rest h hr := by
    cases h with
    | word hmem =>
      obtain ⟨-, c, l, heq, -, hc⟩ := jsonWords_head t (List.mem_map_of_mem hmem)
      have hw := words_complete hmem rest
      rw [heq, List.cons_append] at hw ⊢
      rw [scanScalar, if_neg hc, hw]
    | @number n x hn hx =>
      obtain ⟨c, l, heq, -, hc, hnot⟩ := numeral_head hn
      have hw : (jsonWords.findSome? fun w => word w.1 w.2 (n.text ++ rest)) = none := by
        rw [Option.eq_none_iff_forall_ne_some]
        rintro ⟨y, rest'⟩ hw
        obtain ⟨t, hmem, hs⟩ := words_sound hw
        obtain ⟨hlike, -⟩ := jsonWords_head t (List.mem_map_of_mem hmem)
        have := hnot rest
        rw [hs] at this
        unfold notNumeral at hlike
        split at hlike
        · rw [List.cons_append, List.cons_append, notNumeral, hlike] at this
          cases this
        · cases hlike
      have hscan := scans_numeral.complete _ n rest ⟨rfl, hn⟩ hr
      rw [heq, List.cons_append] at hw hscan ⊢
      rw [scanScalar, if_neg hc, hw]
      simp only [hscan, Option.bind_some, hx, Option.map_some]
    | string hs =>
      rw [List.cons_append, scanScalar, if_pos rfl, scans_string.complete _ _ rest hs trivial]
      rfl

section Containers

variable {p : Scanner CodePoint Json} {R : Text → Json → Prop}

theorem scans_member (hp : Scans p R (NoHead inNumeral))
    (hhead : ∀ t x, R t x → ∃ c l, t = c :: l ∧ isBlank c = false) :
    Scans (scanMember p) (MemberText R) (NoHead inNumeral) where
  sound s x rest h := by
    unfold scanMember at h
    split at h
    · cases h
    · rename_i c s
      split at h
      · rename_i hc
        obtain ⟨⟨k, s'⟩, hk, h⟩ := Option.bind_eq_some_iff.1 h
        obtain ⟨w, hw, hs'⟩ := exists_blanks isBlank s'
        split at h
        · cases h
        · rename_i d s'' hdrop
          simp only at hdrop
          split at h
          · rename_i hd
            obtain ⟨⟨y, rest'⟩, hy, heq⟩ := Option.map_eq_some_iff.1 h
            cases heq
            obtain ⟨kt, rfl, hkt⟩ := scans_string.sound _ _ _ hk
            obtain ⟨w', hw', hs''⟩ := exists_blanks isBlank s''
            obtain ⟨t, ht, hR⟩ := hp.sound _ _ _ hy
            refine ⟨quote :: (kt ++ (w ++ colon :: (w' ++ t))), ?_, .mk hkt hw hw' hR⟩
            rw [hc, hs', hdrop, hd, hs'', ht]
            simp
          · cases h
      · cases h
  complete t x rest h hr := by
    cases h with
    | @mk k s w w' t x hk hw hw' hR =>
      obtain ⟨c, l, heq, hc⟩ := hhead t x hR
      have hcolon : NoHead isBlank (colon :: (w' ++ (t ++ rest))) := by
        rw [noHead_cons]
        decide
      have ht : NoHead isBlank (t ++ rest) := by simp [heq, hc]
      simp only [List.cons_append, List.append_assoc]
      rw [scanMember, if_pos rfl, scans_string.complete k s _ hk trivial]
      simp only [Option.bind_some, dropWhile_append_of_noHead hw hcolon]
      rw [if_pos trivial, dropWhile_append_of_noHead hw' ht, hp.complete t x rest hR hr]
      rfl

end Containers

theorem valueText_head : ∀ (d : ℕ) (t : Text) (x : Json), ValueText I d t x → ∃ c l, t = c :: l ∧
    isBlank c = false ∧ c ≠ closeBracket ∧ c ≠ closeBrace
  | 0, t, x, h => by
    obtain ⟨c, l, heq, hc⟩ := scalar_head h
    obtain ⟨h1, -, -, h2, h3⟩ := opensScalar_plain hc
    exact ⟨c, l, heq, h1, h2, h3⟩
  | d + 1, t, x, h => by
    cases h with
    | scalar h =>
      obtain ⟨c, l, heq, hc⟩ := scalar_head h
      obtain ⟨h1, -, -, h2, h3⟩ := opensScalar_plain hc
      exact ⟨c, l, heq, h1, h2, h3⟩
    | array => exact ⟨_, _, rfl, by decide, by decide, by decide⟩
    | object => exact ⟨_, _, rfl, by decide, by decide, by decide⟩

/-- Blanks and punctuation may follow a numeral. -/
theorem follows_numeral (b : Brackets CodePoint) (hb : b.blank = isBlank) (hs : b.sep = comma)
    (hc : b.close = closeBracket ∨ b.close = closeBrace) : Follows b (NoHead inNumeral) := by
  intro c l h
  rw [noHead_cons]
  rw [hb, hs] at h
  rcases h with h | rfl | rfl
  · simp only [isBlank, Bool.or_eq_true, decide_eq_true_eq] at h
    simp only [inNumeral, isDigit, dot, Bool.or_eq_false_iff, Bool.and_eq_false_iff,
      decide_eq_false_iff_not, Fin.ext_iff]
    omega
  · decide
  · rcases hc with hc | hc <;> rw [hc] <;> decide

/-- **The scanner.**  With a limit on the depth it takes exactly the texts of the values that are
nested no deeper. -/
theorem scans_value (d : ℕ) : Scans (scanValue I d) (ValueText I d) (NoHead inNumeral) := by
  induction d with
  | zero =>
    refine ⟨fun s x rest h => ?_, fun t x rest h hr => ?_⟩
    · rw [scanValue] at h
      exact scans_scalar.sound _ _ _ h
    · rw [scanValue]
      exact scans_scalar.complete _ _ _ h hr
  | succ d ih =>
    have harray : Scans (block arrayBrackets (scanValue I d)) (Block arrayBrackets (ValueText I d))
        fun _ => True := by
      refine scans_block ih (follows_numeral _ rfl rfl (.inl rfl)) fun t x h => ?_
      obtain ⟨c, l, heq, h1, h2, -⟩ := valueText_head d t x h
      exact ⟨c, l, heq, h1, h2⟩
    have hobject : Scans (block objectBrackets (scanMember (scanValue I d)))
        (Block objectBrackets (MemberText (ValueText I d))) fun _ => True := by
      refine scans_block (scans_member ih fun t x h => ?_) (follows_numeral _ rfl rfl (.inr rfl))
        fun t x h => ?_
      · obtain ⟨c, l, heq, h1, -⟩ := valueText_head d t x h
        exact ⟨c, l, heq, h1⟩
      · cases h
        exact ⟨_, _, rfl, by decide, by decide⟩
    refine ⟨fun s x rest h => ?_, fun t x rest h hr => ?_⟩
    · cases s with
      | nil => cases h
      | cons c s =>
        rw [scanValue] at h
        split at h
        · rename_i hc
          obtain ⟨⟨xs, rest'⟩, hxs, heq⟩ := Option.map_eq_some_iff.1 h
          cases heq
          obtain ⟨t, rfl, ht⟩ := harray.sound _ _ _ hxs
          exact ⟨c :: t, rfl, hc ▸ .array ht⟩
        · split at h
          · rename_i hc
            obtain ⟨⟨es, rest'⟩, hes, heq⟩ := Option.map_eq_some_iff.1 h
            cases heq
            obtain ⟨t, rfl, ht⟩ := hobject.sound _ _ _ hes
            exact ⟨c :: t, rfl, hc ▸ .object ht⟩
          · obtain ⟨t, hs, ht⟩ := scans_scalar.sound _ _ _ h
            exact ⟨t, hs, .scalar ht⟩
    · cases h with
      | scalar h =>
        obtain ⟨c, l, heq, hc⟩ := scalar_head h
        obtain ⟨-, h1, h2, -, -⟩ := opensScalar_plain hc
        have hscan := scans_scalar.complete _ _ _ h hr
        rw [heq, List.cons_append] at hscan ⊢
        rw [scanValue, if_neg h1, if_neg h2, hscan]
      | array h =>
        rw [List.cons_append, scanValue, if_pos rfl, harray.complete _ _ rest h trivial]
        rfl
      | object h =>
        rw [List.cons_append, scanValue, if_neg (by decide), if_pos rfl,
          hobject.complete _ _ rest h trivial]
        rfl

/-- **`json.loads` accepts exactly the JSON texts**, and gives the value that the text is of. -/
theorem loads_exact (I : Interpreter) (t : Text) (x : Json) : loads I t = some x ↔ JsonText I t x := by
  have hscan := scans_value (I := I) I.maxDepth
  constructor
  · intro h
    obtain ⟨⟨y, rest⟩, hy, h⟩ := Option.bind_eq_some_iff.1 h
    obtain ⟨w, hw, ht⟩ := exists_blanks isBlank t
    obtain ⟨w', hw', hrest⟩ := exists_blanks isBlank rest
    split at h
    · rename_i hnil
      cases h
      obtain ⟨v, hv, hx⟩ := hscan.sound _ _ _ hy
      simp only at hnil
      rw [hnil, List.append_nil] at hrest
      exact ⟨w, v, rest, by rw [ht, hv], hw, hrest ▸ hw', hx⟩
    · cases h
  · rintro ⟨w, v, w', rfl, hw, hw', hx⟩
    obtain ⟨c, l, heq, hc, -⟩ := valueText_head _ _ _ hx
    have hhead : NoHead isBlank (v ++ w') := by simp [heq, hc]
    have hfollow : NoHead inNumeral w' := by
      intro c hc
      have := follows_numeral arrayBrackets rfl rfl (.inl rfl) c [] (.inl (hw' c (List.mem_of_mem_head? hc)))
      simpa using this
    have hdrop : w'.dropWhile isBlank = [] := List.dropWhile_eq_nil_iff.2 hw'
    simp only [loads, dropWhile_append_of_noHead hw hhead, hscan.complete _ _ _ hx hfollow,
      Option.bind_some, hdrop, if_true]

end Scan

end DistRes
