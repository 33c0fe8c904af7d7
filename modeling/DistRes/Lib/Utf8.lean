import Mathlib.Data.List.Basic

/-!
# Code points and UTF-8

A text is a list of Unicode code points, surrogates included.  `utf8` is the encoder; `utf8Decode`
is the strict decoder, which refuses stray and missing continuation bytes, overlong forms,
surrogates and values past `0x10FFFF`.

* `utf8Decode_utf8` — decoding gives back every encodable text;
* `utf8Decode_eq_some` — and nothing else decodes.
-/

namespace DistRes.Lib

/-- A Unicode code point, surrogates included. -/
abbrev CodePoint := Fin 0x110000

/-- A text: a list of code points. -/
abbrev Text := List CodePoint

/-- A string of bytes. -/
abbrev Bytes := List UInt8

/-! ## Literals -/

theorem toNat_lt (c : Char) : c.toNat < 0x110000 := by
  have := c.valid
  simp only [UInt32.isValidChar, Nat.isValidChar] at this
  change c.val.toNat < _
  omega

/-- The code point of a character. -/
def codePoint (c : Char) : CodePoint := ⟨c.toNat, toNat_lt c⟩

/-- The text of a literal. -/
def lit (s : String) : Text := s.toList.map fun c => ⟨c.toNat, toNat_lt c⟩

/-! ## Encoding -/

/-- The surrogates, which UTF-8 does not encode. -/
def isSurrogate (c : CodePoint) : Bool := 0xD800 ≤ c.val && c.val < 0xE000

/-- The texts that UTF-8 encodes. -/
def encodable (s : Text) : Bool := s.all fun c => !isSurrogate c

@[simp] theorem encodable_nil : encodable [] = true := rfl

@[simp] theorem encodable_append (s t : Text) :
    encodable (s ++ t) = (encodable s && encodable t) := by
  simp [encodable]

/-- The bytes of one code point. -/
def utf8Char (c : CodePoint) : Bytes :=
  if c.val < 0x80 then [UInt8.ofNat c.val]
  else if c.val < 0x800 then
    [UInt8.ofNat (0xC0 + c.val / 0x40), UInt8.ofNat (0x80 + c.val % 0x40)]
  else if c.val < 0x10000 then
    [UInt8.ofNat (0xE0 + c.val / 0x1000), UInt8.ofNat (0x80 + c.val / 0x40 % 0x40),
      UInt8.ofNat (0x80 + c.val % 0x40)]
  else
    [UInt8.ofNat (0xF0 + c.val / 0x40000), UInt8.ofNat (0x80 + c.val / 0x1000 % 0x40),
      UInt8.ofNat (0x80 + c.val / 0x40 % 0x40), UInt8.ofNat (0x80 + c.val % 0x40)]

/-- The bytes of a text. -/
def utf8 (s : Text) : Bytes := s.flatMap utf8Char

@[simp] theorem utf8_nil : utf8 [] = [] := rfl

@[simp] theorem utf8_append (s t : Text) : utf8 (s ++ t) = utf8 s ++ utf8 t := by
  simp [utf8]

theorem utf8Char_ne_nil (c : CodePoint) : utf8Char c ≠ [] := by
  unfold utf8Char
  split_ifs <;> simp

/-! ## Decoding -/

/-- A continuation byte, `10xxxxxx`. -/
def isCont (b : UInt8) : Bool := 0x80 ≤ b.toNat && b.toNat < 0xC0

/-- The code point of a number, where it is one that UTF-8 encodes and is at least `least` (a
smaller one has a shorter form). -/
def scalar (least n : ℕ) : Option CodePoint :=
  if h : n < 0x110000 then
    if least ≤ n ∧ isSurrogate ⟨n, h⟩ = false then some ⟨n, h⟩ else none
  else none

/-- The first code point of a byte string, and the bytes behind it. -/
def decodeChar : Bytes → Option (CodePoint × Bytes)
  | [] => none
  | b0 :: bs =>
    if b0.toNat < 0x80 then (scalar 0 b0.toNat).map (·, bs)
    else if b0.toNat < 0xC0 then none
    else if b0.toNat < 0xE0 then
      match bs with
      | b1 :: bs =>
        if isCont b1 then
          (scalar 0x80 ((b0.toNat - 0xC0) * 0x40 + (b1.toNat - 0x80))).map (·, bs)
        else none
      | _ => none
    else if b0.toNat < 0xF0 then
      match bs with
      | b1 :: b2 :: bs =>
        if isCont b1 && isCont b2 then
          (scalar 0x800 ((b0.toNat - 0xE0) * 0x1000 + (b1.toNat - 0x80) * 0x40
            + (b2.toNat - 0x80))).map (·, bs)
        else none
      | _ => none
    else if b0.toNat < 0xF8 then
      match bs with
      | b1 :: b2 :: b3 :: bs =>
        if isCont b1 && isCont b2 && isCont b3 then
          (scalar 0x10000 ((b0.toNat - 0xF0) * 0x40000 + (b1.toNat - 0x80) * 0x1000
            + (b2.toNat - 0x80) * 0x40 + (b3.toNat - 0x80))).map (·, bs)
        else none
      | _ => none
    else none

/-- At most `n` code points of a byte string; `none` if it is malformed or longer. -/
def decodeUpTo : ℕ → Bytes → Option Text
  | _, [] => some []
  | 0, _ => none
  | n + 1, bs => (decodeChar bs).bind fun r => (decodeUpTo n r.2).map (r.1 :: ·)

/-- The strict UTF-8 decoder. -/
def utf8Decode (bs : Bytes) : Option Text := decodeUpTo bs.length bs

theorem scalar_eq {c : CodePoint} {least n : ℕ} (hn : n = c.val) (hl : least ≤ c.val)
    (hs : isSurrogate c = false) : scalar least n = some c := by
  subst hn
  simp [scalar, c.isLt, hl, hs]

theorem toNat_ofNat {n : ℕ} (h : n < 256) : (UInt8.ofNat n).toNat = n := by
  simp [UInt8.toNat_ofNat', Nat.mod_eq_of_lt h]

/-- **One code point.**  The decoder reads back an encodable code point and stops behind it. -/
theorem decodeChar_utf8Char (c : CodePoint) (hs : isSurrogate c = false) (bs : Bytes) :
    decodeChar (utf8Char c ++ bs) = some (c, bs) := by
  have hc := c.isLt
  have cont : ∀ n, n < 0x40 → isCont (UInt8.ofNat (0x80 + n)) = true := fun n hn => by
    simp only [isCont, toNat_ofNat (show 0x80 + n < 256 by omega), Bool.and_eq_true,
      decide_eq_true_eq]
    omega
  unfold utf8Char
  split_ifs with h1 h2 h3
  · have e0 := toNat_ofNat (n := c.val) (by omega)
    simp only [List.cons_append, List.nil_append, decodeChar, e0, if_pos h1]
    rw [scalar_eq rfl (Nat.zero_le _) hs]
    rfl
  · have e0 := toNat_ofNat (n := 0xC0 + c.val / 0x40) (by omega)
    have e1 := toNat_ofNat (n := 0x80 + c.val % 0x40) (by omega)
    simp only [List.cons_append, List.nil_append, decodeChar, e0, e1]
    rw [if_neg (by omega), if_neg (by omega), if_pos (by omega), cont _ (by omega), if_pos rfl,
      scalar_eq (c := c) (by omega) (by omega) hs]
    rfl
  · have e0 := toNat_ofNat (n := 0xE0 + c.val / 0x1000) (by omega)
    have e1 := toNat_ofNat (n := 0x80 + c.val / 0x40 % 0x40) (by omega)
    have e2 := toNat_ofNat (n := 0x80 + c.val % 0x40) (by omega)
    simp only [List.cons_append, List.nil_append, decodeChar, e0, e1, e2]
    rw [if_neg (by omega), if_neg (by omega), if_neg (by omega), if_pos (by omega),
      cont _ (by omega), cont _ (by omega), if_pos (by decide),
      scalar_eq (c := c) (by omega) (by omega) hs]
    rfl
  · have e0 := toNat_ofNat (n := 0xF0 + c.val / 0x40000) (by omega)
    have e1 := toNat_ofNat (n := 0x80 + c.val / 0x1000 % 0x40) (by omega)
    have e2 := toNat_ofNat (n := 0x80 + c.val / 0x40 % 0x40) (by omega)
    have e3 := toNat_ofNat (n := 0x80 + c.val % 0x40) (by omega)
    simp only [List.cons_append, List.nil_append, decodeChar, e0, e1, e2, e3]
    rw [if_neg (by omega), if_neg (by omega), if_neg (by omega), if_neg (by omega),
      if_pos (by omega), cont _ (by omega), cont _ (by omega), cont _ (by omega),
      if_pos (by decide),
      scalar_eq (c := c) (by omega) (by omega) hs]
    rfl

theorem utf8Char_length_pos (c : CodePoint) : 0 < (utf8Char c).length :=
  List.length_pos_iff.2 (utf8Char_ne_nil c)

theorem decodeUpTo_utf8 (s : Text) (hs : encodable s = true) :
    ∀ n, (utf8 s).length ≤ n → decodeUpTo n (utf8 s) = some s := by
  induction s with
  | nil => intro n _; cases n <;> rfl
  | cons c s ih =>
    intro n hn
    simp only [encodable, List.all_cons, Bool.and_eq_true, Bool.not_eq_true'] at hs
    have hlen := utf8Char_length_pos c
    have hcons : utf8 (c :: s) = utf8Char c ++ utf8 s := rfl
    rw [hcons, List.length_append] at hn
    obtain ⟨n, rfl⟩ : ∃ m, n = m + 1 := ⟨n - 1, by omega⟩
    obtain ⟨b, bs, hb⟩ := List.exists_cons_of_ne_nil (utf8Char_ne_nil c)
    have hstep : decodeUpTo (n + 1) (utf8 (c :: s)) =
        (decodeChar (utf8Char c ++ utf8 s)).bind fun r => (decodeUpTo n r.2).map (r.1 :: ·) := by
      rw [hcons, hb]; rfl
    rw [hstep, decodeChar_utf8Char c hs.1, Option.bind_some,
      ih (by simpa [encodable] using hs.2) n (by omega)]
    rfl

/-- **Round trip.**  Decoding the bytes of an encodable text gives the text. -/
theorem utf8Decode_utf8 (s : Text) (hs : encodable s = true) : utf8Decode (utf8 s) = some s :=
  decodeUpTo_utf8 s hs _ (Nat.le_refl _)

/-! ## What decodes -/

theorem scalar_some {least n : ℕ} {c : CodePoint} (h : scalar least n = some c) :
    c.val = n ∧ least ≤ n ∧ isSurrogate c = false := by
  unfold scalar at h
  split_ifs at h with hn hc
  cases h
  exact ⟨rfl, hc⟩

theorem isCont_iff {b : UInt8} : isCont b = true ↔ 0x80 ≤ b.toNat ∧ b.toNat < 0xC0 := by
  simp [isCont]

theorem ofNat_eq {b : UInt8} {n : ℕ} (h : n = b.toNat) : UInt8.ofNat n = b := by
  rw [h]
  exact UInt8.ofNat_toNat

/-- **One code point, back.**  What the decoder reads is the encoding of what it gives. -/
theorem decodeChar_some {bs rest : Bytes} {c : CodePoint} (h : decodeChar bs = some (c, rest)) :
    bs = utf8Char c ++ rest ∧ isSurrogate c = false := by
  unfold decodeChar at h
  split at h
  · cases h
  rename_i b0 bs
  split_ifs at h with h1 h2 h3 h4 h5
  · obtain ⟨d, hd, he⟩ := Option.map_eq_some_iff.1 h
    cases he
    obtain ⟨hv, -, hs⟩ := scalar_some hd
    refine ⟨?_, hs⟩
    unfold utf8Char
    rw [if_pos (by omega), ofNat_eq hv]
    rfl
  · split at h
    · rename_i b1 bs
      split_ifs at h with hc1
      obtain ⟨d, hd, he⟩ := Option.map_eq_some_iff.1 h
      cases he
      obtain ⟨hv, hl, hs⟩ := scalar_some hd
      rw [isCont_iff] at hc1
      refine ⟨?_, hs⟩
      unfold utf8Char
      rw [if_neg (by omega), if_pos (by omega), ofNat_eq (b := b0) (by omega),
        ofNat_eq (b := b1) (by omega)]
      rfl
    · cases h
  · split at h
    · rename_i b1 b2 bs
      split_ifs at h with hc
      obtain ⟨hc1, hc2⟩ := Bool.and_eq_true_iff.1 hc
      obtain ⟨d, hd, he⟩ := Option.map_eq_some_iff.1 h
      cases he
      obtain ⟨hv, hl, hs⟩ := scalar_some hd
      rw [isCont_iff] at hc1 hc2
      refine ⟨?_, hs⟩
      unfold utf8Char
      rw [if_neg (by omega), if_neg (by omega), if_pos (by omega), ofNat_eq (b := b0) (by omega),
        ofNat_eq (b := b1) (by omega), ofNat_eq (b := b2) (by omega)]
      rfl
    · cases h
  · split at h
    · rename_i b1 b2 b3 bs
      split_ifs at h with hc
      obtain ⟨hc12, hc3⟩ := Bool.and_eq_true_iff.1 hc
      obtain ⟨hc1, hc2⟩ := Bool.and_eq_true_iff.1 hc12
      obtain ⟨d, hd, he⟩ := Option.map_eq_some_iff.1 h
      cases he
      obtain ⟨hv, hl, hs⟩ := scalar_some hd
      rw [isCont_iff] at hc1 hc2 hc3
      refine ⟨?_, hs⟩
      unfold utf8Char
      rw [if_neg (by omega), if_neg (by omega), if_neg (by omega), ofNat_eq (b := b0) (by omega),
        ofNat_eq (b := b1) (by omega), ofNat_eq (b := b2) (by omega), ofNat_eq (b := b3) (by omega)]
      rfl
    · cases h

theorem decodeUpTo_some {n : ℕ} {bs : Bytes} {s : Text} (h : decodeUpTo n bs = some s) :
    bs = utf8 s ∧ encodable s = true := by
  induction n generalizing bs s with
  | zero =>
    cases bs with
    | nil =>
      cases h
      exact ⟨rfl, rfl⟩
    | cons => cases h
  | succ n ih =>
    cases bs with
    | nil =>
      cases h
      exact ⟨rfl, rfl⟩
    | cons b bs =>
      obtain ⟨⟨c, rest⟩, hc, h⟩ := Option.bind_eq_some_iff.1 h
      obtain ⟨r, hr, rfl⟩ := Option.map_eq_some_iff.1 h
      obtain ⟨hbs, hs⟩ := decodeChar_some hc
      obtain ⟨hrest, henc⟩ := ih hr
      have hrest : rest = utf8 r := hrest
      rw [hbs, hrest]
      exact ⟨rfl, by simpa [encodable, hs] using henc⟩

/-- **The encoding is canonical.**  Bytes that decode are the encoding of what they decode to. -/
theorem utf8Decode_eq_some {bs : Bytes} {s : Text} :
    utf8Decode bs = some s ↔ bs = utf8 s ∧ encodable s = true := by
  constructor
  · exact decodeUpTo_some
  · rintro ⟨rfl, hs⟩
    exact utf8Decode_utf8 s hs

/-- A code point below `0x80` is a byte of its own, and no other one ends in such a byte. -/
theorem utf8Char_getLast {c a : CodePoint} (ha : a.val < 0x80) :
    (utf8Char c).getLast? = some (UInt8.ofNat a.val) ↔ c = a := by
  have hbyte : ∀ n, n < 256 → (UInt8.ofNat n = UInt8.ofNat a.val ↔ n = a.val) := fun n hn => by
    rw [← UInt8.toNat_inj, toNat_ofNat hn, toNat_ofNat (by omega)]
  have hlast : ∀ n, n < 0x40 → ¬ c.val < 0x80 →
      (some (UInt8.ofNat (0x80 + n)) = some (UInt8.ofNat a.val) ↔ c = a) := fun n hn hc => by
    rw [Option.some.injEq, hbyte _ (by omega), Fin.ext_iff]
    omega
  unfold utf8Char
  split_ifs with h1 h2 h3
  · rw [List.getLast?_singleton, Option.some.injEq, hbyte _ (by omega), Fin.ext_iff]
  · exact hlast _ (by omega) h1
  · exact hlast _ (by omega) h1
  · exact hlast _ (by omega) h1

theorem utf8_getLast {s : Text} {a : CodePoint} (ha : a.val < 0x80) :
    (utf8 s).getLast? = some (UInt8.ofNat a.val) ↔ s.getLast? = some a := by
  rcases List.eq_nil_or_concat s with rfl | ⟨s, c, rfl⟩
  · simp
  · have hc : utf8 [c] = utf8Char c := by simp [utf8]
    have hne : (utf8Char c).getLast? ≠ none := by simp [utf8Char_ne_nil]
    rw [List.concat_eq_append, utf8_append, hc, List.getLast?_append, List.getLast?_concat,
      Option.some.injEq, ← utf8Char_getLast ha]
    cases hl : (utf8Char c).getLast? with
    | none => exact absurd hl hne
    | some b => rfl

end DistRes.Lib
