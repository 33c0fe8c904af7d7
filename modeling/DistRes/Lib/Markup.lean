import DistRes.Lib.Utf8

/-!
# Reading markup

A reader of hypertext fragments: tags, character references and text.  It is the part of a browser's
tokenizer that fragments without comments, declarations and raw-text elements reach, and what the tree
builder keeps of its characters inside a body; which character references there are is a parameter.

* `Reads ref s ts` — the text `s` is read as the tokens `ts`, whatever stands behind it;
* `Reads.append`, `Reads.flatten` — fragments compose;
* `reads_tag`, `reads_reference`, `reads_text` — the pieces of a template;
* `reads_escape` — an escaped text is read as its own characters but U+0000, and as no tag.
-/

namespace DistRes.Lib

/-! ## Tokens -/

/-- A tag, as it is written between the angle brackets, or a character of text. -/
inductive Token
  | tag (raw : Text)
  | char (c : CodePoint)
  deriving DecidableEq

def lessThan : CodePoint := codePoint '<'
def greaterThan : CodePoint := codePoint '>'
def ampersand : CodePoint := codePoint '&'
def quotationMark : CodePoint := codePoint '"'
def apostrophe : CodePoint := codePoint '\''
def solidus : CodePoint := codePoint '/'

/-- An ASCII letter. -/
def isLetter (c : CodePoint) : Bool := (0x41 ≤ c.val && c.val ≤ 0x5A) || (0x61 ≤ c.val && c.val ≤ 0x7A)

/-- What stands behind a `<` makes it the start of a tag. -/
def opensTag : Text → Bool
  | [] => false
  | c :: s => isLetter c || c = solidus && s.head?.any isLetter

/-- The characters of a text. -/
def chars (s : Text) : List Token := s.map .char

/-- U+0000. -/
def isNul (c : CodePoint) : Bool := c.val = 0

/-- A text without its U+0000. -/
def dropNul (s : Text) : Text := s.filter fun c => !isNul c

/-- Where the reader is: in text, with some characters of a reference to pass over, or in a tag, of
which it has read `raw`, backwards, inside the quotes `quote` or outside any. -/
inductive Reading
  | text (skip : ℕ)
  | tag (raw : Text) (quote : Option CodePoint)

/-- What a character inside a tag does to the quotes. -/
def nextQuote : Option CodePoint → CodePoint → Option CodePoint
  | none, c => if c = quotationMark ∨ c = apostrophe then some c else none
  | some q, c => if c = q then none else some q

/-- The character references: what the text behind an ampersand stands for, and how many of its
characters this takes. -/
abbrev References := Text → Option (Text × ℕ)

/-- The tokens of a fragment. -/
def tokens (ref : References) : Reading → Text → List Token
  | _, [] => []
  | .text (n + 1), _ :: s => tokens ref (.text n) s
  | .text 0, c :: s =>
    if c = lessThan ∧ opensTag s = true then tokens ref (.tag [] none) s
    else if c = ampersand then
      match ref s with
      | some (cs, n) => chars cs ++ tokens ref (.text n) s
      | none => .char c :: tokens ref (.text 0) s
    -- ignored in a body
    else if isNul c = true then tokens ref (.text 0) s
    else .char c :: tokens ref (.text 0) s
  | .tag raw quote, c :: s =>
    if c = greaterThan ∧ quote = none then .tag raw.reverse :: tokens ref (.text 0) s
    else tokens ref (.tag (c :: raw) (nextQuote quote c)) s

/-! ## Fragments -/

variable {ref : References} {s t : Text} {ts us : List Token}

/-- The text is read as the tokens, whatever stands behind it. -/
def Reads (ref : References) (s : Text) (ts : List Token) : Prop :=
  ∀ rest, tokens ref (.text 0) (s ++ rest) = ts ++ tokens ref (.text 0) rest

theorem Reads.tokens (h : Reads ref s ts) : tokens ref (.text 0) s = ts := by
  have := h []
  rwa [List.append_nil, show Lib.tokens ref (.text 0) [] = [] from rfl, List.append_nil] at this

theorem Reads.nil : Reads ref [] [] := fun _ => rfl

theorem Reads.append (hs : Reads ref s ts) (ht : Reads ref t us) : Reads ref (s ++ t) (ts ++ us) := by
  intro rest
  rw [List.append_assoc, hs, ht, List.append_assoc]

theorem Reads.flatten {ss : List Text} {tss : List (List Token)} (h : List.Forall₂ (Reads ref) ss tss) :
    Reads ref ss.flatten tss.flatten := by
  induction h with
  | nil => exact .nil
  | cons hs _ ih => exact hs.append ih

theorem reads_char {c : CodePoint} (hlt : c ≠ lessThan) (hamp : c ≠ ampersand) :
    Reads ref [c] (chars (dropNul [c])) := by
  intro rest
  rw [List.singleton_append, Lib.tokens, if_neg fun h => hlt h.1, if_neg hamp, dropNul]
  cases hnul : isNul c with
  | true => rw [if_pos rfl, List.filter_cons_of_neg (by simp [hnul])]; rfl
  | false => rw [if_neg nofun, List.filter_cons_of_pos (by simp [hnul])]; rfl

/-- Text in which no character has a meaning. -/
def isPlain (s : Text) : Bool := s.all fun c => c ≠ lessThan ∧ c ≠ ampersand ∧ isNul c = false

theorem reads_text (h : isPlain s = true) : Reads ref s (chars s) := by
  induction s with
  | nil => exact .nil
  | cons c s ih =>
    obtain ⟨hc, hs⟩ := Bool.and_eq_true_iff.1 h
    obtain ⟨hlt, hamp, hnul⟩ := of_decide_eq_true hc
    have hchar : Reads ref [c] (chars (dropNul [c])) := reads_char hlt hamp
    have hreads := hchar.append (ih hs)
    rwa [dropNul, List.filter_cons_of_pos (by simp [hnul]), List.filter_nil] at hreads

/-! ### Character references -/

/-- The name stands for the text, whatever follows it. -/
def References.Knows (ref : References) (name cs : Text) : Prop :=
  ∀ rest, ref (name ++ rest) = some (cs, name.length)

theorem tokens_skip (rest : Text) : tokens ref (.text s.length) (s ++ rest) = tokens ref (.text 0) rest := by
  induction s with
  | nil => rfl
  | cons c s ih => exact ih

theorem reads_reference {name cs : Text} (h : ref.Knows name cs) :
    Reads ref (ampersand :: name) (chars cs) := by
  intro rest
  rw [List.cons_append, Lib.tokens, if_neg fun h => absurd h.1 (by decide), if_pos rfl, h rest]
  simp only
  rw [tokens_skip]

/-! ### Tags -/

/-- The text stays inside a tag, from the given quotes on, and leaves no quotes open. -/
def staysInTag : Option CodePoint → Text → Bool
  | quote, [] => quote = none
  | quote, c :: s => !(c = greaterThan && quote = none) && staysInTag (nextQuote quote c) s

theorem tokens_tag {raw rest : Text} {quote : Option CodePoint} (h : staysInTag quote s = true) :
    tokens ref (.tag raw quote) (s ++ greaterThan :: rest) =
      .tag (raw.reverse ++ s) :: tokens ref (.text 0) rest := by
  induction s generalizing raw quote with
  | nil =>
    have hq : quote = none := of_decide_eq_true h
    rw [List.nil_append, Lib.tokens, if_pos ⟨rfl, hq⟩, List.append_nil]
  | cons c s ih =>
    simp only [staysInTag, Bool.and_eq_true, Bool.not_eq_true', Bool.and_eq_false_imp, decide_eq_true_eq,
      decide_eq_false_iff_not] at h
    rw [List.cons_append, Lib.tokens, if_neg fun h' => h.1 h'.1 h'.2, ih h.2]
    simp

theorem opensTag_append (h : opensTag s = true) (rest : Text) : opensTag (s ++ rest) = true := by
  match s with
  | [] => cases h
  | [c] =>
    simp only [opensTag, List.head?_nil, Option.any_none, Bool.and_false, Bool.or_false] at h
    simp [opensTag, h]
  | c :: d :: s => exact h

theorem reads_tag (hopen : opensTag s = true) (hstays : staysInTag none s = true) :
    Reads ref (lessThan :: s ++ [greaterThan]) [.tag s] := by
  intro rest
  have hrest : lessThan :: s ++ [greaterThan] ++ rest = lessThan :: (s ++ greaterThan :: rest) := by simp
  rw [hrest, Lib.tokens, if_pos ⟨rfl, opensTag_append hopen _⟩, tokens_tag hstays]
  rfl

/-! ### Escaped text -/

/-- A character that the table has a reference for is written as that. -/
def escapeOne (table : CodePoint → Option Text) (c : CodePoint) : Text :=
  match table c with
  | some name => ampersand :: name
  | none => [c]

def escape (table : CodePoint → Option Text) (s : Text) : Text := s.flatMap (escapeOne table)

@[simp] theorem escape_nil (table : CodePoint → Option Text) : escape table [] = [] := rfl

@[simp] theorem escape_cons (table : CodePoint → Option Text) (c : CodePoint) (s : Text) :
    escape table (c :: s) = escapeOne table c ++ escape table s := rfl

/-- A table that takes the meaning out of every character: it has `<` and `&`, and names each character
by a reference to it. -/
structure Escapes (ref : References) (table : CodePoint → Option Text) : Prop where
  lessThan : table lessThan ≠ none
  ampersand : table ampersand ≠ none
  nul : ∀ c, isNul c = true → table c = none
  knows : ∀ c name, table c = some name → ref.Knows name [c]

/-- **An escaped text is read as itself**, without its U+0000. -/
theorem reads_escape {table : CodePoint → Option Text} (h : Escapes ref table) (s : Text) :
    Reads ref (escape table s) (chars (dropNul s)) := by
  induction s with
  | nil => exact .nil
  | cons c s ih =>
    have hc : Reads ref (escapeOne table c) (chars (dropNul [c])) := by
      unfold escapeOne
      split
      · rename_i name hname
        have hnul : isNul c = false := by
          refine eq_false_of_ne_true fun hnul => ?_
          rw [h.nul c hnul] at hname
          cases hname
        rw [dropNul, List.filter_cons_of_pos (by simp [hnul]), List.filter_nil]
        exact reads_reference (h.knows c name hname)
      · rename_i hnone
        refine reads_char ?_ ?_
        · rintro rfl
          exact h.lessThan hnone
        · rintro rfl
          exact h.ampersand hnone
    have hsplit : dropNul (c :: s) = dropNul [c] ++ dropNul s := List.filter_append [c] s
    rw [hsplit, chars, List.map_append]
    exact hc.append ih

end DistRes.Lib
