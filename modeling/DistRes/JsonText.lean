import DistRes.Lib.Scanner
import DistRes.Surrogates

/-!
# `json.dumps` and `json.loads`

The JSON texts that `encode` writes and `read_message` reads, by Python's `json` module with its
defaults: `dumps` escapes all that is not printable ASCII and leaves a blank behind `,` and `:`;
`loads` reads JSON, the three words for the special floats, and nothing behind the value but blanks.

What the interpreter adds is in `Interpreter`: how deeply containers may be nested where the one or the
other is called, how many digits an integer may have, and `float` on a numeral.
-/

namespace DistRes

open Lib

/-! ## Code points -/

def quote : CodePoint := ⟨0x22, by decide⟩
def backslash : CodePoint := ⟨0x5C, by decide⟩
def minus : CodePoint := ⟨0x2D, by decide⟩
def dot : CodePoint := ⟨0x2E, by decide⟩
def letterU : CodePoint := ⟨0x75, by decide⟩
def comma : CodePoint := ⟨0x2C, by decide⟩
def colon : CodePoint := ⟨0x3A, by decide⟩
def openBracket : CodePoint := ⟨0x5B, by decide⟩
def closeBracket : CodePoint := ⟨0x5D, by decide⟩
def openBrace : CodePoint := ⟨0x7B, by decide⟩
def closeBrace : CodePoint := ⟨0x7D, by decide⟩

/-- A blank, a tab or the end of a line. -/
def isBlank (c : CodePoint) : Bool := c.val = 0x20 || c.val = 9 || c.val = 10 || c.val = 13

def isDigit (c : CodePoint) : Bool := 0x30 ≤ c.val && c.val ≤ 0x39

/-! ## Writing strings -/

def hexDigit (n : ℕ) : CodePoint := if n < 10 then chr (0x30 + n) else chr (0x57 + n)

/-- The four hexadecimal digits of a UTF-16 unit. -/
def hex4 (n : ℕ) : Text :=
  [hexDigit (n / 0x1000), hexDigit (n / 0x100 % 0x10), hexDigit (n / 0x10 % 0x10), hexDigit (n % 0x10)]

/-- The escape of a UTF-16 unit. -/
def unitEscape (n : ℕ) : Text := backslash :: letterU :: hex4 n

/-- The short escapes: the letter behind the backslash, and the code point that it stands for. -/
def shortEscapes : List (ℕ × ℕ) :=
  [(0x22, 0x22), (0x5C, 0x5C), (0x2F, 0x2F), (0x62, 8), (0x66, 12), (0x6E, 10), (0x72, 13), (0x74, 9)]

/-- A code point in a dumped string.  The slash has a short escape, which is not used. -/
def escapeChar (c : CodePoint) : Text :=
  if c.val = 0x2F then [c]
  else
    match shortEscapes.find? fun e => e.2 = c.val with
    | some e => [backslash, chr e.1]
    | none =>
      if 0x20 ≤ c.val ∧ c.val ≤ 0x7E then [c]
      else if c.val < 0x10000 then unitEscape c.val
      else unitEscape (0xD800 + (c.val - 0x10000) / 0x400) ++ unitEscape (0xDC00 + (c.val - 0x10000) % 0x400)

/-- A dumped string. -/
def dumpString (s : Text) : Text := quote :: (s.flatMap escapeChar ++ [quote])

/-! ## The interpreter -/

/-- What the interpreter adds to the format: its limits, and `float(numeral)` as a `repr` with the
integer that it is equal to, if there is one. -/
structure Interpreter where
  /-- how deeply `loads` goes before it raises `RecursionError` -/
  maxDepth : ℕ
  /-- how deeply `dumps` goes -/
  dumpDepth : ℕ
  maxDigits : ℕ
  float : Text → Text × Option ℤ

variable (I : Interpreter)

/-! ## Writing values -/

/-- A float: its `repr`, but for the special ones. -/
def dumpFloat (repr : Text) : Text :=
  if repr = lit "nan" then lit "NaN"
  else if repr = lit "inf" then lit "Infinity"
  else if repr = lit "-inf" then lit "-Infinity"
  else repr

mutual

/-- The text of a value. -/
def dumpText : Json → Text
  | .null => lit "null"
  | .bool true => lit "true"
  | .bool false => lit "false"
  | .int n => lit (toString n)
  | .float r _ => dumpFloat r
  | .str s => dumpString s
  | .arr xs => openBracket :: (dumpItems xs ++ [closeBracket])
  | .obj fields => openBrace :: (dumpFields fields ++ [closeBrace])

def dumpItems : List Json → Text
  | [] => []
  | [x] => dumpText x
  | x :: xs => dumpText x ++ lit ", " ++ dumpItems xs

def dumpFields : List (Text × Json) → Text
  | [] => []
  | [(k, x)] => dumpString k ++ lit ": " ++ dumpText x
  | (k, x) :: fields => dumpString k ++ lit ": " ++ dumpText x ++ lit ", " ++ dumpFields fields

end

/-- No integer of the value has more digits than the interpreter converts. -/
def Json.short : Json → Bool :=
  Json.all fun
    | .int n => (Nat.toDigits 10 n.natAbs).length ≤ I.maxDigits
    | _ => true

/-- `json.dumps`; `none` if it raises, `RecursionError` for a value that is nested too deeply and
`ValueError` for an integer that is too long. -/
def dumps (x : Json) : Option Text :=
  if x.within I.dumpDepth ∧ x.short I then some (dumpText x) else none

/-! ## Reading strings -/

/-- A piece of a JSON string: a code point, written as itself or by a short escape, or a UTF-16 unit. -/
inductive StringPiece
  | plain (c : CodePoint)
  | unit (n : ℕ)

def hexValue (c : CodePoint) : Option ℕ :=
  if isDigit c then some (c.val - 0x30)
  else if 0x41 ≤ c.val ∧ c.val ≤ 0x46 then some (c.val - 0x37)
  else if 0x61 ≤ c.val ∧ c.val ≤ 0x66 then some (c.val - 0x57)
  else none

/-- Four hexadecimal digits. -/
def scanHex4 : Scanner CodePoint ℕ
  | a :: b :: c :: d :: s => do
    let a ← hexValue a
    let b ← hexValue b
    let c ← hexValue c
    let d ← hexValue d
    return (0x1000 * a + 0x100 * b + 0x10 * c + d, s)
  | _ => none

/-- What stands behind a backslash. -/
def scanEscape : Scanner CodePoint StringPiece
  | [] => none
  | e :: s =>
    if e = letterU then (scanHex4 s).map fun r => (.unit r.1, r.2)
    else (shortEscapes.find? fun x => x.1 = e.val).map fun x => (.plain (chr x.2), s)

/-- One piece of a string.  Control characters are refused. -/
def scanPiece : Scanner CodePoint StringPiece
  | [] => none
  | c :: s =>
    if c = backslash then scanEscape s
    else if c.val < 0x20 then none
    else some (.plain c, s)

/-- The text of the pieces: an escaped high surrogate and an escaped low one behind it are one code
point. -/
def joinPieces : List StringPiece → Text
  | [] => []
  | .plain c :: ps => c :: joinPieces ps
  | .unit m :: .unit n :: ps =>
    if isHigh m ∧ isLow n then joinedChar m n :: joinPieces ps
    else chr m :: joinPieces (.unit n :: ps)
  | .unit m :: ps => chr m :: joinPieces ps

/-- A string, from behind its opening quote. -/
def scanString : Scanner CodePoint Text := fun s =>
  (manyTill scanPiece quote s.length s).map fun r => (joinPieces r.1, r.2)

/-! ## Reading numbers -/

/-- The parts of a numeral, as they are written. -/
structure Numeral where
  sign : Text := []
  int : Text
  frac : Text := []
  exp : Text := []

def Numeral.text (n : Numeral) : Text := n.sign ++ n.int ++ n.frac ++ n.exp

def Numeral.isFloat (n : Numeral) : Bool := n.frac ≠ [] || n.exp ≠ []

/-- A minus sign, if there is one. -/
def scanMinus : Text → Text × Text
  | [] => ([], [])
  | c :: s => if c = minus then ([c], s) else ([], c :: s)

/-- A zero, or digits without a zero in front. -/
def scanInt : Scanner CodePoint Text
  | [] => none
  | c :: s =>
    if c.val = 0x30 then some ([c], s)
    else if isDigit c then some (c :: s.takeWhile isDigit, s.dropWhile isDigit)
    else none

/-- A dot with digits behind it, if there is one. -/
def scanFrac : Text → Text × Text
  | [] => ([], [])
  | c :: s =>
    if c = dot ∧ s.takeWhile isDigit ≠ [] then (c :: s.takeWhile isDigit, s.dropWhile isDigit)
    else ([], c :: s)

/-- The sign of an exponent, if there is one. -/
def scanSign : Text → Text × Text
  | [] => ([], [])
  | c :: s => if c.val = 0x2B ∨ c = minus then ([c], s) else ([], c :: s)

/-- An exponent with digits, if there is one. -/
def scanExp : Text → Text × Text
  | [] => ([], [])
  | c :: s =>
    if (c.val = 0x65 ∨ c.val = 0x45) ∧ (scanSign s).2.takeWhile isDigit ≠ [] then
      (c :: (scanSign s).1 ++ (scanSign s).2.takeWhile isDigit, (scanSign s).2.dropWhile isDigit)
    else ([], c :: s)

def scanNumeral : Scanner CodePoint Numeral := fun s =>
  (scanInt (scanMinus s).2).map fun r =>
    (⟨(scanMinus s).1, r.1, (scanFrac r.2).1, (scanExp (scanFrac r.2).2).1⟩, (scanExp (scanFrac r.2).2).2)

/-- The number that digits stand for. -/
def digitsValue (ds : Text) : ℕ := ds.foldl (fun n c => 10 * n + (c.val - 0x30)) 0

/-! ## Reading values -/

def Numeral.value (n : Numeral) : Option Json :=
  if n.isFloat then some (.float (I.float n.text).1 (I.float n.text).2)
  else if n.int.length ≤ I.maxDigits then
    some (.int (if n.sign = [] then (digitsValue n.int : ℤ) else -(digitsValue n.int : ℤ)))
  else none

/-- The words that are values. -/
def jsonWords : List (Text × Json) :=
  [(lit "null", .null), (lit "true", .bool true), (lit "false", .bool false),
    (lit "NaN", .float (lit "nan") none), (lit "Infinity", .float (lit "inf") none),
    (lit "-Infinity", .float (lit "-inf") none)]

/-- A value that is no container. -/
def scanScalar : Scanner CodePoint Json := fun s =>
  match s with
  | [] => none
  | c :: s' =>
    if c = quote then (scanString s').map fun r => (.str r.1, r.2)
    else
      match jsonWords.findSome? fun w => word w.1 w.2 s with
      | some r => some r
      | none => (scanNumeral s).bind fun r => (r.1.value I).map fun x => (x, r.2)

def arrayBrackets : Brackets CodePoint :=
  ⟨comma, closeBracket, isBlank, by decide, by decide, by decide⟩

def objectBrackets : Brackets CodePoint :=
  ⟨comma, closeBrace, isBlank, by decide, by decide, by decide⟩

/-- A key and its value. -/
def scanMember (p : Scanner CodePoint Json) : Scanner CodePoint (Text × Json)
  | [] => none
  | c :: s =>
    if c = quote then
      (scanString s).bind fun k =>
        match k.2.dropWhile isBlank with
        | [] => none
        | d :: s =>
          if d = colon then (p (s.dropWhile isBlank)).map fun r => ((k.1, r.1), r.2) else none
    else none

/-- A value with containers nested to the given depth at most; of a key that comes twice, the last
value counts. -/
def scanValue : ℕ → Scanner CodePoint Json
  | 0, s => scanScalar I s
  | _ + 1, [] => none
  | d + 1, c :: s =>
    if c = openBracket then (block arrayBrackets (scanValue d) s).map fun r => (.arr r.1, r.2)
    else if c = openBrace then
      (block objectBrackets (scanMember (scanValue d)) s).map fun r => (.obj (mergeFields [] r.1), r.2)
    else scanScalar I (c :: s)

/-- `json.loads`; `none` if it raises. -/
def loads (t : Text) : Option Json :=
  (scanValue I I.maxDepth (t.dropWhile isBlank)).bind fun r =>
    if r.2.dropWhile isBlank = [] then some r.1 else none

end DistRes
