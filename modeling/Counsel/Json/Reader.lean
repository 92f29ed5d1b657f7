/-
Reading JSON documents. The grammar is the strict one: no leading zeros, no trailing commas, no raw
control characters in strings, and nothing but white space around the document.
-/
import Counsel.Json.Basic

namespace Counsel.Json

/-- The rest of a text after white space. -/
def skipSpace (s : List Char) : List Char :=
  s.dropWhile fun c => c == ' ' || c == '\t' || c == '\n' || c == '\r'

/-! ## Strings -/

/-- The value of a hexadecimal digit. -/
def hexDigit? (c : Char) : Option Nat :=
  if '0' ≤ c && c ≤ '9' then some (c.toNat - 48)
  else if 'a' ≤ c && c ≤ 'f' then some (c.toNat - 87)
  else if 'A' ≤ c && c ≤ 'F' then some (c.toNat - 55)
  else none

/-- The characters spelled by code units, of which those of a surrogate pair count as one. -/
def spell? : List Nat → Option (List Char)
  | [] => some []
  | u :: rest =>
    if 0xD800 ≤ u && u ≤ 0xDBFF then
      match rest with
      | v :: rest =>
        if 0xDC00 ≤ v && v ≤ 0xDFFF then
          (spell? rest).map (Char.ofNat (0x10000 + (u - 0xD800) * 0x400 + (v - 0xDC00)) :: ·)
        else none
      | [] => none
    else if 0xDC00 ≤ u && u ≤ 0xDFFF then none
    else (spell? rest).map (Char.ofNat u :: ·)

/-- The character of an escape with one letter. -/
def shortEscape? : Char → Option Char
  | '"' => some '"'
  | '\\' => some '\\'
  | '/' => some '/'
  | 'b' => some '\x08'
  | 'f' => some '\x0c'
  | 'n' => some '\n'
  | 'r' => some '\r'
  | 't' => some '\t'
  | _ => none

/-- The code units of a string after its opening quote, and the rest after the closing one. -/
def units? : List Char → Option (List Nat × List Char)
  | [] => none
  | '"' :: rest => some ([], rest)
  | '\\' :: 'u' :: a :: b :: c :: d :: rest => do
    let unit := ((← hexDigit? a) * 16 + (← hexDigit? b)) * 256 +
      (← hexDigit? c) * 16 + (← hexDigit? d)
    let (more, rest) ← units? rest
    some (unit :: more, rest)
  | '\\' :: e :: rest => do
    let c ← shortEscape? e
    let (more, rest) ← units? rest
    some (c.toNat :: more, rest)
  | c :: rest =>
    if c.toNat < 0x20 then none
    else do
      let (more, rest) ← units? rest
      some (c.toNat :: more, rest)

/-- A string after its opening quote. -/
def text? (s : List Char) : Option (Option String × List Char) :=
  (units? s).map fun (units, rest) => ((spell? units).map String.ofList, rest)

/-! ## Numbers -/

/-- The value of decimal digits. -/
def digitsValue (digits : List Char) : Nat :=
  digits.foldl (fun n c => n * 10 + (c.toNat - 48)) 0

/-- The digits at the front of a text, and the rest. -/
def digits (s : List Char) : List Char × List Char :=
  (s.takeWhile Char.isDigit, s.dropWhile Char.isDigit)

/-- An exponent part, if one begins here: its value, and the rest. -/
def exponent? (s : List Char) : Option (Option Int × List Char) :=
  match s with
  | c :: rest =>
    if c == 'e' || c == 'E' then
      let (negative, rest) := match rest with
        | '-' :: rest => (true, rest)
        | '+' :: rest => (false, rest)
        | rest => (false, rest)
      match digits rest with
      | ([], _) => none
      | (ds, rest) =>
        let n : Int := digitsValue ds
        some (some (if negative then -n else n), rest)
    else some (none, s)
  | [] => some (none, s)

/-- A number literal and the rest. -/
def literal? (s : List Char) : Option (Literal × List Char) := do
  let (negative, s) := match s with
    | '-' :: rest => (true, rest)
    | s => (false, s)
  let (whole, s) := digits s
  match whole with
  | [] => none
  | '0' :: _ :: _ => none
  | _ =>
    let (fraction, s) ← match s with
      | '.' :: rest =>
        match digits rest with
        | ([], _) => none
        | (ds, rest) => some (some ds, rest)
      | s => some (none, s)
    let (power, s) ← exponent? s
    let decimals := fraction.getD []
    some (⟨negative, digitsValue (whole ++ decimals), power.getD 0 - decimals.length,
      fraction.isNone && power.isNone⟩, s)

/-! ## Documents -/

/-- The rest of a text after a word. -/
def word? (word s : List Char) : Option (List Char) :=
  if word.isPrefixOf s then some (s.drop word.length) else none

mutual

/-- A document at the front of a text, and the rest; `fuel` bounds the steps. -/
def value? : Nat → List Char → Option (Json × List Char)
  | 0, _ => none
  | fuel + 1, s =>
    match skipSpace s with
    | '"' :: rest => (text? rest).map fun (t, rest) => (.string t, rest)
    | '[' :: rest =>
      match skipSpace rest with
      | ']' :: rest => some (.array [], rest)
      | rest => (items? fuel rest).map fun (items, rest) => (.array items, rest)
    | '{' :: rest =>
      match skipSpace rest with
      | '}' :: rest => some (.object [], rest)
      | rest => (members? fuel rest).map fun (members, rest) => (.object members, rest)
    | 'n' :: rest => (word? ['u', 'l', 'l'] rest).map fun rest => (.null, rest)
    | 't' :: rest => (word? ['r', 'u', 'e'] rest).map fun rest => (.bool true, rest)
    | 'f' :: rest => (word? ['a', 'l', 's', 'e'] rest).map fun rest => (.bool false, rest)
    | rest => (literal? rest).map fun (l, rest) => (.number l, rest)

/-- The items of an array from the first of them to the closing bracket. -/
def items? : Nat → List Char → Option (List Json × List Char)
  | 0, _ => none
  | fuel + 1, s => do
    let (item, rest) ← value? fuel s
    match skipSpace rest with
    | ',' :: rest =>
      let (more, rest) ← items? fuel rest
      some (item :: more, rest)
    | ']' :: rest => some ([item], rest)
    | _ => none

/-- The members of an object from the first of them to the closing brace. -/
def members? : Nat → List Char → Option (List (Option String × Json) × List Char)
  | 0, _ => none
  | fuel + 1, s =>
    match skipSpace s with
    | '"' :: rest => do
      let (name, rest) ← text? rest
      match skipSpace rest with
      | ':' :: rest =>
        let (value, rest) ← value? fuel rest
        match skipSpace rest with
        | ',' :: rest =>
          let (more, rest) ← members? fuel rest
          some ((name, value) :: more, rest)
        | '}' :: rest => some ([(name, value)], rest)
        | _ => none
      | _ => none
    | _ => none

end

/-- The document that a text is, if it is one. -/
def read? (text : String) : Option Json :=
  match value? (2 * text.length + 2) text.toList with
  | some (json, rest) => if (skipSpace rest).isEmpty then some json else none
  | none => none

end Counsel.Json
