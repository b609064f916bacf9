import CurveSearch.Json.Basic

/-!
# Reading JSON

The grammar is the standard one, without any extension: blanks are the space, the tab and the two
line ends, a numeral has no leading zero and digits on both sides of its point, and nothing but
blanks follows the document. Escapes are checked for their form only.
-/

namespace CurveSearch.Json

def isSeparator (c : Char) : Bool := c = ' ' || c = '\t' || c = '\n' || c = '\r'

def skip (cs : List Char) : List Char := cs.dropWhile isSeparator

def after? : (word cs : List Char) → Option (List Char)
  | [], cs => some cs
  | w :: word, c :: cs => if w = c then after? word cs else none
  | _ :: _, [] => none

/-- A string body up to its closing quote, and what follows the quote. -/
def stringBody? : List Char → Option (List Char × List Char)
  | [] => none
  | '"' :: rest => some ([], rest)
  | '\\' :: 'u' :: a :: b :: c :: d :: rest =>
      if [a, b, c, d].all isHexDigit then
        (stringBody? rest).map fun (body, rest) ↦ ('\\' :: 'u' :: a :: b :: c :: d :: body, rest)
      else none
  | '\\' :: e :: rest =>
      if (shortEscape? e).isSome then
        (stringBody? rest).map fun (body, rest) ↦ ('\\' :: e :: body, rest)
      else none
  | c :: rest =>
      if c < ' ' || c = '\\' then none
      else (stringBody? rest).map fun (body, rest) ↦ (c :: body, rest)

def digits? (cs : List Char) : Option (List Char × List Char) :=
  match cs.takeWhile Char.isDigit with
  | [] => none
  | ds => some (ds, cs.dropWhile Char.isDigit)

/-- The digits before the point: a single zero, or a run that starts with another digit. -/
def wholeDigits? (cs : List Char) : Option (List Char × List Char) := do
  let (ds, rest) ← digits? cs
  match ds with
  | '0' :: _ :: _ => none
  | _ => some (ds, rest)

def fractionDigits? : List Char → Option (List Char × List Char)
  | '.' :: rest => digits? rest
  | rest => some ([], rest)

def exponent? : List Char → Option (Option (Bool × List Char) × List Char)
  | [] => some (none, [])
  | c :: rest =>
      if c = 'e' || c = 'E' then do
        let (negative, rest) := match rest with
          | '-' :: rest => (true, rest)
          | '+' :: rest => (false, rest)
          | rest => (false, rest)
        let (ds, rest) ← digits? rest
        some (some (negative, ds), rest)
      else some (none, c :: rest)

def numeral? (cs : List Char) : Option (Numeral × List Char) := do
  let (negative, cs) := match cs with
    | '-' :: cs => (true, cs)
    | cs => (false, cs)
  let (whole, cs) ← wholeDigits? cs
  let (fraction, cs) ← fractionDigits? cs
  let (exponent, cs) ← exponent? cs
  some (⟨negative, whole, fraction, exponent⟩, cs)

def scalar? (cs : List Char) : Option (Json × List Char) :=
  ((after? "null".toList cs).map fun rest ↦ (.null, rest)) <|>
    ((after? "true".toList cs).map fun rest ↦ (.bool true, rest)) <|>
    ((after? "false".toList cs).map fun rest ↦ (.bool false, rest)) <|>
    ((numeral? cs).map fun (n, rest) ↦ (.number n, rest))

mutual

/-- A document and what follows it, with at most `depth` nested steps. -/
def document? : (depth : Nat) → List Char → Option (Json × List Char)
  | 0, _ => none
  | depth + 1, cs =>
      match skip cs with
      | '"' :: rest => (stringBody? rest).map fun (body, rest) ↦ (.string body, rest)
      | '[' :: rest =>
          match skip rest with
          | ']' :: rest => some (.array [], rest)
          | rest => (items? depth rest).map fun (items, rest) ↦ (.array items, rest)
      | '{' :: rest =>
          match skip rest with
          | '}' :: rest => some (.object [], rest)
          | rest => (membersOf? depth rest).map fun (members, rest) ↦ (.object members, rest)
      | rest => scalar? rest

def items? : (depth : Nat) → List Char → Option (List Json × List Char)
  | 0, _ => none
  | depth + 1, cs => do
      let (item, rest) ← document? depth cs
      match skip rest with
      | ',' :: rest => (items? depth rest).map fun (items, rest) ↦ (item :: items, rest)
      | ']' :: rest => some ([item], rest)
      | _ => none

def membersOf? : (depth : Nat) → List Char → Option (List (List Char × Json) × List Char)
  | 0, _ => none
  | depth + 1, cs =>
      match skip cs with
      | '"' :: rest => do
          let (name, rest) ← stringBody? rest
          match skip rest with
          | ':' :: rest =>
              let (value, rest) ← document? depth rest
              match skip rest with
              | ',' :: rest =>
                  (membersOf? depth rest).map fun (members, rest) ↦ ((name, value) :: members, rest)
              | '}' :: rest => some ([(name, value)], rest)
              | _ => none
          | _ => none
      | _ => none

end

/-- The document that a text is. Each nested step but every other one takes a character, so twice
the length of the text is enough for all of them. -/
def parse? (text : String) : Option Json := do
  let cs := text.toList
  let (document, rest) ← document? (2 * cs.length + 2) cs
  if skip rest = [] then some document else none

end CurveSearch.Json
