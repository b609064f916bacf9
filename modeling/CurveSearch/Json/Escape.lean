/-!
# Strings in JSON

Between its quotes a string spells most characters as they are. Quotes, backslashes and control
characters are escaped; the escape of a character beyond the basic plane is a pair of surrogates.
A lone surrogate is well formed as an escape, and yet spells no text.
-/

namespace CurveSearch.Json

def shortEscape? : Char → Option Char
  | '"' => some '"'
  | '\\' => some '\\'
  | '/' => some '/'
  | 'b' => some '\x08'
  | 'f' => some '\x0c'
  | 'n' => some '\n'
  | 'r' => some '\r'
  | 't' => some '\t'
  | _ => none

def isHexDigit (c : Char) : Bool :=
  c.isDigit || ('a' ≤ c && c ≤ 'f') || ('A' ≤ c && c ≤ 'F')

def hexValue (c : Char) : Nat :=
  if c.isDigit then c.toNat - '0'.toNat
  else if 'a' ≤ c then c.toNat - 'a'.toNat + 10
  else c.toNat - 'A'.toNat + 10

def ofHex (cs : List Char) : Nat := cs.foldl (fun n c ↦ 16 * n + hexValue c) 0

def escapeChar (c : Char) : List Char :=
  if c = '"' then ['\\', '"']
  else if c = '\\' then ['\\', '\\']
  else if c = '\x08' then ['\\', 'b']
  else if c = '\x0c' then ['\\', 'f']
  else if c = '\n' then ['\\', 'n']
  else if c = '\r' then ['\\', 'r']
  else if c = '\t' then ['\\', 't']
  else if c < ' ' then
    ['\\', 'u', '0', '0', Nat.digitChar (c.toNat / 16), Nat.digitChar (c.toNat % 16)]
  else [c]

def escape (text : List Char) : List Char := text.flatMap escapeChar

/-- The characters of a list of code units, where escapes name units and everything else names
characters. Surrogates count only in pairs. -/
def joinUnits : List (Nat ⊕ Char) → Option (List Char)
  | [] => some []
  | .inr c :: rest => (joinUnits rest).map (c :: ·)
  | .inl high :: rest =>
      if 0xd800 ≤ high ∧ high < 0xdc00 then
        match rest with
        | .inl low :: rest =>
            if 0xdc00 ≤ low ∧ low < 0xe000 then
              let c := Char.ofNat (0x10000 + (high - 0xd800) * 0x400 + (low - 0xdc00))
              (joinUnits rest).map (c :: ·)
            else none
        | _ => none
      else if 0xdc00 ≤ high ∧ high < 0xe000 then none
      else (joinUnits rest).map (Char.ofNat high :: ·)

def splitUnits : List Char → Option (List (Nat ⊕ Char))
  | [] => some []
  | '\\' :: 'u' :: a :: b :: c :: d :: rest =>
      (splitUnits rest).map (.inl (ofHex [a, b, c, d]) :: ·)
  | '\\' :: e :: rest => do
      let c ← shortEscape? e
      (splitUnits rest).map (.inr c :: ·)
  | c :: rest => (splitUnits rest).map (.inr c :: ·)

def unescape? (body : List Char) : Option String :=
  ((splitUnits body).bind joinUnits).map String.ofList

end CurveSearch.Json
