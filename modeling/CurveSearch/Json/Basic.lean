import CurveSearch.Json.Escape
import CurveSearch.Json.Numeral

/-!
# JSON documents

A document is kept as it is spelled, up to blanks: numerals with their digits, strings with their
escapes, members in order and perhaps repeated. What a numeral or a string stands for is asked only
where a value is wanted, so an ignored member may hold what has no value.
-/

namespace CurveSearch

inductive Json where
  | null
  | bool (b : Bool)
  | number (n : Json.Numeral)
  | string (body : List Char)
  | array (items : List Json)
  | object (members : List (List Char × Json))

namespace Json

def ofString (s : String) : Json := .string (escape s.toList)

/-- A double; an infinity or a NaN becomes null. -/
def ofFloat (x : Float) : Json :=
  match Numeral.ofFloat? x with
  | some n => .number n
  | none => .null

def ofNat (n : Nat) : Json := .number (.ofNat n)

def record (fields : List (String × Json)) : Json :=
  .object (fields.map fun (name, value) ↦ (escape name.toList, value))

def sortedRecord (fields : List (String × Json)) : Json :=
  record (fields.mergeSort fun a b ↦ decide (a.1 ≤ b.1))

def toFloat? : Json → Option Float
  | .number n => n.toFloat?
  | _ => none

def toNat? : Json → Option Nat
  | .number n => n.toNat?
  | _ => none

def toText? : Json → Option String
  | .string body => unescape? body
  | _ => none

/-- The members of an object under the texts of their names. -/
def members? : Json → Option (List (String × Json))
  | .object members => members.mapM fun (name, value) ↦ do some (← unescape? name, value)
  | _ => none

/-- The values of the named fields of a record. In an object each name may occur once, and other
names are ignored; an array gives the fields in order, and may end early. -/
def fields? (names : List String) : Json → Option (List (Option Json))
  | .array items =>
      if items.length ≤ names.length then
        some (items.map some ++ List.replicate (names.length - items.length) none)
      else none
  | document => do
      let members ← document.members?
      names.mapM fun name ↦
        match members.filter (·.1 = name) with
        | [] => some none
        | [(_, value)] => some (some value)
        | _ => none

/-- The name of one of several cases: a text, or an object whose one member is null. -/
def caseName? : Json → Option String
  | .object [(name, .null)] => unescape? name
  | document => document.toText?

end Json

end CurveSearch
