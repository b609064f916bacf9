import CurveSearch.Json.Basic

/-!
# Writing JSON

Documents are written compactly, without any blanks, or spread over lines with an indentation of two
spaces for each level. Empty arrays and objects take one line in both forms.
-/

namespace CurveSearch.Json

def quote (body : List Char) : List Char := '"' :: body ++ ['"']

def boolText (b : Bool) : List Char := (if b then "true" else "false").toList

mutual

def compact : Json → List Char
  | .null => "null".toList
  | .bool b => boolText b
  | .number n => n.print
  | .string body => quote body
  | .array items => '[' :: compactItems items ++ [']']
  | .object members => '{' :: compactMembers members ++ ['}']

def compactItems : List Json → List Char
  | [] => []
  | item :: rest => compact item ++ (if rest.isEmpty then [] else [',']) ++ compactItems rest

def compactMembers : List (List Char × Json) → List Char
  | [] => []
  | member :: rest =>
      compactMember member ++ (if rest.isEmpty then [] else [',']) ++ compactMembers rest

def compactMember : List Char × Json → List Char
  | (name, value) => quote name ++ ':' :: compact value

end

def newline (indent : Nat) : List Char := '\n' :: List.replicate indent ' '

mutual

/-- A document over several lines, where the line it starts in has the given indentation. -/
def spread (indent : Nat) : Json → List Char
  | .null => "null".toList
  | .bool b => boolText b
  | .number n => n.print
  | .string body => quote body
  | .array [] => ['[', ']']
  | .array (item :: rest) =>
      '[' :: spreadItems (indent + 2) (item :: rest) ++ newline indent ++ [']']
  | .object [] => ['{', '}']
  | .object (member :: rest) =>
      '{' :: spreadMembers (indent + 2) (member :: rest) ++ newline indent ++ ['}']

def spreadItems (indent : Nat) : List Json → List Char
  | [] => []
  | item :: rest =>
      newline indent ++ spread indent item ++ (if rest.isEmpty then [] else [',']) ++
        spreadItems indent rest

def spreadMembers (indent : Nat) : List (List Char × Json) → List Char
  | [] => []
  | member :: rest =>
      newline indent ++ spreadMember indent member ++ (if rest.isEmpty then [] else [',']) ++
        spreadMembers indent rest

def spreadMember (indent : Nat) : List Char × Json → List Char
  | (name, value) => quote name ++ ':' :: ' ' :: spread indent value

end

def compactText (document : Json) : String := String.ofList document.compact

def prettyText (document : Json) : String := String.ofList (document.spread 0)

end CurveSearch.Json
