/-!
# Names of files

The name of a file is a text whose segments are divided by slashes. A name that starts with a slash
starts from the root, any other one from the working folder. Empty segments and single points say
nothing, but in first place they stay: there an empty segment is the root, and a point spells out
the working folder. Lengths are limited, in bytes, for a segment and for a whole name.
-/

namespace CurveSearch.Files

abbrev Segment := List Char

namespace Segment

def isSilent (s : Segment) : Bool := s = [] || s = ['.']

def isOutward (s : Segment) : Bool := s = ['.', '.']

def isPlain (s : Segment) : Bool := !s.isSilent && !s.isOutward

def fits (s : Segment) : Bool := (String.ofList s).utf8ByteSize ≤ 255

/-- A segment without its extension. A point in first place starts no extension. -/
def stem (s : Segment) : Segment :=
  let beforePoint := (s.reverse.dropWhile (· ≠ '.')).drop 1
  if beforePoint = [] then s else beforePoint.reverse

end Segment

namespace Name

def segments : List Char → List Segment
  | [] => [[]]
  | '/' :: cs => [] :: segments cs
  | c :: cs =>
      match segments cs with
      | [] => [[c]]
      | first :: rest => (c :: first) :: rest

/-- Segments, innermost first, without silent ones at the inner end. The outermost one stays. -/
def trim : List Segment → List Segment
  | segment :: outer :: rest =>
      if segment.isSilent then trim (outer :: rest) else segment :: outer :: rest
  | segments => segments

/-- The name with the given segments, innermost first. A single empty one is the root. -/
def ofInnermostFirst : List Segment → String
  | [[]] => "/"
  | segments => "/".intercalate (segments.reverse.map String.ofList)

/-- The segments of a name, innermost first, up to the one that it ends with. -/
def innermostFirst (name : String) : List Segment := trim (segments name.toList).reverse

/-- The name of the folder that a name goes into, unless that is the working folder. -/
def parent? (name : String) : Option String :=
  match innermostFirst name with
  | _ :: outer :: rest => some (ofInnermostFirst (trim (outer :: rest)))
  | _ => none

/-- The name in the same folder that has the same stem and another ending. -/
def beside (name ending : String) : String :=
  match innermostFirst name with
  | last :: outer => ofInnermostFirst ((last.stem ++ ending.toList) :: trim outer)
  | [] => ending

def isAbsolute (name : String) : Bool := name.toList.head? = some '/'

def isUsable (name : String) : Bool :=
  name ≠ "" && name.utf8ByteSize < 4096 && !name.toList.contains '\x00'

end Name

end CurveSearch.Files
