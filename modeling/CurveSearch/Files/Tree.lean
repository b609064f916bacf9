import CurveSearch.Files.Name

/-!
# Trees of files

A tree of files holds the folders and files that a program finds around it and those it makes. A
name is followed segment by segment: each segment before the last has to lead to a folder, so that
a name which takes back a folder leads nowhere unless the folder is there, and a file is never
entered. Of what is outside the working folder only the folders are known that every system has,
and the null device.
-/

namespace CurveSearch.Files

inductive Anchor where
  /-- So many folders outside the working folder. -/
  | working (levels : Nat)
  | root
  deriving DecidableEq, Repr

/-- A place in a tree of files: segments from an anchor, innermost first. -/
structure Location where
  anchor : Anchor
  inner : List Segment
  deriving DecidableEq, Repr

namespace Location

def start (name : String) : Location := ⟨if Name.isAbsolute name then .root else .working 0, []⟩

/-- The folder outside a place. The root is outside itself. -/
def outward : Location → Location
  | ⟨.working levels, []⟩ => ⟨.working (levels + 1), []⟩
  | ⟨.root, []⟩ => ⟨.root, []⟩
  | ⟨anchor, _ :: inner⟩ => ⟨anchor, inner⟩

def inward (l : Location) (s : Segment) : Location := { l with inner := s :: l.inner }

end Location

inductive Entry where
  | file (text : String)
  | folder
  deriving DecidableEq, Repr

structure Tree where
  entries : List (Location × Entry)
  deriving Repr

namespace Tree

def empty : Tree where
  entries :=
    [(⟨.root, ["tmp".toList]⟩, .folder), (⟨.root, ["dev".toList]⟩, .folder),
      (⟨.root, ["null".toList, "dev".toList]⟩, .file "")]

/-- What is at a place. Anchors are folders. -/
def find? (t : Tree) (l : Location) : Option Entry :=
  if l.inner = [] then some .folder else t.entries.lookup l

def put (t : Tree) (l : Location) (e : Entry) : Tree :=
  ⟨(l, e) :: t.entries.filter fun (other, _) ↦ other ≠ l⟩

def enter? (t : Tree) (l : Location) (s : Segment) : Option Location :=
  if s.isSilent then some l
  else if s.isOutward then some l.outward
  else match t.find? (l.inward s) with
    | some .folder => some (l.inward s)
    | _ => none

/-- The place that a name gives a file, if the name ends in a plain segment and leads to a folder
before it. -/
def target? (t : Tree) (name : String) : Option Location :=
  if Name.isUsable name then
    match (Name.segments name.toList).reverse with
    | last :: outer =>
        if last.isPlain then
          (·.inward last) <$> outer.reverse.foldlM t.enter? (.start name)
        else none
    | [] => none
  else none

def read? (t : Tree) (name : String) : Option String :=
  match (t.target? name).bind t.find? with
  | some (.file text) => some text
  | _ => none

/-- The tree after a file is written. A file that is there is written anew, a folder stays. -/
def write? (t : Tree) (name text : String) : Option Tree := do
  let l ← t.target? name
  match t.find? l with
  | some .folder => none
  | some (.file _) => some (t.put l (.file text))
  | none => if l.inner.all Segment.fits then some (t.put l (.file text)) else none

/-- Enters the folder that a segment leads to, and makes it if nothing is there. -/
def enterMaking? : Tree × Location → Segment → Option (Tree × Location)
  | (t, l), s =>
      if s.isPlain && (t.find? (l.inward s)).isNone then
        if s.fits then some (t.put (l.inward s) .folder, l.inward s) else none
      else (t, ·) <$> t.enter? l s

def makeFolder? (t : Tree) (name : String) : Option Tree :=
  if Name.isUsable name then
    Prod.fst <$> (Name.segments name.toList).foldlM enterMaking? (t, .start name)
  else none

/-- The files in the working folder of a tree that an earlier tree has nothing in place of, by the
segments of their names. -/
def filesSince (before after : Tree) : List (String × String) :=
  after.entries.filterMap fun
    | (⟨.working 0, inner⟩, .file text) =>
        if (before.find? ⟨.working 0, inner⟩).isNone then
          some (Name.ofInnermostFirst inner, text)
        else none
    | _ => none

theorem find?_put_self (t : Tree) (l : Location) (e : Entry) (h : l.inner ≠ []) :
    (t.put l e).find? l = some e := by
  simp [find?, put, h]

end Tree

end CurveSearch.Files
