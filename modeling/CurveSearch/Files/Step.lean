import CurveSearch.Files.Tree

/-!
# Steps on files

What a program does to the files around it is a list of steps, which can be taken in a tree or on a
disk. The first step that cannot be taken ends the list.
-/

namespace CurveSearch.Files

inductive Step where
  | makeFolder (name : String)
  | write (name text : String)
  deriving DecidableEq, Repr

def Step.description : Step → String
  | .makeFolder name => "creating directory " ++ name
  | .write name _ => "writing " ++ name

/-- Writes a file into a folder that is made if it is missing. -/
def Step.writeInFolder (name text : String) : List Step :=
  ((Name.parent? name).map .makeFolder).toList ++ [.write name text]

namespace Tree

def take? (t : Tree) : Step → Option Tree
  | .makeFolder name => t.makeFolder? name
  | .write name text => t.write? name text

def takeAll (t : Tree) (steps : List Step) : Except Step Tree :=
  steps.foldlM (fun t step ↦ match t.take? step with
    | some t => .ok t
    | none => .error step) t

def ofFiles (files : List (String × String)) : Except Step Tree :=
  empty.takeAll (files.flatMap fun (name, text) ↦ Step.writeInFolder name text)

end Tree

end CurveSearch.Files
