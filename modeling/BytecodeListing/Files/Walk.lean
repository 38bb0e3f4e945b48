import BytecodeListing.Files.Tree

/-!
# Following paths

A path is followed name by name. Every name is looked up in a directory; a link is
replaced by the path it holds, at most forty times for one path; `..` leads one
directory up, and the root is above itself. The last name may be missing, which is a
place of its own: some operations create what is not there. Whether a link at the
last name is followed depends on what the operation aims at.
-/

namespace BytecodeListing

/-- What a path is followed for. -/
inductive Aim where
  /-- The node with the last name, a link included. -/
  | node
  /-- What the last name stands for, links followed. -/
  | target
  /-- As `target`, for a file that is opened or created. -/
  | file
  deriving DecidableEq, Repr

/-- Where a path leads. -/
inductive Place where
  /-- To a node. -/
  | entry (loc : Location)
  /-- To a name that the directory does not hold. -/
  | vacant (directory : Location) (name : Name)
  deriving DecidableEq, Repr

/-- The location of a place, whether or not a node is there. -/
def Place.location : Place → Location
  | .entry loc => loc
  | .vacant directory name => name :: directory

namespace Path

/-- Where the path starts when it is read in the given directory. -/
def origin (p : Path) (directory : Location) : Location :=
  if p.isAbsolute then [] else directory

end Path

namespace Tree

/-- The most links that are followed for one path. -/
def maxLinks : Nat := 40

/-- Follows names from a location up to the first link, where `enter` goes on with
the names that the link stands for. An empty name asks for a directory, and none is
opened as a file. -/
def walkNames (t : Tree) (aim : Aim)
    (enter : Location → List Name → Except FileFault Place) (here : Location) :
    List Name → Except FileFault Place
  | [] => .ok (.entry here)
  | name :: rest =>
      if !t.isDirectory here then .error .notDirectory
      else if aim = .file ∧ rest = [""] then .error .isDirectory
      else if name = "." ∨ name = "" then walkNames t aim enter here rest
      else if name = ".." then walkNames t aim enter here.tail rest
      else if Path.maxNameLength < name.utf8ByteSize then .error .nameTooLong
      else
        match t.node? (name :: here) with
        | none => if rest = [] then .ok (.vacant here name) else .error .notFound
        | some (.link target) =>
            if aim = .node ∧ rest = [] then
              .ok (.entry (name :: here))
            else
              enter (target.origin here) (target.steps ++ rest)
        | some _ => walkNames t aim enter (name :: here) rest

/-- Follows names from a location and through at most the given number of links. -/
def walk (t : Tree) (aim : Aim) : Nat → Location → List Name → Except FileFault Place
  | 0 => t.walkNames aim fun _ _ => .error .tooManyLinks
  | links + 1 => t.walkNames aim (walk t aim links)

/-- Where a path leads when it is followed along the given names. -/
def locate (t : Tree) (aim : Aim) (p : Path) (names : List Name) :
    Except FileFault Place :=
  match p.fault? with
  | some fault => .error fault
  | none => t.walk aim maxLinks (p.origin t.home) names

/-- The location that a path names, all links followed. -/
def resolve (t : Tree) (p : Path) : Except FileFault Location :=
  match t.locate .target p p.steps with
  | .ok (.entry loc) => .ok loc
  | .ok (.vacant _ _) => .error .notFound
  | .error fault => .error fault

end Tree

end BytecodeListing
