import BytecodeListing.Files.Directories

/-!
# Building trees

Trees are built by planting nodes at paths, with the directories around them, and by
clearing paths. What cannot be planted leaves the tree as it is. The program does none of
this: it finds files as others have left them, and here a tree of such files is set up for
it, or changed between two of its operations.
-/

namespace BytecodeListing

namespace Tree

/-- Puts a node where a path leads, in place of what is there unless that is a
directory. -/
def putAt (t : Tree) (aim : Aim) (p : Path) (node : Node) : Tree :=
  match t.locate aim p p.names with
  | .error _ => t
  | .ok place =>
      if t.isDirectory place.location then t else t.put place.location node

/-- Makes the directories around a path. -/
def plantParents (p : Path) (t : Tree) : Tree :=
  match p.parent? with
  | none => t
  | some parent => (t.perform (FileStore.makeDirectories parent)).2

/-- Plants a node. A file is written through links; a link takes the place of
another. -/
def plant (p : Path) (node : Node) (t : Tree) : Tree :=
  match node with
  | .directory => (t.perform (FileStore.makeDirectories p)).2
  | .file _ => (plantParents p t).putAt .target p node
  | .link _ => (plantParents p t).putAt .node p node

/-- Clears a path, a directory with all that it holds. -/
def clear (p : Path) (t : Tree) : Tree :=
  match t.locate .node p p.names with
  | .ok (.entry loc) => t.prune loc
  | _ => t

end Tree

end BytecodeListing
