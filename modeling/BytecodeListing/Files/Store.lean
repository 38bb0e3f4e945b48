import BytecodeListing.Files.Walk

/-!
# Stores of files

`FileStore` is what the program asks of the place where files are kept. It is stated
for any monad; `StateM Tree` is the store in which the files are a value, and every
operation on it is given by a function on trees that either yields a tree or fails
and changes nothing.
-/

namespace BytecodeListing

/-- What a path that names something names. Only of a file the size is told. -/
inductive Kind where
  | directory
  | file (size : Nat)
  deriving DecidableEq, Repr

/-- The operations on files that the program uses. -/
class FileStore (m : Type → Type) where
  /-- What the path names, links followed. -/
  kind? : Path → m (Option Kind)
  /-- Makes one directory in a directory that is there. -/
  makeDirectory : Path → m (Except FileFault Unit)
  /-- Removes a file or a link. -/
  remove : Path → m (Except FileFault Unit)
  /-- Gives a node another name, in place of what had that name. -/
  rename : Path → Path → m (Except FileFault Unit)
  /-- The content of a file, links followed. -/
  read : Path → m (Except FileFault ByteArray)
  /-- Makes sure that a file can be written to at its end, and creates it if it is
  not there. -/
  openAppend : Path → m (Except FileFault Unit)
  /-- Adds to the end of a file. -/
  append : Path → ByteArray → m (Except FileFault Unit)

namespace Tree

/-- What a path names. -/
def kind? (t : Tree) (p : Path) : Option Kind :=
  match t.resolve p with
  | .error _ => none
  | .ok loc =>
      match t.node? loc with
      | some .directory => some .directory
      | some (.file content) => some (.file content.size)
      | _ => none

/-- Makes a directory. The name must be free, a link that leads nowhere
included. -/
def makeDirectory (t : Tree) (p : Path) : Except FileFault Tree :=
  match t.locate .node p p.names with
  | .error fault => .error fault
  | .ok (.entry _) => .error .alreadyExists
  | .ok (.vacant directory name) => .ok (t.put (name :: directory) .directory)

/-- Removes a file or a link. -/
def remove (t : Tree) (p : Path) : Except FileFault Tree :=
  match t.locate .node p p.names with
  | .error fault => .error fault
  | .ok (.vacant _ _) => .error .notFound
  | .ok (.entry loc) =>
      if t.isDirectory loc then .error .isDirectory else .ok (t.erase loc)

/-- Gives a node another name. A directory can only take the place of an empty
directory, and nothing else can take the place of a directory. -/
def rename (t : Tree) (source target : Path) : Except FileFault Tree :=
  match t.locate .node source source.names, t.locate .node target target.names with
  | .error fault, _ => .error fault
  | .ok _, .error fault => .error fault
  | .ok (.vacant _ _), .ok _ => .error .notFound
  | .ok (.entry src), .ok place =>
      let dst := place.location
      if src = dst then .ok t
      else if src.isSuffixOf dst then .error .invalidArgument
      else if dst.isSuffixOf src then .error .notEmpty
      else
        match t.isDirectory src, t.node? dst with
        | _, none => .ok (t.move src dst)
        | true, some .directory =>
            if t.hasChildren dst then .error .notEmpty else .ok (t.move src dst)
        | true, some _ => .error .notDirectory
        | false, some .directory => .error .isDirectory
        | false, some _ => .ok (t.move src dst)

/-- The content of a file. -/
def read (t : Tree) (p : Path) : Except FileFault ByteArray :=
  match t.resolve p with
  | .error fault => .error fault
  | .ok loc =>
      match t.node? loc with
      | some (.file content) => .ok content
      | some .directory => .error .isDirectory
      | _ => .error .notFound

/-- Opens a file for writing at its end. A link is followed also where it leads to a
name that is free, and the file is created there. A path written as that of a
directory cannot be opened. -/
def openAppend (t : Tree) (p : Path) : Except FileFault Tree :=
  match t.locate .file p p.steps with
  | .error fault => .error fault
  | .ok (.entry loc) => if t.isDirectory loc then .error .isDirectory else .ok t
  | .ok (.vacant directory name) => .ok (t.put (name :: directory) (.file .empty))

/-- Adds to the end of a file. -/
def append (t : Tree) (p : Path) (bytes : ByteArray) : Except FileFault Tree :=
  match t.resolve p with
  | .error fault => .error fault
  | .ok loc =>
      match t.node? loc with
      | some (.file content) => .ok (t.put loc (.file (content ++ bytes)))
      | some .directory => .error .isDirectory
      | _ => .error .notFound

/-- The result of an operation on a tree, and the tree that it leaves. -/
def perform {α : Type} (t : Tree) (op : StateM Tree α) : α × Tree :=
  op t

/-- An operation that yields a tree or fails, as a change of the tree. -/
def change (op : Tree → Except FileFault Tree) : StateM Tree (Except FileFault Unit) :=
  fun t =>
    match op t with
    | .ok t' => (.ok (), t')
    | .error fault => (.error fault, t)

instance : FileStore (StateM Tree) where
  kind? p := fun t => (t.kind? p, t)
  makeDirectory p := change fun t => t.makeDirectory p
  remove p := change fun t => t.remove p
  rename source target := change fun t => t.rename source target
  read p := fun t => (t.read p, t)
  openAppend p := change fun t => t.openAppend p
  append p bytes := change fun t => t.append p bytes

section Perform

variable (t : Tree)

theorem perform_bind {α β : Type} (op : StateM Tree α) (next : α → StateM Tree β) :
    t.perform (op >>= next) = (t.perform op).2.perform (next (t.perform op).1) := rfl

theorem perform_kind? (p : Path) : t.perform (FileStore.kind? p) = (t.kind? p, t) := rfl

theorem perform_read (p : Path) : t.perform (FileStore.read p) = (t.read p, t) := rfl

theorem perform_makeDirectory (p : Path) :
    t.perform (FileStore.makeDirectory p) =
      match t.makeDirectory p with
      | .ok t' => (.ok (), t')
      | .error fault => (.error fault, t) := rfl

theorem perform_remove (p : Path) :
    t.perform (FileStore.remove p) =
      match t.remove p with
      | .ok t' => (.ok (), t')
      | .error fault => (.error fault, t) := rfl

theorem perform_rename (source target : Path) :
    t.perform (FileStore.rename source target) =
      match t.rename source target with
      | .ok t' => (.ok (), t')
      | .error fault => (.error fault, t) := rfl

theorem perform_openAppend (p : Path) :
    t.perform (FileStore.openAppend p) =
      match t.openAppend p with
      | .ok t' => (.ok (), t')
      | .error fault => (.error fault, t) := rfl

theorem perform_append (p : Path) (bytes : ByteArray) :
    t.perform (FileStore.append p bytes) =
      match t.append p bytes with
      | .ok t' => (.ok (), t')
      | .error fault => (.error fault, t) := rfl

end Perform

end Tree

end BytecodeListing
