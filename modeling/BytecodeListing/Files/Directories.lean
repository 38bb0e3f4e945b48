import BytecodeListing.Files.Store

/-!
# Directories with all that encloses them

A directory is made together with the directories around it that are missing. Each
path is tried as it stands first; only if something on the way is missing are the
paths around it made, and the path is tried once more. A directory that is already
there counts as made.
-/

namespace BytecodeListing

namespace FileStore

variable {m : Type → Type} [Monad m] [FileStore m]

/-- Whether the path names something. -/
def present (p : Path) : m Bool := do
  return (← kind? p).isSome

/-- A directory that is there makes up for a fault in making it. -/
def acceptDirectory (p : Path) (fault : FileFault) : m (Except FileFault Unit) := do
  match ← kind? p with
  | some .directory => return .ok ()
  | _ => return .error fault

/-- Makes the first of the given paths a directory, where each path is enclosed by
the next one. -/
def makeNested : List Path → m (Except FileFault Unit)
  | [] => return .ok ()
  | p :: outer => do
      match ← makeDirectory p with
      | .ok () => return .ok ()
      | .error .notFound =>
          match ← makeNested outer with
          | .error fault => return .error fault
          | .ok () =>
              match ← makeDirectory p with
              | .ok () => return .ok ()
              | .error fault => acceptDirectory p fault
      | .error fault => acceptDirectory p fault

/-- Makes a directory and the directories around it. -/
def makeDirectories (p : Path) : m (Except FileFault Unit) :=
  makeNested p.ancestors

end FileStore

theorem Tree.perform_present (t : Tree) (p : Path) :
    t.perform (FileStore.present p) = ((t.kind? p).isSome, t) := rfl

end BytecodeListing
