import BytecodeListing.Files.Path

/-!
# File trees

A tree assigns nodes to locations. A location is the list of names from a node up to
the root, its own name first, so that the directory around it is the tail of the
list. The root is a directory and is not stored.

`node?` is the view of a tree: what an operation does is said by what it makes of
`node?`.

The directory that relative paths start from is kept by its location. The directories
around it are taken to stay where they are: a process would go along with a directory
that is moved away around it, a tree does not.
-/

namespace BytecodeListing

/-- The names from a node up to the root, its own name first. -/
abbrev Location := List Name

/-- Contents are compared in one way, whatever other instances are at hand. -/
local instance (priority := high) contentDecidableEq : DecidableEq ByteArray :=
  ByteArray.instDecidableEq

/-- What is at a location. -/
inductive Node where
  | file (content : ByteArray)
  | link (target : Path)
  | directory
  deriving DecidableEq

/-- A tree of files with the directory that relative paths start from. -/
structure Tree where
  entries : List (Location × Node)
  home : Location
  deriving DecidableEq

namespace Tree

/-- The node at a location. -/
def node? (t : Tree) : Location → Option Node
  | [] => some .directory
  | loc => t.entries.lookup loc

/-- Whether a directory is at the location. -/
def isDirectory (t : Tree) (loc : Location) : Bool :=
  match t.node? loc with
  | some .directory => true
  | _ => false

/-- The directories from a location up to the root. -/
def spine : Location → List (Location × Node)
  | [] => []
  | name :: outer => (name :: outer, .directory) :: spine outer

/-- The tree with the directories down to `home` and nothing else. -/
def bare (home : Location) : Tree :=
  ⟨spine home, home⟩

/-- The tree with a node put at a location. -/
def put (t : Tree) (loc : Location) (node : Node) : Tree :=
  { t with entries := (loc, node) :: t.entries.filter fun e => e.1 ≠ loc }

/-- The tree without the node at a location. -/
def erase (t : Tree) (loc : Location) : Tree :=
  { t with entries := t.entries.filter fun e => e.1 ≠ loc }

/-- The tree without a location and all that is below it. The program removes single nodes
only; this is for clearing a tree that it is to be run on. -/
def prune (t : Tree) (loc : Location) : Tree :=
  { t with entries := t.entries.filter fun e => !loc.isSuffixOf e.1 }

/-- Whether a node has the location for its directory. -/
def hasChildren (t : Tree) (loc : Location) : Bool :=
  t.entries.any fun e => e.1.tail = loc && e.1 ≠ []

/-- A location at or below `source`, carried over to `target`. -/
def rebase (source target loc : Location) : Location :=
  if source.isSuffixOf loc then
    loc.take (loc.length - source.length) ++ target
  else
    loc

/-- The tree in which `source` and all below it has become `target`, in place of
what was there. Relative paths go on to start from the same location, so `source` is taken
not to be around it. -/
def move (t : Tree) (source target : Location) : Tree :=
  { t with
    entries := (t.entries.filter fun e => e.1 ≠ target).map fun e =>
      (rebase source target e.1, e.2) }

/-- The nodes below `home` with the names that lead to them from there, for a tree to be
shown when the program has been run on it. -/
def below (t : Tree) : List (List Name × Node) :=
  t.entries.filterMap fun e =>
    if t.home.isSuffixOf e.1 && e.1 ≠ t.home then
      some ((e.1.take (e.1.length - t.home.length)).reverse, e.2)
    else
      none

@[simp] theorem node?_nil (t : Tree) : t.node? [] = some .directory := rfl

theorem node?_of_ne_nil (t : Tree) {loc : Location} (h : loc ≠ []) :
    t.node? loc = t.entries.lookup loc := by
  cases loc with
  | nil => exact absurd rfl h
  | cons name outer => rfl

/-- Dropping one location does not change what is found at another. -/
theorem lookup_filter_ne {loc other : Location} (h : other ≠ loc) :
    ∀ entries : List (Location × Node),
      (entries.filter fun e => e.1 ≠ loc).lookup other = entries.lookup other
  | [] => rfl
  | (key, node) :: entries => by
      have ih := lookup_filter_ne h entries
      by_cases hk : key = loc
      · have hne : (other == key) = false :=
          beq_eq_false_iff_ne.mpr (hk ▸ h)
        simp only [List.filter_cons, hk, ne_eq, not_true_eq_false, decide_false,
          Bool.false_eq_true, if_false]
        rw [List.lookup_cons, ← hk, hne]
        exact hk ▸ ih
      · simp only [List.filter_cons, hk, ne_eq, not_false_eq_true, decide_true,
          if_true, List.lookup_cons]
        rw [ih]

/-- Nothing is found at a location that has been dropped. -/
theorem lookup_filter_self (loc : Location) :
    ∀ entries : List (Location × Node),
      (entries.filter fun e => e.1 ≠ loc).lookup loc = none
  | [] => rfl
  | (key, node) :: entries => by
      have ih := lookup_filter_self loc entries
      by_cases hk : key = loc
      · simpa [hk] using ih
      · have hne : (loc == key) = false := by simp [Ne.symm hk]
        simp only [List.filter_cons, hk, ne_eq, not_false_eq_true, decide_true,
          if_true, List.lookup_cons, hne]
        exact ih

/-- Putting a node changes the view at its location and nowhere else. -/
theorem node?_put (t : Tree) {loc : Location} (h : loc ≠ []) (node : Node)
    (other : Location) :
    (t.put loc node).node? other =
      if other = loc then some node else t.node? other := by
  by_cases ho : other = []
  · simp [ho, Ne.symm h]
  · rw [node?_of_ne_nil _ ho, node?_of_ne_nil _ ho]
    by_cases he : other = loc
    · simp [put, he]
    · have hne : (other == loc) = false := by simp [he]
      simp only [put, List.lookup_cons, hne, he, if_false]
      exact lookup_filter_ne he t.entries

/-- Erasing empties the location and changes the view nowhere else. -/
theorem node?_erase (t : Tree) {loc : Location} (h : loc ≠ [])
    (other : Location) :
    (t.erase loc).node? other =
      if other = loc then none else t.node? other := by
  by_cases ho : other = []
  · simp [ho, Ne.symm h]
  · rw [node?_of_ne_nil _ ho, node?_of_ne_nil _ ho]
    by_cases he : other = loc
    · simp only [erase, he, if_true]
      exact lookup_filter_self loc t.entries
    · simp only [erase, he, if_false]
      exact lookup_filter_ne he t.entries

end Tree

end BytecodeListing
