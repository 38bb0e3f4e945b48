import BytecodeListing.Proofs.TreeView

/-!
# Paths through ordinary directories

A path that leads through directories only, with neither links nor `..` in it, has a
name joined to it. Whatever such a path is followed for, it leads to the entry of that
name in the directory, or to its place there if there is none (`locate_join`). The
operations on files are then functions of the location alone.
-/

namespace BytecodeListing

namespace Path

/-- The name is looked up as it stands: it is no way of writing a directory itself or
the one around it, and it is not too long. -/
def Plain (name : Name) : Prop :=
  name ≠ "." ∧ name ≠ "" ∧ name ≠ ".." ∧ name.utf8ByteSize ≤ maxNameLength

instance (name : Name) : Decidable (Plain name) :=
  inferInstanceAs (Decidable (_ ∧ _ ∧ _ ∧ _))

section Join

variable (dir : Path) {name : Name}

theorem names_eq (p : Path) :
    p.names = ((p.text.toList.splitOn '/').map String.ofList).filter (· ≠ "") := rfl

theorem toList_text_join :
    (dir.join name).text.toList =
      if dir.text = "" ∨ dir.endsInSlash = true then dir.text.toList ++ name.toList
      else dir.text.toList ++ '/' :: name.toList := by
  rw [join]
  split <;> simp

theorem names_join (hname : name ≠ "") (hslash : '/' ∉ name.toList) :
    (dir.join name).names = dir.names ++ [name] := by
  have hsplit : name.toList.splitOn '/' = [name.toList] :=
    List.splitOn_eq_singleton hslash
  rw [names_eq, names_eq, toList_text_join]
  split
  · next h =>
      rcases h with h | h
      · simp [h, hsplit, hname]
      · rw [endsInSlash, decide_eq_true_eq, List.getLast?_eq_some_iff] at h
        obtain ⟨front, hfront⟩ := h
        rw [hfront, List.append_assoc, List.singleton_append,
          List.splitOn_append_cons_self, List.splitOn_append_cons_self, hsplit]
        simp [hname]
  · rw [List.splitOn_append_cons_self, hsplit]
    simp [hname]

theorem endsInSlash_join (hname : name ≠ "") (hslash : '/' ∉ name.toList) :
    (dir.join name).endsInSlash = false := by
  have hlast : ∀ cs : List Char, (cs ++ name.toList).getLast? ≠ some '/' := by
    intro cs h
    have hne : name.toList ≠ [] := by simpa using hname
    rw [List.getLast?_append_of_ne_nil _ hne] at h
    exact hslash (List.mem_of_getLast? h)
  rw [endsInSlash, toList_text_join, decide_eq_false_iff_not]
  split
  · exact hlast _
  · rw [List.append_cons]
    exact hlast _

theorem steps_join (hname : name ≠ "") (hslash : '/' ∉ name.toList) :
    (dir.join name).steps = dir.names ++ [name] := by
  rw [steps, endsInSlash_join dir hname hslash, names_join dir hname hslash]
  rfl

theorem origin_join (hslash : '/' ∉ name.toList) (home : Location) :
    (dir.join name).origin home = dir.origin home := by
  have habsolute : (dir.join name).isAbsolute = dir.isAbsolute := by
    rw [isAbsolute, isAbsolute, toList_text_join]
    rcases eq_or_ne dir.text "" with h | h
    · have hhead : name.toList.head? ≠ some '/' := fun hhead =>
        hslash (List.mem_of_mem_head? hhead)
      simp [h, hhead]
    · have hne : dir.text.toList ≠ [] := by simpa using h
      split
      · rw [List.head?_append_of_ne_nil _ hne]
      · rw [List.head?_append_of_ne_nil _ hne]
  rw [origin, origin, habsolute]

end Join

end Path

namespace Tree

/-- The names lead from one location to another through directories, each of them by
its own name. -/
inductive Leads (t : Tree) : Location → List Name → Location → Prop
  | here {loc : Location} (hdir : t.isDirectory loc = true) : Leads t loc [] loc
  | dot {loc there : Location} {names : List Name} (h : Leads t loc names there) :
      Leads t loc ("." :: names) there
  | down {loc there : Location} {name : Name} {names : List Name}
      (hdir : t.isDirectory loc = true) (hname : Path.Plain name)
      (h : Leads t (name :: loc) names there) : Leads t loc (name :: names) there

/-- The place of a name in a directory. -/
def placeIn (t : Tree) (directory : Location) (name : Name) : Place :=
  match t.node? (name :: directory) with
  | none => .vacant directory name
  | some _ => .entry (name :: directory)

@[simp] theorem location_placeIn (t : Tree) (directory : Location) (name : Name) :
    (t.placeIn directory name).location = name :: directory := by
  rw [placeIn]
  split <;> rfl

namespace Leads

variable {t : Tree} {loc there : Location} {names : List Name}

theorem isDirectory_start (h : t.Leads loc names there) :
    t.isDirectory loc = true := by
  induction h with
  | here hdir => exact hdir
  | dot _ ih => exact ih
  | down hdir _ _ _ => exact hdir

theorem isDirectory_end (h : t.Leads loc names there) :
    t.isDirectory there = true := by
  induction h with
  | here hdir => exact hdir
  | dot _ ih => exact ih
  | down _ _ _ ih => exact ih

/-- The directories on the way are around the one it leads to. -/
theorem suffix (h : t.Leads loc names there) : loc <:+ there := by
  induction h with
  | here _ => exact List.suffix_rfl
  | dot _ ih => exact ih
  | @down loc _ name _ _ _ _ ih => exact (List.suffix_cons name loc).trans ih

/-- Names lead on where the directories around the one they lead to are kept. -/
theorem mono_around {t' : Tree} (h : t.Leads loc names there)
    (hdirs : ∀ o, o <:+ there → t.isDirectory o = true → t'.isDirectory o = true) :
    t'.Leads loc names there := by
  induction h with
  | here hdir => exact .here (hdirs _ List.suffix_rfl hdir)
  | dot _ ih => exact .dot (ih hdirs)
  | @down loc _ name _ hdir hname h ih =>
      exact .down (hdirs _ ((List.suffix_cons name loc).trans h.suffix) hdir) hname (ih hdirs)

theorem mono {t' : Tree} (h : t.Leads loc names there)
    (hdirs : ∀ loc, t.isDirectory loc = true → t'.isDirectory loc = true) :
    t'.Leads loc names there :=
  h.mono_around fun o _ => hdirs o

theorem walkNames_append (h : t.Leads loc names there) (aim : Aim)
    (enter : Location → List Name → Except FileFault Place) {name : Name}
    (hname : Path.Plain name) :
    t.walkNames aim enter loc (names ++ [name]) =
      t.walkNames aim enter there [name] := by
  have hne : ∀ names : List Name, names ++ [name] ≠ [""] := by
    intro names heq
    have hlast := congrArg List.getLast? heq
    simp only [List.getLast?_concat, List.getLast?_singleton, Option.some.injEq] at hlast
    exact hname.2.1 hlast
  induction h with
  | here _ => rfl
  | dot h ih =>
      rw [List.cons_append, walkNames]
      simp [h.isDirectory_start, hne, ih]
  | @down loc there name' names hdir hname' h ih =>
      obtain ⟨hdot, hempty, hdots, hfits⟩ := hname'
      have hnode := isDirectory_iff.1 h.isDirectory_start
      rw [List.cons_append, walkNames]
      simp [hdir, hne, hdot, hempty, hdots, Nat.not_lt.2 hfits, hnode, ih]

/-- A last name that is no link leads to its place, whatever the path is followed
for. -/
theorem walk_append (h : t.Leads loc names there) (aim : Aim) (links : Nat)
    {name : Name} (hname : Path.Plain name)
    (hlink : ∀ target, t.node? (name :: there) ≠ some (.link target)) :
    t.walk aim links loc (names ++ [name]) = .ok (t.placeIn there name) := by
  have hlast : ∀ enter, t.walkNames aim enter there [name] =
      .ok (t.placeIn there name) := by
    intro enter
    obtain ⟨hdot, hempty, hdots, hfits⟩ := hname
    rw [walkNames, placeIn]
    simp only [h.isDirectory_end, hdot, hempty, hdots, Nat.not_lt.2 hfits]
    cases hnode : t.node? (name :: there) with
    | none => simp
    | some node =>
        cases node with
        | link target => exact absurd hnode (hlink target)
        | file content => simp [walkNames]
        | directory => simp [walkNames]
  cases links with
  | zero => rw [walk, h.walkNames_append aim _ hname, hlast]
  | succ links => rw [walk, h.walkNames_append aim _ hname, hlast]

/-- Where a path with a name joined to it leads. -/
theorem locate_join {dir : Path} (h : t.Leads (dir.origin t.home) dir.names there)
    (aim : Aim) {name : Name} (hname : Path.Plain name)
    (hslash : '/' ∉ name.toList) (hfault : (dir.join name).fault? = none)
    (hlink : ∀ target, t.node? (name :: there) ≠ some (.link target)) :
    t.locate aim (dir.join name) (dir.names ++ [name]) =
      .ok (t.placeIn there name) := by
  rw [locate, hfault, Path.origin_join dir hslash]
  exact h.walk_append aim maxLinks hname hlink

end Leads

end Tree

end BytecodeListing
