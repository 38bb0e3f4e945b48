import BytecodeListing.Proofs.Arrivals

/-!
# What a walk inspects

`Meets` has one case for each way to take a name and holds of every location that a walk comes
to, whether or not the walk arrives anywhere in the end. Through which nodes the walk can go on
is a parameter, and there are two uses of it. A path *looks at* a location if a walk along it
comes there through directories: two trees that agree on what is looked at in one of them are
walked alike (`walk_congr`), on failure as well. A path *passes* a location if a walk would come
there if all that is missing were directories: where directories have been made on the way to
something, the way has passed them before, since a directory that has been made lets a walk by
where an absent one could be made (`Meets.imp`).
-/

namespace BytecodeListing

namespace Tree

/-- A walk along the names from a location comes to a location, through at most the given
number of links and through nodes that let it pass. -/
inductive Meets (t : Tree) (lets : Option Node → Prop) :
    Nat → Location → List Name → Location → Prop
  | here {links : Nat} {loc : Location} {names : List Name} : Meets t lets links loc names loc
  | stay {links : Nat} {loc o : Location} {name : Name} {names : List Name}
      (hpass : lets (t.node? loc)) (hname : name = "." ∨ name = "")
      (h : Meets t lets links loc names o) : Meets t lets links loc (name :: names) o
  | up {links : Nat} {loc o : Location} {names : List Name} (hpass : lets (t.node? loc))
      (h : Meets t lets links loc.tail names o) : Meets t lets links loc (".." :: names) o
  | down {links : Nat} {loc o : Location} {name : Name} {names : List Name}
      (hpass : lets (t.node? loc)) (hname : Path.Plain name)
      (h : Meets t lets links (name :: loc) names o) : Meets t lets links loc (name :: names) o
  | follow {links : Nat} {loc o : Location} {name : Name} {names : List Name} {target : Path}
      (hpass : lets (t.node? loc)) (hname : Path.Plain name)
      (hnode : t.node? (name :: loc) = some (.link target))
      (h : Meets t lets links (target.origin loc) (target.steps ++ names) o) :
      Meets t lets (links + 1) loc (name :: names) o

/-- A walk goes on through a directory. -/
def Passable (node : Option Node) : Prop :=
  node = some .directory

/-- There is a directory, or one could be made. -/
def Makeable (node : Option Node) : Prop :=
  node = none ∨ node = some .directory

/-- The location is looked at when the path is followed. -/
def LooksAt (t : Tree) (p : Path) (o : Location) : Prop :=
  p.fault? = none ∧ t.Meets Passable maxLinks (p.origin t.home) p.steps o

/-- The location is on the way along the path, where the way goes on through directories that
are missing as if they had been made. -/
def Passes (t : Tree) (p : Path) (o : Location) : Prop :=
  t.Meets Makeable maxLinks (p.origin t.home) p.steps o

section Meets

variable {t t' : Tree} {lets lets' : Option Node → Prop} {aim : Aim} {links : Nat}
  {loc o : Location} {names : List Name}

/-- What is met on a way is met on every longer one. -/
theorem Meets.append (h : t.Meets lets links loc names o) (more : List Name) :
    t.Meets lets links loc (names ++ more) o := by
  induction h with
  | here => exact .here
  | stay hpass hname _ ih => exact .stay hpass hname ih
  | up hpass _ ih => exact .up hpass ih
  | down hpass hname _ ih => exact .down hpass hname ih
  | follow hpass hname hnode _ ih =>
      rw [List.append_assoc] at ih
      exact .follow hpass hname hnode ih

/-- What is met in a tree is met in another one that lets through as much and has its links. -/
theorem Meets.imp (h : t.Meets lets links loc names o)
    (hlets : ∀ o, lets (t.node? o) → lets' (t'.node? o))
    (hlink : ∀ o target, t.node? o = some (.link target) → t'.node? o = some (.link target)) :
    t'.Meets lets' links loc names o := by
  induction h with
  | here => exact .here
  | stay hpass hname _ ih => exact .stay (hlets _ hpass) hname ih
  | up hpass _ ih => exact .up (hlets _ hpass) ih
  | down hpass hname _ ih => exact .down (hlets _ hpass) hname ih
  | follow hpass hname hnode _ ih => exact .follow (hlets _ hpass) hname (hlink _ _ hnode) ih

/-- A walk comes to where it arrives. -/
theorem Arrives.meets {seen : List Location} {place : Place}
    (h : t.Arrives aim links loc names seen place) :
    t.Meets Passable links loc names place.location := by
  induction h with
  | here => exact .here
  | stay hdir _ hname _ ih => exact .stay (isDirectory_iff.1 hdir) hname ih
  | up hdir _ _ ih => exact .up (isDirectory_iff.1 hdir) ih
  | vacant hdir hname _ => exact .down (isDirectory_iff.1 hdir) hname .here
  | link hdir hname _ _ => exact .down (isDirectory_iff.1 hdir) hname .here
  | follow hdir _ hname hnode _ _ ih => exact .follow (isDirectory_iff.1 hdir) hname hnode ih
  | down hdir _ hname _ _ _ ih => exact .down (isDirectory_iff.1 hdir) hname ih

/-- A walk depends on nothing but what it comes to. -/
theorem walk_congr
    (hagree : ∀ o, t.Meets Passable links loc names o → t'.node? o = t.node? o) :
    t'.walk aim links loc names = t.walk aim links loc names := by
  -- Links are the outer measure: a link leads to other names with one link less.
  induction links using Nat.strong_induction_on generalizing loc names with
  | _ links ihLinks =>
  induction names generalizing loc with
  | nil =>
      rw [walk_eq, walk_eq]
      rfl
  | cons name names ih =>
      have hhere : t'.isDirectory loc = t.isDirectory loc := by
        rw [isDirectory, isDirectory, hagree loc .here]
      rw [walk_eq, walk_eq]
      cases hdir : t.isDirectory loc with
      | false =>
          rw [walkNames_of_not_isDirectory hdir, walkNames_of_not_isDirectory (hhere.trans hdir)]
      | true =>
          have hpass : Passable (t.node? loc) := isDirectory_iff.1 hdir
          rw [walkNames, walkNames, hhere, hdir, ← walk_eq, ← walk_eq]
          refine ite_congr rfl (fun _ => rfl) fun _ => ite_congr rfl (fun _ => rfl) fun _ =>
            ite_congr rfl (fun hname => ?_) fun hstay => ite_congr rfl (fun hname => ?_)
            fun hup => ite_congr rfl (fun _ => rfl) fun hfits => ?_
          · exact ih fun o ho => hagree o (.stay hpass hname ho)
          · subst hname
            exact ih fun o ho => hagree o (.up hpass ho)
          have hname : Path.Plain name := by
            rw [not_or] at hstay
            exact ⟨hstay.1, hstay.2, hup, Nat.not_lt.1 hfits⟩
          rw [hagree (name :: loc) (.down hpass hname .here)]
          split
          · rfl
          · next target hnode =>
              refine ite_congr rfl (fun _ => rfl) fun _ => ?_
              cases links with
              | zero => rfl
              | succ links =>
                  exact ihLinks links (Nat.lt_succ_self links) fun o ho =>
                    hagree o (.follow hpass hname hnode ho)
          · exact ih fun o ho => hagree o (.down hpass hname ho)

end Meets

section LooksAt

variable {t t' : Tree} {p : Path}

theorem looksAt_of_resolve {loc : Location} (h : t.resolve p = .ok loc) : t.LooksAt p loc := by
  obtain ⟨hfault, seen, harrives⟩ := locate_eq_ok_iff.1 (resolve_eq_ok_iff.1 h)
  exact ⟨hfault, harrives.meets⟩

/-- A path names the same in trees that agree on what it looks at in one of them. -/
theorem kind?_congr (hhome : t'.home = t.home)
    (hagree : ∀ o, t.LooksAt p o → t'.node? o = t.node? o) : t'.kind? p = t.kind? p := by
  have hlocate : t'.locate .target p p.steps = t.locate .target p p.steps := by
    rw [locate, locate]
    cases hfault : p.fault? with
    | some fault => rfl
    | none =>
        simp only [hhome]
        exact walk_congr fun o ho => hagree o ⟨hfault, ho⟩
  have hresolve : t'.resolve p = t.resolve p := by
    rw [resolve, resolve, hlocate]
  rw [kind?, kind?, hresolve]
  cases h : t.resolve p with
  | error fault => rfl
  | ok loc => simp only [hagree loc (looksAt_of_resolve h)]

end LooksAt

end Tree

end BytecodeListing
