import BytecodeListing.Proofs.Routes

/-!
# Where paths arrive

A successful walk is a derivation: `Arrives` has one case for each way to take a name, and
`seen` lists the locations that are looked up on the way. A walk succeeds exactly if there
is a derivation (`walk_eq_ok_iff`), so what a walk depends on is read off the derivation.

Trees that agree on what has been seen are walked alike (`Arrives.congr`). In a tree that
has more nodes a walk ends at the same location, provided that a free name at its end has
got a node that is no link (`Arrives.extend`).
-/

namespace BytecodeListing

namespace Tree

/-- The names lead from a location to a place, through at most the given number of links
and by looking at the locations in `seen`. -/
inductive Arrives (t : Tree) (aim : Aim) :
    Nat → Location → List Name → List Location → Place → Prop
  | here {links : Nat} {loc : Location} : Arrives t aim links loc [] [loc] (.entry loc)
  | stay {links : Nat} {loc : Location} {name : Name} {names : List Name}
      {seen : List Location} {place : Place} (hdir : t.isDirectory loc = true)
      (hopen : ¬ (aim = .file ∧ names = [""])) (hname : name = "." ∨ name = "")
      (h : Arrives t aim links loc names seen place) :
      Arrives t aim links loc (name :: names) (loc :: seen) place
  | up {links : Nat} {loc : Location} {names : List Name} {seen : List Location}
      {place : Place} (hdir : t.isDirectory loc = true)
      (hopen : ¬ (aim = .file ∧ names = [""]))
      (h : Arrives t aim links loc.tail names seen place) :
      Arrives t aim links loc (".." :: names) (loc :: seen) place
  | vacant {links : Nat} {loc : Location} {name : Name} (hdir : t.isDirectory loc = true)
      (hname : Path.Plain name) (hnode : t.node? (name :: loc) = none) :
      Arrives t aim links loc [name] [loc, name :: loc] (.vacant loc name)
  | link {links : Nat} {loc : Location} {name : Name} {target : Path}
      (hdir : t.isDirectory loc = true) (hname : Path.Plain name) (haim : aim = .node)
      (hnode : t.node? (name :: loc) = some (.link target)) :
      Arrives t aim links loc [name] [loc, name :: loc] (.entry (name :: loc))
  | follow {links : Nat} {loc : Location} {name : Name} {names : List Name} {target : Path}
      {seen : List Location} {place : Place} (hdir : t.isDirectory loc = true)
      (hopen : ¬ (aim = .file ∧ names = [""])) (hname : Path.Plain name)
      (hnode : t.node? (name :: loc) = some (.link target))
      (hlast : ¬ (aim = .node ∧ names = []))
      (h : Arrives t aim links (target.origin loc) (target.steps ++ names) seen place) :
      Arrives t aim (links + 1) loc (name :: names) (loc :: (name :: loc) :: seen) place
  | down {links : Nat} {loc : Location} {name : Name} {names : List Name} {node : Node}
      {seen : List Location} {place : Place} (hdir : t.isDirectory loc = true)
      (hopen : ¬ (aim = .file ∧ names = [""])) (hname : Path.Plain name)
      (hnode : t.node? (name :: loc) = some node) (hlink : ∀ target, node ≠ .link target)
      (h : Arrives t aim links (name :: loc) names seen place) :
      Arrives t aim links loc (name :: names) (loc :: (name :: loc) :: seen) place

theorem Arrives.walk_eq {t : Tree} {aim : Aim} {links : Nat} {loc : Location}
    {names : List Name} {seen : List Location} {place : Place}
    (h : t.Arrives aim links loc names seen place) :
    t.walk aim links loc names = .ok place := by
  induction h with
  | here =>
      rw [Tree.walk_eq]
      rfl
  | stay hdir hopen hname _ ih =>
      rw [← ih, Tree.walk_eq, walkNames]
      simp [hdir, hopen, hname]
  | up hdir hopen _ ih =>
      rw [← ih, Tree.walk_eq, walkNames]
      simp [hdir, hopen]
  | vacant hdir hname hnode =>
      obtain ⟨hdot, hempty, hdots, hfits⟩ := hname
      rw [Tree.walk_eq, walkNames]
      simp [hdir, hdot, hempty, hdots, Nat.not_lt.2 hfits, hnode]
  | link hdir hname haim hnode =>
      obtain ⟨hdot, hempty, hdots, hfits⟩ := hname
      rw [Tree.walk_eq, walkNames]
      simp [hdir, hdot, hempty, hdots, Nat.not_lt.2 hfits, hnode, haim]
  | follow hdir hopen hname hnode hlast _ ih =>
      obtain ⟨hdot, hempty, hdots, hfits⟩ := hname
      rw [← ih, Tree.walk_eq, walkNames]
      simp [hdir, hopen, hdot, hempty, hdots, Nat.not_lt.2 hfits, hnode, hlast, enter]
  | @down _ _ _ _ node _ _ hdir hopen hname hnode hlink _ ih =>
      obtain ⟨hdot, hempty, hdots, hfits⟩ := hname
      rw [← ih, Tree.walk_eq, walkNames]
      cases node with
      | link target => exact absurd rfl (hlink target)
      | file content =>
          simp [hdir, hopen, hdot, hempty, hdots, Nat.not_lt.2 hfits, hnode]
      | directory =>
          simp [hdir, hopen, hdot, hempty, hdots, Nat.not_lt.2 hfits, hnode]

theorem exists_arrives {t : Tree} {aim : Aim} {links : Nat} {loc : Location}
    {names : List Name} {place : Place} (h : t.walk aim links loc names = .ok place) :
    ∃ seen, t.Arrives aim links loc names seen place := by
  -- Links are the outer measure: a link leads to other names with one link less.
  induction links using Nat.strong_induction_on generalizing loc names with
  | _ links ihLinks =>
  induction names generalizing loc with
  | nil =>
      rw [walk_eq, walkNames] at h
      cases h
      exact ⟨_, .here⟩
  | cons name names ih =>
      rw [walk_eq, walkNames, ← walk_eq] at h
      split at h
      · cases h
      next hdir =>
      rw [Bool.not_eq_true, Bool.not_eq_false'] at hdir
      split at h
      · cases h
      next hopen =>
      split at h
      · next hname =>
          obtain ⟨seen, harrives⟩ := ih h
          exact ⟨_, .stay hdir hopen hname harrives⟩
      next hstay =>
      split at h
      · next hname =>
          subst hname
          obtain ⟨seen, harrives⟩ := ih h
          exact ⟨_, .up hdir hopen harrives⟩
      next hup =>
      split at h
      · cases h
      next hfits =>
      have hname : Path.Plain name := by
        rw [not_or] at hstay
        exact ⟨hstay.1, hstay.2, hup, Nat.not_lt.1 hfits⟩
      split at h
      · next hnode =>
          split at h
          · next hlast =>
              subst hlast
              cases h
              exact ⟨_, .vacant hdir hname hnode⟩
          · cases h
      · next target hnode =>
          split at h
          · next hlast =>
              obtain ⟨haim, rfl⟩ := hlast
              cases h
              exact ⟨_, .link hdir hname haim hnode⟩
          · next hlast =>
              cases links with
              | zero => cases h
              | succ links =>
                  obtain ⟨seen, harrives⟩ := ihLinks links (Nat.lt_succ_self links) h
                  exact ⟨_, .follow hdir hopen hname hnode hlast harrives⟩
      · next node hlink hnode =>
          obtain ⟨seen, harrives⟩ := ih h
          exact ⟨_, .down hdir hopen hname hnode hlink harrives⟩

/-- A walk succeeds exactly if there is a derivation for it. -/
theorem walk_eq_ok_iff {t : Tree} {aim : Aim} {links : Nat} {loc : Location}
    {names : List Name} {place : Place} :
    t.walk aim links loc names = .ok place ↔
      ∃ seen, t.Arrives aim links loc names seen place :=
  ⟨exists_arrives, fun ⟨_, h⟩ => h.walk_eq⟩

/-- The nodes of a tree are nodes of the other one as well, except that files may have got
another content. -/
structure Extends (t t' : Tree) : Prop where
  home : t'.home = t.home
  directory : ∀ o, t.node? o = some .directory → t'.node? o = some .directory
  link : ∀ o target, t.node? o = some (.link target) → t'.node? o = some (.link target)
  file : ∀ o content, t.node? o = some (.file content) →
    ∃ content', t'.node? o = some (.file content')

/-- A node at which a path that is followed for the aim can end. -/
def Fit (t : Tree) (aim : Aim) (loc : Location) : Prop :=
  ∃ node, t.node? loc = some node ∧ (aim = .node ∨ ∀ target, node ≠ .link target)

theorem Fit.of_isDirectory {t : Tree} {loc : Location} (h : t.isDirectory loc = true)
    (aim : Aim) : t.Fit aim loc :=
  ⟨.directory, isDirectory_iff.1 h, .inr (by simp)⟩

namespace Extends

variable {t t' : Tree}

theorem isDirectory (h : t.Extends t') {o : Location} (ho : t.isDirectory o = true) :
    t'.isDirectory o = true :=
  isDirectory_iff.2 (h.directory o (isDirectory_iff.1 ho))

theorem exists_node (h : t.Extends t') {o : Location} {node : Node}
    (ho : t.node? o = some node) (hlink : ∀ target, node ≠ .link target) :
    ∃ node', t'.node? o = some node' ∧ ∀ target, node' ≠ .link target := by
  cases node with
  | link target => exact absurd rfl (hlink target)
  | directory => exact ⟨_, h.directory o ho, by simp⟩
  | file content =>
      obtain ⟨content', ho'⟩ := h.file o content ho
      exact ⟨_, ho', by simp⟩

end Extends

namespace Arrives

variable {t t' : Tree} {aim : Aim} {links : Nat} {loc : Location} {name : Name}
  {names : List Name} {seen : List Location} {place : Place}

theorem isDirectory_start (h : t.Arrives aim links loc (name :: names) seen place) :
    t.isDirectory loc = true := by
  cases h <;> assumption

/-- A free name is in a directory. -/
theorem vacant_spec (h : t.Arrives aim links loc names seen place) {dir : Location}
    (hplace : place = .vacant dir name) :
    t.isDirectory dir = true ∧ t.node? (name :: dir) = none := by
  induction h with
  | here => cases hplace
  | stay _ _ _ _ ih => exact ih hplace
  | up _ _ _ ih => exact ih hplace
  | vacant hdir _ hnode =>
      cases hplace
      exact ⟨hdir, hnode⟩
  | link _ _ _ _ => cases hplace
  | follow _ _ _ _ _ _ ih => exact ih hplace
  | down _ _ _ _ _ _ ih => exact ih hplace

/-- In a closed tree there is a node where a walk ends that does not end at a free
name. -/
theorem fit (ht : t.Closed) (h : t.Arrives aim links loc names seen place)
    (hstart : t.Fit aim loc) {there : Location} (hplace : place = .entry there) :
    t.Fit aim there := by
  induction h with
  | here =>
      cases hplace
      exact hstart
  | stay _ _ _ _ ih => exact ih hstart hplace
  | @up _ loc _ _ _ hdir _ _ ih =>
      refine ih (.of_isDirectory ?_ aim) hplace
      cases loc with
      | nil => exact hdir
      | cons name outer =>
          apply ht name outer
          rw [isDirectory_iff.1 hdir]
          exact Option.some_ne_none _
  | vacant _ _ _ => cases hplace
  | link hdir _ haim hnode =>
      cases hplace
      exact ⟨_, hnode, .inl haim⟩
  | @follow _ loc _ _ target _ _ hdir _ _ _ _ _ ih =>
      refine ih (.of_isDirectory ?_ aim) hplace
      rw [Path.origin]
      split
      · rfl
      · exact hdir
  | down _ _ _ hnode hlink _ ih => exact ih ⟨_, hnode, .inr hlink⟩ hplace

/-- A walk depends on nothing but what it has looked at. -/
theorem congr (h : t.Arrives aim links loc names seen place)
    (hseen : ∀ o ∈ seen, t'.node? o = t.node? o) :
    t'.Arrives aim links loc names seen place := by
  have hdirs {o : Location} (ho : o ∈ seen) (hdir : t.isDirectory o = true) :
      t'.isDirectory o = true := by
    rwa [isDirectory, hseen o ho]
  induction h with
  | here => exact .here
  | stay hdir hopen hname _ ih =>
      simp only [List.forall_mem_cons] at hseen
      exact .stay (hdirs List.mem_cons_self hdir) hopen hname
        (ih hseen.2 fun ho => hdirs (.tail _ ho))
  | up hdir hopen _ ih =>
      simp only [List.forall_mem_cons] at hseen
      exact .up (hdirs List.mem_cons_self hdir) hopen
        (ih hseen.2 fun ho => hdirs (.tail _ ho))
  | vacant hdir hname hnode =>
      simp only [List.forall_mem_cons] at hseen
      exact .vacant (hdirs List.mem_cons_self hdir) hname (hseen.2.1.trans hnode)
  | link hdir hname haim hnode =>
      simp only [List.forall_mem_cons] at hseen
      exact .link (hdirs List.mem_cons_self hdir) hname haim (hseen.2.1.trans hnode)
  | follow hdir hopen hname hnode hlast _ ih =>
      simp only [List.forall_mem_cons] at hseen
      exact .follow (hdirs List.mem_cons_self hdir) hopen hname (hseen.2.1.trans hnode) hlast
        (ih hseen.2.2 fun ho => hdirs (.tail _ (.tail _ ho)))
  | down hdir hopen hname hnode hlink _ ih =>
      simp only [List.forall_mem_cons] at hseen
      exact .down (hdirs List.mem_cons_self hdir) hopen hname (hseen.2.1.trans hnode) hlink
        (ih hseen.2.2 fun ho => hdirs (.tail _ (.tail _ ho)))

/-- A walk ends at the same location in a tree with more nodes, provided that a free name
at its end has been given to a node that is no link. -/
theorem extend (h : t.Arrives aim links loc names seen place) (hext : t.Extends t')
    (hplace : ∀ dir name, place = .vacant dir name →
      ∃ node, t'.node? (name :: dir) = some node ∧ ∀ target, node ≠ .link target) :
    ∃ seen', t'.Arrives aim links loc names seen' (.entry place.location) := by
  induction h with
  | here => exact ⟨_, .here⟩
  | stay hdir hopen hname _ ih =>
      obtain ⟨seen', h'⟩ := ih hplace
      exact ⟨_, .stay (hext.isDirectory hdir) hopen hname h'⟩
  | up hdir hopen _ ih =>
      obtain ⟨seen', h'⟩ := ih hplace
      exact ⟨_, .up (hext.isDirectory hdir) hopen h'⟩
  | vacant hdir hname _ =>
      obtain ⟨node, hnode, hlink⟩ := hplace _ _ rfl
      exact ⟨_, .down (hext.isDirectory hdir) (by simp) hname hnode hlink .here⟩
  | link hdir hname haim hnode =>
      exact ⟨_, .link (hext.isDirectory hdir) hname haim (hext.link _ _ hnode)⟩
  | follow hdir hopen hname hnode hlast _ ih =>
      obtain ⟨seen', h'⟩ := ih hplace
      exact ⟨_, .follow (hext.isDirectory hdir) hopen hname (hext.link _ _ hnode) hlast h'⟩
  | down hdir hopen hname hnode hlink _ ih =>
      obtain ⟨node', hnode', hlink'⟩ := hext.exists_node hnode hlink
      obtain ⟨seen', h'⟩ := ih hplace
      exact ⟨_, .down (hext.isDirectory hdir) hopen hname hnode' hlink' h'⟩

/-- What is opened as a file is also found. -/
theorem target_of_file (h : t.Arrives .file links loc names seen place) :
    t.Arrives .target links loc names seen place := by
  have haim {names : List Name} : ¬ (Aim.target = .file ∧ names = [""]) := by simp
  have haim' {names : List Name} : ¬ (Aim.target = .node ∧ names = []) := by simp
  induction h with
  | here => exact .here
  | stay hdir _ hname _ ih => exact .stay hdir haim hname ih
  | up hdir _ _ ih => exact .up hdir haim ih
  | vacant hdir hname hnode => exact .vacant hdir hname hnode
  | link _ _ haim _ => cases haim
  | follow hdir _ hname hnode _ _ ih => exact .follow hdir haim hname hnode haim' ih
  | down hdir _ hname hnode hlink _ ih => exact .down hdir haim hname hnode hlink ih

/-- A free name is free whether or not a link there would be followed. -/
theorem target_of_vacant (h : t.Arrives .node links loc names seen place) {dir : Location}
    (hplace : place = .vacant dir name) : t.Arrives .target links loc names seen place := by
  have haim {names : List Name} : ¬ (Aim.target = .file ∧ names = [""]) := by simp
  have haim' {names : List Name} : ¬ (Aim.target = .node ∧ names = []) := by simp
  induction h with
  | here => cases hplace
  | stay hdir _ hname _ ih => exact .stay hdir haim hname (ih hplace)
  | up hdir _ _ ih => exact .up hdir haim (ih hplace)
  | vacant hdir hname hnode => exact .vacant hdir hname hnode
  | link _ _ _ _ => cases hplace
  | follow hdir _ hname hnode _ _ ih => exact .follow hdir haim hname hnode haim' (ih hplace)
  | down hdir _ hname hnode hlink _ ih => exact .down hdir haim hname hnode hlink (ih hplace)

/-- A closing slash leads no further from a directory. -/
theorem append_empty (h : t.Arrives .target links loc names seen place) {there : Location}
    (hplace : place = .entry there) (hthere : t.isDirectory there = true) :
    ∃ seen', t.Arrives .target links loc (names ++ [""]) seen' (.entry there) := by
  have haim {names : List Name} : ¬ (Aim.target = .file ∧ names = [""]) := by simp
  induction h with
  | here =>
      cases hplace
      exact ⟨_, .stay hthere haim (.inr rfl) .here⟩
  | stay hdir _ hname _ ih =>
      obtain ⟨seen', h'⟩ := ih hplace
      exact ⟨_, .stay hdir haim hname h'⟩
  | up hdir _ _ ih =>
      obtain ⟨seen', h'⟩ := ih hplace
      exact ⟨_, .up hdir haim h'⟩
  | vacant _ _ _ => cases hplace
  | link _ _ haim _ => cases haim
  | follow hdir _ hname hnode _ _ ih =>
      obtain ⟨seen', h'⟩ := ih hplace
      rw [List.append_assoc] at h'
      exact ⟨_, .follow hdir haim hname hnode (by simp) h'⟩
  | down hdir _ hname hnode hlink _ ih =>
      obtain ⟨seen', h'⟩ := ih hplace
      exact ⟨_, .down hdir haim hname hnode hlink h'⟩

/-- A name that can be looked up and is that of no link leads down to its node. -/
theorem down_of_not_link {there : Location} (hname : Path.Plain name)
    (hlink : ∀ target, t.node? (name :: loc) ≠ some (.link target))
    (h : t.Arrives aim links loc (name :: names) seen (.entry there)) :
    ∃ seen', t.Arrives aim links (name :: loc) names seen' (.entry there) := by
  cases h with
  | stay _ _ hstay _ => exact absurd hstay (not_or.2 ⟨hname.1, hname.2.1⟩)
  | up _ _ _ => exact absurd rfl hname.2.2.1
  | link _ _ _ hnode => exact absurd hnode (hlink _)
  | follow _ _ _ hnode _ _ => exact absurd hnode (hlink _)
  | down _ _ _ _ _ h => exact ⟨_, h⟩

end Arrives

theorem Leads.exists_arrives {t : Tree} {loc there : Location} {names : List Name}
    (h : t.Leads loc names there) (links : Nat) :
    ∃ seen, t.Arrives .target links loc names seen (.entry there) := by
  induction h with
  | here _ => exact ⟨_, .here⟩
  | dot h ih =>
      obtain ⟨seen, harrives⟩ := ih
      exact ⟨_, .stay h.isDirectory_start (by simp) (.inl rfl) harrives⟩
  | down hdir hname h ih =>
      obtain ⟨seen, harrives⟩ := ih
      exact ⟨_, .down hdir (by simp) hname (isDirectory_iff.1 h.isDirectory_start) (by simp)
        harrives⟩

end Tree

section Paths

variable {t t' : Tree} {aim : Aim} {p : Path} {names : List Name} {place : Place}

/-- A path without names is empty or starts at the root. -/
theorem Path.isAbsolute_of_names_eq_nil (hne : p.text ≠ "") (h : p.names = []) :
    p.isAbsolute = true := by
  cases htext : p.text.toList with
  | nil => exact absurd (String.toList_eq_nil_iff.1 htext) hne
  | cons c cs =>
      by_contra habsolute
      have hc : c ≠ '/' := by simpa [Path.isAbsolute, htext] using habsolute
      -- A first character that is no slash is in a segment, which is then not empty.
      obtain ⟨segment, more, hsplit⟩ := List.exists_cons_of_ne_nil (List.splitOn_ne_nil '/' cs)
      rw [Path.names_eq, htext, List.splitOn_cons_eq_if_modifyHead, if_neg (by simpa using hc),
        hsplit] at h
      simp at h

theorem Path.text_ne_empty_of_fault? (h : p.fault? = none) : p.text ≠ "" := by
  intro hempty
  rw [Path.fault?, hempty] at h
  simp at h

theorem Path.names_eq_nil_of_steps (h : p.steps = []) : p.names = [] := by
  rw [Path.steps] at h
  split at h
  · simp at h
  · exact h

namespace Tree

theorem locate_eq_ok_iff :
    t.locate aim p names = .ok place ↔
      p.fault? = none ∧ ∃ seen, t.Arrives aim maxLinks (p.origin t.home) names seen place := by
  rw [locate]
  cases hfault : p.fault? with
  | some fault => simp
  | none => simp [walk_eq_ok_iff]

theorem resolve_eq_ok_iff {loc : Location} :
    t.resolve p = .ok loc ↔ t.locate .target p p.steps = .ok (.entry loc) := by
  rw [resolve]
  split <;> simp_all

/-- Where a path can start, or end at once if it has no names. -/
theorem fit_origin {seen : List Location} (hfault : p.fault? = none)
    (hnames : names = [] → p.names = [])
    (h : t.Arrives aim maxLinks (p.origin t.home) names seen place) :
    t.Fit aim (p.origin t.home) := by
  cases names with
  | cons name names => exact .of_isDirectory h.isDirectory_start aim
  | nil =>
      have habsolute := Path.isAbsolute_of_names_eq_nil
        (Path.text_ne_empty_of_fault? hfault) (hnames rfl)
      rw [Path.origin, if_pos habsolute]
      exact .of_isDirectory rfl aim

/-- In a closed tree there is a node where a path leads that does not lead to a free
name. -/
theorem Closed.fit_of_locate (ht : t.Closed) {loc : Location}
    (hnames : names = [] → p.names = [])
    (h : t.locate aim p names = .ok (.entry loc)) : t.Fit aim loc := by
  obtain ⟨hfault, seen, harrives⟩ := locate_eq_ok_iff.1 h
  exact harrives.fit ht (fit_origin hfault hnames harrives) rfl

theorem vacant_of_locate {dir : Location} {name : Name}
    (h : t.locate aim p names = .ok (.vacant dir name)) :
    t.isDirectory dir = true ∧ t.node? (name :: dir) = none := by
  obtain ⟨-, seen, harrives⟩ := locate_eq_ok_iff.1 h
  exact harrives.vacant_spec rfl

/-- A path leads to the same node in a tree with more nodes. -/
theorem Extends.resolve (h : t.Extends t') {loc : Location} (hloc : t.resolve p = .ok loc) :
    t'.resolve p = .ok loc := by
  rw [resolve_eq_ok_iff, locate_eq_ok_iff] at hloc ⊢
  obtain ⟨hfault, seen, harrives⟩ := hloc
  obtain ⟨seen', harrives'⟩ := harrives.extend h (by simp)
  rw [h.home]
  exact ⟨hfault, seen', harrives'⟩

end Tree

end Paths

end BytecodeListing
