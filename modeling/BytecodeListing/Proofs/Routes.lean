import BytecodeListing.Proofs.Following

/-!
# Routes through links

A route leads along names to a directory, up and down and through links, and `via`
lists the links that are followed on the way. A path with a name joined to it leads
somewhere exactly if there is a route to the directory of the name that takes no more
links than are allowed (`exists_route`), and the name is then looked up there with the
links that are left (`walk_append`).

Where the directories and the links of a route are kept or removed, the route is the
same as before or broken off (`Route.eq_of_kept`): it never leads elsewhere.
-/

namespace BytecodeListing

namespace Tree

/-- The names lead from a location to a directory, following the links in `via`. -/
inductive Route (t : Tree) : Location → List Name → Location → List Location → Prop
  | here {loc : Location} (hdir : t.isDirectory loc = true) : Route t loc [] loc []
  | stay {loc there : Location} {name : Name} {names : List Name} {via : List Location}
      (hname : name = "." ∨ name = "") (h : Route t loc names there via) :
      Route t loc (name :: names) there via
  | up {loc there : Location} {names : List Name} {via : List Location}
      (hdir : t.isDirectory loc = true) (h : Route t loc.tail names there via) :
      Route t loc (".." :: names) there via
  | down {loc there : Location} {name : Name} {names : List Name} {via : List Location}
      (hdir : t.isDirectory loc = true) (hname : Path.Plain name)
      (h : Route t (name :: loc) names there via) : Route t loc (name :: names) there via
  | follow {loc there : Location} {name : Name} {names : List Name} {target : Path}
      {via : List Location} (hdir : t.isDirectory loc = true) (hname : Path.Plain name)
      (hlink : t.node? (name :: loc) = some (.link target))
      (h : Route t (target.origin loc) (target.steps ++ names) there via) :
      Route t loc (name :: names) there ((name :: loc) :: via)

/-- A way through ordinary directories is a route without links. -/
theorem Leads.route {t : Tree} {loc there : Location} {names : List Name}
    (h : t.Leads loc names there) : t.Route loc names there [] := by
  induction h with
  | here hdir => exact .here hdir
  | dot _ ih => exact .stay (.inl rfl) ih
  | down hdir hname _ ih => exact .down hdir hname ih

/-- How a walk goes on at a link with the given number of links left. -/
def enter (t : Tree) (aim : Aim) : Nat → Location → List Name → Except FileFault Place
  | 0 => fun _ _ => .error .tooManyLinks
  | links + 1 => t.walk aim links

theorem walk_eq (t : Tree) (aim : Aim) (links : Nat) :
    t.walk aim links = t.walkNames aim (t.enter aim links) := by
  cases links <;> rfl

section Names

variable {t : Tree} {aim : Aim} {enter : Location → List Name → Except FileFault Place}
  {loc : Location} {name : Name} {rest : List Name}

theorem walkNames_of_not_isDirectory (hdir : t.isDirectory loc = false) :
    t.walkNames aim enter loc (name :: rest) = .error .notDirectory := by
  rw [walkNames, hdir]
  rfl

theorem walkNames_stay (hdir : t.isDirectory loc = true) (hrest : rest ≠ [""])
    (hname : name = "." ∨ name = "") :
    t.walkNames aim enter loc (name :: rest) = t.walkNames aim enter loc rest := by
  rw [walkNames]
  simp [hdir, hrest, hname]

theorem walkNames_up (hdir : t.isDirectory loc = true) (hrest : rest ≠ [""]) :
    t.walkNames aim enter loc (".." :: rest) = t.walkNames aim enter loc.tail rest := by
  rw [walkNames]
  simp [hdir, hrest]

/-- A plain name is looked up in its directory. -/
theorem walkNames_plain (hdir : t.isDirectory loc = true) (hrest : rest ≠ [""])
    (hname : Path.Plain name) :
    t.walkNames aim enter loc (name :: rest) =
      match t.node? (name :: loc) with
      | none => if rest = [] then .ok (.vacant loc name) else .error .notFound
      | some (.link target) =>
          if aim = .node ∧ rest = [] then .ok (.entry (name :: loc))
          else enter (target.origin loc) (target.steps ++ rest)
      | some _ => t.walkNames aim enter (name :: loc) rest := by
  obtain ⟨hdot, hempty, hdots, hfits⟩ := hname
  rw [walkNames]
  have hlength : ¬ Path.maxNameLength < name.utf8ByteSize := Nat.not_lt.2 hfits
  cases t.node? (name :: loc) with
  | none => simp [hdir, hrest, hdot, hempty, hdots, hlength]
  | some node => cases node <;> simp [hdir, hrest, hdot, hempty, hdots, hlength]

theorem walkNames_tooLong (hdir : t.isDirectory loc = true) (hrest : rest ≠ [""])
    (hstay : ¬ (name = "." ∨ name = "")) (hup : name ≠ "..")
    (hname : ¬ Path.Plain name) :
    t.walkNames aim enter loc (name :: rest) = .error .nameTooLong := by
  have hlong : Path.maxNameLength < name.utf8ByteSize := by
    rw [not_or] at hstay
    by_contra hfits
    exact hname ⟨hstay.1, hstay.2, hup, Nat.not_lt.1 hfits⟩
  rw [walkNames]
  simp [hdir, hrest, hstay, hup, hlong]

end Names

theorem append_singleton_ne_empty {name : Name} (hname : Path.Plain name)
    (names : List Name) : names ++ [name] ≠ [""] := by
  intro heq
  have hlast := congrArg List.getLast? heq
  simp only [List.getLast?_concat, List.getLast?_singleton, Option.some.injEq] at hlast
  exact hname.2.1 hlast

namespace Route

variable {t t' : Tree} {loc there : Location} {names : List Name} {via : List Location}

theorem isDirectory_start (h : t.Route loc names there via) :
    t.isDirectory loc = true := by
  induction h with
  | here hdir => exact hdir
  | stay _ _ ih => exact ih
  | up hdir _ _ => exact hdir
  | down hdir _ _ _ => exact hdir
  | follow hdir _ _ _ _ => exact hdir

theorem isDirectory_end (h : t.Route loc names there via) :
    t.isDirectory there = true := by
  induction h with
  | here hdir => exact hdir
  | stay _ _ ih => exact ih
  | up _ _ ih => exact ih
  | down _ _ _ ih => exact ih
  | follow _ _ _ _ ih => exact ih

/-- Names behind a route are followed from its end, with the links that it leaves. -/
theorem walk_append (h : t.Route loc names there via) (aim : Aim) {links : Nat}
    (hlinks : via.length ≤ links) {name : Name} (hname : Path.Plain name) :
    t.walk aim links loc (names ++ [name]) =
      t.walk aim (links - via.length) there [name] := by
  induction h generalizing links with
  | here _ => rfl
  | stay hstay h ih =>
      rw [List.cons_append, walk_eq, walkNames_stay h.isDirectory_start
        (append_singleton_ne_empty hname _) hstay, ← walk_eq]
      exact ih hlinks
  | up hdir h ih =>
      rw [List.cons_append, walk_eq, walkNames_up hdir
        (append_singleton_ne_empty hname _), ← walk_eq]
      exact ih hlinks
  | down hdir hplain h ih =>
      have hnode := isDirectory_iff.1 h.isDirectory_start
      rw [List.cons_append, walk_eq, walkNames_plain hdir
        (append_singleton_ne_empty hname _) hplain, hnode]
      dsimp only
      rw [← walk_eq]
      exact ih hlinks
  | @follow loc there name' names target via hdir hplain hlink h ih =>
      obtain ⟨links, rfl⟩ := Nat.exists_eq_succ_of_ne_zero
        (Nat.ne_of_gt (Nat.lt_of_lt_of_le (Nat.succ_pos _) hlinks))
      rw [List.cons_append, walk_eq, walkNames_plain hdir
        (append_singleton_ne_empty hname _) hplain, hlink]
      simp only [List.append_eq_nil_iff, List.cons_ne_nil, and_false, if_false]
      rw [← List.append_assoc, enter, ih (Nat.le_of_succ_le_succ hlinks),
        List.length_cons, Nat.succ_sub_succ]

/-- The whole of a route is followed as a path to its end. -/
theorem walk_target (h : t.Route loc names there via) {links : Nat} :
    t.walk .target links loc names =
      if via.length ≤ links then .ok (.entry there) else .error .tooManyLinks := by
  induction h generalizing links with
  | here _ =>
      rw [walk_eq]
      simp [walkNames]
  | stay hstay h ih =>
      rw [← ih, walk_eq, walkNames]
      simp [h.isDirectory_start, hstay]
  | up hdir h ih =>
      rw [← ih, walk_eq, walkNames]
      simp [hdir]
  | down hdir hplain h ih =>
      obtain ⟨hdot, hempty, hdots, hfits⟩ := hplain
      have hnode := isDirectory_iff.1 h.isDirectory_start
      rw [← ih, walk_eq, walkNames]
      simp [hdir, hdot, hempty, hdots, Nat.not_lt.2 hfits, hnode]
  | follow hdir hplain hlink h ih =>
      obtain ⟨hdot, hempty, hdots, hfits⟩ := hplain
      rw [walk_eq, walkNames]
      simp only [hdir, hdot, hempty, hdots, Nat.not_lt.2 hfits, hlink]
      cases links with
      | zero => simp [enter]
      | succ links => simp [enter, ih]

/-- A route along names joined together goes through the end of the first of them. -/
theorem exists_split {front back : List Name} (h : t.Route loc (front ++ back) there via) :
    ∃ middle via₁ via₂, t.Route loc front middle via₁ ∧ t.Route middle back there via₂ ∧
      via = via₁ ++ via₂ := by
  generalize hnames : front ++ back = names at h
  induction h generalizing front with
  | here hdir =>
      obtain ⟨rfl, rfl⟩ := List.append_eq_nil_iff.1 hnames
      exact ⟨_, [], [], .here hdir, .here hdir, rfl⟩
  | stay hstay h ih =>
      rcases List.append_eq_cons_iff.1 hnames with ⟨rfl, rfl⟩ | ⟨front, rfl, rfl⟩
      · exact ⟨_, [], _, .here h.isDirectory_start, .stay hstay h, rfl⟩
      · obtain ⟨middle, via₁, via₂, h₁, h₂, rfl⟩ := ih rfl
        exact ⟨middle, via₁, via₂, .stay hstay h₁, h₂, rfl⟩
  | up hdir h ih =>
      rcases List.append_eq_cons_iff.1 hnames with ⟨rfl, rfl⟩ | ⟨front, rfl, rfl⟩
      · exact ⟨_, [], _, .here hdir, .up hdir h, rfl⟩
      · obtain ⟨middle, via₁, via₂, h₁, h₂, rfl⟩ := ih rfl
        exact ⟨middle, via₁, via₂, .up hdir h₁, h₂, rfl⟩
  | down hdir hplain h ih =>
      rcases List.append_eq_cons_iff.1 hnames with ⟨rfl, rfl⟩ | ⟨front, rfl, rfl⟩
      · exact ⟨_, [], _, .here hdir, .down hdir hplain h, rfl⟩
      · obtain ⟨middle, via₁, via₂, h₁, h₂, rfl⟩ := ih rfl
        exact ⟨middle, via₁, via₂, .down hdir hplain h₁, h₂, rfl⟩
  | follow hdir hplain hlink h ih =>
      rcases List.append_eq_cons_iff.1 hnames with ⟨rfl, rfl⟩ | ⟨front, rfl, rfl⟩
      · exact ⟨_, [], _, .here hdir, .follow hdir hplain hlink h, rfl⟩
      · obtain ⟨middle, via₁, via₂, h₁, h₂, rfl⟩ := ih (List.append_assoc ..)
        exact ⟨middle, _, via₂, .follow hdir hplain hlink h₁, h₂, rfl⟩

/-- Every link that is followed on a route leads to a directory by a part of it. -/
theorem exists_of_mem_via (h : t.Route loc names there via) {name : Name}
    {outer : Location} (hmem : name :: outer ∈ via) :
    ∃ target middle via', t.node? (name :: outer) = some (.link target) ∧
      t.Route (target.origin outer) target.steps middle via' ∧ via' ⊆ via := by
  induction h with
  | here _ => cases hmem
  | stay _ _ ih => exact ih hmem
  | up _ _ ih => exact ih hmem
  | down _ _ _ ih => exact ih hmem
  | follow hdir hplain hlink h ih =>
      rcases List.mem_cons.1 hmem with heq | hmem
      · obtain ⟨rfl, rfl⟩ := List.cons.inj heq
        obtain ⟨middle, via₁, via₂, h₁, -, rfl⟩ := h.exists_split
        exact ⟨_, middle, via₁, hlink, h₁,
          List.subset_cons_of_subset _ (List.subset_append_left via₁ via₂)⟩
      · obtain ⟨target, middle, via', hnode, hroute, hsubset⟩ := ih hmem
        exact ⟨target, middle, via', hnode, hroute, List.subset_cons_of_subset _ hsubset⟩

/-- Where the directories of a tree and the links of a route are kept or removed, the
same names lead to the same place by the same links, if they lead anywhere. -/
theorem eq_of_kept (h : t.Route loc names there via)
    (hkept : ∀ o, t.isDirectory o = true ∨ o ∈ via →
      t'.node? o = t.node? o ∨ t'.node? o = none)
    {there' : Location} {via' : List Location} (h' : t'.Route loc names there' via') :
    there' = there ∧ via' = via := by
  induction h generalizing there' via' with
  | here _ =>
      cases h'
      exact ⟨rfl, rfl⟩
  | stay hstay h ih =>
      cases h' with
      | stay _ h' => exact ih hkept h'
      | up _ _ => simp at hstay
      | down _ hplain _ => exact absurd hstay (not_or.2 ⟨hplain.1, hplain.2.1⟩)
      | follow _ hplain _ _ => exact absurd hstay (not_or.2 ⟨hplain.1, hplain.2.1⟩)
  | up hdir h ih =>
      cases h' with
      | stay hstay _ => simp at hstay
      | up _ h' => exact ih hkept h'
      | down _ hplain _ => exact absurd rfl hplain.2.2.1
      | follow _ hplain _ _ => exact absurd rfl hplain.2.2.1
  | down hdir hplain h ih =>
      cases h' with
      | stay hstay _ => exact absurd hstay (not_or.2 ⟨hplain.1, hplain.2.1⟩)
      | up _ _ => exact absurd rfl hplain.2.2.1
      | down _ _ h' => exact ih hkept h'
      | follow _ _ hlink _ =>
          -- A directory cannot have become a link.
          have hnode := isDirectory_iff.1 h.isDirectory_start
          rcases hkept _ (.inl h.isDirectory_start) with hsame | hgone
          · rw [hsame, hnode] at hlink
            cases hlink
          · rw [hgone] at hlink
            cases hlink
  | @follow _ _ name _ target via hdir hplain hlink h ih =>
      cases h' with
      | stay hstay _ => exact absurd hstay (not_or.2 ⟨hplain.1, hplain.2.1⟩)
      | up _ _ => exact absurd rfl hplain.2.2.1
      | down _ _ h' =>
          have hnode := isDirectory_iff.1 h'.isDirectory_start
          rcases hkept _ (.inr List.mem_cons_self) with hsame | hgone
          · rw [hsame, hlink] at hnode
            cases hnode
          · rw [hgone] at hnode
            cases hnode
      | follow _ _ hlink' h' =>
          rcases hkept _ (.inr List.mem_cons_self) with hsame | hgone
          · rw [hsame, hlink] at hlink'
            cases hlink'
            obtain ⟨rfl, rfl⟩ := ih (fun o ho => hkept o (ho.imp_right (.tail _))) h'
            exact ⟨rfl, rfl⟩
          · rw [hgone] at hlink'
            cases hlink'

/-- The same names lead to one place only. -/
theorem unique (h : t.Route loc names there via) {there' : Location}
    {via' : List Location} (h' : t.Route loc names there' via') :
    there' = there ∧ via' = via :=
  h.eq_of_kept (fun _ _ => .inl rfl) h'

end Route

/-- If a path leads somewhere, there is a route to the directory of its last name. -/
theorem exists_route {t : Tree} {aim : Aim} {links : Nat} {loc : Location}
    {names : List Name} {name : Name} {place : Place} (hname : Path.Plain name)
    (h : t.walk aim links loc (names ++ [name]) = .ok place) :
    ∃ there via, t.Route loc names there via ∧ via.length ≤ links := by
  -- Links are the outer measure: a link leads to other names with one link less.
  induction links using Nat.strong_induction_on generalizing loc names with
  | _ links ihLinks =>
  induction names generalizing loc with
  | nil =>
      cases hdir : t.isDirectory loc with
      | false =>
          rw [List.nil_append, walk_eq, walkNames_of_not_isDirectory hdir] at h
          cases h
      | true => exact ⟨loc, [], .here hdir, Nat.zero_le links⟩
  | cons name' names ih =>
      have hne := append_singleton_ne_empty hname names
      rw [List.cons_append, walk_eq] at h
      cases hdir : t.isDirectory loc with
      | false =>
          rw [walkNames_of_not_isDirectory hdir] at h
          cases h
      | true =>
          by_cases hstay : name' = "." ∨ name' = ""
          · rw [walkNames_stay hdir hne hstay, ← walk_eq] at h
            obtain ⟨there, via, hroute, hlinks⟩ := ih h
            exact ⟨there, via, .stay hstay hroute, hlinks⟩
          by_cases hup : name' = ".."
          · subst hup
            rw [walkNames_up hdir hne, ← walk_eq] at h
            obtain ⟨there, via, hroute, hlinks⟩ := ih h
            exact ⟨there, via, .up hdir hroute, hlinks⟩
          by_cases hplain : Path.Plain name'
          · rw [walkNames_plain hdir hne hplain] at h
            split at h
            · simp at h
            · next target hlink =>
                simp only [List.append_eq_nil_iff, List.cons_ne_nil, and_false, if_false]
                  at h
                cases links with
                | zero => cases h
                | succ links =>
                    rw [← List.append_assoc] at h
                    obtain ⟨there, via, hroute, hlinks⟩ :=
                      ihLinks links (Nat.lt_succ_self links) h
                    exact ⟨there, _, .follow hdir hplain hlink hroute,
                      Nat.succ_le_succ hlinks⟩
            · rw [← walk_eq] at h
              obtain ⟨there, via, hroute, hlinks⟩ := ih h
              exact ⟨there, via, .down hdir hplain hroute, hlinks⟩
          · rw [walkNames_tooLong hdir hne hstay hup hplain] at h
            cases h

end Tree

end BytecodeListing
