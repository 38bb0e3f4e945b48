import Mathlib.Data.List.Infix
import BytecodeListing.Files.Store

/-!
# Moving nodes in a tree

What is at every location after a node has been moved. A moved node takes all that is
below it along, and what was at its new location is gone (`node?_move`). In a closed
tree nothing is below a file or a link, so moving such a node changes two locations
only (`Closed.node?_move`). Nodes are put, removed and moved so that a tree stays closed
(`Closed.put`, `Closed.erase`, `Closed.move`).
-/

namespace BytecodeListing

namespace Tree

/-- Every node is in a directory. -/
def Closed (t : Tree) : Prop :=
  ∀ name outer, t.node? (name :: outer) ≠ none → t.isDirectory outer = true

@[simp] theorem isDirectory_iff {t : Tree} {loc : Location} :
    t.isDirectory loc = true ↔ t.node? loc = some .directory := by
  rw [isDirectory]
  split <;> simp_all

theorem node?_ne_none_of_mem {t : Tree} {e : Location × Node} (h : e ∈ t.entries) :
    t.node? e.1 ≠ none := by
  rcases eq_or_ne e.1 [] with hnil | hne
  · simp [hnil]
  · rw [node?_of_ne_nil t hne, ne_eq, List.lookup_eq_none_iff]
    intro hall
    exact absurd (hall e h) (by simp)

theorem exists_mem_of_node? {t : Tree} {loc : Location} (hne : loc ≠ [])
    (h : t.node? loc ≠ none) : ∃ e ∈ t.entries, e.1 = loc := by
  rw [node?_of_ne_nil t hne] at h
  obtain ⟨node, hnode⟩ := Option.ne_none_iff_exists'.1 h
  obtain ⟨before, behind, hentries, -⟩ := List.lookup_eq_some_iff.1 hnode
  exact ⟨(loc, node), by rw [hentries]; simp, rfl⟩

theorem closed_of_entries {t : Tree}
    (h : ∀ e ∈ t.entries, t.isDirectory e.1.tail = true) : t.Closed := by
  intro name outer hnode
  obtain ⟨e, he, heq⟩ := exists_mem_of_node? (List.cons_ne_nil name outer) hnode
  have := h e he
  rwa [heq] at this

theorem Closed.isDirectory_of_below {t : Tree} (ht : t.Closed) {p loc : Location}
    (hp : p ≠ []) (h : t.node? (p ++ loc) ≠ none) : t.isDirectory loc = true := by
  induction p with
  | nil => exact absurd rfl hp
  | cons name p ih =>
      have houter := ht name (p ++ loc) h
      cases p with
      | nil => exact houter
      | cons name' p =>
          rw [isDirectory_iff] at houter
          exact ih (List.cons_ne_nil name' p) (by rw [houter]; exact Option.some_ne_none _)

theorem Closed.node?_below {t : Tree} (ht : t.Closed) {loc : Location}
    (hloc : t.isDirectory loc = false) {p : Location} (hp : p ≠ []) :
    t.node? (p ++ loc) = none := by
  by_contra h
  rw [ht.isDirectory_of_below hp h] at hloc
  cases hloc

section Rebase

variable {source target : Location}

theorem rebase_append (p : Location) :
    rebase source target (p ++ source) = p ++ target := by
  have hsuffix : source.isSuffixOf (p ++ source) = true :=
    List.isSuffixOf_iff_suffix.2 (List.suffix_append p source)
  rw [rebase, if_pos hsuffix, List.length_append, Nat.add_sub_cancel, List.take_left]

theorem rebase_of_not_suffix {loc : Location} (h : ¬ source <:+ loc) :
    rebase source target loc = loc := by
  rw [rebase, if_neg (by rwa [List.isSuffixOf_iff_suffix])]

/-- Which location is carried over to one at or below the target. -/
theorem rebase_eq_append_iff {loc p : Location} (h : loc ≠ p ++ target) :
    rebase source target loc = p ++ target ↔ loc = p ++ source := by
  constructor
  · intro heq
    by_cases hsuffix : source <:+ loc
    · obtain ⟨q, rfl⟩ := hsuffix
      rw [rebase_append, List.append_cancel_right_eq] at heq
      rw [heq]
    · rw [rebase_of_not_suffix hsuffix] at heq
      exact absurd heq h
  · rintro rfl
    exact rebase_append p

/-- Which location is carried over to one that is not at or below the target. -/
theorem rebase_eq_iff {loc other : Location} (h : ¬ target <:+ other) :
    rebase source target loc = other ↔ loc = other ∧ ¬ source <:+ loc := by
  by_cases hsuffix : source <:+ loc
  · obtain ⟨q, rfl⟩ := hsuffix
    rw [rebase_append]
    constructor
    · rintro rfl
      exact absurd (List.suffix_append q target) h
    · rintro ⟨-, hnot⟩
      exact absurd (List.suffix_append q source) hnot
  · rw [rebase_of_not_suffix hsuffix]
    simp [hsuffix]

end Rebase

/-- Looking up a location among entries whose locations have been changed. -/
theorem lookup_map {f : Location → Location} {loc other : Location}
    {entries : List (Location × Node)}
    (h : ∀ e ∈ entries, f e.1 = loc ↔ e.1 = other) :
    (entries.map fun e => (f e.1, e.2)).lookup loc = entries.lookup other := by
  induction entries with
  | nil => rfl
  | cons e entries ih =>
      have ih := ih fun e he => h e (List.mem_cons_of_mem _ he)
      have hkey : (loc == f e.1) = (other == e.1) := by
        rw [Bool.eq_iff_iff, beq_iff_eq, beq_iff_eq, eq_comm, h e List.mem_cons_self,
          eq_comm]
      rw [List.map_cons, List.lookup_cons, List.lookup_cons, ih, hkey]

/-- What is where after a move, off the location that is moved to. -/
theorem node?_move_off (t : Tree) {source target loc : Location} (hsource : source ≠ [])
    (hloc : ¬ target <:+ loc) :
    (t.move source target).node? loc = if source <:+ loc then none else t.node? loc := by
  rcases eq_or_ne loc [] with rfl | hnil
  · simp [hsource]
  · have hne : loc ≠ target := by
      rintro rfl
      exact hloc List.suffix_rfl
    rw [node?_of_ne_nil _ hnil, node?_of_ne_nil _ hnil]
    split
    · next hsuffix =>
        rw [List.lookup_eq_none_iff]
        intro e he
        obtain ⟨e', -, rfl⟩ := List.mem_map.1 he
        rw [bne_iff_ne]
        intro heq
        obtain ⟨rfl, hnot⟩ := (rebase_eq_iff hloc).1 heq.symm
        exact hnot hsuffix
    · next hsuffix =>
        refine Eq.trans (lookup_map ?_) (lookup_filter_ne hne t.entries)
        intro e _
        rw [rebase_eq_iff hloc]
        constructor
        · exact And.left
        · rintro rfl
          exact ⟨rfl, hsuffix⟩

/-- What is where after a move to a location below which nothing is. -/
theorem node?_move (t : Tree) {source target : Location} (hsource : source ≠ [])
    (htarget : target ≠ []) (hst : ¬ source <:+ target)
    (hbelow : ∀ p, p ≠ [] → t.node? (p ++ target) = none) :
    (∀ p, (t.move source target).node? (p ++ target) = t.node? (p ++ source)) ∧
      ∀ loc, ¬ target <:+ loc → (t.move source target).node? loc =
        if source <:+ loc then none else t.node? loc := by
  constructor
  · intro p
    have hne : p ++ source ≠ target := by
      rintro rfl
      exact hst (List.suffix_append p source)
    rw [node?_of_ne_nil _ (by simp [htarget]), node?_of_ne_nil _ (by simp [hsource])]
    refine Eq.trans (lookup_map ?_) (lookup_filter_ne hne t.entries)
    intro e he
    rw [List.mem_filter, decide_eq_true_eq] at he
    apply rebase_eq_append_iff
    rintro heq
    rcases eq_or_ne p [] with rfl | hp
    · exact he.2 heq
    · exact node?_ne_none_of_mem he.1 (by rw [heq, hbelow p hp])
  · intro loc hloc
    exact t.node?_move_off hsource hloc

/-- Moving a node that is no directory changes the view at its old and its new
location only. -/
theorem Closed.node?_move {t : Tree} (ht : t.Closed) {source target : Location}
    (hsource : t.isDirectory source = false) (htarget : t.isDirectory target = false)
    (hst : ¬ source <:+ target) (hts : ¬ target <:+ source) (loc : Location) :
    (t.move source target).node? loc =
      if loc = target then t.node? source
      else if loc = source then none else t.node? loc := by
  have hsource' : source ≠ [] := by
    rintro rfl
    simp [isDirectory] at hsource
  have htarget' : target ≠ [] := by
    rintro rfl
    simp [isDirectory] at htarget
  obtain ⟨hat, hoff⟩ := t.node?_move hsource' htarget' hst
    fun p hp => ht.node?_below htarget hp
  by_cases hsuffix : target <:+ loc
  · obtain ⟨p, rfl⟩ := hsuffix
    rw [hat]
    rcases eq_or_ne p [] with rfl | hp
    · simp
    · have hne : p ++ target ≠ source := by
        rintro rfl
        exact hts (List.suffix_append p target)
      simp [hp, hne, ht.node?_below hsource hp, ht.node?_below htarget hp]
  · have hne : loc ≠ target := by
      rintro rfl
      exact hsuffix List.suffix_rfl
    rw [hoff loc hsuffix, if_neg hne]
    by_cases hsuffix' : source <:+ loc
    · obtain ⟨p, rfl⟩ := hsuffix'
      rcases eq_or_ne p [] with rfl | hp
      · simp
      · simp [ht.node?_below hsource hp]
    · have hne' : loc ≠ source := by
        rintro rfl
        exact hsuffix' List.suffix_rfl
      rw [if_neg hsuffix', if_neg hne']

section Closed

variable {t : Tree} {loc : Location}

/-- A tree stays closed when a node is put in a directory, in place of no directory. -/
theorem Closed.put (ht : t.Closed) {name : Name} (hdir : t.isDirectory loc = true)
    (hplace : t.isDirectory (name :: loc) = false) (node : Node) :
    (t.put (name :: loc) node).Closed := by
  have hkept : ∀ o, t.isDirectory o = true →
      (t.put (name :: loc) node).isDirectory o = true := by
    intro o ho
    have hne : o ≠ name :: loc := by
      rintro rfl
      rw [ho] at hplace
      cases hplace
    rwa [isDirectory, node?_put t (List.cons_ne_nil name loc), if_neg hne]
  intro name' outer hnode
  rw [node?_put t (List.cons_ne_nil name loc)] at hnode
  split at hnode
  · next heq =>
      obtain ⟨-, rfl⟩ := List.cons.inj heq
      exact hkept outer hdir
  · exact hkept outer (ht name' outer hnode)

/-- A tree stays closed when a node that is no directory is removed. -/
theorem Closed.erase (ht : t.Closed) (hloc : loc ≠ []) (hdir : t.isDirectory loc = false) :
    (t.erase loc).Closed := by
  intro name outer hnode
  rw [node?_erase t hloc] at hnode
  split at hnode
  · exact absurd rfl hnode
  · have houter := ht name outer hnode
    have hne : outer ≠ loc := by
      rintro rfl
      rw [houter] at hdir
      cases hdir
    rwa [isDirectory, node?_erase t hloc, if_neg hne]

theorem cons_not_suffix_self (name : Name) (loc : Location) : ¬ (name :: loc) <:+ loc :=
  fun h => Nat.not_succ_le_self loc.length h.length_le

/-- A tree stays closed when a node and all below it move to a name in a directory below
which nothing is. -/
theorem Closed.move (ht : t.Closed) {source : Location} {name : Name}
    (hsource : source ≠ []) (hdir : t.isDirectory loc = true)
    (hst : ¬ source <:+ name :: loc)
    (hbelow : ∀ p, p ≠ [] → t.node? (p ++ name :: loc) = none) :
    (t.move source (name :: loc)).Closed := by
  obtain ⟨hat, hoff⟩ := t.node?_move hsource (List.cons_ne_nil name loc) hst hbelow
  -- What is around a node that stays where it is stays there as well.
  have houtside : ∀ o, t.isDirectory o = true → ¬ source <:+ o → ¬ (name :: loc) <:+ o →
      (t.move source (name :: loc)).isDirectory o = true := by
    intro o ho hs ht'
    rwa [isDirectory, hoff o ht', if_neg hs]
  intro name' outer hnode
  by_cases hsuffix : (name :: loc) <:+ name' :: outer
  · obtain ⟨p, hp⟩ := hsuffix
    cases p with
    | nil =>
        obtain ⟨rfl, rfl⟩ := List.cons.inj hp
        exact houtside loc hdir (fun h => hst (h.trans (List.suffix_cons name loc)))
          (cons_not_suffix_self name loc)
    | cons first p =>
        rw [List.cons_append] at hp
        obtain ⟨rfl, rfl⟩ := List.cons.inj hp
        rw [← List.cons_append, hat] at hnode
        rw [isDirectory, hat]
        exact ht first _ hnode
  · rw [hoff _ hsuffix] at hnode
    split at hnode
    · exact absurd rfl hnode
    · next hsuffix' =>
        exact houtside outer (ht name' outer hnode)
          (fun h => hsuffix' (h.trans (List.suffix_cons name' outer)))
          (fun h => hsuffix (h.trans (List.suffix_cons name' outer)))

end Closed

end Tree

end BytecodeListing
