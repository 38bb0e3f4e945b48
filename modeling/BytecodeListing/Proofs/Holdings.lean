import Mathlib.Data.Multiset.AddSub
import BytecodeListing.Proofs.TreeView

/-!
# What a tree holds

Nodes are counted over a whole tree: the contents of its files as a multiset, and the
number of its directories. A node that is removed takes itself out of the count
(`tally_erase`). A node that gets another name in its directory takes nothing out, as
long as there is at most a link with the new name (`tally_move`): a link is not counted.
-/

namespace BytecodeListing

namespace Node

/-- The content of a file. -/
def content? : Node → Option ByteArray
  | file content => some content
  | _ => none

/-- A mark for a directory. -/
def directory? : Node → Option Unit
  | directory => some ()
  | _ => none

end Node

namespace Tree

/-- Every location but the root is stored, and once only, and is in a directory. -/
structure WellFormed (t : Tree) : Prop where
  rootless : ∀ e ∈ t.entries, e.1 ≠ []
  distinct : (t.entries.map Prod.fst).Nodup
  closed : t.Closed

/-- What there is to count at the nodes of a tree. -/
def tally {α : Type} (count? : Node → Option α) (t : Tree) : Multiset α :=
  ↑(t.entries.filterMap fun e => count? e.2)

/-- The contents of all files, each as often as there are files with it. -/
def contents : Tree → Multiset ByteArray :=
  tally Node.content?

/-- The number of directories. -/
def directoryCount (t : Tree) : Nat :=
  (t.tally Node.directory?).card

/-- At most a link is at the location. -/
def Yielding (t : Tree) (loc : Location) : Prop :=
  t.node? loc = none ∨ ∃ target, t.node? loc = some (.link target)

theorem WellFormed.node?_of_mem {t : Tree} (ht : t.WellFormed) {e : Location × Node}
    (he : e ∈ t.entries) : t.node? e.1 = some e.2 := by
  rw [node?_of_ne_nil t (ht.rootless e he), List.lookup_eq_some_iff]
  obtain ⟨before, behind, hentries⟩ := List.append_of_mem he
  refine ⟨before, behind, hentries, fun e' he' => ?_⟩
  have hdistinct := ht.distinct
  rw [hentries, List.map_append, List.nodup_append'] at hdistinct
  rw [bne_iff_ne]
  intro heq
  exact hdistinct.2.2 (List.mem_map_of_mem he') (by simp [heq])

section Erase

variable {t : Tree} {loc : Location} {node : Node}

theorem WellFormed.erase (ht : t.WellFormed) (hloc : loc ≠ [])
    (hdir : t.isDirectory loc = false) : (t.erase loc).WellFormed where
  rootless e he := ht.rootless e (List.mem_of_mem_filter he)
  distinct := ht.distinct.sublist (List.filter_sublist.map Prod.fst)
  closed := ht.closed.erase hloc hdir

/-- Removing a node takes it out of the count. -/
theorem WellFormed.tally_erase (ht : t.WellFormed) (hloc : loc ≠ [])
    (hnode : t.node? loc = some node) {α : Type} (count? : Node → Option α) :
    (t.erase loc).tally count? + ↑(count? node).toList = t.tally count? := by
  have hne : t.node? loc ≠ none := hnode ▸ Option.some_ne_none node
  obtain ⟨e, he, rfl⟩ := exists_mem_of_node? hloc hne
  have hsnd : e.2 = node := Option.some.inj ((ht.node?_of_mem he).symm.trans hnode)
  obtain ⟨before, behind, hentries⟩ := List.append_of_mem he
  have hdistinct := ht.distinct
  rw [hentries, List.map_append, List.map_cons, List.nodup_middle,
    List.nodup_cons, ← List.map_append] at hdistinct
  have hfilter : t.entries.filter (fun e' => e'.1 ≠ e.1) = before ++ behind := by
    have hkeep : (before ++ behind).filter (fun e' => e'.1 ≠ e.1) = before ++ behind := by
      rw [List.filter_eq_self]
      intro e' he'
      rw [decide_eq_true_eq]
      intro heq
      exact hdistinct.1 (heq ▸ List.mem_map_of_mem he')
    rw [hentries, List.filter_append, List.filter_cons_of_neg (by simp),
      ← List.filter_append, hkeep]
  rw [tally, tally, Tree.erase, hfilter, hentries, List.filterMap_append,
    List.filterMap_append, List.filterMap_cons, hsnd, Multiset.coe_add, Multiset.coe_eq_coe,
    List.append_assoc]
  refine List.Perm.append_left _ (List.perm_append_comm.trans ?_)
  cases count? node <;> exact .refl _

end Erase

section Move

variable {t : Tree} {loc : Location} {a b : Name}

theorem Yielding.isDirectory {o : Location} (h : t.Yielding o) :
    t.isDirectory o = false := by
  rw [Tree.isDirectory]
  rcases h with h | ⟨target, h⟩ <;> rw [h]

/-- What is where when a node and all below it has got another name in its
directory. -/
theorem WellFormed.node?_move (ht : t.WellFormed) (hab : a ≠ b)
    (hb : t.Yielding (b :: loc)) :
    (∀ p, (t.move (a :: loc) (b :: loc)).node? (p ++ b :: loc) = t.node? (p ++ a :: loc)) ∧
      ∀ o, ¬ (b :: loc) <:+ o → (t.move (a :: loc) (b :: loc)).node? o =
        if (a :: loc) <:+ o then none else t.node? o := by
  apply Tree.node?_move t (List.cons_ne_nil a loc) (List.cons_ne_nil b loc)
  · intro hsuffix
    exact hab (List.cons.inj (hsuffix.eq_of_length rfl)).1
  · intro p hp
    exact ht.closed.node?_below hb.isDirectory hp

/-- Nothing that is stored is at or below a location with at most a link, but the
link. -/
theorem WellFormed.not_suffix_of_mem (ht : t.WellFormed) {o : Location}
    (ho : t.Yielding o) {e : Location × Node}
    (he : e ∈ t.entries.filter fun e => e.1 ≠ o) : ¬ o <:+ e.1 := by
  rw [List.mem_filter, decide_eq_true_eq] at he
  rintro ⟨p, hp⟩
  rcases eq_or_ne p [] with rfl | hne
  · exact he.2 hp.symm
  · apply node?_ne_none_of_mem he.1
    rw [← hp]
    exact ht.closed.node?_below ho.isDirectory hne

theorem rebase_injOn {source target x y : Location} (hx : ¬ target <:+ x)
    (hy : ¬ target <:+ y) (h : rebase source target x = rebase source target y) :
    x = y := by
  by_cases hsuffix : source <:+ x
  · obtain ⟨p, rfl⟩ := hsuffix
    have hne : y ≠ p ++ target := by
      rintro rfl
      exact hy (List.suffix_append p target)
    rw [rebase_append] at h
    exact ((rebase_eq_append_iff hne).1 h.symm).symm
  · rw [rebase_of_not_suffix hsuffix] at h
    exact ((rebase_eq_iff hx).1 h.symm).1.symm

/-- A tree stays well formed when a node gets another name in its directory. -/
theorem WellFormed.move (ht : t.WellFormed) (hab : a ≠ b) (ha : t.node? (a :: loc) ≠ none)
    (hb : t.Yielding (b :: loc)) : (t.move (a :: loc) (b :: loc)).WellFormed where
  rootless := by
    intro e hmem
    obtain ⟨e, he, rfl⟩ := List.mem_map.1 hmem
    by_cases hsuffix : (a :: loc) <:+ e.1
    · obtain ⟨p, hp⟩ := hsuffix
      simp only [← hp, rebase_append]
      simp
    · simp only [rebase_of_not_suffix hsuffix]
      exact ht.rootless e (List.mem_of_mem_filter he)
  distinct := by
    have hkeys : (t.move (a :: loc) (b :: loc)).entries.map Prod.fst =
        ((t.entries.filter fun e => e.1 ≠ b :: loc).map Prod.fst).map
          (rebase (a :: loc) (b :: loc)) := by
      simp [Tree.move]
    rw [hkeys]
    refine (ht.distinct.sublist (List.filter_sublist.map Prod.fst)).map_on ?_
    intro x hx y hy heq
    obtain ⟨e, he, rfl⟩ := List.mem_map.1 hx
    obtain ⟨e', he', rfl⟩ := List.mem_map.1 hy
    exact rebase_injOn (ht.not_suffix_of_mem hb he) (ht.not_suffix_of_mem hb he') heq
  closed := by
    apply ht.closed.move (List.cons_ne_nil a loc) (ht.closed a loc ha)
    · intro hsuffix
      exact hab (List.cons.inj (hsuffix.eq_of_length rfl)).1
    · intro p hp
      exact ht.closed.node?_below hb.isDirectory hp

/-- Giving a node another name takes nothing out of the count but a link. -/
theorem WellFormed.tally_move (ht : t.WellFormed) (source : Location) {target : Location}
    (htarget : t.Yielding target) {α : Type} {count? : Node → Option α}
    (hcount : ∀ p, count? (.link p) = none) :
    (t.move source target).tally count? = t.tally count? := by
  rw [tally, tally, Tree.move, List.filterMap_map, List.filterMap_filter]
  congr 1
  apply List.filterMap_congr
  intro e he
  by_cases hkey : e.1 = target
  · have hnode := ht.node?_of_mem he
    rcases htarget with hnone | ⟨p, hlink⟩
    · rw [hkey, hnone] at hnode
      cases hnode
    · rw [hkey, hlink] at hnode
      simp [hkey, ← Option.some.inj hnode, hcount]
  · simp [hkey]

/-- A directory keeps its place or has got the new name, or is below it. -/
theorem WellFormed.isDirectory_move (ht : t.WellFormed) (hab : a ≠ b)
    (hb : t.Yielding (b :: loc)) {o : Location} (ho : t.isDirectory o = true) :
    (t.move (a :: loc) (b :: loc)).isDirectory o = true ∨
      ∃ p, o = p ++ a :: loc ∧
        (t.move (a :: loc) (b :: loc)).isDirectory (p ++ b :: loc) = true := by
  by_cases ha' : (a :: loc) <:+ o
  · obtain ⟨p, rfl⟩ := ha'
    refine .inr ⟨p, rfl, ?_⟩
    rwa [Tree.isDirectory, (ht.node?_move hab hb).1]
  · have hb' : ¬ (b :: loc) <:+ o := by
      rintro ⟨p, rfl⟩
      rcases eq_or_ne p [] with rfl | hp
      · rw [List.nil_append, hb.isDirectory] at ho
        cases ho
      · rw [isDirectory_iff, ht.closed.node?_below hb.isDirectory hp] at ho
        cases ho
    left
    rwa [Tree.isDirectory, t.node?_move_off (List.cons_ne_nil a loc) hb', if_neg ha']

end Move

end Tree

end BytecodeListing
