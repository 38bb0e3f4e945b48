import BytecodeListing.Proofs.Inspection
import BytecodeListing.Proofs.Rotation
import BytecodeListing.Proofs.Startup

/-!
# What starting the log leaves behind

A path encloses another one if it starts where that one does and its names are the first ones
of it (`Encloses`). Only enclosing paths are made directories for a log, so each directory that
is made is passed by the path of the log in the tree as it was before (`MakesWay`). A
generation is found by its own name, so a rotation changes nothing but what has the name of a
generation or is below it (`ofGeneration_of_rotate`). Together with the log itself these are
all locations where a tree with a started log differs from the tree before (`leaves_of_start`).
-/

namespace BytecodeListing

namespace Path

/-- The path is that of a directory around another path, or the other path itself: both start
at one place, and the names of the one are the first names of the other. -/
structure Encloses (q p : Path) : Prop where
  isAbsolute : q.isAbsolute = p.isAbsolute
  names : q.names <+: p.names

theorem Encloses.trans {r q p : Path} (h : r.Encloses q) (h' : q.Encloses p) : r.Encloses p :=
  ⟨h.isAbsolute.trans h'.isAbsolute, h.names.trans h'.names⟩

theorem Encloses.names_steps {q p : Path} (h : q.Encloses p) : q.names <+: p.steps := by
  rw [steps]
  split
  · exact h.names.trans (List.prefix_append _ _)
  · exact h.names

theorem notMem_of_mem_splitOn {α : Type} [DecidableEq α] {separator : α} {cs piece : List α}
    (h : piece ∈ cs.splitOn separator) : separator ∉ piece := by
  induction cs generalizing piece with
  | nil =>
      rw [List.splitOn_nil, List.mem_singleton] at h
      exact h ▸ List.not_mem_nil
  | cons c cs ih =>
      rw [List.splitOn_cons_eq_if_modifyHead] at h
      split at h
      · rcases List.mem_cons.1 h with rfl | h
        · exact List.not_mem_nil
        · exact ih h
      · next hc =>
          obtain ⟨first, more, hsplit⟩ :=
            List.exists_cons_of_ne_nil (List.splitOn_ne_nil separator cs)
          rw [hsplit] at h ih
          rcases List.mem_cons.1 h with rfl | h
          · exact List.not_mem_cons_of_ne_of_not_mem (fun heq => hc (beq_iff_eq.2 heq.symm))
              (ih List.mem_cons_self)
          · exact ih (List.mem_cons_of_mem first h)

theorem slash_notMem_of_mem_segments {p : Path} {s : Name} (h : s ∈ p.segments) :
    '/' ∉ s.toList := by
  obtain ⟨piece, hpiece, rfl⟩ := List.mem_map.1 h
  rw [String.toList_ofList]
  exact notMem_of_mem_splitOn hpiece

/-- Segments that are put together are found again. -/
theorem segments_intercalate {segments : List Name} (hne : segments ≠ [])
    (hslash : ∀ s ∈ segments, '/' ∉ s.toList) :
    (Path.mk ("/".intercalate segments)).segments = segments := by
  have hsplit : (['/'].intercalate (segments.map String.toList)).splitOn '/' =
      segments.map String.toList := by
    apply List.splitOn_intercalate
    · simpa using hslash
    · simpa using hne
  rw [Path.segments, String.toList_intercalate]
  exact (congrArg (List.map String.ofList) hsplit).trans (by simp)

/-- A path starts at the root if it is not empty and its first segment is. -/
theorem isAbsolute_iff (p : Path) :
    p.isAbsolute = true ↔ p.text ≠ "" ∧ p.segments.head? = some "" := by
  have htext : p.text ≠ "" ↔ p.text.toList ≠ [] := String.toList_eq_nil_iff.not.symm
  rw [isAbsolute, segments, htext]
  cases p.text.toList with
  | nil => simp
  | cons c cs =>
      rw [List.splitOn_cons_eq_if_modifyHead]
      split
      · next hc => simp_all
      · next hc =>
          obtain ⟨first, more, hsplit⟩ := List.exists_cons_of_ne_nil (List.splitOn_ne_nil '/' cs)
          simp_all

theorem suffix_of_mem_enclosing {back s : List Name} (h : s ∈ enclosing back) : s <:+ back := by
  induction back with
  | nil =>
      rw [enclosing, List.mem_singleton] at h
      exact h ▸ List.suffix_rfl
  | cons name outer ih =>
      rw [enclosing] at h
      split at h
      · exact (ih h).trans (List.suffix_cons name outer)
      · rcases List.mem_cons.1 h with rfl | h
        · exact List.suffix_rfl
        · exact (ih h).trans (List.suffix_cons name outer)

/-- A path of the first segments of another path encloses it. -/
theorem encloses_ofSegments {p : Path} {first : Name} {more further : List Name}
    (hne : p.text ≠ "") (hsegments : p.segments = first :: more)
    (hfurther : further <:+ more.reverse) : (ofSegments first further).Encloses p := by
  by_cases hroot : first = "" ∧ further = []
  · have habsolute : p.isAbsolute = true :=
      (isAbsolute_iff p).2 ⟨hne, by rw [hsegments, hroot.1]; rfl⟩
    have hnames : (Path.mk "/").names = [] := by
      decide +kernel
    rw [ofSegments, if_pos hroot]
    exact ⟨habsolute.symm, hnames ▸ List.nil_prefix⟩
  · have hfront : first :: further.reverse <+: p.segments := by
      rw [hsegments, List.prefix_cons_inj, ← List.reverse_reverse more, List.reverse_prefix]
      exact hfurther
    have hfound : (ofSegments first further).segments = first :: further.reverse := by
      rw [ofSegments, if_neg hroot]
      exact segments_intercalate (List.cons_ne_nil _ _) fun s hs =>
        slash_notMem_of_mem_segments (hfront.subset hs)
    have htext : (ofSegments first further).text ≠ "" := by
      intro hempty
      have hnone : (Path.mk "").segments = [""] := by
        decide +kernel
      rw [show ofSegments first further = ⟨""⟩ from congrArg Path.mk hempty, hnone] at hfound
      simp_all
    constructor
    · rw [Bool.eq_iff_iff, isAbsolute_iff, isAbsolute_iff, hfound, hsegments]
      exact and_congr_left' (iff_of_true htext hne)
    · rw [names, names, hfound]
      exact hfront.filter _

theorem encloses_of_mem_ancestors {q p : Path} (h : q ∈ p.ancestors) : q.Encloses p := by
  rw [ancestors] at h
  split at h
  · cases h
  next hne =>
  split at h
  · cases h
  next first further hsegments =>
  rcases List.mem_cons.1 h with rfl | h
  · exact ⟨rfl, List.prefix_rfl⟩
  · obtain ⟨s, hs, rfl⟩ := List.mem_map.1 h
    exact encloses_ofSegments hne hsegments (suffix_of_mem_enclosing (List.mem_of_mem_tail hs))

theorem encloses_of_parent? {parent p : Path} (h : p.parent? = some parent)
    (hne : parent.text ≠ "") : parent.Encloses p := by
  rw [parent?] at h
  split at h
  · cases h
  · split at h
    · cases h
    · cases h
      exact absurd rfl hne
  · next hancestors =>
      cases h
      exact encloses_of_mem_ancestors (by rw [hancestors]; simp)

end Path

namespace Tree

/-- Directories have been made on the way along a path, and nothing else has been done to a
tree. -/
structure MakesWay (p : Path) (t t' : Tree) : Prop extends AddsDirectories t t' where
  passes : ∀ o, t'.node? o ≠ t.node? o → t.Passes p o

section MakesWay

variable {t t' t'' : Tree} {p q : Path} {o : Location}

/-- What is passed where directories have been made was passed before. -/
theorem AddsDirectories.passes (h : t.AddsDirectories t') (ho : t'.Passes p o) :
    t.Passes p o := by
  rw [Passes, h.home] at ho
  refine ho.imp (fun o ho => ?_) fun o target ho => ?_
  · rcases h.node? o with hsame | ⟨hnone, -⟩
    · rwa [← hsame]
    · exact .inl hnone
  · rw [h.node?_eq_of_ne (by simp [ho]), ho]

namespace MakesWay

theorem refl (p : Path) (t : Tree) : t.MakesWay p t :=
  ⟨.refl t, fun _ ho => absurd rfl ho⟩

theorem trans (h : MakesWay p t t') (h' : MakesWay p t' t'') : MakesWay p t t'' where
  toAddsDirectories := h.toAddsDirectories.trans h'.toAddsDirectories
  passes o ho := by
    by_cases hsame : t'.node? o = t.node? o
    · exact h.toAddsDirectories.passes (h'.passes o fun heq => ho (heq.trans hsame))
    · exact h.passes o hsame

end MakesWay

/-- A place that some names lead to is on the way along every path that starts with them. -/
theorem passes_of_locate {aim : Aim} {names : List Name} {place : Place}
    (h : t.locate aim q names = .ok place) (habsolute : q.isAbsolute = p.isAbsolute)
    (hnames : names <+: p.steps) : t.Passes p place.location := by
  obtain ⟨-, seen, harrives⟩ := locate_eq_ok_iff.1 h
  obtain ⟨more, hmore⟩ := hnames
  have hmeets : t.Meets Makeable maxLinks (q.origin t.home) (names ++ more) place.location :=
    (harrives.meets.append more).imp (fun _ => .inr) fun _ _ => id
  rwa [hmore, Path.origin, habsolute] at hmeets

theorem makesWay_of_makeDirectory (hq : q.Encloses p) (h : t.makeDirectory q = .ok t') :
    t.MakesWay p t' := by
  refine ⟨addsDirectories_of_makeDirectory h, fun o ho => ?_⟩
  rw [makeDirectory] at h
  split at h
  · cases h
  · cases h
  · next directory name hlocate =>
      cases h
      rw [node?_put t (List.cons_ne_nil name directory)] at ho
      split at ho
      · next heq => exact heq ▸ passes_of_locate hlocate hq.isAbsolute hq.names_steps
      · exact absurd rfl ho

theorem makesWay_makeDirectory (hq : q.Encloses p) (t : Tree) :
    t.MakesWay p (t.perform (FileStore.makeDirectory q)).2 := by
  rw [perform_makeDirectory]
  cases h : t.makeDirectory q with
  | error fault => exact .refl p t
  | ok t' => exact makesWay_of_makeDirectory hq h

end MakesWay

end Tree

namespace LogDirectory

variable {t t' t'' : Tree}

theorem makesWay_ensure {d : LogDirectory} {p : Path} (hd : d.path.Encloses p) (t : Tree) :
    t.MakesWay p (t.perform d.ensure).2 :=
  d.relates_ensure (.refl p) .trans
    (fun _ hq t => t.makesWay_makeDirectory ((Path.encloses_of_mem_ancestors hq).trans hd)) t

/-- The location has the name of a generation or is below one that has. -/
def OfGeneration (o : Location) : Prop :=
  ∃ g ≤ generations, ∃ directory, (fileName g :: directory) <:+ o

/-- Nothing has been changed but what has the name of a generation or is below it. -/
def MovesGenerations (t t' : Tree) : Prop :=
  ∀ o, t'.node? o ≠ t.node? o → OfGeneration o

theorem MovesGenerations.refl (t : Tree) : MovesGenerations t t :=
  fun _ ho => absurd rfl ho

theorem MovesGenerations.trans (h : MovesGenerations t t') (h' : MovesGenerations t' t'') :
    MovesGenerations t t'' := by
  intro o ho
  by_cases hsame : t'.node? o = t.node? o
  · exact h' o fun heq => ho (heq.trans hsame)
  · exact h o hsame

section Generations

variable {d : LogDirectory} {g k : Nat}

/-- The place of a generation has its name, wherever the path of the directory leads. -/
theorem exists_location_of_locate (hg : g ≤ generations) {place : Place}
    (h : t.locate .node (d.file g) (d.file g).names = .ok place) :
    ∃ directory, place.location = fileName g :: directory := by
  have hplain := plain_fileName g hg
  obtain ⟨-, seen, harrives⟩ := Tree.locate_eq_ok_iff.1 h
  have hwalk := harrives.walk_eq
  rw [file, Path.names_join d.path hplain.2.1 (slash_notMem_fileName g hg)] at hwalk
  obtain ⟨there, via, hroute, hlinks⟩ := Tree.exists_route hplain hwalk
  rw [hroute.walk_append .node hlinks hplain, Tree.walk_eq,
    Tree.walkNames_plain hroute.isDirectory_end (by simp) hplain] at hwalk
  refine ⟨there, ?_⟩
  split at hwalk
  · cases hwalk
    rfl
  · cases hwalk
    rfl
  · cases hwalk
    rfl

theorem movesGenerations_remove (hg : g ≤ generations) (t : Tree) :
    MovesGenerations t (t.perform (FileStore.remove (d.file g))).2 := by
  rw [Tree.perform_remove]
  cases hremove : t.remove (d.file g) with
  | error fault => exact .refl t
  | ok t' =>
      rw [Tree.remove] at hremove
      split at hremove
      · cases hremove
      · cases hremove
      next loc hlocate =>
      split at hremove
      · cases hremove
      cases hremove
      obtain ⟨directory, hloc⟩ := exists_location_of_locate hg hlocate
      obtain rfl : loc = fileName g :: directory := hloc
      intro o ho
      rw [t.node?_erase (List.cons_ne_nil _ _)] at ho
      split at ho
      · next heq => exact ⟨g, hg, directory, heq ▸ List.suffix_rfl⟩
      · exact absurd rfl ho

theorem movesGenerations_rename (hg : g ≤ generations) (hk : k ≤ generations) (t : Tree) :
    MovesGenerations t (t.perform (FileStore.rename (d.file g) (d.file k))).2 := by
  rw [Tree.perform_rename]
  cases hrename : t.rename (d.file g) (d.file k) with
  | error fault => exact .refl t
  | ok t' =>
      obtain ⟨source, place, hsource, hplace, ⟨-, rfl⟩ | ⟨hst, hts, -, rfl⟩⟩ :=
        Tree.rename_cases hrename
      · exact .refl t'
      intro o ho
      obtain ⟨from', hfrom⟩ := exists_location_of_locate hg hsource
      obtain ⟨into, hinto⟩ := exists_location_of_locate hk hplace
      obtain rfl : source = fileName g :: from' := hfrom
      by_cases htarget : place.location <:+ o
      · exact ⟨k, hk, into, hinto ▸ htarget⟩
      · refine ⟨g, hg, from', ?_⟩
        by_contra hnot
        rw [t.node?_move_off (List.cons_ne_nil _ _) htarget, if_neg hnot] at ho
        exact ho rfl

theorem movesGenerations_rotate (d : LogDirectory) (t : Tree) :
    MovesGenerations t (t.perform d.rotate).2 :=
  relates_rotate .refl .trans
    (fun _ hg t => movesGenerations_rename (Nat.le_of_lt hg) hg t)
    (fun t => movesGenerations_remove (Nat.le_refl generations) t) t

end Generations

end LogDirectory

namespace LogFile

variable {t t' : Tree} {custom : Option Path} {file : Path}

theorem makesWay_prepare (p : Path) (t : Tree) :
    t.MakesWay p (t.perform (prepare (some p))).2 :=
  relates_prepare (.refl p) .trans p (fun _ hparent hne _ hq t =>
    t.makesWay_makeDirectory ((Path.encloses_of_mem_ancestors hq).trans
      (Path.encloses_of_parent? hparent hne))) t

theorem encloses_standard :
    LogDirectory.standard.path.Encloses LogDirectory.standard.current :=
  ⟨by decide +kernel, by decide +kernel⟩

/-- Before the log is opened a way is made for it, and then generations are moved only if no
other log has been asked for. -/
theorem exists_makesWay_prepare (custom : Option Path) (t : Tree) :
    ∃ made, t.MakesWay (path custom) made ∧
      ((t.perform (prepare custom)).2 = made ∨
        custom = none ∧ LogDirectory.MovesGenerations made (t.perform (prepare custom)).2) := by
  cases custom with
  | some p => exact ⟨_, makesWay_prepare p t, .inl rfl⟩
  | none =>
      refine ⟨_, LogDirectory.makesWay_ensure encloses_standard t, ?_⟩
      rcases perform_prepare_none t with hprepare | ⟨-, hprepare⟩
      · exact .inl hprepare
      · rw [hprepare]
        exact .inr ⟨rfl, LogDirectory.standard.movesGenerations_rotate _⟩

/-- What starting the log leaves behind at a location: a directory on the way to the log where
nothing was, the new and empty log where nothing was, or, if no other log has been asked for,
anything that has the name of a generation or is below it. The way is that in the tree before;
only a rotation can lead the path of the log to where it has not led before. -/
inductive Leaves (custom : Option Path) (t t' : Tree) (o : Location) : Prop
  | directory (hnew : t.node? o = none) (hmade : t'.node? o = some .directory)
      (hway : t.Passes (path custom) o)
  | log (hnew : t.node? o = none) (hopened : t'.Names (path custom) o .empty)
      (hway : custom ≠ none → t.Passes (path custom) o)
  | generation (hstandard : custom = none) (hname : LogDirectory.OfGeneration o)

/-- Starting the log changes a tree nowhere else. -/
theorem leaves_of_start (h : t.perform (start custom) = (.ok file, t')) {o : Location}
    (ho : t'.node? o ≠ t.node? o) : Leaves custom t t' o := by
  obtain ⟨hprepare, hopen⟩ := opened_of_start h
  obtain rfl := file_of_prepare hprepare
  obtain ⟨made, hway, hmoved⟩ := exists_makesWay_prepare custom t
  generalize (t.perform (prepare custom)).2 = prepared at hmoved hopen
  -- The location has been changed by making the way, by moving generations or by the opening.
  by_cases hkept : prepared.node? o = made.node? o
  · by_cases hopened : t'.node? o = prepared.node? o
    · have hchanged : made.node? o ≠ t.node? o := by
        rw [← hkept, ← hopened]
        exact ho
      rcases hway.node? o with hsame | ⟨hnew, hmade⟩
      · exact absurd hsame hchanged
      · exact .directory hnew (hopened.trans (hkept.trans hmade)) (hway.passes o hchanged)
    · obtain ⟨-, -, -, rfl⟩ | ⟨dir, name, hlocate, rfl⟩ := Tree.openAppend_cases hopen
      · exact absurd rfl hopened
      rw [prepared.node?_put (List.cons_ne_nil name dir)] at hopened
      split at hopened
      · next heq =>
          subst heq
          rw [(Tree.vacant_of_locate hlocate).2] at hkept
          refine .log ?_ (Tree.names_put_of_vacant hlocate .empty) fun hcustom => ?_
          · rcases hway.node? (name :: dir) with hsame | ⟨hnew, -⟩
            · rw [← hsame, ← hkept]
            · exact hnew
          · rcases hmoved with rfl | ⟨hnone, -⟩
            · exact hway.toAddsDirectories.passes
                (Tree.passes_of_locate hlocate rfl List.prefix_rfl)
            · exact absurd hnone hcustom
      · exact absurd rfl hopened
  · rcases hmoved with rfl | ⟨hnone, hmoves⟩
    · exact absurd rfl hkept
    · exact .generation hnone (hmoves o hkept)

end LogFile

end BytecodeListing
