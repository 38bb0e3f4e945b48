import BytecodeListing.Proofs.Holdings
import BytecodeListing.Proofs.Rotation
import BytecodeListing.Proofs.Routes

/-!
# What a rotation destroys

The generations may be anything here: files, directories, or links that lead somewhere
or nowhere, and the log directory may be reached through links. A rotation looks up the
directory anew for every generation, after the renames before have changed the tree.

As long as the way to the directory is *clear*, that is, every generation that the way
itself goes through is found, a rename never changes where the way leads: it leaves it as
it is or breaks it off. The name that a generation moves to is then free or the name of
a link, so that nothing but the oldest log is lost, also if the rotation fails half-way
(`rotate_losesOnlyOldest`). Where the limit on links hides such a generation, the
way can come to lead into another directory, where files are in the way
(`rotate_overwrites_behind_link_limit`).

A relative path of the log directory starts from the same location throughout. So where a
generation is a directory around that location the way breaks off when it moves up, and the
generations below it are not found any more.
-/

namespace BytecodeListing

namespace LogDirectory

/-- Where a generation is kept, if there is a way to the directory. -/
def slot? (d : LogDirectory) (t : Tree) (g : Nat) : Option Location :=
  match t.locate .node (d.file g) (d.file g).names with
  | .ok place => some place.location
  | .error _ => none

/-- What is kept as a generation; a link is not followed. -/
def generation? (d : LogDirectory) (t : Tree) (g : Nat) : Option Node :=
  (d.slot? t g).bind t.node?

/-- The content that a rotation drops: that of the oldest generation, if it is a
file. -/
def oldest (d : LogDirectory) (t : Tree) : Multiset ByteArray :=
  ↑((d.generation? t generations).bind Node.content?).toList

/-- The path of the directory leads to a location by the given links. -/
structure Reaches (d : LogDirectory) (t : Tree) (loc : Location) (via : List Location) :
    Prop where
  fits : ∀ g ≤ generations, (d.file g).fault? = none
  route : t.Route (d.path.origin t.home) d.path.names loc via
  within : via.length ≤ Tree.maxLinks

/-- Every generation whose link is followed on the way to the directory is found
itself. -/
def Clear (d : LogDirectory) (t : Tree) : Prop :=
  ∀ loc via, d.Reaches t loc via →
    ∀ g ≤ generations, fileName g :: loc ∈ via → (t.kind? (d.file g)).isSome = true

section Paths

variable {d : LogDirectory} {g k : Nat}

theorem zero_notMem_fileName : ∀ g ≤ generations, '\x00' ∉ (fileName g).toList := by
  decide +kernel

theorem contains_zero_text_file (hg : g ≤ generations) :
    (d.file g).text.toList.contains '\x00' = d.path.text.toList.contains '\x00' := by
  have hzero := zero_notMem_fileName g hg
  rw [file, Path.toList_text_join]
  split <;> simp [hzero]

theorem text_file_ne_empty (hg : g ≤ generations) : (d.file g).text ≠ "" := by
  have hname : (fileName g).toList ≠ [] := by simpa using (plain_fileName g hg).2.1
  intro hempty
  have hlist := congrArg String.toList hempty
  rw [file, Path.toList_text_join] at hlist
  split at hlist <;> simp_all

/-- Paths that are short enough are all followed, or none of them is. -/
theorem fault?_file_eq_none_iff (hg : g ≤ generations)
    (hlength : (d.file g).text.utf8ByteSize ≤ Path.maxLength) :
    (d.file g).fault? = none ↔ d.path.text.toList.contains '\x00' = false := by
  rw [Path.fault?, contains_zero_text_file hg, if_neg (text_file_ne_empty hg),
    if_neg (Nat.not_lt.2 hlength)]
  split <;> simp_all

theorem fileName_ne_succ (hg : g + 1 ≤ generations) : fileName g ≠ fileName (g + 1) :=
  fun heq => Nat.ne_of_lt (Nat.lt_succ_self g)
    (fileName_injOn g (Nat.le_of_succ_le hg) (g + 1) hg heq)

theorem slot_append_inj (hg : g ≤ generations) (hk : k ≤ generations)
    {p q loc : Location} (h : p ++ fileName g :: loc = q ++ fileName k :: loc) : g = k :=
  (slot_eq_iff hg hk loc).1 (List.append_inj_right' h rfl)

theorem not_slot_suffix (hg : g ≤ generations) (hk : k ≤ generations) (hne : g ≠ k)
    (p loc : Location) : ¬ (fileName g :: loc) <:+ p ++ fileName k :: loc := by
  rintro ⟨q, hq⟩
  exact hne (slot_append_inj hg hk hq)

end Paths

namespace Reaches

variable {d : LogDirectory} {t t' : Tree} {loc : Location} {via : List Location} {g : Nat}

theorem locate_file (h : d.Reaches t loc via) (aim : Aim) (hg : g ≤ generations) :
    t.locate aim (d.file g) (d.file g).names =
      t.walk aim (Tree.maxLinks - via.length) loc [fileName g] := by
  have hplain := plain_fileName g hg
  have hslash := slash_notMem_fileName g hg
  rw [Tree.locate, h.fits g hg]
  dsimp only
  rw [file, Path.names_join d.path hplain.2.1 hslash, Path.origin_join d.path hslash,
    h.route.walk_append aim h.within hplain]

theorem walk_fileName (h : d.Reaches t loc via) (aim : Aim) (links : Nat)
    (hg : g ≤ generations) :
    t.walk aim links loc [fileName g] =
      match t.node? (fileName g :: loc) with
      | none => .ok (.vacant loc (fileName g))
      | some (.link target) =>
          if aim = .node then .ok (.entry (fileName g :: loc))
          else t.enter aim links (target.origin loc) target.steps
      | some _ => .ok (.entry (fileName g :: loc)) := by
  rw [Tree.walk_eq, Tree.walkNames_plain h.route.isDirectory_end (by simp)
    (plain_fileName g hg)]
  cases t.node? (fileName g :: loc) with
  | none => simp
  | some node => cases node <;> simp [Tree.walkNames]

theorem locate_node (h : d.Reaches t loc via) (hg : g ≤ generations) :
    t.locate .node (d.file g) (d.file g).names = .ok (t.placeIn loc (fileName g)) := by
  rw [h.locate_file .node hg, h.walk_fileName .node _ hg, Tree.placeIn]
  split <;> simp_all

theorem slot?_eq (h : d.Reaches t loc via) (hg : g ≤ generations) :
    d.slot? t g = some (fileName g :: loc) := by
  rw [slot?, h.locate_node hg]
  simp

theorem generation?_eq (h : d.Reaches t loc via) (hg : g ≤ generations) :
    d.generation? t g = t.node? (fileName g :: loc) := by
  rw [generation?, h.slot?_eq hg, Option.bind_some]

section Presence

theorem kind?_of_node?_none (h : d.Reaches t loc via) (hg : g ≤ generations)
    (hnode : t.node? (fileName g :: loc) = none) : t.kind? (d.file g) = none := by
  rw [Tree.kind?, Tree.resolve, steps_file d hg, h.locate_file .target hg,
    h.walk_fileName .target _ hg, hnode]

/-- A generation that is not found is absent or a link. -/
theorem yielding (h : d.Reaches t loc via) (hg : g ≤ generations)
    (hkind : t.kind? (d.file g) = none) : t.Yielding (fileName g :: loc) := by
  rw [Tree.kind?, Tree.resolve, steps_file d hg, h.locate_file .target hg,
    h.walk_fileName .target _ hg] at hkind
  cases hnode : t.node? (fileName g :: loc) with
  | none => exact .inl hnode
  | some node =>
      cases node with
      | link target => exact .inr ⟨target, hnode⟩
      | file content => simp [hnode] at hkind
      | directory => simp [hnode] at hkind

/-- A link that leads to a directory is found if links are left for it. -/
theorem isSome_kind?_iff (h : d.Reaches t loc via) (hg : g ≤ generations)
    {target : Path} (hlink : t.node? (fileName g :: loc) = some (.link target))
    {there : Location} {via' : List Location}
    (hroute : t.Route (target.origin loc) target.steps there via') :
    (t.kind? (d.file g)).isSome = true ↔ via.length + via'.length < Tree.maxLinks := by
  have hthere := Tree.isDirectory_iff.1 hroute.isDirectory_end
  rw [Tree.kind?, Tree.resolve, steps_file d hg, h.locate_file .target hg,
    h.walk_fileName .target _ hg, hlink]
  have hlinks := h.within
  cases hleft : Tree.maxLinks - via.length with
  | zero =>
      simp [Tree.enter]
      omega
  | succ left =>
      simp only [reduceCtorEq, if_false, Tree.enter, hroute.walk_target]
      by_cases hle : via'.length ≤ left
      · simp [hle, hthere]
        omega
      · simp [hle]
        omega

end Presence

/-- Where the way to the directory is kept or broken off, it does not lead elsewhere. -/
theorem eq_of_kept (h : d.Reaches t loc via) (hhome : t'.home = t.home)
    (hkept : ∀ o, t.isDirectory o = true ∨ o ∈ via →
      t'.node? o = t.node? o ∨ t'.node? o = none)
    {loc' : Location} {via' : List Location} (h' : d.Reaches t' loc' via') :
    loc' = loc ∧ via' = via := by
  have hroute := h'.route
  rw [hhome] at hroute
  exact h.route.eq_of_kept hkept hroute

theorem clear_of_kept (h : d.Reaches t loc via) (hclear : d.Clear t)
    (hhome : t'.home = t.home)
    (hkept : ∀ o, t.isDirectory o = true ∨ o ∈ via →
      t'.node? o = t.node? o ∨ t'.node? o = none) : d.Clear t' := by
  intro loc' via' h' g hg hmem
  obtain ⟨rfl, rfl⟩ := h.eq_of_kept hhome hkept h'
  -- The link is followed on the way, so what it leads to is part of the way in both trees.
  obtain ⟨target, there, via, hlink, hroute, hsubset⟩ := h.route.exists_of_mem_via hmem
  obtain ⟨target', there', via', hlink', hroute', -⟩ := h'.route.exists_of_mem_via hmem
  have htarget : target' = target := by
    rcases hkept _ (.inr hmem) with hsame | hgone
    · rw [hsame, hlink] at hlink'
      cases hlink'
      rfl
    · rw [hgone] at hlink'
      cases hlink'
  subst htarget
  obtain ⟨rfl, rfl⟩ := hroute.eq_of_kept
    (fun o ho => hkept o (ho.imp_right fun hvia => hsubset hvia)) hroute'
  rw [h'.isSome_kind?_iff hg hlink' hroute', ← h.isSome_kind?_iff hg hlink hroute]
  exact hclear _ _ h g hg hmem

end Reaches

section Absence

variable {d : LogDirectory} {t : Tree}
  (hlength : ∀ g ≤ generations, (d.file g).text.utf8ByteSize ≤ Path.maxLength)

include hlength in
/-- A generation whose path leads somewhere is in a directory that is reached. -/
theorem exists_reaches {g : Nat} (hg : g ≤ generations) {aim : Aim} {place : Place}
    (hlocate : t.locate aim (d.file g) (d.file g).names = .ok place) :
    ∃ loc via, d.Reaches t loc via := by
  have hplain := plain_fileName g hg
  have hslash := slash_notMem_fileName g hg
  rw [Tree.locate] at hlocate
  cases hfault : (d.file g).fault? with
  | some fault => simp [hfault] at hlocate
  | none =>
      rw [hfault] at hlocate
      dsimp only at hlocate
      rw [file, Path.names_join d.path hplain.2.1 hslash,
        Path.origin_join d.path hslash] at hlocate
      obtain ⟨loc, via, hroute, hwithin⟩ := Tree.exists_route hplain hlocate
      have hzero := (fault?_file_eq_none_iff hg (hlength g hg)).1 hfault
      exact ⟨loc, via, fun k hk => (fault?_file_eq_none_iff hk (hlength k hk)).2 hzero,
        hroute, hwithin⟩

include hlength in
theorem kind?_of_unreached (h : ¬ ∃ loc via, d.Reaches t loc via) {g : Nat}
    (hg : g ≤ generations) : t.kind? (d.file g) = none := by
  rw [Tree.kind?, Tree.resolve, steps_file d hg]
  cases hlocate : t.locate .target (d.file g) (d.file g).names with
  | error fault => rfl
  | ok place => exact absurd (exists_reaches hlength hg hlocate) h

include hlength in
theorem slot?_of_unreached (h : ¬ ∃ loc via, d.Reaches t loc via) {g : Nat}
    (hg : g ≤ generations) : d.slot? t g = none := by
  rw [slot?]
  cases hlocate : t.locate .node (d.file g) (d.file g).names with
  | error fault => rfl
  | ok place => exact absurd (exists_reaches hlength hg hlocate) h

end Absence

section Steps

variable {d : LogDirectory} {t t' : Tree} {n : Nat} {fault : FileFault}

theorem shift_succ_of_absent (h : t.kind? (d.file n) = none) :
    t.perform (d.shift (n + 1)) = t.perform (d.shift n) := by
  rw [shift, Tree.perform_bind, Tree.perform_present, h]
  rfl

theorem shift_succ_of_renamed (h : t.kind? (d.file n) ≠ none)
    (hrename : t.rename (d.file n) (d.file (n + 1)) = .ok t') :
    t.perform (d.shift (n + 1)) = t'.perform (d.shift n) := by
  rw [shift, Tree.perform_bind, Tree.perform_present, Option.ne_none_iff_isSome.1 h]
  simp only [if_true]
  rw [Tree.perform_bind, Tree.perform_rename, hrename]

theorem shift_succ_of_fault (h : t.kind? (d.file n) ≠ none)
    (hrename : t.rename (d.file n) (d.file (n + 1)) = .error fault) :
    t.perform (d.shift (n + 1)) = (.error (.unusable (d.file n) fault), t) := by
  rw [shift, Tree.perform_bind, Tree.perform_present, Option.ne_none_iff_isSome.1 h]
  simp only [if_true]
  rw [Tree.perform_bind, Tree.perform_rename, hrename]
  rfl

theorem shift_add_of_absent {m : Nat}
    (h : ∀ g, n ≤ g → g < n + m → t.kind? (d.file g) = none) :
    t.perform (d.shift (n + m)) = t.perform (d.shift n) := by
  induction m with
  | zero => rfl
  | succ m ih =>
      rw [← Nat.add_assoc, shift_succ_of_absent (h (n + m) (by omega) (by omega))]
      exact ih fun g hle hlt => h g hle (by omega)

theorem shift_of_absent (h : ∀ g < n, t.kind? (d.file g) = none) :
    t.perform (d.shift n) = (.ok (), t) := by
  have hshift := shift_add_of_absent (d := d) (t := t) (n := 0) (m := n)
    fun g _ hg => h g (by omega)
  rwa [Nat.zero_add] at hshift

theorem rotate_of_absent (h : t.kind? (d.file generations) = none) :
    t.perform d.rotate = t.perform (d.shift generations) := by
  rw [rotate, Tree.perform_bind, Tree.perform_present, h]
  rfl

theorem rotate_of_removed (h : t.kind? (d.file generations) ≠ none)
    (hremove : t.remove (d.file generations) = .ok t') :
    t.perform d.rotate = t'.perform (d.shift generations) := by
  rw [rotate, Tree.perform_bind, Tree.perform_present, Option.ne_none_iff_isSome.1 h]
  simp only [if_true]
  rw [Tree.perform_bind, Tree.perform_remove, hremove]

theorem rotate_of_fault (h : t.kind? (d.file generations) ≠ none)
    (hremove : t.remove (d.file generations) = .error fault) :
    t.perform d.rotate = (.error (.unusable (d.file generations) fault), t) := by
  rw [rotate, Tree.perform_bind, Tree.perform_present, Option.ne_none_iff_isSome.1 h]
  simp only [if_true]
  rw [Tree.perform_bind, Tree.perform_remove, hremove]
  rfl

end Steps

/-- What dropping the oldest generation does to a tree. -/
structure Drops (loc : Location) (t t' : Tree) : Prop where
  wellFormed : t'.WellFormed
  tally : ∀ {α : Type} (count? : Node → Option α), (∀ p, count? (.link p) = none) →
    t'.tally count? + ↑((t.node? (fileName generations :: loc)).bind count?).toList =
      t.tally count?
  node? : ∀ o, o ≠ fileName generations :: loc → t'.node? o = t.node? o

/-- What moving up the generations below `n` does to a tree, whether or not it comes to
its end: nothing is taken out of the count, and a directory keeps its place or moves
with its generation. -/
structure Shifts (loc : Location) (n : Nat) (t t' : Tree) : Prop where
  tally : ∀ {α : Type} (count? : Node → Option α), (∀ p, count? (.link p) = none) →
    t'.tally count? = t.tally count?
  isDirectory : ∀ o, t.isDirectory o = true → t'.isDirectory o = true ∨
    ∃ g < n, ∃ p, o = p ++ fileName g :: loc ∧
      t'.isDirectory (p ++ fileName (g + 1) :: loc) = true

/-- Moving up stops at generation `k`: it is a directory, and nothing at or below the
generations up to it has changed. -/
structure StopsAt (loc : Location) (k : Nat) (t t' : Tree) : Prop where
  isDirectory : t.isDirectory (fileName k :: loc) = true
  node? : ∀ g ≤ k, ∀ p, t'.node? (p ++ fileName g :: loc) = t.node? (p ++ fileName g :: loc)

theorem StopsAt.of_eq {loc : Location} {k : Nat} {t t' t'' : Tree}
    (h : StopsAt loc k t' t'')
    (hsame : ∀ g ≤ k, ∀ p, t'.node? (p ++ fileName g :: loc) =
      t.node? (p ++ fileName g :: loc)) : StopsAt loc k t t'' := by
  refine ⟨?_, fun g hg p => (h.node? g hg p).trans (hsame g hg p)⟩
  have hnode := hsame k (Nat.le_refl k) []
  rw [List.nil_append] at hnode
  rw [Tree.isDirectory, ← hnode]
  exact h.isDirectory

namespace Shifts

variable {loc : Location} {n : Nat} {t t' t'' : Tree}

theorem refl (loc : Location) (n : Nat) (t : Tree) : Shifts loc n t t :=
  ⟨fun _ _ => rfl, fun _ ho => .inl ho⟩

theorem succ (h : Shifts loc n t t') : Shifts loc (n + 1) t t' := by
  refine ⟨h.tally, fun o ho => (h.isDirectory o ho).imp_right ?_⟩
  rintro ⟨g, hg, hp⟩
  exact ⟨g, Nat.lt_succ_of_lt hg, hp⟩

/-- One generation moves up before those below it. -/
theorem move (ht : t.WellFormed) (hn : n + 1 ≤ generations)
    (hfree : t.Yielding (fileName (n + 1) :: loc))
    (h : Shifts loc n (t.move (fileName n :: loc) (fileName (n + 1) :: loc)) t'') :
    Shifts loc (n + 1) t t'' := by
  refine ⟨fun count? hcount => (h.tally count? hcount).trans (ht.tally_move _ hfree hcount),
    fun o ho => ?_⟩
  rcases ht.isDirectory_move (fileName_ne_succ hn) hfree ho with hstays | ⟨p, rfl, hmoved⟩
  · exact h.succ.isDirectory o hstays
  · refine .inr ⟨n, Nat.lt_succ_self n, p, rfl, ?_⟩
    rcases h.isDirectory _ hmoved with hstays | ⟨g, hg, q, heq, -⟩
    · exact hstays
    · -- The generations that move later are all below the name moved to.
      have hgn := slot_append_inj hn (by omega) heq
      omega

end Shifts

/-- Where a generation has moved up its name is free. -/
theorem node?_move_self (t : Tree) (loc : Location) {n : Nat} (hn : n + 1 ≤ generations) :
    (t.move (fileName n :: loc) (fileName (n + 1) :: loc)).node? (fileName n :: loc) =
      none := by
  have hsuffix : ¬ (fileName (n + 1) :: loc) <:+ fileName n :: loc :=
    not_slot_suffix hn (Nat.le_of_succ_le hn) (Nat.succ_ne_self n) [] loc
  rw [t.node?_move_off (List.cons_ne_nil _ _) hsuffix, if_pos List.suffix_rfl]

/-- Moving up one generation leaves those below it as they are. -/
theorem node?_move_below (t : Tree) (loc : Location) {n g : Nat} (hn : n + 1 ≤ generations)
    (hg : g < n) (p : Location) :
    (t.move (fileName n :: loc) (fileName (n + 1) :: loc)).node? (p ++ fileName g :: loc) =
      t.node? (p ++ fileName g :: loc) := by
  have hgn : g ≤ generations := by omega
  rw [t.node?_move_off (List.cons_ne_nil _ _) (not_slot_suffix hn hgn (by omega) p loc),
    if_neg (not_slot_suffix (by omega) hgn (by omega) p loc)]

namespace Reaches

variable {d : LogDirectory} {t : Tree} {loc : Location} {via : List Location} {n : Nat}

/-- Behind a step that frees a generation the directory is still reached, or no
generation is found any more. -/
theorem free_or_absent (h : d.Reaches t loc via) (hclear : d.Clear t)
    (hlength : ∀ g ≤ generations, (d.file g).text.utf8ByteSize ≤ Path.maxLength)
    {t' : Tree} (hhome : t'.home = t.home)
    (hkept : ∀ o, t.isDirectory o = true ∨ o ∈ via →
      t'.node? o = t.node? o ∨ t'.node? o = none)
    (hn : n ≤ generations) (hfree : t'.node? (fileName n :: loc) = none) :
    (d.Reaches t' loc via ∧ d.Clear t' ∧ t'.kind? (d.file n) = none) ∨
      ∀ g ≤ generations, t'.kind? (d.file g) = none := by
  by_cases hreach : ∃ loc' via', d.Reaches t' loc' via'
  · obtain ⟨loc', via', hreach⟩ := hreach
    obtain ⟨rfl, rfl⟩ := h.eq_of_kept hhome hkept hreach
    exact .inl ⟨hreach, h.clear_of_kept hclear hhome hkept,
      hreach.kind?_of_node?_none hn hfree⟩
  · exact .inr fun g hg => kind?_of_unreached hlength hreach hg

theorem rename_file (h : d.Reaches t loc via) (hn : n + 1 ≤ generations)
    (hnode : t.node? (fileName n :: loc) ≠ none)
    (hfree : t.Yielding (fileName (n + 1) :: loc)) :
    t.rename (d.file n) (d.file (n + 1)) =
      if t.isDirectory (fileName n :: loc) ∧ t.node? (fileName (n + 1) :: loc) ≠ none then
        .error .notDirectory
      else
        .ok (t.move (fileName n :: loc) (fileName (n + 1) :: loc)) := by
  have hn' : n ≤ generations := Nat.le_of_succ_le hn
  obtain ⟨node, hnode⟩ := Option.ne_none_iff_exists'.1 hnode
  have hentry : t.placeIn loc (fileName n) = .entry (fileName n :: loc) := by
    rw [Tree.placeIn, hnode]
  rw [Tree.rename, h.locate_node hn', h.locate_node hn, hentry]
  simp only [Tree.location_placeIn, slot_eq_iff hn' hn, slot_suffix_iff hn' hn,
    slot_suffix_iff hn hn', List.isSuffixOf_iff_suffix, Nat.ne_of_lt (Nat.lt_succ_self n),
    Nat.ne_of_gt (Nat.lt_succ_self n), if_false]
  rcases hfree with hnone | ⟨target, hlink⟩
  · cases hdir : t.isDirectory (fileName n :: loc) <;> simp [hnone]
  · cases hdir : t.isDirectory (fileName n :: loc) <;> simp [hlink]

/-- Moving a generation up keeps the directories and the way to the log directory, or
removes them. -/
theorem kept_move (h : d.Reaches t loc via) (ht : t.WellFormed) (hclear : d.Clear t)
    (hn : n + 1 ≤ generations) (hkind : t.kind? (d.file (n + 1)) = none) (o : Location)
    (ho : t.isDirectory o = true ∨ o ∈ via) :
    (t.move (fileName n :: loc) (fileName (n + 1) :: loc)).node? o = t.node? o ∨
      (t.move (fileName n :: loc) (fileName (n + 1) :: loc)).node? o = none := by
  have hfree := h.yielding hn hkind
  by_cases hsuffix : (fileName (n + 1) :: loc) <:+ o
  · exfalso
    obtain ⟨p, rfl⟩ := hsuffix
    cases p with
    | nil =>
        rcases ho with hdir | hvia
        · rw [List.nil_append, hfree.isDirectory] at hdir
          cases hdir
        · -- A link on the way would be found, since the way is clear.
          have hsome := hclear loc via h (n + 1) hn hvia
          rw [hkind] at hsome
          cases hsome
    | cons name p =>
        have hnone := ht.closed.node?_below hfree.isDirectory (List.cons_ne_nil name p)
        rcases ho with hdir | hvia
        · rw [Tree.isDirectory_iff, hnone] at hdir
          cases hdir
        · obtain ⟨target, -, -, hlink, -⟩ := h.route.exists_of_mem_via hvia
          cases hnone.symm.trans hlink
  · rw [(ht.node?_move (fileName_ne_succ hn) hfree).2 o hsuffix]
    split
    · exact .inr rfl
    · exact .inl rfl

/-- Moving up the generations below one that is not found takes nothing out of the
count, and it fails only at a directory. -/
theorem shift (h : d.Reaches t loc via) (ht : t.WellFormed) (hclear : d.Clear t)
    (hlength : ∀ g ≤ generations, (d.file g).text.utf8ByteSize ≤ Path.maxLength)
    (hn : n ≤ generations) (hkind : t.kind? (d.file n) = none) :
    Shifts loc n t (t.perform (d.shift n)).2 ∧
      ((t.perform (d.shift n)).1 = .ok () ∨
        ∃ k < n, (t.perform (d.shift n)).1 = .error (.unusable (d.file k) .notDirectory) ∧
          StopsAt loc k t (t.perform (d.shift n)).2) := by
  induction n generalizing t with
  | zero => exact ⟨.refl loc 0 t, .inl rfl⟩
  | succ n ih =>
      have hn' : n ≤ generations := Nat.le_of_succ_le hn
      cases hpresent : t.kind? (d.file n) with
      | none =>
          rw [shift_succ_of_absent hpresent]
          obtain ⟨hshifts, hresult⟩ := ih h ht hclear hn' hpresent
          refine ⟨hshifts.succ, hresult.imp_right ?_⟩
          rintro ⟨k, hk, hstop⟩
          exact ⟨k, Nat.lt_succ_of_lt hk, hstop⟩
      | some kind =>
          have hfree := h.yielding hn hkind
          have hkind' : t.kind? (d.file n) ≠ none := hpresent ▸ Option.some_ne_none kind
          have hnode := mt (h.kind?_of_node?_none hn') hkind'
          have hrename := h.rename_file hn hnode hfree
          split at hrename
          · next hstop =>
            rw [shift_succ_of_fault hkind' hrename]
            exact ⟨.refl loc (n + 1) t, .inr ⟨n, Nat.lt_succ_self n, rfl, hstop.1,
              fun _ _ _ => rfl⟩⟩
          · rw [shift_succ_of_renamed hkind' hrename]
            have hhome : (t.move (fileName n :: loc) (fileName (n + 1) :: loc)).home =
              t.home := rfl
            rcases h.free_or_absent hclear hlength hhome (h.kept_move ht hclear hn hkind)
              hn' (node?_move_self t loc hn) with ⟨hreach, hclear', hkind'⟩ | habsent
            · obtain ⟨hshifts, hresult⟩ := ih hreach
                (ht.move (fileName_ne_succ hn) hnode hfree) hclear' hn' hkind'
              refine ⟨hshifts.move ht hn hfree, hresult.imp_right ?_⟩
              rintro ⟨k, hk, hfault, hstops⟩
              exact ⟨k, Nat.lt_succ_of_lt hk, hfault, hstops.of_eq fun g hg p =>
                node?_move_below t loc hn (Nat.lt_of_le_of_lt hg hk) p⟩
            · -- The generation was on the way to the directory: nothing more is found.
              rw [shift_of_absent fun g hg => habsent g (Nat.le_trans (Nat.le_of_lt hg) hn')]
              exact ⟨(Shifts.refl loc n _).move ht hn hfree, .inl rfl⟩

theorem rotate_of_isDirectory (h : d.Reaches t loc via)
    (hdir : t.isDirectory (fileName generations :: loc) = true) :
    t.perform d.rotate = (.error (.unusable (d.file generations) .isDirectory), t) := by
  have hg := Nat.le_refl generations
  have hnode := Tree.isDirectory_iff.1 hdir
  have hkind : t.kind? (d.file generations) ≠ none := by
    intro hnone
    rw [(h.yielding hg hnone).isDirectory] at hdir
    cases hdir
  refine rotate_of_fault hkind ?_
  rw [Tree.remove, h.locate_node hg, Tree.placeIn, hnode]
  simp [hnode]

theorem rotate_of_not_isDirectory (h : d.Reaches t loc via) (ht : t.WellFormed)
    (hclear : d.Clear t)
    (hlength : ∀ g ≤ generations, (d.file g).text.utf8ByteSize ≤ Path.maxLength)
    (hdir : t.isDirectory (fileName generations :: loc) = false) :
    ∃ t', t.perform d.rotate = t'.perform (d.shift generations) ∧ Drops loc t t' ∧
      ((d.Reaches t' loc via ∧ d.Clear t' ∧ t'.kind? (d.file generations) = none) ∨
        ∀ g ≤ generations, t'.kind? (d.file g) = none) := by
  have hg := Nat.le_refl generations
  cases hkind : t.kind? (d.file generations) with
  | none =>
      refine ⟨t, rotate_of_absent hkind, ⟨ht, fun count? hcount => ?_, fun _ _ => rfl⟩,
        .inl ⟨h, hclear, hkind⟩⟩
      rcases h.yielding hg hkind with hnone | ⟨target, hlink⟩
      · simp [hnone]
      · simp [hlink, hcount]
  | some kind =>
      have hne : fileName generations :: loc ≠ [] := List.cons_ne_nil _ _
      have hview := t.node?_erase hne
      have hkind' : t.kind? (d.file generations) ≠ none := hkind ▸ Option.some_ne_none kind
      obtain ⟨node, hnode⟩ :=
        Option.ne_none_iff_exists'.1 (mt (h.kind?_of_node?_none hg) hkind')
      refine ⟨t.erase (fileName generations :: loc), ?_,
        ⟨ht.erase hne hdir, fun count? _ => ?_, fun o ho => ?_⟩, ?_⟩
      · refine rotate_of_removed hkind' ?_
        rw [Tree.remove, h.locate_node hg, Tree.placeIn, hnode]
        simp [hdir]
      · rw [hnode]
        exact ht.tally_erase hne hnode count?
      · rw [hview, if_neg ho]
      · refine h.free_or_absent hclear hlength rfl (fun o _ => ?_) hg ?_
        · rw [hview]
          split
          · exact .inr rfl
          · exact .inl rfl
        · rw [hview, if_pos rfl]

/-- A rotation that is not refused at once drops the oldest generation, and what it
moves up takes nothing out of the count. -/
theorem rotate (h : d.Reaches t loc via) (ht : t.WellFormed) (hclear : d.Clear t)
    (hlength : ∀ g ≤ generations, (d.file g).text.utf8ByteSize ≤ Path.maxLength)
    (hdir : t.isDirectory (fileName generations :: loc) = false) :
    ∃ t', Drops loc t t' ∧ Shifts loc generations t' (t.perform d.rotate).2 ∧
      ((t.perform d.rotate).1 = .ok () ∨ ∃ k < generations,
        (t.perform d.rotate).1 = .error (.unusable (d.file k) .notDirectory) ∧
          StopsAt loc k t (t.perform d.rotate).2) := by
  obtain ⟨t', hrotate, hdrops, hstep⟩ := h.rotate_of_not_isDirectory ht hclear hlength hdir
  rw [hrotate]
  rcases hstep with ⟨hreach, hclear', hkind⟩ | habsent
  · obtain ⟨hshifts, hresult⟩ :=
      hreach.shift hdrops.wellFormed hclear' hlength (Nat.le_refl generations) hkind
    refine ⟨t', hdrops, hshifts, hresult.imp_right ?_⟩
    rintro ⟨k, hk, hfault, hstops⟩
    refine ⟨k, hk, hfault, hstops.of_eq fun g hg p => hdrops.node? _ fun heq => ?_⟩
    have hgk := slot_append_inj (by omega) (Nat.le_refl generations)
      (heq.trans (List.nil_append _).symm)
    omega
  · rw [shift_of_absent fun g hg => habsent g (Nat.le_of_lt hg)]
    exact ⟨t', hdrops, .refl loc generations t', .inl rfl⟩

end Reaches

theorem Drops.isDirectory {loc : Location} {t t' : Tree} (h : Drops loc t t')
    (hdir : t.isDirectory (fileName generations :: loc) = false) {o : Location}
    (ho : t.isDirectory o = true) : t'.isDirectory o = true := by
  have hne : o ≠ fileName generations :: loc := by
    rintro rfl
    rw [hdir] at ho
    cases ho
  rwa [Tree.isDirectory, h.node? o hne]

/-- Between a tree and what a rotation leaves of it nothing but the oldest log is
lost, whether or not the rotation has succeeded. -/
structure LosesOnlyOldest (d : LogDirectory) (t : Tree) (result : Except LogFault Unit)
    (t' : Tree) : Prop where
  /-- The contents of all files are those from before without the oldest log. -/
  contents : t'.contents + d.oldest t = t.contents
  directoryCount : t'.directoryCount = t.directoryCount
  /-- A directory keeps its place or moves up with its generation. -/
  isDirectory : ∀ o, t.isDirectory o = true → t'.isDirectory o = true ∨
    ∃ g < generations, ∃ p slot slot', d.slot? t g = some slot ∧
      d.slot? t (g + 1) = some slot' ∧ o = p ++ slot ∧ t'.isDirectory (p ++ slot') = true
  /-- If the oldest generation is a directory, nothing is done. -/
  refused : d.generation? t generations = some .directory →
    result = .error (.unusable (d.file generations) .isDirectory) ∧ t' = t
  /-- A rotation fails at a directory, and nothing at or below the generations up to it
  has changed. -/
  failed : ∀ fault, result = .error fault → ∃ k ≤ generations, ∃ cause,
    fault = .unusable (d.file k) cause ∧ d.generation? t k = some .directory ∧
      ∀ g ≤ k, ∀ slot, d.slot? t g = some slot →
        ∀ p, t'.node? (p ++ slot) = t.node? (p ++ slot)

namespace Reaches

variable {d : LogDirectory} {t : Tree} {loc : Location} {via : List Location}

theorem losesOnlyOldest_of_isDirectory (h : d.Reaches t loc via)
    (hdir : t.isDirectory (fileName generations :: loc) = true) :
    d.LosesOnlyOldest t (t.perform d.rotate).1 (t.perform d.rotate).2 := by
  have hnode : d.generation? t generations = some .directory := by
    rw [h.generation?_eq (Nat.le_refl generations), Tree.isDirectory_iff.1 hdir]
  rw [h.rotate_of_isDirectory hdir]
  refine ⟨?_, rfl, fun _ ho => .inl ho, fun _ => ⟨rfl, rfl⟩, ?_⟩
  · simp [oldest, hnode, Node.content?]
  · rintro fault hfault
    cases hfault
    exact ⟨generations, Nat.le_refl _, .isDirectory, rfl, hnode, fun _ _ _ _ _ => rfl⟩

theorem losesOnlyOldest (h : d.Reaches t loc via) (ht : t.WellFormed) (hclear : d.Clear t)
    (hlength : ∀ g ≤ generations, (d.file g).text.utf8ByteSize ≤ Path.maxLength)
    (hdir : t.isDirectory (fileName generations :: loc) = false) :
    d.LosesOnlyOldest t (t.perform d.rotate).1 (t.perform d.rotate).2 := by
  obtain ⟨t', hdrops, hshifts, hresult⟩ := h.rotate ht hclear hlength hdir
  have holdest := h.generation?_eq (Nat.le_refl generations)
  refine ⟨?_, ?_, fun o ho => ?_, fun hrefused => ?_, fun fault hfault => ?_⟩
  · rw [Tree.contents, hshifts.tally _ fun _ => rfl, oldest, holdest]
    exact hdrops.tally _ fun _ => rfl
  · have hcount := congrArg Multiset.card (hdrops.tally Node.directory? fun _ => rfl)
    have hnone : (t.node? (fileName generations :: loc)).bind Node.directory? = none := by
      rw [Tree.isDirectory] at hdir
      cases hnode : t.node? (fileName generations :: loc) with
      | none => rfl
      | some node => cases node <;> simp_all [Node.directory?]
    rw [Tree.directoryCount, hshifts.tally _ fun _ => rfl, Tree.directoryCount, ← hcount,
      hnone]
    simp
  · rcases hshifts.isDirectory o (hdrops.isDirectory hdir ho) with hstays | ⟨g, hg, p, hp⟩
    · exact .inl hstays
    · exact .inr ⟨g, hg, p, _, _, h.slot?_eq (Nat.le_of_lt hg), h.slot?_eq hg, hp⟩
  · rw [holdest, ← Tree.isDirectory_iff, hdir] at hrefused
    cases hrefused
  · rcases hresult with hok | ⟨k, hk, hstop, hstops⟩
    · rw [hok] at hfault
      cases hfault
    · rw [hstop] at hfault
      cases hfault
      have hk' := Nat.le_of_lt hk
      refine ⟨k, hk', .notDirectory, rfl, ?_, fun g hg slot hslot => ?_⟩
      · rw [h.generation?_eq hk', Tree.isDirectory_iff.1 hstops.isDirectory]
      · rw [h.slot?_eq (Nat.le_trans hg hk')] at hslot
        cases hslot
        exact hstops.node? g hg

end Reaches

theorem losesOnlyOldest_of_unreached {d : LogDirectory} {t : Tree}
    (hlength : ∀ g ≤ generations, (d.file g).text.utf8ByteSize ≤ Path.maxLength)
    (h : ¬ ∃ loc via, d.Reaches t loc via) :
    d.LosesOnlyOldest t (t.perform d.rotate).1 (t.perform d.rotate).2 := by
  have hslot := fun {g} (hg : g ≤ generations) => slot?_of_unreached hlength h hg
  have hrotate : t.perform d.rotate = (.ok (), t) := by
    rw [rotate_of_absent (kind?_of_unreached hlength h (Nat.le_refl generations))]
    exact shift_of_absent fun g hg => kind?_of_unreached hlength h (Nat.le_of_lt hg)
  rw [hrotate]
  refine ⟨?_, rfl, fun _ ho => .inl ho, fun hnode => ?_, fun _ hfault => ?_⟩
  · simp [oldest, generation?, hslot]
  · simp [generation?, hslot] at hnode
  · cases hfault

/-- A rotation destroys nothing but the oldest log, even when it fails, if the way to the
log directory is clear. -/
theorem rotate_losesOnlyOldest {d : LogDirectory} {t : Tree} (ht : t.WellFormed)
    (hlength : ∀ g ≤ generations, (d.file g).text.utf8ByteSize ≤ Path.maxLength)
    (hclear : d.Clear t) :
    d.LosesOnlyOldest t (t.perform d.rotate).1 (t.perform d.rotate).2 := by
  by_cases hreach : ∃ loc via, d.Reaches t loc via
  · obtain ⟨loc, via, h⟩ := hreach
    cases hdir : t.isDirectory (fileName generations :: loc) with
    | true => exact h.losesOnlyOldest_of_isDirectory hdir
    | false => exact h.losesOnlyOldest ht hclear hlength hdir
  · exact losesOnlyOldest_of_unreached hlength hreach

/-- Logs in a directory that is reached through the link of its generation 3. Generation
5 is a directory, and a link that leads nowhere has the name that it would move to. -/
def blockedLogs : Tree :=
  ⟨[(["evmdis.log.10", "logs"], .file ⟨#[10]⟩), (["evmdis.log.6", "logs"], .link ⟨"gone"⟩),
    (["evmdis.log.5", "logs"], .directory),
    (["kept", "evmdis.log.5", "logs"], .file ⟨#[5]⟩),
    (["evmdis.log.3", "logs"], .link ⟨"."⟩), (["logs"], .directory)], []⟩

theorem rotate_losesOnlyOldest_blockedLogs :
    blockedLogs.WellFormed ∧ (LogDirectory.mk ⟨"logs/evmdis.log.3"⟩).Clear blockedLogs ∧
      (blockedLogs.perform (LogDirectory.mk ⟨"logs/evmdis.log.3"⟩).rotate).1 =
        .error (.unusable ⟨"logs/evmdis.log.3/evmdis.log.5"⟩ .notDirectory) ∧
      (blockedLogs.perform (LogDirectory.mk ⟨"logs/evmdis.log.3"⟩).rotate).2.contents +
        {⟨#[10]⟩} = {⟨#[5]⟩, ⟨#[10]⟩} := by
  have hformed : blockedLogs.WellFormed :=
    ⟨by decide, by decide, Tree.closed_of_entries (by decide)⟩
  have hroute : blockedLogs.Route [] ["logs", "evmdis.log.3"] ["logs"]
      [["evmdis.log.3", "logs"]] :=
    .down rfl (by decide) (.follow rfl (by decide) rfl (.stay (.inl rfl) (.here rfl)))
  have hclear : (LogDirectory.mk ⟨"logs/evmdis.log.3"⟩).Clear blockedLogs := by
    have hfound : ∀ g ≤ generations, [fileName g, "logs"] ∈ [["evmdis.log.3", "logs"]] →
        (blockedLogs.kind? ((LogDirectory.mk ⟨"logs/evmdis.log.3"⟩).file g)).isSome =
          true := by
      decide +kernel
    intro loc via hreach
    obtain ⟨rfl, rfl⟩ := hroute.unique hreach.route
    exact hfound
  have hloses := rotate_losesOnlyOldest hformed (by decide +kernel) hclear
  have holdest : (LogDirectory.mk ⟨"logs/evmdis.log.3"⟩).oldest blockedLogs = {⟨#[10]⟩} := by
    decide +kernel
  have hcontents : blockedLogs.contents = {⟨#[5]⟩, ⟨#[10]⟩} := by
    decide +kernel
  refine ⟨hformed, hclear, by decide +kernel, ?_⟩
  have hkept := hloses.contents
  rwa [holdest, hcontents] at hkept

/-- The way to the log directory `evmdis.log.7` goes through the link of generation 7 and
takes twenty-one links. To follow that link once more takes more links than are allowed,
so that the generation is not found. -/
def crossedLogs : Tree :=
  ⟨[(["a"], .link ⟨"."⟩),
    (["evmdis.log.7"], .link ⟨"a/a/a/a/a/a/a/a/a/a/a/a/a/a/a/a/a/a/a/a"⟩),
    (["evmdis.log.6"], .link ⟨"m"⟩), (["evmdis.log.5", "m"], .file ⟨#[5]⟩),
    (["evmdis.log.6", "m"], .file ⟨#[6]⟩), (["m"], .directory)], []⟩

/-- Generation 6, a link, replaces the link of generation 7, and the way to the log
directory leads into another directory from then on. The log that has the name of a
generation there is overwritten. -/
theorem rotate_overwrites_behind_link_limit :
    crossedLogs.WellFormed ∧
      (∀ g ≤ generations, ((LogDirectory.mk ⟨"evmdis.log.7"⟩).file g).text.utf8ByteSize ≤
        Path.maxLength) ∧
      (LogDirectory.mk ⟨"evmdis.log.7"⟩).generation? crossedLogs generations = none ∧
      (crossedLogs.perform (LogDirectory.mk ⟨"evmdis.log.7"⟩).rotate).1 = .ok () ∧
      crossedLogs.contents = {⟨#[5]⟩, ⟨#[6]⟩} ∧
      (crossedLogs.perform (LogDirectory.mk ⟨"evmdis.log.7"⟩).rotate).2.contents =
        {⟨#[5]⟩} := by
  generalize hd : LogDirectory.mk ⟨"evmdis.log.7"⟩ = d
  let moved := crossedLogs.move ["evmdis.log.6"] ["evmdis.log.7"]
  let overwritten := moved.move ["evmdis.log.5", "m"] ["evmdis.log.6", "m"]
  have hrotate : crossedLogs.perform d.rotate = (.ok (), overwritten) := by
    subst hd
    rw [rotate_of_absent (by decide +kernel), generations,
      shift_succ_of_absent (by decide +kernel), shift_succ_of_absent (by decide +kernel),
      shift_succ_of_absent (by decide +kernel)]
    rw [shift_succ_of_renamed (by decide +kernel)
      (show crossedLogs.rename _ _ = .ok moved by decide +kernel)]
    rw [shift_succ_of_renamed (by decide +kernel)
      (show moved.rename _ _ = .ok overwritten by decide +kernel)]
    exact shift_of_absent (by decide +kernel)
  rw [hrotate]
  subst hd
  exact ⟨⟨by decide, by decide, Tree.closed_of_entries (by decide)⟩, by decide +kernel,
    by decide +kernel, rfl, by decide +kernel, by decide +kernel⟩

end LogDirectory

end BytecodeListing
