import BytecodeListing.Log.Directory
import BytecodeListing.Proofs.Arrivals

/-!
# Starting the log

Directories are made on the way to the log (`AddsDirectories`), generations are moved, and
the log is opened. What relates the tree before and behind each single step relates it before
and behind all of them (`relates_ensure`, `relates_rotate`). So a closed tree stays closed, on
failure as well (`Evolves`). When the log has been opened its path leads to a file
(`exists_names_of_openAppend`), which is the only node that opening it has made, and what is
added to the log afterwards goes to that file (`Names.append`).
-/

namespace BytecodeListing

namespace Tree

/-- What holds of every change of a tree: relative paths start where they did, and a
closed tree stays closed. -/
structure Evolves (t t' : Tree) : Prop where
  home : t'.home = t.home
  closed : t.Closed → t'.Closed

namespace Evolves

variable {t t' t'' : Tree}

theorem refl (t : Tree) : t.Evolves t :=
  ⟨rfl, id⟩

theorem trans (h : t.Evolves t') (h' : t'.Evolves t'') : t.Evolves t'' :=
  ⟨h'.home.trans h.home, fun ht => h'.closed (h.closed ht)⟩

end Evolves

/-- Directories have been made in a tree, and nothing else has been done to it. -/
structure AddsDirectories (t t' : Tree) : Prop extends Evolves t t' where
  node? : ∀ o, t'.node? o = t.node? o ∨ t.node? o = none ∧ t'.node? o = some .directory

namespace AddsDirectories

variable {t t' t'' : Tree}

theorem refl (t : Tree) : t.AddsDirectories t :=
  ⟨.refl t, fun _ => .inl rfl⟩

theorem trans (h : t.AddsDirectories t') (h' : t'.AddsDirectories t'') :
    t.AddsDirectories t'' where
  toEvolves := h.toEvolves.trans h'.toEvolves
  node? o := by
    rcases h'.node? o with hsame' | ⟨hnone', hnew'⟩
    · rw [hsame']
      exact h.node? o
    · rcases h.node? o with hsame | ⟨-, hnew⟩
      · exact .inr ⟨hsame ▸ hnone', hnew'⟩
      · rw [hnew] at hnone'
        cases hnone'

theorem node?_of_ne_none (h : t.AddsDirectories t') {o : Location} (ho : t.node? o ≠ none) :
    t'.node? o = t.node? o := by
  rcases h.node? o with hsame | ⟨hnone, -⟩
  · exact hsame
  · exact absurd hnone ho

theorem toExtends (h : t.AddsDirectories t') : t.Extends t' where
  home := h.home
  directory o ho := by rw [h.node?_of_ne_none (by simp [ho]), ho]
  link o target ho := by rw [h.node?_of_ne_none (by simp [ho]), ho]
  file o content ho := ⟨content, by rw [h.node?_of_ne_none (by simp [ho]), ho]⟩

/-- What is no directory in the tree with the directories was there before. -/
theorem node?_eq_of_ne (h : t.AddsDirectories t') {o : Location}
    (ho : t'.node? o ≠ some .directory) : t.node? o = t'.node? o := by
  rcases h.node? o with hsame | ⟨-, hnew⟩
  · exact hsame.symm
  · exact absurd hnew ho

theorem not_link (h : t.AddsDirectories t') {o : Location}
    (ho : ∀ target, t.node? o ≠ some (.link target)) (target : Path) :
    t'.node? o ≠ some (.link target) := by
  intro hlink
  rw [← h.node?_eq_of_ne (by simp [hlink])] at hlink
  exact ho target hlink

end AddsDirectories

section Directories

theorem addsDirectories_of_makeDirectory {t t' : Tree} {p : Path}
    (h : t.makeDirectory p = .ok t') : t.AddsDirectories t' := by
  rw [makeDirectory] at h
  split at h
  · cases h
  · cases h
  · next directory name hlocate =>
      obtain ⟨hdir, hnone⟩ := vacant_of_locate hlocate
      cases h
      refine ⟨⟨rfl, fun ht => ht.put hdir (by rw [isDirectory, hnone]) _⟩, fun o => ?_⟩
      rw [node?_put t (List.cons_ne_nil name directory)]
      split
      · next heq => exact .inr ⟨heq ▸ hnone, rfl⟩
      · exact .inl rfl

theorem addsDirectories_makeDirectory (t : Tree) (p : Path) :
    t.AddsDirectories (t.perform (FileStore.makeDirectory p)).2 := by
  rw [perform_makeDirectory]
  cases h : t.makeDirectory p with
  | error fault => exact .refl t
  | ok t' => exact addsDirectories_of_makeDirectory h

theorem perform_acceptDirectory (t : Tree) (p : Path) (fault : FileFault) :
    (t.perform (FileStore.acceptDirectory p fault)).2 = t := by
  rw [FileStore.acceptDirectory, perform_bind, perform_kind?]
  dsimp only
  split <;> rfl

section Relation

variable {R : Tree → Tree → Prop} (hrefl : ∀ t, R t t)
  (htrans : ∀ {t t' t''}, R t t' → R t' t'' → R t t'')

include hrefl htrans in
/-- What every single directory does to a tree is done by all of them together. -/
theorem relates_makeNested {ps : List Path}
    (hmake : ∀ p ∈ ps, ∀ t, R t (t.perform (FileStore.makeDirectory p)).2) (t : Tree) :
    R t (t.perform (FileStore.makeNested ps)).2 := by
  induction ps generalizing t with
  | nil => exact hrefl t
  | cons p outer ih =>
      obtain ⟨hp, houter⟩ := List.forall_mem_cons.1 hmake
      rw [FileStore.makeNested, perform_bind]
      refine htrans (hp t) ?_
      generalize t.perform (FileStore.makeDirectory p) = made
      split
      · exact hrefl made.2
      · rw [perform_bind]
        refine htrans (ih houter made.2) ?_
        generalize made.2.perform (FileStore.makeNested outer) = around
        split
        · exact hrefl around.2
        · rw [perform_bind]
          refine htrans (hp around.2) ?_
          split
          · exact hrefl _
          · rw [perform_acceptDirectory]
            exact hrefl _
      · rw [perform_acceptDirectory]
        exact hrefl made.2

end Relation

end Directories

section Moves

variable {t t' : Tree} {p : Path}

/-- The place where a path leads is in a directory. -/
theorem Closed.exists_place (ht : t.Closed) {place : Place}
    (h : t.locate .node p p.names = .ok place) (hne : place.location ≠ []) :
    ∃ name dir, place.location = name :: dir ∧ t.isDirectory dir = true := by
  cases place with
  | vacant dir name => exact ⟨name, dir, rfl, (vacant_of_locate h).1⟩
  | entry loc =>
      obtain ⟨node, hnode, -⟩ := ht.fit_of_locate id h
      obtain ⟨name, dir, rfl⟩ := List.exists_cons_of_ne_nil hne
      exact ⟨name, dir, rfl, ht name dir (by simp [hnode])⟩

theorem Closed.node?_below_of_hasChildren (ht : t.Closed) {loc : Location}
    (h : t.hasChildren loc = false) {below : Location} (hbelow : below ≠ []) :
    t.node? (below ++ loc) = none := by
  by_contra hnode
  -- A node below a location is below one of the nodes that are in it.
  have hchild : t.node? (below.getLast hbelow :: loc) ≠ none := by
    rw [← List.dropLast_concat_getLast hbelow, List.append_assoc,
      List.singleton_append] at hnode
    rcases eq_or_ne below.dropLast [] with hnil | hne
    · rwa [hnil] at hnode
    · rw [isDirectory_iff.1 (ht.isDirectory_of_below hne hnode)]
      exact Option.some_ne_none _
  obtain ⟨e, he, heq⟩ := exists_mem_of_node? (List.cons_ne_nil _ _) hchild
  rw [hasChildren, List.any_eq_false] at h
  exact h e he (by simp [heq])

theorem evolves_of_remove (h : t.remove p = .ok t') : t.Evolves t' := by
  rw [Tree.remove] at h
  split at h
  · cases h
  · cases h
  · split at h
    · cases h
    · next hdir =>
        cases h
        rw [Bool.not_eq_true] at hdir
        refine ⟨rfl, fun ht => ht.erase ?_ hdir⟩
        rintro rfl
        cases hdir

/-- A rename finds a node and a place for it. It does nothing if the node is there already,
and else moves it, away from what encloses it, to a place that is no directory or an empty
one. -/
theorem rename_cases {target : Path} (h : t.rename p target = .ok t') :
    ∃ source place, t.locate .node p p.names = .ok (.entry source) ∧
      t.locate .node target target.names = .ok place ∧
      (source = place.location ∧ t' = t ∨
        ¬ source <:+ place.location ∧ ¬ place.location <:+ source ∧
        (t.isDirectory place.location = false ∨ t.hasChildren place.location = false) ∧
        t' = t.move source place.location) := by
  rw [Tree.rename] at h
  split at h
  · cases h
  · cases h
  · cases h
  next source place hsource hplace =>
  refine ⟨source, place, hsource, hplace, ?_⟩
  dsimp only at h
  split at h
  · next heq =>
      cases h
      exact .inl ⟨heq, rfl⟩
  split at h
  · cases h
  next hst =>
  split at h
  · cases h
  next hts =>
  rw [List.isSuffixOf_iff_suffix] at hst hts
  refine .inr ⟨hst, hts, ?_⟩
  split at h
  · next hnode =>
      cases h
      exact ⟨.inl (by rw [isDirectory, hnode]), rfl⟩
  · split at h
    · cases h
    · next hchildren =>
        cases h
        exact ⟨.inr (by simpa using hchildren), rfl⟩
  · cases h
  · cases h
  · next node hother _ hnode =>
      cases h
      refine ⟨.inl ?_, rfl⟩
      cases node with
      | directory => exact absurd rfl hother
      | file content => rw [isDirectory, hnode]
      | link target => rw [isDirectory, hnode]

theorem evolves_of_rename {target : Path} (h : t.rename p target = .ok t') :
    t.Evolves t' := by
  obtain ⟨source, place, -, hplace, ⟨-, rfl⟩ | ⟨hst, hts, hfree, rfl⟩⟩ := rename_cases h
  · exact .refl t'
  refine ⟨rfl, fun ht => ?_⟩
  have hsource : source ≠ [] := by
    rintro rfl
    exact hst List.nil_suffix
  have htarget : place.location ≠ [] := by
    intro hnil
    exact hts (hnil ▸ List.nil_suffix)
  have hbelow : ∀ below, below ≠ [] → t.node? (below ++ place.location) = none := by
    intro below hne
    rcases hfree with hdir | hchildren
    · exact ht.node?_below hdir hne
    · exact ht.node?_below_of_hasChildren hchildren hne
  obtain ⟨name, dir, hlocation, hdir⟩ := ht.exists_place hplace htarget
  rw [hlocation] at hst hbelow ⊢
  exact ht.move hsource hdir hst hbelow

theorem evolves_remove (t : Tree) (p : Path) :
    t.Evolves (t.perform (FileStore.remove p)).2 := by
  rw [perform_remove]
  cases h : t.remove p with
  | error fault => exact .refl t
  | ok t' => exact evolves_of_remove h

theorem evolves_rename (t : Tree) (source target : Path) :
    t.Evolves (t.perform (FileStore.rename source target)).2 := by
  rw [perform_rename]
  cases h : t.rename source target with
  | error fault => exact .refl t
  | ok t' => exact evolves_of_rename h

end Moves

/-- At most a file is at the location. -/
def AtMostFile (t : Tree) (o : Location) : Prop :=
  ∃ content : Option ByteArray, t.node? o = content.map .file

theorem AtMostFile.isDirectory {t : Tree} {o : Location} (h : t.AtMostFile o) :
    t.isDirectory o = false := by
  obtain ⟨content, h⟩ := h
  rw [Tree.isDirectory, h]
  cases content <;> rfl

theorem AtMostFile.ne {t : Tree} {loc o : Location} {node : Node} (h : t.AtMostFile loc)
    (ho : t.node? o = some node) (hnode : ∀ content, node ≠ .file content) : o ≠ loc := by
  rintro rfl
  obtain ⟨content, h⟩ := h
  cases content with
  | none => simp [ho] at h
  | some content => exact hnode content (by simpa [ho] using h)

/-- The path leads to a file with the given content. -/
structure Names (t : Tree) (p : Path) (loc : Location) (content : ByteArray) : Prop where
  resolve : t.resolve p = .ok loc
  node? : t.node? loc = some (.file content)

section Opening

variable {t t' : Tree} {p : Path} {loc : Location} {content : ByteArray}

theorem Names.ne_nil (h : t.Names p loc content) : loc ≠ [] := by
  rintro rfl
  cases h.node?

theorem Names.atMostFile (h : t.Names p loc content) : t.AtMostFile loc :=
  ⟨some content, h.node?⟩

theorem extends_put_file (hloc : loc ≠ []) (hnode : t.AtMostFile loc) (content : ByteArray) :
    t.Extends (t.put loc (.file content)) where
  home := rfl
  directory o ho := by rw [node?_put t hloc, if_neg (hnode.ne ho (by simp)), ho]
  link o target ho := by rw [node?_put t hloc, if_neg (hnode.ne ho (by simp)), ho]
  file o old ho := by
    rw [node?_put t hloc]
    split
    · exact ⟨_, rfl⟩
    · exact ⟨_, ho⟩

/-- A path still leads to the same file when the file has got another content. -/
theorem Names.put (h : t.Names p loc content) (content' : ByteArray) :
    (t.put loc (.file content')).Names p loc content' where
  resolve := (extends_put_file h.ne_nil h.atMostFile content').resolve h.resolve
  node? := by rw [node?_put t h.ne_nil, if_pos rfl]

/-- What is added to a file is added where its path leads, and there only. -/
theorem Names.append (h : t.Names p loc content) (bytes : ByteArray) :
    t.append p bytes = .ok (t.put loc (.file (content ++ bytes))) := by
  rw [Tree.append, h.resolve]
  simp only [h.node?]

/-- A file that is opened is there, or is created where its name is free. -/
theorem openAppend_cases (h : t.openAppend p = .ok t') :
    (∃ loc, t.locate .file p p.steps = .ok (.entry loc) ∧ t.isDirectory loc = false ∧ t' = t) ∨
      ∃ dir name, t.locate .file p p.steps = .ok (.vacant dir name) ∧
        t' = t.put (name :: dir) (.file .empty) := by
  rw [openAppend] at h
  split at h
  · cases h
  · next loc hlocate =>
      split at h
      · cases h
      · next hdir =>
          cases h
          exact .inl ⟨loc, hlocate, Bool.eq_false_iff.2 hdir, rfl⟩
  · next dir name hlocate =>
      cases h
      exact .inr ⟨dir, name, hlocate, rfl⟩

theorem evolves_of_openAppend (h : t.openAppend p = .ok t') : t.Evolves t' := by
  obtain ⟨loc, -, -, rfl⟩ | ⟨dir, name, hlocate, rfl⟩ := openAppend_cases h
  · exact .refl t'
  · obtain ⟨hdir, hnone⟩ := vacant_of_locate hlocate
    exact ⟨rfl, fun ht => ht.put hdir (by rw [isDirectory, hnone]) _⟩

/-- What is opened as a file is found as a file. -/
theorem exists_names_of_locate (ht : t.Closed)
    (h : t.locate .file p p.steps = .ok (.entry loc)) (hdir : t.isDirectory loc = false) :
    ∃ content, t.Names p loc content := by
  obtain ⟨hfault, seen, harrives⟩ := locate_eq_ok_iff.1 h
  have hresolve : t.resolve p = .ok loc :=
    resolve_eq_ok_iff.2 (locate_eq_ok_iff.2 ⟨hfault, seen, harrives.target_of_file⟩)
  obtain ⟨node, hnode, hlink⟩ := ht.fit_of_locate Path.names_eq_nil_of_steps h
  cases node with
  | directory =>
      rw [isDirectory, hnode] at hdir
      cases hdir
  | link target => simp at hlink
  | file content => exact ⟨content, hresolve, hnode⟩

/-- A file that is created at a free name is found there afterwards. -/
theorem names_put_of_vacant {dir : Location} {name : Name}
    (h : t.locate .file p p.steps = .ok (.vacant dir name)) (content : ByteArray) :
    (t.put (name :: dir) (.file content)).Names p (name :: dir) content := by
  have hcons : name :: dir ≠ [] := List.cons_ne_nil name dir
  have hext := extends_put_file hcons ⟨none, (vacant_of_locate h).2⟩ content
  have hnew : (t.put (name :: dir) (.file content)).node? (name :: dir) =
      some (.file content) := by
    rw [node?_put t hcons, if_pos rfl]
  obtain ⟨hfault, seen, harrives⟩ := locate_eq_ok_iff.1 h
  obtain ⟨seen', harrives'⟩ := harrives.target_of_file.extend hext (by
    intro dir' name' heq
    cases heq
    exact ⟨_, hnew, by simp⟩)
  exact ⟨resolve_eq_ok_iff.2 (locate_eq_ok_iff.2 ⟨hfault, seen', harrives'⟩), hnew⟩

/-- Opening a file makes sure that its path leads to a file, and makes no other node. -/
theorem exists_names_of_openAppend (ht : t.Closed) (h : t.openAppend p = .ok t') :
    ∃ loc content, t'.Names p loc content ∧
      (t' = t ∨ loc ≠ [] ∧ t.node? loc = none ∧ t' = t.put loc (.file .empty)) := by
  obtain ⟨loc, hlocate, hdir, rfl⟩ | ⟨dir, name, hlocate, rfl⟩ := openAppend_cases h
  · obtain ⟨content, hnames⟩ := exists_names_of_locate ht hlocate hdir
    exact ⟨loc, content, hnames, .inl rfl⟩
  · exact ⟨name :: dir, .empty, names_put_of_vacant hlocate .empty,
      .inr ⟨List.cons_ne_nil name dir, (vacant_of_locate hlocate).2, rfl⟩⟩

end Opening

end Tree

namespace LogDirectory

section Relation

variable {R : Tree → Tree → Prop} (hrefl : ∀ t, R t t)
  (htrans : ∀ {t t' t''}, R t t' → R t' t'' → R t t'')

include hrefl htrans in
theorem relates_ensure (d : LogDirectory)
    (hmake : ∀ p ∈ d.path.ancestors, ∀ t, R t (t.perform (FileStore.makeDirectory p)).2)
    (t : Tree) : R t (t.perform d.ensure).2 := by
  rw [ensure, Tree.perform_bind, Tree.perform_kind?]
  dsimp only
  split
  · exact hrefl t
  · exact hrefl t
  · rw [Tree.perform_bind]
    refine htrans (Tree.relates_makeNested hrefl htrans hmake t) ?_
    rw [← FileStore.makeDirectories]
    generalize t.perform (FileStore.makeDirectories d.path) = made
    split <;> exact hrefl _

variable {d : LogDirectory}
  (hrename : ∀ g < generations, ∀ t,
    R t (t.perform (FileStore.rename (d.file g) (d.file (g + 1)))).2)

include hrefl htrans hrename in
theorem relates_shift {n : Nat} (hn : n ≤ generations) (t : Tree) :
    R t (t.perform (d.shift n)).2 := by
  induction n generalizing t with
  | zero => exact hrefl t
  | succ n ih =>
      have hn' := Nat.le_of_succ_le hn
      rw [shift, Tree.perform_bind, Tree.perform_present]
      dsimp only
      split
      · rw [Tree.perform_bind]
        refine htrans (hrename n hn t) ?_
        split
        · exact hrefl _
        · exact ih hn' _
      · exact ih hn' t

include hrefl htrans hrename in
theorem relates_rotate
    (hremove : ∀ t, R t (t.perform (FileStore.remove (d.file generations))).2) (t : Tree) :
    R t (t.perform d.rotate).2 := by
  have hshift := relates_shift hrefl htrans hrename (Nat.le_refl generations)
  rw [rotate, Tree.perform_bind, Tree.perform_present]
  dsimp only
  split
  · rw [Tree.perform_bind]
    refine htrans (hremove t) ?_
    split
    · exact hrefl _
    · exact hshift _
  · exact hshift t

end Relation

theorem addsDirectories_ensure (d : LogDirectory) (t : Tree) :
    t.AddsDirectories (t.perform d.ensure).2 :=
  d.relates_ensure .refl .trans (fun p _ t => t.addsDirectories_makeDirectory p) t

theorem snd_perform_isFull (d : LogDirectory) (t : Tree) : (t.perform d.isFull).2 = t := by
  rw [isFull, Tree.perform_bind, Tree.perform_kind?]
  dsimp only
  split <;> rfl

theorem evolves_rotate (d : LogDirectory) (t : Tree) : t.Evolves (t.perform d.rotate).2 :=
  relates_rotate .refl .trans (fun g _ t => t.evolves_rename (d.file g) (d.file (g + 1)))
    (fun t => t.evolves_remove (d.file generations)) t

end LogDirectory

namespace LogFile

variable {t : Tree}

section Relation

variable {R : Tree → Tree → Prop} (hrefl : ∀ t, R t t)
  (htrans : ∀ {t t' t''}, R t t' → R t' t'' → R t t'')

include hrefl htrans in
theorem relates_prepare (p : Path)
    (hmake : ∀ directory, p.parent? = some directory → directory.text ≠ "" →
      ∀ q ∈ directory.ancestors, ∀ t, R t (t.perform (FileStore.makeDirectory q)).2)
    (t : Tree) : R t (t.perform (prepare (some p))).2 := by
  rw [prepare]
  split
  · exact hrefl t
  · next directory hparent =>
      split
      · exact hrefl t
      · next hne =>
          rw [Tree.perform_bind]
          refine htrans (LogDirectory.relates_ensure hrefl htrans ⟨directory⟩
            (hmake directory hparent hne) t) ?_
          split <;> exact hrefl _

end Relation

theorem addsDirectories_prepare (p : Path) (t : Tree) :
    t.AddsDirectories (t.perform (prepare (some p))).2 :=
  relates_prepare .refl .trans p (fun _ _ _ q _ t => t.addsDirectories_makeDirectory q) t

/-- The standard log is made sure of, and the generations move only if it is full. -/
theorem perform_prepare_none (t : Tree) :
    let made := (t.perform LogDirectory.standard.ensure).2
    (t.perform (prepare none)).2 = made ∨
      (made.perform LogDirectory.standard.isFull).1 = true ∧
        (t.perform (prepare none)).2 = (made.perform LogDirectory.standard.rotate).2 := by
  intro made
  rw [prepare, Tree.perform_bind]
  split
  · exact .inl rfl
  · rw [Tree.perform_bind, LogDirectory.snd_perform_isFull]
    split
    · next h =>
        refine .inr ⟨h, ?_⟩
        rw [Tree.perform_bind]
        split <;> rfl
    · exact .inl rfl

theorem evolves_prepare (custom : Option Path) (t : Tree) :
    t.Evolves (t.perform (prepare custom)).2 := by
  cases custom with
  | some p => exact (addsDirectories_prepare p t).toEvolves
  | none =>
      have hmade := (LogDirectory.standard.addsDirectories_ensure t).toEvolves
      rcases perform_prepare_none t with hprepare | ⟨-, hprepare⟩
      · rwa [hprepare]
      · rw [hprepare]
        exact hmade.trans (LogDirectory.standard.evolves_rotate _)

/-- The path of the log: the one that has been asked for, or the standard one. -/
def path (custom : Option Path) : Path :=
  custom.getD LogDirectory.standard.current

theorem file_of_prepare {custom : Option Path} {file : Path}
    (h : (t.perform (prepare custom)).1 = .ok file) : file = path custom := by
  cases custom with
  | none =>
      rw [prepare, Tree.perform_bind] at h
      split at h
      · cases h
      · rw [Tree.perform_bind] at h
        split at h
        · rw [Tree.perform_bind] at h
          split at h
          · cases h
          · cases h
            rfl
        · cases h
          rfl
  | some p =>
      rw [prepare] at h
      split at h
      · cases h
        rfl
      · split at h
        · cases h
          rfl
        · rw [Tree.perform_bind] at h
          split at h
          · cases h
            rfl
          · cases h

/-- A log that cannot be started leaves the tree as it was prepared, and one that can is
opened there. -/
theorem perform_start (t : Tree) (custom : Option Path) :
    (∃ fault, t.perform (start custom) = (.error fault, (t.perform (prepare custom)).2)) ∨
      ∃ file t', t.perform (start custom) = (.ok file, t') ∧
        (t.perform (prepare custom)).1 = .ok file ∧
        (t.perform (prepare custom)).2.openAppend file = .ok t' := by
  rw [start, Tree.perform_bind]
  generalize t.perform (prepare custom) = prepared
  split
  · next fault _ => exact .inl ⟨fault, rfl⟩
  · next file hfile =>
      rw [Tree.perform_bind]
      rw [Tree.perform_openAppend]
      cases hopen : prepared.2.openAppend file with
      | error fault => exact .inl ⟨.unusable file fault, rfl⟩
      | ok t' => exact .inr ⟨file, t', rfl, hfile, hopen⟩

theorem evolves_start (custom : Option Path) (t : Tree) :
    t.Evolves (t.perform (start custom)).2 := by
  have hprepare := evolves_prepare custom t
  rcases perform_start t custom with ⟨fault, hstart⟩ | ⟨file, t', hstart, -, hopen⟩
  · rwa [hstart]
  · rw [hstart]
    exact hprepare.trans (Tree.evolves_of_openAppend hopen)

/-- A log that has been started has been prepared and opened. -/
theorem opened_of_start {custom : Option Path} {file : Path} {t' : Tree}
    (h : t.perform (start custom) = (.ok file, t')) :
    (t.perform (prepare custom)).1 = .ok file ∧
      (t.perform (prepare custom)).2.openAppend file = .ok t' := by
  rcases perform_start t custom with ⟨fault, hstart⟩ | ⟨file', t'', hstart, hopened⟩
  · rw [hstart] at h
    cases h
  · rw [hstart] at h
    cases h
    exact hopened

theorem home_of_start {custom : Option Path} {result : Except LogFault Path} {t' : Tree}
    (h : t.perform (start custom) = (result, t')) : t'.home = t.home := by
  have hevolves := evolves_start custom t
  rw [h] at hevolves
  exact hevolves.home

/-- The path of a log that has been started leads to a file. -/
theorem exists_names_of_start (ht : t.Closed) {custom : Option Path} {file : Path} {t' : Tree}
    (h : t.perform (start custom) = (.ok file, t')) :
    ∃ loc content, t'.Names file loc content := by
  obtain ⟨loc, content, hnames, -⟩ := Tree.exists_names_of_openAppend
    ((evolves_prepare custom t).closed ht) (opened_of_start h).2
  exact ⟨loc, content, hnames⟩

end LogFile

end BytecodeListing
