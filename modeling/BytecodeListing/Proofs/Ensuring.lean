import BytecodeListing.Proofs.Startup

/-!
# Directories that have been made sure of

A directory is made at the place of a free name, with the path cut off at a closing slash
and a last link not followed. The path as it is written then leads to the new directory:
what has been walked without the directory is walked in the same way with it
(`kind?_of_makeDirectory`). So a directory that has been made sure of is found, whichever
of the paths around it had to be made first (`kind?_of_ensure`), and making sure of it
once more does nothing (`perform_ensure_of_kind?`).

What is made on the way to a fault stays. So what can be said of a failure is the same as of
a success: directories have been made, and nothing else has been done
(`ensure_only_adds_directories`).
-/

namespace BytecodeListing

namespace Tree

variable {t t' : Tree} {p : Path}

theorem kind?_eq_directory_iff :
    t.kind? p = some .directory ↔
      ∃ loc, t.resolve p = .ok loc ∧ t.isDirectory loc = true := by
  rw [kind?]
  split
  · next hresolve => simp [hresolve]
  · next loc hresolve =>
      rw [hresolve]
      split <;> simp_all

theorem Leads.kind? {there : Location} (h : t.Leads (p.origin t.home) p.names there)
    (hfault : p.fault? = none) (hsteps : p.steps = p.names) :
    t.kind? p = some .directory := by
  rw [kind?_eq_directory_iff]
  refine ⟨there, ?_, h.isDirectory_end⟩
  rw [resolve_eq_ok_iff, locate_eq_ok_iff, hsteps]
  exact ⟨hfault, h.exists_arrives maxLinks⟩

/-- A path leads to the directory that has been made for it. -/
theorem kind?_of_makeDirectory (h : t.makeDirectory p = .ok t') :
    t'.kind? p = some .directory := by
  have hext := (addsDirectories_of_makeDirectory h).toExtends
  rw [makeDirectory] at h
  split at h
  · cases h
  · cases h
  · next dir name hlocate =>
      cases h
      have hnode : (t.put (name :: dir) .directory).node? (name :: dir) = some .directory := by
        rw [node?_put t (List.cons_ne_nil name dir), if_pos rfl]
      obtain ⟨hfault, seen, harrives⟩ := locate_eq_ok_iff.1 hlocate
      obtain ⟨seen', hnames⟩ := (harrives.target_of_vacant rfl).extend hext (by
        intro dir' name' heq
        cases heq
        exact ⟨_, hnode, by simp⟩)
      rw [kind?_eq_directory_iff]
      refine ⟨name :: dir, ?_, isDirectory_iff.2 hnode⟩
      rw [resolve_eq_ok_iff, locate_eq_ok_iff]
      refine ⟨hfault, ?_⟩
      rw [Path.steps]
      split
      · exact hnames.append_empty rfl (isDirectory_iff.2 hnode)
      · exact ⟨seen', hnames⟩

theorem kind?_of_acceptDirectory {fault : FileFault}
    (h : t.perform (FileStore.acceptDirectory p fault) = (.ok (), t')) :
    t'.kind? p = some .directory := by
  have htree := congrArg Prod.snd h
  rw [perform_acceptDirectory] at htree
  subst htree
  rw [FileStore.acceptDirectory, perform_bind, perform_kind?] at h
  dsimp only at h
  split at h
  · next hkind => exact hkind
  · cases h

theorem kind?_of_makeNested {outer : List Path}
    (h : t.perform (FileStore.makeNested (p :: outer)) = (.ok (), t')) :
    t'.kind? p = some .directory := by
  have hmade {t₁ t₂ : Tree} (h : t₁.perform (FileStore.makeDirectory p) = (.ok (), t₂)) :
      t₂.kind? p = some .directory := by
    rw [perform_makeDirectory] at h
    cases hmake : t₁.makeDirectory p with
    | error fault => simp [hmake] at h
    | ok t₂' =>
        rw [hmake] at h
        cases h
        exact kind?_of_makeDirectory hmake
  rw [FileStore.makeNested, perform_bind] at h
  split at h
  · next hfirst =>
      cases h
      exact hmade (Prod.ext hfirst rfl)
  · rw [perform_bind] at h
    split at h
    · cases h
    · rw [perform_bind] at h
      split at h
      · next hsecond =>
          cases h
          exact hmade (Prod.ext hsecond rfl)
      · exact kind?_of_acceptDirectory h
  · exact kind?_of_acceptDirectory h

end Tree

theorem Path.exists_ancestors {p : Path} (h : p.text ≠ "") :
    ∃ outer, p.ancestors = p :: outer := by
  rw [ancestors, if_neg h]
  split
  · next hsegments =>
      rw [segments, List.map_eq_nil_iff] at hsegments
      exact absurd hsegments (List.splitOn_ne_nil '/' _)
  · exact ⟨_, rfl⟩

namespace LogDirectory

variable {d : LogDirectory} {t t' : Tree}

/-- A directory that has been made sure of is there. -/
theorem kind?_of_ensure (hne : d.path.text ≠ "") (h : t.perform d.ensure = (.ok (), t')) :
    t'.kind? d.path = some .directory := by
  rw [ensure, Tree.perform_bind, Tree.perform_kind?] at h
  dsimp only at h
  split at h
  · next hkind =>
      cases h
      exact hkind
  · cases h
  · obtain ⟨outer, houter⟩ := Path.exists_ancestors hne
    rw [Tree.perform_bind, FileStore.makeDirectories, houter] at h
    split at h
    · next hmade =>
        cases h
        exact Tree.kind?_of_makeNested (Prod.ext hmade rfl)
    · cases h
    · cases h

/-- A directory that is there is left as it is. -/
theorem perform_ensure_of_kind? (h : t.kind? d.path = some .directory) :
    t.perform d.ensure = (.ok (), t) := by
  rw [ensure, Tree.perform_bind, Tree.perform_kind?, h]
  rfl

/-- What is there and is no directory is left as it is, and is a fault. -/
theorem perform_ensure_of_file {size : Nat} (h : t.kind? d.path = some (.file size)) :
    t.perform d.ensure = (.error (.notDirectory d.path), t) := by
  rw [ensure, Tree.perform_bind, Tree.perform_kind?, h]
  rfl

/-- The way to the standard directory, if it is there by its own name. -/
theorem leads_standard_of_isDirectory (hhome : t.isDirectory t.home = true)
    (hdot : t.isDirectory (".evmdis" :: t.home) = true)
    (hlogs : t.isDirectory ("logs" :: ".evmdis" :: t.home) = true) :
    t.Leads (standard.path.origin t.home) standard.path.names
      ("logs" :: ".evmdis" :: t.home) := by
  have hnames : standard.path.names = [".evmdis", "logs"] := by
    decide +kernel
  rw [hnames]
  exact .down hhome (by decide +kernel) (.down hdot (by decide +kernel) (.here hlogs))

theorem fault?_standard_file : ∀ g ≤ generations, (standard.file g).fault? = none := by
  decide +kernel

end LogDirectory

namespace LogFile

/-- The directory around a log of one's own is there when the log has been prepared. -/
theorem kind?_parent_of_prepare {t t' : Tree} {p file parent : Path}
    (h : t.perform (prepare (some p)) = (.ok file, t')) (hparent : p.parent? = some parent)
    (hne : parent.text ≠ "") : t'.kind? parent = some .directory := by
  rw [prepare, hparent] at h
  dsimp only at h
  rw [if_neg hne, Tree.perform_bind] at h
  split at h
  · next hensure =>
      cases h
      exact LogDirectory.kind?_of_ensure (d := ⟨parent⟩) hne (Prod.ext hensure rfl)
  · cases h

/-- Making sure of a directory makes directories and does nothing else to a tree, whether it
succeeds or fails. If it succeeds the directory is there, and making sure of it once more
changes nothing. What was there before is left alone, and is a fault unless it is a
directory. The same is done for a log of one's own, which keeps its path. -/
theorem ensure_only_adds_directories (t : Tree) :
    (∀ (d : LogDirectory) (result : Except LogFault Unit) (t' : Tree), d.path.text ≠ "" →
      t.perform d.ensure = (result, t') →
        t.AddsDirectories t' ∧
        (result = .ok () →
          t'.kind? d.path = some .directory ∧ t'.perform d.ensure = (.ok (), t')) ∧
        ∀ kind, t.kind? d.path = some kind →
          t' = t ∧ (result = .ok () ↔ kind = .directory) ∧
            (kind ≠ .directory → result = .error (.notDirectory d.path))) ∧
      ∀ (p : Path) (result : Except LogFault Path) (t' : Tree),
        t.perform (prepare (some p)) = (result, t') →
          t.AddsDirectories t' ∧
          ∀ file, result = .ok file →
            file = p ∧ ∀ parent, p.parent? = some parent → parent.text ≠ "" →
              t'.kind? parent = some .directory := by
  constructor
  · intro d result t' hne h
    refine ⟨?_, ?_, ?_⟩
    · have hadds := d.addsDirectories_ensure t
      rwa [h] at hadds
    · rintro rfl
      have hthere := LogDirectory.kind?_of_ensure hne h
      exact ⟨hthere, LogDirectory.perform_ensure_of_kind? hthere⟩
    · intro kind hkind
      cases kind with
      | directory =>
          rw [LogDirectory.perform_ensure_of_kind? hkind] at h
          cases h
          simp
      | file size =>
          rw [LogDirectory.perform_ensure_of_file hkind] at h
          cases h
          simp
  · intro p result t' h
    refine ⟨?_, ?_⟩
    · have hadds := addsDirectories_prepare p t
      rwa [h] at hadds
    · rintro file rfl
      have hfile : file = path (some p) := file_of_prepare (congrArg Prod.fst h)
      refine ⟨hfile, fun parent hparent hne => ?_⟩
      exact kind?_parent_of_prepare h hparent hne

/-- A file stands in the way behind a directory that is missing: the directory has been made
when the fault is found, and stays. A log behind two more missing directories and a way back
can then be prepared. -/
theorem ensure_only_adds_directories_blocked :
    ∃ t t' t'' : Tree,
      t.perform (LogDirectory.ensure ⟨⟨"new/../f/x"⟩⟩) =
        (.error (.notCreated ⟨"new/../f/x"⟩ .alreadyExists), t') ∧
      t.AddsDirectories t' ∧ t.node? ["new"] = none ∧ t'.node? ["new"] = some .directory ∧
      t'.perform (LogDirectory.ensure ⟨⟨"f"⟩⟩) = (.error (.notDirectory ⟨"f"⟩), t') ∧
      t'.perform (prepare (some ⟨"new/a/b/../run.log"⟩)) = (.ok ⟨"new/a/b/../run.log"⟩, t'') ∧
      t'.AddsDirectories t'' ∧ t''.kind? ⟨"new/a/b/.."⟩ = some .directory ∧
      t''.perform (LogDirectory.ensure ⟨⟨"new/a/b/.."⟩⟩) = (.ok (), t'') := by
  -- The tree before, behind the fault, and with the log's directory.
  let before : Tree := ⟨[(["f"], .file .empty)], []⟩
  let behind : Tree := ⟨[(["new"], .directory), (["f"], .file .empty)], []⟩
  let prepared : Tree := ⟨[(["b", "a", "new"], .directory), (["a", "new"], .directory),
    (["new"], .directory), (["f"], .file .empty)], []⟩
  have hfault : before.perform (LogDirectory.ensure ⟨⟨"new/../f/x"⟩⟩) =
      (.error (.notCreated ⟨"new/../f/x"⟩ .alreadyExists), behind) := by
    decide +kernel
  have hfile : behind.perform (LogDirectory.ensure ⟨⟨"f"⟩⟩) =
      (.error (.notDirectory ⟨"f"⟩), behind) := by
    decide +kernel
  have hprepare : behind.perform (prepare (some ⟨"new/a/b/../run.log"⟩)) =
      (.ok ⟨"new/a/b/../run.log"⟩, prepared) := by
    decide +kernel
  obtain ⟨hadds, -, -⟩ := (ensure_only_adds_directories before).1 _ _ _ (by decide) hfault
  obtain ⟨hadds', hlog⟩ := (ensure_only_adds_directories behind).2 _ _ _ hprepare
  have hparent := (hlog _ rfl).2 ⟨"new/a/b/.."⟩ (by decide +kernel) (by decide)
  exact ⟨before, behind, prepared, hfault, hadds, rfl, rfl, hfile, hprepare, hadds', hparent,
    LogDirectory.perform_ensure_of_kind? hparent⟩

end LogFile

end BytecodeListing
