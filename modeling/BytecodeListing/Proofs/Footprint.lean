import BytecodeListing.Proofs.Ensuring
import BytecodeListing.Proofs.Holdings
import BytecodeListing.Proofs.Rotation
import BytecodeListing.Proofs.Runs

/-!
# What a command may change

A command makes directories first and writes files afterwards, and it writes to few
locations: to its log, and to the generations of the standard log unless it has been given a
log of its own (`Writable`). In a tree without links the generations are found where they
look to be, and they move only if there is a full log among them, in a directory that was
there before the command (`exists_rewrites_prepare`). So whatever its arguments and its input
are, a command harms no other file and no directory, and it only adds to a log that it has
been given (`command_harms_no_file`).
-/

namespace BytecodeListing

namespace Tree

/-- There is no link in the tree. -/
def Linkless (t : Tree) : Prop :=
  ∀ o target, t.node? o ≠ some (.link target)

theorem linkless_of_entries {t : Tree} (h : ∀ e ∈ t.entries, ∀ target, e.2 ≠ .link target) :
    t.Linkless := by
  intro o target ho
  rcases eq_or_ne o [] with rfl | hne
  · cases ho
  · rw [node?_of_ne_nil t hne] at ho
    obtain ⟨before, behind, hentries, -⟩ := List.lookup_eq_some_iff.1 ho
    exact h (o, .link target) (by rw [hentries]; simp) target rfl

/-- At some of the locations files have been written or removed, and nothing else has been
done to a tree. -/
structure Rewrites (mine : Location → Prop) (t t' : Tree) : Prop where
  home : t'.home = t.home
  node? : ∀ o, t'.node? o = t.node? o ∨ mine o ∧ t.AtMostFile o ∧ t'.AtMostFile o

namespace Rewrites

variable {mine mine' : Location → Prop} {t t' t'' : Tree}

theorem refl (mine : Location → Prop) (t : Tree) : t.Rewrites mine t :=
  ⟨rfl, fun _ => .inl rfl⟩

theorem trans (h : Rewrites mine t t') (h' : Rewrites mine t' t'') : Rewrites mine t t'' where
  home := h'.home.trans h.home
  node? o := by
    rcases h.node? o with hsame | ⟨ho, hbefore, hbetween⟩
    · rcases h'.node? o with hsame' | ⟨ho, hbetween, hafter⟩
      · exact .inl (hsame'.trans hsame)
      · exact .inr ⟨ho, by rwa [AtMostFile, ← hsame], hafter⟩
    · rcases h'.node? o with hsame' | ⟨-, -, hafter⟩
      · exact .inr ⟨ho, hbefore, by rwa [AtMostFile, hsame']⟩
      · exact .inr ⟨ho, hbefore, hafter⟩

theorem mono (h : Rewrites mine t t') (hmine : ∀ o, mine o → mine' o) :
    Rewrites mine' t t' :=
  ⟨h.home, fun o => (h.node? o).imp_right fun ⟨ho, hfile⟩ => ⟨hmine o ho, hfile⟩⟩

theorem node?_of_not (h : Rewrites mine t t') {o : Location} (ho : ¬ mine o) :
    t'.node? o = t.node? o := by
  rcases h.node? o with hsame | ⟨hmine, -⟩
  · exact hsame
  · exact absurd hmine ho

theorem directory (h : Rewrites mine t t') {o : Location}
    (ho : t.node? o = some .directory) : t'.node? o = some .directory := by
  rcases h.node? o with hsame | ⟨-, hfile, -⟩
  · rw [hsame, ho]
  · have hdir := hfile.isDirectory
    rw [Tree.isDirectory, ho] at hdir
    cases hdir

theorem put {loc : Location} (hloc : loc ≠ []) (hold : t.AtMostFile loc) (hmine : mine loc)
    (content : ByteArray) : Rewrites mine t (t.put loc (.file content)) where
  home := rfl
  node? o := by
    have hnode := node?_put t hloc (.file content) o
    by_cases ho : o = loc
    · subst ho
      rw [if_pos rfl] at hnode
      exact .inr ⟨hmine, hold, some content, hnode⟩
    · rw [if_neg ho] at hnode
      exact .inl hnode

end Rewrites

section Opening

variable {t t' : Tree} {p : Path} {loc : Location} {content : ByteArray}

theorem exists_names_of_kind? {size : Nat} (h : t.kind? p = some (.file size)) :
    ∃ loc content, t.Names p loc content := by
  rw [kind?] at h
  split at h
  · cases h
  · next loc hresolve =>
      split at h
      · cases h
      · next content hnode => exact ⟨loc, content, hresolve, hnode⟩
      · cases h

theorem AddsDirectories.linkless (h : t.AddsDirectories t') (hlinks : t.Linkless) :
    t'.Linkless := by
  intro o
  exact h.not_link (hlinks o)

theorem AddsDirectories.names (h : t.AddsDirectories t') (hnames : t.Names p loc content) :
    t'.Names p loc content where
  resolve := h.toExtends.resolve hnames.resolve
  node? := by rw [h.node?_of_ne_none (by simp [hnames.node?]), hnames.node?]

/-- A file that can be opened is written to where its path then leads. -/
theorem exists_rewrites_of_openAppend (ht : t.Closed) (h : t.openAppend p = .ok t') :
    ∃ loc content, t'.Names p loc content ∧ t.Rewrites (loc = ·) t' := by
  obtain ⟨loc, content, hnames, rfl | ⟨hloc, hnone, rfl⟩⟩ := exists_names_of_openAppend ht h
  · exact ⟨loc, content, hnames, .refl _ _⟩
  · exact ⟨loc, content, hnames, .put hloc ⟨none, hnone⟩ rfl .empty⟩

/-- Opening a file that is there does nothing. -/
theorem Names.openAppend (hnames : t.Names p loc content) (ht : t.Closed)
    (h : t.openAppend p = .ok t') : t' = t := by
  obtain ⟨loc', content', hnames', rfl | ⟨hloc, hnone, rfl⟩⟩ := exists_names_of_openAppend ht h
  · rfl
  · have hresolve := (extends_put_file hloc ⟨none, hnone⟩ .empty).resolve hnames.resolve
    obtain rfl : loc' = loc := Except.ok.inj (hnames'.resolve.symm.trans hresolve)
    rw [hnames.node?] at hnone
    cases hnone

end Opening

end Tree

namespace LogDirectory

/-- Where a generation of the standard log is kept in a tree without links. -/
def standardSlot (home : Location) (g : Nat) : Location :=
  fileName g :: "logs" :: ".evmdis" :: home

section Standard

variable {t : Tree}

theorem resolve_current_of_linkless (hlinks : t.Linkless) {loc : Location}
    (h : t.resolve standard.current = .ok loc) : loc = standardSlot t.home 0 := by
  obtain ⟨-, seen, harrives⟩ := Tree.locate_eq_ok_iff.1 (Tree.resolve_eq_ok_iff.1 h)
  have hsteps : standard.current.steps = [".evmdis", "logs", fileName 0] := by
    decide +kernel
  rw [hsteps] at harrives
  obtain ⟨seen, harrives⟩ := harrives.down_of_not_link (by decide +kernel) (hlinks _)
  obtain ⟨seen, harrives⟩ := harrives.down_of_not_link (by decide +kernel) (hlinks _)
  obtain ⟨seen, harrives⟩ := harrives.down_of_not_link (by decide +kernel) (hlinks _)
  cases harrives
  rfl

/-- A full log in a tree to which only directories have been added was there before. -/
theorem node?_standardSlot_of_isFull {made : Tree} (hlinks : t.Linkless)
    (hadds : t.AddsDirectories made) (h : (made.perform standard.isFull).1 = true) :
    t.node? (standardSlot t.home 0) ≠ none := by
  rw [isFull, Tree.perform_bind, Tree.perform_kind?] at h
  dsimp only at h
  split at h
  · next hkind =>
      obtain ⟨loc, content, hresolve, hnode⟩ := Tree.exists_names_of_kind? hkind
      rw [resolve_current_of_linkless (hadds.linkless hlinks) hresolve, hadds.home] at hnode
      rw [hadds.node?_eq_of_ne (by simp [hnode]), hnode]
      exact Option.some_ne_none _
  · cases h

/-- Around a log that is there the directories are there. -/
theorem leads_standard (ht : t.Closed) {g : Nat}
    (h : t.node? (standardSlot t.home g) ≠ none) :
    t.Leads (standard.path.origin t.home) standard.path.names
      ("logs" :: ".evmdis" :: t.home) := by
  have hlogs := ht _ _ h
  have hdot := ht _ _ (by rw [Tree.isDirectory_iff.1 hlogs]; exact Option.some_ne_none _)
  have hhome := ht _ _ (by rw [Tree.isDirectory_iff.1 hdot]; exact Option.some_ne_none _)
  exact leads_standard_of_isDirectory hhome hdot hlogs

/-- Where the standard log is there, nothing has to be made for it. -/
theorem perform_ensure_standard (ht : t.Closed) {g : Nat}
    (h : t.node? (standardSlot t.home g) ≠ none) :
    t.perform standard.ensure = (.ok (), t) := by
  apply perform_ensure_of_kind?
  exact (leads_standard ht h).kind? (by decide +kernel) (by decide +kernel)

theorem keeps_standard (ht : t.Closed) (hlinks : t.Linkless)
    (hslots : ∀ g ≤ generations, t.isDirectory (standardSlot t.home g) = false) {g : Nat}
    (h : t.node? (standardSlot t.home g) ≠ none) :
    ∃ logs, standard.Keeps t ("logs" :: ".evmdis" :: t.home) logs := by
  refine ⟨fun g => (t.node? (standardSlot t.home g)).bind Node.content?, ht,
    leads_standard ht h, fault?_standard_file, fun g hg => ?_⟩
  rw [← standardSlot]
  cases hnode : t.node? (standardSlot t.home g) with
  | none => rfl
  | some node =>
      cases node with
      | file content => rfl
      | link target => exact absurd hnode (hlinks _ _)
      | directory =>
          have hdir := hslots g hg
          rw [Tree.isDirectory, hnode] at hdir
          cases hdir

theorem Keeps.atMostFile {d : LogDirectory} {loc : Location} {logs : Nat → Option ByteArray}
    (h : d.Keeps t loc logs) {g : Nat} (hg : g ≤ generations) :
    t.AtMostFile (fileName g :: loc) :=
  ⟨logs g, h.log g hg⟩

/-- A rotation writes to the generations. -/
theorem Keeps.rewrites_rotate {d : LogDirectory} {loc : Location}
    {logs : Nat → Option ByteArray} (h : d.Keeps t loc logs) :
    t.Rewrites (fun o => ∃ g ≤ generations, o = fileName g :: loc) (t.perform d.rotate).2 := by
  obtain ⟨t', hrotate, hkeeps, hspares⟩ := h.rotate
  rw [hrotate]
  refine ⟨hspares.home, fun o => ?_⟩
  by_cases ho : ∃ g ≤ generations, o = fileName g :: loc
  · obtain ⟨g, hg, rfl⟩ := ho
    exact .inr ⟨⟨g, hg, rfl⟩, h.atMostFile hg, hkeeps.atMostFile hg⟩
  · push Not at ho
    exact .inl (hspares.node? o ho)

end Standard

end LogDirectory

namespace LogFile

variable {t : Tree}

/-- Before the log is opened directories are made and then, for the standard log,
generations are moved. -/
theorem exists_rewrites_prepare (ht : t.Closed) (hlinks : t.Linkless)
    (hslots : ∀ g ≤ LogDirectory.generations,
      t.isDirectory (LogDirectory.standardSlot t.home g) = false) (custom : Option Path) :
    ∃ made, t.AddsDirectories made ∧
      made.Rewrites (fun o => custom = none ∧ ∃ g ≤ LogDirectory.generations,
        o = LogDirectory.standardSlot t.home g) (t.perform (prepare custom)).2 := by
  cases custom with
  | some p => exact ⟨_, addsDirectories_prepare p t, .refl _ _⟩
  | none =>
      have hadds := LogDirectory.standard.addsDirectories_ensure t
      refine ⟨_, hadds, ?_⟩
      rcases perform_prepare_none t with hprepare | ⟨hfull, hprepare⟩
      · rw [hprepare]
        exact .refl _ _
      · -- A full log was there before, so that nothing has been made for it.
        have hlog := LogDirectory.node?_standardSlot_of_isFull hlinks hadds hfull
        rw [hprepare, LogDirectory.perform_ensure_standard ht hlog]
        obtain ⟨logs, hkeeps⟩ := LogDirectory.keeps_standard ht hlinks hslots hlog
        exact hkeeps.rewrites_rotate.mono fun o ho => ⟨rfl, ho⟩

end LogFile

namespace Program

/-- The locations that a command may write to, by its result and the tree that it leaves:
that of its log, which is the one that it has been given or else the standard one, and, if it
has not been given a log of its own, those of the generations of the standard log. A command
that is refused may write nowhere. -/
def Writable (done : Except CommandLine.Refusal (Config × Outcome) × Tree) (o : Location) :
    Prop :=
  ∃ config outcome, done.1 = .ok (config, outcome) ∧
    ((outcome.log = some (LogFile.path config.logging.file) ∧
        done.2.resolve (LogFile.path config.logging.file) = .ok o) ∨
      config.logging.file = none ∧
        ∃ g ≤ LogDirectory.generations, o = LogDirectory.standardSlot done.2.home g)

section Runs

variable {t : Tree}

/-- A run makes directories first and then writes where it may. -/
theorem exists_rewrites_run (ht : t.Closed) (hlinks : t.Linkless)
    (hslots : ∀ g ≤ LogDirectory.generations,
      t.isDirectory (LogDirectory.standardSlot t.home g) = false)
    (config : Config) (input : List UInt8) :
    let done := t.perform (run config input)
    ∃ made, t.AddsDirectories made ∧
      made.Rewrites (Writable (.ok (config, done.1), done.2)) done.2 := by
  intro done
  obtain ⟨made, hadds, hrewrites⟩ :=
    LogFile.exists_rewrites_prepare ht hlinks hslots config.logging.file
  refine ⟨made, hadds, ?_⟩
  have hevolves := LogFile.evolves_prepare config.logging.file t
  rcases LogFile.perform_start t config.logging.file with
    ⟨fault, hstart⟩ | ⟨file, t₁, hstart, hprepare, hopen⟩
  · have hdone : done = _ := perform_run_of_error hstart input
    rw [hdone]
    refine hrewrites.mono fun o ⟨hnone, g, hg, ho⟩ =>
      ⟨config, _, rfl, .inr ⟨hnone, g, hg, ?_⟩⟩
    rw [hevolves.home, ho]
  · obtain rfl := LogFile.file_of_prepare hprepare
    obtain ⟨loc, content, hnames, hopened⟩ :=
      Tree.exists_rewrites_of_openAppend (hevolves.closed ht) hopen
    have hdone : done = _ := perform_run_of_names hstart hnames input
    have hlog {o : Location} (ho : loc = o) : Writable (.ok (config, done.1), done.2) o := by
      rw [hdone]
      exact ⟨config, _, rfl, .inl ⟨rfl, ho ▸ (hnames.put _).resolve⟩⟩
    have hgeneration {o : Location} (ho : config.logging.file = none ∧
        ∃ g ≤ LogDirectory.generations, o = LogDirectory.standardSlot t.home g) :
        Writable (.ok (config, done.1), done.2) o := by
      have hhome : done.2.home = t.home := by
        rw [hdone, ← hevolves.home, ← hopened.home]
        rfl
      rw [← hhome] at ho
      exact ⟨config, _, rfl, .inr ho⟩
    have hadded : t₁.Rewrites (Writable (.ok (config, done.1), done.2)) done.2 := by
      rw [hdone] at hlog ⊢
      exact .put hnames.ne_nil hnames.atMostFile (hlog rfl) _
    exact (hrewrites.mono fun _ => hgeneration).trans ((hopened.mono fun _ => hlog).trans hadded)

/-- So does a command, and one that is refused does nothing. -/
theorem exists_rewrites_command (ht : t.Closed) (hlinks : t.Linkless)
    (hslots : ∀ g ≤ LogDirectory.generations,
      t.isDirectory (LogDirectory.standardSlot t.home g) = false)
    (args : List String) (input : List UInt8) :
    let done := t.perform (command args (pure input))
    ∃ made, t.AddsDirectories made ∧ made.Rewrites (Writable done) done.2 := by
  intro done
  cases hparse : CommandLine.parse args with
  | error refusal =>
      have hdone : done = _ := perform_command_of_error hparse (pure input)
      rw [hdone]
      exact ⟨t, .refl t, .refl _ t⟩
  | ok config =>
      have hdone : done = _ := perform_command_of_ok hparse input
      rw [hdone]
      exact exists_rewrites_run ht hlinks hslots config input

/-- A run only adds to a log that it has been given. -/
theorem exists_names_run (ht : t.Closed) {config : Config} {p : Path} {loc : Location}
    {content : ByteArray} (hfile : config.logging.file = some p)
    (hnames : t.Names p loc content) (input : List UInt8) :
    ∃ more, (t.perform (run config input)).2.Names p loc (content ++ more) := by
  have hprepared := (LogFile.addsDirectories_prepare p t).names hnames
  have hclosed := (LogFile.evolves_prepare (some p) t).closed ht
  rw [← hfile] at hprepared hclosed
  rcases LogFile.perform_start t config.logging.file with
    ⟨fault, hstart⟩ | ⟨file, t₁, hstart, hprepare, hopen⟩
  · rw [perform_run_of_error hstart]
    refine ⟨.empty, ?_⟩
    rwa [ByteArray.append_empty]
  · obtain rfl : file = p := by
      rw [LogFile.file_of_prepare hprepare, hfile]
      rfl
    rw [hprepared.openAppend hclosed hopen] at hstart
    rw [perform_run_of_names hstart hprepared]
    exact ⟨_, hprepared.put _⟩

end Runs

/-- A command harms no file that is not its own. In a tree without links and without a
directory in the place of a generation, and whatever the arguments, the input and the exit
code are: a file to which the command may not write keeps its place and its content, every
directory stays, what is new is a directory or at a location to which the command may write,
and to a log that the command has been given it only adds. -/
theorem command_harms_no_file {t : Tree} (ht : t.Closed) (hlinks : t.Linkless)
    (hslots : ∀ g ≤ LogDirectory.generations,
      t.isDirectory (LogDirectory.standardSlot t.home g) = false)
    (args : List String) (input : List UInt8) :
    let done := t.perform (command args (pure input))
    done.2.home = t.home ∧
    (∀ o content, t.node? o = some (.file content) → ¬ Writable done o →
      done.2.node? o = some (.file content)) ∧
    (∀ o, t.node? o = some .directory → done.2.node? o = some .directory) ∧
    (∀ o, t.node? o = none → done.2.node? o ≠ none →
      done.2.node? o = some .directory ∨ Writable done o) ∧
    ∀ config p loc content, CommandLine.parse args = .ok config →
      config.logging.file = some p → t.Names p loc content →
      ∃ more, done.2.Names p loc (content ++ more) := by
  intro done
  obtain ⟨made, hadds, hrewrites⟩ := exists_rewrites_command ht hlinks hslots args input
  refine ⟨hrewrites.home.trans hadds.home, ?_, ?_, ?_, ?_⟩
  · intro o content ho hnot
    rw [hrewrites.node?_of_not hnot, hadds.node?_of_ne_none (by simp [ho]), ho]
  · intro o ho
    exact hrewrites.directory (hadds.toExtends.directory o ho)
  · intro o ho hnew
    rcases hadds.node? o with hsame | ⟨-, hdirectory⟩
    · right
      by_contra hnot
      rw [hrewrites.node?_of_not hnot, hsame] at hnew
      exact hnew ho
    · exact .inl (hrewrites.directory hdirectory)
  · intro config p loc content hparse hfile hnames
    have hdone : done = _ := perform_command_of_ok hparse input
    rw [hdone]
    exact exists_names_run ht hfile hnames input

/-- A log that is there already, and a file beside it. -/
theorem command_harms_no_file_beside_its_log :
    ∃ t : Tree, t.node? ["f"] = some (.file ⟨#[1]⟩) ∧ t.node? ["l"] = some (.file ⟨#[2]⟩) ∧
      ∃ done, done = t.perform (command ["--code", "00", "--log-file", "l"] (pure [])) ∧
        done.2.node? ["f"] = some (.file ⟨#[1]⟩) ∧
        ∃ more, done.2.Names ⟨"l"⟩ ["l"] (⟨#[2]⟩ ++ more) := by
  obtain ⟨t, heq⟩ : ∃ t : Tree, t = ⟨[(["f"], .file ⟨#[1]⟩), (["l"], .file ⟨#[2]⟩)], []⟩ :=
    ⟨_, rfl⟩
  have hargs : CommandLine.parse ["--code", "00", "--log-file", "l"] =
      .ok ⟨.list "00", { file := some ⟨"l"⟩ }⟩ := by
    decide +kernel
  have ht : t.Closed := heq ▸ Tree.closed_of_entries (by decide)
  have hlinks : t.Linkless := heq ▸ Tree.linkless_of_entries (by simp)
  have hslots : ∀ g ≤ LogDirectory.generations,
      t.isDirectory (LogDirectory.standardSlot t.home g) = false := by
    rw [heq]
    decide +kernel
  obtain ⟨-, hfiles, -, -, hlog⟩ :=
    command_harms_no_file ht hlinks hslots ["--code", "00", "--log-file", "l"] []
  obtain ⟨more, hnames⟩ := hlog _ ⟨"l"⟩ ["l"] ⟨#[2]⟩ hargs rfl
    (by rw [heq]; exact ⟨by decide +kernel, rfl⟩)
  refine ⟨t, heq ▸ rfl, heq ▸ rfl, _, rfl, hfiles _ _ (heq ▸ rfl) ?_, more, hnames⟩
  -- The only location to which this command may write is that of the log.
  rintro ⟨config, outcome, hdone, hwritable⟩
  have houtcome := (congrArg Prod.fst (perform_command_of_ok hargs [])).symm.trans hdone
  simp only [Except.ok.injEq, Prod.mk.injEq] at houtcome
  obtain ⟨rfl, rfl⟩ := houtcome
  rcases hwritable with ⟨-, hresolve⟩ | ⟨hnone, -⟩
  · exact absurd (hresolve.symm.trans hnames.resolve) (by simp)
  · cases hnone

end Program

end BytecodeListing
