import Mathlib.Data.List.GetD
import Mathlib.Data.List.Induction
import Mathlib.Logic.Function.Basic
import Mathlib.Tactic.IntervalCases
import BytecodeListing.Files.Planting
import BytecodeListing.Log.Directory
import BytecodeListing.Proofs.Following

/-!
# What rotations keep

The contents of the generations are read as a function of their numbers, and every
operation on the log directory is an operation on that function (`Keeps`). Renaming
carries one generation over to the next one, which is free because the generations
above have moved before; a rotation leaves the log of every generation in the next one
and drops the oldest. Any number of rotations with new logs between them keeps the ten
newest logs in order and touches nothing else (`rotations_keep_newest`).
-/

namespace BytecodeListing

namespace LogDirectory

open Function

theorem plain_fileName : ∀ g ≤ generations, Path.Plain (fileName g) := by
  decide +kernel

theorem slash_notMem_fileName : ∀ g ≤ generations, '/' ∉ (fileName g).toList := by
  decide +kernel

theorem fileName_injOn :
    ∀ g ≤ generations, ∀ k ≤ generations, fileName g = fileName k → g = k := by
  decide +kernel

theorem steps_file (d : LogDirectory) {g : Nat} (hg : g ≤ generations) :
    (d.file g).steps = (d.file g).names := by
  have hname := (plain_fileName g hg).2.1
  have hslash := slash_notMem_fileName g hg
  rw [file, Path.steps_join d.path hname hslash, Path.names_join d.path hname hslash]

theorem slot_eq_iff {g k : Nat} (hg : g ≤ generations) (hk : k ≤ generations)
    (loc : Location) : fileName g :: loc = fileName k :: loc ↔ g = k := by
  constructor
  · intro h
    exact fileName_injOn g hg k hk (List.cons.inj h).1
  · rintro rfl
    rfl

theorem slot_suffix_iff {g k : Nat} (hg : g ≤ generations) (hk : k ≤ generations)
    (loc : Location) : (fileName g :: loc) <:+ (fileName k :: loc) ↔ g = k := by
  constructor
  · intro h
    exact (slot_eq_iff hg hk loc).1 (h.eq_of_length rfl)
  · rintro rfl
    exact List.suffix_rfl

section Contents

/-- The contents when every log has moved up by one generation. -/
def aged (logs : Nat → Option ByteArray) : Nat → Option ByteArray
  | 0 => none
  | g + 1 => logs g

/-- The contents when the logs below generation `n` have moved up by one. -/
def agedTo (n : Nat) (logs : Nat → Option ByteArray) : Nat → Option ByteArray :=
  fun g => if g ≤ n then aged logs g else logs g

/-- The contents when the log of generation `n` has moved up by one. -/
def carried (n : Nat) (logs : Nat → Option ByteArray) : Nat → Option ByteArray :=
  update (update logs (n + 1) (logs n)) n none

variable {logs : Nat → Option ByteArray}

theorem carried_self (n : Nat) (logs : Nat → Option ByteArray) :
    carried n logs n = none := by
  rw [carried, update_self]

theorem carried_of_none {n : Nat} (h : logs n = none) (h' : logs (n + 1) = none) :
    carried n logs = logs := by
  rw [carried, h, ← h', update_eq_self, h', ← h, update_eq_self]

theorem agedTo_zero (h : logs 0 = none) : agedTo 0 logs = logs := by
  funext g
  cases g with
  | zero => exact h.symm
  | succ g => rfl

/-- Moving one log and then those below it moves all of them. -/
theorem agedTo_carried (n : Nat) (logs : Nat → Option ByteArray) :
    agedTo n (carried n logs) = agedTo (n + 1) logs := by
  funext g
  cases g with
  | zero => simp [agedTo, aged]
  | succ g =>
      simp only [agedTo, aged, carried, update_apply]
      grind

theorem agedTo_update {n g : Nat} (h : g ≤ n) (content : Option ByteArray) :
    agedTo n (update logs n content) g = aged logs g := by
  rw [agedTo, if_pos h]
  cases g with
  | zero => rfl
  | succ g => exact update_of_ne (Nat.ne_of_lt h) content logs

end Contents

/-- In a closed tree the directory is reached through ordinary directories, the paths
of its generations are not too long, and the generations are files with the given
contents, or absent. -/
structure Keeps (d : LogDirectory) (t : Tree) (loc : Location)
    (logs : Nat → Option ByteArray) : Prop where
  closed : t.Closed
  leads : t.Leads (d.path.origin t.home) d.path.names loc
  fits : ∀ g ≤ generations, (d.file g).fault? = none
  log : ∀ g ≤ generations, t.node? (fileName g :: loc) = (logs g).map .file

/-- The trees differ at most at the generations of the log. -/
structure Spares (loc : Location) (t t' : Tree) : Prop where
  home : t'.home = t.home
  node? : ∀ o, (∀ g ≤ generations, o ≠ fileName g :: loc) →
    t'.node? o = t.node? o

theorem Spares.refl (loc : Location) (t : Tree) : Spares loc t t :=
  ⟨rfl, fun _ _ => rfl⟩

theorem Spares.trans {loc : Location} {t t' t'' : Tree} (h : Spares loc t t')
    (h' : Spares loc t' t'') : Spares loc t t'' :=
  ⟨h'.home.trans h.home, fun o ho => (h'.node? o ho).trans (h.node? o ho)⟩

namespace Keeps

variable {d : LogDirectory} {t t' : Tree} {loc : Location}
  {logs logs' : Nat → Option ByteArray}

theorem isDirectory_file (h : d.Keeps t loc logs) {g : Nat} (hg : g ≤ generations) :
    t.isDirectory (fileName g :: loc) = false := by
  rw [Tree.isDirectory, h.log g hg]
  cases logs g <;> rfl

/-- A change of the generations alone is a change of their contents alone. -/
theorem of_spares (h : d.Keeps t loc logs) (hspares : Spares loc t t')
    (hlog : ∀ g ≤ generations, t'.node? (fileName g :: loc) = (logs' g).map .file) :
    d.Keeps t' loc logs' := by
  -- No generation is a directory, so the directories are all among what is spared.
  have hdirs : ∀ o, t.isDirectory o = true → t'.isDirectory o = true := by
    intro o ho
    rw [Tree.isDirectory, hspares.node? o, ← Tree.isDirectory, ho]
    rintro g hg rfl
    rw [h.isDirectory_file hg] at ho
    cases ho
  refine ⟨?_, ?_, h.fits, hlog⟩
  · intro name outer hnode
    apply hdirs
    by_cases hslot : ∃ g ≤ generations, name :: outer = fileName g :: loc
    · obtain ⟨g, -, heq⟩ := hslot
      rw [(List.cons.inj heq).2]
      exact h.leads.isDirectory_end
    · push Not at hslot
      rw [hspares.node? _ hslot] at hnode
      exact h.closed name outer hnode
  · rw [hspares.home]
    exact h.leads.mono hdirs

theorem locate (h : d.Keeps t loc logs) (aim : Aim) {g : Nat} (hg : g ≤ generations) :
    t.locate aim (d.file g) (d.file g).names = .ok (t.placeIn loc (fileName g)) := by
  have hplain := plain_fileName g hg
  have hslash := slash_notMem_fileName g hg
  rw [file, Path.names_join d.path hplain.2.1 hslash]
  apply h.leads.locate_join aim hplain hslash (h.fits g hg)
  intro target
  rw [h.log g hg]
  cases logs g <;> simp

theorem kind?_file (h : d.Keeps t loc logs) {g : Nat} (hg : g ≤ generations) :
    t.kind? (d.file g) = (logs g).map fun content => .file content.size := by
  have hnode := h.log g hg
  rw [Tree.kind?, Tree.resolve, steps_file d hg, h.locate .target hg, Tree.placeIn]
  cases hlog : logs g with
  | none => simp [hnode, hlog]
  | some content => simp [hnode, hlog]

theorem remove_file (h : d.Keeps t loc logs) {g : Nat} (hg : g ≤ generations)
    (hlog : logs g ≠ none) :
    t.remove (d.file g) = .ok (t.erase (fileName g :: loc)) := by
  obtain ⟨content, hcontent⟩ := Option.ne_none_iff_exists'.1 hlog
  have hnode := h.log g hg
  rw [Tree.remove, h.locate .node hg, Tree.placeIn]
  simp [hnode, hcontent]

theorem remove_absent (h : d.Keeps t loc logs) {g : Nat} (hg : g ≤ generations)
    (hlog : logs g = none) : t.remove (d.file g) = .error .notFound := by
  have hnode := h.log g hg
  rw [Tree.remove, h.locate .node hg, Tree.placeIn]
  simp [hnode, hlog]

theorem rename_file (h : d.Keeps t loc logs) {g : Nat} (hg : g + 1 ≤ generations)
    (hlog : logs g ≠ none) (hfree : logs (g + 1) = none) :
    t.rename (d.file g) (d.file (g + 1)) =
      .ok (t.move (fileName g :: loc) (fileName (g + 1) :: loc)) := by
  have hg' : g ≤ generations := Nat.le_of_succ_le hg
  obtain ⟨content, hcontent⟩ := Option.ne_none_iff_exists'.1 hlog
  have hentry : t.placeIn loc (fileName g) = .entry (fileName g :: loc) := by
    rw [Tree.placeIn, h.log g hg', hcontent]
    rfl
  have hnode : t.node? (fileName (g + 1) :: loc) = none := by
    rw [h.log (g + 1) hg, hfree]
    rfl
  rw [Tree.rename, h.locate .node hg', h.locate .node hg, hentry]
  simp [slot_eq_iff hg' hg, slot_suffix_iff hg' hg, slot_suffix_iff hg hg', hnode]

theorem set (h : d.Keeps t loc logs) {g : Nat} (hg : g ≤ generations)
    (content : Option ByteArray)
    (hview : ∀ o, t'.node? o =
      if o = fileName g :: loc then content.map .file else t.node? o)
    (hhome : t'.home = t.home) :
    d.Keeps t' loc (update logs g content) ∧ Spares loc t t' := by
  have hspares : Spares loc t t' := by
    refine ⟨hhome, fun o ho => ?_⟩
    rw [hview, if_neg (ho g hg)]
  refine ⟨h.of_spares hspares fun k hk => ?_, hspares⟩
  rw [hview, h.log k hk, update_apply]
  simp only [slot_eq_iff hk hg]
  split <;> rfl

theorem erase (h : d.Keeps t loc logs) {g : Nat} (hg : g ≤ generations) :
    d.Keeps (t.erase (fileName g :: loc)) loc (update logs g none) ∧
      Spares loc t (t.erase (fileName g :: loc)) :=
  h.set hg none (t.node?_erase (List.cons_ne_nil _ _)) rfl

theorem put (h : d.Keeps t loc logs) {g : Nat} (hg : g ≤ generations)
    (content : ByteArray) :
    d.Keeps (t.put (fileName g :: loc) (.file content)) loc
        (update logs g (some content)) ∧
      Spares loc t (t.put (fileName g :: loc) (.file content)) :=
  h.set hg (some content) (t.node?_put (List.cons_ne_nil _ _) (.file content)) rfl

/-- Moving a generation is writing its content to the next one and removing it. -/
theorem move (h : d.Keeps t loc logs) {g : Nat} (hg : g + 1 ≤ generations)
    (hlog : logs g ≠ none) :
    d.Keeps (t.move (fileName g :: loc) (fileName (g + 1) :: loc)) loc
        (carried g logs) ∧
      Spares loc t (t.move (fileName g :: loc) (fileName (g + 1) :: loc)) := by
  have hg' : g ≤ generations := Nat.le_of_succ_le hg
  obtain ⟨content, hcontent⟩ := Option.ne_none_iff_exists'.1 hlog
  obtain ⟨hput, hspares⟩ := h.put hg content
  have hview : ∀ o, (t.move (fileName g :: loc) (fileName (g + 1) :: loc)).node? o =
      if o = fileName g :: loc then none
      else (t.put (fileName (g + 1) :: loc) (.file content)).node? o := by
    intro o
    rw [h.closed.node?_move (h.isDirectory_file hg') (h.isDirectory_file hg)
      (by simp [slot_suffix_iff hg' hg]) (by simp [slot_suffix_iff hg hg']),
      t.node?_put (List.cons_ne_nil _ _), h.log g hg', hcontent]
    by_cases ho : o = fileName g :: loc
    · simp [ho, slot_eq_iff hg' hg]
    · simp [ho]
  obtain ⟨hmove, hspares'⟩ := hput.set hg' none hview rfl
  rw [← hcontent] at hmove
  exact ⟨hmove, hspares.trans hspares'⟩

theorem congr (h : d.Keeps t loc logs) (hlogs : ∀ g ≤ generations, logs g = logs' g) :
    d.Keeps t loc logs' :=
  ⟨h.closed, h.leads, h.fits, fun g hg => hlogs g hg ▸ h.log g hg⟩

/-- One step of the shift: the generation above is free, so that nothing is lost. -/
theorem shift_step (h : d.Keeps t loc logs) {n : Nat} (hn : n + 1 ≤ generations)
    (hfree : logs (n + 1) = none) :
    ∃ t', t.perform (d.shift (n + 1)) = t'.perform (d.shift n) ∧
      d.Keeps t' loc (carried n logs) ∧ Spares loc t t' := by
  have hkind := h.kind?_file (Nat.le_of_succ_le hn)
  cases hlog : logs n with
  | none =>
      refine ⟨t, ?_, ?_, .refl loc t⟩
      · rw [LogDirectory.shift, Tree.perform_bind, Tree.perform_present, hkind, hlog]
        rfl
      · rwa [carried_of_none hlog hfree]
  | some content =>
      have hne : logs n ≠ none := by simp [hlog]
      refine ⟨_, ?_, h.move hn hne⟩
      rw [LogDirectory.shift, Tree.perform_bind, Tree.perform_present, hkind, hlog]
      simp only [Option.map_some, Option.isSome_some, if_true]
      rw [Tree.perform_bind, Tree.perform_rename, h.rename_file hn hne hfree]

/-- The logs below a free generation move up by one. -/
theorem shift {n : Nat} (h : d.Keeps t loc logs) (hn : n ≤ generations)
    (hfree : logs n = none) :
    ∃ t', t.perform (d.shift n) = (.ok (), t') ∧ d.Keeps t' loc (agedTo n logs) ∧
      Spares loc t t' := by
  induction n generalizing t logs with
  | zero =>
      refine ⟨t, rfl, ?_, .refl loc t⟩
      rwa [agedTo_zero hfree]
  | succ n ih =>
      obtain ⟨t', hstep, hkeeps, hspares⟩ := h.shift_step hn hfree
      -- The step has freed generation `n`, which is what the shift below it needs.
      obtain ⟨t'', hshift, hkeeps', hspares'⟩ :=
        ih hkeeps (Nat.le_of_succ_le hn) (carried_self n logs)
      rw [agedTo_carried] at hkeeps'
      exact ⟨t'', hstep.trans hshift, hkeeps', hspares.trans hspares'⟩

theorem rotate_step (h : d.Keeps t loc logs) :
    ∃ t', t.perform d.rotate = t'.perform (d.shift generations) ∧
      d.Keeps t' loc (update logs generations none) ∧ Spares loc t t' := by
  have hkind := h.kind?_file (Nat.le_refl generations)
  cases hlog : logs generations with
  | none =>
      refine ⟨t, ?_, ?_, .refl loc t⟩
      · rw [LogDirectory.rotate, Tree.perform_bind, Tree.perform_present, hkind, hlog]
        rfl
      · rwa [← hlog, update_eq_self]
  | some content =>
      have hremove := h.remove_file (Nat.le_refl generations) (by simp [hlog])
      refine ⟨_, ?_, h.erase (Nat.le_refl generations)⟩
      rw [LogDirectory.rotate, Tree.perform_bind, Tree.perform_present, hkind, hlog]
      simp only [Option.map_some, Option.isSome_some, if_true]
      rw [Tree.perform_bind, Tree.perform_remove, hremove]

theorem rotate (h : d.Keeps t loc logs) :
    ∃ t', t.perform d.rotate = (.ok (), t') ∧ d.Keeps t' loc (aged logs) ∧
      Spares loc t t' := by
  obtain ⟨t', hroom, hkeeps, hspares⟩ := h.rotate_step
  obtain ⟨t'', hshift, hkeeps', hspares'⟩ :=
    hkeeps.shift (Nat.le_refl generations) (update_self generations none logs)
  refine ⟨t'', hroom.trans hshift, ?_, hspares.trans hspares'⟩
  exact hkeeps'.congr fun g hg => agedTo_update hg none

end Keeps

/-- Gives the log in use a content, or removes it. -/
def write (d : LogDirectory) (t : Tree) : Option ByteArray → Tree
  | some content => t.putAt .target d.current (.file content)
  | none => (t.perform (FileStore.remove d.current)).2

/-- Writes each of the given logs in turn and rotates after each. -/
def rounds (d : LogDirectory) (t : Tree) :
    List (Option ByteArray) → List (Except LogFault Unit) × Tree
  | [] => ([], t)
  | log :: later =>
      let rotated := (d.write t log).perform d.rotate
      let rest := d.rounds rotated.2 later
      (rotated.1 :: rest.1, rest.2)

/-- The contents when a log has been written and rotated. -/
def entered (logs : Nat → Option ByteArray) (log : Option ByteArray) :
    Nat → Option ByteArray :=
  aged (update logs 0 log)

theorem foldl_entered_zero (logs : Nat → Option ByteArray)
    {xs : List (Option ByteArray)} (hxs : xs ≠ []) : xs.foldl entered logs 0 = none := by
  rw [← List.dropLast_concat_getLast hxs, List.foldl_concat]
  rfl

theorem foldl_entered_succ (logs : Nat → Option ByteArray)
    (xs : List (Option ByteArray)) (g : Nat) :
    xs.foldl entered logs (g + 1) =
      if g + 1 ≤ xs.length then xs.getD (xs.length - (g + 1)) none
      else logs (g + 1 - xs.length) := by
  -- From the last round backwards: its log is generation 1, and the others move up.
  induction xs using List.reverseRecOn generalizing g with
  | nil => rfl
  | append_singleton xs log ih =>
      rw [List.foldl_concat, List.length_append, List.length_singleton]
      cases g with
      | zero => simp [entered, aged]
      | succ g =>
          have hround : entered (xs.foldl entered logs) log (g + 2) =
              xs.foldl entered logs (g + 1) := update_of_ne (Nat.succ_ne_zero g) log _
          rw [hround, ih, Nat.succ_sub_succ, Nat.succ_sub_succ]
          by_cases hg : g + 1 ≤ xs.length
          · have hlt : xs.length - (g + 1) < xs.length := by omega
            rw [if_pos hg, if_pos (Nat.succ_le_succ hg), List.getD_append _ _ _ _ hlt]
          · rw [if_neg hg, if_neg (mt Nat.le_of_succ_le_succ hg)]

namespace Keeps

variable {d : LogDirectory} {t : Tree} {loc : Location}
  {logs : Nat → Option ByteArray}

theorem write (h : d.Keeps t loc logs) (log : Option ByteArray) :
    d.Keeps (d.write t log) loc (update logs 0 log) ∧
      Spares loc t (d.write t log) := by
  have hzero : 0 ≤ generations := Nat.zero_le generations
  cases log with
  | none =>
      rw [LogDirectory.write, current, Tree.perform_remove]
      cases hlog : logs 0 with
      | none =>
          rw [h.remove_absent hzero hlog, ← hlog, update_eq_self]
          exact ⟨h, .refl loc t⟩
      | some content =>
          rw [h.remove_file hzero (by simp [hlog])]
          exact h.erase hzero
  | some content =>
      have hput : d.write t (some content) =
          t.put (fileName 0 :: loc) (.file content) := by
        rw [LogDirectory.write, Tree.putAt, current, h.locate .target hzero]
        simp [h.isDirectory_file hzero]
      rw [hput]
      exact h.put hzero content

theorem rounds (h : d.Keeps t loc logs) (xs : List (Option ByteArray)) :
    (d.rounds t xs).1 = List.replicate xs.length (.ok ()) ∧
      d.Keeps (d.rounds t xs).2 loc (xs.foldl entered logs) ∧
      Spares loc t (d.rounds t xs).2 := by
  induction xs generalizing t logs with
  | nil => exact ⟨rfl, h, .refl loc t⟩
  | cons log later ih =>
      obtain ⟨hwrite, hspares⟩ := h.write log
      obtain ⟨t', hrotate, hkeeps, hspares'⟩ := hwrite.rotate
      obtain ⟨hok, hkeeps', hspares''⟩ := ih hkeeps
      rw [LogDirectory.rounds, hrotate]
      exact ⟨congrArg (.ok () :: ·) hok, hkeeps',
        (hspares.trans hspares').trans hspares''⟩

end Keeps

/-- Rotations keep the newest logs in order: every rotation succeeds, generation `g` is
the log of the `g`-th last round or, where there have been fewer rounds, what was as
many generations below it at the start, and nothing else has changed. -/
theorem rotations_keep_newest {d : LogDirectory} {t : Tree} {loc : Location}
    {logs : Nat → Option ByteArray} (h : d.Keeps t loc logs)
    {xs : List (Option ByteArray)} (hxs : xs ≠ []) :
    (d.rounds t xs).1 = List.replicate xs.length (.ok ()) ∧
      d.Keeps (d.rounds t xs).2 loc (fun g =>
        if g = 0 then none
        else if g ≤ xs.length then xs.getD (xs.length - g) none
        else logs (g - xs.length)) ∧
      Spares loc t (d.rounds t xs).2 := by
  obtain ⟨hok, hkeeps, hspares⟩ := h.rounds xs
  refine ⟨hok, hkeeps.congr fun g _ => ?_, hspares⟩
  cases g with
  | zero => exact foldl_entered_zero logs hxs
  | succ g => exact foldl_entered_succ logs xs g

theorem rotations_keep_newest_gap :
    ∃ (t : Tree) (logs : Nat → Option ByteArray),
      (LogDirectory.mk ⟨"./logs"⟩).Keeps t ["logs", "work"] logs ∧
      logs 2 = none ∧ logs 3 = some ⟨#[3]⟩ ∧
      ((LogDirectory.mk ⟨"./logs"⟩).rounds t [some ⟨#[7]⟩, none]).1 =
        [.ok (), .ok ()] ∧
      ∀ g ≤ generations,
        ((LogDirectory.mk ⟨"./logs"⟩).rounds t [some ⟨#[7]⟩, none]).2.node?
            [fileName g, "logs", "work"] =
          if g = 2 then some (.file ⟨#[7]⟩)
          else if g = 5 then some (.file ⟨#[3]⟩) else none := by
  have h : (LogDirectory.mk ⟨"./logs"⟩).Keeps
      ⟨[(["evmdis.log.3", "logs", "work"], .file ⟨#[3]⟩),
        (["evmdis.log.9", "logs", "work"], .file ⟨#[9]⟩),
        (["logs", "work"], .directory), (["work"], .directory)], ["work"]⟩
      ["logs", "work"]
      (fun g =>
        if g = 3 then some ⟨#[3]⟩ else if g = 9 then some ⟨#[9]⟩ else none) := by
    refine ⟨Tree.closed_of_entries (by decide), ?_, by decide, ?_⟩
    · exact .dot (.down rfl (by decide) (.here rfl))
    · intro g hg
      rw [generations] at hg
      interval_cases g <;> rfl
  obtain ⟨hok, hkeeps, -⟩ :=
    rotations_keep_newest h (List.cons_ne_nil (some ⟨#[7]⟩) [none])
  refine ⟨_, _, h, rfl, rfl, hok, fun g hg => ?_⟩
  rw [hkeeps.log g hg]
  rw [generations] at hg
  interval_cases g <;> rfl

end LogDirectory

end BytecodeListing
