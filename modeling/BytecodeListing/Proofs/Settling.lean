import Mathlib.Tactic.IntervalCases
import BytecodeListing.Proofs.Ensuring
import BytecodeListing.Proofs.Losses

/-!
# A log that has been prepared

The generations may be anything, links to one another among them, as long as the log
directory itself is reached through ordinary directories (`Stands`). Renames in the
directory leave what is around them in place (`KeepsAround`), so each generation is looked
up in the same directory as the one before.

Behind every step of a rotation the generation it was about is not found: it has been moved
away, or was not found before the step (`Stands.shift_step`). The last step is about the
log in use. So a rotation that comes to its end leaves no log in use, wherever a link in its
place has led to, and preparing the log again finds nothing to do (`prepare_settles`).
-/

namespace BytecodeListing

namespace Tree

/-- The trees agree at a location and at all that is around it. -/
structure KeepsAround (loc : Location) (t t' : Tree) : Prop where
  home : t'.home = t.home
  node? : ∀ o, o <:+ loc → t'.node? o = t.node? o

namespace KeepsAround

variable {loc : Location} {t t' t'' : Tree}

theorem refl (loc : Location) (t : Tree) : KeepsAround loc t t :=
  ⟨rfl, fun _ _ => rfl⟩

theorem trans (h : KeepsAround loc t t') (h' : KeepsAround loc t' t'') :
    KeepsAround loc t t'' :=
  ⟨h'.home.trans h.home, fun o ho => (h'.node? o ho).trans (h.node? o ho)⟩

theorem isDirectory (h : KeepsAround loc t t') {o : Location} (ho : o <:+ loc) :
    t'.isDirectory o = t.isDirectory o := by
  rw [Tree.isDirectory, h.node? o ho, Tree.isDirectory]

theorem not_cons_suffix {o : Location} (ho : o <:+ loc) (name : Name) :
    ¬ (name :: loc) <:+ o :=
  fun h => cons_not_suffix_self name loc (h.trans ho)

theorem move (t : Tree) (loc : Location) (a b : Name) :
    KeepsAround loc t (t.move (a :: loc) (b :: loc)) where
  home := rfl
  node? o ho := by
    rw [t.node?_move_off (List.cons_ne_nil a loc) (not_cons_suffix ho b),
      if_neg (not_cons_suffix ho a)]

theorem erase (t : Tree) (loc : Location) (name : Name) :
    KeepsAround loc t (t.erase (name :: loc)) where
  home := rfl
  node? o ho := by
    have hne : o ≠ name :: loc := by
      rintro rfl
      exact not_cons_suffix ho name List.suffix_rfl
    rw [node?_erase t (List.cons_ne_nil name loc), if_neg hne]

end KeepsAround

end Tree

namespace LogDirectory

/-- The path of the directory leads to a location through ordinary directories, and the
paths of its generations are not too long. -/
structure Stands (d : LogDirectory) (t : Tree) (loc : Location) : Prop where
  leads : t.Leads (d.path.origin t.home) d.path.names loc
  fits : ∀ g ≤ generations, (d.file g).fault? = none

section Steps

variable {d : LogDirectory} {t t' : Tree} {loc : Location} {via : List Location} {n : Nat}

theorem Stands.reaches (h : d.Stands t loc) : d.Reaches t loc [] :=
  ⟨h.fits, h.leads.route, Nat.zero_le _⟩

theorem Stands.of_keepsAround (h : d.Stands t loc) (hkeeps : Tree.KeepsAround loc t t') :
    d.Stands t' loc := by
  refine ⟨?_, h.fits⟩
  rw [hkeeps.home]
  exact h.leads.mono_around fun o ho hdir => (hkeeps.isDirectory ho).trans hdir

/-- A rename that succeeds has moved the generation. -/
theorem Reaches.eq_move_of_rename (h : d.Reaches t loc via) (hn : n + 1 ≤ generations)
    (hrename : t.rename (d.file n) (d.file (n + 1)) = .ok t') :
    t' = t.move (fileName n :: loc) (fileName (n + 1) :: loc) := by
  have hn' : n ≤ generations := Nat.le_of_succ_le hn
  obtain ⟨source, place, hsource, hplace, hmoved⟩ := Tree.rename_cases hrename
  rw [h.locate_node hn', Except.ok.injEq] at hsource
  rw [h.locate_node hn, Except.ok.injEq] at hplace
  have hlocation := congrArg Place.location hsource
  rw [Tree.location_placeIn, Place.location] at hlocation
  rw [← hlocation, ← hplace, Tree.location_placeIn] at hmoved
  obtain ⟨hsame, -⟩ | ⟨-, -, -, hmove⟩ := hmoved
  · exact absurd ((slot_eq_iff hn' hn loc).1 hsame) (Nat.ne_of_lt (Nat.lt_succ_self n))
  · exact hmove

theorem Reaches.eq_erase_of_remove (h : d.Reaches t loc via) (hn : n ≤ generations)
    (hremove : t.remove (d.file n) = .ok t') : t' = t.erase (fileName n :: loc) := by
  rw [Tree.remove, h.locate_node hn, Tree.placeIn] at hremove
  cases hnode : t.node? (fileName n :: loc) with
  | none => simp [hnode] at hremove
  | some node =>
      simp only [hnode] at hremove
      split at hremove
      · cases hremove
      · exact (Except.ok.inj hremove).symm

/-- A generation that has moved up is not found any more. -/
theorem Stands.kind?_move (h : d.Stands t loc) (hn : n + 1 ≤ generations) :
    (t.move (fileName n :: loc) (fileName (n + 1) :: loc)).kind? (d.file n) = none := by
  have hstands := h.of_keepsAround (.move t loc (fileName n) (fileName (n + 1)))
  exact hstands.reaches.kind?_of_node?_none (Nat.le_of_succ_le hn) (node?_move_self t loc hn)

/-- Behind one step of moving up, what is around the directory is kept and the generation
that the step was about is not found. -/
theorem Stands.shift_step (h : d.Stands t loc) (hn : n + 1 ≤ generations)
    (hshift : t.perform (d.shift (n + 1)) = (.ok (), t')) :
    ∃ t₁, Tree.KeepsAround loc t t₁ ∧ t₁.kind? (d.file n) = none ∧
      t₁.perform (d.shift n) = (.ok (), t') := by
  cases hpresent : t.kind? (d.file n) with
  | none =>
      rw [shift_succ_of_absent hpresent] at hshift
      exact ⟨t, .refl loc t, hpresent, hshift⟩
  | some kind =>
      have hkind : t.kind? (d.file n) ≠ none := hpresent ▸ Option.some_ne_none kind
      cases hrename : t.rename (d.file n) (d.file (n + 1)) with
      | error fault =>
          rw [shift_succ_of_fault hkind hrename] at hshift
          cases hshift
      | ok t₁ =>
          rw [shift_succ_of_renamed hkind hrename,
            h.reaches.eq_move_of_rename hn hrename] at hshift
          exact ⟨_, .move t loc _ _, h.kind?_move hn, hshift⟩

/-- Moving up the generations, the log in use among them, leaves no log in use. -/
theorem Stands.shift (h : d.Stands t loc) (hn : n + 1 ≤ generations)
    (hshift : t.perform (d.shift (n + 1)) = (.ok (), t')) :
    Tree.KeepsAround loc t t' ∧ t'.kind? d.current = none := by
  induction n generalizing t with
  | zero =>
      obtain ⟨t₁, hkeeps, hkind, hshift⟩ := h.shift_step hn hshift
      cases hshift
      exact ⟨hkeeps, hkind⟩
  | succ n ih =>
      obtain ⟨t₁, hkeeps, -, hshift⟩ := h.shift_step hn hshift
      obtain ⟨hkeeps', hkind⟩ := ih (h.of_keepsAround hkeeps) (Nat.le_of_succ_le hn) hshift
      exact ⟨hkeeps.trans hkeeps', hkind⟩

/-- A rotation that succeeds leaves no log in use. -/
theorem Stands.rotate (h : d.Stands t loc) (hrotate : t.perform d.rotate = (.ok (), t')) :
    Tree.KeepsAround loc t t' ∧ t'.kind? d.current = none := by
  cases hpresent : t.kind? (d.file generations) with
  | none =>
      rw [rotate_of_absent hpresent] at hrotate
      exact h.shift le_rfl hrotate
  | some kind =>
      have hkind : t.kind? (d.file generations) ≠ none := hpresent ▸ Option.some_ne_none kind
      cases hremove : t.remove (d.file generations) with
      | error fault =>
          rw [rotate_of_fault hkind hremove] at hrotate
          cases hrotate
      | ok t₁ =>
          rw [rotate_of_removed hkind hremove,
            h.reaches.eq_erase_of_remove le_rfl hremove] at hrotate
          have hkeeps := Tree.KeepsAround.erase t loc (fileName generations)
          obtain ⟨hkeeps', hnone⟩ := (h.of_keepsAround hkeeps).shift le_rfl hrotate
          exact ⟨hkeeps.trans hkeeps', hnone⟩

theorem Reaches.kind?_of_file (h : d.Reaches t loc via) {g : Nat} (hg : g ≤ generations)
    {content : ByteArray} (hnode : t.node? (fileName g :: loc) = some (.file content)) :
    t.kind? (d.file g) = some (.file content.size) := by
  rw [Tree.kind?, Tree.resolve, steps_file d hg, h.locate_file .target hg,
    h.walk_fileName .target _ hg, hnode]
  simp only [hnode]

theorem path_fileName : ∀ g ≤ generations,
    (⟨fileName g⟩ : Path).steps = [fileName g] ∧ (⟨fileName g⟩ : Path).isAbsolute = false := by
  decide +kernel

/-- A generation that is a link to another one is what that is. -/
theorem Stands.kind?_of_link (h : d.Stands t loc) {g k : Nat} (hg : g ≤ generations)
    (hk : k ≤ generations) (hlink : t.node? (fileName g :: loc) = some (.link ⟨fileName k⟩))
    (hend : ∀ target, t.node? (fileName k :: loc) ≠ some (.link target)) :
    t.kind? (d.file g) = t.kind? (d.file k) := by
  obtain ⟨hsteps, habsolute⟩ := path_fileName k hk
  have hwalk (links : Nat) : t.walk .target links loc [fileName k] =
      .ok (t.placeIn loc (fileName k)) := by
    have hhere : t.Leads loc [] loc := .here h.leads.isDirectory_end
    exact hhere.walk_append .target links (plain_fileName k hk) hend
  have hlocate : t.locate .target (d.file g) (d.file g).names =
      t.locate .target (d.file k) (d.file k).names := by
    rw [h.reaches.locate_file .target hg, h.reaches.locate_file .target hk,
      h.reaches.walk_fileName .target _ hg, hlink, hwalk]
    simp only [reduceCtorEq, if_false]
    rw [Path.origin, habsolute, hsteps]
    exact hwalk _
  rw [Tree.kind?, Tree.kind?, Tree.resolve, Tree.resolve, steps_file d hg, steps_file d hk,
    hlocate]

theorem perform_isFull_eq_false_iff :
    t.perform d.isFull = (false, t) ↔
      ∀ size, t.kind? d.current = some (.file size) → size < sizeLimit := by
  rw [isFull, Tree.perform_bind, Tree.perform_kind?]
  dsimp only
  split
  · next size hkind =>
      change (decide (sizeLimit ≤ size), t) = (false, t) ↔ _
      simp [hkind]
  · next hother =>
      exact ⟨fun _ size hkind => absurd hkind (hother size), fun _ => rfl⟩

end Steps

section Standard

variable {t : Tree}

/-- The standard directory stands where it looks to be, unless a link is in its way. -/
theorem stands_standard (hkind : t.kind? standard.path = some .directory)
    (hdot : ∀ target, t.node? (".evmdis" :: t.home) ≠ some (.link target))
    (hlogs : ∀ target, t.node? ("logs" :: ".evmdis" :: t.home) ≠ some (.link target)) :
    standard.Stands t ("logs" :: ".evmdis" :: t.home) := by
  obtain ⟨loc, hresolve, hloc⟩ := Tree.kind?_eq_directory_iff.1 hkind
  obtain ⟨-, seen, harrives⟩ := Tree.locate_eq_ok_iff.1 (Tree.resolve_eq_ok_iff.1 hresolve)
  have hsteps : standard.path.steps = [".evmdis", "logs"] := by
    decide +kernel
  have horigin : standard.path.origin t.home = t.home := by
    rw [Path.origin, if_neg (by decide +kernel)]
  rw [hsteps, horigin] at harrives
  have hhome := harrives.isDirectory_start
  obtain ⟨seen, harrives⟩ := harrives.down_of_not_link (by decide +kernel) hdot
  have hdotDir := harrives.isDirectory_start
  obtain ⟨seen, harrives⟩ := harrives.down_of_not_link (by decide +kernel) hlogs
  cases harrives
  exact ⟨leads_standard_of_isDirectory hhome hdotDir hloc, fault?_standard_file⟩

theorem Stands.kind?_standard {loc : Location} (h : standard.Stands t loc) :
    t.kind? standard.path = some .directory :=
  h.leads.kind? (by decide +kernel) (by decide +kernel)

end Standard

end LogDirectory

namespace LogFile

open LogDirectory

variable {t t' : Tree} {p : Path}

/-- How the standard log comes to be prepared. -/
theorem prepare_none_cases (h : t.perform (prepare none) = (.ok p, t')) :
    p = standard.current ∧ ∃ made, t.perform standard.ensure = (.ok (), made) ∧
      (made.perform standard.isFull = (false, made) ∧ t' = made ∨
        made.perform standard.rotate = (.ok (), t')) := by
  rw [prepare, Tree.perform_bind] at h
  split at h
  · cases h
  next hensure =>
  rw [Tree.perform_bind, snd_perform_isFull] at h
  split at h
  · rw [Tree.perform_bind] at h
    split at h
    · cases h
    · next hrotate =>
        cases h
        exact ⟨rfl, _, Prod.ext hensure rfl, .inr (Prod.ext hrotate rfl)⟩
  · next hfull =>
      cases h
      exact ⟨rfl, _, Prod.ext hensure rfl,
        .inl ⟨Prod.ext (Bool.eq_false_iff.2 hfull) (snd_perform_isFull _ _), rfl⟩⟩

theorem perform_prepare_none_of_kind? (hkind : t.kind? standard.path = some .directory)
    (hfull : t.perform standard.isFull = (false, t)) :
    t.perform (prepare none) = (.ok standard.current, t) := by
  rw [prepare, Tree.perform_bind, perform_ensure_of_kind? hkind]
  dsimp only
  rw [Tree.perform_bind, hfull]
  rfl

theorem perform_prepare_none_of_rotated (hkind : t.kind? standard.path = some .directory)
    (hfull : t.perform standard.isFull = (true, t))
    (hrotate : t.perform standard.rotate = (.ok (), t')) :
    t.perform (prepare none) = (.ok standard.current, t') := by
  rw [prepare, Tree.perform_bind, perform_ensure_of_kind? hkind]
  dsimp only
  rw [Tree.perform_bind, hfull]
  simp only [if_true]
  rw [Tree.perform_bind, hrotate]
  rfl

/-- A tree in which the log in use is a link to the generation behind it. -/
def linkedLog (content : ByteArray) : Tree :=
  ⟨[ ([".evmdis"], .directory),
     (["logs", ".evmdis"], .directory),
     (["evmdis.log", "logs", ".evmdis"], .link ⟨"evmdis.log.1"⟩),
     (["evmdis.log.1", "logs", ".evmdis"], .file content) ], []⟩

section LinkedLog

variable (content : ByteArray)

theorem stands_linkedLog : standard.Stands (linkedLog content) ["logs", ".evmdis"] :=
  ⟨leads_standard_of_isDirectory rfl rfl rfl, fault?_standard_file⟩

theorem kind?_current_linkedLog :
    (linkedLog content).kind? standard.current = some (.file content.size) := by
  have hstands := stands_linkedLog content
  rw [current, hstands.kind?_of_link (k := 1) (by decide) (by decide) rfl (by
    intro target h
    cases h)]
  exact hstands.reaches.kind?_of_file (by decide) rfl

/-- Only the file moves; the link then leads nowhere and is left. -/
theorem perform_rotate_linkedLog :
    (linkedLog content).perform standard.rotate =
      (.ok (), (linkedLog content).move [fileName 1, "logs", ".evmdis"]
        [fileName 2, "logs", ".evmdis"]) := by
  have hstands := stands_linkedLog content
  have habsent : ∀ g ≤ generations, 2 ≤ g →
      (linkedLog content).kind? (standard.file g) = none := by
    intro g hg hle
    apply hstands.reaches.kind?_of_node?_none hg
    have hten : g ≤ 10 := hg
    interval_cases g <;> rfl
  have hnode : (linkedLog content).node? [fileName 1, "logs", ".evmdis"] =
      some (.file content) := rfl
  have hfile : (linkedLog content).kind? (standard.file 1) ≠ none := by
    rw [hstands.reaches.kind?_of_file (by decide) hnode]
    exact Option.some_ne_none _
  have hfree : (linkedLog content).node? [fileName 2, "logs", ".evmdis"] = none := rfl
  have hrename := hstands.reaches.rename_file (n := 1) (by decide) (by simp [hnode]) (.inl hfree)
  rw [if_neg (by simp [hfree])] at hrename
  have hgone := hstands.kind?_move (n := 1) (by decide)
  have hmoved := hstands.of_keepsAround (.move _ _ (fileName 1) (fileName 2))
  have hlink : ((linkedLog content).move [fileName 1, "logs", ".evmdis"]
      [fileName 2, "logs", ".evmdis"]).node? [fileName 0, "logs", ".evmdis"] =
        some (.link ⟨fileName 1⟩) :=
    node?_move_below _ ["logs", ".evmdis"] (by decide) Nat.zero_lt_one []
  have hdangling := hmoved.kind?_of_link (g := 0) (by decide) (by decide) hlink (by
    simp [node?_move_self _ _ (n := 1) (by decide)])
  rw [hgone] at hdangling
  rw [rotate_of_absent (habsent _ le_rfl (by decide)), generations,
    shift_add_of_absent (n := 2) (m := 8) fun g hle hlt => habsent g (Nat.le_of_lt hlt) hle,
    shift_succ_of_renamed hfile hrename, shift_succ_of_absent hdangling]
  rfl

end LinkedLog

/-- A standard log that has been prepared is in its directory and is not full, and
preparing it again changes nothing. The directory must not be reached through a link of its
own name; the generations may be anything. -/
theorem prepare_settles
    (hdot : ∀ target, t.node? (".evmdis" :: t.home) ≠ some (.link target))
    (hlogs : ∀ target, t.node? ("logs" :: ".evmdis" :: t.home) ≠ some (.link target))
    (h : t.perform (prepare none) = (.ok p, t')) :
    p = ⟨".evmdis/logs/evmdis.log"⟩ ∧
      t'.home = t.home ∧
      t'.node? ("logs" :: ".evmdis" :: t.home) = some .directory ∧
      t'.kind? ⟨".evmdis/logs"⟩ = some .directory ∧
      t'.perform standard.isFull = (false, t') ∧
      (∀ size, t'.kind? p = some (.file size) → size < 5 * 1024 * 1024) ∧
      t'.perform (prepare none) = (.ok p, t') := by
  obtain ⟨rfl, made, hensure, hend⟩ := prepare_none_cases h
  have hadds : t.AddsDirectories made := by
    have := standard.addsDirectories_ensure t
    rwa [hensure] at this
  have hmade : standard.Stands made ("logs" :: ".evmdis" :: t.home) := by
    rw [← hadds.home] at hdot hlogs ⊢
    exact stands_standard (kind?_of_ensure (by decide) hensure)
      (hadds.not_link hdot) (hadds.not_link hlogs)
  have hsettled : standard.Stands t' ("logs" :: ".evmdis" :: t.home) ∧
      t'.home = made.home ∧ t'.perform standard.isFull = (false, t') := by
    rcases hend with ⟨hfull, rfl⟩ | hrotate
    · exact ⟨hmade, rfl, hfull⟩
    · obtain ⟨hkeeps, hnone⟩ := hmade.rotate hrotate
      refine ⟨hmade.of_keepsAround hkeeps, hkeeps.home, ?_⟩
      rw [perform_isFull_eq_false_iff, hnone]
      simp
  obtain ⟨hstands, hhome, hfull⟩ := hsettled
  exact ⟨by decide +kernel, hhome.trans hadds.home,
    Tree.isDirectory_iff.1 hstands.leads.isDirectory_end, hstands.kind?_standard, hfull,
    perform_isFull_eq_false_iff.1 hfull,
    perform_prepare_none_of_kind? hstands.kind?_standard hfull⟩

/-- A full log by way of a link: the file that the link leads to moves away, and what is left
of the log in use is a link that leads nowhere. -/
theorem prepare_settles_linkedLog :
    ∃ t t' : Tree,
      (∀ target, t.node? (".evmdis" :: t.home) ≠ some (.link target)) ∧
      (∀ target, t.node? ("logs" :: ".evmdis" :: t.home) ≠ some (.link target)) ∧
      t.perform standard.isFull = (true, t) ∧
      t.perform (prepare none) = (.ok ⟨".evmdis/logs/evmdis.log"⟩, t') ∧
      t'.perform standard.isFull = (false, t') ∧
      t'.perform (prepare none) = (.ok ⟨".evmdis/logs/evmdis.log"⟩, t') := by
  obtain ⟨content, hsize⟩ : ∃ content : ByteArray, sizeLimit ≤ content.size :=
    ⟨⟨Array.replicate sizeLimit 0⟩, by simp [ByteArray.size]⟩
  have hdot : ∀ target, (linkedLog content).node? [".evmdis"] ≠ some (.link target) := by
    intro target h
    cases h
  have hlogs : ∀ target,
      (linkedLog content).node? ["logs", ".evmdis"] ≠ some (.link target) := by
    intro target h
    cases h
  have hfull : (linkedLog content).perform standard.isFull = (true, linkedLog content) := by
    rw [isFull, Tree.perform_bind, Tree.perform_kind?, kind?_current_linkedLog]
    exact Prod.ext (decide_eq_true hsize) rfl
  have hprepare := perform_prepare_none_of_rotated
    (stands_linkedLog content).kind?_standard hfull (perform_rotate_linkedLog content)
  obtain ⟨hpath, -, -, -, hsettled, -, hagain⟩ := prepare_settles hdot hlogs hprepare
  rw [hpath] at hprepare hagain
  exact ⟨_, _, hdot, hlogs, hfull, hprepare, hsettled, hagain⟩

end LogFile

end BytecodeListing
