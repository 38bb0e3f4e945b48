import BytecodeListing.Program.Run
import BytecodeListing.Proofs.Arguments
import BytecodeListing.Proofs.Pieces

/-!
# Sessions of the shell

The shell answers one piece of its input after the other, each on its own, until the input
ends, a piece says farewell, or a piece is no text. What a session shows is therefore put
together from what the pieces before that one show (`session_shows`), and a run for the
shell shows what its session shows (`run_answers_each_piece`). A piece without a listing
can be left out of the input, and so can anything behind a farewell, without a change of
what is printed.
-/

namespace BytecodeListing

namespace Event

variable (r : Record) (line : String) (events : List Event)

@[simp] theorem stdout_nil : stdout [] = "" := rfl

@[simp] theorem stdout_log : stdout (log r :: events) = stdout events := rfl

@[simp] theorem stdout_complain : stdout (complain line :: events) = stdout events := rfl

@[simp] theorem stdout_print :
    stdout (print line :: events) = line ++ "\n" ++ stdout events := by
  simp [stdout, ← String.toList_inj]

theorem stdout_prints (lines : List String) :
    stdout (lines.map print ++ events) =
      String.join (lines.map fun line => line ++ "\n") ++ stdout events := by
  induction lines with
  | nil => simp
  | cons line lines ih => simp [ih, String.append_assoc, String.join_cons]

variable (console : Bool)

@[simp] theorem stderr_nil : stderr console [] = [] := rfl

@[simp] theorem stderr_log : stderr false (log r :: events) = stderr false events := rfl

@[simp] theorem stderr_complain :
    stderr console (complain line :: events) = .inl line :: stderr console events := rfl

@[simp] theorem stderr_print :
    stderr console (print line :: events) = stderr console events := rfl

theorem stderr_prints (lines : List String) :
    stderr console (lines.map print ++ events) = stderr console events := by
  induction lines with
  | nil => rfl
  | cons line lines ih => simp [ih]

/-- A threshold leaves out records only. -/
theorem shows_filter (level : Level) :
    stdout (events.filter (shows level)) = stdout events ∧
      stderr false (events.filter (shows level)) = stderr false events := by
  induction events with
  | nil => exact ⟨rfl, rfl⟩
  | cons e events ih =>
      cases e with
      | print line => simp [List.filter_cons_of_pos (show shows level (print line) from rfl), ih]
      | complain line =>
          simp [List.filter_cons_of_pos (show shows level (complain line) from rfl), ih]
      | log r =>
          by_cases h : shows level (log r)
          · simp [List.filter_cons_of_pos h, ih]
          · simp [List.filter_cons_of_neg h, ih]

end Event

namespace Shell

/-- What the shell makes of a piece: the reply to its line, or nothing if it is no
text. -/
def answer? (piece : List UInt8) : Option (Except SourceFault Reply) :=
  (String.fromUTF8? (strip piece).toByteArray).map fun text => handle text.toList

/-- A session is over at a piece that is no text or a farewell. -/
def Ends (piece : List UInt8) : Prop :=
  answer? piece = none ∨ answer? piece = some (.ok .exit)

instance : DecidablePred Ends := fun _ => inferInstanceAs (Decidable (_ ∨ _))

/-- The pieces before the one at which a session is over. -/
def answered (ps : List (List UInt8)) : List (List UInt8) :=
  ps.takeWhile fun piece => ¬ Ends piece

/-- Whether a session is over at a piece that is no text. -/
def breaksOff (ps : List (List UInt8)) : Bool :=
  (ps.find? fun piece => Ends piece).any fun piece => answer? piece = none

/-- The lines of the listing of an accepted piece. -/
def listing (piece : List UInt8) : List String :=
  match answer? piece with
  | some (.ok (.listing l)) => l.render
  | _ => []

/-- What is wrong with a rejected piece. -/
def rejection? (piece : List UInt8) : Option String :=
  match answer? piece with
  | some (.error fault) => some fault.message
  | _ => none

/-- What is to be seen of a session on some pieces, and its exit code. -/
structure Shows (ps : List (List UInt8)) (events : List Event) (exitCode : Nat) : Prop where
  stdout : Event.stdout events =
    String.join (((answered ps).flatMap listing).map fun line => line ++ "\n")
  stderr : Event.stderr false events =
    ((answered ps).filterMap rejection?).map (fun message => .inl ("Error: " ++ message)) ++
      if breaksOff ps then [.inl "Shell error: stream did not contain valid UTF-8"] else []
  exitCode : exitCode = if breaksOff ps then 1 else 0

section Pieces

variable {piece : List UInt8} {ps : List (List UInt8)}

theorem answered_of_ends (h : Ends piece) : answered (piece :: ps) = [] := by
  simp [answered, h]

theorem answered_of_not_ends (h : ¬ Ends piece) :
    answered (piece :: ps) = piece :: answered ps := by
  simp [answered, h]

theorem breaksOff_of_ends (h : Ends piece) :
    breaksOff (piece :: ps) = decide (answer? piece = none) := by
  simp [breaksOff, h]

theorem breaksOff_of_not_ends (h : ¬ Ends piece) :
    breaksOff (piece :: ps) = breaksOff ps := by
  simp [breaksOff, h]

/-- What a session does with one more piece. -/
theorem session_cons (piece : List UInt8) (rest : List (List UInt8)) :
    session (strip piece :: rest) =
      match answer? piece with
      | none =>
          ([.log (.shellFailed FileFault.notText.message),
            .complain ("Shell error: " ++ FileFault.notText.message)], 1)
      | some (.ok .exit) => ([], 0)
      | some (.ok .skip) => session rest
      | some (.ok (.listing l)) =>
          (.log (.disassembled l) :: .log (.shellListing l) ::
            (l.render.map .print ++ (session rest).1), (session rest).2)
      | some (.error fault) =>
          (.log (.rejected fault.message) ::
            .complain ("Error: " ++ fault.message) :: (session rest).1, (session rest).2) := by
  rw [session, answer?]
  cases String.fromUTF8? (strip piece).toByteArray with
  | none => rfl
  | some text =>
      dsimp only [Option.map_some]
      cases handle text.toList with
      | error fault => rfl
      | ok reply => cases reply <;> rfl

end Pieces

/-- A session that goes on shows what the piece shows and then what the rest shows. -/
theorem Shows.cons {piece : List UInt8} {ps : List (List UInt8)} {events : List Event}
    {exitCode : Nat} (before : List Event) (hgo : ¬ Ends piece)
    (hstdout : Event.stdout (before ++ events) =
      String.join ((listing piece).map fun line => line ++ "\n") ++ Event.stdout events)
    (hstderr : Event.stderr false (before ++ events) =
      (rejection? piece).toList.map (fun message => .inl ("Error: " ++ message)) ++
        Event.stderr false events)
    (h : Shows ps events exitCode) : Shows (piece :: ps) (before ++ events) exitCode where
  stdout := by
    rw [hstdout, h.stdout, answered_of_not_ends hgo]
    simp [String.join_append]
  stderr := by
    rw [hstderr, h.stderr, answered_of_not_ends hgo, breaksOff_of_not_ends hgo]
    cases hrejection : rejection? piece <;> simp [hrejection]
  exitCode := by
    rw [h.exitCode, breaksOff_of_not_ends hgo]

theorem session_shows (ps : List (List UInt8)) :
    Shows ps (session (ps.map strip)).1 (session (ps.map strip)).2 := by
  induction ps with
  | nil => exact ⟨rfl, rfl, rfl⟩
  | cons piece ps ih =>
      rw [List.map_cons, session_cons]
      cases hanswer : answer? piece with
      | none =>
          have hends : Ends piece := .inl hanswer
          constructor <;>
            simp [answered_of_ends hends, breaksOff_of_ends hends, hanswer, FileFault.message]
      | some answer =>
          cases answer with
          | error fault =>
              exact .cons [_, _] (by simp [Ends, hanswer]) (by simp [listing, hanswer])
                (by simp [rejection?, hanswer]) ih
          | ok reply =>
              cases reply with
              | exit =>
                  have hends : Ends piece := .inr hanswer
                  constructor <;>
                    simp [answered_of_ends hends, breaksOff_of_ends hends, hanswer]
              | skip =>
                  exact .cons [] (by simp [Ends, hanswer])
                    (by simp [listing, hanswer]) (by simp [rejection?, hanswer]) ih
              | listing l =>
                  exact .cons (_ :: _ :: l.render.map _) (by simp [Ends, hanswer])
                    (by simp [listing, hanswer, Event.stdout_prints])
                    (by simp [rejection?, hanswer, Event.stderr_prints]) ih

section Printed

variable {front back back' : List (List UInt8)} {piece : List UInt8}

/-- A piece that a session goes on behind and that has no listing adds nothing. -/
theorem flatMap_answered_erase (hgo : ¬ Ends piece) (hlisting : listing piece = []) :
    (answered (front ++ piece :: back)).flatMap listing =
      (answered (front ++ back)).flatMap listing := by
  induction front with
  | nil => simp [answered_of_not_ends hgo, hlisting]
  | cons first front ih =>
      rw [List.cons_append, List.cons_append]
      by_cases hends : Ends first
      · rw [answered_of_ends hends, answered_of_ends hends]
      · rw [answered_of_not_ends hends, answered_of_not_ends hends, List.flatMap_cons,
          List.flatMap_cons, ih]

/-- Nothing is answered behind a piece at which a session is over. -/
theorem answered_append_cons (hends : Ends piece) :
    answered (front ++ piece :: back) = answered (front ++ piece :: back') := by
  induction front with
  | nil => rw [List.nil_append, List.nil_append, answered_of_ends hends, answered_of_ends hends]
  | cons first front ih =>
      rw [List.cons_append, List.cons_append]
      by_cases hfirst : Ends first
      · rw [answered_of_ends hfirst, answered_of_ends hfirst]
      · rw [answered_of_not_ends hfirst, answered_of_not_ends hfirst, ih]

/-- Nor does it matter which bytes follow it. -/
theorem answered_pieces_of_ends (hcut : Cut (front ++ piece :: back)) (hends : Ends piece)
    {rest : List UInt8} (hrest : rest.Sublist back.flatten) :
    answered (pieces ((front ++ [piece]).flatten ++ rest)) =
      answered (front ++ piece :: back) := by
  by_cases hback : back = []
  · subst hback
    have hrest : rest = [] := List.sublist_nil.1 hrest
    rw [hrest, List.append_nil, hcut.pieces_flatten]
  · rw [hcut.pieces_append hback, answered_append_cons hends]

end Printed

end Shell

namespace Program

section Shell

variable {t : Tree} {config : Config} {file : Path}

/-- A run for the shell whose log is opened is a session on its input. -/
theorem perform_run_shell (htask : config.task = .shell)
    (hlog : (t.perform (LogFile.start config.logging.file)).1 = .ok file)
    (input : List UInt8) :
    (t.perform (run config input)).1 =
      ⟨(Shell.session (Shell.lines input)).2,
        (Event.log .starting :: (Shell.session (Shell.lines input)).1).filter
          (Event.shows config.logging.level), some file⟩ := by
  rw [run, Tree.perform_bind, hlog]
  dsimp only
  rw [htask]
  rfl

theorem shows_run (htask : config.task = .shell)
    (hlog : (t.perform (LogFile.start config.logging.file)).1 = .ok file)
    (input : List UInt8) :
    Shell.Shows (Shell.pieces input) (t.perform (run config input)).1.events
      (t.perform (run config input)).1.exitCode := by
  rw [perform_run_shell htask hlog, Shell.lines_eq]
  obtain ⟨hstdout, hstderr, hexit⟩ := Shell.session_shows (Shell.pieces input)
  constructor
  · rw [(Event.shows_filter _ _).1, Event.stdout_log, hstdout]
  · rw [(Event.shows_filter _ _).2, Event.stderr_log, hstderr]
  · exact hexit

end Shell

end Program

namespace Shell

/-- A run for the shell answers each piece of its input on its own, up to the first that is
a farewell or no text. It prints the listings of the accepted pieces before that one,
complains about the rejected ones, and fails exactly if that one is no text. So a rejected
or blank piece can be taken out of the input, and so can anything behind a farewell,
without a change of what is printed. -/
theorem run_answers_each_piece {t : Tree} {args : List String} {config : Config} {file : Path}
    (hargs : CommandLine.parse args = .ok config) (hshell : "--shell" ∈ args)
    (hconsole : "--log-console" ∉ args)
    (hlog : (t.perform (LogFile.start config.logging.file)).1 = .ok file) :
    let outcome (input : List UInt8) : Outcome := (t.perform (Program.run config input)).1
    let printed (input : List UInt8) : String := Event.stdout (outcome input).events
    ∀ input : List UInt8,
      printed input = String.join
        (((answered (pieces input)).flatMap listing).map fun line => line ++ "\n") ∧
      Event.stderr config.logging.console (outcome input).events =
        ((answered (pieces input)).filterMap rejection?).map
            (fun message => .inl ("Error: " ++ message)) ++
          (if breaksOff (pieces input) then
            [.inl "Shell error: stream did not contain valid UTF-8"] else []) ∧
      (outcome input).exitCode = (if breaksOff (pieces input) then 1 else 0) ∧
      ∀ front piece back, pieces input = front ++ piece :: back →
        ((∃ fault, answer? piece = some (.error fault)) ∨ answer? piece = some (.ok .skip) →
          printed (front ++ back).flatten = printed input) ∧
        (answer? piece = some (.ok .exit) → ∀ rest, rest.Sublist back.flatten →
          printed ((front ++ [piece]).flatten ++ rest) = printed input) := by
  intro outcome printed input
  obtain ⟨htask, hrecords⟩ := CommandLine.parse_flags hargs
  have hshows := Program.shows_run (htask.2 hshell) hlog
  have hsilent : config.logging.console = false := by
    rw [← Bool.not_eq_true, hrecords]
    exact hconsole
  have hprinted (input : List UInt8) : printed input = _ := (hshows input).stdout
  refine ⟨hprinted input, by rw [hsilent]; exact (hshows input).stderr,
    (hshows input).exitCode, fun front piece back hpieces => ?_⟩
  have hcut : Cut (front ++ piece :: back) := hpieces ▸ cut_pieces input
  constructor
  · intro hpiece
    have hquiet : ¬ Ends piece ∧ listing piece = [] := by
      rcases hpiece with ⟨fault, hrejected⟩ | hblank
      · simp [Ends, listing, hrejected]
      · simp [Ends, listing, hblank]
    rw [hprinted, hprinted, hcut.erase.pieces_flatten, hpieces,
      flatMap_answered_erase hquiet.1 hquiet.2]
  · intro hexit rest hrest
    rw [hprinted, hprinted, answered_pieces_of_ends hcut (.inr hexit) hrest, hpieces]

/-- A line end of two bytes, a rejected and a blank line, and a farewell with bytes behind
it; and a session that breaks off behind a listing. -/
theorem run_answers_each_piece_piped :
    ∃ (t : Tree) (config : Config),
      CommandLine.parse ["--log-level=debug", "--shell"] = .ok config ∧
      (t.perform (LogFile.start config.logging.file)).1 = .ok ⟨".evmdis/logs/evmdis.log"⟩ ∧
      ∃ outcome : List UInt8 → Outcome,
        (∀ input, outcome input = (t.perform (Program.run config input)).1) ∧
        (Event.stdout (outcome "5b\r\n0xf\n\nquit\nff".toUTF8.data.toList).events =
            "0000: JUMPDEST\n" ∧
          Event.stderr config.logging.console
              (outcome "5b\r\n0xf\n\nquit\nff".toUTF8.data.toList).events =
            [.inl "Error: invalid hex bytecode: Odd number of digits"] ∧
          (outcome "5b\r\n0xf\n\nquit\nff".toUTF8.data.toList).exitCode = 0 ∧
          Event.stdout (outcome "5b\r\n\nquit\nff".toUTF8.data.toList).events =
            "0000: JUMPDEST\n" ∧
          Event.stdout (outcome "5b\r\n0xf\n\nquit\nf".toUTF8.data.toList).events =
            "0000: JUMPDEST\n") ∧
        Event.stdout (outcome [0x30, 0x30, 0x0a, 0xff]).events = "0000: STOP\n" ∧
        Event.stderr config.logging.console (outcome [0x30, 0x30, 0x0a, 0xff]).events =
          [.inl "Shell error: stream did not contain valid UTF-8"] ∧
        (outcome [0x30, 0x30, 0x0a, 0xff]).exitCode = 1 := by
  have hargs : CommandLine.parse ["--log-level=debug", "--shell"] =
      .ok ⟨.shell, { level := .debug }⟩ := by
    decide +kernel
  have hlog : ((Tree.mk [] []).perform (LogFile.start none)).1 =
      .ok ⟨".evmdis/logs/evmdis.log"⟩ := by
    decide +kernel
  have hrun := run_answers_each_piece hargs (by decide) (by decide) hlog
  -- What a run comes to stays folded: only what the theorem says about it is evaluated.
  obtain ⟨outcome, houtcome⟩ : ∃ outcome : List UInt8 → Outcome, ∀ input, outcome input =
      ((Tree.mk [] []).perform (Program.run ⟨.shell, { level := .debug }⟩ input)).1 :=
    ⟨_, fun _ => rfl⟩
  simp only [← houtcome] at hrun
  refine ⟨_, _, hargs, hlog, outcome, houtcome, ?_⟩
  obtain ⟨hstdout, hstderr, hexit, hdelete⟩ := hrun "5b\r\n0xf\n\nquit\nff".toUTF8.data.toList
  obtain ⟨gstdout, gstderr, gexit, -⟩ := hrun [0x30, 0x30, 0x0a, 0xff]
  have hlisting : Event.stdout (outcome "5b\r\n0xf\n\nquit\nff".toUTF8.data.toList).events =
      "0000: JUMPDEST\n" := hstdout.trans (by decide +kernel)
  have hsame {x y : List UInt8} (h : x = y) :
      Event.stdout (outcome x).events = Event.stdout (outcome y).events := by
    rw [h]
  have hrejected := (hdelete ["5b\r\n".toUTF8.data.toList] "0xf\n".toUTF8.data.toList
    ["\n".toUTF8.data.toList, "quit\n".toUTF8.data.toList, "ff".toUTF8.data.toList]
    (by decide +kernel)).1 (.inl ⟨.malformed .oddLength, by decide +kernel⟩)
  have hbehind := (hdelete ["5b\r\n".toUTF8.data.toList, "0xf\n".toUTF8.data.toList,
    "\n".toUTF8.data.toList] "quit\n".toUTF8.data.toList ["ff".toUTF8.data.toList]
    (by decide +kernel)).2 (by decide +kernel) "f".toUTF8.data.toList (by decide +kernel)
  rw [hlisting] at hrejected hbehind
  exact ⟨⟨hlisting, hstderr.trans (by decide +kernel), hexit.trans (by decide +kernel),
    (hsame (by decide +kernel)).trans hrejected, (hsame (by decide +kernel)).trans hbehind⟩,
    gstdout.trans (by decide +kernel), gstderr.trans (by decide +kernel),
    gexit.trans (by decide +kernel)⟩

end Shell

end BytecodeListing
