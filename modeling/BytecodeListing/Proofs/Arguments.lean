import BytecodeListing.CommandLine.Parse

/-!
# Flags of an accepted command line

A flag is raised by an accepted command line exactly if it is one of the arguments,
wherever it stands: none is taken for the value of an option, and none stands behind the
end of the options (`has_read`). So the arguments themselves show whether the task is the
shell and whether records go to standard error (`parse_flags`).
-/

namespace BytecodeListing

namespace CommandLine

/-- The argument that raises a flag. -/
def Flag.arg : Flag → String
  | shell => "--shell"
  | logConsole => "--log-console"
  | help => "--help"
  | version => "--version"

/-- Whether a flag has been raised. Help and version act at once and leave no mark. -/
def Draft.has (d : Draft) : Flag → Bool
  | .shell => d.shell
  | .logConsole => d.console
  | _ => false

theorem Token.ofArg_arg (f : Flag) : Token.ofArg f.arg = .flag f false := by
  cases f <;> decide +kernel

theorem mem_of_lookup {κ ν : Type} [BEq κ] [LawfulBEq κ] {table : List (κ × ν)} {key : κ}
    {value : ν} (h : table.lookup key = some value) : (key, value) ∈ table := by
  obtain ⟨before, behind, htable, -⟩ := List.lookup_eq_some_iff.1 h
  rw [htable]
  simp

/-- The name of a flag without a value is all that follows the dashes. -/
theorem mem_flags_of_long {body : List Char} {f : Flag} (h : long body = .flag f false) :
    (String.ofList body, f) ∈ flags := by
  rw [long] at h
  split at h
  · cases h
  · next g _ hlookup =>
      simp only [Token.flag.injEq, Bool.not_eq_false', List.isEmpty_iff] at h
      obtain ⟨rfl, hattached⟩ := h
      have hname := List.takeWhile_append_dropWhile (p := fun c => decide (c ≠ '=')) (l := body)
      rw [hattached, List.append_nil] at hname
      rw [hname] at hlookup
      exact mem_of_lookup hlookup
  · cases h

/-- Only its own argument raises a flag that has no short form. -/
theorem Token.arg_of_ofArg {arg : String} {f : Flag} (hf : f = .shell ∨ f = .logConsole)
    (h : Token.ofArg arg = .flag f false) : arg = f.arg := by
  rw [Token.ofArg] at h
  split at h
  · cases h
  · next body _ hlist =>
      have hmem := mem_flags_of_long h
      have harg : arg = "--" ++ String.ofList body := by
        rw [← String.toList_inj, hlist]
        simp
      rcases hf with rfl | rfl
      all_goals
        simp only [flags, List.mem_cons, Prod.mk.injEq, reduceCtorEq, and_false, and_true,
          List.not_mem_nil, or_false, false_or] at hmem
        rw [harg, hmem]
        rfl
  · next c _ _ _ =>
      split at h
      · next g hlookup =>
          cases h
          have hmem := mem_of_lookup hlookup
          rcases hf with rfl | rfl <;> simp [shortFlags] at hmem
      · cases h
  · cases h

theorem Flag.arg_eq_iff {arg : String} {f : Flag} (hf : f = .shell ∨ f = .logConsole) :
    f.arg = arg ↔ Token.ofArg arg = .flag f false := by
  constructor
  · rintro rfl
    exact Token.ofArg_arg f
  · intro h
    exact (Token.arg_of_ofArg hf h).symm

section Draft

variable {d d' : Draft}

theorem Draft.has_of_map {α : Type} {place : Except Refusal α} {fill : α → Draft}
    (hfill : ∀ value f, (fill value).has f = d.has f) (h : place.map fill = .ok d')
    (f : Flag) : d'.has f = d.has f := by
  cases place with
  | error refusal => cases h
  | ok value =>
      cases h
      exact hfill value f

theorem Draft.has_set {s : Setting} {value : String} (h : d.set s value = .ok d')
    (f : Flag) : d'.has f = d.has f := by
  cases s <;> exact Draft.has_of_map (fun _ g => by cases g <;> rfl) h f

theorem has_settle {w : Waiting} (h : settle d w = .ok d') (f : Flag) :
    d'.has f = d.has f := by
  cases w with
  | nothing => cases h; rfl
  | value s => cases h
  | judgement s value => exact Draft.has_set h f

theorem Draft.has_raise {g : Flag} (h : d.raise g = .ok d') (f : Flag) :
    d'.has f = true ↔ d.has f = true ∨ g = f := by
  cases g with
  | shell =>
      rw [Draft.raise] at h
      split at h
      · cases h
      · cases h
        cases f <;> simp [Draft.has]
  | logConsole =>
      rw [Draft.raise] at h
      split at h
      · cases h
      · cases h
        cases f <;> simp [Draft.has]
  | help => cases h
  | version => cases h

/-- An argument that is read raises the flag that it stands for, and no other. -/
theorem exists_read_step {w : Waiting} {arg : String} {rest : List String}
    (h : read d w (arg :: rest) = .ok d') :
    ∃ d₁ w₁, read d₁ w₁ rest = .ok d' ∧
      ∀ f, d₁.has f = true ↔ d.has f = true ∨ Token.ofArg arg = .flag f false := by
  rw [read] at h
  split at h
  · next htoken =>
      -- Nothing follows the end of the options, so nothing is left to read.
      split at h
      · next hrest =>
          refine ⟨d, w, by rw [List.isEmpty_iff.1 hrest]; exact h, fun f => ?_⟩
          simp [htoken]
      · cases h
  · next htoken =>
      split at h
      · cases h
      · next hsettle => exact ⟨_, _, h, fun f => by simp [has_settle hsettle, htoken]⟩
      · next hsettle =>
          split at h
          · cases h
          · next hset =>
              refine ⟨_, _, h, fun f => ?_⟩
              simp [Draft.has_set hset, has_settle hsettle, htoken]
  · cases h
  · next g htoken =>
      split at h
      · cases h
      · next hsettle =>
          split at h
          · cases h
          · next hraise =>
              refine ⟨_, _, h, fun f => ?_⟩
              simp [Draft.has_raise hraise, has_settle hsettle, htoken]
  · cases h
  · next htoken =>
      split at h
      · exact ⟨_, _, h, fun f => by simp [htoken]⟩
      · cases h

/-- A flag is raised if it was raised before or is one of the arguments. -/
theorem has_read {w : Waiting} {args : List String} (h : read d w args = .ok d')
    {f : Flag} (hf : f = .shell ∨ f = .logConsole) :
    d'.has f = true ↔ d.has f = true ∨ f.arg ∈ args := by
  induction args generalizing d w with
  | nil => simp [has_settle h]
  | cons arg rest ih =>
      obtain ⟨d₁, w₁, hread, hflag⟩ := exists_read_step h
      rw [ih hread, hflag, ← Flag.arg_eq_iff hf, List.mem_cons, or_assoc]

end Draft

/-- The arguments show the task of an accepted command line, and whether it sends records
to standard error. -/
theorem parse_flags {args : List String} {config : Config} (h : parse args = .ok config) :
    (config.task = .shell ↔ "--shell" ∈ args) ∧
      (config.logging.console = true ↔ "--log-console" ∈ args) := by
  rw [parse] at h
  split at h
  · cases h
  · next d hread =>
      have hshell : d.shell = true ↔ "--shell" ∈ args := by
        simpa [Draft.has, Flag.arg] using has_read hread (.inl rfl)
      have hconsole : d.console = true ↔ "--log-console" ∈ args := by
        simpa [Draft.has, Flag.arg] using has_read hread (.inr rfl)
      rw [← hshell, ← hconsole]
      rw [Draft.finish] at h
      split at h <;> cases h <;> simp_all

end CommandLine

end BytecodeListing
