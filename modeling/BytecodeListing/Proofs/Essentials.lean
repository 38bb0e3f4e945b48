import BytecodeListing.CommandLine.Parse

/-!
# What matters on a command line

An accepted command line is a list of options with their values, attached or apart, and of
flags (`Reads`). The level, the format and the console say only how a run is logged. Without
them the command line is still accepted, and it asks for the same task with the log in the
same place (`parse_essentials`).
-/

namespace BytecodeListing

namespace CommandLine

/-- Whether an option says only how a run is logged. -/
def Setting.isStyle : Setting → Bool
  | logLevel => true
  | logFormat => true
  | _ => false

/-- The arguments without those that say only how a run is logged. The first one is left
out as well if it is the value of such an option. -/
def unstyled (isValue : Bool) : List String → List String
  | [] => []
  | arg :: rest =>
      if isValue then unstyled false rest
      else
        match Token.ofArg arg with
        | .setting s attached =>
            if s.isStyle then unstyled attached.isNone rest else arg :: unstyled false rest
        | .flag .logConsole _ => unstyled false rest
        | _ => arg :: unstyled false rest

/-- The arguments that say what is run and where the log goes. -/
def essentials (args : List String) : List String :=
  unstyled false args

/-- What has been read of these arguments. -/
def Draft.core (d : Draft) : Draft :=
  { code := d.code, shell := d.shell, file := d.file }

/-- The arguments that are read into a draft, one option or flag at a time. -/
inductive Reads : Draft → List String → Draft → Prop
  | done {d : Draft} : Reads d [] d
  | separator {d : Draft} {arg : String} (htoken : Token.ofArg arg = .separator) :
      Reads d [arg] d
  | attached {d d₁ d' : Draft} {arg : String} {s : Setting} {value : String}
      {rest : List String} (htoken : Token.ofArg arg = .setting s (some value))
      (hset : d.set s value = .ok d₁) (h : Reads d₁ rest d') : Reads d (arg :: rest) d'
  | apart {d d₁ d' : Draft} {arg value : String} {s : Setting} {text : String}
      {rest : List String} (htoken : Token.ofArg arg = .setting s none)
      (hvalue : Token.ofArg value = .plain text) (hset : d.set s text = .ok d₁)
      (h : Reads d₁ rest d') : Reads d (arg :: value :: rest) d'
  | flag {d d₁ d' : Draft} {arg : String} {f : Flag} {rest : List String}
      (htoken : Token.ofArg arg = .flag f false) (hraise : d.raise f = .ok d₁)
      (h : Reads d₁ rest d') : Reads d (arg :: rest) d'

section Draft

variable {d d' : Draft} {s : Setting} {value : String}

/-- A place is filled if it was empty and there is something to fill it with. -/
theorem Draft.map_once_eq_ok_iff {α : Type} {old value : Option α} {fill : Option α → Draft} :
    (once old value).map fill = .ok d' ↔
      old = none ∧ ∃ v, value = some v ∧ fill (some v) = d' := by
  cases old with
  | some v => simp [once, Except.map]
  | none => cases value <;> simp [once, Except.map]

theorem Draft.core_set_of_isStyle (hs : s.isStyle = true) (h : d.set s value = .ok d') :
    d'.core = d.core := by
  cases s with
  | code => cases hs
  | logFile => cases hs
  | logLevel =>
      obtain ⟨-, level, -, rfl⟩ := map_once_eq_ok_iff.1 h
      rfl
  | logFormat =>
      obtain ⟨-, format, -, rfl⟩ := map_once_eq_ok_iff.1 h
      rfl

theorem Draft.set_core (hs : s.isStyle = false) (h : d.set s value = .ok d') :
    d.core.set s value = .ok d'.core := by
  cases s with
  | logLevel => cases hs
  | logFormat => cases hs
  | code =>
      obtain ⟨hfree, code, hcode, rfl⟩ := map_once_eq_ok_iff.1 h
      exact map_once_eq_ok_iff.2 ⟨hfree, code, hcode, rfl⟩
  | logFile =>
      obtain ⟨hfree, file, hfile, rfl⟩ := map_once_eq_ok_iff.1 h
      exact map_once_eq_ok_iff.2 ⟨hfree, file, hfile, rfl⟩

theorem Draft.core_raise_logConsole (h : d.raise .logConsole = .ok d') :
    d'.core = d.core := by
  rw [raise] at h
  split at h
  · cases h
  · cases h
    rfl

theorem Draft.raise_shell_core (h : d.raise .shell = .ok d') :
    d.core.raise .shell = .ok d'.core := by
  rw [raise] at h ⊢
  split at h
  · cases h
  · next hshell =>
      cases h
      rw [core, if_neg hshell]
      rfl

theorem Draft.finish_core {config : Config} (h : d.finish = .ok config) :
    d.core.finish = .ok ⟨config.task, { file := config.logging.file }⟩ := by
  rw [finish] at h ⊢
  rw [core]
  dsimp only at h ⊢
  split at h <;> cases h <;> rfl

end Draft

section Read

variable {d d' : Draft} {s : Setting} {arg : String} {rest : List String}

/-- It makes no difference when the value of an option is judged. -/
theorem read_judgement_eq_ok_iff {value : String} {args : List String} :
    read d (.judgement s value) args = .ok d' ↔
      ∃ d₁, d.set s value = .ok d₁ ∧ read d₁ .nothing args = .ok d' := by
  cases args with
  | nil => simp [read, settle]
  | cons arg rest =>
      rw [read]
      cases hset : d.set s value with
      | error refusal =>
          cases Token.ofArg arg with
          | setting s' attached => simp [settle, hset]
          | flag f attached => cases attached <;> simp [settle, hset]
          | separator => cases rest <;> simp [settle, hset]
          | unknown => simp
          | plain text => simp
      | ok d₁ =>
          simp only [Except.ok.injEq, exists_eq_left']
          rw [read]
          cases Token.ofArg arg with
          | setting s' attached => simp [settle, hset]
          | flag f attached => cases attached <;> simp [settle, hset]
          | separator => simp [settle, hset]
          | unknown => simp
          | plain text => simp

/-- An option without an attached value takes the next argument for it. -/
theorem exists_of_read_value (h : read d (.value s) (arg :: rest) = .ok d') :
    ∃ text d₁, Token.ofArg arg = .plain text ∧ d.set s text = .ok d₁ ∧
      read d₁ .nothing rest = .ok d' := by
  rw [read] at h
  cases htoken : Token.ofArg arg with
  | plain text =>
      rw [htoken] at h
      obtain ⟨d₁, hset, hread⟩ := read_judgement_eq_ok_iff.1 h
      exact ⟨text, d₁, rfl, hset, hread⟩
  | separator => cases rest <;> simp [htoken, settle] at h
  | setting s' attached => simp [htoken, settle] at h
  | flag f attached => cases attached <;> simp [htoken, settle] at h
  | unknown => simp [htoken] at h

theorem Reads.read_eq {args : List String} (h : Reads d args d') :
    read d .nothing args = .ok d' := by
  induction h with
  | done => rfl
  | separator htoken => simp [read, htoken, settle]
  | attached htoken hset _ ih => simp [read, htoken, settle, hset, ih]
  | apart htoken hvalue hset _ ih =>
      have hread := read_judgement_eq_ok_iff.2 ⟨_, hset, ih⟩
      simp [read, htoken, hvalue, settle, hread]
  | flag htoken hraise _ ih => simp [read, htoken, settle, hraise, ih]

theorem reads_of_read {args : List String} (h : read d .nothing args = .ok d') :
    Reads d args d' := by
  -- By length, because an option may take the next argument along.
  induction hn : args.length using Nat.strongRecOn generalizing args d with
  | ind n ih =>
  subst hn
  cases args with
  | nil =>
      cases h
      exact .done
  | cons arg rest =>
      have ihRest {d : Draft} (h : read d .nothing rest = .ok d') : Reads d rest d' :=
        ih _ (Nat.lt_succ_self _) h rfl
      rw [read] at h
      cases htoken : Token.ofArg arg with
      | separator =>
          cases rest with
          | nil =>
              simp only [htoken, settle, List.isEmpty_nil, if_true, Except.ok.injEq] at h
              exact h ▸ .separator htoken
          | cons arg' rest => simp [htoken] at h
      | setting s attached =>
          cases attached with
          | none =>
              have hvalue : read d (.value s) rest = .ok d' := by
                simpa [htoken, settle] using h
              cases rest with
              | nil => cases hvalue
              | cons value rest =>
                  obtain ⟨text, d₁, htext, hset, hread⟩ := exists_of_read_value hvalue
                  exact .apart htoken htext hset
                    (ih _ (Nat.lt_succ_of_lt (Nat.lt_succ_self _)) hread rfl)
          | some value =>
              cases hset : d.set s value with
              | error refusal => simp [htoken, settle, hset] at h
              | ok d₁ =>
                  simp only [htoken, settle, hset] at h
                  exact .attached htoken hset (ihRest h)
      | flag f attached =>
          cases attached with
          | true => simp [htoken] at h
          | false =>
              cases hraise : d.raise f with
              | error refusal => simp [htoken, settle, hraise] at h
              | ok d₁ =>
                  simp only [htoken, settle, hraise] at h
                  exact .flag htoken hraise (ihRest h)
      | unknown => simp [htoken] at h
      | plain text => simp [htoken] at h

/-- The arguments are read exactly if they are options with their values and flags. -/
theorem read_nothing_eq_ok_iff {args : List String} :
    read d .nothing args = .ok d' ↔ Reads d args d' :=
  ⟨reads_of_read, Reads.read_eq⟩

/-- What is read without the arguments that say only how a run is logged. -/
theorem Reads.unstyled {args : List String} (h : Reads d args d') :
    Reads d.core (unstyled false args) d'.core := by
  induction h with
  | done => exact .done
  | separator htoken => simpa [CommandLine.unstyled, htoken] using .separator htoken
  | @attached _ _ _ _ s _ _ htoken hset _ ih =>
      cases hs : s.isStyle with
      | true =>
          rw [Draft.core_set_of_isStyle hs hset] at ih
          simpa [CommandLine.unstyled, htoken, hs] using ih
      | false =>
          simpa [CommandLine.unstyled, htoken, hs] using
            .attached htoken (Draft.set_core hs hset) ih
  | @apart _ _ _ _ _ s _ _ htoken hvalue hset _ ih =>
      cases hs : s.isStyle with
      | true =>
          rw [Draft.core_set_of_isStyle hs hset] at ih
          simpa [CommandLine.unstyled, htoken, hs] using ih
      | false =>
          simpa [CommandLine.unstyled, htoken, hvalue, hs] using
            .apart htoken hvalue (Draft.set_core hs hset) ih
  | @flag _ _ _ _ f _ htoken hraise _ ih =>
      cases f with
      | shell =>
          simpa [CommandLine.unstyled, htoken] using
            .flag htoken (Draft.raise_shell_core hraise) ih
      | logConsole =>
          rw [Draft.core_raise_logConsole hraise] at ih
          simpa [CommandLine.unstyled, htoken] using ih
      | help => cases hraise
      | version => cases hraise

end Read

/-- The task and the place of the log are asked for by the essential arguments alone. -/
theorem parse_essentials {args : List String} {config : Config} (h : parse args = .ok config) :
    parse (essentials args) = .ok ⟨config.task, { file := config.logging.file }⟩ := by
  rw [parse] at h
  split at h
  · cases h
  · next d hread =>
      have hcore : read {} .nothing (essentials args) = .ok d.core :=
        read_nothing_eq_ok_iff.2 (read_nothing_eq_ok_iff.1 hread).unstyled
      rw [parse, hcore]
      exact Draft.finish_core h

example :
    essentials ["--log-level", "debug", "--code", "5b", "--log-console", "--log-file=l"] =
      ["--code", "5b", "--log-file=l"] := by
  decide +kernel

end CommandLine

end BytecodeListing
