import Mathlib.Data.List.TakeWhile
import Mathlib.Tactic.MkIffOfInductiveProp
import BytecodeListing.Proofs.Arguments
import BytecodeListing.Proofs.Essentials
import BytecodeListing.Proofs.Runs

/-!
# The grammar of command lines

A command line says things one after the other: options with a value, apart or attached, and
flags (`SpellsAll`). It is accepted if each of them is valid and is said once and exactly one
task is asked for (`Request`). It is read as the configuration that holds what is said and is
standard where nothing is said (`Answers`). Both look only at which things are said, so their
order makes no difference (`SpellsAll.parse_eq_ok_iff`).

To read the words is to add what they say to a draft (`SpellsAll.read_eq_ok_iff`). One thing
can be added if it is valid and nothing of its name is in the draft, and then the draft has it
as well (`Draft.exists_add_iff`, `Draft.has_add_iff`). Along a list of things this says that
no name occurs twice (`Draft.exists_addAll_iff`).
-/

namespace BytecodeListing

/-- The name of a format. -/
def Format.name : Format → String
  | text => "text"
  | json => "json"

section ByName

variable {α : Type} {names : List (String × α)} {value : String} {x : α}

theorem byName?_eq_some_iff {name : α → String} (hname : ∀ p ∈ names, name p.2 = p.1)
    (hfound : ∀ x, byName? names false (name x) = some x) :
    byName? names false value = some x ↔ name x = value := by
  constructor
  · intro h
    exact hname _ (CommandLine.mem_of_lookup h)
  · rintro rfl
    exact hfound x

/-- What has a name is found by it. -/
theorem mem_fst_iff_byName? (names : List (String × α)) :
    value ∈ names.map Prod.fst ↔ ∃ x, byName? names false value = some x := by
  constructor
  · intro h
    rw [← Option.ne_none_iff_exists', byName?, if_neg Bool.false_ne_true]
    intro hnone
    obtain ⟨p, hp, rfl⟩ := List.mem_map.1 h
    simpa using List.lookup_eq_none_iff.1 hnone p hp
  · rintro ⟨x, h⟩
    exact List.mem_map_of_mem (CommandLine.mem_of_lookup h)

end ByName

theorem Level.ofName?_eq_some_iff {value : String} {level : Level} :
    ofName? false value = some level ↔ level.name = value :=
  byName?_eq_some_iff (by decide) fun level => ofName?_name level false

theorem Level.name_injective : Function.Injective Level.name :=
  fun _ _ h => Option.some.inj
    ((ofName?_eq_some_iff.2 rfl).symm.trans (ofName?_eq_some_iff.2 h.symm))

theorem Format.ofName?_eq_some_iff {value : String} {format : Format} :
    ofName? false value = some format ↔ format.name = value :=
  byName?_eq_some_iff (by decide) fun format => by cases format <;> decide

theorem Format.name_injective : Function.Injective Format.name :=
  fun _ _ h => Option.some.inj
    ((ofName?_eq_some_iff.2 rfl).symm.trans (ofName?_eq_some_iff.2 h.symm))

namespace CommandLine

/-- The argument that names an option. -/
def Setting.arg : Setting → String
  | code => "--code"
  | logLevel => "--log-level"
  | logFile => "--log-file"
  | logFormat => "--log-format"

/-- The values that an option takes. -/
def Setting.Takes : Setting → String → Prop
  | code, _ => True
  | logLevel, value => value ∈ ["debug", "info", "warn", "error"]
  | logFile, value => value ≠ ""
  | logFormat, value => value ∈ ["text", "json"]

/-- What is said at one place of a command line. -/
inductive Item where
  /-- An option has a value. -/
  | setting (s : Setting) (value : String)
  /-- A flag is raised. -/
  | flag (f : Flag)
  deriving DecidableEq

/-- The argument that names what is said. -/
def Item.arg : Item → String
  | setting s _ => s.arg
  | flag f => f.arg

/-- What may be said when something is to be run. -/
def Item.Valid : Item → Prop
  | setting s value => s.Takes value
  | flag f => f = .shell ∨ f = .logConsole

/-- An argument that can be the value of the option in front of it. -/
def IsValue (arg : String) : Prop :=
  arg = "-" ∨ arg.toList.head? ≠ some '-'

/-- The arguments that say something. -/
inductive Spells : Item → List String → Prop
  | apart {s : Setting} {value : String} (hvalue : IsValue value) :
      Spells (.setting s value) [s.arg, value]
  | attached {s : Setting} {value : String} :
      Spells (.setting s value) [s.arg ++ "=" ++ value]
  | flag {f : Flag} : Spells (.flag f) [f.arg]

/-- The arguments that say one thing after the other, and may be closed. -/
inductive SpellsAll : List Item → List String → Prop
  | done : SpellsAll [] []
  | closed : SpellsAll [] ["--"]
  | cons {item : Item} {items : List Item} {words args : List String}
      (hitem : Spells item words) (h : SpellsAll items args) : SpellsAll (item :: items) (words ++ args)

/-- What is said asks for one thing to be run. -/
structure Request (items : List Item) : Prop where
  valid : ∀ item ∈ items, item.Valid
  once : (items.map Item.arg).Nodup
  task : (∃ value, .setting .code value ∈ items) ↔ .flag .shell ∉ items

/-- A configuration is what is said, and the standard one where nothing is said. -/
@[mk_iff]
structure Answers (config : Config) (items : List Item) : Prop where
  list : ∀ value, .setting .code value ∈ items → config.task = .list value
  shell : .flag .shell ∈ items → config.task = .shell
  level : ∀ value, .setting .logLevel value ∈ items → config.logging.level.name = value
  level_default : (∀ value, .setting .logLevel value ∉ items) → config.logging.level = .warn
  console : config.logging.console = true ↔ .flag .logConsole ∈ items
  file : ∀ path, config.logging.file = some ⟨path⟩ ↔ .setting .logFile path ∈ items
  format : ∀ value, .setting .logFormat value ∈ items → config.logging.format.name = value
  format_default : (∀ value, .setting .logFormat value ∉ items) → config.logging.format = .text

section Tokens

variable {s : Setting} {arg value : String}

theorem Setting.arg_inj {s s' : Setting} : s.arg = s'.arg ↔ s = s' := by
  cases s <;> cases s' <;> decide

theorem Flag.arg_inj {f f' : Flag} : f.arg = f'.arg ↔ f = f' := by
  cases f <;> cases f' <;> decide

theorem Setting.arg_ne_arg (s : Setting) (f : Flag) : s.arg ≠ f.arg := by
  cases s <;> cases f <;> decide

theorem Token.ofArg_setting_arg (s : Setting) : Token.ofArg s.arg = .setting s none := by
  cases s <;> decide +kernel

theorem Setting.exists_toList_arg (s : Setting) :
    ∃ name : String, s.arg.toList = '-' :: '-' :: name.toList ∧ '=' ∉ name.toList ∧
      settings.lookup name = some s := by
  cases s with
  | code => exact ⟨"code", by decide +kernel⟩
  | logLevel => exact ⟨"log-level", by decide +kernel⟩
  | logFile => exact ⟨"log-file", by decide +kernel⟩
  | logFormat => exact ⟨"log-format", by decide +kernel⟩

theorem Token.ofArg_attached (s : Setting) (value : String) :
    Token.ofArg (s.arg ++ "=" ++ value) = .setting s (some value) := by
  obtain ⟨name, harg, heq, hlookup⟩ := s.exists_toList_arg
  have hlist : (s.arg ++ "=" ++ value).toList =
      '-' :: '-' :: (name.toList ++ '=' :: value.toList) := by
    simp [harg]
  have hname : ∀ c ∈ name.toList, decide (c ≠ '=') = true := fun c hc =>
    decide_eq_true fun h => heq (h ▸ hc)
  have hlong : Token.ofArg (s.arg ++ "=" ++ value) =
      long (name.toList ++ '=' :: value.toList) := by
    rw [Token.ofArg, hlist]
    cases name.toList <;> rfl
  rw [hlong, long, List.takeWhile_append_of_pos hname, List.dropWhile_append_of_pos hname]
  simp [hlookup]

theorem Setting.arg_of_mem {name : String} (h : (name, s) ∈ settings) : s.arg = "--" ++ name := by
  simp only [settings, List.mem_cons, Prod.mk.injEq, List.not_mem_nil, or_false] at h
  rcases h with ⟨rfl, rfl⟩ | ⟨rfl, rfl⟩ | ⟨rfl, rfl⟩ | ⟨rfl, rfl⟩ <;> decide +kernel

/-- The name of an option stands in front of the first equals sign, and its value behind it. -/
theorem arg_of_long {body : List Char} {attached : Option String}
    (h : long body = .setting s attached) :
    "--" ++ String.ofList body = s.arg ++ attached.elim "" ("=" ++ ·) := by
  have hbody := List.takeWhile_append_dropWhile (p := fun c => decide (c ≠ '=')) (l := body)
  have hhead := List.head?_dropWhile_not (fun c => decide (c ≠ '=')) body
  rw [long] at h
  split at h
  · next _ hlookup =>
      cases h
      rw [Setting.arg_of_mem (mem_of_lookup hlookup)]
      cases hattached : body.dropWhile fun c => decide (c ≠ '=') with
      | nil =>
          rw [hattached, List.append_nil] at hbody
          rw [hbody]
          simp
      | cons c tail =>
          simp only [hattached, List.head?_cons, ne_eq, decide_eq_false_iff_not, not_not] at hhead
          rw [hattached, hhead] at hbody
          nth_rewrite 1 [← hbody]
          simp [String.append_assoc]
  · cases h
  · cases h

theorem Token.arg_of_ofArg_setting {attached : Option String}
    (h : Token.ofArg arg = .setting s attached) :
    arg = s.arg ++ attached.elim "" ("=" ++ ·) := by
  rw [Token.ofArg] at h
  split at h
  · cases h
  · next hlist =>
      rw [← arg_of_long h, ← String.toList_inj, hlist]
      simp
  · split at h <;> cases h
  · cases h

theorem long_ne_separator (body : List Char) : long body ≠ .separator := by
  rw [long]
  split <;> simp

theorem long_ne_plain (body : List Char) (text : String) : long body ≠ .plain text := by
  rw [long]
  split <;> simp

theorem Token.eq_of_ofArg_separator (h : Token.ofArg arg = .separator) : arg = "--" := by
  rw [Token.ofArg] at h
  split at h
  · next hlist => exact String.toList_inj.1 hlist
  · exact absurd h (long_ne_separator _)
  · split at h <;> cases h
  · cases h

theorem Token.ofArg_of_isValue (h : IsValue arg) : Token.ofArg arg = .plain arg := by
  rcases h with rfl | hhead
  · decide +kernel
  · rw [Token.ofArg]
    split
    · next hlist => simp [hlist] at hhead
    · next hlist => simp [hlist] at hhead
    · next hlist => simp [hlist] at hhead
    · rfl

theorem Token.eq_of_ofArg_plain {text : String} (h : Token.ofArg arg = .plain text) :
    arg = text ∧ IsValue arg := by
  rw [Token.ofArg] at h
  split at h
  · cases h
  · exact absurd h (long_ne_plain _ _)
  · split at h <;> cases h
  · next hother =>
      cases h
      refine ⟨rfl, ?_⟩
      rw [IsValue, ← String.toList_inj]
      cases hlist : arg.toList with
      | nil => simp
      | cons c tail =>
          by_cases hc : c = '-'
          · cases tail with
            | nil => exact .inl (by rw [hc]; rfl)
            | cons c' tail => exact absurd (hc ▸ hlist) (hother c' tail)
          · simp [hc]

end Tokens

/-- The value that an option has been given. -/
def Draft.given (d : Draft) : Setting → Option String
  | .code => d.code
  | .logLevel => d.level.map Level.name
  | .logFile => d.file.map Path.text
  | .logFormat => d.format.map Format.name

/-- What has been said so far. -/
def Draft.Has (d : Draft) : Item → Prop
  | .setting s value => d.given s = some value
  | .flag f => d.has f = true

/-- The draft with one more thing said. -/
def Draft.add (d : Draft) : Item → Except Refusal Draft
  | .setting s value => d.set s value
  | .flag f => d.raise f

/-- The draft with some more things said. -/
def Draft.addAll (d : Draft) : List Item → Except Refusal Draft
  | [] => .ok d
  | item :: items =>
      match d.add item with
      | .error refusal => .error refusal
      | .ok d => d.addAll items

section Draft

variable {d d' : Draft} {s : Setting} {f : Flag} {value : String} {item : Item}
  {items : List Item}

theorem Setting.takes_logLevel_iff :
    logLevel.Takes value ↔ ∃ level, Level.ofName? false value = some level :=
  mem_fst_iff_byName? Level.names

theorem Setting.takes_logFormat_iff :
    logFormat.Takes value ↔ ∃ format, Format.ofName? false value = some format :=
  mem_fst_iff_byName? Format.names

/-- An option is set if it takes the value and has none. -/
theorem Draft.exists_set_iff :
    (∃ d', d.set s value = .ok d') ↔ s.Takes value ∧ d.given s = none := by
  cases s with
  | code => simp [set, map_once_eq_ok_iff, Setting.Takes, given]
  | logLevel =>
      simp only [set, map_once_eq_ok_iff, Setting.takes_logLevel_iff, given, Option.map_eq_none_iff]
      simp [and_comm]
  | logFile =>
      simp [set, map_once_eq_ok_iff, Setting.Takes, given, and_comm]
  | logFormat =>
      simp only [set, map_once_eq_ok_iff, Setting.takes_logFormat_iff, given, Option.map_eq_none_iff]
      simp [and_comm]

/-- Setting an option makes no difference to the others. -/
theorem Draft.given_of_set (h : d.set s value = .ok d') (s' : Setting) :
    d'.given s' = if s' = s then some value else d.given s' := by
  cases s with
  | code =>
      obtain ⟨-, v, hv, rfl⟩ := map_once_eq_ok_iff.1 h
      cases s' <;> simp [given, ← hv]
  | logLevel =>
      obtain ⟨-, level, hv, rfl⟩ := map_once_eq_ok_iff.1 h
      cases s' <;> simp [given, Level.ofName?_eq_some_iff.1 hv]
  | logFile =>
      obtain ⟨-, file, hv, rfl⟩ := map_once_eq_ok_iff.1 h
      split at hv
      · cases hv
      · cases hv
        cases s' <;> simp [given]
  | logFormat =>
      obtain ⟨-, format, hv, rfl⟩ := map_once_eq_ok_iff.1 h
      cases s' <;> simp [given, Format.ofName?_eq_some_iff.1 hv]

/-- A flag is raised if it stands for something to be run and has not been raised. -/
theorem Draft.exists_raise_iff :
    (∃ d', d.raise f = .ok d') ↔ (f = .shell ∨ f = .logConsole) ∧ d.has f = false := by
  cases f with
  | shell => cases hshell : d.shell <;> simp [raise, has, hshell]
  | logConsole => cases hconsole : d.console <;> simp [raise, has, hconsole]
  | help => simp [raise]
  | version => simp [raise]

theorem Draft.given_of_raise (h : d.raise f = .ok d') (s : Setting) : d'.given s = d.given s := by
  cases f with
  | shell =>
      rw [raise] at h
      split at h <;> cases h
      cases s <;> rfl
  | logConsole =>
      rw [raise] at h
      split at h <;> cases h
      cases s <;> rfl
  | help => cases h
  | version => cases h

theorem Item.arg_eq_iff_of_setting {item : Item} :
    item.arg = s.arg ↔ ∃ value, item = .setting s value := by
  cases item with
  | setting s' value => simp [arg, Setting.arg_inj]
  | flag f => simp [arg, (s.arg_ne_arg f).symm]

theorem Item.arg_eq_iff_of_flag {item : Item} : item.arg = f.arg ↔ item = .flag f := by
  cases item with
  | setting s value => simp [arg, s.arg_ne_arg f]
  | flag f' => simp [arg, Flag.arg_inj]

/-- Something is said once, and only if it is valid. -/
theorem Draft.exists_add_iff :
    (∃ d', d.add item = .ok d') ↔ item.Valid ∧ ∀ x, d.Has x → x.arg ≠ item.arg := by
  cases item with
  | setting s value =>
      rw [add, exists_set_iff, Item.Valid, Option.eq_none_iff_forall_ne_some]
      refine and_congr_right fun _ => ⟨fun h x hx harg => ?_, fun h v hv => ?_⟩
      · obtain ⟨v, rfl⟩ := Item.arg_eq_iff_of_setting.1 harg
        exact h v hx
      · exact h (.setting s v) hv rfl
  | flag f =>
      rw [add, exists_raise_iff, Item.Valid, ← Bool.not_eq_true]
      refine and_congr_right fun _ => ⟨fun h x hx harg => ?_, fun h hf => ?_⟩
      · obtain rfl := Item.arg_eq_iff_of_flag.1 harg
        exact h hx
      · exact h (.flag f) hf rfl

/-- Then it has been said, and all that was said before, and nothing else. -/
theorem Draft.has_add_iff (h : d.add item = .ok d') (x : Item) :
    d'.Has x ↔ d.Has x ∨ x = item := by
  cases item with
  | setting s value =>
      cases x with
      | setting s' v =>
          rw [Has, given_of_set h]
          have hfree := (exists_set_iff.1 ⟨d', h⟩).2
          by_cases hs : s' = s
          · subst hs
            simp [Has, hfree, eq_comm]
          · simp [Has, hs]
      | flag f => simp [Has, has_set h]
  | flag f =>
      cases x with
      | setting s v => simp [Has, given_of_raise h]
      | flag f' => rw [Has, has_raise h, Has, Item.flag.injEq, @eq_comm _ f']

theorem Draft.addAll_cons_eq_ok_iff :
    d.addAll (item :: items) = .ok d' ↔ ∃ d₁, d.add item = .ok d₁ ∧ d₁.addAll items = .ok d' := by
  rw [addAll]
  cases d.add item with
  | error refusal => simp
  | ok d₁ => simp

/-- What is said one after the other is said once, and not again if it was said before. -/
theorem Draft.exists_addAll_iff :
    (∃ d', d.addAll items = .ok d') ↔
      (∀ item ∈ items, item.Valid) ∧ (items.map Item.arg).Nodup ∧
        ∀ x, d.Has x → x.arg ∉ items.map Item.arg := by
  induction items generalizing d with
  | nil => simp [addAll]
  | cons item items ih =>
      rw [List.forall_mem_cons, List.map_cons, List.nodup_cons]
      simp only [addAll_cons_eq_ok_iff, List.mem_cons, not_or]
      constructor
      · rintro ⟨d', d₁, hadd, hall⟩
        obtain ⟨hvalid, hfresh⟩ := exists_add_iff.1 ⟨d₁, hadd⟩
        obtain ⟨hvalids, honce, hfreshes⟩ := ih.1 ⟨d', hall⟩
        exact ⟨⟨hvalid, hvalids⟩,
          ⟨hfreshes item ((has_add_iff hadd item).2 (.inr rfl)), honce⟩,
          fun x hx => ⟨hfresh x hx, hfreshes x ((has_add_iff hadd x).2 (.inl hx))⟩⟩
      · rintro ⟨⟨hvalid, hvalids⟩, ⟨hnot, honce⟩, hfresh⟩
        obtain ⟨d₁, hadd⟩ := exists_add_iff.2 ⟨hvalid, fun x hx => (hfresh x hx).1⟩
        have hfreshes : ∀ x, d₁.Has x → x.arg ∉ items.map Item.arg := by
          intro x hx
          rcases (has_add_iff hadd x).1 hx with hx | rfl
          · exact (hfresh x hx).2
          · exact hnot
        obtain ⟨d', hall⟩ := ih.2 ⟨hvalids, honce, hfreshes⟩
        exact ⟨d', d₁, hadd, hall⟩

theorem Draft.has_addAll_iff (h : d.addAll items = .ok d') (x : Item) :
    d'.Has x ↔ d.Has x ∨ x ∈ items := by
  induction items generalizing d with
  | nil =>
      cases h
      simp
  | cons item items ih =>
      obtain ⟨d₁, hadd, hall⟩ := addAll_cons_eq_ok_iff.1 h
      rw [ih hall, has_add_iff hadd, List.mem_cons, or_assoc]

theorem Draft.not_has_empty (x : Item) : ¬ Draft.Has {} x := by
  cases x with
  | setting s value => cases s <;> simp [Has, given]
  | flag f => cases f <;> simp [Has, Draft.has]

/-- A draft has what has been said since it was empty. -/
theorem Draft.has_iff_mem (h : Draft.addAll {} items = .ok d) (x : Item) :
    d.Has x ↔ x ∈ items := by
  rw [has_addAll_iff h, or_iff_right (not_has_empty x)]

end Draft

section Words

variable {d d' : Draft} {item : Item} {items : List Item} {words args : List String}

/-- The arguments that say something are read by saying it. -/
theorem Spells.read_append (h : Spells item words) (args : List String) :
    read d .nothing (words ++ args) = .ok d' ↔
      ∃ d₁, d.add item = .ok d₁ ∧ read d₁ .nothing args = .ok d' := by
  cases h with
  | @apart s value hvalue =>
      rw [Draft.add, ← read_judgement_eq_ok_iff]
      simp [read, Token.ofArg_setting_arg, Token.ofArg_of_isValue hvalue, settle]
  | @attached s value =>
      rw [Draft.add, List.singleton_append, read, Token.ofArg_attached]
      cases hset : d.set s value <;> simp [settle, hset]
  | @flag f =>
      rw [Draft.add, List.singleton_append, read, Token.ofArg_arg]
      cases hraise : d.raise f <;> simp [settle, hraise]

theorem SpellsAll.read_eq_ok_iff (h : SpellsAll items args) :
    read d .nothing args = .ok d' ↔ d.addAll items = .ok d' := by
  induction h generalizing d with
  | done => rfl
  | closed =>
      have hsep : Token.ofArg "--" = .separator := by decide +kernel
      simp [read, hsep, settle, Draft.addAll]
  | cons hitem _ ih =>
      rw [hitem.read_append, Draft.addAll_cons_eq_ok_iff]
      simp only [ih]

theorem Reads.exists_spellsAll (h : Reads d args d') : ∃ items, SpellsAll items args := by
  induction h with
  | done => exact ⟨[], .done⟩
  | separator htoken => exact ⟨[], Token.eq_of_ofArg_separator htoken ▸ .closed⟩
  | @attached _ _ _ _ s value _ htoken _ _ ih =>
      obtain ⟨items, hitems⟩ := ih
      rw [Token.arg_of_ofArg_setting htoken, Option.elim_some, ← String.append_assoc]
      exact ⟨.setting s value :: items, .cons .attached hitems⟩
  | @apart _ _ _ _ value s _ _ htoken hvalue _ _ ih =>
      obtain ⟨items, hitems⟩ := ih
      rw [Token.arg_of_ofArg_setting htoken, Option.elim_none, String.append_empty]
      exact ⟨.setting s value :: items, .cons (.apart (Token.eq_of_ofArg_plain hvalue).2) hitems⟩
  | @flag _ _ _ _ f _ htoken hraise _ ih =>
      obtain ⟨items, hitems⟩ := ih
      rw [Token.arg_of_ofArg (Draft.exists_raise_iff.1 ⟨_, hraise⟩).1 htoken]
      exact ⟨.flag f :: items, .cons .flag hitems⟩

end Words

section Requests

variable {items items' : List Item} {args args' : List String} {config : Config}

/-- A value that stands for a name is the one that was named, or the standard one. -/
theorem eq_getD_iff {α : Type} {name : α → String} (hinj : Function.Injective name)
    {given : Option α} {standard value : α} :
    value = given.getD standard ↔
      (∀ v, given.map name = some v → name value = v) ∧
        ((∀ v, given.map name ≠ some v) → value = standard) := by
  cases given with
  | none => simp
  | some named => simp [hinj.eq_iff]

theorem Draft.finish_eq_ok_iff_fields {d : Draft} :
    d.finish = .ok config ↔
      ((∃ value, d.code = some value) ↔ ¬ d.shell = true) ∧
        (∀ value, d.code = some value → config.task = .list value) ∧
        (d.shell = true → config.task = .shell) ∧
        config.logging.level = d.level.getD .warn ∧ config.logging.console = d.console ∧
        config.logging.file = d.file ∧ config.logging.format = d.format.getD .text := by
  obtain ⟨task, level, console, file, format⟩ := config
  rw [finish]
  cases d.code <;> cases d.shell <;> simp [eq_comm]

/-- A draft is complete if it has one task, and then it is the configuration. -/
theorem Draft.finish_eq_ok_iff {d : Draft} (h : ∀ x, d.Has x ↔ x ∈ items) :
    d.finish = .ok config ↔
      ((∃ value, .setting .code value ∈ items) ↔ .flag .shell ∉ items) ∧
        Answers config items := by
  have hsetting (s : Setting) (value : String) :
      .setting s value ∈ items ↔ d.given s = some value := (h _).symm
  have hflag (f : Flag) : .flag f ∈ items ↔ d.has f = true := (h _).symm
  rw [finish_eq_ok_iff_fields, eq_getD_iff Level.name_injective,
    eq_getD_iff Format.name_injective, answers_iff]
  simp only [hsetting, hflag, given, has]
  have hpath (path : String) : d.file.map Path.text = some path ↔ d.file = some ⟨path⟩ := by
    rcases d.file with _ | ⟨⟨text⟩⟩ <;> simp
  have hfile : config.logging.file = d.file ↔
      ∀ path, config.logging.file = some ⟨path⟩ ↔ d.file.map Path.text = some path := by
    simp only [hpath]
    constructor
    · intro h path
      rw [h]
    · exact fun h => Option.ext fun path => h path.text
  have hconsole : config.logging.console = d.console ↔
      (config.logging.console = true ↔ d.console = true) := Bool.eq_iff_iff
  simp only [hfile, hconsole, ne_eq, and_assoc]

theorem Request.perm (h : items.Perm items') (hitems : Request items) : Request items' where
  valid item hitem := hitems.valid item (h.mem_iff.2 hitem)
  once := (h.map Item.arg).nodup_iff.1 hitems.once
  task := by simpa only [h.mem_iff] using hitems.task

theorem Answers.perm (h : items.Perm items') (hitems : Answers config items) :
    Answers config items' := by
  obtain ⟨h₁, h₂, h₃, h₄, h₅, h₆, h₇, h₈⟩ := hitems
  simp only [h.mem_iff] at h₁ h₂ h₃ h₄ h₅ h₆ h₇ h₈
  exact ⟨h₁, h₂, h₃, h₄, h₅, h₆, h₇, h₈⟩

theorem parse_eq_ok_iff_finish :
    parse args = .ok config ↔
      ∃ d, read {} .nothing args = .ok d ∧ d.finish = .ok config := by
  rw [parse]
  cases read {} .nothing args <;> simp

theorem exists_spellsAll_of_parse (h : parse args = .ok config) :
    ∃ items, SpellsAll items args := by
  obtain ⟨d, hread, -⟩ := parse_eq_ok_iff_finish.1 h
  exact (reads_of_read hread).exists_spellsAll

/-- Whether something is asked for, and what, is seen in what is said. -/
theorem SpellsAll.parse_eq_ok_iff (h : SpellsAll items args) :
    parse args = .ok config ↔ Request items ∧ Answers config items := by
  simp only [parse_eq_ok_iff_finish, h.read_eq_ok_iff]
  constructor
  · rintro ⟨d, hall, hfinish⟩
    obtain ⟨hvalid, honce, -⟩ := Draft.exists_addAll_iff.1 ⟨d, hall⟩
    obtain ⟨htask, hanswers⟩ := (Draft.finish_eq_ok_iff (Draft.has_iff_mem hall)).1 hfinish
    exact ⟨⟨hvalid, honce, htask⟩, hanswers⟩
  · rintro ⟨hrequest, hanswers⟩
    obtain ⟨d, hall⟩ := Draft.exists_addAll_iff.2
      ⟨hrequest.valid, hrequest.once, fun x hx => absurd hx (Draft.not_has_empty x)⟩
    exact ⟨d, hall, (Draft.finish_eq_ok_iff (Draft.has_iff_mem hall)).2 ⟨hrequest.task, hanswers⟩⟩

/-- A command line is accepted if it asks for one thing in the words of the grammar, and it
is read as what it asks for. The order of the words makes no difference. What is run is the
listing of the code that is asked for, or the shell, and never both. -/
theorem parse_accepts_requests :
    (∀ args config, parse args = .ok config ↔
      ∃ items, SpellsAll items args ∧ Request items ∧ Answers config items) ∧
    (∀ items items' args args', SpellsAll items args → SpellsAll items' args' →
      items.Perm items' → ∀ config, parse args = .ok config ↔ parse args' = .ok config) ∧
    ∀ args config, parse args = .ok config → ∃ items, SpellsAll items args ∧
      ((∃ value, .setting .code value ∈ items ∧ .flag .shell ∉ items ∧
          ∀ (t : Tree) input, t.perform (Program.perform config.task input) =
            t.perform (Program.listCode value)) ∨
        (.flag .shell ∈ items ∧ (∀ value, .setting .code value ∉ items) ∧
          ∀ (t : Tree) input, t.perform (Program.perform config.task input) =
            (Shell.session (Shell.lines input), t))) := by
  have haccepts (args : List String) (config : Config) (h : parse args = .ok config) :
      ∃ items, SpellsAll items args ∧ Request items ∧ Answers config items := by
    obtain ⟨items, hspells⟩ := exists_spellsAll_of_parse h
    exact ⟨items, hspells, hspells.parse_eq_ok_iff.1 h⟩
  refine ⟨fun args config => ⟨haccepts args config, ?_⟩, ?_, ?_⟩
  · rintro ⟨items, hspells, hrequest, hanswers⟩
    exact hspells.parse_eq_ok_iff.2 ⟨hrequest, hanswers⟩
  · intro items items' args args' hspells hspells' hperm config
    rw [hspells.parse_eq_ok_iff, hspells'.parse_eq_ok_iff]
    exact ⟨fun h => ⟨h.1.perm hperm, h.2.perm hperm⟩,
      fun h => ⟨h.1.perm hperm.symm, h.2.perm hperm.symm⟩⟩
  · intro args config h
    obtain ⟨items, hspells, hrequest, hanswers⟩ := haccepts args config h
    refine ⟨items, hspells, ?_⟩
    by_cases hshell : .flag .shell ∈ items
    · refine .inr ⟨hshell, fun value hcode => hrequest.task.1 ⟨value, hcode⟩ hshell, ?_⟩
      intro t input
      rw [hanswers.shell hshell]
      rfl
    · obtain ⟨value, hcode⟩ := hrequest.task.2 hshell
      refine .inl ⟨value, hcode, hshell, fun t input => ?_⟩
      rw [hanswers.list value hcode]
      rfl

/-- Values that look like an option and like a dash, in either order and either spelling. -/
theorem parse_accepts_requests_reordered :
    parse ["--log-file", "-", "--code=--shell", "--log-console", "--"] =
      .ok ⟨.list "--shell", { console := true, file := some ⟨"-"⟩ }⟩ ∧
    parse ["--log-console", "--code=--shell", "--log-file=-"] =
      .ok ⟨.list "--shell", { console := true, file := some ⟨"-"⟩ }⟩ ∧
    ∃ items, SpellsAll items ["--log-file", "-", "--code=--shell", "--log-console", "--"] ∧
      Request items ∧
      Answers ⟨.list "--shell", { console := true, file := some ⟨"-"⟩ }⟩ items := by
  obtain ⟨haccepts, horder, -⟩ := parse_accepts_requests
  have hcode : Spells (.setting .code "--shell") ["--code=--shell"] := by
    have hword : Setting.code.arg ++ "=" ++ "--shell" = "--code=--shell" := by decide +kernel
    exact hword ▸ .attached
  have hfile : Spells (.setting .logFile "-") ["--log-file=-"] := by
    have hword : Setting.logFile.arg ++ "=" ++ "-" = "--log-file=-" := by decide +kernel
    exact hword ▸ .attached
  have hspells : SpellsAll [.setting .logFile "-", .setting .code "--shell", .flag .logConsole]
      ["--log-file", "-", "--code=--shell", "--log-console", "--"] :=
    .cons (.apart (.inl rfl)) (.cons hcode (.cons .flag .closed))
  have hspells' : SpellsAll [.flag .logConsole, .setting .code "--shell", .setting .logFile "-"]
      ["--log-console", "--code=--shell", "--log-file=-"] :=
    .cons .flag (.cons hcode (.cons hfile .done))
  have hparse : parse ["--log-file", "-", "--code=--shell", "--log-console", "--"] =
      .ok ⟨.list "--shell", { console := true, file := some ⟨"-"⟩ }⟩ := by
    decide +kernel
  exact ⟨hparse, (horder _ _ _ _ hspells hspells' (by decide) _).1 hparse, (haccepts _ _).1 hparse⟩

end Requests

end CommandLine

end BytecodeListing
