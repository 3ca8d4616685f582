import Chip8.Command
import Chip8.Proofs.Numeral.Decimal
import Mathlib.Data.List.Induction

/-!
The grammar of the command line. The arguments of a run are a file and groups of an option with its
value, and of each kind of option the last group counts.
-/

namespace Chip8

/-- An argument that is the decimal numeral of a number. -/
structure NumberArgument where
  text : String
  value : Nat
  isWord64 : Numeral.IsWord64 text.toList value

/-- An option that takes a number. -/
inductive NumberOption
  | frequency
  | steps
  | seed
  deriving DecidableEq

def NumberOption.name : NumberOption → String
  | .frequency => "--hz"
  | .steps => "--steps"
  | .seed => "--seed"

/-- An option and its value, if it takes one. -/
inductive OptionGroup
  | config (file : String)
  | number (option : NumberOption) (n : NumberArgument)
  | wrap

inductive OptionKind
  | config
  | number (option : NumberOption)
  | wrap
  deriving DecidableEq

namespace OptionGroup

variable {g : OptionGroup} {gs hs : List OptionGroup}

def kind : OptionGroup → OptionKind
  | .config _ => .config
  | .number option _ => .number option
  | .wrap => .wrap

/-- The arguments that spell a group. -/
def arguments : OptionGroup → List String
  | .config file => ["--config", file]
  | .number option n => [option.name, n.text]
  | .wrap => ["--wrap"]

def file? : OptionGroup → Option String
  | .config file => some file
  | _ => none

def number? : OptionGroup → Option Nat
  | .number _ n => some n.value
  | _ => none

/-- The last group of a kind. -/
def last? (k : OptionKind) (gs : List OptionGroup) : Option OptionGroup :=
  (gs.filter fun g => g.kind = k).getLast?

theorem last?_append (k : OptionKind) (gs hs : List OptionGroup) :
    last? k (gs ++ hs) = (last? k hs).or (last? k gs) := by
  rw [last?, List.filter_append, List.getLast?_append]
  rfl

theorem last?_append_singleton (k : OptionKind) (gs : List OptionGroup) (g : OptionGroup) :
    last? k (gs ++ [g]) = if g.kind = k then some g else last? k gs := by
  rw [last?_append, last?, List.filter_cons]
  by_cases h : g.kind = k
  · rw [if_pos h, if_pos (decide_eq_true h)]
    rfl
  · rw [if_neg h, if_neg (by rwa [decide_eq_true_eq])]
    rfl

theorem isSome_last? (k : OptionKind) (gs : List OptionGroup) :
    (last? k gs).isSome = gs.any fun g => g.kind = k := by
  rw [last?, Bool.eq_iff_iff, List.getLast?_isSome, List.any_eq_true]
  simp

/-- Whether there are the same groups of each kind, in the same order. -/
def AgreeByKind (gs hs : List OptionGroup) : Prop :=
  ∀ k, gs.filter (fun g => g.kind = k) = hs.filter fun h => h.kind = k

theorem AgreeByKind.last?_eq (h : AgreeByKind gs hs) (k : OptionKind) :
    last? k gs = last? k hs := by
  rw [last?, h k, last?]

/-- A group before another of its kind does not count. -/
theorem last?_insert (hl : ∃ h ∈ hs, h.kind = g.kind) (gs : List OptionGroup) (k : OptionKind) :
    last? k (gs ++ g :: hs) = last? k (gs ++ hs) := by
  rw [List.append_cons, last?_append, last?_append_singleton, last?_append]
  split
  case isTrue hk =>
    obtain ⟨h, hh, hkind⟩ := hl
    have hsome : (last? k hs).isSome := by
      rw [isSome_last?, List.any_eq_true]
      exact ⟨h, hh, decide_eq_true (hkind.trans hk)⟩
    obtain ⟨l, hl⟩ := Option.isSome_iff_exists.mp hsome
    rw [hl, Option.some_or, Option.some_or]
  case isFalse => rfl

end OptionGroup

namespace RunOptions

open OptionGroup

variable {o o' : RunOptions} {gs hs : List OptionGroup}

/-- The options that groups come to: each has the value of its last group, and wrapping is on if
there is a group for it. -/
def ofGroups (program : String) (gs : List OptionGroup) : RunOptions where
  program
  config := (last? .config gs).bind file?
  frequency := (last? (.number .frequency) gs).bind number?
  steps := (last? (.number .steps) gs).bind number?
  seed := (last? (.number .seed) gs).bind number?
  wrap := gs.any fun g => g.kind = .wrap

/-- Options after one more group. -/
def extend (o : RunOptions) : OptionGroup → RunOptions
  | .config file => { o with config := some file }
  | .number .frequency n => { o with frequency := some n.value }
  | .number .steps n => { o with steps := some n.value }
  | .number .seed n => { o with seed := some n.value }
  | .wrap => { o with wrap := true }

theorem ofGroups_append_singleton (program : String) (gs : List OptionGroup) (g : OptionGroup) :
    ofGroups program (gs ++ [g]) = (ofGroups program gs).extend g := by
  unfold ofGroups
  simp only [← isSome_last?, last?_append_singleton]
  cases g with
  | number option n => cases option <;> rfl
  | _ => rfl

theorem foldl_extend (program : String) (gs : List OptionGroup) :
    gs.foldl extend { program } = ofGroups program gs := by
  -- from the right, because a group at the end is the one that counts
  induction gs using List.reverseRecOn with
  | nil => rfl
  | append_singleton gs g ih =>
    rw [List.foldl_append, ih, ofGroups_append_singleton]
    rfl

theorem read?_wrap (o : RunOptions) (rest : List String) :
    o.read? ("--wrap" :: rest) = read? { o with wrap := true } rest := by
  -- the other equations of the reader split `rest`, which is of no interest here
  rw [read?.eq_def]
  exact if_pos rfl

theorem read?_arguments_append (o : RunOptions) (g : OptionGroup) (rest : List String) :
    o.read? (g.arguments ++ rest) = (o.extend g).read? rest := by
  cases g with
  | config file => simp [arguments, read?, set?, extend]
  | number option n =>
    have hn := Numeral.word64?_eq_some_iff.mpr n.isWord64
    cases option <;> simp [arguments, NumberOption.name, read?, set?, extend, hn]
  | wrap => exact read?_wrap o rest

theorem read?_flatMap_arguments (o : RunOptions) (gs : List OptionGroup) :
    o.read? (gs.flatMap arguments) = some (gs.foldl extend o) := by
  induction gs generalizing o with
  | nil => simp [read?]
  | cons g gs ih => rw [List.flatMap_cons, read?_arguments_append, ih, List.foldl_cons]

private theorem exists_number_of_map (option : NumberOption) {value : String}
    {f : Nat → RunOptions} (h : (Numeral.word64? value.toList).map f = some o') :
    ∃ g : OptionGroup, g.arguments = [option.name, value] := by
  obtain ⟨n, hn, -⟩ := Option.map_eq_some_iff.mp h
  exact ⟨.number option ⟨value, n, Numeral.word64?_eq_some_iff.mp hn⟩, rfl⟩

/-- An option that is set makes a group with its value. -/
theorem exists_group_of_set? {name value : String} (h : o.set? name value = some o') :
    ∃ g : OptionGroup, g.arguments = [name, value] := by
  unfold set? at h
  split at h
  case isTrue hname => exact hname ▸ ⟨.config value, rfl⟩
  case isFalse =>
    split at h
    case isTrue hname => exact hname ▸ exists_number_of_map .frequency h
    case isFalse =>
      split at h
      case isTrue hname => exact hname ▸ exists_number_of_map .steps h
      case isFalse =>
        split at h
        case isTrue hname => exact hname ▸ exists_number_of_map .seed h
        case isFalse => cases h

/-- All that is read are groups. -/
theorem exists_groups_of_read? {args : List String} (h : o.read? args = some o') :
    ∃ gs : List OptionGroup, args = gs.flatMap arguments := by
  induction o, args using read?.induct with
  | case1 o => exact ⟨[], rfl⟩
  | case2 o rest ih =>
    rw [read?_wrap] at h
    obtain ⟨gs, rfl⟩ := ih h
    exact ⟨.wrap :: gs, rfl⟩
  | case3 o name hname =>
    rw [read?, if_neg hname] at h
    cases h
  | case4 o name hname value rest ih =>
    rw [read?, if_neg hname] at h
    obtain ⟨next, hset, hrest⟩ := Option.bind_eq_some_iff.mp h
    obtain ⟨g, hg⟩ := exists_group_of_set? hset
    obtain ⟨gs, rfl⟩ := ih next hrest
    refine ⟨g :: gs, ?_⟩
    rw [List.flatMap_cons, hg]
    rfl

theorem read?_eq_some_iff {program : String} {args : List String} :
    read? { program } args = some o ↔
      ∃ gs : List OptionGroup, args = gs.flatMap arguments ∧ o = ofGroups program gs := by
  constructor
  · intro h
    obtain ⟨gs, rfl⟩ := exists_groups_of_read? h
    rw [read?_flatMap_arguments, foldl_extend] at h
    exact ⟨gs, rfl, (Option.some.inj h).symm⟩
  · rintro ⟨gs, rfl, rfl⟩
    rw [read?_flatMap_arguments, foldl_extend]

/-- Only the last group of each kind counts. -/
theorem ofGroups_congr (program : String) (h : ∀ k, last? k gs = last? k hs) :
    ofGroups program gs = ofGroups program hs := by
  simp only [ofGroups, ← isSome_last?, h]

end RunOptions

namespace Command

open OptionGroup

variable {args : List String} {o : RunOptions} {program : String}

/-- The arguments that ask for a run with the given options. -/
def runArguments (program : String) (gs : List OptionGroup) : List String :=
  "run" :: program :: gs.flatMap OptionGroup.arguments

theorem ofArguments?_run (program : String) (rest : List String) :
    ofArguments? ("run" :: program :: rest) = (RunOptions.read? { program } rest).map .run :=
  rfl

theorem ofArguments?_dump (program : String) (rest : List String) :
    ofArguments? ("dump" :: program :: rest) = some (.list program) :=
  rfl

theorem ofArguments?_runArguments (program : String) (gs : List OptionGroup) :
    ofArguments? (runArguments program gs) = some (.run (.ofGroups program gs)) := by
  rw [runArguments, ofArguments?_run, RunOptions.read?_eq_some_iff.mpr ⟨gs, rfl, rfl⟩]
  rfl

/-- What is no bad usage. -/
theorem eq_of_ofArguments? {c : Command} (h : ofArguments? args = some c) :
    (∃ program gs, args = runArguments program gs ∧ c = .run (.ofGroups program gs)) ∨
      ∃ program rest, args = "dump" :: program :: rest ∧ c = .list program := by
  unfold ofArguments? at h
  split at h
  case h_1 verb program rest =>
    split at h
    case isTrue hverb =>
      obtain ⟨o, ho, rfl⟩ := Option.map_eq_some_iff.mp h
      obtain ⟨gs, rfl, rfl⟩ := RunOptions.read?_eq_some_iff.mp ho
      exact .inl ⟨program, gs, by rw [hverb, runArguments], rfl⟩
    case isFalse =>
      split at h
      case isTrue hverb =>
        obtain rfl := Option.some.inj h
        exact .inr ⟨program, rest, by rw [hverb], rfl⟩
      case isFalse => cases h
  case h_2 => cases h

theorem ofArguments?_eq_run_iff : ofArguments? args = some (.run o) ↔
    ∃ program gs, args = runArguments program gs ∧ o = .ofGroups program gs := by
  constructor
  · intro h
    rcases eq_of_ofArguments? h with ⟨program, gs, hargs, ho⟩ | ⟨_, _, _, ho⟩
    · exact ⟨program, gs, hargs, Command.run.inj ho⟩
    · cases ho
  · rintro ⟨program, gs, rfl, rfl⟩
    exact ofArguments?_runArguments program gs

theorem ofArguments?_eq_list_iff : ofArguments? args = some (.list program) ↔
    ∃ rest, args = "dump" :: program :: rest := by
  constructor
  · intro h
    rcases eq_of_ofArguments? h with ⟨_, _, _, ho⟩ | ⟨_, rest, hargs, ho⟩
    · cases ho
    · obtain rfl := Command.list.inj ho
      exact ⟨rest, hargs⟩
  · rintro ⟨rest, rfl⟩
    exact ofArguments?_dump program rest

theorem ofArguments?_eq_none_iff : ofArguments? args = none ↔
    (¬ ∃ program gs, args = runArguments program gs) ∧
      ¬ ∃ program rest, args = "dump" :: program :: rest := by
  constructor
  · intro h
    constructor
    · rintro ⟨program, gs, rfl⟩
      rw [ofArguments?_runArguments] at h
      cases h
    · rintro ⟨program, rest, rfl⟩
      cases h
  · rintro ⟨hrun, hdump⟩
    refine Option.eq_none_iff_forall_ne_some.mpr fun c hc => ?_
    rcases eq_of_ofArguments? hc with ⟨program, gs, hargs, -⟩ | ⟨program, rest, hargs, -⟩
    · exact hrun ⟨program, gs, hargs⟩
    · exact hdump ⟨program, rest, hargs⟩

/-- Arguments ask for a run exactly if they are `run`, a file and groups of options, and for a
listing exactly if they begin with `dump` and a file; all others are bad usage. Of each kind of
option the last group counts, so neither do groups of different kinds depend on their order nor does
a group before another of its kind matter. -/
theorem arguments_follow_grammar :
    (∀ args o, ofArguments? args = some (.run o) ↔
      ∃ program gs, args = runArguments program gs ∧ o = .ofGroups program gs) ∧
    (∀ args program, ofArguments? args = some (.list program) ↔
      ∃ rest, args = "dump" :: program :: rest) ∧
    (∀ args, ofArguments? args = none ↔
      (¬ ∃ program gs, args = runArguments program gs) ∧
        ¬ ∃ program rest, args = "dump" :: program :: rest) ∧
    (∀ program gs hs, AgreeByKind gs hs →
      ofArguments? (runArguments program gs) = ofArguments? (runArguments program hs)) ∧
    (∀ program gs g hs, (∃ h ∈ hs, OptionGroup.kind h = g.kind) →
      ofArguments? (runArguments program (gs ++ g :: hs)) =
        ofArguments? (runArguments program (gs ++ hs))) := by
  refine ⟨fun _ _ => ofArguments?_eq_run_iff, fun _ _ => ofArguments?_eq_list_iff,
    fun _ => ofArguments?_eq_none_iff, fun program gs hs h => ?_, fun program gs g hs h => ?_⟩
  · rw [ofArguments?_runArguments, ofArguments?_runArguments,
      RunOptions.ofGroups_congr program h.last?_eq]
  · rw [ofArguments?_runArguments, ofArguments?_runArguments,
      RunOptions.ofGroups_congr program (last?_insert h gs)]

/-- A file name that spells an option, and an option that is given twice. -/
theorem arguments_follow_grammar_with_duplicates :
    ofArguments? ["run", "maze", "--hz", "5", "--config", "--wrap", "--hz", "+7"] =
        some (.run { program := "maze", config := some "--wrap", frequency := some 7 }) ∧
      ofArguments? ["run", "maze", "--hz", "5", "--config", "--wrap", "--hz", "+7"] =
        ofArguments? ["run", "maze", "--config", "--wrap", "--hz", "+7"] ∧
      ofArguments? ["run", "maze", "--config", "--wrap", "--hz", "+7"] =
        ofArguments? ["run", "maze", "--hz", "+7", "--config", "--wrap"] := by
  have hfive : Numeral.IsWord64 "5".toList 5 := Numeral.word64?_eq_some_iff.mp (by decide)
  have hseven : Numeral.IsWord64 "+7".toList 7 := Numeral.word64?_eq_some_iff.mp (by decide)
  let five : OptionGroup := .number .frequency ⟨"5", 5, hfive⟩
  let seven : OptionGroup := .number .frequency ⟨"+7", 7, hseven⟩
  let file : OptionGroup := .config "--wrap"
  obtain ⟨hrun, -, -, hreorder, hinsert⟩ := arguments_follow_grammar
  refine ⟨(hrun _ _).mpr ⟨"maze", [five, file, seven], rfl, rfl⟩, ?_, ?_⟩
  · exact hinsert "maze" [] five [file, seven] ⟨seven, .tail _ (.head _), rfl⟩
  · refine hreorder "maze" [file, seven] [seven, file] fun k => ?_
    cases k with
    | number option => cases option <;> rfl
    | _ => rfl

end Command

end Chip8
