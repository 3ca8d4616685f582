import Chip8.Proofs.Command.Grammar
import Chip8.Proofs.Machine.Loading
import Chip8.Proofs.Session.Schedule

/-!
The settings of a run in layers. Each setting has the value of the last option for it, else that of
its field in the config file, else its default, whatever the order of options and fields.
-/

namespace Chip8

namespace Document

variable {d : Document} {n : Nat}

theorem lt_of_word64? (h : d.word64? = some n) : n < UInt64.size := by
  have hlt {k : Nat} (hk : (if k < UInt64.size then some k else none) = some n) :
      n < UInt64.size := by
    obtain ⟨hlt, hn⟩ := Option.ite_none_right_eq_some.mp hk
    exact Option.some.inj hn ▸ hlt
  unfold word64? at h
  split at h
  case h_1 => exact hlt h
  case h_2 => exact hlt h
  case h_3 => cases h

theorem lt_of_optionalWord64? (h : d.optionalWord64? = some (some n)) : n < UInt64.size := by
  have hword {d : Document} (hd : d.word64?.map some = some (some n)) : n < UInt64.size := by
    obtain ⟨k, hk, hkn⟩ := Option.map_eq_some_iff.mp hd
    exact Option.some.inj hkn ▸ lt_of_word64? hk
  unfold optionalWord64? at h
  split at h
  case h_1 => cases h
  case h_2 =>
    split at h
    case isTrue => split at h <;> cases h
    case isFalse => exact hword h
  case h_3 => exact hword h

end Document

namespace Settings

variable {α : Type} {fields fields' : List (String × Document)} {name : String} {default a : α}
  {read? : Document → Option α} {format : Document.Format} {s : Settings}

/-- The value that a field holds, if it is there. -/
def value? (fields : List (String × Document)) (name : String) (read? : Document → Option α) :
    Option α :=
  (fields.find? fun f => f.1 == name).bind fun f => read? f.2

/-- Whether a field is there once at most and its value can be read. -/
structure Admits (fields : List (String × Document)) (name : String)
    (read? : Document → Option α) : Prop where
  once : (fields.filter fun f => f.1 == name).length ≤ 1
  read : ∀ d, (name, d) ∈ fields → (read? d).isSome

theorem admits_iff : Admits fields name read? ↔
    (fields.filter fun f => f.1 == name).length ≤ 1 ∧
      ∀ f ∈ fields.filter fun f => f.1 == name, (read? f.2).isSome := by
  constructor
  · intro h
    refine ⟨h.once, fun f hf => ?_⟩
    obtain ⟨hmem, hname⟩ := List.mem_filter.mp hf
    exact h.read f.2 (by rw [← eq_of_beq hname]; exact hmem)
  · rintro ⟨honce, hread⟩
    exact ⟨honce, fun d hd => hread _ (List.mem_filter.mpr ⟨hd, beq_self_eq_true name⟩)⟩

theorem field_eq_ok_iff : field fields name default read? = .ok a ↔
    Admits fields name read? ∧ a = (value? fields name read?).getD default := by
  rw [field, value?, ← List.head?_filter, admits_iff]
  generalize (fields.filter fun f => f.1 == name) = found
  rcases found with _ | ⟨⟨key, d⟩, _ | ⟨g, rest⟩⟩
  · simpa using eq_comm
  · cases hr : read? d with
    | none => simp [hr]
    | some b => simpa [hr] using eq_comm
  · simp

theorem field_of_repeated (h : 1 < (fields.filter fun f => f.1 == name).length) :
    field fields name default read? = .error (.repeatedField name) := by
  rw [field]
  split
  case h_1 hnil =>
    rw [hnil] at h
    exact absurd h (Nat.not_lt_zero 1)
  case h_2 hone =>
    rw [hone] at h
    exact absurd h (Nat.lt_irrefl 1)
  case h_3 => rfl

theorem field_perm (h : fields.Perm fields') :
    field fields name default read? = field fields' name default read? := by
  have hp := h.filter fun f => f.1 == name
  rcases hf : fields.filter fun f => f.1 == name with _ | ⟨f, _ | ⟨g, rest⟩⟩
  · rw [hf] at hp
    rw [field, field, hf, ← hp.nil_eq]
  · rw [hf] at hp
    rw [field, field, hf, ← List.singleton_perm.mp hp]
  · have hlen : 1 < (fields.filter fun f => f.1 == name).length := by
      rw [hf]
      exact Nat.succ_lt_succ (Nat.succ_pos _)
    rw [field_of_repeated hlen, field_of_repeated (hp.length_eq ▸ hlen)]

/-- Fields of which each that is known is there once at most and can be read. -/
structure WellFormed (format : Document.Format) (fields : List (String × Document)) : Prop where
  frequency : Admits fields "clock_frequency" Document.optionalWord64?
  size : Admits fields "display_size" size?
  placement : Admits fields "draw_mode" (placement? format)
  seed : Admits fields "rng_seed" Document.optionalWord64?

/-- The settings that fields come to, with the defaults for those that are not there. -/
def ofValues (format : Document.Format) (fields : List (String × Document)) : Settings where
  frequency := (value? fields "clock_frequency" Document.optionalWord64?).getD none
  width := ((value? fields "display_size" size?).getD (64, 32)).1
  height := ((value? fields "display_size" size?).getD (64, 32)).2
  placement := (value? fields "draw_mode" (placement? format)).getD .linear
  seed := ((value? fields "rng_seed" Document.optionalWord64?).getD none).map UInt64.ofNat

private theorem bind_eq_ok_iff {ε α β : Type} {x : Except ε α} {f : α → Except ε β} {b : β} :
    (x >>= f) = .ok b ↔ ∃ a, x = .ok a ∧ f a = .ok b := by
  cases x with
  | error e => exact ⟨nofun, fun ⟨a, h, _⟩ => nomatch h⟩
  | ok a => simp [bind, Except.bind]

theorem ofFields_eq_ok_iff :
    ofFields format fields = .ok s ↔ WellFormed format fields ∧ s = ofValues format fields := by
  simp only [ofFields, bind_eq_ok_iff, field_eq_ok_iff, Except.ok.injEq]
  constructor
  · rintro ⟨_, ⟨hf, rfl⟩, ⟨_, _⟩, ⟨hs, hsize⟩, _, ⟨hp, rfl⟩, _, ⟨hr, rfl⟩, rfl⟩
    refine ⟨⟨hf, hs, hp, hr⟩, ?_⟩
    rw [ofValues, ← hsize]
  · rintro ⟨h, rfl⟩
    exact ⟨_, ⟨h.frequency, rfl⟩, _, ⟨h.size, rfl⟩, _, ⟨h.placement, rfl⟩, _, ⟨h.seed, rfl⟩, rfl⟩

theorem ofFields_perm (h : fields.Perm fields') :
    ofFields format fields = ofFields format fields' := by
  unfold ofFields
  simp only [field_perm h]

theorem lt_of_value? {n : Nat}
    (h : value? fields name Document.optionalWord64? = some (some n)) : n < UInt64.size := by
  obtain ⟨f, -, hf⟩ := Option.bind_eq_some_iff.mp h
  exact Document.lt_of_optionalWord64? hf

end Settings

namespace RunOptions

open OptionGroup

variable {o : RunOptions} {files : Files} {fields : List (String × Document)} {s : Settings}

/-- Whether a run finds the given fields in its config file. Without a file it finds none. -/
def Finds (o : RunOptions) (files : Files) (fields : List (String × Document)) : Prop :=
  match o.config with
  | none => fields = []
  | some name => ∃ bytes, files name = .ok bytes ∧
      (String.fromUTF8? ⟨bytes.toArray⟩).bind (Document.ofText? Settings.depth) =
        some (.record fields)

theorem settings_eq_ok_iff_ofFields (h : o.Finds files fields) : o.settings files = .ok s ↔
    ∃ read, Settings.ofFields .text fields = .ok read ∧ s = o.override read := by
  unfold settings
  rw [Finds] at h
  cases hc : o.config with
  | none =>
    rw [hc] at h
    have hempty : Settings.ofFields .text [] = .ok {} := rfl
    rw [h, hempty]
    simp [eq_comm]
  | some name =>
    rw [hc] at h
    obtain ⟨bytes, hfile, hdoc⟩ := h
    simp only [hfile, Settings.ofBytes, hdoc, Settings.ofDocument]
    cases Settings.ofFields .text fields with
    | error problem => exact ⟨nofun, fun ⟨_, hok, _⟩ => nomatch hok⟩
    | ok read => simp [eq_comm]

theorem settings_eq_ok_iff (h : o.Finds files fields) : o.settings files = .ok s ↔
    Settings.WellFormed .text fields ∧ s = o.override (.ofValues .text fields) := by
  simp only [settings_eq_ok_iff_ofFields h, Settings.ofFields_eq_ok_iff]
  exact ⟨fun ⟨_, ⟨hw, hr⟩, hs⟩ => ⟨hw, hr ▸ hs⟩, fun ⟨hw, hs⟩ => ⟨_, ⟨hw, rfl⟩, hs⟩⟩

theorem settings_perm {files' : Files} {fields' : List (String × Document)}
    (h : o.Finds files fields) (h' : o.Finds files' fields') (hp : fields.Perm fields') :
    o.settings files' = .ok s ↔ o.settings files = .ok s := by
  rw [settings_eq_ok_iff_ofFields h, settings_eq_ok_iff_ofFields h', Settings.ofFields_perm hp]

end RunOptions

namespace Settings

open OptionGroup

variable {fields : List (String × Document)} {gs : List OptionGroup} {s : Settings}
  {program : String}

/-- Whether each setting is that of the last option for it, else that of its field, else the
default. There is no option for the size. -/
structure Layered (gs : List OptionGroup) (fields : List (String × Document)) (s : Settings) :
    Prop where
  frequency_eq : s.frequency =
    ((((last? (.number .frequency) gs).bind number?).map some).or
      (value? fields "clock_frequency" Document.optionalWord64?)).getD none
  seed_eq : s.seed.map UInt64.toNat =
    ((((last? (.number .seed) gs).bind number?).map some).or
      (value? fields "rng_seed" Document.optionalWord64?)).getD none
  placement_eq : s.placement =
    (((last? .wrap gs).map fun _ => Placement.wrap).or
      (value? fields "draw_mode" (placement? .text))).getD .linear
  size_eq : (s.width, s.height) = (value? fields "display_size" size?).getD (64, 32)

theorem orElse_getD_none {α : Type} (option : Option α) (field : Option (Option α)) :
    (option <|> field.getD none) = ((option.map some).or field).getD none := by
  cases option <;> rfl

theorem map_toNat_orElse {option field : Option Nat} (ho : ∀ n ∈ option, n < UInt64.size)
    (hf : ∀ n ∈ field, n < UInt64.size) :
    (option.map UInt64.ofNat <|> field.map UInt64.ofNat).map UInt64.toNat =
      (option <|> field) := by
  cases option with
  | some n => exact congrArg some (UInt64.toNat_ofNat_of_lt (ho n rfl))
  | none =>
    cases field with
    | some n => exact congrArg some (UInt64.toNat_ofNat_of_lt (hf n rfl))
    | none => rfl

theorem layered_override (program : String) (gs : List OptionGroup)
    (fields : List (String × Document)) :
    Layered gs fields ((RunOptions.ofGroups program gs).override (ofValues .text fields)) where
  frequency_eq := orElse_getD_none ..
  seed_eq := by
    have hoption : ∀ n ∈ (last? (.number .seed) gs).bind number?, n < UInt64.size := by
      intro n hn
      obtain ⟨g, -, hg⟩ := Option.bind_eq_some_iff.mp hn
      cases g with
      | number option arg => exact Option.some.inj hg ▸ arg.isWord64.lt
      | _ => cases hg
    have hfield : ∀ n ∈ (value? fields "rng_seed" Document.optionalWord64?).getD none,
        n < UInt64.size := by
      intro n hn
      cases hv : value? fields "rng_seed" Document.optionalWord64? with
      | none =>
        rw [hv] at hn
        cases hn
      | some v =>
        rw [hv] at hn
        exact lt_of_value? (hv.trans (congrArg some hn))
    exact (map_toNat_orElse hoption hfield).trans (orElse_getD_none ..)
  placement_eq := by
    simp only [RunOptions.override, RunOptions.ofGroups, ← isSome_last?]
    cases last? .wrap gs <;> rfl
  size_eq := rfl

end Settings

theorem Session.start_eq_ok_iff {o : RunOptions} {files : Files} {s : Settings}
    (hs : o.settings files = .ok s) {entropy : Generator} {session : Session} :
    start o files entropy = .ok session ↔
      Screen.isAllowedSize s.width s.height = true ∧ ∃ p, files o.program = .ok p ∧
        p.length ≤ 3584 ∧
        session = { machine := .ready s p ((s.seed.map Generator.ofSeed).getD entropy)
                    limit := o.steps } := by
  simp only [start, hs]
  cases files o.program with
  | error problem => simp
  | ok p =>
    cases hc : Machine.create s entropy with
    | error cause =>
      have hsize : ¬ Screen.isAllowedSize s.width s.height = true := by
        intro h
        obtain ⟨blank, hb⟩ := Machine.exists_create h entropy
        rw [hc] at hb
        cases hb
      simp [hsize]
    | ok blank =>
      obtain ⟨hsize, hblank⟩ := Machine.create_eq_ok_iff.mp hc
      have hg : blank.generator = (s.seed.map Generator.ofSeed).getD entropy := by
        rw [hblank]
        rfl
      by_cases hp : p.length ≤ 3584
      · simp [Machine.load_of_le (Machine.Invariant.create hc) hp, hg, hsize, hp, eq_comm]
      · simp [blank.load_of_lt (Nat.lt_of_not_le hp), hp]

/-- Whether a session runs by the given settings: its machine has them, the clock of its
instructions has their frequency or the standard one, and it goes on by the ticks that this clock
and that of the timers give, whenever they are polled. -/
structure Session.RunsBy (session : Session) (s : Settings) : Prop where
  settings_eq : session.machine.settings = s
  frequency_eq : session.machine.settings.effectiveFrequency = s.frequency.getD 700
  clocks_eq : ∀ stepsNow timersNow, PacedSession.ofSession session stepsNow timersNow =
    { session
      steps := .ofFrequency (s.frequency.getD 700) stepsNow
      timers := .ofFrequency 60 timersNow }
  turns_eq : ∀ stepsNow timersNow (times : List (Int × Int)),
    ((PacedSession.ofSession session stepsNow timersNow).turns times).session =
      session.fed
        (((Clock.ofFrequency 60 timersNow).ticks (times.map fun now => .poll now.1)).zip
          ((Clock.ofFrequency (s.frequency.getD 700) stepsNow).ticks
            (times.map fun now => .poll now.2)))

theorem Session.RunsBy.of_settings_eq {session : Session} {s : Settings}
    (h : session.machine.settings = s) : session.RunsBy s := by
  subst h
  exact ⟨rfl, rfl, fun _ _ => rfl, fun stepsNow timersNow times =>
    (PacedSession.ofSession session stepsNow timersNow).session_turns times⟩

namespace Command

open OptionGroup

variable {args : List String} {o : RunOptions}

/-- A run that is asked for finds its settings exactly if each known field of its config file is
there once at most and can be read. They are those of the last options, then of the fields, then
the defaults. The machine is given these settings and the clock of its instructions their
frequency, or the standard one, so the session goes on by the ticks that a clock of this frequency
gives. Neither the order of options of different kinds nor that of the fields matters. -/
theorem settings_come_in_layers (ha : ofArguments? args = some (.run o)) :
    (∃ program gs, args = runArguments program gs) ∧
    ∀ program gs, args = runArguments program gs →
      o.config = (last? .config gs).bind file? ∧
      (∀ hs, AgreeByKind gs hs → ofArguments? (runArguments program hs) = some (.run o)) ∧
      ∀ files fields, o.Finds files fields →
        ((∃ s, o.settings files = .ok s) ↔ Settings.WellFormed .text fields) ∧
        ∀ s, o.settings files = .ok s →
          Settings.Layered gs fields s ∧
          (∀ files' fields', o.Finds files' fields' → fields.Perm fields' →
            o.settings files' = .ok s) ∧
          ∀ entropy,
            ((∃ session, Session.start o files entropy = .ok session) ↔
              Screen.isAllowedSize s.width s.height = true ∧
                ∃ p, files program = .ok p ∧ p.length ≤ 3584) ∧
            ∀ session, Session.start o files entropy = .ok session →
              session.RunsBy s := by
  obtain ⟨program, gs, hargs, -⟩ := ofArguments?_eq_run_iff.mp ha
  refine ⟨⟨program, gs, hargs⟩, fun program gs hargs => ?_⟩
  rw [hargs, ofArguments?_runArguments] at ha
  obtain rfl := Command.run.inj (Option.some.inj ha)
  refine ⟨rfl, fun hs h => ?_, fun files fields hf => ⟨?_, fun s hs => ?_⟩⟩
  · rw [ofArguments?_runArguments, RunOptions.ofGroups_congr program h.last?_eq]
  · simp only [RunOptions.settings_eq_ok_iff hf]
    exact ⟨fun ⟨_, hw, _⟩ => hw, fun hw => ⟨_, hw, rfl⟩⟩
  · obtain ⟨-, hvalues⟩ := (RunOptions.settings_eq_ok_iff hf).mp hs
    refine ⟨hvalues ▸ Settings.layered_override program gs fields, fun files' fields' hf' hp =>
      (RunOptions.settings_perm hf hf' hp).mpr hs, fun entropy => ⟨?_, fun session hsession => ?_⟩⟩
    · simp only [Session.start_eq_ok_iff hs]
      exact ⟨fun ⟨_, hsize, p, hp, hlen, _⟩ => ⟨hsize, p, hp, hlen⟩,
        fun ⟨hsize, p, hp, hlen⟩ => ⟨_, hsize, p, hp, hlen, rfl⟩⟩
    · obtain ⟨-, p, -, -, rfl⟩ := (Session.start_eq_ok_iff hs).mp hsession
      exact .of_settings_eq rfl

/-- A file that sets the seed and a rate, under options that set another rate twice and wrapping;
then the options in another order and the fields too. -/
theorem settings_come_in_layers_over_file :
    ∃ o, ∃ files files' : Files, ∃ session,
      ofArguments? ["run", "rom", "--hz", "5", "--wrap", "--config", "conf", "--hz", "9"] =
        some (.run o) ∧
      ofArguments? ["run", "rom", "--config", "conf", "--hz", "5", "--hz", "9", "--wrap"] =
        some (.run o) ∧
      files "conf" = .ok "rng_seed: 7\nclock_frequency: 3".toUTF8.data.toList ∧
      files' "conf" = .ok "clock_frequency: 3\nrng_seed: 7".toUTF8.data.toList ∧
      o.settings files' = .ok { frequency := some 9, placement := .wrap, seed := some 7 } ∧
      Session.start o files (.ofSeed 0) = .ok session ∧
      session.machine.settings = { frequency := some 9, placement := .wrap, seed := some 7 } ∧
      session.machine.settings.effectiveFrequency = 9 ∧
      (PacedSession.ofSession session 0 0).steps = ⟨111111111, 0, 16⟩ ∧
      ((PacedSession.ofSession session 0 0).turns
        [(20000000, 20000000), (250000000, 250000000)]).session =
          session.fed [(1, 0), (14, 2)] := by
  have hfive : Numeral.IsWord64 "5".toList 5 := Numeral.word64?_eq_some_iff.mp (by decide)
  have hnine : Numeral.IsWord64 "9".toList 9 := Numeral.word64?_eq_some_iff.mp (by decide)
  let five : OptionGroup := .number .frequency ⟨"5", 5, hfive⟩
  let nine : OptionGroup := .number .frequency ⟨"9", 9, hnine⟩
  let o : RunOptions :=
    { program := "rom", config := some "conf", frequency := some 9, wrap := true }
  let files (conf : String) : Files := fun name =>
    if name = "conf" then .ok conf.toUTF8.data.toList else .ok [0x12, 0x00]
  have hfinds (conf : String) (fields : List (String × Document))
      (h : Document.ofText? Settings.depth conf = some (.record fields)) :
      o.Finds (files conf) fields := by
    have hutf8 : String.fromUTF8? ⟨conf.toUTF8.data.toList.toArray⟩ = some conf := by
      rw [Array.toArray_toList]
      exact dif_pos conf.isValidUTF8
    exact ⟨_, if_pos rfl, by rw [hutf8, Option.bind_some, h]⟩
  have hf := hfinds "rng_seed: 7\nclock_frequency: 3"
    [("rng_seed", .natural 7), ("clock_frequency", .natural 3)] rfl
  have hf' := hfinds "clock_frequency: 3\nrng_seed: 7"
    [("clock_frequency", .natural 3), ("rng_seed", .natural 7)] rfl
  have hs : o.settings (files "rng_seed: 7\nclock_frequency: 3") =
      .ok { frequency := some 9, placement := .wrap, seed := some 7 } :=
    (RunOptions.settings_eq_ok_iff_ofFields hf).mpr ⟨_, rfl, rfl⟩
  have ha : ofArguments?
      ["run", "rom", "--hz", "5", "--wrap", "--config", "conf", "--hz", "9"] = some (.run o) := by
    decide
  obtain ⟨-, hlayers⟩ := settings_come_in_layers ha
  obtain ⟨-, hreorder, hfiles⟩ := hlayers "rom" [five, .wrap, .config "conf", nine] rfl
  obtain ⟨-, hvalues⟩ := hfiles _ _ hf
  obtain ⟨-, hperm, hstart⟩ := hvalues _ hs
  obtain ⟨hready, hmachine⟩ := hstart (.ofSeed 0)
  obtain ⟨session, hsession⟩ := hready.mpr ⟨rfl, _, rfl, by decide⟩
  obtain ⟨hsettings, hrate, hclocks, hturns⟩ := hmachine session hsession
  refine ⟨o, _, _, session, ha, hreorder [.config "conf", five, nine, .wrap] fun k => ?_,
    if_pos rfl, if_pos rfl, hperm _ _ hf' (.swap ..), hsession, hsettings, hrate, ?_, hturns _ _ _⟩
  · cases k with
    | number option => cases option <;> rfl
    | _ => rfl
  · rw [hclocks]
    rfl

end Command

end Chip8
