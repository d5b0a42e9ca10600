import PhpLint.Config.Load
import PhpLint.Proofs.Config.Settings

/-!
The layers of a configuration: the project file, the environment and the definitions of the command
line are one sequence of writes, so that a later layer overrides an earlier one field by field.
-/
namespace PhpLint

open Settings (IsValid Means latest?)

/-- The writes that an entry of a project file asks for; what is no section asks for none. -/
def Toml.Table.sectionWrites (entry : String × Toml.Value) : List (String × Toml.Value) :=
  match entry.2 with
  | .table entries => entries.map fun (name, v) => (entry.1 ++ "." ++ name, v)
  | _ => []

/-- The writes that a project file asks for. -/
def Toml.Table.writes (table : Toml.Table) : List (String × Toml.Value) :=
  table.flatMap sectionWrites

/-- Whether every entry of a project file is a section. -/
def Toml.Table.IsSectioned (table : Toml.Table) : Prop :=
  ∀ entry ∈ table, ∃ entries, entry.2 = .table entries

namespace Settings

variable {s after : Settings} {table : Toml.Table}

/-- A project file is applied if it has nothing but sections, and its writes can be made. -/
theorem apply_eq_none : s.apply table = (after, none) ↔
    table.IsSectioned ∧ s.writeAll table.writes = .ok after := by
  induction table generalizing s with
  | nil =>
    refine ⟨fun h => ⟨nofun, ?_⟩, fun ⟨_, h⟩ => ?_⟩
    · exact congrArg Except.ok (Prod.mk.inj h).1
    · exact congrArg (·, none) (Except.ok.inj h)
  | cons entry sections ih =>
    obtain ⟨name, v⟩ := entry
    cases v with
    | table entries =>
      have hsectioned : Toml.Table.IsSectioned ((name, .table entries) :: sections) ↔
          Toml.Table.IsSectioned sections :=
        ⟨fun h => (List.forall_mem_cons.mp h).2,
          fun h => List.forall_mem_cons.mpr ⟨⟨entries, rfl⟩, h⟩⟩
      have hwrites : Toml.Table.writes ((name, .table entries) :: sections) =
          Toml.Table.sectionWrites (name, .table entries) ++ Toml.Table.writes sections :=
        List.flatMap_cons
      rw [hsectioned, hwrites, writeAll_append, except_bind_eq_ok]
      simp only [← setAll_eq_none (s := s)]
      rcases hset : s.setAll (Toml.Table.sectionWrites (name, .table entries)) with ⟨next, _ | e⟩
      · have happly : s.apply ((name, .table entries) :: sections) = next.apply sections := by
          unfold Toml.Table.sectionWrites at hset
          dsimp only at hset
          rw [apply, hset]
        simp [happly, ih]
      · have happly : s.apply ((name, .table entries) :: sections) = (next, some e) := by
          unfold Toml.Table.sectionWrites at hset
          dsimp only at hset
          rw [apply, hset]
        simp [happly]
    | _ =>
      refine iff_of_false (fun h => ?_) fun ⟨h, _⟩ => ?_
      · exact absurd (Prod.mk.inj h).2 nofun
      · obtain ⟨entries, hentries⟩ := (List.forall_mem_cons.mp h).1
        exact Toml.Value.noConfusion hentries

end Settings

namespace ConfigSources

/-- What the environment asks for. -/
def environmentWrites (s : ConfigSources) : List (String × Toml.Value) :=
  (s.envReportLevel.map fun level => (SettingKey.reportLevel.text, .string level)).toList

/-- What the command line asks for. -/
def definedWrites (s : ConfigSources) : List (String × Toml.Value) :=
  s.defines.map fun (key, value) => (key, .string value)

/-- All that is asked for, with the last word at the end. -/
def writes (s : ConfigSources) (table : Toml.Table) : List (String × Toml.Value) :=
  table.writes ++ s.environmentWrites ++ s.definedWrites

/-- The content of a project file, if there is one. -/
def readTable (t : FileTree) : Option String → Except ConfigError Toml.Table
  | none => .ok []
  | some path => readFile t path

variable {s : ConfigSources} {t : FileTree} {file : Option String} {table : Toml.Table}

/-- The last word on a key: the last definition of it, else for the report level what the
environment says, else what the project file says. -/
def written? (s : ConfigSources) (table : Toml.Table) (key : SettingKey) : Option Toml.Value :=
  ((s.defines.reverse.lookup key.text).map .string).or
    ((if key = .reportLevel then s.envReportLevel.map .string else none).or
      (latest? table.writes key))

theorem latest?_append (writes writes' : List (String × Toml.Value)) (key : SettingKey) :
    latest? (writes ++ writes') key = (latest? writes' key).or (latest? writes key) := by
  unfold latest?
  rw [List.reverse_append, List.lookup_append]

theorem latest?_definedWrites (s : ConfigSources) (key : SettingKey) :
    latest? s.definedWrites key = (s.defines.reverse.lookup key.text).map .string := by
  unfold latest? definedWrites
  rw [← List.map_reverse]
  induction s.defines.reverse with
  | nil => rfl
  | cons define defines ih =>
    rw [List.map_cons, List.lookup_cons, List.lookup_cons, ih]
    cases key.text == define.1 <;> rfl

theorem latest?_environmentWrites (s : ConfigSources) (key : SettingKey) :
    latest? s.environmentWrites key =
      if key = .reportLevel then s.envReportLevel.map .string else none := by
  have htext : key.text = SettingKey.reportLevel.text ↔ key = .reportLevel := by
    rw [← SettingKey.ofText?_eq_some_iff, SettingKey.ofText?_text, Option.some_inj, eq_comm]
  unfold latest? environmentWrites
  cases s.envReportLevel with
  | none => simp
  | some level =>
    rw [Option.map_some, Option.toList_some, List.reverse_singleton, List.lookup_cons]
    split_ifs with hkey
    · rw [beq_iff_eq.mpr (htext.mpr hkey)]
      rfl
    · rw [beq_false_of_ne (htext.not.mpr hkey)]
      rfl

/-- The last write of all layers is the last word on its key. -/
theorem latest?_writes (s : ConfigSources) (table : Toml.Table) (key : SettingKey) :
    latest? (s.writes table) key = s.written? table key := by
  unfold writes written?
  rw [latest?_append, latest?_append, latest?_definedWrites, latest?_environmentWrites]

/-! ### Loading -/

theorem applyFile_eq_ok (htable : readTable t file = .ok table) {before after : Settings} :
    applyFile t file before = .ok after ↔ before.apply table = (after, none) := by
  cases file with
  | none =>
    obtain rfl : [] = table := Except.ok.inj htable
    simp [applyFile, Settings.apply]
  | some path =>
    have hread : readFile t path = .ok table := htable
    unfold applyFile
    dsimp only
    rw [hread]
    simp only [bind, Except.bind]
    rcases before.apply table with ⟨next, _ | e⟩
    · simp
    · simp

theorem writeAll_environmentWrites (s : ConfigSources) (before : Settings) :
    before.writeAll s.environmentWrites = match s.envReportLevel with
      | some level => before.setText SettingKey.reportLevel.text level
      | none => .ok before := by
  unfold environmentWrites
  cases s.envReportLevel with
  | none => rfl
  | some level =>
    change (before.set _ _ >>= fun after => pure after) = _
    rw [bind_pure]
    rfl

theorem writeAll_definedWrites (s : ConfigSources) (before : Settings) :
    before.writeAll s.definedWrites =
      s.defines.foldlM (fun settings (key, value) => settings.setText key value) before := by
  unfold Settings.writeAll definedWrites
  rw [List.foldlM_map]
  rfl

/-- A configuration is loaded by making the writes of all layers to the defaults. -/
theorem load_eq_ok (hfile : s.chooseFile t = .ok file) (htable : readTable t file = .ok table)
    {c : LoadedConfig} : s.load t = .ok c ↔
      table.IsSectioned ∧ Settings.default.writeAll (s.writes table) = .ok c.settings ∧
        c.file = file ∧ c.root = (file.map rootOf).getD s.startDirectory := by
  have hload : s.load t = applyFile t file .default >>= fun settings =>
      settings.writeAll s.environmentWrites >>= fun settings =>
        settings.writeAll s.definedWrites >>= fun settings =>
          pure ⟨settings, file, (file.map rootOf).getD s.startDirectory⟩ := by
    unfold load
    rw [hfile]
    simp only [writeAll_environmentWrites, writeAll_definedWrites]
    cases s.envReportLevel <;> rfl
  rw [hload, writes, Settings.writeAll_append, Settings.writeAll_append]
  simp only [except_bind_eq_ok, except_pure_eq_ok, applyFile_eq_ok htable, Settings.apply_eq_none]
  obtain ⟨settings, file', root⟩ := c
  simp only [LoadedConfig.mk.injEq]
  constructor
  · rintro ⟨first, ⟨hsectioned, hfirst⟩, second, hsecond, third, hthird, rfl, rfl, rfl⟩
    exact ⟨hsectioned, ⟨second, ⟨first, hfirst, hsecond⟩, hthird⟩, rfl, rfl⟩
  · rintro ⟨hsectioned, ⟨second, ⟨first, hfirst, hsecond⟩, hthird⟩, rfl, rfl⟩
    exact ⟨first, ⟨hsectioned, hfirst⟩, second, hsecond, settings, hthird, rfl, rfl, rfl⟩

/--
A write fails on any settings in the same way, and leaves them as they are, or it puts what its
value means in the field of its key and changes no other field. So a configuration is loaded exactly
if the project file has nothing but sections and every write of every layer can be made on its own,
and then each field holds the last word on its key: a value that is overridden has to be valid too.
-/
theorem load_takes_last_word :
    (∀ (key : String) (v : Toml.Value),
      (∃ e, ∀ s : Settings, s.set key v = .error e ∧ s.setAll [(key, v)] = (s, some e)) ∨
        IsValid (key, v)) ∧
    ∀ (s : ConfigSources) (t : FileTree) (file : Option String) (table : Toml.Table),
      s.chooseFile t = .ok file → readTable t file = .ok table →
        ((∃ c, s.load t = .ok c) ↔
          table.IsSectioned ∧ ∀ write ∈ s.writes table, IsValid write) ∧
        ∀ c, s.load t = .ok c → ∀ key,
          (∀ v, s.written? table key = some v → Means key v (c.settings.get key)) ∧
            (s.written? table key = none → c.settings.get key = Settings.default.get key) := by
  refine ⟨fun key v => ?_, fun s t file table hfile htable => ⟨?_, fun c hc key => ?_⟩⟩
  · rcases Settings.fails_or_isValid key v with ⟨e, he⟩ | hvalid
    · exact Or.inl ⟨e, fun s => ⟨he s, Settings.setAll_cons_of_error (he s) []⟩⟩
    · exact Or.inr hvalid
  · rw [← Settings.exists_writeAll_iff Settings.default]
    constructor
    · rintro ⟨c, hc⟩
      obtain ⟨hsectioned, hwrites, _⟩ := (load_eq_ok hfile htable).mp hc
      exact ⟨hsectioned, c.settings, hwrites⟩
    · rintro ⟨hsectioned, settings, hwrites⟩
      exact ⟨⟨settings, file, (file.map rootOf).getD s.startDirectory⟩,
        (load_eq_ok hfile htable).mpr ⟨hsectioned, hwrites, rfl, rfl⟩⟩
  · obtain ⟨_, hwrites, _⟩ := (load_eq_ok hfile htable).mp hc
    rw [← latest?_writes]
    exact Settings.get_writeAll hwrites key

/-- A project with a project file. -/
def exampleTree : FileTree where
  nodes := [(["p"], .directory), (["p", ".xref"], .directory), (["p", ".xref", "xref.toml"],
    .file "[lint]\ncolor = \"off\"\nreport-level = \"error\"\n".toUTF8 0)]
  workingDirectory := ["p"]
  now := 0

/-- A run in it that overrides the project file twice. -/
def exampleSources : ConfigSources where
  configPath := none
  envConfigPath := none
  envReportLevel := some "notice"
  defines := [("lint.color", "auto"), ("lint.color", "on")]
  startDirectory := "/p"

/-- The last definition of a colour, and a level of the environment instead of the file's. -/
theorem load_takes_last_word_three_layers :
    ∃ table c,
      exampleSources.chooseFile exampleTree = .ok (some "/p/.xref/xref.toml") ∧
      readTable exampleTree (some "/p/.xref/xref.toml") = .ok table ∧
      table.writes.map (fun w => (w.1, w.2.asText?)) =
        [("lint.color", some "off"), ("lint.report-level", some "error")] ∧
      exampleSources.load exampleTree = .ok c ∧
      c.settings.color = .on ∧ c.settings.reportLevel = .notice ∧ c.settings.storage = .file := by
  have hfile : exampleSources.chooseFile exampleTree = .ok (some "/p/.xref/xref.toml") := by
    decide +kernel
  have hwrites : (readTable exampleTree (some "/p/.xref/xref.toml")).toOption.map
      (fun table => table.writes.map fun w => (w.1, w.2.asText?)) =
        some [("lint.color", some "off"), ("lint.report-level", some "error")] := by
    decide +kernel
  have hloads : (exampleSources.load exampleTree).toBool := by decide +kernel
  cases htable : readTable exampleTree (some "/p/.xref/xref.toml") with
  | error e =>
    rw [htable] at hwrites
    contradiction
  | ok table =>
    rw [htable] at hwrites
    have hwrites : table.writes.map (fun w => (w.1, w.2.asText?)) =
        [("lint.color", some "off"), ("lint.report-level", some "error")] :=
      Option.some.inj hwrites
    cases hc : exampleSources.load exampleTree with
    | error e =>
      rw [hc] at hloads
      contradiction
    | ok c =>
      have hlast := (load_takes_last_word.2 _ _ _ _ hfile htable).2 c hc
      refine ⟨table, c, hfile, rfl, hwrites, rfl, ?_, ?_, ?_⟩
      · obtain ⟨after, hset, hget, _⟩ := (hlast .color).1 (.string "on") rfl .default
        cases hset
        exact hget.symm
      · obtain ⟨after, hset, hget, _⟩ := (hlast .reportLevel).1 (.string "notice") rfl .default
        cases hset
        exact hget.symm
      · refine (hlast .storage).2 ?_
        have hkeys : table.writes.map Prod.fst = ["lint.color", "lint.report-level"] := by
          have hfst := congrArg (List.map Prod.fst) hwrites
          rwa [List.map_map] at hfst
        refine List.lookup_eq_none_iff.mpr fun write hwrite => ?_
        have hkey : write.1 ∈ ["lint.color", "lint.report-level"] :=
          hkeys ▸ List.mem_map_of_mem (List.mem_reverse.mp hwrite)
        exact bne_iff_ne.mpr (ne_of_mem_of_not_mem hkey (by decide)).symm

end ConfigSources

end PhpLint
