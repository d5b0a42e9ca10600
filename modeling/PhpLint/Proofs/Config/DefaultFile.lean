import PhpLint.Proofs.Config.Layers
import PhpLint.Proofs.Config.Scalar
import PhpLint.Proofs.Toml.Sections

/-!
A new project file. It is read as what it spells, whatever characters the name of the project has,
and beside the name and the directory of the sources it spells the defaults.
-/
namespace PhpLint

open Toml

/-! ### Writes of what is known beforehand -/

namespace Settings

variable {s after : Settings} {key : SettingKey} {v : Toml.Value}
  {writes : List (String × Toml.Value)}

theorem ext_get {a b : Settings} (h : ∀ key, a.get key = b.get key) : a = b := by
  cases a
  cases b
  rw [mk.injEq]
  exact ⟨h .projectName, h .sourceDirectories, h .excludedPaths, h .dataDirectory, h .projectCheck,
    h .storage, h .reportLevel, h .ignoredErrors, h .ignoredClasses, h .color, h .gitDirectory,
    h .gitTimeout, h .sourceControl⟩

theorem set_of_meaning? {a : key.Field} (h : key.meaning? v = some a) (s : Settings) :
    s.set key.text v = .ok (s.put key a) := by
  have hset := toOption_set s key v
  rw [h, Option.map_some] at hset
  cases hresult : s.set key.text v with
  | error e =>
    rw [hresult] at hset
    contradiction
  | ok after =>
    rw [hresult] at hset
    exact congrArg Except.ok (Option.some.inj hset)

/-- A write of what the settings hold. -/
def Spells (s : Settings) (write : String × Toml.Value) : Prop :=
  ∃ key : SettingKey, key.text = write.1 ∧ key.meaning? write.2 = some (s.get key)

theorem spells_text : s.Spells (key.text, v) ↔ key.meaning? v = some (s.get key) := by
  constructor
  · rintro ⟨own, hown, hmeaning⟩
    obtain rfl := SettingKey.text_injective hown
    exact hmeaning
  · exact fun hmeaning => ⟨key, rfl, hmeaning⟩

/-- Writes that spell some settings lead to them, in any order, if they reach every field in which
the settings differ from those before. -/
theorem writeAll_of_spells (hspells : ∀ write ∈ writes, after.Spells write)
    (hothers : ∀ key : SettingKey, key.text ∉ writes.map (·.1) → after.get key = s.get key) :
    s.writeAll writes = .ok after := by
  induction writes generalizing s with
  | nil => exact congrArg Except.ok (ext_get fun key => (hothers key List.not_mem_nil).symm)
  | cons write writes ih =>
    obtain ⟨⟨key, hkey, hmeaning⟩, hwrites⟩ := List.forall_mem_cons.mp hspells
    have hset : s.set write.1 write.2 = .ok (s.put key (after.get key)) :=
      hkey ▸ set_of_meaning? hmeaning s
    change s.set write.1 write.2 >>= (writeAll · writes) = .ok after
    rw [hset]
    refine ih hwrites fun other hother => ?_
    by_cases heq : other = key
    · subst heq
      exact (get_put_self s other _).symm
    · rw [get_put_of_ne heq]
      refine hothers other ?_
      rw [List.map_cons, List.mem_cons, not_or, ← hkey]
      exact ⟨fun htext => heq (SettingKey.text_injective htext), hother⟩

end Settings

/-! ### Writes of sections -/

/-- The writes that a section asks for. -/
def Toml.Section.writes (s : Toml.Section) : List (String × Toml.Value) :=
  s.entries.map fun (key, v) => (s.name ++ "." ++ key, v)

variable {sections : List Toml.Section}

theorem mem_writes_fileTable (h : (sections.map Toml.Section.name).Nodup)
    {write : String × Toml.Value} :
    write ∈ (fileTable sections).writes ↔ write ∈ sections.flatMap Toml.Section.writes := by
  have hsection (s : Toml.Section) :
      write ∈ Toml.Table.sectionWrites (s.name, s.value) ↔ write ∈ s.writes :=
    ((Dict.perm_ofList s.nodup_keys).map _).mem_iff
  simp only [Toml.Table.writes, List.mem_flatMap, mem_fileTable h, exists_exists_and_eq_and,
    hsection]

theorem isSectioned_fileTable (h : (sections.map Toml.Section.name).Nodup) :
    (fileTable sections).IsSectioned := by
  intro entry hentry
  obtain ⟨s, _, rfl⟩ := (mem_fileTable h).mp hentry
  exact ⟨_, rfl⟩

/-- A file of sections that spell some settings leads to them. -/
theorem apply_fileTable {s after : Settings} (h : (sections.map Toml.Section.name).Nodup)
    (hspells : ∀ write ∈ sections.flatMap Toml.Section.writes, after.Spells write)
    (hothers : ∀ key : SettingKey, key.text ∉ (sections.flatMap Toml.Section.writes).map (·.1) →
      after.get key = s.get key) :
    s.apply (fileTable sections) = (after, none) := by
  refine Settings.apply_eq_none.mpr ⟨isSectioned_fileTable h, ?_⟩
  refine Settings.writeAll_of_spells (fun write hwrite => ?_) fun key hkey => hothers key ?_
  · exact hspells write ((mem_writes_fileTable h).mp hwrite)
  · simpa only [List.mem_map, mem_writes_fileTable h] using hkey

/-! ### The file -/

/-- What a new project file spells. -/
def defaultSections (projectName : String) : List Toml.Section :=
  [{  name := "project"
      entries := [("name", .string projectName), ("source-code-dir", .array [.string "."]),
        ("exclude-path", .array [])]
      bare_name := by decide
      bare_keys := by simp +decide
      nodup_keys := by simp
      inline := by simp },
    { name := "xref"
      entries := [("data-dir", .string configDirectory), ("project-check", .boolean true),
        ("storage-manager", .string "file")]
      bare_name := by decide
      bare_keys := by simp +decide
      nodup_keys := by simp
      inline := by simp },
    { name := "lint"
      entries := [("report-level", .string "warning"), ("color", .string "auto"),
        ("ignore-error", .array []),
        ("ignore-missing-class", .array (Rule.MissingClass.defaultIgnored.map .string))]
      bare_name := by decide
      bare_keys := by simp +decide
      nodup_keys := by simp
      inline := by simp },
    { name := "ci"
      entries := [("source-code-manager", .string "git")]
      bare_name := by decide
      bare_keys := by simp +decide
      nodup_keys := by simp
      inline := by simp }]

theorem defaultConfigText_eq (projectName : String) :
    defaultConfigText projectName = fileText (defaultSections projectName) := by
  have hquote : ∀ word ∈ [".", configDirectory, "file", "warning", "auto", "git"],
      quote word = "\"" ++ word ++ "\"" := by
    decide +kernel
  have hignored : Rule.MissingClass.defaultIgnored.map (Value.write ∘ Value.string) =
      Rule.MissingClass.defaultIgnored.map quote := rfl
  rw [← String.toList_inj, defaultConfigText, fileText]
  simp [defaultSections, Section.text, entryLine, Value.write, writeElements_eq, hquote, hignored]

theorem writes_defaultSections (projectName : String) :
    (defaultSections projectName).flatMap Toml.Section.writes =
      [(SettingKey.projectName.text, .string projectName),
        (SettingKey.sourceDirectories.text, .array [.string "."]),
        (SettingKey.excludedPaths.text, .array []),
        (SettingKey.dataDirectory.text, .string configDirectory),
        (SettingKey.projectCheck.text, .boolean true),
        (SettingKey.storage.text, .string "file"),
        (SettingKey.reportLevel.text, .string "warning"),
        (SettingKey.color.text, .string "auto"),
        (SettingKey.ignoredErrors.text, .array []),
        (SettingKey.ignoredClasses.text,
          .array (Rule.MissingClass.defaultIgnored.map .string)),
        (SettingKey.sourceControl.text, .string "git")] := by
  simp [defaultSections, Toml.Section.writes, SettingKey.text]

/-- A new project file sets the name of the project and the directory of the sources, and leaves
everything else at its default. -/
theorem defaultConfigText_loads (projectName : String) :
    ∃ table, parse? (defaultConfigText projectName) = some table ∧
      Settings.default.apply table =
        ({ Settings.default with
            projectName := some projectName
            sourceDirectories := ["."] }, none) := by
  have hnames : ((defaultSections projectName).map Toml.Section.name).Nodup := by
    simp [defaultSections]
  refine ⟨fileTable (defaultSections projectName), ?_, apply_fileTable hnames ?_ ?_⟩
  · rw [defaultConfigText_eq]
    exact parse?_fileText hnames
  · rw [writes_defaultSections]
    simp only [List.forall_mem_cons, Settings.spells_text]
    have hstorage : StorageKind.ofText? "file" = some .file := by decide
    have hlevel : Severity.parse? "warning" = some .warning := by decide
    have hcolor : ColorMode.ofText? "auto" = some .auto := by decide
    have hcontrol : SourceControlKind.ofText? "git" = some .git := by decide
    exact ⟨rfl, rfl, rfl, rfl, rfl, hstorage, hlevel, hcolor, rfl, rfl, hcontrol, nofun⟩
  · rw [writes_defaultSections]
    intro key hkey
    cases key
    case projectName => exact absurd (by simp) hkey
    case sourceDirectories => exact absurd (by simp) hkey
    all_goals rfl

end PhpLint
