import PhpLint.Config.Settings
import PhpLint.Proofs.Except

/-!
What a write to the settings does: it fails whatever the settings are, or it changes the field of
its key and no other. A sequence of writes leaves in each field what was written there last.
-/
namespace PhpLint

/-- What can stand in the field of a key. -/
def SettingKey.Field : SettingKey → Type
  | .projectName | .gitDirectory => Option String
  | .sourceDirectories | .excludedPaths | .ignoredErrors | .ignoredClasses => List String
  | .dataDirectory => String
  | .projectCheck => Bool
  | .storage => StorageKind
  | .reportLevel => Severity
  | .color => ColorMode
  | .gitTimeout => Nat
  | .sourceControl => SourceControlKind

namespace Settings

/-- The field of a key. -/
def get (s : Settings) : (key : SettingKey) → key.Field
  | .projectName => s.projectName
  | .sourceDirectories => s.sourceDirectories
  | .excludedPaths => s.excludedPaths
  | .dataDirectory => s.dataDirectory
  | .projectCheck => s.projectCheck
  | .storage => s.storage
  | .reportLevel => s.reportLevel
  | .ignoredErrors => s.ignoredErrors
  | .ignoredClasses => s.ignoredClasses
  | .color => s.color
  | .gitDirectory => s.gitDirectory
  | .gitTimeout => s.gitTimeout
  | .sourceControl => s.sourceControl

/-- The settings with something else in the field of a key. -/
def put (s : Settings) : (key : SettingKey) → key.Field → Settings
  | .projectName, a => { s with projectName := a }
  | .sourceDirectories, a => { s with sourceDirectories := a }
  | .excludedPaths, a => { s with excludedPaths := a }
  | .dataDirectory, a => { s with dataDirectory := a }
  | .projectCheck, a => { s with projectCheck := a }
  | .storage, a => { s with storage := a }
  | .reportLevel, a => { s with reportLevel := a }
  | .ignoredErrors, a => { s with ignoredErrors := a }
  | .ignoredClasses, a => { s with ignoredClasses := a }
  | .color, a => { s with color := a }
  | .gitDirectory, a => { s with gitDirectory := a }
  | .gitTimeout, a => { s with gitTimeout := a }
  | .sourceControl, a => { s with sourceControl := a }

variable {s : Settings} {key other : SettingKey} {v : Toml.Value}

theorem get_put_self (s : Settings) (key : SettingKey) (a : key.Field) :
    (s.put key a).get key = a := by
  cases key <;> rfl

theorem get_put_of_ne (h : other ≠ key) (s : Settings) (a : key.Field) :
    (s.put key a).get other = s.get other := by
  cases key <;> cases other <;> first | rfl | exact absurd rfl h

/-- Writing does to any settings what it does to the defaults. -/
theorem setKey_eq (s : Settings) (key : SettingKey) (v : Toml.Value) :
    s.setKey key v = (Settings.default.setKey key v).map fun d => s.put key (d.get key) := by
  have hmap {α : Type} (x : Except ConfigError α) (f g : α → Settings) (h : Settings → Settings)
      (hf : ∀ a, f a = h (g a)) :
      (x >>= fun a => pure (f a)) = (x >>= fun a => pure (g a)).map h := by
    cases x with
    | error e => rfl
    | ok a => exact congrArg Except.ok (hf a)
  cases key <;> exact hmap _ _ _ _ fun _ => rfl

end Settings

namespace SettingKey

theorem ofText?_text (key : SettingKey) : ofText? key.text = some key := by
  cases key <;> decide

theorem text_injective : Function.Injective text := by
  intro key other h
  rw [← Option.some_inj, ← key.ofText?_text, h, other.ofText?_text]

theorem ofText?_eq_some_iff {key : SettingKey} {text : String} :
    ofText? text = some key ↔ key.text = text := by
  constructor
  · intro h
    unfold ofText? at h
    exact eq_of_beq (List.find?_some (p := fun key : SettingKey => key.text == text) h)
  · rintro rfl
    exact key.ofText?_text

end SettingKey

namespace Settings

variable {s : Settings} {key other : SettingKey} {v : Toml.Value}

/-! ### Single writes -/

/-- A value stands for something in the field of a key: writing it puts that there, and leaves the
other fields as they are. -/
def Means (key : SettingKey) (v : Toml.Value) (a : key.Field) : Prop :=
  ∀ before : Settings, ∃ after, before.set key.text v = .ok after ∧ after.get key = a ∧
    ∀ other, other ≠ key → after.get other = before.get other

/-- A write that can be made, whatever has been written before. -/
def IsValid (write : String × Toml.Value) : Prop :=
  ∃ (key : SettingKey) (a : key.Field), key.text = write.1 ∧ Means key write.2 a

theorem set_text (s : Settings) (key : SettingKey) (v : Toml.Value) :
    s.set key.text v = s.setKey key v := by
  unfold set
  rw [key.ofText?_text]

/-- A write fails on all settings, or on none, and then it changes one field. -/
theorem fails_or_isValid (key : String) (v : Toml.Value) :
    (∃ e, ∀ s : Settings, s.set key v = .error e) ∨ IsValid (key, v) := by
  cases hkey : SettingKey.ofText? key with
  | none =>
    refine Or.inl ⟨invalid key v "unknown config var", fun s => ?_⟩
    unfold set
    rw [hkey]
  | some k =>
    obtain rfl := SettingKey.ofText?_eq_some_iff.mp hkey
    cases hset : Settings.default.setKey k v with
    | error e =>
      refine Or.inl ⟨e, fun s => ?_⟩
      rw [set_text, setKey_eq, hset]
      rfl
    | ok d =>
      refine Or.inr ⟨k, d.get k, rfl, fun before => ⟨before.put k (d.get k), ?_, ?_, ?_⟩⟩
      · rw [set_text, setKey_eq, hset]
        rfl
      · exact get_put_self before k _
      · exact fun other hother => get_put_of_ne hother before _

theorem exists_set_iff {write : String × Toml.Value} :
    (∃ after, s.set write.1 write.2 = .ok after) ↔ IsValid write := by
  constructor
  · rintro ⟨after, hset⟩
    rcases fails_or_isValid write.1 write.2 with ⟨e, he⟩ | hvalid
    · rw [he s] at hset
      contradiction
    · exact hvalid
  · rintro ⟨key, a, hkey, hmeans⟩
    obtain ⟨after, hset, _⟩ := hmeans s
    exact ⟨after, hkey ▸ hset⟩

/-- After a write its own field holds what the value means, and no other field has changed. -/
theorem get_of_set {write : String × Toml.Value} {after : Settings}
    (h : s.set write.1 write.2 = .ok after) (key : SettingKey) :
    if key.text = write.1 then Means key write.2 (after.get key)
    else after.get key = s.get key := by
  obtain ⟨own, a, hown, hmeans⟩ := exists_set_iff.mp ⟨after, h⟩
  obtain ⟨after', hset, hget, hothers⟩ := hmeans s
  rw [hown, h, Except.ok.injEq] at hset
  subst hset
  split_ifs with hkey
  · obtain rfl : own = key := SettingKey.text_injective (hown.trans hkey.symm)
    exact hget ▸ hmeans
  · exact hothers key fun heq => hkey (heq ▸ hown)

/-! ### Sequences of writes -/

/-- Writes one after the other. -/
def writeAll (s : Settings) (writes : List (String × Toml.Value)) : Except ConfigError Settings :=
  writes.foldlM (fun s write => s.set write.1 write.2) s

/-- The value that is written last under a key. -/
def latest? (writes : List (String × Toml.Value)) (key : SettingKey) : Option Toml.Value :=
  writes.reverse.lookup key.text

variable {writes : List (String × Toml.Value)} {after : Settings}

theorem writeAll_append (s : Settings) (writes writes' : List (String × Toml.Value)) :
    s.writeAll (writes ++ writes') = s.writeAll writes >>= (writeAll · writes') :=
  List.foldlM_append

/-- Writes can be made one after the other if each of them can be made on its own. -/
theorem exists_writeAll_iff (s : Settings) :
    (∃ after, s.writeAll writes = .ok after) ↔ ∀ write ∈ writes, IsValid write := by
  induction writes generalizing s with
  | nil => exact ⟨fun _ => nofun, fun _ => ⟨s, rfl⟩⟩
  | cons write writes ih =>
    rw [List.forall_mem_cons, ← exists_set_iff (s := s)]
    constructor
    · rintro ⟨after, h⟩
      obtain ⟨next, hset, hrest⟩ := except_bind_eq_ok.mp h
      exact ⟨⟨next, hset⟩, (ih next).mp ⟨after, hrest⟩⟩
    · rintro ⟨⟨next, hset⟩, hvalid⟩
      obtain ⟨after, hrest⟩ := (ih next).mpr hvalid
      exact ⟨after, except_bind_eq_ok.mpr ⟨next, hset, hrest⟩⟩

/-- A field holds what was written there last, or what it held before. -/
theorem get_writeAll (h : s.writeAll writes = .ok after) (key : SettingKey) :
    (∀ v, latest? writes key = some v → Means key v (after.get key)) ∧
      (latest? writes key = none → after.get key = s.get key) := by
  induction writes using List.reverseRecOn generalizing after with
  | nil =>
    obtain rfl := Except.ok.inj h
    exact ⟨nofun, fun _ => rfl⟩
  | append_singleton writes write ih =>
    rw [writeAll_append, except_bind_eq_ok] at h
    obtain ⟨before, hbefore, hset⟩ := h
    obtain ⟨hlatest, hnone⟩ := ih hbefore
    obtain ⟨after', hset', hafter⟩ := except_bind_eq_ok.mp hset
    obtain rfl : after' = after := Except.ok.inj hafter
    have hget := get_of_set hset' key
    have hlookup : latest? (writes ++ [write]) key =
        if key.text = write.1 then some write.2 else latest? writes key := by
      unfold latest?
      rw [List.reverse_append, List.reverse_singleton, List.singleton_append, List.lookup_cons]
      by_cases hkey : key.text = write.1
      · rw [if_pos hkey, beq_iff_eq.mpr hkey]
      · rw [if_neg hkey, beq_false_of_ne hkey]
    rw [hlookup]
    split_ifs at hget ⊢ with hkey
    · exact ⟨fun v hv => Option.some.inj hv ▸ hget, nofun⟩
    · rw [hget]
      exact ⟨hlatest, hnone⟩

/-- A write that fails leaves the settings as they are. -/
theorem setAll_cons_of_error {key : String} {v : Toml.Value} {e : ConfigError}
    (h : s.set key v = .error e) (writes : List (String × Toml.Value)) :
    s.setAll ((key, v) :: writes) = (s, some e) := by
  rw [setAll, h]

theorem setAll_eq_none : s.setAll writes = (after, none) ↔ s.writeAll writes = .ok after := by
  induction writes generalizing s with
  | nil => simp [setAll, writeAll, pure, Except.pure]
  | cons write writes ih =>
    obtain ⟨key, v⟩ := write
    change _ ↔ (s.set key v >>= (writeAll · writes)) = .ok after
    rw [setAll, except_bind_eq_ok]
    cases hset : s.set key v with
    | error e => simp
    | ok next => simp [ih]

end Settings

end PhpLint
