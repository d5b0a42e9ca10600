import PhpLint.Proofs.Config.Settings
import PhpLint.Proofs.Text.Pieces

/-!
Single values of a project file and the texts that stand for them on a command line. Under a key for
a single value both are written alike, but for booleans as colour modes and for integers other than
zero and one as booleans.
-/
namespace PhpLint

/-- The text that stands for a single value on a command line. -/
inductive Toml.Value.HasText : Toml.Value → String → Prop
  | string (s : String) : HasText (.string s) s
  | boolean (b : Bool) : HasText (.boolean b) (toString b)
  /-- Integers have 64 bits with a sign. -/
  | integer {n : Int} (h : -0x8000000000000000 ≤ n ∧ n < 0x8000000000000000) :
    HasText (.integer n) (toString n)

/-- Keys for a switch, a word or a number. -/
def SettingKey.scalars : List SettingKey :=
  [.projectCheck, .storage, .reportLevel, .color, .gitTimeout, .sourceControl]

namespace Settings

/-- Two writes that both fail, or both succeed with the same settings. -/
def Agree (a b : Except ConfigError Settings) : Prop :=
  (∃ e e', a = .error e ∧ b = .error e') ∨ ∃ after, a = .ok after ∧ b = .ok after

/-- Values that are not taken as their texts are. -/
inductive IsMistaken : SettingKey → Toml.Value → Prop
  | color (b : Bool) : IsMistaken .color (.boolean b)
  | projectCheck {n : Int} (hzero : n ≠ 0) (hone : n ≠ 1) :
    IsMistaken .projectCheck (.integer n)

end Settings

/-! ### Numerals -/

namespace Text

theorem toList_toString_nat (n : Nat) : (toString n).toList = Nat.toDigits 10 n :=
  String.toList_ofList

/-- A numeral is made of digits, perhaps behind a minus sign. -/
theorem toList_toString_int (n : Int) : (toString n).toList =
    if 0 ≤ n then Nat.toDigits 10 n.toNat else '-' :: Nat.toDigits 10 (-n).toNat := by
  change n.repr.toList = _
  rw [Int.repr_eq_if]
  split_ifs
  · exact toList_toString_nat n.toNat
  · rw [String.toList_append]
    exact congrArg ('-' :: ·) (toList_toString_nat (-n).toNat)

/-- The characters of numerals. -/
def numeralChars : List Char :=
  ['-', '0', '1', '2', '3', '4', '5', '6', '7', '8', '9']

theorem mem_numeralChars {n : Int} {c : Char} (h : c ∈ (toString n).toList) :
    c ∈ numeralChars := by
  have hdigit {m : Nat} (hc : c ∈ Nat.toDigits 10 m) : c ∈ numeralChars := by
    obtain ⟨hlo, hhi⟩ := Char.isDigit_iff_toNat.mp
      (Nat.isDigit_of_mem_toDigits (by decide) (by decide) hc)
    have hall : ∀ k ≤ '9'.toNat, '0'.toNat ≤ k → Char.ofNat k ∈ numeralChars := by decide
    exact c.ofNat_toNat ▸ hall c.toNat hhi hlo
  rw [toList_toString_int] at h
  split_ifs at h
  · exact hdigit h
  · rcases List.mem_cons.mp h with rfl | h
    · exact List.mem_cons_self
    · exact hdigit h

theorem trim_numeral (n : Int) : trim (toString n) = toString n := by
  unfold trim
  have hall : ∀ c ∈ numeralChars, isWhiteSpace c = false := by
    simp [numeralChars, isWhiteSpace, whiteSpaceRanges]
  rw [trimBy_of_not fun c hc => hall c (mem_numeralChars hc), String.ofList_toList]

theorem fold_numeral (n : Int) : fold (toString n) = toString n := by
  unfold fold
  have hall : ∀ c ∈ numeralChars, c.toLower = c := by simp [numeralChars]
  rw [List.map_congr_left fun c hc => hall c (mem_numeralChars hc), List.map_id',
    String.ofList_toList]

end Text

theorem Severity.number?_toDigits (n : Nat) : number? (Nat.toDigits 10 n) = some n := by
  have hall : ∀ c ∈ Nat.toDigits 10 n, c.isDigit := fun c hc =>
    Nat.isDigit_of_mem_toDigits (by decide) (by decide) hc
  have hplus : ¬ (Nat.toDigits 10 n).head? = some '+' := fun hhead =>
    absurd (hall '+' (List.mem_of_mem_head? hhead)) (by decide)
  have hvalue : (Nat.toDigits 10 n).foldl (fun n d => 10 * n + (d.toNat - 48)) 0 = n :=
    Nat.ofDigitChars_eq_foldl.symm.trans Nat.ofDigitChars_ten_toDigits
  have hnonempty : (Nat.toDigits 10 n).isEmpty = false :=
    List.isEmpty_eq_false_iff.mpr Nat.toDigits_ne_nil
  unfold number?
  simp only [beq_iff_eq, if_neg hplus, hvalue, hnonempty, List.all_eq_true.mpr hall]
  rfl

theorem Severity.number?_minus (digits : List Char) : number? ('-' :: digits) = none := by
  unfold number?
  simp only [List.head?_cons]
  rfl

namespace Toml.Value

theorem asNat?_numeral {n : Int} (h : n < 0x10000000000000000) :
    (string (toString n)).asNat? = (integer n).asNat? := by
  rw [asNat?, asNat?, Text.trim_numeral, Text.toList_toString_int]
  split_ifs with hsign
  · obtain ⟨m, rfl⟩ := Int.eq_ofNat_of_zero_le hsign
    rw [Int.toNat_natCast, Severity.number?_toDigits, Option.filter_some, if_pos]
    · rfl
    · exact decide_eq_true (by omega)
  · obtain ⟨m, rfl⟩ := Int.eq_negSucc_of_lt_zero (not_le.mp hsign)
    rw [Severity.number?_minus]
    rfl

/-- The words for booleans, in lower case and without white space around them. -/
theorem asBool?_eq_some_iff {s : String} {b : Bool} : (string s).asBool? = some b ↔
    Text.fold (Text.trim s) ∈
      if b then ["true", "on", "yes", "1"] else ["false", "off", "no", "0"] := by
  simp only [asBool?]
  generalize Text.fold (Text.trim s) = w
  split <;> cases b <;> simp_all

/-- Of the numerals only zero and one spell booleans. -/
theorem asBool?_numeral (n : Int) : (string (toString n)).asBool? =
    if n = 0 then some false else if n = 1 then some true else none := by
  have hword {w : String} {c : Char} (hc : c ∈ w.toList) (hnot : c ∉ Text.numeralChars) :
      toString n ≠ w :=
    fun h => hnot (Text.mem_numeralChars (h ▸ hc))
  have hiff (b : Bool) : (string (toString n)).asBool? = some b ↔ n = if b then 1 else 0 := by
    rw [asBool?_eq_some_iff, Text.trim_numeral, Text.fold_numeral]
    cases b with
    | true =>
      have hone : toString n = "1" ↔ n = 1 := Int.repr_inj (b := 1)
      simp only [if_true, List.mem_cons, List.not_mem_nil, or_false, hone,
        hword (w := "true") (c := 't') (by decide) (by decide),
        hword (w := "on") (c := 'o') (by decide) (by decide),
        hword (w := "yes") (c := 'y') (by decide) (by decide), false_or]
    | false =>
      have hzero : toString n = "0" ↔ n = 0 := Int.repr_inj (b := 0)
      simp only [Bool.false_eq_true, if_false, List.mem_cons, List.not_mem_nil, or_false, hzero,
        hword (w := "false") (c := 'f') (by decide) (by decide),
        hword (w := "off") (c := 'o') (by decide) (by decide),
        hword (w := "no") (c := 'n') (by decide) (by decide), false_or]
  split_ifs with hzero hone
  · exact (hiff false).mpr hzero
  · exact (hiff true).mpr hone
  · refine Option.eq_none_iff_forall_ne_some.mpr fun b hb => ?_
    cases b with
    | true => exact hone ((hiff true).mp hb)
    | false => exact hzero ((hiff false).mp hb)

end Toml.Value

/-! ### Meaning of values -/

/-- What a value means under a key. -/
def SettingKey.meaning? : (key : SettingKey) → Toml.Value → Option key.Field
  | .projectName, v | .gitDirectory, v => v.asText?.map some
  | .sourceDirectories, v | .excludedPaths, v | .ignoredErrors, v | .ignoredClasses, v => v.asList?
  | .dataDirectory, v => v.asText?
  | .projectCheck, v => v.asBool?
  | .storage, v => v.asText?.bind StorageKind.ofText?
  | .reportLevel, v => v.asText?.bind Severity.parse?
  | .color, v => v.asText?.bind ColorMode.ofText?
  | .gitTimeout, v => v.asNat?.filter fun n : Nat => 0 < n
  | .sourceControl, v => v.asText?.bind SourceControlKind.ofText?

instance : (key : SettingKey) → DecidableEq key.Field
  | .projectName | .gitDirectory => inferInstanceAs (DecidableEq (Option String))
  | .sourceDirectories | .excludedPaths | .ignoredErrors | .ignoredClasses =>
    inferInstanceAs (DecidableEq (List String))
  | .dataDirectory => inferInstanceAs (DecidableEq String)
  | .projectCheck => inferInstanceAs (DecidableEq Bool)
  | .storage => inferInstanceAs (DecidableEq StorageKind)
  | .reportLevel => inferInstanceAs (DecidableEq Severity)
  | .color => inferInstanceAs (DecidableEq ColorMode)
  | .gitTimeout => inferInstanceAs (DecidableEq Nat)
  | .sourceControl => inferInstanceAs (DecidableEq SourceControlKind)

namespace Settings

variable {s : Settings} {key : SettingKey} {v : Toml.Value} {t : String}

theorem put_injective (s : Settings) (key : SettingKey) : Function.Injective (s.put key) := by
  intro a b h
  rw [← get_put_self s key a, h, get_put_self]

theorem toOption_expect {α : Type} (key : SettingKey) (v : Toml.Value) (reason : String)
    (meaning : Option α) : (expect key v reason meaning).toOption = meaning := by
  cases meaning <;> rfl

theorem toOption_expectWord {α : Type} (key : SettingKey) (v : Toml.Value) (reason : String)
    (ofText? : String → Option α) :
    (expectWord key v reason ofText?).toOption = v.asText?.bind ofText? := by
  unfold expectWord
  cases v.asText? with
  | none => rfl
  | some text => exact toOption_expect key v reason _

theorem toOption_expectLevel (key : SettingKey) (v : Toml.Value) :
    (expectLevel key v).toOption = v.asText?.bind Severity.parse? := by
  unfold expectLevel
  cases v.asText? with
  | none => rfl
  | some text =>
    simp only [expect, bind, Except.bind, Option.bind_some]
    generalize Severity.parse? text = level
    cases level <;> rfl

/-- A write puts into the field of its key what the value means there, if it means anything. -/
theorem toOption_set (s : Settings) (key : SettingKey) (v : Toml.Value) :
    (s.set key.text v).toOption = (key.meaning? v).map (s.put key) := by
  have hreturn {α : Type} (x : Except ConfigError α) (f : α → Settings) :
      (x >>= fun a => pure (f a)).toOption = x.toOption.map f := by
    cases x <;> rfl
  rw [set_text]
  unfold setKey
  cases key
  case projectName =>
    rw [hreturn, toOption_expect]
    exact (Option.map_map (s.put .projectName) some v.asText?).symm
  case gitDirectory =>
    rw [hreturn, toOption_expect]
    exact (Option.map_map (s.put .gitDirectory) some v.asText?).symm
  all_goals
    rw [hreturn]
    simp only [toOption_expect, toOption_expectWord, toOption_expectLevel]
    rfl

theorem agree_iff {a b : Except ConfigError Settings} : Agree a b ↔ a.toOption = b.toOption := by
  unfold Agree
  cases a <;> cases b <;> simp [Except.toOption, eq_comm]

theorem agree_set_setText_iff (s : Settings) (key : SettingKey) (v : Toml.Value) (t : String) :
    Agree (s.set key.text v) (s.setText key.text t) ↔ key.meaning? v = key.meaning? (.string t) := by
  rw [agree_iff, setText, toOption_set, toOption_set]
  exact (Option.map_injective (put_injective s key)).eq_iff

/-- The words `true` and `false` mean something as switches and as colours, and nowhere else. -/
theorem meaning?_boolean_iff (hkey : key ∈ SettingKey.scalars) (b : Bool) :
    key.meaning? (.boolean b) = key.meaning? (.string (toString b)) ↔ key ≠ .color := by
  simp only [SettingKey.scalars, List.mem_cons, List.not_mem_nil, or_false] at hkey
  rcases hkey with rfl | rfl | rfl | rfl | rfl | rfl <;> cases b <;> decide +kernel

/-- A numeral means what its number does, but for switches. -/
theorem meaning?_integer_iff (hkey : key ∈ SettingKey.scalars) {n : Int}
    (hn : n < 0x10000000000000000) :
    key.meaning? (.integer n) = key.meaning? (.string (toString n)) ↔
      (key = .projectCheck → n = 0 ∨ n = 1) := by
  simp only [SettingKey.scalars, List.mem_cons, List.not_mem_nil, or_false] at hkey
  rcases hkey with rfl | rfl | rfl | rfl | rfl | rfl
  case inl =>
    change some (n != 0) = (Toml.Value.string (toString n)).asBool? ↔ _
    rw [Toml.Value.asBool?_numeral]
    split_ifs with hzero hone
    · simp [hzero]
    · simp [hone]
    · simp [hzero, hone]
  case inr.inr.inr.inr.inl =>
    rw [SettingKey.meaning?, SettingKey.meaning?, Toml.Value.asNat?_numeral hn]
    simp
  -- the other keys take every integer by its text
  all_goals exact iff_of_true rfl nofun

/--
Under a key for a single value the values of a file and their texts on a command line are taken
alike, but for the mistaken ones: a boolean is no colour mode, though its text is one, and every
integer is a switch, though only the texts of zero and one are.
-/
theorem set_agrees_iff (hkey : key ∈ SettingKey.scalars) (htext : v.HasText t) (s : Settings) :
    (Agree (s.set key.text v) (s.setText key.text t) ↔ ¬ IsMistaken key v) ∧
    (∀ b, key = .color → v = .boolean b →
      s.set key.text v = .error (invalid key.text v "expected a string") ∧
      s.setText key.text t = .ok { s with color := if b then .on else .off }) ∧
    (∀ n, key = .projectCheck → v = .integer n → n ≠ 0 → n ≠ 1 →
      s.set key.text v = .ok { s with projectCheck := true } ∧
      s.setText key.text t =
        .error (invalid key.text (.string t) "expected true or false")) := by
  refine ⟨?_, ?_, ?_⟩
  · rw [agree_set_setText_iff]
    cases htext with
    | string s => exact iff_of_true rfl nofun
    | boolean b =>
      rw [meaning?_boolean_iff hkey, not_iff_not]
      constructor
      · rintro rfl
        exact .color b
      · rintro ⟨⟩
        rfl
    | @integer n hn =>
      rw [meaning?_integer_iff hkey (by omega)]
      constructor
      · rintro hswitch (_ | ⟨hzero, hone⟩)
        exact (hswitch rfl).elim hzero hone
      · rintro hnot rfl
        by_contra hneither
        rw [not_or] at hneither
        exact hnot (.projectCheck hneither.1 hneither.2)
  · rintro b rfl rfl
    cases htext
    rw [setText, set_text, set_text]
    cases b <;> exact ⟨rfl, rfl⟩
  · rintro n rfl rfl hzero hone
    cases htext
    rw [setText, set_text, set_text]
    have htext : (Toml.Value.string (toString n)).asBool? = none := by
      rw [Toml.Value.asBool?_numeral, if_neg hzero, if_neg hone]
    have hvalue : (Toml.Value.integer n).asBool? = some true := by
      simpa [Toml.Value.asBool?] using hzero
    unfold setKey
    simp only [htext, hvalue, expect]
    exact ⟨rfl, rfl⟩

/-- A number of seconds is taken alike, and a colour mode is mistaken. -/
theorem set_agrees_iff_seconds_and_color :
    let s := Settings.default
    (SettingKey.gitTimeout ∈ SettingKey.scalars ∧ (Toml.Value.integer 90).HasText "90" ∧
      Agree (s.set "git.command-timeout-secs" (.integer 90))
        (s.setText "git.command-timeout-secs" "90")) ∧
    SettingKey.color ∈ SettingKey.scalars ∧ (Toml.Value.boolean true).HasText "true" ∧
      s.set "lint.color" (.boolean true) =
        .error (.invalidValue "lint.color" "true" "expected a string") ∧
      s.setText "lint.color" "true" = .ok { s with color := .on } := by
  intro s
  have htimeout : SettingKey.gitTimeout ∈ SettingKey.scalars := by decide
  have hseconds : (Toml.Value.integer 90).HasText "90" := .integer (by decide)
  have hcolor : SettingKey.color ∈ SettingKey.scalars := by decide
  have htrue : (Toml.Value.boolean true).HasText "true" := .boolean true
  refine ⟨⟨htimeout, hseconds, ?_⟩, hcolor, htrue, ?_⟩
  · exact (set_agrees_iff htimeout hseconds s).1.mpr nofun
  · exact (set_agrees_iff hcolor htrue s).2.1 true rfl rfl

/-- A file that switches colours on is refused, and one that sets the project check to 2 is not; on a
command line it is the other way round. -/
theorem not_set_agrees :
    let s := Settings.default
    (Toml.Value.boolean true).HasText "true" ∧
      ¬ Agree (s.set "lint.color" (.boolean true)) (s.setText "lint.color" "true") ∧
    (Toml.Value.integer 2).HasText "2" ∧
      ¬ Agree (s.set "xref.project-check" (.integer 2)) (s.setText "xref.project-check" "2") := by
  intro s
  rw [agree_iff, agree_iff]
  exact ⟨.boolean true, by decide +kernel, .integer (by decide), by decide +kernel⟩

end Settings

end PhpLint
