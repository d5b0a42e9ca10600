import Mathlib.Algebra.Group.Nat.Even
import Mathlib.Data.List.Induction
import PhpLint.Rule.UnusedVariable

/-!
Variables written in texts. A text is read from left to right, and where the reader stands behind a
part of it depends on that part only.
-/
namespace PhpLint.Rule.UnusedVariable

variable {c : Char} {r : Reading} {before s : List Char} {text v : String}

/-! ### Reading in parts -/

/-- Where the reader stands after one more character. -/
def Reading.next : Reading → Char → Reading
  | .outside, c => .after c
  | .escaped, _ => .outside
  | .name chars, c => if isNameChar c then .name (c :: chars) else .after c

theorem exists_variablesFrom_append (r : Reading) (before s : List Char) :
    ∃ names, variablesFrom r (before ++ s) =
      names ++ variablesFrom (before.foldl Reading.next r) s := by
  induction before generalizing r with
  | nil => exact ⟨[], rfl⟩
  | cons c before ih =>
    obtain ⟨names, hnames⟩ := ih (r.next c)
    rw [List.foldl_cons, List.cons_append, variablesFrom.eq_def]
    cases r with
    | outside => exact ⟨names, hnames⟩
    | escaped => exact ⟨names, hnames⟩
    | name chars =>
      dsimp only
      by_cases hc : isNameChar c
      · have hnext : (Reading.name chars).next c = .name (c :: chars) := if_pos hc
        rw [hnext] at hnames ⊢
        rw [if_pos hc]
        exact ⟨names, hnames⟩
      · have hnext : (Reading.name chars).next c = .after c := if_neg hc
        rw [hnext] at hnames ⊢
        rw [if_neg hc, hnames]
        exact ⟨variableOf chars ++ names, (List.append_assoc _ _ _).symm⟩

/-- The name in progress is the run of its characters. -/
theorem variablesFrom_name (chars s : List Char) :
    variablesFrom (.name chars) s =
      variableOf ((s.takeWhile isNameChar).reverse ++ chars) ++
        variablesFrom .outside (s.dropWhile isNameChar) := by
  induction s generalizing chars with
  | nil =>
    rw [variablesFrom]
    exact (List.append_nil _).symm
  | cons c r ih =>
    rw [variablesFrom]
    by_cases hc : isNameChar c
    · rw [if_pos hc, ih, List.takeWhile_cons_of_pos hc, List.dropWhile_cons_of_pos hc,
        List.reverse_cons, List.append_assoc, List.singleton_append]
    · rw [if_neg hc, List.takeWhile_cons_of_neg hc, List.dropWhile_cons_of_neg hc,
        variablesFrom]
      rfl

/-! ### Escapes -/

/-- No backslash in front takes the next character along. -/
def Unescaped (before : List Char) : Prop :=
  Even (before.reverse.takeWhile (· == '\\')).length

theorem unescaped_concat_backslash : Unescaped (before ++ ['\\']) ↔ ¬ Unescaped before := by
  unfold Unescaped
  rw [List.reverse_append, List.reverse_singleton, List.singleton_append,
    List.takeWhile_cons_of_pos (by decide), List.length_cons, Nat.even_add_one]

theorem unescaped_concat (hc : c ≠ '\\') : Unescaped (before ++ [c]) := by
  unfold Unescaped
  rw [List.reverse_append, List.reverse_singleton, List.singleton_append,
    List.takeWhile_cons_of_neg (by simpa using hc)]
  exact Even.zero

theorem Reading.after_eq_escaped_iff : Reading.after c = .escaped ↔ c = '\\' := by
  unfold Reading.after
  grind

theorem Reading.next_eq_escaped_iff : r.next c = .escaped ↔ r ≠ .escaped ∧ c = '\\' := by
  cases r with
  | outside => simp [Reading.next, Reading.after_eq_escaped_iff]
  | escaped => simp [Reading.next]
  | name chars =>
    have hback : isNameChar '\\' = false := by decide
    by_cases hc : isNameChar c
    · have hnext : (Reading.name chars).next c = .name (c :: chars) := if_pos hc
      have hne : c ≠ '\\' := fun heq => by simp [heq, hback] at hc
      simp [hnext, hne]
    · have hnext : (Reading.name chars).next c = .after c := if_neg hc
      simp [hnext, Reading.after_eq_escaped_iff]

/-- The reader skips a character if an odd number of backslashes stands in front of it. -/
theorem foldl_next_eq_escaped_iff :
    before.foldl Reading.next .outside = .escaped ↔ ¬ Unescaped before := by
  induction before using List.reverseRecOn with
  | nil => simp [Unescaped]
  | append_singleton before c ih =>
    rw [List.foldl_append, List.foldl_cons, List.foldl_nil, Reading.next_eq_escaped_iff]
    by_cases hc : c = '\\'
    · subst hc
      rw [unescaped_concat_backslash, ne_eq, ih]
      simp
    · exact iff_of_false (fun h => hc h.2) fun h => h (unescaped_concat hc)

/-! ### Interpolation -/

/-- Single quotes keep variables from being read. -/
def IsInterpolating (text : String) : Prop :=
  ¬ ['\''] <+: text.toList ∧ ¬ ['<', '<', '<', '\''] <+: text.toList

/-- The characters behind a `$`. -/
structure IsName (name : List Char) : Prop where
  chars : ∀ c ∈ name, isNameChar c
  first : ∃ c ∈ name.head?, ¬ c.isDigit

/-- `$name` stands in a text that is no literal, as in `"$name"` or `"{$name}"`. -/
def Interpolates (text v : String) : Prop :=
  IsInterpolating text ∧ ∃ before name after,
    text.toList = before ++ '$' :: (name ++ after) ∧ Unescaped before ∧ IsName name ∧
      (∀ c ∈ after.head?, ¬ isNameChar c) ∧ v = String.ofList ('$' :: name)

/-- `${name}` or `${name[` stands in a text that is no literal. -/
def InterpolatesBraced (text v : String) : Prop :=
  IsInterpolating text ∧ ∃ before name after,
    text.toList = before ++ '$' :: '\x7b' :: (name ++ after) ∧ Unescaped before ∧ IsName name ∧
      (∃ c ∈ after.head?, c = '\x7d' ∨ c = '[') ∧ v = String.ofList ('$' :: name)

theorem variablesFrom_dollar (hr : r ≠ .escaped) :
    ∃ names, variablesFrom r ('$' :: s) = names ++ variablesFrom (.name []) s := by
  cases r with
  | outside => exact ⟨[], rfl⟩
  | escaped => contradiction
  | name chars => exact ⟨variableOf chars, rfl⟩

/-- A variable in the simple form is found. -/
theorem mem_interpolated_of_interpolates (h : Interpolates text v) : v ∈ interpolated text := by
  obtain ⟨⟨hquote, hheredoc⟩, before, name, after, htext, hbefore, ⟨hchars, hfirst⟩, hafter,
    rfl⟩ := h
  have hreading : before.foldl Reading.next .outside ≠ .escaped := fun heq =>
    foldl_next_eq_escaped_iff.mp heq hbefore
  obtain ⟨names, hnames⟩ := exists_variablesFrom_append .outside before ('$' :: (name ++ after))
  obtain ⟨names', hnames'⟩ := @variablesFrom_dollar _ (name ++ after) hreading
  have hrun : (name ++ after).takeWhile isNameChar = name := by
    rw [List.takeWhile_append_of_pos hchars]
    cases after with
    | nil => rw [List.takeWhile_nil, List.append_nil]
    | cons c r =>
      rw [List.takeWhile_cons_of_neg (hafter c rfl), List.append_nil]
  have hvariable : variableOf (name.reverse ++ []) = [String.ofList ('$' :: name)] := by
    obtain ⟨c, hc, hdigit⟩ := hfirst
    unfold variableOf
    rw [List.append_nil, List.getLast?_reverse, hc, List.reverse_reverse]
    exact if_pos (by simpa using hdigit)
  unfold interpolated
  simp only [List.isPrefixOf_iff_prefix, Bool.or_eq_true]
  rw [if_neg fun h => h.elim hquote hheredoc, htext, hnames, hnames', variablesFrom_name, hrun,
    hvariable]
  simp

end PhpLint.Rule.UnusedVariable
