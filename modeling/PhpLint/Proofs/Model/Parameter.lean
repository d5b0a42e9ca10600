import PhpLint.Proofs.Model.Element
import PhpLint.Proofs.Model.Signature

/-!
How lists of parameters are written, and what is read of them. Main statement: a written list is read
back as the parameters that it declares, one behind the other.
-/
namespace PhpLint

namespace Lexeme

/-- Brackets pair, and nothing that stops a reading stands outside of them; `depth` are open. -/
def Enclosed (stop : Lexeme → Bool) (depth : Nat) : List Lexeme → Prop
  | [] => depth = 0
  | x :: r => ¬ (depth = 0 ∧ (x.isCloseBracket || stop x)) ∧ Enclosed stop (nested depth x.toToken) r

instance decidableEnclosed (stop : Lexeme → Bool) :
    (depth : Nat) → (s : List Lexeme) → Decidable (Enclosed stop depth s)
  | depth, [] => inferInstanceAs (Decidable (depth = 0))
  | depth, x :: r =>
    have := decidableEnclosed stop (nested depth x.toToken) r
    inferInstanceAs (Decidable (_ ∧ _))

/-- A word that makes a parameter of a constructor a property. -/
def promotes (x : Lexeme) : Bool :=
  x.kind == .keyword && (Modifier.ofKeyword? x.text).isSome || x.isKeyword "readonly"

/-- A lexeme of a type. A word in parentheses may have been read as a cast. -/
def isTypePart (x : Lexeme) : Bool :=
  x.isNamePart || x.kind == .cast || x.is "?" || x.is "|" || x.is "&" || x.is "(" || x.is ")"

/-- The text of a part of a type; the blanks inside a cast are no part of it. -/
def spelling (x : Lexeme) : String :=
  if x.kind == .cast then String.ofList (x.text.toList.filter (!Text.isTabOrSpace ·)) else x.text

end Lexeme

namespace Parameter

open Lexeme (Enclosed LongOperators nested)

/-- A group of attributes, with the lexemes between its brackets. -/
structure Group where
  hash : Lexeme
  opening : Lexeme
  inner : List Lexeme
  closing : Lexeme
  isHash : hash.is "#"
  isOpening : opening.isOpenBracket ∧ opening.is "["
  joined : opening.joined
  balanced : Enclosed (fun _ => false) 0 inner
  isClosing : closing.isCloseBracket

def Group.lexemes (g : Group) : List Lexeme :=
  g.hash :: g.opening :: (g.inner ++ [g.closing])

/-- The text of a type, if there is one. -/
def typeText (text : Lexeme → String) (s : List Lexeme) : Option String :=
  if s = [] then none else some (String.join (s.map text))

/-- The attributes of a promoted parameter, if there are modifiers. -/
def promotionBy (s : List Lexeme) : Option Attributes :=
  if s = [] then none
  else some ((s.filterMap (Modifier.ofKeyword? ·.text)).foldl .insert .empty)

/-- A parameter as it is written. A default value is any balanced list without a comma outside. -/
structure Form where
  groups : List Group
  modifiers : List Lexeme
  /-- Empty if there is none. -/
  type : List Lexeme
  reference : Option Lexeme
  ellipsis : Option Lexeme
  name : Lexeme
  /-- The sign and the value. -/
  default? : Option (Lexeme × List Lexeme)
  isModifier : ∀ x ∈ modifiers, x.promotes
  isType : ∀ x ∈ type, x.isTypePart
  balanced : Enclosed (fun _ => false) 0 type
  /-- What would pass by reference is no part of the type. -/
  typeEnds : ∀ x ∈ type.getLast?, x.is "&" = false
  isReference : ∀ x ∈ reference, x.is "&"
  isEllipsis : ∀ x ∈ ellipsis, x.is "..."
  isVariable : name.kind = .variable
  isDefault : ∀ d ∈ default?, d.1.is "=" ∧ Enclosed (·.is ",") 0 d.2

namespace Form

def value (w : Form) : List Lexeme :=
  match w.default? with
  | none => []
  | some d => d.1 :: d.2

def words (w : Form) : List Lexeme :=
  w.modifiers ++ w.type

def lexemes (w : Form) : List Lexeme :=
  w.groups.flatMap (·.lexemes) ++ (w.words ++ (w.reference.toList ++
    (w.ellipsis.toList ++ w.name :: w.value)))

/-- A parameter like this one with another type. -/
def withType (w : Form) (typeName : Option String) : Parameter :=
  { index := (Lexeme.front w.lexemes).getD 0
    name := w.name.text
    typeName
    isPassedByReference := w.reference.isSome
    hasDefaultValue := w.default?.isSome
    isVariadic := w.ellipsis.isSome }

/-- What the parameter declares. -/
def declared (w : Form) : Declared :=
  ⟨w.withType (typeText (·.spelling) w.type), promotionBy w.modifiers⟩

/-- What is read of it: a word of the type that could be a modifier is taken for one. -/
def read (w : Form) : Declared :=
  ⟨w.withType (typeText (·.text) (w.words.filter (!·.promotes))),
    promotionBy (w.words.filter (·.promotes))⟩

/-- No word of the type could be a modifier, and no cast in it holds blanks. -/
def Plain (w : Form) : Prop :=
  ∀ x ∈ w.type, x.promotes = false ∧ x.spelling = x.text

end Form

/-- Parameters with commas between them; a comma may follow the last one. -/
inductive WritesList : List Form → List Lexeme → Prop where
  | nil : WritesList [] []
  | last (w : Form) : WritesList [w] w.lexemes
  | cons (w : Form) {x : Lexeme} {ws : List Form} {s : List Lexeme} (hx : x.is ",")
    (h : WritesList ws s) : WritesList (w :: ws) (w.lexemes ++ x :: s)

end Parameter

namespace Lexeme

variable {ts : List Token} {stop stop' : Lexeme → Bool} {depth : Nat} {x c : Lexeme} {r s : List Lexeme}

/-! ### Balanced lists -/

theorem Enclosed.append (h : Enclosed stop depth s) (hr : Enclosed stop 0 r) :
    Enclosed stop depth (s ++ r) := by
  induction s generalizing depth with
  | nil =>
    obtain rfl : depth = 0 := h
    exact hr
  | cons x s ih => exact ⟨h.1, ih h.2⟩

theorem Enclosed.mono (h : Enclosed stop depth s) (hstop : ∀ x ∈ s, stop' x → stop x) :
    Enclosed stop' depth s := by
  induction s generalizing depth with
  | nil => exact h
  | cons x s ih =>
    obtain ⟨hx, hs⟩ := List.forall_mem_cons.mp hstop
    refine ⟨fun hends => h.1 ⟨hends.1, ?_⟩, ih h.2 hs⟩
    rcases Bool.or_eq_true_iff.mp hends.2 with hclose | hstopped
    · exact Bool.or_eq_true_iff.mpr (Or.inl hclose)
    · exact Bool.or_eq_true_iff.mpr (Or.inr (hx hstopped))

/-- Nothing stops a reading inside of brackets. -/
theorem Enclosed.inside (h : Enclosed stop depth s) (hc : c.isCloseBracket)
    (hr : Enclosed stop' 0 r) : Enclosed stop' (depth + 1) (s ++ c :: r) := by
  induction s generalizing depth with
  | nil =>
    obtain rfl : depth = 0 := h
    refine ⟨by simp, ?_⟩
    rwa [nested_of_isCloseBracket hc]
  | cons x s ih =>
    refine ⟨by simp, ?_⟩
    rw [nested_add fun hends => h.1 ⟨hends.1, by simp [hends.2]⟩]
    exact ih h.2

theorem Enclosed.cons (hopen : x.isOpenBracket = false) (hclose : x.isCloseBracket = false)
    (hstop : stop x = false) (hr : Enclosed stop 0 r) : Enclosed stop 0 (x :: r) := by
  refine ⟨by simp [hclose, hstop], ?_⟩
  rwa [nested_of_not_bracket hopen hclose]

theorem enclosed_of_plain (h : ∀ x ∈ s, x.isOpenBracket = false ∧ x.isCloseBracket = false ∧
    stop x = false) : Enclosed stop 0 s := by
  induction s with
  | nil => rfl
  | cons x s ih =>
    obtain ⟨⟨hopen, hclose, hstop⟩, hs⟩ := List.forall_mem_cons.mp h
    exact (ih hs).cons hopen hclose hstop

theorem closing_of_enclosed (h : Enclosed stop depth s) (hc : c.isCloseBracket) :
    closing depth (s ++ c :: r) = some (c :: r) := by
  induction s generalizing depth with
  | nil =>
    obtain rfl : depth = 0 := h
    rw [List.nil_append, closing_cons, if_pos ⟨rfl, hc⟩]
  | cons x s ih =>
    rw [List.cons_append, closing_cons, if_neg fun hends => h.1 ⟨hends.1, by simp [hends.2]⟩, ih h.2]

end Lexeme

namespace Parameter

open Lexeme

variable {ts : List Token} {stop : Lexeme → Bool} {depth n : Nat} {x c : Lexeme} {r s : List Lexeme}
  {d : Declared}

/-! ### Where a parameter ends -/

/-- An element goes over what is balanced. -/
theorem element_append (h : Enclosed (·.is ",") depth s) (r : List Lexeme) :
    element depth (s ++ r) = s ++ element 0 r := by
  induction s generalizing depth with
  | nil =>
    obtain rfl : depth = 0 := h
    rfl
  | cons x s ih =>
    have hx : ¬ (depth == 0 && (x.is "," || x.isCloseBracket)) := by
      simpa [or_comm] using h.1
    rw [List.cons_append, element_cons, if_neg hx, ih h.2, List.cons_append]

/-- Inside of a parameter its list neither ends nor goes on to the next one. -/
theorem goesOn_of_enclosed (h : Enclosed (·.is ",") depth (x :: s))
    (hclose : x.is ")" → x.isCloseBracket) :
    ¬ (depth = 0 ∧ (x.is ")" || x.isCloseBracket)) ∧ ¬ (depth = 0 ∧ x.is ",") := by
  have hinside := h.1
  constructor
  · rintro ⟨hzero, hends⟩
    rcases Bool.or_eq_true_iff.mp hends with hparen | hbracket
    · exact hinside ⟨hzero, by rw [hclose hparen, Bool.true_or]⟩
    · exact hinside ⟨hzero, by rw [hbracket, Bool.true_or]⟩
  · rintro ⟨hzero, hcomma⟩
    exact hinside ⟨hzero, Bool.or_eq_true_iff.mpr (.inr hcomma)⟩

/-- So does the search for the next beginning. -/
theorem listElements_append (h : Enclosed (·.is ",") depth s)
    (hclose : ∀ x ∈ s, x.is ")" → x.isCloseBracket) (r : List Lexeme) :
    listElements Lexeme.toToken "," ")" false depth (s ++ r) =
      listElements Lexeme.toToken "," ")" false 0 r := by
  induction s generalizing depth with
  | nil =>
    obtain rfl : depth = 0 := h
    rfl
  | cons x s ih =>
    obtain ⟨hx, hs⟩ := List.forall_mem_cons.mp hclose
    obtain ⟨hgoes, hsame⟩ := goesOn_of_enclosed h hx
    rw [List.cons_append, listElements_step _ (by decide), if_neg hgoes, if_neg hsame,
      if_neg fun hfirst => Bool.false_ne_true hfirst.1, Bool.false_and]
    exact ih h.2 hs

/-- A list goes on behind its first parameter. -/
theorem listElements_cons (hs : s ≠ []) (h : Enclosed (·.is ",") 0 s)
    (hclose : ∀ x ∈ s, x.is ")" → x.isCloseBracket) (hspace : ∀ x ∈ s, x.isSpace = false)
    (r : List Lexeme) : listElements Lexeme.toToken "," ")" true 0 (s ++ r) =
      (s ++ r) :: listElements Lexeme.toToken "," ")" false 0 r := by
  cases s with
  | nil => exact absurd rfl hs
  | cons x s =>
    obtain ⟨hx, hlater⟩ := List.forall_mem_cons.mp hclose
    obtain ⟨hgoes, hsame⟩ := goesOn_of_enclosed h hx
    have hsignificant := hspace x List.mem_cons_self
    rw [List.cons_append, listElements_step _ (by decide), if_neg hgoes, if_neg hsame,
      if_pos ⟨rfl, hsignificant⟩, hsignificant]
    exact congrArg _ (listElements_append h.2 hlater r)

/-! ### Parts of a parameter -/

theorem enclosed_group (g : Group) : Enclosed (·.is ",") 0 g.lexemes := by
  have hinner : Enclosed (·.is ",") 0 (g.opening :: (g.inner ++ [g.closing])) := by
    refine ⟨?_, ?_⟩
    · have hclose := not_isCloseBracket_of_is g.isOpening.2 (by decide)
      have hcomma : g.opening.is "," = false := not_is_of_is g.isOpening.2 (by decide)
      simp [hclose, hcomma]
    · have hnested : nested 0 g.opening.toToken = 1 := if_pos g.isOpening.1
      rw [hnested]
      exact g.balanced.inside g.isClosing rfl
  exact hinner.cons (not_isOpenBracket_of_is g.isHash (by decide))
    (not_isCloseBracket_of_is g.isHash (by decide)) (not_is_of_is g.isHash (by decide))

theorem kind_of_promotes (h : x.promotes) : x.kind = .keyword := by
  unfold promotes Token.isKeyword at h
  simp only [Bool.or_eq_true, Bool.and_eq_true, beq_iff_eq] at h
  exact h.elim (·.1) (·.1)

theorem isTypePart_of_promotes (h : x.promotes) : x.isTypePart := by
  unfold isTypePart isNamePart Token.isIdentifier
  rw [kind_of_promotes h]
  rfl

/-- A part of a type is a word, a separator or a cast, or one of five signs. -/
theorem isTypePart_cases (h : x.isTypePart) : (x.kind = .keyword ∨ x.kind = .name ∨
    x.kind = .nsSeparator ∨ x.kind = .cast) ∨ ∃ sign ∈ ["?", "|", "&", "(", ")"], x.is sign := by
  unfold isTypePart isNamePart Token.isIdentifier at h
  simp only [Bool.or_eq_true, beq_iff_eq] at h
  simp only [List.exists_mem_cons_iff, List.not_mem_nil, false_and, exists_false, or_false]
  tauto

theorem kind_of_isTypePart (h : x.isTypePart) : x.kind ≠ .variable ∧ x.kind ≠ .closeTag := by
  rcases isTypePart_cases h with (hkind | hkind | hkind | hkind) | ⟨sign, _, hsign⟩
  case inr => rcases kind_of_is hsign with hkind | hkind <;> rw [hkind] <;> decide
  all_goals
    rw [hkind]
    decide

/-- No other sign is a part of a type. -/
theorem not_is_of_isTypePart {text : String} (h : x.isTypePart)
    (htext : text ∉ ["?", "|", "&", "(", ")"]) : x.is text = false := by
  rcases isTypePart_cases h with (hkind | hkind | hkind | hkind) | ⟨sign, hsign, hx⟩
  case inr => exact not_is_of_is hx fun heq => htext (heq ▸ hsign)
  all_goals exact not_is_of_kind (by rw [hkind]; decide)

theorem typeText_concat (text : Lexeme → String) (s : List Lexeme) (x : Lexeme) :
    typeText text (s ++ [x]) = some ((typeText text s).getD "" ++ text x) := by
  unfold typeText
  rw [if_neg (List.concat_ne_nil x s), List.map_append, String.join_append, List.map_singleton,
    String.join_cons, String.join_nil, String.append_empty]
  by_cases hs : s = []
  · rw [if_pos hs, hs]
    rfl
  · rw [if_neg hs]
    rfl

theorem promotionBy_concat (s : List Lexeme) (x : Lexeme) :
    promotionBy (s ++ [x]) = some (match Modifier.ofKeyword? x.text with
      | some m => ((promotionBy s).getD .empty).insert m
      | none => (promotionBy s).getD .empty) := by
  have hfold : (promotionBy s).getD .empty =
      (s.filterMap (Modifier.ofKeyword? ·.text)).foldl .insert .empty := by
    unfold promotionBy
    by_cases hs : s = []
    · rw [if_pos hs, hs]
      rfl
    · rw [if_neg hs]
      rfl
  rw [hfold]
  unfold promotionBy
  rw [if_neg (List.concat_ne_nil x s), List.filterMap_append, List.foldl_append,
    List.filterMap_cons, List.filterMap_nil]
  cases Modifier.ofKeyword? x.text <;> rfl

/-! ### What is read of a parameter -/

namespace Declared

/-- Takes in one word or sign of a type, or a modifier. -/
def addWord (d : Declared) (x : Lexeme) : Declared :=
  if x.promotes then
    match Modifier.ofKeyword? x.text with
    | some m => d.addModifier m
    | none => { d with promotion := some (d.promotion.getD .empty) }
  else d.addType x.text

theorem next_eq_addWord (h : x.isTypePart) (hr : x.is "&" → passesReference r = false)
    (d : Declared) : d.next x r = d.addWord x := by
  have hdots : x.is "..." = false := not_is_of_isTypePart h (by decide)
  have hreference : (x.is "&" && passesReference r) = false := by
    cases hamp : x.is "&" with
    | false => rfl
    | true => exact hr hamp
  unfold next addWord
  rw [hdots, hreference]
  by_cases hkind : x.kind = .keyword
  · rw [if_pos (by rw [hkind]; rfl)]
    cases hmodifier : Modifier.ofKeyword? x.text with
    | some m =>
      have hpromotes : x.promotes := by
        unfold promotes
        rw [hkind, hmodifier]
        rfl
      rw [if_pos hpromotes]
    | none =>
      have hpromotes : x.promotes = x.isKeyword "readonly" := by
        unfold promotes
        rw [hmodifier, Option.isSome_none, Bool.and_false, Bool.false_or]
      rw [hpromotes]
      rfl
  · have hpromotes : x.promotes = false :=
      Bool.eq_false_iff.mpr fun hpromotes => hkind (kind_of_promotes hpromotes)
    have hreadonly : x.isKeyword "readonly" = false := Lexeme.not_isKeyword_of_kind hkind
    rw [if_neg (by simpa using hkind), hpromotes, hreadonly]
    rfl

/-- What is read outside of groups of attributes in front of a name. -/
theorem read_cons (hkind : x.kind ≠ .variable) (hhash : x.is "#" = false) (d : Declared) :
    d.read depth none (x :: r) = (d.next x r).read (nested depth x.toToken) none r := by
  have hgroup : opensHashGroup x r = false := by
    unfold opensHashGroup
    rw [hhash, Bool.false_and]
  rw [read, if_neg (by simpa using hkind), hgroup, if_neg Bool.false_ne_true]
  rfl

/-- The words and signs in front of a name are taken in one by one. -/
theorem read_words (hparts : ∀ x ∈ s, x.isTypePart) (hs : Enclosed stop depth s)
    (hlast : ∀ x ∈ s.getLast?, x.is "&" = false) (d : Declared) (r : List Lexeme) :
    d.read depth none (s ++ r) = (s.foldl addWord d).read 0 none r := by
  induction s generalizing depth d with
  | nil =>
    obtain rfl : depth = 0 := hs
    rfl
  | cons x s ih =>
    obtain ⟨hx, hparts⟩ := List.forall_mem_cons.mp hparts
    have hreference : x.is "&" → passesReference (s ++ r) = false := by
      intro hamp
      -- an ampersand in a type is followed by another part of it
      cases s with
      | nil => exact absurd (hlast x rfl) (by rw [hamp]; decide)
      | cons y s =>
        have hy := hparts y List.mem_cons_self
        unfold passesReference
        rw [List.cons_append, List.head?_cons, Option.any_some,
          not_is_of_isTypePart hy (by decide), beq_eq_false_iff_ne.mpr (kind_of_isTypePart hy).1]
        rfl
    have hlast' : ∀ y ∈ s.getLast?, y.is "&" = false := by
      intro y hy
      refine hlast y ?_
      rw [List.getLast?_cons, hy]
      rfl
    rw [List.cons_append, read_cons (kind_of_isTypePart hx).1 (not_is_of_isTypePart hx (by decide)),
      next_eq_addWord hx hreference, List.foldl_cons]
    exact ih hparts hs.2 hlast' (d.addWord x)

/-- The words that promote make up the attributes, and the others the type. -/
theorem foldl_addWord (index : Nat) (s : List Lexeme) : s.foldl addWord (start index) =
    ⟨⟨index, "", typeText (·.text) (s.filter (!·.promotes)), false, false, false⟩,
      promotionBy (s.filter (·.promotes))⟩ := by
  induction s using List.reverseRecOn with
  | nil => rfl
  | append_singleton s x ih =>
    rw [List.foldl_concat, ih, addWord, List.filter_append, List.filter_append]
    by_cases hx : x.promotes
    · rw [if_pos hx, List.filter_cons_of_pos hx, List.filter_cons_of_neg (by simpa using hx),
        List.filter_nil, List.filter_nil, List.append_nil, promotionBy_concat]
      cases Modifier.ofKeyword? x.text <;> rfl
    · rw [if_neg hx, List.filter_cons_of_neg hx, List.filter_cons_of_pos (by simpa using hx),
        List.filter_nil, List.filter_nil, List.append_nil, typeText_concat]
      rfl

/-- Inside of a group of attributes nothing is taken in. -/
theorem read_insideGroup (hs : Enclosed (fun _ => false) n s) (hc : c.isCloseBracket)
    (d : Declared) : d.read depth (some (n + 1)) (s ++ c :: r) = d.read depth none r := by
  induction s generalizing n with
  | nil =>
    obtain rfl : n = 0 := hs
    rw [List.nil_append, read]
    change d.read depth (insideHashGroup 1 c) r = _
    rw [insideHashGroup_succ, if_pos ⟨rfl, hc⟩]
  | cons x s ih =>
    have hgoes : ¬ (n = 0 ∧ x.isCloseBracket) := fun h => hs.1 ⟨h.1, by simp [h.2]⟩
    rw [List.cons_append, read]
    change d.read depth (insideHashGroup (n + 1) x) (s ++ c :: r) = _
    rw [insideHashGroup_succ, if_neg hgoes]
    exact ih hs.2

theorem read_group (g : Group) (d : Declared) (r : List Lexeme) :
    d.read depth none (g.lexemes ++ r) = d.read depth none r := by
  have hkind : g.hash.kind ≠ .variable := by
    rcases kind_of_is g.isHash with hkind | hkind <;> rw [hkind] <;> decide
  have hgroup : opensHashGroup g.hash (g.opening :: (g.inner ++ [g.closing] ++ r)) := by
    unfold opensHashGroup
    rw [g.isHash, List.head?_cons, Option.any_some, g.isOpening.2, g.joined]
    rfl
  have hopening : insideHashGroup 0 g.opening = some 1 := if_pos g.isOpening.1
  unfold Group.lexemes
  rw [List.cons_append, List.cons_append, read, if_neg (by simpa using hkind), if_pos hgroup, read]
  change d.read depth (insideHashGroup 0 g.opening) (g.inner ++ [g.closing] ++ r) = _
  rw [hopening, List.append_assoc]
  exact read_insideGroup g.balanced g.isClosing d

theorem read_groups (groups : List Group) (d : Declared) (r : List Lexeme) :
    d.read depth none (groups.flatMap (·.lexemes) ++ r) = d.read depth none r := by
  induction groups with
  | nil => rfl
  | cons g groups ih => rw [List.flatMap_cons, List.append_assoc, read_group, ih]

/-- An ampersand in front of the name or of the dots passes by reference. -/
theorem read_reference (hx : x.is "&") (hr : passesReference r) (d : Declared) :
    d.read 0 none (x :: r) =
      { d with parameter.isPassedByReference := true }.read 0 none r := by
  have hkind : x.kind ≠ .keyword ∧ x.kind ≠ .variable := by
    rcases kind_of_is hx with hkind | hkind <;> rw [hkind] <;> decide
  rw [read_cons hkind.2 (not_is_of_is hx (by decide)), nested_of_is hx (by decide), next,
    if_neg (by simpa using hkind.1),
    not_isKeyword_of_kind hkind.1, not_is_of_is hx (by decide), hx, hr]
  rfl

theorem read_ellipsis (hx : x.is "...") (d : Declared) :
    d.read 0 none (x :: r) = { d with parameter.isVariadic := true }.read 0 none r := by
  have hkind : x.kind ≠ .keyword ∧ x.kind ≠ .variable := by
    rcases kind_of_is hx with hkind | hkind <;> rw [hkind] <;> decide
  rw [read_cons hkind.2 (not_is_of_is hx (by decide)), nested_of_is hx (by decide), next,
    if_neg (by simpa using hkind.1),
    not_isKeyword_of_kind hkind.1, hx]
  rfl

theorem read_variable (hx : x.kind = .variable) (d : Declared) : d.read depth none (x :: r) =
    { d with parameter.name := x.text, parameter.hasDefaultValue := hasDefault depth r } := by
  rw [read, if_pos (by simpa using hx)]

end Declared

namespace Form

variable (w : Form)

theorem isTypePart_of_mem_words : ∀ x ∈ w.words, x.isTypePart := by
  intro x hx
  rcases List.mem_append.mp hx with hx | hx
  · exact isTypePart_of_promotes (w.isModifier x hx)
  · exact w.isType x hx

theorem enclosed_words : Enclosed (fun _ => false) 0 w.words := by
  refine Enclosed.append (enclosed_of_plain fun x hx => ?_) w.balanced
  have hkind : x.kind ≠ .punct := by
    rw [kind_of_promotes (w.isModifier x hx)]
    decide
  exact ⟨not_isOpenBracket_of_kind hkind, not_isCloseBracket_of_kind hkind, rfl⟩

theorem words_end : ∀ x ∈ w.words.getLast?, x.is "&" = false := by
  intro x hx
  unfold words at hx
  rw [List.getLast?_append] at hx
  cases htype : w.type.getLast? with
  | some y =>
    rw [htype, Option.some_or] at hx
    exact w.typeEnds x (htype.trans hx)
  | none =>
    rw [htype, Option.none_or] at hx
    refine not_is_of_kind ?_
    rw [kind_of_promotes (w.isModifier x (List.mem_of_getLast? hx))]
    decide

theorem hasDefault_value : hasDefault 0 w.value = w.default?.isSome := by
  unfold value
  cases hdefault : w.default? with
  | none => rfl
  | some d =>
    obtain ⟨heq, _⟩ := w.isDefault d hdefault
    dsimp only
    rw [hasDefault_cons, nested_of_is heq (by decide), heq]
    rfl

/-- The lexemes of a parameter are read up to its name; a default value may follow. -/
theorem read_append (index : Nat) (r : List Lexeme) :
    (Declared.start index).read 0 none (w.lexemes ++ r) =
      ⟨{ w.read.parameter with index, hasDefaultValue := hasDefault 0 (w.value ++ r) },
        w.read.promotion⟩ := by
  unfold lexemes
  simp only [List.append_assoc, List.cons_append]
  rw [Declared.read_groups, Declared.read_words w.isTypePart_of_mem_words w.enclosed_words w.words_end,
    Declared.foldl_addWord]
  -- the name and the dots first: an ampersand in front of them is told by what follows it
  have hellipsis (d : Declared) : d.read 0 none (w.ellipsis.toList ++ w.name :: (w.value ++ r)) =
      ⟨{ d.parameter with
          name := w.name.text
          hasDefaultValue := hasDefault 0 (w.value ++ r)
          isVariadic := d.parameter.isVariadic || w.ellipsis.isSome }, d.promotion⟩ := by
    cases hdots : w.ellipsis with
    | none =>
      rw [Option.toList_none, List.nil_append, Declared.read_variable w.isVariable,
        Option.isSome_none, Bool.or_false]
    | some x =>
      rw [Option.toList_some, List.singleton_append,
        Declared.read_ellipsis (w.isEllipsis x hdots), Declared.read_variable w.isVariable,
        Option.isSome_some, Bool.or_true]
  cases hreference : w.reference with
  | none =>
    rw [Option.toList_none, List.nil_append, hellipsis]
    simp only [read, withType, hreference, Option.isSome_none, Bool.false_or]
  | some x =>
    have hpasses : passesReference (w.ellipsis.toList ++ w.name :: (w.value ++ r)) := by
      unfold passesReference
      cases hdots : w.ellipsis with
      | none =>
        rw [Option.toList_none, List.nil_append, List.head?_cons, Option.any_some, w.isVariable]
        rfl
      | some y =>
        rw [Option.toList_some, List.singleton_append, List.head?_cons, Option.any_some,
          w.isEllipsis y hdots, Bool.or_true]
    rw [Option.toList_some, List.singleton_append,
      Declared.read_reference (w.isReference x hreference) hpasses, hellipsis]
    simp only [read, withType, hreference, Option.isSome_some, Bool.false_or]

/-- The lexemes of a parameter alone are read as what it says. -/
theorem read_lexemes (index : Nat) : (Declared.start index).read 0 none w.lexemes =
    ⟨{ w.read.parameter with index }, w.read.promotion⟩ := by
  have hread := w.read_append index []
  rw [List.append_nil, List.append_nil, hasDefault_value] at hread
  exact hread

theorem enclosed_value : Enclosed (·.is ",") 0 w.value := by
  unfold value
  cases hdefault : w.default? with
  | none => rfl
  | some d =>
    obtain ⟨heq, hvalue⟩ := w.isDefault d hdefault
    exact hvalue.cons (not_isOpenBracket_of_is heq (by decide))
      (not_isCloseBracket_of_is heq (by decide)) (not_is_of_is heq (by decide))

/-- No comma stands at the level of the list. -/
theorem enclosed_lexemes : Enclosed (·.is ",") 0 w.lexemes := by
  have hgroups : Enclosed (·.is ",") 0 (w.groups.flatMap (·.lexemes)) := by
    induction w.groups with
    | nil => rfl
    | cons g groups ih => exact (enclosed_group g).append ih
  have hwords : Enclosed (·.is ",") 0 w.words := w.enclosed_words.mono fun x hx hcomma => by
    rw [not_is_of_isTypePart (w.isTypePart_of_mem_words x hx) (by decide)] at hcomma
    contradiction
  have hname : w.name.kind ≠ .punct ∧ w.name.kind ≠ .operator := by
    rw [w.isVariable]
    decide
  refine hgroups.append (hwords.append ?_)
  refine Enclosed.append (enclosed_of_plain fun x hx => ?_) (Enclosed.append
    (enclosed_of_plain fun x hx => ?_) (w.enclosed_value.cons (not_isOpenBracket_of_kind hname.1)
      (not_isCloseBracket_of_kind hname.1) (not_is_of_kind hname)))
  · have hx := w.isReference x (Option.mem_toList.mp hx)
    exact ⟨not_isOpenBracket_of_is hx (by decide), not_isCloseBracket_of_is hx (by decide),
      not_is_of_is hx (by decide)⟩
  · have hx := w.isEllipsis x (Option.mem_toList.mp hx)
    exact ⟨not_isOpenBracket_of_is hx (by decide), not_isCloseBracket_of_is hx (by decide),
      not_is_of_is hx (by decide)⟩

theorem lexemes_ne_nil : w.lexemes ≠ [] := by
  unfold lexemes
  simp

/-- A parameter ends with the comma or the bracket behind it. -/
theorem ofLexemes_append (hx : x.is "," ∨ x.isCloseBracket) (r : List Lexeme) :
    Declared.ofLexemes (w.lexemes ++ x :: r) = w.read := by
  have hend : element 0 (x :: r) = [] := by
    rw [element, if_pos (by simpa using hx)]
  unfold Declared.ofLexemes
  rw [element_append w.enclosed_lexemes, hend, List.append_nil, read_lexemes,
    List.head?_append_of_ne_nil _ w.lexemes_ne_nil]
  rfl

/-- What of a text is no blank. -/
def inked (s : String) : List Char :=
  s.toList.filter (!Text.isTabOrSpace ·)

theorem inked_spelling (x : Lexeme) : inked x.spelling = inked x.text := by
  unfold spelling inked
  split
  · rw [String.toList_ofList, List.filter_filter]
    simp
  · rfl

theorem inked_join (text : Lexeme → String) (s : List Lexeme) :
    inked (String.join (s.map text)) = s.flatMap fun x => inked (text x) := by
  induction s with
  | nil => rfl
  | cons x s ih =>
    rw [List.map_cons, String.join_cons, List.flatMap_cons, ← ih]
    unfold inked
    rw [String.toList_append, List.filter_append]

theorem inked_of_promotes {x : Lexeme} (h : x.promotes) : inked x.text ≠ [] := by
  have hword : Text.fold x.text ∈ ["public", "var", "protected", "private", "static", "abstract",
      "final", "readonly"] := by
    rcases Bool.or_eq_true_iff.mp h with h | h
    · have hmodifier := (Bool.and_eq_true_iff.mp h).2
      unfold Modifier.ofKeyword? at hmodifier
      split at hmodifier
      case h_8 => contradiction
      all_goals simp [*]
    · have hreadonly : Text.fold x.text = "readonly" :=
        (beq_iff_eq.mp (Bool.and_eq_true_iff.mp h).2).trans (by decide)
      simp [hreadonly]
  intro hnil
  have hblank : (Text.fold x.text).toList.all Text.isTabOrSpace := by
    unfold Text.fold
    rw [String.toList_ofList, List.all_map, List.all_eq_true]
    intro c hc
    have hc : Text.isTabOrSpace c := by
      simpa using (List.filter_eq_nil_iff.mp hnil) c hc
    unfold Text.isTabOrSpace at hc
    simp only [Bool.or_eq_true, beq_iff_eq] at hc
    rcases hc with rfl | rfl <;> rfl
  revert hblank
  generalize Text.fold x.text = word at hword
  revert hword
  revert word
  decide

/-- Blanks are lost, and nothing else. -/
theorem length_join_spelling (s : List Lexeme) :
    (String.join (s.map (·.spelling))).length ≤ (String.join (s.map (·.text))).length ∧
      ((String.join (s.map (·.spelling))).length = (String.join (s.map (·.text))).length →
        ∀ x ∈ s, x.spelling = x.text) := by
  induction s with
  | nil => exact ⟨Nat.le_refl _, fun _ => nofun⟩
  | cons x s ih =>
    have hx : x.spelling.length ≤ x.text.length ∧
        (x.spelling.length = x.text.length → x.spelling = x.text) := by
      unfold spelling
      split
      · rw [String.length_ofList, ← String.length_toList]
        refine ⟨List.length_filter_le _ _, fun heq => ?_⟩
        rw [List.filter_eq_self.mpr (List.length_filter_eq_length_iff.mp heq), String.ofList_toList]
      · exact ⟨Nat.le_refl _, fun _ => rfl⟩
    simp only [List.map_cons, String.join_cons, String.length_append]
    refine ⟨Nat.add_le_add hx.1 ih.1, fun heq => List.forall_mem_cons.mpr ⟨hx.2 ?_, ih.2 ?_⟩⟩
    · have := hx.1
      have := ih.1
      omega
    · have := hx.1
      have := ih.1
      omega

theorem plain_of_typeText {s : List Lexeme}
    (h : typeText (·.text) (s.filter (!·.promotes)) = typeText (·.spelling) s) :
    ∀ x ∈ s, x.promotes = false ∧ x.spelling = x.text := by
  unfold typeText at h
  by_cases hs : s = []
  · rw [hs]
    exact nofun
  rw [if_neg hs] at h
  split at h
  · contradiction
  have hjoin := Option.some.inj h
  have hinked := congrArg inked hjoin
  simp only [inked_join, inked_spelling] at hinked
  -- what promotes would be missing from the text
  have hperm := (List.filter_append_perm (·.promotes) s).flatMap_right fun x => inked x.text
  have hlength := hperm.length_eq
  rw [List.flatMap_append, hinked, List.length_append, Nat.add_eq_right, List.length_eq_zero_iff,
    List.flatMap_eq_nil_iff] at hlength
  have hnone : ∀ x ∈ s, x.promotes = false := fun x hx => Bool.eq_false_iff.mpr fun hpromotes =>
    inked_of_promotes hpromotes (hlength x (List.mem_filter.mpr ⟨hx, hpromotes⟩))
  have hall : s.filter (!·.promotes) = s :=
    List.filter_eq_self.mpr fun x hx => by rw [hnone x hx]; rfl
  rw [hall] at hjoin
  have htext := (length_join_spelling s).2 (congrArg String.length hjoin.symm)
  exact fun x hx => ⟨hnone x hx, htext x hx⟩

/-- A parameter is read as it is declared exactly if its type is plain. -/
theorem read_eq_declared_iff : w.read = w.declared ↔ w.Plain := by
  have hmodifiers : w.modifiers.filter (!·.promotes) = [] :=
    List.filter_eq_nil_iff.mpr fun x hx => by rw [w.isModifier x hx]; decide
  have htype : w.words.filter (!·.promotes) = w.type.filter (!·.promotes) := by
    unfold words
    rw [List.filter_append, hmodifiers, List.nil_append]
  constructor
  · intro h
    have htext := congrArg (·.parameter.typeName) h
    dsimp only [read, declared, withType] at htext
    rw [htype] at htext
    exact plain_of_typeText htext
  · intro h
    have hnone : w.type.filter (·.promotes) = [] :=
      List.filter_eq_nil_iff.mpr fun x hx => by rw [(h x hx).1]; decide
    have hall : w.type.filter (!·.promotes) = w.type :=
      List.filter_eq_self.mpr fun x hx => by rw [(h x hx).1]; rfl
    have hpromotes : w.words.filter (·.promotes) = w.modifiers := by
      unfold words
      rw [List.filter_append, hnone, List.append_nil, List.filter_eq_self]
      exact w.isModifier
    have htexts : w.type.map (·.text) = w.type.map (·.spelling) :=
      List.map_congr_left fun x hx => (h x hx).2.symm
    unfold read declared typeText
    rw [htype, hall, hpromotes, htexts]

end Form

/-- A written list is read as its parameters, one behind the other. -/
theorem readList_of_writesList {ws : List Form} (h : WritesList ws s) (hc : c.isCloseBracket)
    (hclose : ∀ x ∈ s, x.is ")" → x.isCloseBracket) (hspace : ∀ x ∈ s, x.isSpace = false)
    (r : List Lexeme) : readList (s ++ c :: r) = ws.map Form.read := by
  have hend (fresh : Bool) :
      listElements Lexeme.toToken "," ")" fresh 0 (c :: r) = [] := by
    rw [listElements_step _ (by decide), if_pos ⟨rfl, by rw [hc, Bool.or_true]⟩]
  unfold readList
  induction h with
  | nil =>
    rw [List.nil_append, hend]
    rfl
  | last w =>
    rw [listElements_cons w.lexemes_ne_nil w.enclosed_lexemes hclose hspace, hend, List.map_singleton,
      w.ofLexemes_append (Or.inr hc)]
    rfl
  | @cons w x ws s hx h ih =>
    obtain ⟨hclose, hlater⟩ := List.forall_mem_append.mp hclose
    obtain ⟨hspace, hlater'⟩ := List.forall_mem_append.mp hspace
    have hnext : listElements Lexeme.toToken "," ")" false 0 (x :: (s ++ c :: r)) =
        listElements Lexeme.toToken "," ")" true 0 (s ++ c :: r) := by
      have hgoes : (x.is ")" || x.isCloseBracket) = false := by
        rw [not_is_of_is hx (by decide), not_isCloseBracket_of_is hx (by decide), Bool.or_self]
      rw [listElements_step _ (by decide), if_neg (by simp [hgoes]), if_pos ⟨rfl, hx⟩]
    rw [List.append_assoc, List.cons_append, listElements_cons w.lexemes_ne_nil w.enclosed_lexemes
      hclose hspace, hnext, List.map_cons, w.ofLexemes_append (Or.inl hx), List.map_cons]
    exact congrArg _ (ih (List.forall_mem_cons.mp hlater).2 (List.forall_mem_cons.mp hlater').2)

end Parameter

end PhpLint
