import PhpLint.Proofs.Model.Qualify
import PhpLint.Proofs.Text.Words

/-!
Names inside written types. A type is taken apart at the characters that are no letters, numbers,
underscores or separators, and each part is resolved by itself. A name with such a character in it
is resolved in another way than a name that is taken as a whole.
-/
namespace PhpLint

namespace Namespace

variable {ns : Namespace} {s t w r later : List Char} {c : Char}

/-- A character between the words of a type. -/
def endsTypeName (c : Char) : Bool :=
  !isTypeNameChar c

/-- A name that is one word of a type, or one whose first word holds a separator while all later
words are builtin types. -/
def ResolvesAlike (name : List Char) : Prop :=
  (∀ c ∈ name, endsTypeName c = false) ∨
    ∃ first c later, name = first ++ c :: later ∧ (∀ d ∈ first, endsTypeName d = false) ∧
      '\\' ∈ first ∧ endsTypeName c = true ∧
      ∀ word ∈ Text.piecesBy endsTypeName later, Token.isBuiltinType (String.ofList word) = true

/-! ### Words of a type -/

theorem endsTypeName_iff : endsTypeName c = true ↔ isTypeNameChar c = false := by
  simp [endsTypeName]

theorem not_endsTypeName_iff : endsTypeName c = false ↔ isTypeNameChar c = true := by
  simp [endsTypeName]

theorem resolveWords_word (hw : ∀ c ∈ w, endsTypeName c = false) (word : List Char) :
    resolveWords ns word w = resolveWord ns (word.reverse ++ w) := by
  induction w generalizing word with
  | nil => rw [resolveWords, List.append_nil]
  | cons c w ih =>
    rw [List.forall_mem_cons] at hw
    rw [resolveWords, if_pos (not_endsTypeName_iff.mp hw.1), ih hw.2, List.reverse_cons,
      List.append_assoc, List.singleton_append]

/-- A character between words ends the word in progress, and nothing else of what is in front. -/
theorem resolveWords_append_cons (hc : endsTypeName c = true) (word s r : List Char) :
    resolveWords ns word (s ++ c :: r) = resolveWords ns word s ++ c :: resolveWords ns [] r := by
  induction s generalizing word with
  | nil =>
    rw [List.nil_append, resolveWords, resolveWords, endsTypeName_iff.mp hc,
      if_neg Bool.false_ne_true]
  | cons d s ih =>
    rw [List.cons_append, resolveWords, resolveWords]
    by_cases hd : isTypeNameChar d
    · rw [if_pos hd, if_pos hd, ih]
    · rw [if_neg hd, if_neg hd, ih, List.append_assoc, List.cons_append]

theorem resolveWords_append (hw : ∀ c ∈ w, endsTypeName c = false) (hc : endsTypeName c = true)
    (word r : List Char) : resolveWords ns word (w ++ c :: r) =
      resolveWord ns (word.reverse ++ w) ++ c :: resolveWords ns [] r := by
  rw [resolveWords_append_cons hc, resolveWords_word hw]

theorem resolveWord_class (hw : w ≠ []) (hclass : Token.isBuiltinType (String.ofList w) = false) :
    resolveWord ns w = (ns.qualify (String.ofList w)).toList := by
  unfold resolveWord
  rw [if_neg (by simpa using hw), hclass, if_neg Bool.false_ne_true]

theorem resolveWord_builtin (hbuiltin : Token.isBuiltinType (String.ofList w) = true) :
    resolveWord ns w = w := by
  unfold resolveWord
  split_ifs with hw
  · exact (List.isEmpty_iff.mp hw).symm
  · rfl

/-- A text without class names stays as it is. -/
theorem resolveWords_of_builtin (h : ∀ word ∈ Text.piecesBy endsTypeName s,
    Token.isBuiltinType (String.ofList word) = true) : resolveWords ns [] s = s := by
  have hword {w : List Char} (hw : ∀ c ∈ w, endsTypeName c = false)
      (h : ∀ word ∈ Text.piecesBy endsTypeName w, Token.isBuiltinType (String.ofList word) = true) :
      resolveWord ns w = w := by
    by_cases hempty : w = []
    · rw [hempty]
      rfl
    · rw [Text.piecesBy_of_not hw, if_neg hempty, List.forall_mem_singleton] at h
      exact resolveWord_builtin h
  induction s using Text.separators_induction (p := endsTypeName) with
  | free w hw =>
    rw [resolveWords_word hw]
    exact hword hw h
  | separated w c r hw hc ih =>
    rw [Text.piecesBy_append_cons hc, List.forall_mem_append] at h
    rw [resolveWords_append hw hc, ih h.2, List.reverse_nil, List.nil_append, hword hw h.1]

/-! ### Types part by part -/

/-- The words of a type, each as long as possible, and the characters between them. -/
def typeParts (type : List Char) : List (List Char) :=
  type.splitBy fun c d => isTypeNameChar c && isTypeNameChar d

/-- What stands in the place of a part: a full name, if it is a word and no builtin type. -/
def resolvePart (ns : Namespace) (part : List Char) : List Char :=
  if part.all isTypeNameChar && !Token.isBuiltinType (String.ofList part) then
    (ns.qualify (String.ofList part)).toList
  else part

theorem isTypeNameChar_iff :
    isTypeNameChar c ↔ Text.isAlphanumeric c ∨ c = '_' ∨ c = '\\' := by
  simp [isTypeNameChar, or_assoc]

theorem isBuiltinType_iff {word : String} :
    Token.isBuiltinType word ↔ ∃ t ∈ Token.builtinTypes, Text.sameFold word t := by
  have hfold : ∀ t ∈ Token.builtinTypes, Text.fold t = t := by decide
  unfold Token.isBuiltinType Text.sameFold
  rw [List.contains_iff_mem]
  constructor
  · exact fun h => ⟨_, h, by rw [hfold _ h, beq_self_eq_true]⟩
  · rintro ⟨t, ht, heq⟩
    rwa [beq_iff_eq.mp heq, hfold t ht]

theorem typeParts_word (hne : w ≠ []) (hw : ∀ c ∈ w, endsTypeName c = false) :
    typeParts w = [w] := by
  have hname (c : Char) (hc : c ∈ w) : isTypeNameChar c = true := not_endsTypeName_iff.mp (hw c hc)
  refine List.splitBy_of_isChain hne (List.Pairwise.isChain ?_)
  refine List.pairwise_of_forall_mem_list fun c hc d hd => ?_
  rw [hname c hc, hname d hd, Bool.and_self]

theorem typeParts_append_cons (hc : endsTypeName c = true) (s r : List Char) :
    typeParts (s ++ c :: r) = typeParts s ++ [c] :: typeParts r := by
  have hend := endsTypeName_iff.mp hc
  unfold typeParts
  rw [List.splitBy_append_cons r fun d _ => by rw [hend, Bool.and_false], ← List.singleton_append,
    List.splitBy_append fun d hd e _ => by
      rw [List.getLast?_singleton, Option.mem_some_iff] at hd
      rw [← hd, hend, Bool.false_and]]
  rfl

theorem resolvePart_word (hne : w ≠ []) (hw : ∀ c ∈ w, endsTypeName c = false) :
    resolvePart ns w = resolveWord ns w := by
  have hall : w.all isTypeNameChar := by simpa [not_endsTypeName_iff] using hw
  unfold resolvePart
  cases hbuiltin : Token.isBuiltinType (String.ofList w) with
  | true =>
    rw [resolveWord_builtin hbuiltin, Bool.not_true, Bool.and_false, if_neg Bool.false_ne_true]
  | false => rw [resolveWord_class hne hbuiltin, hall, Bool.not_false, Bool.and_true, if_pos rfl]

theorem resolvePart_single (hc : endsTypeName c = true) : resolvePart ns [c] = [c] := by
  have hend := endsTypeName_iff.mp hc
  unfold resolvePart
  rw [List.all_cons, hend]
  rfl

theorem resolveWords_eq_flatMap (ns : Namespace) (s : List Char) :
    resolveWords ns [] s = (typeParts s).flatMap (resolvePart ns) := by
  have hword {w : List Char} (hw : ∀ c ∈ w, endsTypeName c = false) :
      resolveWord ns w = (typeParts w).flatMap (resolvePart ns) := by
    by_cases hne : w = []
    · rw [hne]
      rfl
    · rw [typeParts_word hne hw, List.flatMap_singleton, resolvePart_word hne hw]
  induction s using Text.separators_induction (p := endsTypeName) with
  | free w hw => rw [resolveWords_word hw, List.reverse_nil, List.nil_append, hword hw]
  | separated w c r hw hc ih =>
    rw [resolveWords_append hw hc, ih, typeParts_append_cons hc, List.flatMap_append,
      List.flatMap_cons, resolvePart_single hc, List.reverse_nil, List.nil_append, hword hw,
      List.singleton_append]

/--
A character that is of no word stands between two types that are resolved by themselves. A word is
kept if it is a builtin type, and is otherwise a class name. So every word of a type is resolved by
itself, and all else is kept.
-/
theorem resolveType_wordwise (ns : Namespace) :
    (∀ (a b : String) (c : Char), ¬ (Text.isAlphanumeric c ∨ c = '_' ∨ c = '\\') →
      ns.resolveType (a ++ String.singleton c ++ b) =
        ns.resolveType a ++ String.singleton c ++ ns.resolveType b) ∧
    (∀ w : String, w ≠ "" → (∀ c ∈ w.toList, Text.isAlphanumeric c ∨ c = '_' ∨ c = '\\') →
      ((∃ t ∈ Token.builtinTypes, Text.sameFold w t) → ns.resolveType w = w) ∧
      ((¬ ∃ t ∈ Token.builtinTypes, Text.sameFold w t) → ns.resolveType w = ns.qualify w)) ∧
    ∀ type : String, ns.resolveType type =
      String.ofList ((typeParts type.toList).flatMap ns.resolvePart) := by
  refine ⟨fun a b c hc => ?_, fun w hne hw => ?_, fun type => ?_⟩
  · have hends : endsTypeName c = true := by
      rw [← isTypeNameChar_iff] at hc
      simpa [endsTypeName_iff] using hc
    unfold resolveType
    rw [← String.toList_inj]
    simp [resolveWords_append_cons hends]
  · have hword : ∀ c ∈ w.toList, endsTypeName c = false :=
      fun c hc => not_endsTypeName_iff.mpr (isTypeNameChar_iff.mpr (hw c hc))
    have hnil : w.toList ≠ [] := by simpa using hne
    have hresolve : ns.resolveType w = String.ofList (resolveWord ns w.toList) := by
      rw [resolveType, resolveWords_word hword]
      rfl
    rw [← isBuiltinType_iff, hresolve]
    constructor
    · intro hbuiltin
      rw [resolveWord_builtin (by rwa [String.ofList_toList]), String.ofList_toList]
    · intro hclass
      rw [resolveWord_class hnil (by rwa [String.ofList_toList, ← Bool.not_eq_true]),
        String.ofList_toList, String.ofList_toList]
  · rw [resolveType, resolveWords_eq_flatMap]

/-- A union of an intersection in parentheses and a builtin type, where one class is imported. -/
theorem resolveType_wordwise_union :
    let ns : Namespace := { globalFrom 0 with name := "N", imports := [("foo", "Lib\\Foo")] }
    ns.resolveType "(Foo&Bar)|FALSE" = "(Lib\\Foo&N\\Bar)|FALSE" ∧
      ns.resolveType ("(Foo&Bar)" ++ String.singleton '|' ++ "FALSE") =
        ns.resolveType "(Foo&Bar)" ++ String.singleton '|' ++ ns.resolveType "FALSE" ∧
      ns.resolveType "FALSE" = "FALSE" ∧ ns.resolveType "Foo" = ns.qualify "Foo" := by
  intro ns
  obtain ⟨happend, hword, -⟩ := resolveType_wordwise ns
  have hbar : isTypeNameChar '|' = false := by decide +kernel
  have hchars {w : String} (hall : w.toList.all isTypeNameChar = true) :
      ∀ c ∈ w.toList, Text.isAlphanumeric c ∨ c = '_' ∨ c = '\\' :=
    fun c hc => isTypeNameChar_iff.mp (List.all_eq_true.mp hall c hc)
  refine ⟨by decide +kernel, happend _ _ '|' (by rw [← isTypeNameChar_iff, hbar]; nofun), ?_, ?_⟩
  · exact (hword "FALSE" (by decide) (hchars (by decide +kernel))).1 (by decide)
  · exact (hword "Foo" (by decide) (hchars (by decide +kernel))).2 (by decide)

/-! ### Names that are resolved alike -/

theorem isBuiltinType_of_separator (h : '\\' ∈ w) :
    Token.isBuiltinType (String.ofList w) = false := by
  have hnone : ∀ word ∈ Token.builtinTypes, '\\' ∉ word.toList := by decide
  have hlower := Text.toLower_mem_fold h
  rw [Bool.eq_false_iff]
  intro hbuiltin
  exact hnone _ (List.contains_iff_mem.mp hbuiltin) hlower

theorem ResolvesAlike.resolveType_eq (h : ResolvesAlike s) (hs : s ≠ [])
    (hclass : Token.isBuiltinType (String.ofList s) = false) (ns : Namespace) :
    ns.resolveType (String.ofList s) = ns.qualify (String.ofList s) := by
  unfold resolveType
  rw [String.toList_ofList]
  rcases h with hword | ⟨first, c, later, rfl, hfirst, hseparator, hc, hlater⟩
  · rw [resolveWords_word hword, List.reverse_nil, List.nil_append, resolveWord_class hs hclass,
      String.ofList_toList]
  · rw [resolveWords_append hfirst hc, resolveWords_of_builtin hlater, List.reverse_nil,
      List.nil_append, resolveWord_class (List.ne_nil_of_mem hseparator)
        (isBuiltinType_of_separator hseparator), qualify_append hseparator, String.ofList_append,
      String.ofList_toList]

/-! ### Only those names are -/

/-- The record of a namespace `N`. -/
def named (imports : ImportMap) : Namespace :=
  { globalFrom 0 with name := "N", imports }

theorem qualifyLocal_named (imports : ImportMap) (s : List Char) :
    (qualifyLocal (named imports).name (String.ofList s)).toList = 'N' :: '\\' :: s := by
  simp [toList_qualifyLocal, named]

/-- Its name is put in front, perhaps in the place of what refers to it. -/
theorem qualify_named (hs : s.head? ≠ some '\\') : ∃ r,
    (r = s ∨ ∃ first, Text.sameFold (String.ofList first) "namespace" = true ∧
      s = first ++ '\\' :: r) ∧
    ((named []).qualify (String.ofList s)).toList = 'N' :: '\\' :: r := by
  have hsegments := isSegments_takeWhile s
  generalize s.takeWhile (· != '\\') = first at hsegments
  generalize s.dropWhile (· != '\\') = rest at hsegments
  by_cases hrelative : IsRelative first rest
  · obtain ⟨r, rfl⟩ := hsegments.rest.resolve_left hrelative.2
    rw [qualify_relative hsegments hs hrelative, qualifyLocal_named]
    exact ⟨r, .inr ⟨first, hrelative.1, hsegments.eq⟩, rfl⟩
  · rw [qualify_local hsegments hs hrelative rfl, qualifyLocal_named]
    exact ⟨s, .inl rfl, rfl⟩

theorem not_mem_of_ends (hw : ∀ d ∈ w, endsTypeName d = false) (hc : endsTypeName c = true) :
    c ∉ w := by
  intro hmem
  rw [hw c hmem] at hc
  contradiction

theorem resolveWord_named (hw : ∀ c ∈ w, endsTypeName c = false) :
    (∀ c ∈ resolveWord (named []) w, endsTypeName c = false) ∧
      (w ≠ [] → resolveWord (named []) w = w → Token.isBuiltinType (String.ofList w) = true) := by
  by_cases hne : w = []
  · rw [hne]
    exact ⟨nofun, absurd rfl⟩
  cases hbuiltin : Token.isBuiltinType (String.ofList w) with
  | true =>
    rw [resolveWord_builtin hbuiltin]
    exact ⟨hw, fun _ _ => rfl⟩
  | false =>
    rw [resolveWord_class hne hbuiltin]
    by_cases hhead : w.head? = some '\\'
    · obtain ⟨r, rfl⟩ := List.head?_eq_some_iff.mp hhead
      rw [qualify_full, String.toList_ofList]
      exact ⟨(List.forall_mem_cons.mp hw).2, fun _ heq => absurd heq.symm (List.cons_ne_self _ _)⟩
    · obtain ⟨r, hr, heq⟩ := qualify_named hhead
      rw [heq]
      have hchars : ∀ c ∈ r, endsTypeName c = false := by
        rcases hr with rfl | ⟨first, -, rfl⟩
        · exact hw
        · exact fun c hc => hw c (by simp [hc])
      constructor
      · rw [List.forall_mem_cons, List.forall_mem_cons]
        exact ⟨by decide +kernel, by decide +kernel, hchars⟩
      · intro _ hsame
        rcases hr with rfl | ⟨first, hfirst, rfl⟩
        · have hlength := congrArg List.length hsame
          simp only [List.length_cons] at hlength
          omega
        · have hN : '\\' ∉ ['N'] := by decide
          obtain ⟨rfl, -⟩ := Text.append_separator_inj hN (not_mem_of_sameFold hfirst) hsame
          exact absurd hfirst (by decide)

/-- What the namespace `N` leaves as it is holds builtin types only. -/
theorem builtin_of_resolveWords (h : resolveWords (named []) [] s = s) :
    ∀ word ∈ Text.piecesBy endsTypeName s, Token.isBuiltinType (String.ofList word) = true := by
  have hpiece {w : List Char} (hw : ∀ c ∈ w, endsTypeName c = false)
      (h : resolveWord (named []) w = w) : ∀ word ∈ Text.piecesBy endsTypeName w,
        Token.isBuiltinType (String.ofList word) = true := by
    rw [Text.piecesBy_of_not hw]
    split_ifs with hempty
    · nofun
    · rw [List.forall_mem_singleton]
      exact (resolveWord_named hw).2 hempty h
  induction s using Text.separators_induction (p := endsTypeName) with
  | free w hw =>
    rw [resolveWords_word hw] at h
    exact hpiece hw h
  | separated w c r hw hc ih =>
    rw [resolveWords_append hw hc] at h
    obtain ⟨hword, hrest⟩ := Text.append_separator_inj
      (not_mem_of_ends (resolveWord_named hw).1 hc) (not_mem_of_ends hw hc) h
    rw [Text.piecesBy_append_cons hc, List.forall_mem_append]
    exact ⟨hpiece hw hword, ih hrest⟩

theorem isTypeNameChar_of_letter (h : 'A'.toNat ≤ c.toNat ∧ c.toNat ≤ 'Z'.toNat ∨
    'a'.toNat ≤ c.toNat ∧ c.toNat ≤ 'z'.toNat) : isTypeNameChar c = true := by
  have hrange (first last : Nat) (hmem : (first, last) ∈ Text.alphanumericRanges)
      (h : first ≤ c.toNat ∧ c.toNat ≤ last) : isTypeNameChar c = true := by
    have hletter : Text.isAlphanumeric c = true :=
      List.any_eq_true.mpr ⟨(first, last), hmem, by simpa using h⟩
    rw [isTypeNameChar, hletter]
    rfl
  rcases h with h | h
  · exact hrange _ _ (by decide) h
  · exact hrange _ _ (by decide) h

theorem isTypeNameChar_of_toLower (h : c.toLower ∈ "namespace".toList) :
    isTypeNameChar c = true := by
  have hsmall : ∀ d ∈ "namespace".toList, 'a'.toNat ≤ d.toNat ∧ d.toNat ≤ 'z'.toNat := by
    simp
  apply isTypeNameChar_of_letter
  unfold Char.toLower at h
  split_ifs at h with hupper
  · exact .inl hupper
  · exact .inr (hsmall c h)

/-- The first segment is no longer the word in front of a character that is of no word. -/
theorem separator_of_resolveWords (hfirst : ∀ d ∈ first, endsTypeName d = false)
    (hc : endsTypeName c = true)
    (h : ∀ ns : Namespace, resolveWord ns first ++ c :: resolveWords ns [] later =
      (ns.qualify (String.ofList (first ++ c :: later))).toList) : '\\' ∈ first := by
  by_contra hseparator
  have hne : c ≠ '\\' := by
    rintro rfl
    exact absurd hc (by decide +kernel)
  have hsegments : IsSegments (first ++ c :: later.takeWhile (· != '\\'))
      (later.dropWhile (· != '\\')) (first ++ c :: later) := by
    have hlater := isSegments_takeWhile later
    refine ⟨?_, ?_, hlater.rest⟩
    · rw [List.append_assoc, List.cons_append, ← hlater.eq]
    · simp only [List.mem_append, List.mem_cons, not_or]
      exact ⟨hseparator, hne.symm, hlater.first⟩
  have hhead : (first ++ c :: later).head? ≠ some '\\' := hsegments.head?_ne (by simp)
  have hrelative : ¬ IsRelative (first ++ c :: later.takeWhile (· != '\\'))
      (later.dropWhile (· != '\\')) := by
    intro hrelative
    have hlower := toLower_mem_of_sameFold hrelative.1 (c := c) (by simp)
    rw [endsTypeName, isTypeNameChar_of_toLower hlower] at hc
    contradiction
  -- an import gives the word its own name as full name, and does not apply to the longer segment
  let imports : ImportMap := [(Text.fold (String.ofList first), String.ofList first)]
  have hword : resolveWord (named imports) first = first := by
    by_cases hempty : first = []
    · rw [hempty]
      rfl
    cases hbuiltin : Token.isBuiltinType (String.ofList first) with
    | true => exact resolveWord_builtin hbuiltin
    | false =>
      have halone : IsSegments first [] first := ⟨(List.append_nil _).symm, hseparator, .inl rfl⟩
      rw [resolveWord_class hempty hbuiltin, qualify_imported halone (halone.head?_ne hempty)
        (fun hrelative => hrelative.2 rfl) List.lookup_cons_self]
      simp
  have hnone : imports.lookup (Text.fold
      (String.ofList (first ++ c :: later.takeWhile (· != '\\')))) = none := by
    have hfold : Text.fold (String.ofList (first ++ c :: later.takeWhile (· != '\\'))) ≠
        Text.fold (String.ofList first) := by
      intro heq
      have hlength := congrArg String.length heq
      simp [Text.fold] at hlength
    rw [List.lookup_cons, beq_false_of_ne hfold]
    rfl
  have hparts := h (named imports)
  rw [hword, qualify_local hsegments hhead hrelative hnone, qualifyLocal_named] at hparts
  have hlonger : c ∉ 'N' :: '\\' :: first := by
    have hN : c ≠ 'N' := by
      rintro rfl
      exact absurd hc (by decide +kernel)
    simp [hN, hne, not_mem_of_ends hfirst hc]
  obtain ⟨heq, -⟩ := Text.append_separator_inj (not_mem_of_ends hfirst hc) hlonger hparts
  have hlength := congrArg List.length heq
  simp only [List.length_cons] at hlength
  omega

/-- Just these names are resolved alike in every namespace. -/
theorem resolvesAlike_iff (hs : s ≠ [])
    (hclass : Token.isBuiltinType (String.ofList s) = false) :
    (∀ ns : Namespace, ns.resolveType (String.ofList s) = ns.qualify (String.ofList s)) ↔
      ResolvesAlike s := by
  constructor
  · intro h
    induction s using Text.separators_induction (p := endsTypeName) with
    | free w hw => exact .inl hw
    | separated first c later hfirst hc _ =>
      have hparts (ns : Namespace) : resolveWord ns first ++ c :: resolveWords ns [] later =
          (ns.qualify (String.ofList (first ++ c :: later))).toList := by
        rw [← h ns, resolveType, String.toList_ofList, String.toList_ofList,
          resolveWords_append hfirst hc]
        rfl
      have hseparator := separator_of_resolveWords hfirst hc hparts
      have hnamed := hparts (named [])
      rw [resolveWord_class (List.ne_nil_of_mem hseparator)
        (isBuiltinType_of_separator hseparator), qualify_append hseparator, String.toList_append,
        String.toList_ofList, List.append_cancel_left_eq] at hnamed
      exact .inr ⟨first, c, later, rfl, hfirst, hseparator, hc,
        builtin_of_resolveWords (List.tail_eq_of_cons_eq hnamed)⟩
  · exact fun h ns => h.resolveType_eq hs hclass ns

end Namespace

end PhpLint
