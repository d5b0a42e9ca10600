import PhpLint.Proofs.Model.Parameter

/-!
How the header of a function is written. Main statement: it is read up to its body, whatever is written
in its parts.
-/
namespace PhpLint

namespace Signature

open Lexeme (Enclosed nested)

/-- The variables that a closure takes along. -/
structure Captures where
  keyword : Lexeme
  opening : Lexeme
  inner : List Lexeme
  closing : Lexeme
  isUse : keyword.isKeyword "use"
  isOpening : opening.is "("
  balanced : Enclosed (fun _ => false) 0 inner
  isClosing : closing.isCloseBracket

def Captures.lexemes (c : Captures) : List Lexeme :=
  c.keyword :: c.opening :: (c.inner ++ [c.closing])

/-- The type behind a colon. -/
structure ReturnType where
  colon : Lexeme
  type : List Lexeme
  isColon : colon.is ":"
  isType : ∀ x ∈ type, x.isTypePart
  balanced : Enclosed (fun _ => false) 0 type

def ReturnType.lexemes (t : ReturnType) : List Lexeme :=
  t.colon :: t.type

/-- A header as it is written, up to the first lexeme of the body or the end of the declaration. -/
structure Form where
  reference : Option Lexeme
  name : Option Lexeme
  opening : Lexeme
  parameters : List Parameter.Form
  list : List Lexeme
  closing : Lexeme
  captures : Option Captures
  returnType : Option ReturnType
  body : Lexeme
  isReference : ∀ x ∈ reference, x.is "&"
  isName : ∀ x ∈ name, x.isIdentifier
  isOpening : opening.is "("
  isList : Parameter.WritesList parameters list
  isClosing : closing.isCloseBracket
  isBody : body.endsSignature

namespace Form

/-- What follows the parameters. -/
def rest (w : Form) : List Lexeme :=
  (w.captures.elim [] (·.lexemes)) ++ (w.returnType.elim [] (·.lexemes)) ++ [w.body]

def lexemes (w : Form) : List Lexeme :=
  w.reference.toList ++ (w.name.toList ++ w.opening :: (w.list ++ w.closing :: w.rest))

end Form

variable {isArrow : Bool} {header : Signature} {x : Lexeme} {r s : List Lexeme} {depth : Nat}

/-! ### Parts of a header -/

theorem optional_of_is {text : String} (h : x.is text) (r : List Lexeme) :
    optional text (x :: r) = (true, r) := if_pos h

theorem optional_of_not_is {text : String} (h : x.is text = false) (r : List Lexeme) :
    optional text (x :: r) = (false, x :: r) := by
  unfold optional
  dsimp only
  rw [h, if_neg Bool.false_ne_true]

/-- The only bracket that opens in a type is the parenthesis. -/
theorem isOpenBracket_of_isTypePart (h : x.isTypePart) (hx : x.is "(" → x.isOpenBracket) :
    x.isOpenBracket = x.is "(" := by
  refine Bool.eq_iff_iff.mpr ⟨fun hopen => ?_, hx⟩
  rcases Parameter.isTypePart_cases h with (hkind | hkind | hkind | hkind) | ⟨sign, hsign, hsigned⟩
  case inr =>
    by_cases hparen : sign = "("
    · rw [← hparen, hsigned]
    · rw [Lexeme.not_is_of_isOpenBracket hopen] at hsigned
      · contradiction
      · refine ⟨hparen, ?_, ?_⟩ <;> rintro rfl <;> revert hsign <;> decide
  all_goals
    rw [Lexeme.not_isOpenBracket_of_kind (by rw [hkind]; decide)] at hopen
    contradiction

/-- A type is passed over up to what ends the header. -/
theorem skipType_of_enclosed (hparts : ∀ x ∈ s, x.isTypePart) (hs : Enclosed (fun _ => false) depth s)
    (hopen : ∀ x ∈ s, x.is "(" → x.isOpenBracket) (hx : x.endsSignature) (r : List Lexeme) :
    Lexeme.skipType depth (s ++ x :: r) = some (x :: r) := by
  induction s generalizing depth with
  | nil =>
    obtain rfl : depth = 0 := hs
    rw [List.nil_append, Lexeme.skipType, if_pos (by rfl), if_pos hx]
  | cons y s ih =>
    obtain ⟨hy, hparts⟩ := List.forall_mem_cons.mp hparts
    obtain ⟨hyopen, hopen⟩ := List.forall_mem_cons.mp hopen
    have hstep : Lexeme.skipType depth (y :: (s ++ x :: r)) =
        Lexeme.skipType (nested depth y.toToken) (s ++ x :: r) := by
      rw [Lexeme.skipType]
      unfold nested
      by_cases hdepth : depth = 0
      · have hends : y.endsSignature = false := by
          unfold Lexeme.endsSignature Token.isTerminator
          rw [Parameter.not_is_of_isTypePart hy (by decide), Parameter.not_is_of_isTypePart hy (by decide),
            Parameter.not_is_of_isTypePart hy (by decide),
            beq_eq_false_iff_ne.mpr (Parameter.kind_of_isTypePart hy).2]
          rfl
        have hclose : y.isCloseBracket = false :=
          Bool.eq_false_iff.mpr fun hclose => hs.1 ⟨hdepth, by simp [hclose]⟩
        rw [hdepth, if_pos (by rfl), hends, if_neg Bool.false_ne_true,
          isOpenBracket_of_isTypePart hy hyopen, hclose]
        rfl
      · rw [if_neg (by simpa using hdepth)]
        split
        · rfl
        · split <;> rfl
    rw [List.cons_append, hstep]
    exact ih hparts hs.2 hopen

theorem afterClosing_of_enclosed (hs : Enclosed (fun _ => false) 0 s) (hx : x.isCloseBracket)
    (r : List Lexeme) : Lexeme.afterClosing (s ++ x :: r) = some r := by
  unfold Lexeme.afterClosing
  rw [Lexeme.closing_of_enclosed hs hx]
  rfl

theorem expect_of_is {text : String} (h : x.is text) (r : List Lexeme) : expect text (x :: r) = some r :=
  if_pos h

/-- A list of parameters is balanced. -/
theorem enclosed_of_writesList {ws : List Parameter.Form} (h : Parameter.WritesList ws s) :
    Enclosed (fun _ => false) 0 s := by
  have hform (w : Parameter.Form) : Enclosed (fun _ => false) 0 w.lexemes :=
    w.enclosed_lexemes.mono fun _ _ => nofun
  induction h with
  | nil => rfl
  | last w => exact hform w
  | cons w hx _ ih =>
    exact (hform w).append (ih.cons (Lexeme.not_isOpenBracket_of_is hx (by decide))
      (Lexeme.not_isCloseBracket_of_is hx (by decide)) rfl)

theorem exists_body? (h : x.endsSignature) (r : List Lexeme) : ∃ body, body? x r = some body := by
  unfold Lexeme.endsSignature at h
  unfold body?
  split
  · exact ⟨_, rfl⟩
  · split
    · exact ⟨_, rfl⟩
    · rename_i hbrace hterminator
      rw [Bool.eq_false_iff.mpr hbrace, Bool.eq_false_iff.mpr hterminator, Bool.false_or,
        Bool.or_false] at h
      rw [if_pos h]
      exact ⟨_, rfl⟩

theorem readUse_captures (c : Captures) (r : List Lexeme) :
    ∃ used, readUse (c.lexemes ++ r) = some (used, r) := by
  unfold Captures.lexemes readUse
  dsimp only [List.cons_append]
  rw [if_pos c.isUse, expect_of_is c.isOpening, List.append_assoc, List.singleton_append]
  refine ⟨(Parameter.readList (c.inner ++ c.closing :: r)).map (·.parameter), ?_⟩
  change ((Lexeme.afterClosing _).bind _) = _
  rw [afterClosing_of_enclosed c.balanced c.isClosing]
  rfl

theorem readUse_of_not_isKeyword (h : x.isKeyword "use" = false) (r : List Lexeme) :
    readUse (x :: r) = some ([], x :: r) := by
  unfold readUse
  dsimp only
  rw [h, if_neg Bool.false_ne_true]

theorem skipReturnType_lexemes (t : ReturnType) (hopen : ∀ x ∈ t.type, x.is "(" → x.isOpenBracket)
    (hx : x.endsSignature) (r : List Lexeme) :
    skipReturnType (t.lexemes ++ x :: r) = some (x :: r) := by
  unfold ReturnType.lexemes skipReturnType
  dsimp only [List.cons_append]
  rw [if_pos t.isColon]
  exact skipType_of_enclosed t.isType t.balanced hopen hx r

theorem kind_of_endsSignature (h : x.endsSignature) :
    x.isKeyword "use" = false ∧ x.is ":" = false := by
  unfold Lexeme.endsSignature Token.isTerminator at h
  simp only [Bool.or_eq_true, beq_iff_eq] at h
  rcases h with (hx | hx) | hx | hkind
  case inr.inr =>
    exact ⟨Lexeme.not_isKeyword_of_kind (by rw [hkind]; decide),
      Lexeme.not_is_of_kind (by rw [hkind]; decide)⟩
  all_goals exact ⟨Lexeme.not_isKeyword_of_is hx, Lexeme.not_is_of_is hx (by decide)⟩

/-- What follows the parameters is passed over up to the body. -/
theorem skip_rest (w : Form) (hopen : ∀ x ∈ w.lexemes, x.is "(" → x.isOpenBracket) (r : List Lexeme) :
    ∃ used after, readUse (w.rest ++ r) = some (used, after) ∧
      skipReturnType after = some (w.body :: r) := by
  obtain ⟨huse, hcolon⟩ := kind_of_endsSignature w.isBody
  have htype : skipReturnType (w.returnType.elim [] (·.lexemes) ++ w.body :: r) =
      some (w.body :: r) := by
    cases ht : w.returnType with
    | none =>
      unfold skipReturnType
      dsimp only [Option.elim_none, List.nil_append]
      rw [hcolon, if_neg Bool.false_ne_true]
    | some t =>
      refine skipReturnType_lexemes t (fun x hx => hopen x ?_) w.isBody r
      simp [Form.lexemes, Form.rest, ReturnType.lexemes, ht, hx]
  refine (?_ : ∃ used, readUse (w.rest ++ r) =
    some (used, w.returnType.elim [] (·.lexemes) ++ w.body :: r)).imp fun used h => ⟨_, h, htype⟩
  unfold Form.rest
  rw [List.append_assoc, List.append_assoc, List.singleton_append]
  cases w.captures with
  | some c => exact readUse_captures c _
  | none =>
    refine ⟨[], ?_⟩
    cases w.returnType with
    | none => exact readUse_of_not_isKeyword huse _
    | some t => exact readUse_of_not_isKeyword (Lexeme.not_isKeyword_of_is t.isColon) _

/-- The part in front of the parameters. -/
theorem optional_lexemes (w : Form) (r : List Lexeme) : optional "&" (w.lexemes ++ r) =
    (w.reference.isSome, w.name.toList ++ w.opening :: (w.list ++ w.closing :: (w.rest ++ r))) := by
  have hassoc : w.lexemes ++ r = w.reference.toList ++
      (w.name.toList ++ w.opening :: (w.list ++ w.closing :: (w.rest ++ r))) := by
    simp [Form.lexemes]
  rw [hassoc]
  cases hreference : w.reference with
  | some x => exact optional_of_is (w.isReference x hreference) _
  | none =>
    cases hname : w.name with
    | none => exact optional_of_not_is (Lexeme.not_is_of_is w.isOpening (by decide)) _
    | some y =>
      refine optional_of_not_is (Lexeme.not_is_of_kind ?_) _
      rcases Lexeme.kind_of_isIdentifier (w.isName y hname) with hkind | hkind <;> rw [hkind] <;> decide

/-- A header is read as it is written. -/
theorem read?_lexemes (w : Form) (hname : isArrow → w.name = none)
    (hopen : ∀ x ∈ w.lexemes, x.is "(" → x.isOpenBracket)
    (hclose : ∀ x ∈ w.lexemes, x.is ")" → x.isCloseBracket)
    (hspace : ∀ x ∈ w.lexemes, x.isSpace = false) (r : List Lexeme) :
    ∃ used body, read? isArrow (w.lexemes ++ r) = some ⟨w.reference.isSome, w.name,
      w.parameters.map (·.read), used, body, w.body.index⟩ := by
  have hlist {P : Lexeme → Prop} (h : ∀ x ∈ w.lexemes, P x) : ∀ x ∈ w.list, P x :=
    fun x hx => h x (by simp [Form.lexemes, hx])
  have hparameters := Parameter.readList_of_writesList w.isList w.isClosing (hlist hclose)
    (hlist hspace) (w.rest ++ r)
  have hafter := afterClosing_of_enclosed (enclosed_of_writesList w.isList) w.isClosing (w.rest ++ r)
  obtain ⟨used, after, huse, htype⟩ := skip_rest w hopen r
  obtain ⟨body, hbody⟩ := exists_body? w.isBody r
  have hread : readName isArrow (w.name.toList ++
      w.opening :: (w.list ++ w.closing :: (w.rest ++ r))) =
        (w.name, w.opening :: (w.list ++ w.closing :: (w.rest ++ r))) := by
    cases hn : w.name with
    | none =>
      unfold readName
      dsimp only [Option.toList_none, List.nil_append]
      rw [Lexeme.not_isIdentifier_of_is w.isOpening, Bool.and_false, if_neg Bool.false_ne_true]
    | some y =>
      have hfunction : isArrow = false := Bool.eq_false_iff.mpr fun h => by
        rw [hname h] at hn
        contradiction
      unfold readName
      dsimp only [Option.toList_some, List.singleton_append]
      rw [hfunction, w.isName y hn]
      rfl
  refine ⟨used, body, ?_⟩
  -- the parts are read one behind the other
  unfold read?
  rw [optional_lexemes]
  dsimp only
  rw [hread]
  dsimp only
  rw [expect_of_is w.isOpening]
  change ((Lexeme.afterClosing _).bind _) = _
  rw [hafter]
  change ((readUse _).bind _) = _
  rw [huse]
  change ((skipReturnType after).bind _) = _
  rw [htype]
  change ((body? w.body r).bind _) = _
  rw [hbody, hparameters]
  rfl

/-- An arrow function has no name. -/
theorem name_eq_none_of_read? (w : Form) (h : read? true (w.lexemes ++ r) = some header) :
    w.name = none := by
  obtain ⟨list, _, _, _, _, hlist, _⟩ := read?_parts h
  rw [optional_lexemes] at hlist
  cases hname : w.name with
  | none => rfl
  | some y =>
    rw [hname] at hlist
    obtain ⟨z, hz, hparen⟩ := expect_eq_some hlist
    have hyz : y = z := (List.cons.inj hz).1
    have hidentifier := w.isName y hname
    rw [hyz, Lexeme.not_isIdentifier_of_is hparen] at hidentifier
    contradiction

end Signature

end PhpLint
