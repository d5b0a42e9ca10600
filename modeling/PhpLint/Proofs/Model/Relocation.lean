import PhpLint.Model.Import
import PhpLint.Model.Signature
import PhpLint.Proofs.Model.Lexeme

/-!
Lexemes that are moved to other places. What is read from them is the same, with the places moved;
no reading looks at where a lexeme stands.
-/
namespace PhpLint

/-! ### Moved data -/

/-- A token at another place and on another line. -/
def Token.move (f line : Nat → Nat) (t : Token) : Token :=
  { t with index := f t.index, line := line t.index }

/-- A lexeme at another place and on another line. -/
def Lexeme.move (f line : Nat → Nat) (x : Lexeme) : Lexeme :=
  { x with toToken := x.toToken.move f line }

def Parameter.move (f : Nat → Nat) (p : Parameter) : Parameter :=
  { p with index := f p.index }

def Parameter.Declared.move (f : Nat → Nat) (d : Declared) : Declared :=
  { d with parameter := d.parameter.move f }

def Body.move (f : Nat → Nat) : Body → Body
  | .expression last => .expression (f last)
  | body => body

def Signature.move (f line : Nat → Nat) (header : Signature) : Signature :=
  { header with
    name := header.name.map (Lexeme.move f line)
    parameters := header.parameters.map (Parameter.Declared.move f)
    usedVariables := header.usedVariables.map (Parameter.move f)
    body := header.body.move f
    bodyAt := f header.bodyAt }

variable (f line : Nat → Nat)

namespace Token

variable (t : Token)

@[simp] theorem move_kind : (t.move f line).kind = t.kind := by rfl
@[simp] theorem move_text : (t.move f line).text = t.text := by rfl
@[simp] theorem move_index : (t.move f line).index = f t.index := by rfl
@[simp] theorem move_is (text : String) : (t.move f line).is text = t.is text := by rfl
@[simp] theorem move_isKeyword (word : String) :
    (t.move f line).isKeyword word = t.isKeyword word := by rfl
@[simp] theorem move_isWord (word : String) : (t.move f line).isWord word = t.isWord word := by rfl
@[simp] theorem move_isIdentifier : (t.move f line).isIdentifier = t.isIdentifier := by rfl
@[simp] theorem move_isSpace : (t.move f line).isSpace = t.isSpace := by rfl
@[simp] theorem move_isOpenBracket : (t.move f line).isOpenBracket = t.isOpenBracket := by rfl
@[simp] theorem move_isCloseBracket : (t.move f line).isCloseBracket = t.isCloseBracket := by rfl
@[simp] theorem move_isTerminator : (t.move f line).isTerminator = t.isTerminator := by rfl

end Token

namespace Lexeme

@[simp] theorem move_toToken (x : Lexeme) :
    (x.move f line).toToken = x.toToken.move f line := by rfl
@[simp] theorem move_joined (x : Lexeme) : (x.move f line).joined = x.joined := by rfl
@[simp] theorem move_isNamePart (x : Lexeme) : (x.move f line).isNamePart = x.isNamePart := by rfl
@[simp] theorem move_endsSignature (x : Lexeme) :
    (x.move f line).endsSignature = x.endsSignature := by rfl

/-- Lexemes that are all moved. -/
abbrev moveAll (s : List Lexeme) : List Lexeme :=
  s.map (move f line)

/-- A test that looks at no place finds the same in front. -/
theorem any_head?_move (test : Lexeme → Bool) (htest : ∀ x, test (x.move f line) = test x)
    (s : List Lexeme) : (moveAll f line s).head?.any test = s.head?.any test := by
  cases s with
  | nil => rfl
  | cons x r => exact htest x

/-! ### Readings -/

theorem nameRest_move (s : List Lexeme) :
    nameRest (moveAll f line s) = ((nameRest s).1, moveAll f line (nameRest s).2) := by
  induction s with
  | nil => rfl
  | cons x r ih =>
    rw [moveAll, List.map_cons, nameRest, nameRest, move_joined, move_isNamePart]
    split
    · rw [ih]
      rfl
    · rfl

theorem readName_move (s : List Lexeme) :
    readName (moveAll f line s) = ((readName s).1, moveAll f line (readName s).2) := by
  cases s with
  | nil => rfl
  | cons x r =>
    rw [moveAll, List.map_cons, readName, readName, move_isNamePart]
    split
    · rw [nameRest_move]
      rfl
    · rfl

theorem readNames_move (s : List Lexeme) :
    readNames (moveAll f line s) = ((readNames s).1, moveAll f line (readNames s).2) := by
  rw [readNames_eq, readNames_eq s, readName_move]
  dsimp only
  by_cases hname : (readName s).1.isEmpty
  · rw [if_pos hname, if_pos hname]
  · rw [if_neg hname, if_neg hname]
    cases hafter : (readName s).2 with
    | nil => rfl
    | cons x r =>
      rw [moveAll, List.map_cons]
      simp only [move_toToken, Token.move_is]
      by_cases hcomma : x.is ","
      · have hlt : r.length < s.length := by
          have hlength := length_readName s
          rw [hafter, List.length_cons] at hlength
          omega
        rw [if_pos hcomma, if_pos hcomma, readNames_move r]
      · rw [if_neg hcomma, if_neg hcomma]
        rfl
termination_by s.length

theorem closing_move (depth : Nat) (s : List Lexeme) :
    closing depth (moveAll f line s) = (closing depth s).map (moveAll f line) := by
  induction s generalizing depth with
  | nil => rfl
  | cons x r ih =>
    cases depth with
    | zero => simp [closing, ih, apply_ite (Option.map _)]
    | succ depth => simp [closing, ih, apply_ite (Option.map _)]

theorem afterClosing_move (s : List Lexeme) :
    afterClosing (moveAll f line s) = (afterClosing s).map (moveAll f line) := by
  unfold afterClosing
  rw [closing_move, Option.map_map, Option.map_map]
  congr 1
  funext r
  exact (List.map_drop ..).symm

theorem skipType_move (depth : Nat) (s : List Lexeme) :
    skipType depth (moveAll f line s) = (skipType depth s).map (moveAll f line) := by
  induction s generalizing depth with
  | nil => rfl
  | cons x r ih => simp [skipType, ih, apply_ite (Option.map _)]

theorem expressionEnd_move (depth last : Nat) (s : List Lexeme) :
    expressionEnd depth (f last) (moveAll f line s) = f (expressionEnd depth last s) := by
  induction s generalizing depth last with
  | nil => rfl
  | cons x r ih => simp [expressionEnd, ih, apply_ite f]

theorem listElements_move (separator terminator : String) (fresh : Bool) (depth : Nat)
    (s : List Lexeme) :
    listElements toToken separator terminator fresh depth (moveAll f line s) =
      (listElements toToken separator terminator fresh depth s).map (moveAll f line) := by
  induction s generalizing fresh depth with
  | nil => rfl
  | cons x r ih => simp [listElements, ih, apply_ite (List.map _)]

end Lexeme

/-! ### Parameters -/

namespace Parameter

open Lexeme (moveAll)

theorem element_move (depth : Nat) (s : List Lexeme) :
    element depth (moveAll f line s) = moveAll f line (element depth s) := by
  induction s generalizing depth with
  | nil => rfl
  | cons x r ih => simp [element, ih, apply_ite (List.map _)]

theorem hasDefault_move (depth : Nat) (s : List Lexeme) :
    hasDefault depth (moveAll f line s) = hasDefault depth s := by
  induction s generalizing depth with
  | nil => rfl
  | cons x r ih => simp [hasDefault, ih]

theorem passesReference_move (s : List Lexeme) :
    passesReference (moveAll f line s) = passesReference s := by
  cases s <;> simp [passesReference]

namespace Declared

theorem opensHashGroup_move (x : Lexeme) (s : List Lexeme) :
    opensHashGroup (x.move f line) (moveAll f line s) = opensHashGroup x s := by
  cases s <;> simp [opensHashGroup]

theorem insideHashGroup_move (depth : Nat) (x : Lexeme) :
    insideHashGroup depth (x.move f line) = insideHashGroup depth x := by
  simp [insideHashGroup]

theorem next_move (d : Declared) (x : Lexeme) (s : List Lexeme) :
    (d.move f).next (x.move f line) (moveAll f line s) = (d.next x s).move f := by
  unfold next
  simp only [Lexeme.move_toToken, Token.move_kind, Token.move_text, Token.move_isKeyword,
    Token.move_is, passesReference_move]
  split
  · rfl
  · repeat' split
    all_goals rfl

theorem read_move (d : Declared) (depth : Nat) (hashGroup : Option Nat) (s : List Lexeme) :
    (d.move f).read depth hashGroup (moveAll f line s) = (d.read depth hashGroup s).move f := by
  induction s generalizing d depth hashGroup with
  | nil => rfl
  | cons x r ih =>
    rw [moveAll, List.map_cons]
    cases hashGroup with
    | some n =>
      rw [read, read, insideHashGroup_move]
      exact ih d depth _
    | none =>
      rw [read, read]
      simp only [Lexeme.move_toToken, Token.move_kind, Token.move_text, Token.move_isOpenBracket,
        Token.move_isCloseBracket, opensHashGroup_move, hasDefault_move, next_move, ih]
      split
      · rfl
      · split <;> rfl

theorem ofLexemes_move {s : List Lexeme} (hs : s ≠ []) :
    ofLexemes (moveAll f line s) = (ofLexemes s).move f := by
  obtain ⟨x, r, rfl⟩ := List.exists_cons_of_ne_nil hs
  unfold ofLexemes
  rw [element_move]
  exact read_move f line (start x.index) 0 none _

end Declared

theorem readList_move (s : List Lexeme) :
    readList (moveAll f line s) = (readList s).map (Declared.move f) := by
  unfold readList
  rw [Lexeme.listElements_move, List.map_map, List.map_map]
  exact List.map_congr_left fun element helement =>
    Declared.ofLexemes_move f line (Lexeme.listElements_suffix helement).1

end Parameter

/-! ### Headers -/

namespace Signature

open Lexeme (moveAll)

theorem optional_move (text : String) (s : List Lexeme) :
    optional text (moveAll f line s) =
      ((optional text s).1, moveAll f line (optional text s).2) := by
  cases s with
  | nil => rfl
  | cons x r =>
    simp only [optional, List.map_cons, Lexeme.move_toToken, Token.move_is]
    split <;> rfl

theorem expect_move (text : String) (s : List Lexeme) :
    expect text (moveAll f line s) = (expect text s).map (moveAll f line) := by
  cases s with
  | nil => rfl
  | cons x r =>
    simp only [expect, List.map_cons, Lexeme.move_toToken, Token.move_is]
    split <;> rfl

theorem readName_move (isArrow : Bool) (s : List Lexeme) :
    readName isArrow (moveAll f line s) =
      ((readName isArrow s).1.map (Lexeme.move f line), moveAll f line (readName isArrow s).2) := by
  cases s with
  | nil => rfl
  | cons x r =>
    simp only [readName, List.map_cons, Lexeme.move_toToken, Token.move_isIdentifier]
    split <;> rfl

theorem skipReturnType_move (s : List Lexeme) :
    skipReturnType (moveAll f line s) = (skipReturnType s).map (moveAll f line) := by
  cases s with
  | nil => rfl
  | cons x r =>
    simp only [skipReturnType, List.map_cons, Lexeme.move_toToken, Token.move_is,
      Lexeme.skipType_move]
    split <;> rfl

theorem readUse_move (s : List Lexeme) : readUse (moveAll f line s) =
    (readUse s).map fun (used, after) => (used.map (Parameter.move f), moveAll f line after) := by
  cases s with
  | nil => rfl
  | cons x r =>
    simp only [readUse, List.map_cons, Lexeme.move_toToken, Token.move_isKeyword, expect_move]
    split
    · cases expect "(" r with
      | none => rfl
      | some list =>
        change ((Lexeme.afterClosing (moveAll f line list)).bind fun after =>
          some ((Parameter.readList (moveAll f line list)).map (·.parameter), after)) = _
        rw [Lexeme.afterClosing_move, Parameter.readList_move]
        cases hafter : Lexeme.afterClosing list with
        | none => simp [hafter]
        | some after => simp [hafter, Function.comp_def, Parameter.Declared.move]
    · rfl

theorem body?_move (x : Lexeme) (r : List Lexeme) :
    body? (x.move f line) (moveAll f line r) = (body? x r).map (Body.move f) := by
  simp only [body?, Lexeme.move_toToken, Token.move_is, Token.move_isTerminator, Token.move_index,
    Lexeme.expressionEnd_move]
  repeat' split
  all_goals rfl

/-- A header is read from moved lexemes as it was, with its places moved. -/
theorem read?_move (isArrow : Bool) (s : List Lexeme) :
    read? isArrow (moveAll f line s) = (read? isArrow s).map (Signature.move f line) := by
  unfold read?
  rw [optional_move]
  dsimp only
  rw [readName_move]
  dsimp only
  rw [expect_move]
  cases expect "(" (readName isArrow (optional "&" s).2).2 with
  | none => rfl
  | some list =>
    simp only [Option.map_some, Option.bind_eq_bind, Option.bind_some, Lexeme.afterClosing_move,
      Parameter.readList_move]
    cases Lexeme.afterClosing list with
    | none => rfl
    | some after =>
      simp only [Option.map_some, Option.bind_some, readUse_move]
      cases readUse after with
      | none => rfl
      | some found =>
        simp only [Option.map_some, Option.bind_some, skipReturnType_move]
        cases skipReturnType found.2 with
        | none => rfl
        | some after =>
          cases after with
          | nil => rfl
          | cons x r =>
            simp only [Option.map_some, Option.bind_some, moveAll, List.map_cons]
            rw [body?_move]
            cases body? x r <;> rfl

end Signature

/-! ### Imports -/

namespace Import

open Lexeme (moveAll)

theorem readFrom_move (p : Progress) (s : List Lexeme) :
    readFrom p (moveAll f line s) = ((readFrom p s).1, moveAll f line (readFrom p s).2) := by
  induction s generalizing p with
  | nil => rfl
  | cons x r ih =>
    have hnext : p.next (x.move f line) = p.next x := rfl
    simp only [moveAll, List.map_cons, readFrom, Lexeme.move_toToken, Token.move_isTerminator,
      Token.move_isKeyword, Token.move_text, hnext, ih]
    repeat' split
    all_goals rfl

theorem read_move (s : List Lexeme) :
    read (moveAll f line s) = ((read s).1, moveAll f line (read s).2) := by
  unfold read
  rw [readFrom_move]
  cases s <;> simp

end Import

end PhpLint
