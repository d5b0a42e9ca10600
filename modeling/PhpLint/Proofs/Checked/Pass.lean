import PhpLint.Proofs.Checked.Declaration
import PhpLint.Proofs.Model.Statement

/-!
The pass over a file by positions in the token list. Brackets pair through a table that is written
at both positions of a pair; a file whose brackets do not pair stops the pass.
-/
namespace PhpLint.Checked

open PhpLint.Bracket (Indexed Mismatch)
open Lexeme
open Outline (Pass Scope Holds)
open Outline.Pass (Sound)

variable {ε : Type} {ts : List Token} {p : Pass} {size i : Nat} {x : Lexeme} {r : List Lexeme}

/-! ### Statements by positions -/

def keyword (ts : List Token) (p : Pass) (i : Nat) : Checked ε Pass := do
  let t ← present ts[i]?
  match Text.fold t.text with
  | "namespace" =>
    let relative ← followedBy ts i (·.kind == .nsSeparator)
    if !relative && p.atNamespaceLevel then namespaceDeclaration ts p i else return p
  | "use" =>
    let capture ← precededBy ts i (·.is ")")
    match p.classBody with
    | some id => traitUse ts p id i
    | none => if p.atNamespaceLevel && !capture then importStatement ts p i else return p
  | "class" => classDeclaration ts p .classKind i
  | "interface" => classDeclaration ts p .interfaceKind i
  | "trait" => classDeclaration ts p .traitKind i
  | "function" => functionDeclaration ts p i
  | "fn" => functionDeclaration ts p i
  | "const" => constantDeclaration ts p i
  | word => return p.modifier word

def statement (ts : List Token) (p : Pass) (i : Nat) : Checked ε Pass := do
  let t ← present ts[i]?
  if t.isTerminator then return p.newStatement
  else match t.kind with
  | .variable =>
    match p.classBody with
    | some id => propertyDeclaration ts p id i
    | none => return p
  | .name =>
    if t.isWord "enum" && p.atNamespaceLevel then do
      if ← followedBy ts i (·.kind == .name) then classDeclaration ts p .classKind i else return p
    else return p
  | .keyword => keyword ts p i
  | _ => return p

/-! ### Statements -/

theorem traitUse_of_nil (h : Heads ts x []) (p : Pass) (id : Nat) :
    (traitUse ts p id x.index : Checked ε Pass) = .ok p := by
  unfold traitUse
  rw [next_of_heads h]
  rfl

theorem keyword_of_heads (hindexed : Indexed ts) (hlong : LongOperators ts)
    (hsound : p.Sound size i) (h : Heads ts x r) (hkind : x.kind = .keyword) :
    (keyword ts p x.index : Checked ε Pass) =
      .ok (p.keyword ts.length (behind ts x.index) x r) := by
  have hfunction := functionDeclaration_of_heads (ε := ε) hindexed hlong hsound h
  have hfn : x.isKeyword "fn" = (Text.fold x.text == "fn") := by
    unfold Token.isKeyword Text.sameFold
    rw [hkind]
    rfl
  rw [hfn] at hfunction
  unfold keyword Pass.keyword
  rw [present_of_heads h, ok_bind, followedBy_eq hindexed, h.after,
    precededBy_eq hindexed (Nat.le_of_lt h.lt), ok_bind, ok_bind]
  dsimp only
  generalize Text.fold x.text = word at hfunction ⊢
  split
  · by_cases hnamespace : !(r.head?.any (·.kind == .nsSeparator)) && p.atNamespaceLevel
    · rw [if_pos hnamespace, namespaceDeclaration_of_heads hindexed p h]
      exact congrArg Except.ok (if_pos hnamespace).symm
    · rw [if_neg hnamespace]
      exact congrArg Except.ok (if_neg hnamespace).symm
  · cases hid : p.classBody with
    | some id =>
      cases r with
      | nil => exact traitUse_of_nil h p id
      | cons y r => exact traitUse_of_heads hindexed (hsound.classBody_lt hid) h (by simp)
    | none =>
      dsimp only
      by_cases himport : p.atNamespaceLevel && !((behind ts x.index).head?.any (·.is ")"))
      · rw [if_pos himport, importStatement_of_heads hindexed p h]
        exact congrArg Except.ok (if_pos himport).symm
      · rw [if_neg himport]
        exact congrArg Except.ok (if_neg himport).symm
  · exact classDeclaration_of_heads hindexed hlong p .classKind h
  · exact classDeclaration_of_heads hindexed hlong p .interfaceKind h
  · exact classDeclaration_of_heads hindexed hlong p .traitKind h
  · exact hfunction
  · exact hfunction
  · exact constantDeclaration_of_heads hindexed hsound h
  · refine congrArg Except.ok ?_
    simp_all

theorem statement_of_heads (hindexed : Indexed ts) (hlong : LongOperators ts)
    (hsound : p.Sound size i) (h : Heads ts x r) :
    (statement ts p x.index : Checked ε Pass) =
      .ok (p.statement ts.length (behind ts x.index) x r) := by
  unfold statement Pass.statement
  rw [present_of_heads h, ok_bind]
  by_cases hend : x.isTerminator
  · rw [if_pos hend, if_pos hend]
    rfl
  rw [if_neg hend, if_neg hend]
  cases hkind : x.kind with
  | «variable» =>
    cases hid : p.classBody with
    | some id => exact propertyDeclaration_of_heads (hsound.classBody_lt hid) h
    | none => rfl
  | name =>
    dsimp only
    rw [followedBy_eq hindexed, ok_bind, h.after]
    by_cases henum : x.isWord "enum" && p.atNamespaceLevel
    · by_cases hnamed : r.head?.any (·.kind == .name)
      · rw [if_pos henum, if_pos hnamed, if_pos (by rw [henum, hnamed]; rfl)]
        exact classDeclaration_of_heads hindexed hlong p .classKind h
      · rw [if_pos henum, if_neg hnamed, if_neg (by rw [henum]; simpa using hnamed)]
        rfl
    · rw [if_neg henum, if_neg (fun hall => henum (Bool.and_eq_true_iff.mp hall).1)]
      rfl
  | keyword => exact keyword_of_heads hindexed hlong hsound h hkind
  | _ => rfl

/-! ### Brackets by positions -/

/-- The state of the pass with its brackets. -/
structure Builder extends Pass where
  /-- Positions of the open brackets, innermost first. -/
  opened : List Nat
  /-- For each token the bracket it pairs with. -/
  brackets : Array (Option Nat)

def Builder.start (size : Nat) : Builder :=
  { Pass.start with opened := [], brackets := Array.replicate size none }

def openBracket (ts : List Token) (b : Builder) (i : Nat) : Checked ε Builder := do
  let scope := (b.bodies.lookup i).getD .block
  let t ← present ts[i]?
  let p := if t.is "\x7b" then b.newStatement else b.toPass
  return { b with
    toPass := { p with scopes := scope :: p.scopes, bodies := p.bodies.filter (·.1 != i) }
    opened := i :: b.opened }

/-- Sets the end of what the innermost bracket encloses. -/
def endScope (p : Pass) (i : Nat) : Scope → Checked ε Pass
  | .block => return p
  | .classBody id => do
    let classes ← modifyAt p.classes id ({ · with bodyEnds := i })
    return { p with classes }
  | .functionBody id => do
    let functions ← modifyAt p.functions id ({ · with bodyEnds := i })
    return { p with functions }
  | .namespaceBody record => do
    let namespaces ← modifyAt p.namespaces record ({ · with bodyEnds := some i })
    return { p with namespaces := namespaces.push (.globalFrom (i + 1)) }

def setAt {α : Type} (xs : Array α) (i : Nat) (a : α) : Checked ε (Array α) :=
  if i < xs.size then .ok (xs.setIfInBounds i a) else trap .range

/-- Notes that two brackets pair. -/
def pairUp (brackets : Array (Option Nat)) (opening closing : Nat) :
    Checked ε (Array (Option Nat)) := do
  let brackets ← setAt brackets opening (some closing)
  setAt brackets closing (some opening)

def closeBracket (ts : List Token) (b : Builder) (i : Nat) : Checked Mismatch Builder := do
  let t ← present ts[i]?
  match b.opened, b.scopes with
  | opening :: opened, scope :: scopes =>
    let o ← present ts[opening]?
    if t.text == (Token.closingBracket o.text).getD "" then
      let brackets ← pairUp b.brackets opening i
      let p ← endScope { b.toPass with scopes } i scope
      return ⟨if t.is "\x7d" then p.newStatement else p, opened, brackets⟩
    else .error (.error (.mismatched t o))
  | _, _ => .error (.error (.unmatched t))

def bracket (ts : List Token) (b : Builder) (i : Nat) (t : Token) : Checked Mismatch Builder :=
  if t.isOpenBracket then openBracket ts b i
  else if t.isCloseBracket then closeBracket ts b i
  else return b

def step (ts : List Token) (b : Builder) (i : Nat) (t : Token) : Checked Mismatch Builder := do
  if t.isSpace then return b
  else
    let b ← bracket ts b i t
    if b.skipUntil ≤ i then return { b with toPass := ← statement ts b.toPass i } else return b

/-- The pass over the tokens from token `i` on. -/
def passFrom (ts : List Token) (b : Builder) (i : Nat) : List Token → Checked Mismatch Builder
  | [] =>
    match b.opened with
    | [] => return b
    | opening :: _ => do
      let t ← present ts[opening]?
      .error (.error (.unclosed t))
  | t :: rest => do passFrom ts (← step ts b i t) (i + 1) rest

/-- The pass over a whole file. -/
def pass (ts : List Token) : Checked Mismatch Builder :=
  passFrom ts (.start ts.length) 0 ts

/-! ### Brackets -/

/-- The open brackets of a builder are those of a pairing. -/
structure Carries (ts : List Token) (b : Builder) (stack : List Token) : Prop where
  opened : b.opened = stack.map (·.index)
  tokens : ∀ t ∈ stack, ts[t.index]? = some t ∧ t.isOpenBracket
  scopes : b.scopes.length = stack.length
  size : b.brackets.size = ts.length

/-- Both entries of a pair. -/
def note (brackets : Array (Option Nat)) (pair : Nat × Nat) : Array (Option Nat) :=
  (brackets.setIfInBounds pair.1 (some pair.2)).setIfInBounds pair.2 (some pair.1)

theorem pairUp_eq {brackets : Array (Option Nat)} {opening closing : Nat}
    (hopening : opening < brackets.size) (hclosing : closing < brackets.size) :
    (pairUp brackets opening closing : Checked ε (Array (Option Nat))) =
      .ok (note brackets (opening, closing)) := by
  unfold pairUp setAt
  rw [if_pos hopening, ok_bind, if_pos (by rwa [Array.size_setIfInBounds])]
  rfl

theorem endScope_eq {k : Nat} {scope : Scope} (h : p.Refers i k scope) (l : Nat) :
    (endScope p l scope : Checked ε Pass) = .ok (p.endScope l scope) := by
  cases scope with
  | block => rfl
  | classBody id =>
    unfold endScope
    dsimp only
    rw [modifyAt_eq (Holds.lt h)]
    rfl
  | functionBody id =>
    unfold endScope
    dsimp only
    rw [modifyAt_eq (Holds.lt h)]
    rfl
  | namespaceBody record =>
    unfold endScope
    dsimp only
    rw [modifyAt_eq (Holds.lt h)]
    rfl

variable {b : Builder} {stack : List Token}

theorem openBracket_of_heads (h : Heads ts x r) :
    (openBracket ts b x.index : Checked ε Builder) =
      .ok ⟨b.toPass.openBracket x, x.index :: b.opened, b.brackets⟩ := by
  unfold openBracket Pass.openBracket
  rw [present_of_heads h]
  rfl

theorem Carries.openBracket (hb : Carries ts b stack) (h : Heads ts x r) (hopen : x.isOpenBracket) :
    Carries ts ⟨b.toPass.openBracket x, x.index :: b.opened, b.brackets⟩ (x.toToken :: stack) where
  opened := by rw [hb.opened, List.map_cons]
  tokens t ht := by
    rcases List.mem_cons.mp ht with rfl | ht
    · exact ⟨h.token, hopen⟩
    · exact hb.tokens t ht
  scopes := by
    have hlength : (b.toPass.openBracket x).scopes.length = b.scopes.length + 1 := by
      unfold Pass.openBracket
      dsimp only
      split <;> rfl
    rw [hlength, hb.scopes, List.length_cons]
  size := hb.size

theorem closeBracket_of_nil (hb : Carries ts b []) (h : Heads ts x r) :
    closeBracket ts b x.index = .error (.error (.unmatched x.toToken)) := by
  unfold closeBracket
  rw [present_of_heads h, ok_bind, hb.opened]
  rfl

theorem closeBracket_of_fits {o : Token} (hb : Carries ts b (o :: stack))
    (hsound : b.toPass.Sound size x.index) (h : Heads ts x r) (hfits : Bracket.Fits o x.toToken) :
    closeBracket ts b x.index =
      .ok ⟨b.toPass.closeBracket x, stack.map (·.index), note b.brackets (o.index, x.index)⟩ := by
  obtain ⟨ho, -⟩ := hb.tokens o List.mem_cons_self
  have holt : o.index < b.brackets.size := hb.size ▸ (List.getElem?_eq_some_iff.mp ho).1
  have hxlt : x.index < b.brackets.size := hb.size ▸ h.lt
  have hopened : b.opened = o.index :: stack.map (·.index) := by rw [hb.opened, List.map_cons]
  have htext : (x.text == (Token.closingBracket o.text).getD "") = true := by
    rw [hfits.kind]
    exact beq_self_eq_true x.text
  cases hscopes : b.scopes with
  | nil =>
    have hlength := hb.scopes
    rw [hscopes] at hlength
    contradiction
  | cons scope scopes =>
    have hscope : Pass.Refers { b.toPass with scopes } x.index x.index scope :=
      hsound.scopes scope (hscopes ▸ List.mem_cons_self)
    unfold closeBracket Pass.closeBracket
    rw [present_of_heads h, ok_bind, hopened, hscopes]
    dsimp only
    rw [ho, present_some, ok_bind, if_pos htext, pairUp_eq holt hxlt, ok_bind, endScope_eq hscope]
    rfl

theorem closeBracket_of_not_fits {o : Token} (hb : Carries ts b (o :: stack)) (h : Heads ts x r)
    (hclose : x.isCloseBracket) (hfits : ¬ Bracket.Fits o x.toToken) :
    closeBracket ts b x.index = .error (.error (.mismatched x.toToken o)) := by
  obtain ⟨ho, hopen⟩ := hb.tokens o List.mem_cons_self
  have hopened : b.opened = o.index :: stack.map (·.index) := by rw [hb.opened, List.map_cons]
  have htext : ¬ (x.text == (Token.closingBracket o.text).getD "") := by
    intro heq
    obtain ⟨c, hc⟩ := Bracket.exists_closingBracket hopen
    rw [hc, Option.getD_some, beq_iff_eq] at heq
    exact hfits ⟨hopen, hclose, by rw [hc, heq]⟩
  cases hscopes : b.scopes with
  | nil =>
    have hlength := hb.scopes
    rw [hscopes] at hlength
    contradiction
  | cons scope scopes =>
    unfold closeBracket
    rw [present_of_heads h, ok_bind, hopened, hscopes]
    dsimp only
    rw [ho, present_some, ok_bind, if_neg htext]

theorem Carries.closeBracket {o : Token} (hb : Carries ts b (o :: stack)) (pair : Nat × Nat) :
    Carries ts ⟨b.toPass.closeBracket x, stack.map (·.index), note b.brackets pair⟩ stack where
  opened := rfl
  tokens t ht := hb.tokens t (List.mem_cons_of_mem o ht)
  scopes := by
    have hlength := hb.scopes
    rw [List.length_cons] at hlength
    rw [Pass.length_scopes_closeBracket, hlength, Nat.add_sub_cancel]
  size := by
    unfold note
    rw [Array.size_setIfInBounds, Array.size_setIfInBounds, hb.size]

/-! ### The pass -/

theorem exists_heads (hindexed : Indexed ts) (hi : i < ts.length) (h : ¬ ts[i].isSpace) :
    ∃ x : Lexeme, x.toToken = ts[i] ∧ x.index = i ∧ Heads ts x (ahead ts (i + 1)) := by
  have ht : ts[i]? = some ts[i] := List.getElem?_eq_getElem hi
  obtain ⟨-, hx⟩ := heads_of_ahead hindexed (ahead_of_not_space ht h)
  exact ⟨_, rfl, index_of_getElem? hindexed ht, hx⟩

theorem behind_succ_of_heads (h : Heads ts x r) :
    behind ts (x.index + 1) = x :: behind ts x.index := by
  rw [behind_succ h.token, if_neg h.notSpace, ← h.joined]

theorem passFrom_eq (hindexed : Indexed ts) (hlong : LongOperators ts) {b : Builder}
    {stack : List Token} {i : Nat} (hb : Carries ts b stack) (hsound : b.toPass.Sound ts.length i)
    (hi : i ≤ ts.length) :
    passFrom ts b i (ts.drop i) =
      ofExcept ((Bracket.pairsFrom stack (ts.drop i)).map fun pairs =>
        ⟨b.toPass.run ts.length (behind ts i) (ahead ts i), [], pairs.foldl note b.brackets⟩) := by
  by_cases hlt : i < ts.length
  · have ht : ts[i]? = some ts[i] := List.getElem?_eq_getElem hlt
    rw [List.drop_eq_getElem_cons hlt, passFrom, step]
    by_cases hspace : ts[i].isSpace
    · rw [if_pos hspace, Bracket.pairsFrom_other (not_isOpenBracket_of_isSpace hspace)
        (not_isCloseBracket_of_isSpace hspace), ahead_of_space ht hspace]
      have hbehind : behind ts i = behind ts (i + 1) := by rw [behind_succ ht, if_pos hspace]
      rw [hbehind]
      exact passFrom_eq hindexed hlong hb (hsound.mono (Nat.le_succ i)) hlt
    · obtain ⟨x, htoken, rfl, hx⟩ := exists_heads hindexed hlt hspace
      have hahead := hx.ahead_index
      have hbehind : behind ts (x.index + 1) = x :: behind ts x.index := behind_succ_of_heads hx
      rw [hx.after] at hahead
      rw [if_neg hspace, ← htoken, hahead]
      -- the pass goes on behind the lexeme with the brackets that it leaves open
      have hnext {b' : Builder} {stack' : List Token} (hb' : Carries ts b' stack')
          (hbracket : bracket ts b x.index x.toToken = .ok b')
          (hpass : b'.toPass = b.toPass.bracket x) :
          ((do
            let b ← bracket ts b x.index x.toToken
            if b.skipUntil ≤ x.index then
              return { b with toPass := ← statement ts b.toPass x.index }
            else return b) >>= fun b => passFrom ts b (x.index + 1) (ts.drop (x.index + 1))) =
          ofExcept ((Bracket.pairsFrom stack' (ts.drop (x.index + 1))).map fun pairs =>
            ⟨b.toPass.run ts.length (behind ts x.index) (x :: ahead ts (x.index + 1)), [],
              pairs.foldl note b'.brackets⟩) := by
        have hsound' : b'.toPass.Sound ts.length x.index := hpass ▸ hsound.bracket hlt
        have hstep : b.toPass.step ts.length (behind ts x.index) x (ahead ts (x.index + 1)) =
            if b'.skipUntil ≤ x.index then
              b'.toPass.statement ts.length (behind ts x.index) x (ahead ts (x.index + 1))
            else b'.toPass := by
          rw [Pass.step_eq, ← hpass]
        have hlater := hsound.step hlt (behind ts x.index) (rising_ahead hindexed (x.index + 1))
        rw [hbracket, ok_bind, Pass.run, ← hbehind]
        by_cases hskip : b'.skipUntil ≤ x.index
        · rw [if_pos hskip] at hstep
          rw [hstep] at hlater ⊢
          rw [if_pos hskip, statement_of_heads hindexed hlong hsound' hx, ok_bind, pure_eq_ok,
            ok_bind]
          exact passFrom_eq hindexed hlong ⟨hb'.opened, hb'.tokens,
            (congrArg List.length (Pass.scopes_statement ..)).trans hb'.scopes, hb'.size⟩ hlater hlt
        · rw [if_neg hskip] at hstep
          rw [hstep] at hlater ⊢
          rw [if_neg hskip, pure_eq_ok, ok_bind]
          exact passFrom_eq hindexed hlong hb' hlater hlt
      by_cases hopen : x.isOpenBracket
      · rw [Bracket.pairsFrom_open hopen]
        have hbracket : bracket ts b x.index x.toToken =
            .ok ⟨b.toPass.openBracket x, x.index :: b.opened, b.brackets⟩ := by
          unfold bracket
          rw [if_pos hopen, openBracket_of_heads hx]
        have hopened := hnext (hb.openBracket hx hopen) hbracket (by
          unfold Pass.bracket
          rw [if_pos hopen])
        exact hopened
      by_cases hclose : x.isCloseBracket
      · have hbracket : bracket ts b x.index x.toToken = closeBracket ts b x.index := by
          unfold bracket
          rw [if_neg hopen, if_pos hclose]
        cases stack with
        | nil =>
          rw [hbracket, closeBracket_of_nil hb hx, Bracket.pairsFrom_unmatched hclose]
          rfl
        | cons o stack =>
          by_cases hfits : Bracket.Fits o x.toToken
          · rw [Bracket.pairsFrom_fits hfits]
            have hclosed := hnext (hb.closeBracket (o.index, x.index))
              (hbracket.trans (closeBracket_of_fits hb hsound hx hfits)) (by
                unfold Pass.bracket
                rw [if_neg hopen, if_pos hclose])
            rw [hclosed]
            cases Bracket.pairsFrom stack (ts.drop (x.index + 1)) <;> rfl
          · rw [hbracket, closeBracket_of_not_fits hb hx hclose hfits,
              Bracket.pairsFrom_mismatched (hb.tokens o List.mem_cons_self).2 hclose hfits]
            rfl
      · rw [Bracket.pairsFrom_other (Bool.eq_false_iff.mpr hopen)
          (Bool.eq_false_iff.mpr hclose)]
        refine hnext hb ?_ ?_
        · unfold bracket
          rw [if_neg hopen, if_neg hclose]
          rfl
        · unfold Pass.bracket
          rw [if_neg hopen, if_neg hclose]
  · obtain rfl : i = ts.length := by omega
    rw [List.drop_length, passFrom, ahead_of_le (Nat.le_refl _)]
    cases stack with
    | nil =>
      obtain ⟨p, opened, brackets⟩ := b
      obtain rfl : opened = [] := hb.opened
      rfl
    | cons o stack =>
      rw [hb.opened, List.map_cons]
      dsimp only
      rw [(hb.tokens o List.mem_cons_self).1]
      rfl
termination_by ts.length - i

end PhpLint.Checked
